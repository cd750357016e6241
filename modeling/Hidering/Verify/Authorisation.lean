import Hidering.Verify.Balance
import Hidering.Verify.Gate

/-!
# What the signatures of the post-quantum inputs cover

The two signatures of a post-quantum input sign the hash of the transaction prefix with the
signatures of all such inputs zeroed. The encoding of a prefix is faithful, so that everything in
the prefix but these signatures is determined by the message, as long as Keccak does not collide on
the two encodings. A transaction that is changed while its signatures are kept is then refused,
unless one of the signatures is valid for a message that it was not made for.

A prefix that has no encoding (an unknown version or authorisation type, which the parser refuses)
has no hash to speak of, and is not considered.

## Main definitions

* `Hidering.signedPrefix`, `signedBytes`
* `Hidering.SameUpToSignatures`
* `Hidering.ValidForOther` — a signature is valid for the messages of two transactions

## Main results

* `Hidering.sameUpToSignatures_of_pqInHash_eq`
* `Hidering.pqSignatures_cover`
-/

namespace Hidering

open Wire Wire.Format Machine Check Crypto

variable {c : Crypto}

/-! ### The signed prefix -/

/-- The prefix that the signatures of the post-quantum inputs sign. -/
def signedPrefix (tx : TransactionPrefix) : TransactionPrefix :=
  { tx with vin := tx.vin.map zeroPqSigs }

/-- The bytes whose hash is the message of the post-quantum inputs. -/
def signedBytes (tx : TransactionPrefix) : Bytes := (prefixFormat.write (signedPrefix tx)).getD []

theorem isSome_write_zeroPqSigs {i : Txin} (h : (txinFormat.write i).isSome) :
    (txinFormat.write (zeroPqSigs i)).isSome := by
  cases i with
  | toKeyPq i =>
    have hmap : ∀ i : TxinToKeyPq, txinFormat.write (.toKeyPq i) =
        (txinToKeyPqFormat.write i).map fun x => 0x3 :: x := fun _ => rfl
    rw [hmap, Option.isSome_map] at h
    rw [zeroPqSigs, hmap, Option.isSome_map]
    -- the signatures are blobs, which can always be written
    simp only [txinToKeyPqFormat, imap, isSome_seq] at h ⊢
    obtain ⟨hamount, hindex, hkey, hmask, -, htype, hblind, -⟩ := h
    exact ⟨hamount, hindex, hkey, hmask, rfl, htype, hblind, rfl⟩
  | gen _ => exact h
  | toScript _ => exact h
  | toScripthash _ => exact h
  | toKey _ => exact h

theorem isSome_write_signedPrefix {tx : TransactionPrefix} (h : (prefixFormat.write tx).isSome) :
    (prefixFormat.write (signedPrefix tx)).isSome := by
  simp only [prefixFormat, imap, isSome_seq] at h ⊢
  obtain ⟨hversion, hunlock, hvin, hvout, hextra⟩ := h
  obtain ⟨hfit, hvin⟩ := isSome_vector.mp hvin
  refine ⟨hversion, hunlock, isSome_vector.mpr ⟨?_, fun i hi => ?_⟩, hvout, hextra⟩
  · rw [signedPrefix, List.length_map]
    exact hfit
  · obtain ⟨j, hj, rfl⟩ := List.mem_map.mp hi
    exact isSome_write_zeroPqSigs (hvin j hj)

/-- Two transactions agree in everything but the signatures of their post-quantum inputs. -/
structure SameUpToSignatures (tx₁ tx₂ : TransactionPrefix) : Prop where
  version : tx₁.version = tx₂.version
  unlockTime : tx₁.unlockTime = tx₂.unlockTime
  vin : tx₁.vin.map zeroPqSigs = tx₂.vin.map zeroPqSigs
  vout : tx₁.vout = tx₂.vout
  extra : tx₁.extra = tx₂.extra

theorem sameUpToSignatures_of_signedPrefix_eq {tx₁ tx₂ : TransactionPrefix}
    (h : signedPrefix tx₁ = signedPrefix tx₂) : SameUpToSignatures tx₁ tx₂ := by
  simp only [signedPrefix, TransactionPrefix.mk.injEq] at h
  obtain ⟨hversion, hunlock, hvin, hvout, hextra⟩ := h
  exact ⟨hversion, hunlock, hvin, hvout, hextra⟩

variable (c) in
/-- A collision of Keccak. -/
def HashCollision (x y : Bytes) : Prop := x ≠ y ∧ c.cnFastHash x = c.cnFastHash y

/-- The message determines the transaction up to the signatures. -/
theorem sameUpToSignatures_of_pqInHash_eq {tx₁ tx₂ : TransactionPrefix}
    (hwire : (prefixFormat.write tx₁).isSome)
    (hhash : ¬ HashCollision c (signedBytes tx₁) (signedBytes tx₂))
    (h : pqInHash c tx₁ = pqInHash c tx₂) : SameUpToSignatures tx₁ tx₂ := by
  have hbytes : signedBytes tx₁ = signedBytes tx₂ := by
    by_contra hne
    exact hhash ⟨hne, h⟩
  obtain ⟨bs, hbs⟩ := Option.isSome_iff_exists.mp (isSome_write_signedPrefix hwire)
  rw [signedBytes, signedBytes, hbs, Option.getD_some] at hbytes
  apply sameUpToSignatures_of_signedPrefix_eq
  cases h₂ : prefixFormat.write (signedPrefix tx₂) with
  | some bs₂ =>
    rw [h₂, Option.getD_some] at hbytes
    subst hbytes
    exact prefixFormat_faithful.write_injective hbs h₂
  | none =>
    -- an encoding is never empty
    rw [h₂, Option.getD_none] at hbytes
    have hpos : 0 < bs.length :=
      imap_nonemptyCode (seq_nonemptyCode_left (check_nonemptyCode varint_nonemptyCode)) hbs
    rw [hbytes] at hpos
    exact absurd hpos (Nat.lt_irrefl 0)

/-! ### Fees -/

theorem inputAmounts_map_zeroPqSigs (vin : List Txin) :
    inputAmounts (vin.map zeroPqSigs) = inputAmounts vin := by
  rw [inputAmounts, inputAmounts, List.filterMap_map]
  refine List.filterMap_congr fun i _ => ?_
  cases i <;> rfl

theorem any_isToKeyPq_map_zeroPqSigs (vin : List Txin) :
    (vin.map zeroPqSigs).any Txin.isToKeyPq = vin.any Txin.isToKeyPq := by
  rw [List.any_map]
  congr 1
  funext i
  cases i <;> rfl

theorem all_isToKeyPq_map_zeroPqSigs (vin : List Txin) :
    (vin.map zeroPqSigs).all Txin.isToKeyPq = vin.all Txin.isToKeyPq := by
  rw [List.all_map]
  congr 1
  funext i
  cases i <;> rfl

/-- The fee of a transparent spend does not depend on its signatures. -/
theorem SameUpToSignatures.getTxFee?_eq {tx₁ tx₂ : Transaction}
    (h : SameUpToSignatures tx₁ tx₂)
    (hpq : hasTransparentPqInput tx₁ = true) (hv : 2 ≤ tx₁.version)
    (h₁ : tx₁.rctSignatures.type = rctTypeNull) (h₂ : tx₂.rctSignatures.type = rctTypeNull) :
    getTxFee? tx₂ = getTxFee? tx₁ := by
  have hpq₂ : hasTransparentPqInput tx₂ = true := by
    rw [hasTransparentPqInput, ← any_isToKeyPq_map_zeroPqSigs, ← h.vin,
      any_isToKeyPq_map_zeroPqSigs]
    exact hpq
  have hamounts : inputAmounts tx₂.vin = inputAmounts tx₁.vin := by
    rw [← inputAmounts_map_zeroPqSigs, ← h.vin, inputAmounts_map_zeroPqSigs]
  have houts : getOutsMoneyAmount tx₂ = getOutsMoneyAmount tx₁ := by
    rw [getOutsMoneyAmount, getOutsMoneyAmount, h.vout]
  have hleft : hasTransparentPqInput tx₂ = true ∧ 2 ≤ tx₂.version ∧
      tx₂.rctSignatures.type = rctTypeNull := ⟨hpq₂, h.version ▸ hv, h₂⟩
  have hright : hasTransparentPqInput tx₁ = true ∧ 2 ≤ tx₁.version ∧
      tx₁.rctSignatures.type = rctTypeNull := ⟨hpq, hv, h₁⟩
  simp only [getTxFee?, if_pos hleft, if_pos hright, hamounts, houts]

/-! ### Changed transactions -/

/-- Every post-quantum input of `tx₂` carries signatures of `tx₁`. -/
def KeepsSignatures (tx₁ tx₂ : TransactionPrefix) : Prop :=
  ∀ i ∈ pqInputs tx₂, (∃ j ∈ pqInputs tx₁, i.auth.sig = j.auth.sig) ∧
    ∃ j ∈ pqInputs tx₁, i.ownerSig = j.ownerSig

variable (c) in
/-- A signature that was made for `tx₁` and that `tx₂` carries is valid for the message of `tx₁` and
for that of `tx₂`, which is a different one; this holds for both kinds of signature. -/
def ValidForOther (tx₁ tx₂ : TransactionPrefix) : Prop :=
  pqInHash c tx₂ ≠ pqInHash c tx₁ ∧
  (∃ j ∈ pqInputs tx₁, ∃ i ∈ pqInputs tx₂, i.auth.sig = j.auth.sig ∧
    c.pqcTxVerify (pqInHash c tx₁) j.auth = true ∧
    c.pqcTxVerify (pqInHash c tx₂) i.auth = true) ∧
  ∃ j ∈ pqInputs tx₁, ∃ i ∈ pqInputs tx₂, i.ownerSig = j.ownerSig ∧
    c.checkSignature (pqInHash c tx₁) j.realOutputKey j.ownerSig = true ∧
    c.checkSignature (pqInHash c tx₂) i.realOutputKey i.ownerSig = true

/-- The post-quantum pass is behind every accepted transaction with a post-quantum input. -/
theorem checkPqPass_of_checkTxInputs {view : ChainView} {cache : RctVerCache c} {tx : Transaction}
    {r : ℕ × RctVerCache c} (h : checkTxInputs c view cache tx = .ok r)
    (hpq : hasTransparentPqInput tx = true) :
    checkPqPass c view tx = .ok () := by
  have hf : hfVersionPq ≤ view.hfVersion := by
    by_contra hlt
    have hno := noPq_of_checkTxInputs (UInt8.not_le.mp hlt) h
    exact Bool.false_ne_true (hno.symm.trans hpq)
  obtain ⟨rings, hacc⟩ := checkTxInputs_ok hf h
  exact hacc.pqPass

theorem exists_mem_pqInputs {tx : TransactionPrefix} (h : hasTransparentPqInput tx = true) :
    ∃ i, i ∈ pqInputs tx := by
  obtain ⟨a, ha, hpq⟩ := List.any_eq_true.mp h
  cases a with
  | toKeyPq i => exact ⟨i, List.mem_filterMap.mpr ⟨_, ha, rfl⟩⟩
  | gen _ => cases hpq
  | toScript _ => cases hpq
  | toScripthash _ => cases hpq
  | toKey _ => cases hpq

section Accepted

variable {tx₁ tx₂ : Transaction} {view₁ view₂ : ChainView}

/-- Two accepted transactions with different messages, the second one with the signatures of the
first. -/
theorem validForOther_of_accepted (h₁ : checkPqPass c view₁ tx₁ = .ok ())
    (h₂ : checkPqPass c view₂ tx₂ = .ok ())
    (hpq₂ : hasTransparentPqInput tx₂ = true)
    (hkeep : KeepsSignatures tx₁ tx₂)
    (hmessage : pqInHash c tx₂ ≠ pqInHash c tx₁) :
    ValidForOther c tx₁ tx₂ := by
  obtain ⟨i, hi⟩ := exists_mem_pqInputs hpq₂
  obtain ⟨⟨j, hj, hauth⟩, k, hk, howner⟩ := hkeep i hi
  obtain ⟨_, hiacc⟩ := checkPqPass_ok h₂ hi
  obtain ⟨_, hjacc⟩ := checkPqPass_ok h₁ hj
  obtain ⟨_, hkacc⟩ := checkPqPass_ok h₁ hk
  exact ⟨hmessage, ⟨j, hj, i, hi, hauth, hjacc.auth, hiacc.auth⟩,
    k, hk, i, hi, howner, hkacc.owner, hiacc.owner⟩

/-- Check (e) of a transparent spend. -/
theorem transparent_of_pass (h : checkPqPass c view₁ tx₁ = .ok ())
    (hpq : hasTransparentPqInput tx₁ = true)
    (hall : tx₁.vin.all Txin.isToKeyPq = true) :
    tx₁.version = 2 ∧ tx₁.rctSignatures.type = rctTypeNull := by
  have hcons := checkPqConservation_of_pass h hpq
  have hn := nRing_of_all (List.all_eq_true.mp hall)
  rw [checkPqConservation, hn, if_neg (Nat.lt_irrefl 0), ofOption_bind_ok] at hcons
  obtain ⟨pqInSum, -, hcons⟩ := hcons
  rw [ensure_bind_ok, Bool.and_eq_true, beq_iff_eq, beq_iff_eq] at hcons
  exact hcons.1

end Accepted

/-- **The signatures of the post-quantum inputs cover the transaction.** Let `tx₁` have an encoding,
and let Keccak not collide on what the post-quantum inputs of `tx₁` and `tx₂` sign. If both have
post-quantum inputs and sign the same message, then they agree in version, unlock time, outputs,
extra field and inputs, up to the signatures. And if `tx₁` is accepted and all its inputs are
post-quantum, then of every `tx₂` that keeps the signatures of `tx₁`: if it differs in anything
else, `check_tx_inputs` refuses it, or a signature is valid for a message that it was not made for;
and if it is accepted, its fee is that of `tx₁`, or again a signature is valid for another
message. -/
theorem pqSignatures_cover (c : Crypto) (tx₁ tx₂ : Transaction)
    (hwire : (prefixFormat.write tx₁).isSome)
    (hhash : ¬ HashCollision c (signedBytes tx₁) (signedBytes tx₂)) :
    (hasTransparentPqInput tx₁ = true →
      hasTransparentPqInput tx₂ = true →
      pqInHash c tx₁ = pqInHash c tx₂ →
      SameUpToSignatures tx₁ tx₂) ∧
    ∀ (view₁ view₂ : ChainView) (cache₁ cache₂ : RctVerCache c),
      passes (checkTxInputs c view₁ cache₁ tx₁) = true →
      hasTransparentPqInput tx₁ = true →
      tx₁.vin.all Txin.isToKeyPq = true →
      hasTransparentPqInput tx₂ = true →
      KeepsSignatures tx₁ tx₂ →
      (¬ SameUpToSignatures tx₁ tx₂ →
        passes (checkTxInputs c view₂ cache₂ tx₂) = false ∨ ValidForOther c tx₁ tx₂) ∧
      (passes (checkTxInputs c view₂ cache₂ tx₂) = true →
        getTxFee? tx₂ = getTxFee? tx₁ ∨ ValidForOther c tx₁ tx₂) := by
  have hsame := sameUpToSignatures_of_pqInHash_eq (c := c) hwire hhash
  refine ⟨fun _ _ heq => hsame heq, fun view₁ view₂ cache₁ cache₂ hacc₁ hpq₁ hall hpq₂ hkeep => ?_⟩
  obtain ⟨r₁, hr₁⟩ := passes_iff.mp hacc₁
  have hpass₁ := checkPqPass_of_checkTxInputs hr₁ hpq₁
  -- an accepted `tx₂` with another message has a signature that is valid for both
  have hother : passes (checkTxInputs c view₂ cache₂ tx₂) = true →
      ¬ SameUpToSignatures tx₁ tx₂ →
      ValidForOther c tx₁ tx₂ := by
    intro hacc₂ hdiff
    obtain ⟨r₂, hr₂⟩ := passes_iff.mp hacc₂
    exact validForOther_of_accepted hpass₁ (checkPqPass_of_checkTxInputs hr₂ hpq₂) hpq₂ hkeep
      fun heq => hdiff (hsame heq.symm)
  constructor
  · intro hdiff
    cases hacc₂ : passes (checkTxInputs c view₂ cache₂ tx₂) with
    | false => exact .inl rfl
    | true => exact .inr (hother hacc₂ hdiff)
  · intro hacc₂
    by_cases hs : SameUpToSignatures tx₁ tx₂
    · obtain ⟨r₂, hr₂⟩ := passes_iff.mp hacc₂
      have hall₂ : tx₂.vin.all Txin.isToKeyPq = true := by
        rw [← all_isToKeyPq_map_zeroPqSigs, ← hs.vin, all_isToKeyPq_map_zeroPqSigs]
        exact hall
      obtain ⟨hv, htype₁⟩ := transparent_of_pass hpass₁ hpq₁ hall
      obtain ⟨-, htype₂⟩ :=
        transparent_of_pass (checkPqPass_of_checkTxInputs hr₂ hpq₂) hpq₂ hall₂
      exact .inl (hs.getTxFee?_eq hpq₁ (by rw [hv]; decide) htype₁ htype₂)
    · exact .inr (hother hacc₂ hs)

/-- The spend `boundSpend 0` with another last byte of its extra field. -/
def changedSpend : Transaction :=
  { boundSpend 0 with extra := 0x01 :: List.replicate 31 0 ++ [1] }

/-- A chain of ten blocks, an accepted spend of its first output, and the same spend with one byte
changed. -/
theorem pqSignatures_cover_changed_extra :
    ∃ db, passes (checkTxInputs transparent ⟨db, 16, 0⟩ .empty (boundSpend 0)) = true ∧
      (passes (checkTxInputs transparent ⟨db, 16, 0⟩ .empty changedSpend) = false ∨
        ValidForOther transparent (boundSpend 0) changedSpend) := by
  obtain ⟨db, -, hdb, -⟩ := exists_boundSpend_passes
  have hwire : (prefixFormat.write (boundSpend 0)).isSome := by decide +kernel
  have hhash : ¬ HashCollision transparent (signedBytes (boundSpend 0))
      (signedBytes changedSpend) := fun h => absurd h.2 (by decide +kernel)
  have hkeep : KeepsSignatures (boundSpend 0) changedSpend := fun i hi => ⟨⟨i, hi, rfl⟩, i, hi, rfl⟩
  have hdiff : ¬ SameUpToSignatures (boundSpend 0) changedSpend := fun h => absurd h.extra (by decide)
  refine ⟨db, hdb, ?_⟩
  exact ((pqSignatures_cover transparent (boundSpend 0) changedSpend hwire hhash).2
    ⟨db, 16, 0⟩ ⟨db, 16, 0⟩ .empty .empty hdb rfl rfl rfl hkeep).1 hdiff

end Hidering
