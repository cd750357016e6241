import Hidering.Db.Invariant
import Hidering.Verify.Accepted
import Hidering.Verify.Soundness

/-!
# Value conservation

The values that an accepted transaction spends are the values that it creates, plus its fee. For a
transparent spend, all of whose inputs are post-quantum, the values are the revealed amounts, which
check (b2) ties to the commitments on the chain; for a hybrid one they are what the rings, the
balance equation and the range proofs leave possible.

## Main definitions

* `Hidering.boundValue` — the value on the chain of the output that a post-quantum input spends
* `Hidering.TransparentConserved`

## Main results

* `Hidering.transparent_spend_conserves`
-/

namespace Hidering

open Wire Machine Check Crypto

variable {c : Crypto}

/-! ### Post-quantum inputs -/

/-- The value bound by the stored commitment of the output that a post-quantum input references. -/
noncomputable def boundValue (P : Pedersen c) (db : Db) (i : TxinToKeyPq) : ℕ :=
  ((db.getOutputKey c 0 i.spentOutputIndex).map fun od => P.value od.commitment).getD 0

/-- Check (b2): the declared amount is the value on the chain. -/
theorem PqInputAccepted.boundValue_eq (P : Pedersen c) {view : ChainView} {message : Hash}
    {i : TxinToKeyPq} {od : OutputData} (h : PqInputAccepted c view message i od)
    (hknown : P.Opens (c.commit i.amount i.mask) (i.amount.toNat : ℕ) (scalarOf i.mask)) :
    boundValue P view.db i = i.amount.toNat := by
  rw [boundValue, h.output, Option.map_some, Option.getD_some, h.commitment]
  exact Commit.Openings.value_eq hknown (i.amount.toNat_lt.trans_le two_pow_64_le_groupOrder)

theorem sum_boundValue (P : Pedersen c) {view : ChainView} {tx : Transaction}
    (hknown : P.Revealed tx) (h : checkPqPass c view tx = .ok ()) :
    ((pqInputs tx).map (boundValue P view.db)).sum =
      exactSum ((pqInputs tx).map TxinToKeyPq.amount) := by
  rw [exactSum, List.map_map]
  congr 1
  refine List.map_congr_left fun i hi => ?_
  obtain ⟨od, hod⟩ := checkPqPass_ok h hi
  exact hod.boundValue_eq P (hknown i hi)

theorem pqImages_sublist (vin : List Txin) :
    ((vin.filterMap Txin.toKeyPq?).map fun i => c.getPqInputKeyImage i.realOutputKey).Sublist
      (vin.filterMap (spentImage c)) := by
  induction vin with
  | nil => exact .slnil
  | cons a vin ih =>
    cases a with
    | toKeyPq i => exact ih.cons_cons _
    | toKey i => exact ih.cons _
    | gen _ => exact ih
    | toScript _ => exact ih
    | toScripthash _ => exact ih

/-- Two inputs that reference one output reveal the same key, and so have the same image. -/
theorem spentOutputIndex_nodup {view : ChainView} {tx : Transaction}
    (h : checkPqPass c view tx = .ok ()) (himages : (tx.vin.filterMap (spentImage c)).Nodup) :
    ((pqInputs tx).map TxinToKeyPq.spentOutputIndex).Nodup := by
  let imageAt (index : UInt64) : KeyImage :=
    ((view.db.getOutputKey c 0 index).map fun od => c.getPqInputKeyImage od.pubkey).getD default
  have hmap : ((pqInputs tx).map TxinToKeyPq.spentOutputIndex).map imageAt =
      (pqInputs tx).map fun i => c.getPqInputKeyImage i.realOutputKey := by
    rw [List.map_map]
    refine List.map_congr_left fun i hi => ?_
    obtain ⟨od, hod⟩ := checkPqPass_ok h hi
    simp [imageAt, hod.output, hod.key]
  refine List.Nodup.of_map imageAt ?_
  rw [hmap]
  exact himages.sublist (pqImages_sublist tx.vin)

/-! ### Transparent spends -/

section Transparent

variable {tx : Transaction} (hall : ∀ i ∈ tx.vin, i.isToKeyPq = true)

include hall

theorem inputAmounts_of_all : inputAmounts tx.vin = (pqInputs tx).map TxinToKeyPq.amount := by
  rw [inputAmounts, pqInputs, List.map_filterMap]
  refine List.filterMap_congr fun i hi => ?_
  have hpq := hall i hi
  cases i with
  | toKeyPq i => rfl
  | gen _ => cases hpq
  | toScript _ => cases hpq
  | toScripthash _ => cases hpq
  | toKey _ => cases hpq

theorem nRing_of_all : nRing tx = 0 := by
  rw [nRing, List.length_eq_zero_iff, List.filter_eq_nil_iff]
  intro i hi
  simp [hall i hi]

theorem hasTransparentPqInput_of_all (hne : tx.vin ≠ []) : hasTransparentPqInput tx = true := by
  obtain ⟨i, hi⟩ := List.exists_mem_of_ne_nil _ hne
  exact List.any_eq_true.mpr ⟨i, hi, hall i hi⟩

/-- Check (e) for a transparent spend. -/
theorem conservation_of_all (h : checkPqConservation tx = .ok ()) :
    tx.version = 2 ∧ tx.rctSignatures.type = rctTypeNull ∧
      exactSum (inputAmounts tx.vin) < 2 ^ 64 ∧ exactSum (tx.vout.map TxOut.amount) < 2 ^ 64 ∧
      exactSum (tx.vout.map TxOut.amount) ≤ exactSum (inputAmounts tx.vin) := by
  rw [checkPqConservation, nRing_of_all hall, if_neg (by simp), ofOption_bind_ok] at h
  obtain ⟨ins, hins, h⟩ := h
  rw [ensure_bind_ok, ofOption_bind_ok] at h
  obtain ⟨hv, outs, houts, h⟩ := h
  obtain ⟨hinlt, hin⟩ := checkedSum_eq_some.mp hins
  obtain ⟨houtlt, hout⟩ := checkedSum_eq_some.mp houts
  simp only [Bool.and_eq_true, beq_iff_eq] at hv
  have hle : outs ≤ ins := by simpa using h
  rw [UInt64.le_iff_toNat_le] at hle
  rw [inputAmounts_of_all hall]
  simp only [UInt64.toNat_zero, Nat.zero_add] at hinlt hin houtlt hout
  exact ⟨hv.1, hv.2, hinlt, houtlt, by omega⟩

omit hall

/-- The outputs of a transparent spend are stored in the bucket of amount 0, under commitments to
their revealed amounts. -/
theorem stored_of_pseudoRct (P : Pedersen c) {blob : Bytes} {txHash : Hash} {db db' : Db}
    (hpseudo : outputsStoredAsPseudoRct tx = true)
    (h : addTransaction c tx blob txHash db = .ok () db') {k : ℕ} {out : TxOut}
    (hout : tx.vout[k]? = some out) :
    ∃ index ok commitment, (db'.outputAmounts 0).get? index = some ok ∧
      db'.outputTxs.get? ok.outputId = some ⟨txHash, k⟩ ∧
      getOutputPublicKey out = some ok.pubkey ∧ ok.commitment = some commitment ∧
      P.Opens commitment (out.amount.toNat : ℕ) 1 := by
  obtain ⟨indices, -, hlen, hstored⟩ := (addTransaction_ok h).stored
  have hk : k < indices.length := by
    rw [hlen]
    exact (List.getElem?_eq_some_iff.mp hout).1
  obtain ⟨ok, stored, hso, hget, hid, hkey, -, -, hcommit⟩ :=
    hstored hout (List.getElem?_eq_getElem hk)
  have hbucket : bucketOf tx out = 0 := by rw [bucketOf, if_pos hpseudo]
  rw [hbucket] at hget
  rw [storedOutput, if_pos hpseudo] at hso
  obtain rfl := Option.some.inj hso
  rw [if_pos hbucket] at hcommit
  exact ⟨_, ok, _, hget, hid, hkey, hcommit, P.zeroCommit out.amount⟩

end Transparent

/-- What a transparent spend conserves: no sum of amounts wraps around, the fee is what the inputs
have above the outputs, the inputs reference different outputs, whose values on the chain sum up to
the outputs and the fee, and wherever the transaction is added its outputs are stored in the bucket
of amount 0 under commitments to their revealed amounts. -/
structure TransparentConserved (P : Pedersen c) (db : Db) (tx : Transaction) : Prop where
  inputs_lt : exactSum (inputAmounts tx.vin) < 2 ^ 64
  outputs_lt : exactSum (tx.vout.map TxOut.amount) < 2 ^ 64
  inputs_sum : (sum (inputAmounts tx.vin)).toNat = exactSum (inputAmounts tx.vin)
  outputs_sum : (getOutsMoneyAmount tx).toNat = exactSum (tx.vout.map TxOut.amount)
  fee : getTxFee? tx = some (getTxFee tx)
  exist : ∀ i ∈ pqInputs tx,
    (db.getOutputKey c 0 i.spentOutputIndex).isSome
  distinct : ((pqInputs tx).map TxinToKeyPq.spentOutputIndex).Nodup
  balance : ((pqInputs tx).map (boundValue P db)).sum =
    exactSum (tx.vout.map TxOut.amount) + (getTxFee tx).toNat
  stored : ∀ {blob txHash db₁ db₂}, addTransaction c tx blob txHash db₁ = .ok () db₂ →
    ∀ {k out}, tx.vout[k]? = some out →
      ∃ index ok commitment, (db₂.outputAmounts 0).get? index = some ok ∧
        db₂.outputTxs.get? ok.outputId = some ⟨txHash, k⟩ ∧
        getOutputPublicKey out = some ok.pubkey ∧ ok.commitment = some commitment ∧
        P.Opens commitment (out.amount.toNat : ℕ) 1

/-- **Transparent spends conserve value.** A transaction with post-quantum inputs only that passes
both sets of checks spends exactly what it creates and pays. The openings that it reveals are among
the known ones, which are binding. -/
theorem transparent_spend_conserves (P : Pedersen c) (view : ChainView) {cache : RctVerCache c}
    {tx : Transaction} {txs : List Transaction} {r : ℕ × RctVerCache c}
    (hknown : P.Revealed tx) (hf : hfVersionPq ≤ view.hfVersion)
    (hall : ∀ i ∈ tx.vin, i.isToKeyPq = true)
    (hnic : verNonInputConsensus c view.hfVersion txs = .ok ()) (htx : tx ∈ txs)
    (hin : checkTxInputs c view cache tx = .ok r) : TransparentConserved P view.db tx := by
  obtain ⟨rings, hacc⟩ := checkTxInputs_ok hf hin
  have hsem := (verNonInputConsensus_ok hnic htx).semantic
  have hany := hasTransparentPqInput_of_all hall hsem.nonempty
  obtain ⟨hv, htype, hinlt, houtlt, hle⟩ :=
    conservation_of_all hall (checkPqConservation_of_pass hacc.pqPass hany)
  have hinsum := toNat_sum hinlt
  have houtsum : (getOutsMoneyAmount tx).toNat =
      exactSum (tx.vout.map TxOut.amount) := toNat_sum houtlt
  have hsub : getOutsMoneyAmount tx ≤ sum (inputAmounts tx.vin) := by
    rw [UInt64.le_iff_toNat_le]
    omega
  have hfee : getTxFee? tx = some (sum (inputAmounts tx.vin) - getOutsMoneyAmount tx) := by
    rw [getTxFee?, if_pos ⟨hany, by rw [hv]; decide, htype⟩, if_pos hsub]
  have hfeeNat : (getTxFee tx).toNat =
      exactSum (inputAmounts tx.vin) - exactSum (tx.vout.map TxOut.amount) := by
    rw [getTxFee, hfee, Option.getD_some, UInt64.toNat_sub_of_le _ _ hsub]
    omega
  refine ⟨hinlt, houtlt, hinsum, houtsum, by rw [getTxFee, hfee]; rfl, ?_,
    spentOutputIndex_nodup hacc.pqPass hsem.images, ?_, ?_⟩
  · intro i hi
    obtain ⟨od, hod⟩ := checkPqPass_ok hacc.pqPass hi
    rw [hod.output]
    rfl
  · rw [sum_boundValue P hknown hacc.pqPass, ← inputAmounts_of_all hall, hfeeNat]
    omega
  · intro blob txHash db₁ db₂ hadd k out hout
    refine stored_of_pseudoRct P ?_ hadd hout
    simp [outputsStoredAsPseudoRct, hany, htype]

/-- An extra field with a binding tag for the first output. -/
def bindExtra : Bytes := [0x08, 0x00] ++ List.replicate 32 0

/-- A block at height `h` whose miner transaction has one output, with a binding tag. -/
def boundBlock (majorVersion : UInt8) (h : ℕ) : Block where
  majorVersion := majorVersion
  minorVersion := majorVersion
  timestamp := 0
  prevId := natLe h
  nonce := 0
  minerTx :=
    { version := 2
      unlockTime := UInt64.ofNat (h + cryptonoteMinedMoneyUnlockWindow)
      vin := [.gen (UInt64.ofNat h)]
      vout := [⟨initialBlockReward, .toTaggedKey ⟨natLe (h + 1), 0⟩⟩]
      extra := bindExtra }
  txHashes := []

/-- The calls of `add_block` for `n` such blocks, the first one of version 1. -/
def boundChain (majorVersion : UInt8) (n : ℕ) :
    List (Block × BlockMeta × List (Transaction × Bytes)) :=
  (List.range n).map fun h => (boundBlock (if h = 0 then 1 else majorVersion) h, ⟨0, 0, 0, 0⟩, [])

/-- A transparent spend of the output mined at height `h` of such a chain. -/
def boundSpend (h : ℕ) : Transaction where
  version := 2
  vin := [.toKeyPq
    { amount := initialBlockReward
      spentOutputIndex := UInt64.ofNat h
      realOutputKey := natLe (h + 1)
      mask := identity
      ownerSig := default
      authType := pqAuthTypeMldsa65
      authBlind := default
      auth := default }]
  vout := [⟨1000, .toTaggedKey ⟨natLe 1000, 0⟩⟩, ⟨2000, .toTaggedKey ⟨natLe 1001, 0⟩⟩]
  extra := 0x01 :: List.replicate 32 0

/-- A chain of ten blocks on which the spends of the first and the last mined output are accepted. -/
theorem exists_boundSpend_passes : ∃ db, Reachable transparent 0 db ∧
    passes (checkTxInputs transparent ⟨db, 16, 0⟩ .empty (boundSpend 0)) = true ∧
    passes (checkTxInputs transparent ⟨db, 16, 0⟩ .empty (boundSpend 9)) = true := by
  obtain ⟨⟨⟩, db, hrun, hdb⟩ := Store.exists_of_okAnd
    (r := addBlocks transparent (boundChain 16 10) (Db.empty 0))
    (p := fun _ db => passes (checkTxInputs transparent ⟨db, 16, 0⟩ .empty (boundSpend 0)) &&
      passes (checkTxInputs transparent ⟨db, 16, 0⟩ .empty (boundSpend 9)))
    (by decide +kernel)
  exact ⟨db, .of_solo (by decide +kernel) (by decide +kernel) hrun, Bool.and_eq_true_iff.mp hdb⟩

/-- A chain of ten blocks, and a spend of the first mined output that both sets of checks accept. -/
theorem transparent_spend_conserves_first_output :
    ∃ db r, checkTxInputs transparent ⟨db, 16, 0⟩ .empty (boundSpend 0) = .ok r ∧
      TransparentConserved transparentPedersen db (boundSpend 0) := by
  obtain ⟨db, -, hdb, -⟩ := exists_boundSpend_passes
  obtain ⟨r, hr⟩ := passes_iff.mp hdb
  have hnic : verNonInputConsensus transparent 16 [boundSpend 0] = .ok () :=
    ok_of_passes (by decide +kernel)
  have hall : ∀ i ∈ (boundSpend 0).vin, i.isToKeyPq = true := by simp [boundSpend]
  exact ⟨db, r, hr, transparent_spend_conserves transparentPedersen ⟨db, 16, 0⟩
    (transparentPedersen_revealed _) (UInt8.le_refl 16) hall hnic (List.mem_singleton.mpr rfl) hr⟩

end Hidering
