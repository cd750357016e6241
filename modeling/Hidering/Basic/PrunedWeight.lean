import Hidering.Basic.Pruned
import Hidering.Wire.Size
import Mathlib.Tactic.IntervalCases
import Mathlib.Tactic.Ring

/-!
# The weight of a pruned transaction

`get_pruned_transaction_weight` adds the sizes of the signatures and range proofs that have been cut
off to the size of what is left. It takes one CLSAG and one pseudo-output per input, but the
serializer writes them for the ring inputs only. The two weights of a transaction therefore agree
if and only if no post-quantum input stands next to a ring (`prunedWeight_iff`); a transaction with
post-quantum inputs alone has nothing to cut off.

## Main definitions

* `Hidering.Transaction.Canonical` — the transactions of the two kinds, with canonical proofs

## Main results

* `Hidering.prunable_size` — the size of the prunable part
* `Hidering.prunedWeight_iff`
-/

namespace Hidering

open Wire Wire.Format List

variable {c : Crypto} {tx tx' : Transaction} {blob : Bytes}

/-! ### Pruned forms -/

/-- Setting the flag prunes a transaction. -/
theorem Transaction.isPrunedForm_flag (tx : Transaction) :
    tx.IsPrunedForm { tx with pruned := true } :=
  ⟨rfl, rfl, rfl, rfl⟩

/-! ### Canonical transactions -/

/-- There is one range proof for all outputs, with as many rounds as they need. -/
def Transaction.ProvesOnce (tx : Transaction) : Prop :=
  if tx.rctSignatures.type = rctTypeBulletproofPlus then
    ∃ bp, tx.rctSignatures.p.bulletproofsPlus = [bp] ∧ bp.l.length = 6 + log2Ceil tx.vout.length ∧
      bp.r.length = 6 + log2Ceil tx.vout.length
  else
    ∃ bp, tx.rctSignatures.p.bulletproofs = [bp] ∧ bp.l.length = 6 + log2Ceil tx.vout.length ∧
      bp.r.length = 6 + log2Ceil tx.vout.length

/-- A RingCT transaction, classic or hybrid, with canonical proofs. -/
structure Transaction.RingCanonical (tx : Transaction) : Prop where
  type : tx.rctSignatures.type = rctTypeClsag ∨ tx.rctSignatures.type = rctTypeBulletproofPlus
  inputs : ∀ i ∈ tx.vin, i.isToKey = true ∨ i.isToKeyPq = true
  ring : ∃ i ∈ tx.vin, i.isToKey = true
  two_le : 2 ≤ tx.vout.length
  le_max : tx.vout.length ≤ bulletproofMaxOutputs
  proof : tx.ProvesOnce

/-- A transaction that spends post-quantum outputs only. -/
structure Transaction.AllPq (tx : Transaction) : Prop where
  type : tx.rctSignatures.type = rctTypeNull
  inputs : ∀ i ∈ tx.vin, i.isToKeyPq = true
  nonempty : tx.vin ≠ []

/-- The transactions of version 2 that are compared. -/
structure Transaction.Canonical (tx : Transaction) : Prop where
  version : tx.version = 2
  complete : tx.pruned = false
  kind : tx.RingCanonical ∨ tx.AllPq

variable {n : ℕ}

theorem log2Ceil_le_four (h : n ≤ bulletproofMaxOutputs) : log2Ceil n ≤ 4 := by
  revert n
  decide

/-! ### The size of the prunable part -/

theorem keyFormat_sizeAt (k : Key) : keyFormat.SizeAt k 32 := blob_sizeAt k

theorem keysFormat_sizeAt {ks : List Key} (h : ks.length < 128) :
    keysFormat.SizeAt ks (1 + ks.length * 32) :=
  vector_sizeAt h fun k _ => keyFormat_sizeAt k

theorem bulletproofFormat_sizeAt {p : Bulletproof} (hl : p.l.length = n) (hr : p.r.length = n)
    (hn : n < 128) : bulletproofFormat.SizeAt p (32 * (9 + 2 * n) + 2) := by
  intro bs h
  have hkey := keyFormat_sizeAt
  have hbody := seq_sizeAt (hkey p.a) <| seq_sizeAt (hkey p.s) <| seq_sizeAt (hkey p.t1) <|
    seq_sizeAt (hkey p.t2) <| seq_sizeAt (hkey p.taux) <| seq_sizeAt (hkey p.mu) <|
    seq_sizeAt (keysFormat_sizeAt (hl.trans_lt hn)) <|
    seq_sizeAt (keysFormat_sizeAt (hr.trans_lt hn)) <| seq_sizeAt (hkey p.aa) <|
    seq_sizeAt (hkey p.b) (hkey p.t)
  have hchecked := write_of_check h
  have hlen := hbody bs hchecked
  omega

theorem bulletproofPlusFormat_sizeAt {p : BulletproofPlus} (hl : p.l.length = n)
    (hr : p.r.length = n) (hn : n < 128) :
    bulletproofPlusFormat.SizeAt p (32 * (6 + 2 * n) + 2) := by
  intro bs h
  have hkey := keyFormat_sizeAt
  have hbody := seq_sizeAt (hkey p.a) <| seq_sizeAt (hkey p.a1) <| seq_sizeAt (hkey p.b) <|
    seq_sizeAt (hkey p.r1) <| seq_sizeAt (hkey p.s1) <| seq_sizeAt (hkey p.d1) <|
    seq_sizeAt (keysFormat_sizeAt (hl.trans_lt hn)) (keysFormat_sizeAt (hr.trans_lt hn))
  have hchecked := write_of_check h
  have hlen := hbody bs hchecked
  omega

/-- A single proof: one byte for the count. -/
theorem proofsFormat_sizeAt {α : Type} {f : Format α} {maxAmounts : α → ℕ} {hmax} {outputs n : ℕ}
    {p : α} (hf : f.SizeAt p n) :
    (proofsFormat varint32 varint32_faithful f maxAmounts hmax outputs).SizeAt [p] (1 + n) := by
  intro bs h
  simp only [proofsFormat] at h
  obtain ⟨x, hx, h⟩ := Option.bind_eq_some_iff.mp h
  split at h
  · cases h
  · obtain ⟨y, hy, h⟩ := Option.bind_eq_some_iff.mp h
    split at h
    · cases h
    · have htake : [p].take (UInt32.ofNat [p].length).toNat = [p] := rfl
      rw [htake] at hy
      have hall : ∀ a ∈ [p], f.SizeAt a n := by
        intro a ha
        rw [mem_singleton.mp ha]
        exact hf
      have hlen := length_writeList hall hy
      have hone : (UInt32.ofNat [p].length).toNat < 128 := by
        change (UInt32.ofNat 1).toNat < 128
        decide
      rw [← Option.some.inj h, length_append, varint32_sizeAt hone x hx, hlen,
        length_singleton, Nat.one_mul]

theorem clsagFormat_sizeAt (mixin : ℕ) (s : Clsag) :
    (clsagFormat mixin).SizeAt s ((mixin + 1 + 2) * 32) := by
  intro bs h
  have hkeys : (listN keyFormat (mixin + 1)).SizeAt s.s ((mixin + 1) * 32) :=
    listN_sizeAt _ fun k _ => keyFormat_sizeAt k
  have hbody := seq_sizeAt hkeys (seq_sizeAt (keyFormat_sizeAt s.c1) (keyFormat_sizeAt s.d))
  rw [hbody bs h]
  ring

/-- The prunable part of a signature with CLSAGs, given the sizes of the range proofs. -/
theorem rctsigPrunableFormat_sizeAt {type : UInt8} {inputs outputs mixin m n : ℕ}
    {p : RctSigPrunable} (htype : type = rctTypeClsag ∨ type = rctTypeBulletproofPlus)
    (hbp : (if isRctBulletproof type then bulletproofsFormat type outputs else skip []).SizeAt
      p.bulletproofs m)
    (hbpp : (if isRctBulletproofPlus type then bulletproofsPlusFormat outputs else skip []).SizeAt
      p.bulletproofsPlus n) :
    (rctsigPrunableFormat type inputs outputs mixin).SizeAt p
      (m + n + inputs * ((mixin + 1 + 2) * 32) + inputs * 32) := by
  intro bs h
  have hnull : type ≠ rctTypeNull := by rcases htype with rfl | rfl <;> decide
  have hknown : knownRctType type = true := by rcases htype with rfl | rfl <;> rfl
  have hborromean : ¬ isRctBorromean type = true := by rcases htype with rfl | rfl <;> decide
  have hclsag : isRctClsag type = true := by rcases htype with rfl | rfl <;> rfl
  have hclsags : (listN (clsagFormat mixin) inputs).SizeAt p.clsags
      (inputs * ((mixin + 1 + 2) * 32)) := listN_sizeAt _ fun s _ => clsagFormat_sizeAt mixin s
  have hpseudo : (listN keyFormat inputs).SizeAt p.pseudoOuts (inputs * 32) :=
    listN_sizeAt _ fun k _ => keyFormat_sizeAt k
  rw [rctsigPrunableFormat] at h
  by_cases hbig : 0xffffffff ≤ inputs ∨ 0xffffffff ≤ outputs ∨ 0xffffffff ≤ mixin
  · rw [if_pos hbig] at h
    cases h
  · rw [if_neg hbig, if_neg hnull, if_pos hknown, if_neg hborromean, if_pos hclsag, if_pos hclsag,
      if_neg hborromean] at h
    have hlen := seq_sizeAt (skip_sizeAt [] p.rangeSigs) (seq_sizeAt hbp (seq_sizeAt hbpp
      (seq_sizeAt (skip_sizeAt [] p.mgs) (seq_sizeAt hclsags hpseudo)))) bs h
    omega

/-- The number of curve points and scalars of a range proof besides its rounds. -/
def proofElements (type : UInt8) : ℕ := if isRctBulletproofPlus type then 6 else 9

/-- **The prunable part.** One range proof, and a CLSAG and a pseudo-output for each ring input. -/
theorem prunable_size (h : tx.RingCanonical) {inputs mixin : ℕ} :
    (rctsigPrunableFormat tx.rctSignatures.type inputs tx.vout.length mixin).SizeAt
      tx.rctSignatures.p
      (1 + (32 * (proofElements tx.rctSignatures.type + 2 * (log2Ceil tx.vout.length + 6)) + 2) +
        inputs * ((mixin + 1 + 2) * 32) + inputs * 32) := by
  intro bs hw
  have hfour := log2Ceil_le_four h.le_max
  have hproof := h.proof
  rw [Transaction.ProvesOnce] at hproof
  have htype := h.type
  generalize tx.rctSignatures.type = type at *
  rcases htype with rfl | rfl
  · obtain ⟨bp, hbp, hl, hr⟩ := hproof
    have hsize : (bulletproofsFormat rctTypeClsag tx.vout.length).SizeAt
        tx.rctSignatures.p.bulletproofs
        (1 + (32 * (9 + 2 * (6 + log2Ceil tx.vout.length)) + 2)) := by
      rw [hbp, bulletproofsFormat, if_neg (by decide)]
      exact proofsFormat_sizeAt (bulletproofFormat_sizeAt hl hr (by omega))
    have hlen := rctsigPrunableFormat_sizeAt (.inl rfl) hsize (skip_sizeAt [] _) bs hw
    have helements : proofElements rctTypeClsag = 9 := rfl
    omega
  · obtain ⟨bp, hbp, hl, hr⟩ := hproof
    have hsize : (bulletproofsPlusFormat tx.vout.length).SizeAt
        tx.rctSignatures.p.bulletproofsPlus
        (1 + (32 * (6 + 2 * (6 + log2Ceil tx.vout.length)) + 2)) := by
      rw [hbp]
      exact proofsFormat_sizeAt (bulletproofPlusFormat_sizeAt hl hr (by omega))
    have hlen := rctsigPrunableFormat_sizeAt (.inr rfl) (skip_sizeAt [] _) hsize bs hw
    have helements : proofElements rctTypeBulletproofPlus = 6 := rfl
    omega

/-! ### The two weights -/

theorem serializeTransaction_prunedForm (hform : tx.IsPrunedForm tx') (hv : tx.version = 2) :
    serializeTransaction tx' = transactionBaseFormat.write tx := by
  have hv' : ¬ tx'.version = 1 := by
    rw [hform.samePrefix, hv]
    decide
  rw [serializeTransaction, if_pos hform.pruned, if_neg fun h => hv' h.1, hform.sameBase]

theorem getTransactionWeightClawback_prunedForm (hform : tx.IsPrunedForm tx') (n : ℕ) :
    getTransactionWeightClawback tx' n = getTransactionWeightClawback tx n := by
  rw [getTransactionWeightClawback, getTransactionWeightClawback, hform.sameType, hform.samePrefix]

/-- The clawback of a canonical proof. -/
theorem exists_clawback (h : tx.RingCanonical) :
    ∃ clawback ≤ 5888,
      getTransactionWeightClawback tx (2 ^ log2Ceil tx.vout.length) = some clawback := by
  have hfour := log2Ceil_le_four h.le_max
  have hmax := h.le_max
  have htype := h.type
  rw [getTransactionWeightClawback]
  generalize tx.rctSignatures.type = type at htype
  generalize log2Ceil tx.vout.length = k at hfour
  simp only [not_not.mpr hmax, if_false]
  rcases htype with rfl | rfl <;> interval_cases k <;> exact ⟨_, by decide, rfl⟩

/-- The amounts that the canonical proof covers. -/
theorem maxAmounts_of_provesOnce (h : tx.RingCanonical) :
    (if isRctBulletproofPlus tx.rctSignatures.type then
        nBulletproofPlusMaxAmounts tx.rctSignatures.p.bulletproofsPlus
      else nBulletproofMaxAmounts tx.rctSignatures.p.bulletproofs) =
      2 ^ log2Ceil tx.vout.length := by
  have hfour := log2Ceil_le_four h.le_max
  have hproof := h.proof
  have hbase : ∀ {l r : List Key}, l.length = 6 + log2Ceil tx.vout.length →
      r.length = 6 + log2Ceil tx.vout.length →
      nBulletproofMaxAmountsBase l.length r.length bulletproofMaxOutputs =
        2 ^ log2Ceil tx.vout.length := by
    intro l r hl hr
    rw [nBulletproofMaxAmountsBase, if_neg (by omega), if_neg (by omega), if_neg (by decide),
      if_neg (by omega), hl, Nat.add_sub_cancel_left]
  have hsum : ∀ {α : Type} {amounts : α → ℕ} {p : α},
      amounts p = 2 ^ log2Ceil tx.vout.length → sumAmounts amounts 0 [p] = amounts p := by
    intro α amounts p hp
    have hpos := Nat.two_pow_pos (log2Ceil tx.vout.length)
    have hle : 2 ^ log2Ceil tx.vout.length ≤ 2 ^ 4 := Nat.pow_le_pow_right (by decide) hfour
    rw [sumAmounts, if_neg (by omega), if_neg (by omega), Nat.zero_add]
    rfl
  rw [Transaction.ProvesOnce] at hproof
  have htype := h.type
  generalize tx.rctSignatures.type = type at htype hproof
  rcases htype with rfl | rfl
  · obtain ⟨bp, hbp, hl, hr⟩ := hproof
    have hmax : bp.maxAmounts = _ := hbase hl hr
    rw [if_neg (by decide), hbp]
    exact (hsum hmax).trans hmax
  · obtain ⟨bp, hbp, hl, hr⟩ := hproof
    have hmax : bp.maxAmounts = _ := hbase hl hr
    rw [if_pos (by decide), hbp]
    exact (hsum hmax).trans hmax

/-- The weight with a clawback, unless the sum does not fit into a word. -/
def addClawback (clawback weight : ℕ) : Option ℕ :=
  if clawback ≤ 2 ^ 64 - 1 - weight then some (weight + clawback) else none

theorem addClawback_of_lt {clawback weight : ℕ} (hle : clawback ≤ 5888) (hlt : weight < 2 ^ 28) :
    addClawback clawback weight = some (weight + clawback) := if_pos (by omega)

theorem getTransactionWeight_ring (h : tx.Canonical) (hring : tx.RingCanonical) (size : ℕ) :
    getTransactionWeight tx size =
      (getTransactionWeightClawback tx (2 ^ log2Ceil tx.vout.length)).bind fun clawback =>
        addClawback clawback size := by
  have hproofs : ¬ (¬ isRctBulletproof tx.rctSignatures.type = true ∧
      ¬ isRctBulletproofPlus tx.rctSignatures.type = true) := by
    rcases hring.type with htype | htype <;> rw [htype] <;> decide
  have hv : ¬ tx.version < 2 := by
    rw [h.version]
    decide
  rw [getTransactionWeight, if_neg (by rw [h.complete]; decide), if_neg hv, if_neg hproofs]
  simp only [maxAmounts_of_provesOnce hring]
  rfl

variable {vin : List Txin}

/-- The blob of a RingCT transaction whose first input is a ring. -/
theorem length_blob_ring (h : tx.Canonical) (hring : tx.RingCanonical)
    (hser : serializeTransaction tx = some blob) {i : TxinToKey} (hvin : tx.vin = .toKey i :: vin) :
    ∃ b, transactionBaseFormat.write tx = some b ∧ blob.length = b.length +
      (1 + (32 * (proofElements tx.rctSignatures.type + 2 * (log2Ceil tx.vout.length + 6)) + 2) +
        nRing tx * ((i.keyOffsets.length + 2) * 32) +
        nRing tx * 32) := by
  have hbody : ¬ (tx.version = 1 ∨ tx.vin = []) := by
    rw [h.version, hvin]
    simp
  have hnull : tx.rctSignatures.type ≠ rctTypeNull := by
    rcases hring.type with htype | htype <;> rw [htype] <;> decide
  obtain ⟨b, rest, hb, hrest, rfl⟩ := parts_of_serialize h.complete hser hbody
  rw [prunableFormat, if_neg hnull] at hrest
  have hlen := prunable_size hring rest hrest
  -- a ring without members is not written
  have hmixin : rctMixin tx.vin + 1 = i.keyOffsets.length := by
    rw [hvin, rctMixin] at hrest ⊢
    by_cases hempty : i.keyOffsets = []
    · rw [if_pos hempty, rctsigPrunableFormat, if_pos (.inr (.inr (by decide)))] at hrest
      cases hrest
    · have := length_pos_iff.mpr hempty
      rw [if_neg hempty]
      omega
  rw [hmixin] at hlen
  exact ⟨b, hb, by rw [length_append, hlen]⟩

/-- The first input is a ring: each post-quantum input adds a CLSAG and a pseudo-output that the
full form does not have. -/
theorem getPrunedTransactionWeight_ring (h : tx.Canonical) (hring : tx.RingCanonical)
    (hser : serializeTransaction tx = some blob) (hform : tx.IsPrunedForm tx') {i : TxinToKey}
    (hvin : tx.vin = .toKey i :: vin) (hn : tx.vin.length = nRing tx + n) :
    getPrunedTransactionWeight tx' =
      (getTransactionWeightClawback tx (2 ^ log2Ceil tx.vout.length)).bind fun clawback =>
        addClawback clawback (blob.length + n * ((i.keyOffsets.length + 3) * 32)) := by
  obtain ⟨b, hb, hlen⟩ := length_blob_ring h hring hser hvin
  have hsize : ((serializeTransaction tx').getD []).length = b.length := by
    rw [serializeTransaction_prunedForm hform h.version, hb, Option.getD_some]
  have hversion : ¬ (!tx'.pruned || decide (tx'.version < 2)) = true := by
    rw [hform.pruned, hform.samePrefix, h.version]
    decide
  have hnull : ¬ (hasTransparentPqInput tx' ∧ tx'.rctSignatures.type = rctTypeNull) := by
    rw [hform.sameType]
    rcases hring.type with htype | htype <;> rw [htype] <;> exact fun h => absurd h.2 (by decide)
  have htypes : ¬ (tx'.rctSignatures.type ≠ rctTypeBulletproof2 ∧
      tx'.rctSignatures.type ≠ rctTypeClsag ∧ tx'.rctSignatures.type ≠ rctTypeBulletproofPlus) := by
    rw [hform.sameType]
    rcases hring.type with htype | htype <;> rw [htype] <;> decide
  have hclsag : isRctClsag tx.rctSignatures.type = true := by
    rcases hring.type with htype | htype <;> rw [htype] <;> rfl
  have hvin' : tx'.vin = .toKey i :: vin := by rw [hform.samePrefix, hvin]
  rw [getPrunedTransactionWeight]
  simp only [if_neg hversion, if_neg hnull, if_neg htypes, hsize]
  split
  · next j vin' heq =>
    obtain ⟨rfl, rfl⟩ : i = j ∧ vin = vin' := by
      rw [hvin'] at heq
      injection heq with h₁ h₂
      exact ⟨Txin.toKey.inj h₁, h₂⟩
    simp only [getTransactionWeightClawback_prunedForm hform, hform.sameType, hform.samePrefix,
      if_pos hclsag, hn]
    congr 1
    funext clawback
    have hweight : b.length + 1 + (32 * ((if isRctBulletproofPlus tx.rctSignatures.type then 6
        else 9) + 2 * (log2Ceil tx.vout.length + 6)) + 2) +
          (nRing tx + n) * ((i.keyOffsets.length + 2) * 32) +
          32 * (nRing tx + n) =
        blob.length + n * ((i.keyOffsets.length + 3) * 32) := by
      rw [hlen, proofElements]
      ring
    rw [hweight, addClawback]
  · next hnot => exact absurd hvin' (hnot i vin)

/-- The first input is not a ring. -/
theorem getPrunedTransactionWeight_pq (hform : tx.IsPrunedForm tx') (hring : tx.RingCanonical)
    (hfirst : ∀ i vin, tx.vin ≠ .toKey i :: vin) :
    getPrunedTransactionWeight tx' = some (2 ^ 64 - 1) := by
  have hnull : ¬ (hasTransparentPqInput tx' ∧ tx'.rctSignatures.type = rctTypeNull) := by
    rw [hform.sameType]
    rcases hring.type with htype | htype <;> rw [htype] <;> exact fun h => absurd h.2 (by decide)
  rw [getPrunedTransactionWeight]
  simp only [if_neg hnull]
  split
  · rfl
  · split
    · rfl
    · split
      · next i vin heq =>
        rw [hform.samePrefix] at heq
        exact absurd heq (hfirst i vin)
      · rfl

/-- A transaction with post-quantum inputs only has no prunable part. -/
theorem prunedWeight_allPq (h : tx.Canonical) (hpq : tx.AllPq)
    (hser : serializeTransaction tx = some blob) (hform : tx.IsPrunedForm tx') :
    getPrunedTransactionWeight tx' = getTransactionWeight tx blob.length := by
  have hbody : ¬ (tx.version = 1 ∨ tx.vin = []) := by
    rw [h.version]
    exact not_or.mpr ⟨by decide, hpq.nonempty⟩
  obtain ⟨b, rest, hb, hrest, rfl⟩ := parts_of_serialize h.complete hser hbody
  obtain rfl : [] = rest := by
    rw [prunableFormat, if_pos hpq.type] at hrest
    exact Option.some.inj hrest
  have hfull : getTransactionWeight tx (b ++ []).length = some b.length := by
    rw [getTransactionWeight, if_neg (by rw [h.complete]; decide),
      if_neg (by rw [h.version]; decide), if_pos (by rw [hpq.type]; decide), append_nil]
  have hversion : ¬ (!tx'.pruned || decide (tx'.version < 2)) = true := by
    rw [hform.pruned, hform.samePrefix, h.version]
    decide
  have hany : hasTransparentPqInput tx' = true := by
    rw [hform.samePrefix, hasTransparentPqInput, any_eq_true]
    obtain ⟨i, hi⟩ := exists_mem_of_ne_nil _ hpq.nonempty
    exact ⟨i, hi, hpq.inputs i hi⟩
  rw [hfull, getPrunedTransactionWeight]
  simp only [if_neg hversion]
  rw [if_pos ⟨hany, hform.sameType.trans hpq.type⟩,
    serializeTransaction_prunedForm hform h.version, hb, Option.getD_some]

theorem exists_pq_inputs (tx : TransactionPrefix) :
    ∃ n, tx.vin.length = nRing tx + n ∧ (n = 0 ↔ hasTransparentPqInput tx = false) := by
  have hle : nRing tx ≤ tx.vin.length := length_filter_le _ _
  refine ⟨tx.vin.length - nRing tx, by omega, ?_⟩
  have heq : tx.vin.length - nRing tx = 0 ↔ nRing tx = tx.vin.length := by omega
  rw [heq, nRing, length_filter_eq_length_iff, hasTransparentPqInput, any_eq_false]
  simp

/-- **Pruned weight and full weight.** The two weights of a canonical transaction agree if it has no
prunable part or no post-quantum input. Otherwise they do not agree, for blobs whose weights fit
into 64 bits. -/
theorem prunedWeight_iff (h : tx.Canonical) (hser : serializeTransaction tx = some blob)
    (hform : tx.IsPrunedForm tx') :
    ((tx.rctSignatures.type = rctTypeNull ∨ hasTransparentPqInput tx = false) →
        getPrunedTransactionWeight tx' = getTransactionWeight tx blob.length) ∧
      (blob.length < 2 ^ 28 →
        getPrunedTransactionWeight tx' = getTransactionWeight tx blob.length →
          tx.rctSignatures.type = rctTypeNull ∨ hasTransparentPqInput tx = false) := by
  rcases h.kind with hring | hpq
  · obtain ⟨n, hn, hzero⟩ := exists_pq_inputs tx
    obtain ⟨clawback, hle, hclawback⟩ := exists_clawback hring
    have hnull : tx.rctSignatures.type ≠ rctTypeNull := by
      rcases hring.type with htype | htype <;> rw [htype] <;> decide
    rw [or_iff_right hnull, getTransactionWeight_ring h hring, hclawback, Option.bind_some,
      ← hzero]
    by_cases hfirst : ∃ i vin, tx.vin = .toKey i :: vin
    · obtain ⟨i, vin, hvin⟩ := hfirst
      rw [getPrunedTransactionWeight_ring h hring hser hform hvin hn, hclawback, Option.bind_some]
      constructor
      · rintro rfl
        rw [Nat.zero_mul, Nat.add_zero]
      · intro hsmall heq
        rw [addClawback_of_lt hle hsmall, addClawback] at heq
        split at heq
        · have hprod : n * ((i.keyOffsets.length + 3) * 32) = 0 := by
            have := Option.some.inj heq
            omega
          exact (Nat.mul_eq_zero.mp hprod).resolve_right (by omega)
        · cases heq
    · -- the first input is a post-quantum one
      rw [not_exists] at hfirst
      rw [getPrunedTransactionWeight_pq hform hring fun i vin h => hfirst i ⟨vin, h⟩]
      constructor
      · intro h0
        have hpq := hzero.mp h0
        rw [hasTransparentPqInput, any_eq_false] at hpq
        obtain ⟨j, hj, -⟩ := hring.ring
        cases hvin : tx.vin with
        | nil =>
          rw [hvin] at hj
          cases hj
        | cons x vin =>
          have hx : x ∈ tx.vin := by
            rw [hvin]
            exact mem_cons_self
          obtain ⟨i, rfl⟩ : ∃ i, x = .toKey i := by
            have hkey := (hring.inputs x hx).resolve_right (hpq x hx)
            cases x with
            | toKey i => exact ⟨i, rfl⟩
            | _ => cases hkey
          exact absurd ⟨vin, hvin⟩ (hfirst i)
      · intro hsmall heq
        rw [addClawback_of_lt hle hsmall] at heq
        have := Option.some.inj heq
        omega
  · exact ⟨fun _ => prunedWeight_allPq h hpq hser hform, fun _ _ => .inl hpq.type⟩

/-! ### Two small transactions -/

/-- A RingCT transaction with one ring and two outputs. -/
def smallTx (vin : List Txin) : Transaction :=
  { version := 2
    vin := vin
    vout := [⟨0, .toKey default⟩, ⟨0, .toKey default⟩]
    rctSignatures :=
      { type := rctTypeClsag
        ecdhInfo := [default, default]
        outPk := [default, default]
        p :=
          { bulletproofs := [{ (default : Bulletproof) with
              l := replicate 7 default
              r := replicate 7 default }]
            clsags := [{ (default : Clsag) with s := [default] }]
            pseudoOuts := [default] } } }

/-- A ring with one member. -/
def smallRing : Txin := .toKey ⟨0, [1], default⟩

/-- A post-quantum input. -/
def smallPq : Txin := .toKeyPq { (default : TxinToKeyPq) with authType := pqAuthTypeMldsa65 }

theorem smallTx_canonical (hvin : ∀ i ∈ vin, i.isToKey = true ∨ i.isToKeyPq = true)
    (hring : ∃ i ∈ vin, i.isToKey = true) : (smallTx vin).Canonical :=
  ⟨rfl, rfl, .inl ⟨.inl rfl, hvin, hring, Nat.le_refl 2, show 2 ≤ bulletproofMaxOutputs by decide,
    _, rfl, rfl, rfl⟩⟩

/-- A classic transaction. -/
theorem prunedWeight_classic : (smallTx [smallRing]).Canonical ∧ ∃ blob,
    serializeTransaction (smallTx [smallRing]) = some blob ∧
    getPrunedTransactionWeight { smallTx [smallRing] with pruned := true } =
      getTransactionWeight (smallTx [smallRing]) blob.length := by
  have hcanonical : (smallTx [smallRing]).Canonical := smallTx_canonical (by decide) (by decide)
  obtain ⟨blob, hblob⟩ := Option.isSome_iff_exists.mp
    (show (serializeTransaction (smallTx [smallRing])).isSome by decide +kernel)
  exact ⟨hcanonical, blob, hblob,
    (prunedWeight_iff hcanonical hblob (Transaction.isPrunedForm_flag _)).1 (.inr rfl)⟩

/-- A hybrid transaction: its pruned form weighs 128 bytes more. -/
theorem prunedWeight_hybrid : ∃ (tx tx' : Transaction) (blob : Bytes), tx.Canonical ∧
    serializeTransaction tx = some blob ∧ tx.IsPrunedForm tx' ∧
    getTransactionWeight tx blob.length = some 6483 ∧
    getPrunedTransactionWeight tx' = some 6611 := by
  have hcanonical : (smallTx [smallRing, smallPq]).Canonical :=
    smallTx_canonical (by decide) (by decide)
  obtain ⟨blob, hblob, hlen⟩ := Option.map_eq_some_iff.mp
    (show (serializeTransaction (smallTx [smallRing, smallPq])).map List.length = some 6483 by
      decide +kernel)
  refine ⟨smallTx [smallRing, smallPq], _, blob, hcanonical, hblob,
    Transaction.isPrunedForm_flag _, ?_, by decide +kernel⟩
  rw [hlen]
  decide +kernel

end Hidering
