import Hidering.Verify.Hybrid
import Hidering.Store.Memo

/-!
# The cache of verified ring signatures

`ver_rct_non_semantics_simple_cached` keeps the hashes of pairs of a transaction and its rings that
have been verified. A hit stands for a verification only if everything that the verifier reads is
determined by the transaction id and the rings. It reads the fields of the signature that are on the
wire, and others that are filled in when it is expanded (`expand_wireData`). The id is made of the
hashes of the three parts of the wire data (`wireData_eq_of_parts`). So two complete transactions
with one id have the same verdict (`CacheCall.verdict_of_hash_eq`).

The verifier reads one more thing: whether the transaction is pruned, in which case it refuses it.
The id of a pruned transaction cannot be computed; it is kept in the object by whoever pruned it.
Such an object has the id of the complete transaction, and a hit for it is a false one
(`CacheCall.cached_eq_iff`).

## Main definitions

* `Hidering.preMlsagHash`, `Hidering.calculateTransactionHash` — hashes as the source builds them
* `Hidering.CacheCall`, `Hidering.CacheCall.verCached`, `Hidering.CacheCall.cacheAfter`

## Main results

* `Hidering.expand_wireData` — the verdict depends on the wire data
* `Hidering.CacheCall.verCached_eq` — the cache is a memo of the verifier
* `Hidering.CacheCall.cached_eq_iff` — when the cache gives the verdict of the verifier
-/

namespace Hidering

open Wire Wire.Format Store Crypto List

/-! ### Hashes -/

/-- The keys of the range proofs, in the order in which `get_pre_mlsag_hash` hashes them. -/
def proofKeys (rv : RctSig) : Bytes :=
  if isRctBulletproof rv.type then
    rv.p.bulletproofs.flatMap fun p =>
      ([p.a, p.s, p.t1, p.t2, p.taux, p.mu] ++ p.l ++ p.r ++ [p.aa, p.b, p.t]).flatMap Blob.bytes
  else if isRctBulletproofPlus rv.type then
    rv.p.bulletproofsPlus.flatMap fun p =>
      ([p.a, p.a1, p.b, p.r1, p.s1, p.d1] ++ p.l ++ p.r).flatMap Blob.bytes
  else rv.p.rangeSigs.flatMap fun r => r.asig.bytes ++ r.ci.bytes

variable (c : Crypto)

/-- `get_pre_mlsag_hash`; `none` where it throws. -/
def preMlsagHash (rv : RctSig) : Option Key :=
  match rv.mixRing with
  | [] => none
  | row :: _ =>
    let inputs := if isRctSimple rv.type then rv.mixRing.length else row.length
    ((rctsigBaseFormat inputs rv.ecdhInfo.length).write rv.toRctSigBase).map fun base =>
      c.cnFastHash (rv.message.bytes ++ (c.cnFastHash base).bytes ++
        (c.cnFastHash (proofKeys rv)).bytes)

/-- The parts of a blob of version 2 that are hashed: the prefix, the base of the signature and the
prunable part. -/
def txParts (tx : Transaction) : Option (Bytes × Bytes × Bytes) :=
  (prefixFormat.write tx).bind fun pre =>
    (serializeTransaction tx).bind fun blob => (unprunableSize tx).map fun n =>
      (pre, (blob.take n).drop pre.length, blob.drop n)

/-- The hashes of the parts. -/
def idString (type : UInt8) (parts : Bytes × Bytes × Bytes) : Bytes :=
  (c.cnFastHash parts.1).bytes ++ (c.cnFastHash parts.2.1).bytes ++
    (if type = rctTypeNull then default else c.cnFastHash parts.2.2 : Hash).bytes

/-- `calculate_transaction_hash`; `none` where it fails. -/
def calculateTransactionHash (tx : Transaction) : Option Hash :=
  if tx.pruned then none
  else if tx.version = 1 then (serializeTransaction tx).map c.cnFastHash
  else (txParts tx).map fun parts => c.cnFastHash (idString c tx.rctSignatures.type parts)

/-- The primitives, with the hashes that the source builds out of `cn_fast_hash`. -/
def Crypto.hashing : Crypto :=
  { c with
    getTransactionHash := fun tx => (calculateTransactionHash c tx).getD default
    getPreMlsagHash := fun rv => (preMlsagHash c rv).getD default }

variable {c}

/-! ### What the verifier reads -/

/-- A transaction with the wire data of its signature only. -/
def Transaction.wireData (tx : Transaction) : Transaction where
  toTransactionPrefix := tx.toTransactionPrefix
  rctSignatures :=
    { toRctSigBase := tx.rctSignatures.toRctSigBase.wireView
      p := tx.rctSignatures.p.wireView tx.rctSignatures.type }

/-- The prunable part on the wire, with the key images filled in. -/
def RctSigPrunable.filled (type : UInt8) (p : RctSigPrunable) : RctSigPrunable :=
  { p.wireView type with
    mgs := if isRctClsag type then [] else p.mgs
    clsags := if isRctClsag type then p.clsags else [] }

variable {type : UInt8}

theorem ne_null_of_simple (h : isRctSimple type = true) : type ≠ rctTypeNull := by
  rintro rfl
  cases h

theorem ne_full_of_simple (h : isRctSimple type = true) : type ≠ rctTypeFull := by
  rintro rfl
  cases h

/-- The types of simple signatures end with the last one. -/
theorem le_of_isRctSimple (h : isRctSimple type = true) : type ≤ rctTypeBulletproofPlus := by
  simp only [isRctSimple, Bool.or_eq_true, beq_iff_eq] at h
  rcases h with (((rfl | rfl) | rfl) | rfl) | rfl <;> decide

theorem wireData_type (tx : Transaction) : tx.wireData.rctSignatures.type = tx.rctSignatures.type :=
  tx.rctSignatures.toRctSigBase.wireView_type

variable {tx : Transaction}

theorem expandKeyImages_wireData (hp : tx.pruned = false)
    (hsimple : isRctSimple tx.rctSignatures.type = true) :
    expandKeyImages tx.wireData =
      (expandKeyImages tx).map (RctSigPrunable.filled tx.rctSignatures.type) := by
  have hnull := ne_null_of_simple hsimple
  have hfull := ne_full_of_simple hsimple
  have hpruned : tx.wireData.pruned = false := rfl
  simp only [expandKeyImages, wireData_type, hp, hpruned, Bool.false_eq_true, if_false,
    if_neg hfull]
  have hview : tx.wireData.rctSignatures.p =
    tx.rctSignatures.p.wireView tx.rctSignatures.type := rfl
  have hpre : tx.wireData.toTransactionPrefix = tx.toTransactionPrefix := rfl
  by_cases hclsag : isRctClsag tx.rctSignatures.type = true
  · have hclsags : (tx.rctSignatures.p.wireView tx.rctSignatures.type).clsags =
        tx.rctSignatures.p.clsags.map fun s => { s with i := default } := by
      rw [RctSigPrunable.wireView, if_neg hnull, if_pos hclsag, if_pos hclsag]
    rw [if_pos hclsag, if_pos hclsag, hview, hpre, hclsags, length_map, zipWith_map_left]
    split
    · simp only [Option.map_some, RctSigPrunable.filled, RctSigPrunable.wireView, if_neg hnull,
        if_pos hclsag]
    · rfl
  · have hmgs : (tx.rctSignatures.p.wireView tx.rctSignatures.type).mgs =
        tx.rctSignatures.p.mgs.map fun g => { g with ii := [] } := by
      rw [RctSigPrunable.wireView, if_neg hnull, if_neg hclsag, if_neg hclsag]
    rw [if_neg hclsag, if_neg hclsag, hview, hpre, hmgs, length_map, zipWith_map_left]
    split
    · simp only [Option.map_some, RctSigPrunable.filled, RctSigPrunable.wireView, if_neg hnull,
        if_neg hclsag]
    · rfl

/-- What is left of an expanded transaction if all but the wire data and what was filled in is
forgotten. -/
def Transaction.filled (tx : Transaction) : Transaction :=
  let rv := tx.rctSignatures
  { toTransactionPrefix := tx.toTransactionPrefix
    rctSignatures :=
      { toRctSigBase := { rv.toRctSigBase.wireView with
          type := rv.type, message := rv.message, mixRing := rv.mixRing
          pqTransparentIn := rv.pqTransparentIn }
        p := rv.p.filled rv.type } }

theorem expandTransaction2_wireData (hp : tx.pruned = false)
    (hsimple : isRctSimple tx.rctSignatures.type = true) (hash : Hash)
    (pubkeys : List (List CtKey)) :
    expandTransaction2 tx.wireData hash pubkeys =
      (expandTransaction2 tx hash pubkeys).map Transaction.filled := by
  have hpre : tx.wireData.toTransactionPrefix = tx.toTransactionPrefix := rfl
  simp only [expandTransaction2, hpre, wireData_type, expandKeyImages_wireData hp hsimple,
    Option.bind_eq_bind, Option.map_bind, Option.bind_map, Function.comp_def]
  rfl

/-- The simple type without bulletproofs is `RCTTypeSimple`. -/
theorem eq_simple_of_not_bulletproof (hsimple : isRctSimple type = true)
    (hbp : ¬ isRctBulletproof type = true) (hplus : ¬ isRctBulletproofPlus type = true) :
    type = rctTypeSimple := by
  simp only [isRctSimple, isRctBulletproof, isRctBulletproofPlus, Bool.or_eq_true,
    beq_iff_eq] at hsimple hbp hplus
  tauto

theorem not_borromean_of_bulletproof
    (h : (isRctBulletproof type || isRctBulletproofPlus type) = true) :
    isRctBorromean type = false := by
  simp only [isRctBulletproof, isRctBulletproofPlus, Bool.or_eq_true, beq_iff_eq] at h
  rcases h with ((rfl | rfl) | rfl) | rfl <;> rfl

/-! The fields of the signature that are neither forgotten nor filled in. -/

theorem filled_type (tx : Transaction) : tx.filled.rctSignatures.type = tx.rctSignatures.type := rfl

theorem filled_mixRing (tx : Transaction) :
    tx.filled.rctSignatures.mixRing = tx.rctSignatures.mixRing := rfl

section Filled

variable {tx : Transaction} (hsimple : isRctSimple tx.rctSignatures.type = true)

include hsimple

theorem proofKeys_filled : proofKeys tx.filled.rctSignatures = proofKeys tx.rctSignatures := by
  have hp : tx.filled.rctSignatures.p = tx.rctSignatures.p.filled tx.rctSignatures.type := rfl
  rw [proofKeys, proofKeys, hp, filled_type, RctSigPrunable.filled, RctSigPrunable.wireView,
    if_neg (ne_null_of_simple hsimple)]
  split
  · simp only [flatMap_map]
  · next hbp =>
    split
    · simp only [flatMap_map]
    · next hplus =>
      rw [eq_simple_of_not_bulletproof hsimple hbp hplus]
      rfl

/-- The message does not depend on what is forgotten. -/
theorem preMlsagHash_filled :
    preMlsagHash c tx.filled.rctSignatures = preMlsagHash c tx.rctSignatures := by
  have hbase (inputs outputs : ℕ) : (rctsigBaseFormat inputs outputs).write
      tx.filled.rctSignatures.toRctSigBase =
        (rctsigBaseFormat inputs outputs).write tx.rctSignatures.toRctSigBase := by
    rw [← rctsigBaseFormat_write_wireView inputs outputs tx.rctSignatures.toRctSigBase]
    simp only [rctsigBaseFormat, imap, Format.bind, RctSigBase.wireView_type]
    rfl
  have hring := filled_mixRing tx
  have htype := filled_type tx
  have hmessage : tx.filled.rctSignatures.message = tx.rctSignatures.message := rfl
  have hecdh : tx.filled.rctSignatures.ecdhInfo.length = tx.rctSignatures.ecdhInfo.length := by
    change tx.rctSignatures.toRctSigBase.wireView.ecdhInfo.length = _
    rw [RctSigBase.wireView, if_neg (ne_null_of_simple hsimple), length_map]
  simp only [preMlsagHash, hring, htype, hbase, hecdh, hmessage, proofKeys_filled hsimple]

theorem simplePseudoOuts_filled :
    simplePseudoOuts tx.filled.rctSignatures = simplePseudoOuts tx.rctSignatures := by
  have hnull := ne_null_of_simple hsimple
  rw [simplePseudoOuts, simplePseudoOuts, filled_type]
  split
  · next hbp =>
    change (RctSigPrunable.wireView _ _).pseudoOuts = _
    simp only [RctSigPrunable.wireView, if_neg hnull, not_borromean_of_bulletproof hbp,
      Bool.false_eq_true, if_false]
  · next hbp =>
    rw [Bool.or_eq_true, not_or] at hbp
    change (RctSigBase.wireView _).pseudoOuts = _
    simp only [RctSigBase.wireView, if_neg hnull,
      if_pos (eq_simple_of_not_bulletproof hsimple hbp.1 hbp.2)]

omit hsimple in
theorem clsags_filled (hclsag : isRctClsag tx.rctSignatures.type = true) :
    tx.filled.rctSignatures.p.clsags = tx.rctSignatures.p.clsags := if_pos hclsag

omit hsimple in
theorem mgs_filled (hclsag : ¬ isRctClsag tx.rctSignatures.type = true) :
    tx.filled.rctSignatures.p.mgs = tx.rctSignatures.p.mgs := if_neg hclsag

theorem verInputSignature_filled : verInputSignature c.hashing tx.filled.rctSignatures =
    verInputSignature c.hashing tx.rctSignatures := by
  funext message i
  rw [verInputSignature, verInputSignature, filled_mixRing, filled_type,
    simplePseudoOuts_filled hsimple]
  by_cases hclsag : isRctClsag tx.rctSignatures.type = true
  · simp only [if_pos hclsag, clsags_filled hclsag]
  · simp only [if_neg hclsag, mgs_filled hclsag]

theorem verRctNonSemanticsSimple_filled :
    verRctNonSemanticsSimple c.hashing tx.filled.rctSignatures =
      verRctNonSemanticsSimple c.hashing tx.rctSignatures := by
  have hmessage : c.hashing.getPreMlsagHash tx.filled.rctSignatures =
      c.hashing.getPreMlsagHash tx.rctSignatures := by
    change (preMlsagHash c _).getD _ = (preMlsagHash c _).getD _
    rw [preMlsagHash_filled hsimple]
  simp only [verRctNonSemanticsSimple, hmessage, filled_mixRing, filled_type,
    simplePseudoOuts_filled hsimple, verInputSignature_filled hsimple]

omit hsimple in
theorem keyImageMatches_filled : keyImageMatches tx.filled = keyImageMatches tx := by
  funext n
  have hvin : tx.filled.vin = tx.vin := rfl
  rw [keyImageMatches, keyImageMatches, hvin]
  by_cases hclsag : isRctClsag tx.rctSignatures.type = true
  · simp only [filled_type, if_pos hclsag, clsags_filled hclsag]
  · simp only [filled_type, if_neg hclsag, mgs_filled hclsag]

end Filled

theorem expandTransaction2_type {tx tx' : Transaction} {hash : Hash} {pubkeys : List (List CtKey)}
    (h : expandTransaction2 tx hash pubkeys = some tx') :
    tx'.rctSignatures.type = tx.rctSignatures.type := by
  simp only [expandTransaction2, Option.bind_eq_bind, Option.bind_eq_some_iff] at h
  obtain ⟨-, -, -, -, _, -, _, -, _, -, h⟩ := h
  obtain rfl := Option.some.inj h
  rfl

theorem expand_of_not_simple (h : isRctSimple tx.rctSignatures.type = false)
    (mixRing : List (List CtKey)) : expandTxAndVerRctNonSem c tx mixRing = false := by
  rw [expandTxAndVerRctNonSem]
  split
  · exact Bool.and_false _
  · next tx' htx' =>
    rw [← expandTransaction2_type htx'] at h
    simp only [verRctNonSemanticsSimple, h, Bool.false_and, Bool.and_false]

/-- **The verdict depends on the wire data.** -/
theorem expand_wireData (hp : tx.pruned = false) (mixRing : List (List CtKey)) :
    expandTxAndVerRctNonSem c.hashing tx.wireData mixRing =
      expandTxAndVerRctNonSem c.hashing tx mixRing := by
  cases hsimple : isRctSimple tx.rctSignatures.type with
  | false =>
    rw [expand_of_not_simple hsimple, expand_of_not_simple ((wireData_type tx).symm ▸ hsimple)]
  | true =>
    have hpre : tx.wireData.toTransactionPrefix = tx.toTransactionPrefix := rfl
    have hpruned : tx.wireData.pruned = false := rfl
    rw [expandTxAndVerRctNonSem, expandTxAndVerRctNonSem, hpruned, hp, hpre,
      expandTransaction2_wireData hp hsimple]
    cases hexp : expandTransaction2 tx (c.hashing.getTransactionPrefixHash tx) mixRing with
    | none => rfl
    | some t =>
      have hsimple' : isRctSimple t.rctSignatures.type = true := by
        rw [expandTransaction2_type hexp, hsimple]
      have hring := filled_mixRing t
      have htype := filled_type t
      have hvin : nRing t.filled = nRing t := rfl
      have hsigs : (if isRctClsag t.rctSignatures.type then t.filled.rctSignatures.p.clsags.length
          else t.filled.rctSignatures.p.mgs.length) =
          if isRctClsag t.rctSignatures.type then t.rctSignatures.p.clsags.length
          else t.rctSignatures.p.mgs.length := by
        split
        · next hclsag => rw [clsags_filled hclsag]
        · next hclsag => rw [mgs_filled hclsag]
      simp only [Option.map_some, hring, htype, hvin, hsigs, keyImageMatches_filled,
        verRctNonSemanticsSimple_filled hsimple']

variable (c) in
/-- `expand_tx_and_ver_rct_non_sem`, which refuses a signature whose message cannot be built as
well. -/
def expandAndVer (tx : Transaction) (mixRing : List (List CtKey)) : Bool :=
  expandTxAndVerRctNonSem c.hashing tx mixRing &&
    ((expandTransaction2 tx (c.hashing.getTransactionPrefixHash tx)
      mixRing).bind fun t => preMlsagHash c t.rctSignatures).isSome

theorem expandAndVer_wireData (hp : tx.pruned = false) (mixRing : List (List CtKey)) :
    expandAndVer c tx.wireData mixRing = expandAndVer c tx mixRing := by
  rw [expandAndVer, expandAndVer, expand_wireData hp]
  cases hsimple : isRctSimple tx.rctSignatures.type with
  | false => rw [expand_of_not_simple hsimple, Bool.false_and, Bool.false_and]
  | true =>
    have hpre : tx.wireData.toTransactionPrefix = tx.toTransactionPrefix := rfl
    rw [hpre, expandTransaction2_wireData hp hsimple]
    cases hexp : expandTransaction2 tx (c.hashing.getTransactionPrefixHash tx) mixRing with
    | none => rfl
    | some t =>
      have hsimple' : isRctSimple t.rctSignatures.type = true := by
        rw [expandTransaction2_type hexp, hsimple]
      rw [Option.map_some, Option.bind_some, Option.bind_some, preMlsagHash_filled hsimple']

/-- A row of rings that the expansion keeps is not empty. -/
theorem expandMixRing_ne_nil {pubkeys mixRing : List (List CtKey)}
    (hsimple : isRctSimple type = true) (h : expandMixRing type pubkeys = some mixRing) :
    mixRing ≠ [] := by
  rintro rfl
  cases pubkeys with
  | nil => cases h
  | cons row rows =>
    rw [expandMixRing, if_neg (ne_full_of_simple hsimple), if_pos hsimple] at h
    split at h
    · cases h
    · cases h

/-- What a verified transaction looks like. -/
theorem shape_of_expand {mixRing : List (List CtKey)}
    (h : expandTxAndVerRctNonSem c tx mixRing = true) :
    tx.pruned = false ∧ tx.version = 2 ∧ isRctSimple tx.rctSignatures.type = true ∧
      tx.vin ≠ [] := by
  have hsimple : isRctSimple tx.rctSignatures.type = true := by
    by_contra hsimple
    rw [expand_of_not_simple (Bool.not_eq_true _ ▸ hsimple)] at h
    cases h
  rw [expandTxAndVerRctNonSem, Bool.and_eq_true, Bool.not_eq_true'] at h
  obtain ⟨hp, h⟩ := h
  split at h
  · cases h
  · next t ht =>
    simp only [Bool.and_eq_true, beq_iff_eq, decide_eq_true_eq] at h
    obtain ⟨⟨⟨-, hsigs⟩, -⟩, hver⟩ := h
    simp only [expandTransaction2, Option.bind_eq_bind, Option.bind_eq_some_iff] at ht
    obtain ⟨_, hguard, -, -, pqIn, -, rings, hrings, p, -, ht⟩ := ht
    obtain rfl := Option.some.inj ht
    have hversion : tx.version = 2 := by
      by_contra hne
      simp [hne] at hguard
    refine ⟨hp, hversion, hsimple, fun hvin => ?_⟩
    -- the first ring needs a signature, and there are as many of them as ring inputs
    have hlen : 0 < rings.length := length_pos_of_ne_nil (expandMixRing_ne_nil hsimple hrings)
    rw [verRctNonSemanticsSimple, Bool.and_eq_true] at hver
    have hfirst := all_eq_true.mp hver.2 0 (mem_range.mpr hlen)
    have hnone : nRing tx = 0 := by rw [nRing, hvin]; rfl
    rw [hnone] at hsigs
    rw [verInputSignature] at hfirst
    split at hfirst
    · split at hfirst
      · next hclsag =>
        rw [if_pos hclsag] at hsigs
        rw [length_eq_zero_iff.mp hsigs] at hfirst
        cases hfirst
      · next hclsag =>
        rw [if_neg hclsag] at hsigs
        rw [length_eq_zero_iff.mp hsigs] at hfirst
        cases hfirst
    · cases hfirst

/-! ### What the id determines -/

/-- The parts that are hashed are the encodings of the parts of the transaction. -/
theorem txParts_eq_some {parts : Bytes × Bytes × Bytes} (hp : tx.pruned = false)
    (hv : tx.version ≠ 1) (hvin : tx.vin ≠ []) (h : txParts tx = some parts) :
    prefixFormat.write tx = some parts.1 ∧
      (rctsigBaseFormat (nRing tx) tx.vout.length).write
        tx.rctSignatures.toRctSigBase = some parts.2.1 ∧
      (prunableFormat tx.rctSignatures.type tx).write tx.rctSignatures.p = some parts.2.2 := by
  obtain ⟨pre, hpre, h⟩ := Option.bind_eq_some_iff.mp h
  obtain ⟨blob, hblob, h⟩ := Option.bind_eq_some_iff.mp h
  obtain ⟨n, hn, rfl⟩ := Option.map_eq_some_iff.mp h
  have hneither : ¬ (tx.version = 1 ∨ tx.vin = []) := not_or.mpr ⟨hv, hvin⟩
  obtain ⟨b, rest, hb, hrest, rfl⟩ := parts_of_serialize hp hblob hneither
  obtain ⟨x, hx, y, hy, rfl⟩ := transactionBaseFormat_write.mp hb
  obtain rfl := Option.some.inj (hpre.symm.trans hx)
  obtain rfl : (pre ++ y).length = n := by
    rw [unprunableSize, hb] at hn
    exact Option.some.inj hn
  rw [transactionBaseBody, if_neg hneither] at hy
  refine ⟨hpre, ?_, ?_⟩
  · rw [take_left, drop_left]
    exact hy
  · rw [drop_left]
    exact hrest

/-- **Transactions with the same parts have the same wire data.** The third part is hashed only if
there is a signature. -/
theorem wireData_eq_of_parts {tx tx' : Transaction} {parts parts' : Bytes × Bytes × Bytes}
    (hp : tx.pruned = false) (hp' : tx'.pruned = false) (hv : tx.version ≠ 1) (hvin : tx.vin ≠ [])
    (hnull : tx.rctSignatures.type ≠ rctTypeNull)
    (hcount : tx.rctSignatures.p.proofCount tx.rctSignatures.type < 2 ^ 32)
    (hcount' : tx'.rctSignatures.p.proofCount tx'.rctSignatures.type < 2 ^ 32)
    (h : txParts tx = some parts) (h' : txParts tx' = some parts') (hfst : parts.1 = parts'.1)
    (hsnd : parts.2.1 = parts'.2.1)
    (htrd : tx'.rctSignatures.type = tx.rctSignatures.type → parts.2.2 = parts'.2.2) :
    tx.wireData = tx'.wireData := by
  obtain ⟨hpre, hbase, hprunable⟩ := txParts_eq_some hp hv hvin h
  have hfront : tx'.toTransactionPrefix = tx.toTransactionPrefix := by
    obtain ⟨pre, hpre', h'⟩ := Option.bind_eq_some_iff.mp h'
    obtain ⟨blob, -, h'⟩ := Option.bind_eq_some_iff.mp h'
    obtain ⟨n, -, rfl⟩ := Option.map_eq_some_iff.mp h'
    exact prefixFormat_faithful.write_injective (hfst ▸ hpre') hpre
  have hv' : tx'.version ≠ 1 := by rwa [hfront]
  have hvin' : tx'.vin ≠ [] := by rwa [hfront]
  obtain ⟨-, hbase', hprunable'⟩ := txParts_eq_some hp' hv' hvin' h'
  rw [hfront, ← hsnd] at hbase'
  have hwire : tx.rctSignatures.toRctSigBase.wireView =
      tx'.rctSignatures.toRctSigBase.wireView := by
    rw [← rctsigBaseFormat_norm hbase, ← rctsigBaseFormat_norm hbase']
    exact Format.norm_eq_of_write _ hbase hbase'
  have htype : tx'.rctSignatures.type = tx.rctSignatures.type := by
    have := congrArg RctSigBase.type hwire
    rw [RctSigBase.wireView_type, RctSigBase.wireView_type] at this
    exact this.symm
  rw [htype, hfront, ← htrd htype] at hprunable'
  rw [htype] at hcount'
  rw [prunableFormat, if_neg hnull] at hprunable hprunable'
  have hview : tx.rctSignatures.p.wireView tx.rctSignatures.type =
      tx'.rctSignatures.p.wireView tx.rctSignatures.type := by
    rw [← (RctSigPrunable.wireView_truncProofs_iff _ _).mpr hcount,
      ← (RctSigPrunable.wireView_truncProofs_iff _ _).mpr hcount',
      ← rctsigPrunableFormat_norm hprunable, ← rctsigPrunableFormat_norm hprunable']
    exact Format.norm_eq_of_write _ hprunable hprunable'
  simp only [Transaction.wireData, hfront, hwire, htype, hview]

/-! ### The rings -/

/-- A key with its commitment. -/
def ctKeyFormat : Format CtKey :=
  (keyFormat.seq keyFormat).imap (fun k => (k.dest, k.mask)) (fun w => ⟨w.1, w.2⟩) fun _ => rfl

theorem ctKeyFormat_nonemptyCode : ctKeyFormat.NonemptyCode :=
  imap_nonemptyCode (seq_nonemptyCode_left keyFormat_nonemptyCode)

/-- `rct::ctkeyM`. -/
def mixRingFormat : Format (List (List CtKey)) :=
  vector (vector ctKeyFormat ctKeyFormat_nonemptyCode) vector_nonemptyCode

theorem mixRingFormat_faithful : mixRingFormat.Faithful :=
  vector_faithful (vector_faithful (imap_faithful
    (seq_faithful keyFormat_faithful keyFormat_faithful) fun _ => rfl))

/-- Rings that fit in memory. -/
def RingsFit (mixRing : List (List CtKey)) : Prop :=
  mixRing.length < 2 ^ 64 ∧ ∀ row ∈ mixRing, row.length < 2 ^ 64

theorem mixRingFormat_write {mixRing : List (List CtKey)} (h : RingsFit mixRing) :
    mixRingFormat.write mixRing = some (mixRingBytes mixRing) :=
  vector_write_of_forall h.1 fun row hrow => vector_write_of_forall (h.2 row hrow) fun _ _ => rfl

theorem mixRingBytes_injOn {mixRing mixRing' : List (List CtKey)} (h : RingsFit mixRing)
    (h' : RingsFit mixRing') (heq : mixRingBytes mixRing = mixRingBytes mixRing') :
    mixRing = mixRing' :=
  mixRingFormat_faithful.write_injective (mixRingFormat_write h) (heq ▸ mixRingFormat_write h')

/-! ### The cache -/

variable (c) in
/-- A call of `ver_rct_non_semantics_simple_cached`. A transaction object keeps its hash once it is
known; that of a pruned transaction cannot be computed, so it is the one that was set. -/
structure CacheCall where
  tx : Transaction
  /-- The result of `get_transaction_hash`; `none` where it throws. -/
  id : Option Hash
  mixRing : List (List CtKey)
  rctTypeToCache : UInt8
  id_eq : tx.pruned = false → id = calculateTransactionHash c tx
  ringsFit : RingsFit mixRing
  proofsFit : tx.rctSignatures.p.proofCount tx.rctSignatures.type < 2 ^ 32

namespace CacheCall

/-- The condition `untested_tx`. -/
def Untested (call : CacheCall c) : Prop :=
  2 < call.tx.version ∨ rctTypeBulletproofPlus < call.tx.rctSignatures.type

/-- The calls that look in the cache. -/
def Cached (call : CacheCall c) : Prop :=
  ¬ call.Untested ∧ call.tx.rctSignatures.type = call.rctTypeToCache

instance (call : CacheCall c) : Decidable call.Untested := inferInstanceAs (Decidable (_ ∨ _))

instance (call : CacheCall c) : Decidable call.Cached := inferInstanceAs (Decidable (_ ∧ _))

/-- What is hashed for the cache. -/
def keyString (call : CacheCall c) (id : Hash) : Bytes :=
  hashKeyTxhashAndMixring ++ id.bytes ++ mixRingBytes call.mixRing

/-- `calc_tx_mixring_hash`; `none` where it throws. -/
def calcTxMixringHash (call : CacheCall c) : Option Hash :=
  call.id.map fun id => c.cnFastHash (call.keyString id)

/-- The verdict without a cache. -/
def verdict (call : CacheCall c) : Bool := expandAndVer c call.tx call.mixRing

/-- `RCT_VER_CACHE_SIZE`. -/
abbrev rctVerCacheSize : UInt64 := 8192

/-- `ver_rct_non_semantics_simple_cached`, and the cache afterwards; `none` where it throws. -/
def verCached (cache : DataCache Hash) (call : CacheCall c) : Option Bool × DataCache Hash :=
  if call.Untested then (some false, cache)
  else if call.tx.rctSignatures.type ≠ call.rctTypeToCache then (some call.verdict, cache)
  else
    match call.calcTxMixringHash with
    | none => (none, cache)
    | some h =>
      if h ∈ cache.data then (some true, cache)
      else if !call.verdict then (some false, cache)
      else (some true, cache.add rctVerCacheSize h)

/-- The cache after calls from the start. -/
def cacheAfter (calls : List (CacheCall c)) : DataCache Hash :=
  calls.foldl (fun cache call => (verCached cache call).2) .empty

/-- The strings that a call hashes for its id and its key. -/
def strings (call : CacheCall c) : List Bytes :=
  (call.id.map call.keyString).toList ++
    if call.tx.pruned = true ∨ call.tx.version = 1 then []
    else (txParts call.tx).elim [] fun parts =>
      [parts.1, parts.2.1, parts.2.2, idString c call.tx.rctSignatures.type parts]

/-- No two different strings hashed in these calls have the same hash. -/
def CollisionFree (calls : List (CacheCall c)) : Prop :=
  ∀ s ∈ calls.flatMap strings, ∀ s' ∈ calls.flatMap strings, c.cnFastHash s = c.cnFastHash s' →
    s = s'

instance (calls : List (CacheCall c)) : Decidable (CollisionFree calls) :=
  inferInstanceAs (Decidable (∀ s ∈ _, ∀ s' ∈ _, _ → _))

/-! ### The cache is a memo -/

/-- The key of a call that looks in the cache. -/
def key? (call : CacheCall c) : Option Hash :=
  if call.Cached then call.calcTxMixringHash else none

/-- A verified transaction has been tested with the cache. -/
theorem not_untested_of_verdict {call : CacheCall c} (h : call.verdict = true) :
    ¬ call.Untested := by
  rw [verdict, expandAndVer, Bool.and_eq_true] at h
  obtain ⟨-, hversion, hsimple, -⟩ := shape_of_expand h.1
  rintro (hv | ht)
  · rw [hversion] at hv
    exact absurd hv (by decide)
  · exact absurd ht (UInt8.not_lt.mpr (le_of_isRctSimple hsimple))

/-- **A call asks the memo**, unless it throws. -/
theorem verCached_eq (cache : DataCache Hash) (call : CacheCall c) :
    verCached cache call =
      (if call.Cached ∧ call.calcTxMixringHash = none then none
        else some (Memo.ask rctVerCacheSize key? verdict cache call).1,
        (Memo.ask rctVerCacheSize key? verdict cache call).2) := by
  by_cases huntested : call.Untested
  · have hcached : ¬ call.Cached := fun h => h.1 huntested
    have hverdict : call.verdict = false := by
      by_contra hverdict
      exact not_untested_of_verdict (Bool.not_eq_false _ ▸ hverdict) huntested
    rw [verCached, if_pos huntested, if_neg fun h => hcached h.1, Memo.ask, key?, if_neg hcached,
      hverdict]
  · by_cases htype : call.tx.rctSignatures.type = call.rctTypeToCache
    · have hcached : call.Cached := ⟨huntested, htype⟩
      rw [verCached, if_neg huntested, if_neg (not_not.mpr htype), Memo.ask, key?, if_pos hcached]
      cases hhash : call.calcTxMixringHash with
      | none => rw [if_pos ⟨hcached, rfl⟩]
      | some h =>
        rw [if_neg (by simp)]
        by_cases hmem : h ∈ cache.data
        · simp only [if_pos hmem]
        · cases hverdict : call.verdict <;> simp [hmem]
    · have hcached : ¬ call.Cached := fun h => htype h.2
      rw [verCached, if_neg huntested, if_pos htype, if_neg fun h => hcached h.1, Memo.ask, key?,
        if_neg hcached]

theorem cacheAfter_eq (calls : List (CacheCall c)) :
    cacheAfter calls =
      calls.foldl (fun cache call => (Memo.ask rctVerCacheSize key? verdict cache call).2)
        .empty := by
  simp only [cacheAfter, verCached_eq]

/-- A complete transaction of version 2 hashes its parts. -/
theorem id_eq_some {call : CacheCall c} {id : Hash} (hid : call.id = some id)
    (hp : call.tx.pruned = false) (hv : call.tx.version ≠ 1) :
    ∃ parts, txParts call.tx = some parts ∧
      id = c.cnFastHash (idString c call.tx.rctSignatures.type parts) ∧
      parts.1 ∈ call.strings ∧ parts.2.1 ∈ call.strings ∧ parts.2.2 ∈ call.strings ∧
      idString c call.tx.rctSignatures.type parts ∈ call.strings := by
  rw [call.id_eq hp, calculateTransactionHash, hp, if_neg Bool.false_ne_true, if_neg hv] at hid
  obtain ⟨parts, hparts, rfl⟩ := Option.map_eq_some_iff.mp hid
  have hcomplete : ¬ (call.tx.pruned = true ∨ call.tx.version = 1) := by
    rw [hp]
    exact not_or.mpr ⟨Bool.false_ne_true, hv⟩
  refine ⟨parts, hparts, rfl, ?_⟩
  simp [strings, if_neg hcomplete, hparts]

/-- **Calls with one key have one verdict**, if both transactions are complete and the first one is
verified. -/
theorem verdict_of_hash_eq {calls : List (CacheCall c)} (hfree : CollisionFree calls)
    {call call' : CacheCall c} (hmem : call ∈ calls) (hmem' : call' ∈ calls)
    (hp' : call'.tx.pruned = false) (hv' : call'.tx.version ≠ 1) {h : Hash}
    (hhash : call.calcTxMixringHash = some h) (hhash' : call'.calcTxMixringHash = some h)
    (hverdict : call.verdict = true) : call'.verdict = true := by
  have hshape := hverdict
  rw [verdict, expandAndVer, Bool.and_eq_true] at hshape
  obtain ⟨hp, hversion, hsimple, hvin⟩ := shape_of_expand hshape.1
  have hv : call.tx.version ≠ 1 := by rw [hversion]; decide
  obtain ⟨id, hid, rfl⟩ := Option.map_eq_some_iff.mp hhash
  obtain ⟨id', hid', heq⟩ := Option.map_eq_some_iff.mp hhash'
  have hin {call : CacheCall c} {s : Bytes} (hcall : call ∈ calls) (hs : s ∈ call.strings) :
      s ∈ calls.flatMap strings := mem_flatMap.mpr ⟨call, hcall, hs⟩
  -- the key gives the id and the rings
  have hkey : call'.keyString id' = call.keyString id := by
    refine hfree _ (hin hmem' ?_) _ (hin hmem ?_) heq
    · rw [strings, hid']
      exact mem_append_left _ (mem_singleton.mpr rfl)
    · rw [strings, hid]
      exact mem_append_left _ (mem_singleton.mpr rfl)
  rw [keyString, keyString, append_assoc, append_assoc,
    append_cancel_left_eq] at hkey
  obtain ⟨rfl, hrings⟩ := Blob.append_inj hkey
  have hrings := mixRingBytes_injOn call'.ringsFit call.ringsFit hrings
  -- the id gives the hashes of the parts, and these the parts
  obtain ⟨parts, hparts, hhash, h₁, h₂, h₃, h₄⟩ := id_eq_some hid hp hv
  obtain ⟨parts', hparts', hhash', h₁', h₂', h₃', h₄'⟩ := id_eq_some hid' hp' hv'
  have hpart {s s' : Bytes} (hs : s ∈ call.strings) (hs' : s' ∈ call'.strings)
      (h : c.cnFastHash s = c.cnFastHash s') : s = s' := hfree _ (hin hmem hs) _ (hin hmem' hs') h
  have hid := hpart h₄ h₄' (hhash.symm.trans hhash')
  rw [idString, idString, append_assoc, append_assoc] at hid
  obtain ⟨hfst, hid⟩ := Blob.append_inj hid
  obtain ⟨hsnd, htrd⟩ := Blob.append_inj hid
  have hwire : call.tx.wireData = call'.tx.wireData := by
    refine wireData_eq_of_parts hp hp' hv hvin (ne_null_of_simple hsimple) call.proofsFit
      call'.proofsFit hparts hparts' (hpart h₁ h₁' hfst) (hpart h₂ h₂' hsnd) fun htype => ?_
    rw [htype, if_neg (ne_null_of_simple hsimple), if_neg (ne_null_of_simple hsimple)] at htrd
    exact hpart h₃ h₃' (Blob.ext_bytes htrd)
  rw [verdict, ← expandAndVer_wireData hp', ← hwire, expandAndVer_wireData hp, hrings]
  exact hverdict

/-- **When the cache gives the verdict of the verifier.** -/
theorem cached_eq_iff {calls : List (CacheCall c)} {call : CacheCall c}
    (hfree : CollisionFree (call :: calls)) :
    (verCached (cacheAfter calls) call).1 = some (expandAndVer c call.tx call.mixRing) ↔
      ¬ (call.Cached ∧ (call.calcTxMixringHash = none ∨
        (call.tx.pruned = true ∨ call.tx.version = 1) ∧
          ∃ h ∈ (cacheAfter calls).data, call.calcTxMixringHash = some h)) := by
  change _ = some call.verdict ↔ _
  rw [verCached_eq]
  by_cases hcached : call.Cached
  · cases hhash : call.calcTxMixringHash with
    | none => simp [hcached]
    | some h =>
      have hkey : call.key? = some h := by rw [key?, if_pos hcached, hhash]
      simp only [hcached, reduceCtorEq, and_false, if_false, Option.some_inj, Memo.ask_eq_iff,
        hkey, true_and, false_or, forall_eq', exists_eq_right', not_and]
      constructor
      · rintro (hverdict | hmiss) hshape hhit
        · rw [verdict, expandAndVer, Bool.and_eq_true] at hverdict
          obtain ⟨hp, hversion, -⟩ := shape_of_expand hverdict.1
          rw [hp, hversion] at hshape
          exact absurd hshape (by decide)
        · exact hmiss hhit
      · intro hcond
        by_cases hhit : h ∈ (cacheAfter calls).data
        · refine .inl ?_
          rw [cacheAfter_eq] at hhit
          obtain ⟨call', hmem', hkey', hverdict'⟩ := Memo.exists_of_mem_run hhit
          have hhash' : call'.calcTxMixringHash = some h := by
            rw [key?] at hkey'
            split at hkey'
            · exact hkey'
            · cases hkey'
          have hcomplete := not_or.mp fun hshape => hcond hshape (cacheAfter_eq calls ▸ hhit)
          exact verdict_of_hash_eq hfree (mem_cons_of_mem _ hmem') mem_cons_self
            (Bool.not_eq_true _ ▸ hcomplete.1) hcomplete.2 hhash' hhash hverdict'
        · exact .inr hhit
  · have hkey : call.key? = none := by rw [key?, if_neg hcached]
    simp [hcached, Memo.ask_eq_iff, hkey]

/-! ### A false hit -/

/-- The transparent instance with a hash of all bytes. -/
def folding : Crypto :=
  { transparent with
    cnFastHash := fun b => natLe (b.foldl (fun h x => (h * 257 + x.toNat + 1) % 2 ^ 256) 0) }

/-- The ring part of the hybrid spend, with one ring member. -/
def sampleSpend : Transaction :=
  { hybridSpend with
    vin := [.toKey ⟨0, [5], flipBits (natLe 1005)⟩]
    rctSignatures :=
      { hybridSpend.rctSignatures with
        p :=
          { hybridSpend.rctSignatures.p with
            clsags := [{ s := [default], c1 := default, i := default, d := default }] } } }

/-- A verification of this spend. -/
def sampleCall : CacheCall folding where
  tx := sampleSpend
  id := calculateTransactionHash folding sampleSpend
  mixRing := [[⟨natLe 1005, pointOf 1000⟩]]
  rctTypeToCache := rctTypeBulletproofPlus
  id_eq _ := rfl
  ringsFit := by simp [RingsFit]
  proofsFit := by decide

/-- The same call with what is left of the transaction after it was pruned. -/
def prunedCall : CacheCall folding :=
  { sampleCall with
    tx :=
      { sampleSpend with
        pruned := true
        rctSignatures := { sampleSpend.rctSignatures with p := default } }
    id_eq := nofun
    proofsFit := by decide }

theorem sample_collisionFree : CollisionFree [prunedCall, sampleCall] := by decide +kernel

theorem cached_eq_twice : CollisionFree [sampleCall, sampleCall] ∧
    (verCached (cacheAfter [sampleCall]) sampleCall).1 =
      some (expandAndVer folding sampleCall.tx sampleCall.mixRing) := by
  have hfree : CollisionFree [sampleCall, sampleCall] := by decide +kernel
  exact ⟨hfree, (cached_eq_iff hfree).mpr (by decide +kernel)⟩

theorem pruned_hits : CollisionFree [prunedCall, sampleCall] ∧
    (verCached (cacheAfter [sampleCall]) prunedCall).1 = some true ∧
      expandAndVer folding prunedCall.tx prunedCall.mixRing = false :=
  ⟨sample_collisionFree, by decide +kernel, rfl⟩

end CacheCall

end Hidering
