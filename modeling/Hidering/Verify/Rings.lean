import Hidering.Verify.Hybrid
import Mathlib.Data.List.Infix

/-!
# The rules about rings

What `check_tx_inputs` and `check_tx_semantic` enforce about the rings of a transaction from
`HF_VERSION_MIN_MIXIN_31` on: one size for all of them, between 32 and 64, key images in descending
order, no ring input behind a post-quantum one, and members that are pairwise distinct.

The last rule is only enforced in part. A ring is written as relative offsets, and the code refuses
an offset of zero behind the first. Absolute indices are computed modulo `2 ^ 64`, so two members
are also the same if several offsets in a row sum to a multiple of `2 ^ 64`
(`nodup_absolute_iff`); such a ring is accepted.

## Main definitions

* `Hidering.RingRules`

## Main results

* `Hidering.ringRules_iff`
-/

namespace Hidering

open Wire Machine Check Crypto List

variable {c : Crypto}

/-! ### Absolute indices -/

variable {offsets : List UInt64}

theorem mem_absoluteFrom {total x : UInt64} :
    x ∈ absoluteFrom total offsets ↔ ∃ run, run ≠ [] ∧ run <+: offsets ∧ sumFrom total run = x := by
  induction offsets generalizing total with
  | nil =>
    simp only [absoluteFrom, not_mem_nil, prefix_nil, false_iff]
    rintro ⟨run, hne, hnil, -⟩
    exact hne hnil
  | cons o offsets ih =>
    rw [absoluteFrom, mem_cons, ih]
    constructor
    · rintro (rfl | ⟨run, -, hrun, rfl⟩)
      · exact ⟨[o], cons_ne_nil _ _, prefix_append [o] offsets, rfl⟩
      · exact ⟨o :: run, cons_ne_nil _ _, cons_prefix_cons.mpr ⟨rfl, hrun⟩, rfl⟩
    · rintro ⟨run, hne, hrun, rfl⟩
      obtain ⟨o', run, rfl⟩ := exists_cons_of_ne_nil hne
      obtain ⟨rfl, hrest⟩ := cons_prefix_cons.mp hrun
      cases run with
      | nil => exact .inl rfl
      | cons o'' run => exact .inr ⟨o'' :: run, cons_ne_nil _ _, hrest, rfl⟩

/-- A run of consecutive entries starts at the first entry or later. -/
theorem infix_iff_prefix_or_tail {run offsets : List UInt64} (hne : run ≠ []) :
    run <:+: offsets ↔ run <+: offsets ∨ run <:+: offsets.tail := by
  cases offsets with
  | nil => simp [hne]
  | cons o offsets => exact infix_cons_iff

/-- Two members of a ring are the same exactly if the offsets between them sum to a multiple of
`2 ^ 64`. -/
theorem nodup_absoluteFrom {total : UInt64} :
    (absoluteFrom total offsets).Nodup ↔
      ∀ run, run ≠ [] → run <:+: offsets.tail → ¬ 2 ^ 64 ∣ exactSum run := by
  induction offsets generalizing total with
  | nil =>
    refine iff_of_true nodup_nil fun run hne hrun => ?_
    exact absurd (infix_nil.mp hrun) hne
  | cons o offsets ih =>
    rw [absoluteFrom, nodup_cons, ih, mem_absoluteFrom, tail_cons]
    constructor
    · rintro ⟨hfirst, hrest⟩ run hne hrun hdvd
      rcases (infix_iff_prefix_or_tail hne).mp hrun with hrun | hrun
      · exact hfirst ⟨run, hne, hrun, sumFrom_eq_self_iff.mpr hdvd⟩
      · exact hrest run hne hrun hdvd
    · intro h
      refine ⟨?_, fun run hne hrun => h run hne ((infix_iff_prefix_or_tail hne).mpr (.inr hrun))⟩
      rintro ⟨run, hne, hrun, hsum⟩
      exact h run hne hrun.isInfix (sumFrom_eq_self_iff.mp hsum)

/-- If no offset behind the first is zero, only runs of two or more offsets matter. -/
theorem nodup_absolute_iff (h : ∀ o ∈ offsets.tail, o ≠ 0) :
    (relativeOutputOffsetsToAbsolute offsets).Nodup ↔
      ∀ run, 2 ≤ run.length → run <:+: offsets.tail → ¬ 2 ^ 64 ∣ exactSum run := by
  rw [relativeOutputOffsetsToAbsolute, nodup_absoluteFrom]
  constructor
  · intro hall run hlen
    exact hall run (ne_nil_of_length_pos (by omega))
  · intro hlong run hne hrun hdvd
    obtain ⟨o, run, rfl⟩ := exists_cons_of_ne_nil hne
    cases run with
    | nil =>
      have hzero : o.toNat = 0 := by
        rw [exactSum_cons, exactSum_nil, Nat.add_zero] at hdvd
        exact Nat.eq_zero_of_dvd_of_lt hdvd o.toNat_lt
      exact h o (hrun.subset mem_cons_self) (UInt64.toNat_inj.mp hzero)
    | cons o' run => exact hlong _ (by simp) hrun hdvd

/-- Offsets whose sum fits in 64 bits do not wrap around. -/
theorem not_dvd_of_sum_lt (h : ∀ o ∈ offsets.tail, o ≠ 0) (hsum : exactSum offsets < 2 ^ 64)
    {run : List UInt64} (hlen : 2 ≤ run.length)
    (hrun : run <:+: offsets.tail) : ¬ 2 ^ 64 ∣ exactSum run := by
  intro hdvd
  have hne : run ≠ [] := ne_nil_of_length_pos (by omega)
  obtain ⟨o, run, rfl⟩ := exists_cons_of_ne_nil hne
  have hle : exactSum (o :: run) ≤ exactSum offsets :=
    ((hrun.sublist.trans (tail_sublist offsets)).map UInt64.toNat).sum_le_sum
      fun _ _ => Nat.zero_le _
  have hzero := Nat.eq_zero_of_dvd_of_lt hdvd (hle.trans_lt hsum)
  rw [exactSum_cons] at hzero
  have ho : o.toNat = 0 := by omega
  exact h o (hrun.subset mem_cons_self) (UInt64.toNat_inj.mp ho)

/-! ### Ring sizes -/

theorem foldl_min_le {m : ℕ} {ms : List ℕ} {x : ℕ} (hx : x ∈ m :: ms) : ms.foldl min m ≤ x := by
  induction ms generalizing m x with
  | nil => exact (mem_singleton.mp hx).ge
  | cons a ms ih =>
    rw [foldl_cons]
    have hmin : ms.foldl min (min m a) ≤ min m a := ih mem_cons_self
    rcases mem_cons.mp hx with rfl | hx
    · omega
    · rcases mem_cons.mp hx with rfl | hx
      · omega
      · exact ih (mem_cons_of_mem _ hx)

theorem le_foldl_max {m : ℕ} {ms : List ℕ} {x : ℕ} (hx : x ∈ m :: ms) : x ≤ ms.foldl max m := by
  induction ms generalizing m x with
  | nil => exact (mem_singleton.mp hx).le
  | cons a ms ih =>
    rw [foldl_cons]
    have hmax : max m a ≤ ms.foldl max (max m a) := ih mem_cons_self
    rcases mem_cons.mp hx with rfl | hx
    · omega
    · rcases mem_cons.mp hx with rfl | hx
      · omega
      · exact ih (mem_cons_of_mem _ hx)

/-- Without unmixable inputs all rings have the same number of decoys, from 31 to 63. -/
theorem checkRingSizes_ok {hfVersion : UInt8} {nMixable : ℕ} {mixins : List ℕ}
    (hf : hfVersionMinMixin31 ≤ hfVersion)
    (h : checkRingSizes hfVersion 0 nMixable mixins = .ok ()) :
    ∃ m, 31 ≤ m ∧ m ≤ 63 ∧ ∀ x ∈ mixins, x = m := by
  cases mixins with
  | nil => exact ⟨31, Nat.le_refl _, by decide, fun x hx => absurd hx not_mem_nil⟩
  | cons m ms =>
    have hsame : hfVersionSameMixin ≤ hfVersion := UInt8.le_trans (by decide) hf
    have hmin : minMixin hfVersion = 31 := if_pos hf
    rw [checkRingSizes, checkMixinBounds] at h
    rw [ensure_bind_ok, hmin, decide_eq_true hsame, Bool.not_true, Bool.false_or, beq_iff_eq] at h
    obtain ⟨heq, h⟩ := h
    split at h
    · -- too small a ring needs an unmixable input
      rw [ensure_bind_ok] at h
      exact absurd h.1 (by decide)
    · next hge =>
      have hle : ms.foldl max m ≤ 63 := by
        by_contra hgt
        simp [hf, Nat.not_le.mp hgt] at h
      refine ⟨ms.foldl min m, by omega, by omega, fun x hx => ?_⟩
      have hlow := foldl_min_le hx
      have hhigh := le_foldl_max hx
      omega

/-! ### The order of the inputs -/

/-- A list of key images in which each is below the one before is descending as a whole. -/
theorem pairwise_of_sortedImages {images : List KeyImage} (h : sortedImages images = true) :
    images.Pairwise fun k k' => memcmpLt k'.bytes k.bytes = true := by
  induction images with
  | nil => exact List.Pairwise.nil
  | cons k images ih =>
    cases images with
    | nil => exact pairwise_singleton _ k
    | cons k' images =>
      rw [sortedImages, Bool.and_eq_true] at h
      have hrest := ih h.2
      refine pairwise_cons.mpr ⟨fun k'' hk'' => ?_, hrest⟩
      rcases mem_cons.mp hk'' with rfl | hk''
      · exact h.1
      · exact memcmpLt_trans ((pairwise_cons.mp hrest).1 k'' hk'') h.1

theorem nodup_of_pairwise {images : List KeyImage}
    (h : images.Pairwise fun k k' => memcmpLt k'.bytes k.bytes = true) : images.Nodup := by
  refine h.imp fun {k k'} hlt heq => ?_
  subst heq
  have hself := memcmpLt_asymm hlt
  exact absurd (hlt.symm.trans hself) (by decide)

/-- No ring input stands behind a post-quantum one. -/
theorem no_ring_behind_pq {vin before after : List Txin} {i : TxinToKeyPq}
    (h : ringBeforePq vin = true) (hvin : vin = before ++ .toKeyPq i :: after) :
    ∀ a ∈ after, a.isToKey = false := by
  subst hvin
  induction before with
  | nil =>
    rw [nil_append, ringBeforePq, Bool.and_eq_true, Bool.or_eq_true, all_eq_true] at h
    intro a ha
    have hpq := h.1.resolve_left (by simp [Txin.isToKeyPq, Txin.toKeyPq?]) a ha
    cases a <;> first | rfl | cases hpq
  | cons b before ih =>
    rw [cons_append, ringBeforePq, Bool.and_eq_true] at h
    exact ih h.2

/-! ### The rules -/

/-- The rules about the rings of a transaction. -/
structure RingRules (tx : TransactionPrefix) : Prop where
  size : ∃ r, 32 ≤ r ∧ r ≤ 64 ∧ ∀ i ∈ ringInputs tx, i.keyOffsets.length = r
  descending : ((ringInputs tx).map TxinToKey.kImage).Pairwise
    fun k k' => memcmpLt k'.bytes k.bytes = true
  distinct : ((ringInputs tx).map TxinToKey.kImage).Nodup
  order : ∀ before after i, tx.vin = before ++ .toKeyPq i :: after → ∀ a ∈ after, a.isToKey = false
  members : ∀ i ∈ ringInputs tx, (relativeOutputOffsetsToAbsolute i.keyOffsets).Nodup

variable {tx : Transaction}

/-- What `check_tx_inputs` has tested of the rings. -/
theorem rings_of_checkTxInputs {view : ChainView} {cache : RctVerCache c} {r : ℕ × RctVerCache c}
    (hf : 7 ≤ view.hfVersion) (h : checkTxInputs c view cache tx = .ok r) :
    checkMixins view tx = .ok () ∧ ringBeforePq tx.vin = true ∧
      sortedImages ((ringInputs tx).map TxinToKey.kImage) = true := by
  have htwo : 2 ≤ view.hfVersion := UInt8.le_trans (by decide) hf
  have hseven : decide (view.hfVersion < 7) = false := decide_eq_false (UInt8.not_lt.mpr hf)
  by_cases hpq : hfVersionPq ≤ view.hfVersion
  · simp only [checkTxInputs, if_pos hpq, if_pos htwo, unit_bind_ok, ensure_ok, hseven,
      Bool.false_or] at h
    obtain ⟨-, -, -, hmixins, horder, himages, -⟩ := h
    exact ⟨hmixins, horder, himages⟩
  · simp only [checkTxInputs, if_neg hpq, if_pos htwo, unit_bind_ok, ensure_ok, hseven,
      Bool.false_or] at h
    obtain ⟨-, hmixins, horder, himages, -⟩ := h
    exact ⟨hmixins, horder, himages⟩

theorem offsets_ne_zero_of_semantic {hfVersion : UInt8} (hf : 6 ≤ hfVersion)
    (h : checkTxSemantic c tx hfVersion = .ok ()) {i : TxinToKey}
    (hi : i ∈ ringInputs tx) : ∀ o ∈ i.keyOffsets.tail, o ≠ 0 := by
  simp only [checkTxSemantic, ensure_bind_ok] at h
  obtain ⟨-, -, -, -, -, -, -, hdiff, -⟩ := h
  rw [checkTxInputsRingMembersDiff, decide_eq_false (UInt8.not_lt.mpr hf), Bool.false_or,
    all_eq_true] at hdiff
  obtain ⟨a, ha, hai⟩ := mem_filterMap.mp hi
  have hall := hdiff a ha
  cases a with
  | toKey j =>
    obtain rfl := Option.some.inj hai
    simpa using hall
  | _ => cases hai

/-- Ring inputs without amounts count as mixable, so all rings have the same size. -/
theorem size_of_checkMixins {view : ChainView} (hf : hfVersionMinMixin31 ≤ view.hfVersion)
    (hamounts : ∀ i ∈ ringInputs tx, i.amount = 0)
    (h : checkMixins view tx = .ok ()) :
    ∃ r, 32 ≤ r ∧ r ≤ 64 ∧ ∀ i ∈ ringInputs tx, i.keyOffsets.length = r := by
  rw [checkMixins, checkMixinsBy, ensure_bind_ok, unit_bind_ok] at h
  obtain ⟨hne, hsizes, -⟩ := h
  have hnone : (ringInputs tx).countP (isUnmixable view) = 0 := by
    refine countP_eq_zero.mpr fun i hi => ?_
    rw [isUnmixable, hamounts i hi]
    simp
  rw [hnone] at hsizes
  obtain ⟨m, hlow, hhigh, hall⟩ := checkRingSizes_ok hf hsizes
  refine ⟨m + 1, by omega, by omega, fun i hi => ?_⟩
  have hmixin := hall _ (mem_map_of_mem hi)
  have hpos : 0 < i.keyOffsets.length := by
    have := all_eq_true.mp hne i hi
    exact length_pos_iff.mpr (by simpa using this)
  omega

/-- **The rules about rings** hold of an accepted transaction whose ring inputs have no amounts if
and only if in no ring the offsets of two or more members in a row wrap around to nothing. -/
theorem ringRules_iff {view : ChainView} {cache : RctVerCache c} {tx : Transaction}
    {r : ℕ × RctVerCache c} (hf : hfVersionMinMixin31 ≤ view.hfVersion)
    (hinputs : checkTxInputs c view cache tx = .ok r)
    (hsemantic : checkTxSemantic c tx view.hfVersion = .ok ())
    (hamounts : ∀ i ∈ ringInputs tx, i.amount = 0) :
    RingRules tx ↔
      ∀ i ∈ ringInputs tx, ∀ run, 2 ≤ run.length →
        run <:+: i.keyOffsets.tail → ¬ 2 ^ 64 ∣ exactSum run := by
  obtain ⟨hmixins, horder, himages⟩ :=
    rings_of_checkTxInputs (UInt8.le_trans (by decide) hf) hinputs
  have hmembers : ∀ i ∈ ringInputs tx,
      ((relativeOutputOffsetsToAbsolute i.keyOffsets).Nodup ↔ ∀ run, 2 ≤ run.length →
        run <:+: i.keyOffsets.tail → ¬ 2 ^ 64 ∣ exactSum run) := fun i hi =>
    nodup_absolute_iff (offsets_ne_zero_of_semantic (UInt8.le_trans (by decide) hf) hsemantic hi)
  constructor
  · intro hrules i hi
    exact (hmembers i hi).mp (hrules.members i hi)
  · intro hwrap
    have hpairs := pairwise_of_sortedImages himages
    refine ⟨?_, hpairs, ?_, fun _ _ _ => no_ring_behind_pq horder,
      fun i hi => (hmembers i hi).mpr (hwrap i hi)⟩
    · exact size_of_checkMixins hf hamounts hmixins
    · exact nodup_of_pairwise hpairs

/-! ### A ring that names members twice -/

/-- The hybrid spend with another ring of 32 members: outputs 1 to 30, then one back, and 30
again. -/
def wrappingSpend : Transaction :=
  { hybridSpend with
    vin := .toKey ⟨0, replicate 30 1 ++ [0xffffffffffffffff, 1], flipBits (natLe 1005)⟩ ::
      hybridSpend.vin.tail }

example : (relativeOutputOffsetsToAbsolute (replicate 30 1 ++ [0xffffffffffffffff, 1])).drop 27
    = [28, 29, 30, 29, 30] := by decide +kernel

/-- Both spends are accepted on the chain of `wideChain`. -/
theorem wide_spends_accepted : ∃ db, addBlocks transparent wideChain (Db.empty 0) = .ok () db ∧
    (∃ r, checkTxInputs transparent ⟨db, 16, 0⟩ .empty hybridSpend = .ok r) ∧
    ∃ r, checkTxInputs transparent ⟨db, 16, 0⟩ .empty wrappingSpend = .ok r := by
  obtain ⟨⟨⟩, db, hdb, h⟩ := Store.exists_of_okAnd
    (r := addBlocks transparent wideChain (Db.empty 0))
    (p := fun _ db => passes (checkTxInputs transparent ⟨db, 16, 0⟩ .empty hybridSpend) &&
      passes (checkTxInputs transparent ⟨db, 16, 0⟩ .empty wrappingSpend))
    (by decide +kernel)
  rw [Bool.and_eq_true] at h
  exact ⟨db, hdb, passes_iff.mp h.1, passes_iff.mp h.2⟩

/-- The rules hold of the hybrid spend. -/
theorem ringRules_hybridSpend :
    ∃ db, addBlocks transparent wideChain (Db.empty 0) = .ok () db ∧
      (∃ r, checkTxInputs transparent ⟨db, 16, 0⟩ .empty hybridSpend = .ok r) ∧
      RingRules hybridSpend := by
  obtain ⟨db, hdb, ⟨r, hr⟩, -⟩ := wide_spends_accepted
  have hrings : ringInputs hybridSpend = [⟨0, replicate 32 1, flipBits (natLe 1005)⟩] := rfl
  have hversion : hfVersionMinMixin31 ≤ (16 : UInt8) := by decide
  have hsemantic : checkTxSemantic transparent hybridSpend 16 = .ok () :=
    ok_of_passes (by decide +kernel)
  refine ⟨db, hdb, ⟨r, hr⟩, (ringRules_iff hversion hr hsemantic ?_).mpr ?_⟩
  · rw [hrings]
    simp
  · rw [hrings]
    intro i hi run hlen hrun
    obtain rfl := mem_singleton.mp hi
    have hones : ∀ o ∈ (replicate 32 (1 : UInt64)).tail, o ≠ 0 := by
      intro o ho
      rw [eq_of_mem_replicate (mem_of_mem_tail ho)]
      decide
    exact not_dvd_of_sum_lt hones (by decide) hlen hrun

/-- A transaction that passes both checks and is well formed in every other way names two members of
its ring twice. -/
theorem wrappingSpend_breaks_rules :
    ∃ db, addBlocks transparent wideChain (Db.empty 0) = .ok () db ∧
      (∃ r, checkTxInputs transparent ⟨db, 16, 0⟩ .empty wrappingSpend = .ok r) ∧
      checkTxSemantic transparent wrappingSpend 16 = .ok () ∧
      verNonInputConsensus transparent 16 [wrappingSpend] = .ok () ∧
      (∀ i ∈ ringInputs wrappingSpend, i.amount = 0) ∧
      ¬ RingRules wrappingSpend := by
  obtain ⟨db, hdb, -, haccepted⟩ := wide_spends_accepted
  refine ⟨db, hdb, haccepted, ok_of_passes (by decide +kernel), ok_of_passes (by decide +kernel),
    by decide, fun hrules => ?_⟩
  have hnodup := hrules.members
    ⟨0, replicate 30 1 ++ [0xffffffffffffffff, 1], flipBits (natLe 1005)⟩ mem_cons_self
  exact absurd hnodup (by decide +kernel)

end Hidering
