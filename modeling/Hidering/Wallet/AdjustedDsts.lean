import Hidering.Machine.U64
import Hidering.Wallet.Types
import Mathlib.Data.List.Nodup

/-!
# Taking the fee from the outputs

`TX::get_adjusted_dsts` takes the fee from those destinations that the user marked for it. The loop
goes round the marked positions and takes the same step from each; it computes the step only at the
front of the list, from what is left of the fee. The first round takes the quotient of the fee by
the number of positions, or one if the fee is smaller than that number, and the second round takes
one from the first positions. There is no third round: `FeeLoop.Inv` says in which round the loop is
and what every position has lost.

## Main definitions

* `getAdjustedDsts`, `FeeLoop.step`, `FeeLoop.run`
* `FeeLoop.Inv` — the loop invariant

## Main results

* `FeeLoop.Inv.step` — one round of the loop
* `getAdjustedDsts_fair` — termination, exact total, fairness, and when it does not throw
-/

namespace Hidering

open List

/-! ### The code -/

/-- `error::tx_not_possible` and `error::zero_amount`. -/
inductive AdjustError where
  | txNotPossible (available destTotal fee : UInt64)
  | zeroAmount
  deriving DecidableEq

/-- The amount of a destination. -/
def amountAt (dsts : List TxDestinationEntry) (i : ℕ) : UInt64 := (dsts[i]?.map (·.amount)).getD 0

/-- The variables of the loop; `siIt` is a position in the list of marked indices. -/
structure FeeLoop where
  res : List TxDestinationEntry
  subtractableRemaining : UInt64
  siIt : ℕ
  amountToSubtract : UInt64

/-- The destinations with `amount` taken from the one at position `i`. -/
def takeFrom (dsts : List TxDestinationEntry) (i : ℕ) (amount : UInt64) :
    List TxDestinationEntry := dsts.modify i fun d => { d with amount := d.amount - amount }

/-- The body of the loop. -/
def FeeLoop.step (indices : List ℕ) (st : FeeLoop) : Except AdjustError FeeLoop :=
  let quotient := st.subtractableRemaining / UInt64.ofNat indices.length
  let amountToSubtract :=
    if st.siIt = 0 then (if quotient < 1 then 1 else quotient) else st.amountToSubtract
  let i := indices.getD st.siIt 0
  if amountAt st.res i ≤ amountToSubtract then .error .zeroAmount
  else .ok
    { res := takeFrom st.res i amountToSubtract
      subtractableRemaining := st.subtractableRemaining - amountToSubtract
      siIt := if st.siIt + 1 = indices.length then 0 else st.siIt + 1
      amountToSubtract := amountToSubtract }

/-- The loop, for at most `fuel` rounds; `none` if that is not enough. -/
def FeeLoop.run (indices : List ℕ) :
    ℕ → FeeLoop → Option (Except AdjustError (List TxDestinationEntry))
  | 0, _ => none
  | fuel + 1, st =>
    if st.subtractableRemaining = 0 then some (.ok st.res)
    else
      match st.step indices with
      | .error e => some (.error e)
      | .ok st' => FeeLoop.run indices fuel st'

/-- The indices that `dsts_are_fee_subtractable` marks. -/
def subtractableIndices (dsts : List TxDestinationEntry) (flags : List Bool) : List ℕ :=
  (List.range dsts.length).filter fun i => flags.getD i false

/-- `TX::get_adjusted_dsts`. -/
def getAdjustedDsts (fuel : ℕ) (dsts : List TxDestinationEntry) (flags : List Bool)
    (neededFee : UInt64) : Option (Except AdjustError (List TxDestinationEntry)) :=
  let indices := subtractableIndices dsts flags
  let available := Machine.sum (indices.map (amountAt dsts))
  if indices = [] then some (.ok dsts)
  else if available < neededFee then
    some (.error (.txNotPossible available (Machine.sum (dsts.map (·.amount))) neededFee))
  else FeeLoop.run indices fuel ⟨dsts, neededFee, 0, 0⟩

/-! ### Amounts -/

variable {dsts : List TxDestinationEntry}

theorem amountAt_takeFrom {i : ℕ} (hi : i < dsts.length) (amount : UInt64) (j : ℕ) :
    amountAt (takeFrom dsts i amount) j =
      if i = j then amountAt dsts j - amount else amountAt dsts j := by
  unfold amountAt takeFrom
  rw [getElem?_modify]
  by_cases hij : i = j
  · subst hij
    simp [getElem?_eq_getElem hi]
  · simp [hij]

theorem getElem?_takeFrom {i j : ℕ} (h : i ≠ j) (amount : UInt64) :
    (takeFrom dsts i amount)[j]? = dsts[j]? := by
  rw [takeFrom, getElem?_modify]
  simp [h]

theorem length_takeFrom (dsts : List TxDestinationEntry) (i : ℕ) (amount : UInt64) :
    (takeFrom dsts i amount).length = dsts.length := length_modify ..

theorem mem_subtractableIndices {flags : List Bool} {i : ℕ}
    (h : i ∈ subtractableIndices dsts flags) : i < dsts.length :=
  mem_range.mp (mem_filter.mp h).1

theorem nodup_subtractableIndices (dsts : List TxDestinationEntry) (flags : List Bool) :
    (subtractableIndices dsts flags).Nodup := nodup_range.filter _

variable {indices : List ℕ}

theorem getD_mem {j : ℕ} (hj : j < indices.length) : indices.getD j 0 ∈ indices := by
  rw [getD_eq_getElem?_getD, getElem?_eq_getElem hj]
  exact getElem_mem hj

theorem getD_inj (hnd : indices.Nodup) {i j : ℕ} (hi : i < indices.length) (hj : j < indices.length)
    (h : indices.getD i 0 = indices.getD j 0) : i = j := by
  rw [getD_eq_getElem?_getD, getD_eq_getElem?_getD, getElem?_eq_getElem hi,
    getElem?_eq_getElem hj] at h
  exact (hnd.getElem_inj_iff).mp h

/-! ### The loop invariant -/

namespace FeeLoop

/-- What holds before each round. Every marked position has lost `b`, and those before the iterator
`k` more; `b` and `k` are those of the first or of the second way round. -/
structure Inv (dsts : List TxDestinationEntry) (indices : List ℕ) (fee b k : ℕ) (st : FeeLoop) :
    Prop where
  phase : b = 0 ∧ k = max (fee / indices.length) 1 ∨
    1 ≤ fee / indices.length ∧ b = fee / indices.length ∧ k = 1
  lt : st.siIt < indices.length
  total : indices.length * b + st.siIt * k + st.subtractableRemaining.toNat = fee
  step_eq : 0 < st.siIt → st.amountToSubtract.toNat = k
  taken : ∀ j < indices.length, (amountAt st.res (indices.getD j 0)).toNat +
    (b + if j < st.siIt then k else 0) = (amountAt dsts (indices.getD j 0)).toNat
  other : ∀ i ∉ indices, st.res[i]? = dsts[i]?
  length_eq : st.res.length = dsts.length
  pos : ∀ i < dsts.length, 0 < (amountAt st.res i).toNat

variable {dsts : List TxDestinationEntry} {indices : List ℕ} {fee b k : ℕ} {st : FeeLoop}

theorem Inv.k_pos (h : Inv dsts indices fee b k st) : 1 ≤ k := by
  rcases h.phase with ⟨-, hk⟩ | ⟨-, -, hk⟩ <;> omega

/-- The step never exceeds what is left of the fee. -/
theorem Inv.k_le (h : Inv dsts indices fee b k st) (hr : 0 < st.subtractableRemaining.toNat) :
    k ≤ st.subtractableRemaining.toNat := by
  have htotal := h.total
  rcases h.phase with ⟨rfl, hk⟩ | ⟨-, -, rfl⟩
  · rcases Nat.eq_zero_or_pos (fee / indices.length) with hq | hq
    · omega
    · have hk' : k = fee / indices.length := by omega
      have hle : (st.siIt + 1) * k ≤ fee :=
        (Nat.mul_le_mul_right k h.lt).trans (hk' ▸ Nat.mul_div_le fee indices.length)
      rw [Nat.add_mul, Nat.one_mul] at hle
      omega
  · exact hr

/-- The step that the body of the loop computes, or keeps. -/
def amount (indices : List ℕ) (st : FeeLoop) : UInt64 :=
  let quotient := st.subtractableRemaining / UInt64.ofNat indices.length
  if st.siIt = 0 then (if quotient < 1 then 1 else quotient) else st.amountToSubtract

theorem Inv.amount_eq (h : Inv dsts indices fee b k st) (hn : indices.length < 2 ^ 64) :
    (st.amount indices).toNat = k := by
  rw [amount]
  rcases Nat.eq_zero_or_pos st.siIt with hz | hpos
  · have hquot : (st.subtractableRemaining / UInt64.ofNat indices.length).toNat =
        st.subtractableRemaining.toNat / indices.length := by
      rw [UInt64.toNat_div, UInt64.toNat_ofNat_of_lt' hn]
    have hmax : max (st.subtractableRemaining.toNat / indices.length) 1 = k := by
      have htotal := h.total
      rw [hz, Nat.zero_mul, Nat.add_zero] at htotal
      rcases h.phase with ⟨rfl, hk⟩ | ⟨-, rfl, rfl⟩
      · rw [Nat.mul_zero, Nat.zero_add] at htotal
        rw [htotal, hk]
      · -- less than the number of positions is left after the first way round
        have hmod := Nat.div_add_mod fee indices.length
        have hlt := Nat.mod_lt fee (Nat.zero_lt_of_lt h.lt)
        have hsmall : st.subtractableRemaining.toNat < indices.length := by omega
        rw [Nat.div_eq_of_lt hsmall]
        rfl
    rw [if_pos hz]
    have hone : (1 : UInt64).toNat = 1 := rfl
    split_ifs with hq <;> rw [UInt64.lt_iff_toNat_lt, hquot, hone] at hq <;> omega
  · rw [if_neg (Nat.pos_iff_ne_zero.mp hpos)]
    exact h.step_eq hpos

/-- What the body of the loop does. -/
theorem step_cases (indices : List ℕ) (st : FeeLoop) :
    amountAt st.res (indices.getD st.siIt 0) ≤ st.amount indices ∧
        st.step indices = .error .zeroAmount ∨
      st.amount indices < amountAt st.res (indices.getD st.siIt 0) ∧ st.step indices = .ok
        ⟨takeFrom st.res (indices.getD st.siIt 0) (st.amount indices),
          st.subtractableRemaining - st.amount indices,
          if st.siIt + 1 = indices.length then 0 else st.siIt + 1, st.amount indices⟩ := by
  by_cases hle : amountAt st.res (indices.getD st.siIt 0) ≤ st.amount indices
  · exact Or.inl ⟨hle, if_pos hle⟩
  · exact Or.inr ⟨UInt64.not_le.mp hle, if_neg hle⟩

/-- One round of the loop: it throws if the position has no more than the step, and otherwise keeps
the invariant and takes the step off what is left. -/
theorem Inv.step (h : Inv dsts indices fee b k st) (hnd : indices.Nodup)
    (hlen : ∀ i ∈ indices, i < dsts.length) (hn : indices.length < 2 ^ 64)
    (hr : 0 < st.subtractableRemaining.toNat) :
    (st.step indices = .error .zeroAmount ∧
        (amountAt dsts (indices.getD st.siIt 0)).toNat ≤ b + k) ∨
      ∃ st' b' k', st.step indices = .ok st' ∧ Inv dsts indices fee b' k' st' ∧
        st'.subtractableRemaining.toNat < st.subtractableRemaining.toNat := by
  have hamount := h.amount_eq hn
  have hkr := h.k_le hr
  have hk := h.k_pos
  have hmem := getD_mem h.lt
  have hi := h.length_eq.symm ▸ hlen _ hmem
  have htaken := h.taken _ h.lt
  rw [if_neg (lt_irrefl _), Nat.add_zero] at htaken
  have hcase := step_cases indices st
  generalize st.amount indices = a at hamount hcase
  rcases hcase with ⟨hle, herr⟩ | ⟨hlt, hok⟩
  · refine Or.inl ⟨herr, ?_⟩
    have := UInt64.le_iff_toNat_le.mp hle
    omega
  · have hlt' := UInt64.lt_iff_toNat_lt.mp hlt
    have hrem : (st.subtractableRemaining - a).toNat = st.subtractableRemaining.toNat - k := by
      rw [UInt64.toNat_sub_of_le _ _ (UInt64.le_iff_toNat_le.mpr (by omega)), hamount]
    have hat : ∀ i, (amountAt (takeFrom st.res (indices.getD st.siIt 0) a) i).toNat =
        (amountAt st.res i).toNat - if indices.getD st.siIt 0 = i then k else 0 := by
      intro i
      rw [amountAt_takeFrom hi]
      split_ifs with hij
      · subst hij
        rw [UInt64.toNat_sub_of_le _ _ (UInt64.le_iff_toNat_le.mpr (by omega)), hamount]
      · rw [Nat.sub_zero]
    -- what a position has lost after this round
    have htaken' : ∀ j < indices.length,
        (amountAt (takeFrom st.res (indices.getD st.siIt 0) a) (indices.getD j 0)).toNat +
          (b + if j < st.siIt + 1 then k else 0) = (amountAt dsts (indices.getD j 0)).toNat := by
      intro j hj
      rw [hat]
      have hold := h.taken j hj
      by_cases hij : st.siIt = j
      · subst hij
        rw [if_pos rfl, if_pos (Nat.lt_succ_self _)]
        omega
      · have hne : indices.getD st.siIt 0 ≠ indices.getD j 0 :=
          fun e => hij (getD_inj hnd h.lt hj e)
        have hiff : j < st.siIt + 1 ↔ j < st.siIt := by omega
        simp only [if_neg hne, Nat.sub_zero, hiff]
        exact hold
    have hother : ∀ i ∉ indices,
        (takeFrom st.res (indices.getD st.siIt 0) a)[i]? = dsts[i]? := by
      intro i hni
      have hne : indices.getD st.siIt 0 ≠ i := fun e => hni (e ▸ hmem)
      rw [getElem?_takeFrom hne, h.other i hni]
    have hpos : ∀ i < dsts.length,
        0 < (amountAt (takeFrom st.res (indices.getD st.siIt 0) a) i).toNat := by
      intro i hi'
      have hold := h.pos i hi'
      rw [hat]
      split_ifs with hij
      · subst hij
        omega
      · omega
    have htotal := h.total
    refine Or.inr ?_
    by_cases hwrap : st.siIt + 1 = indices.length
    · -- the end of the first way round, with a step of at least one for each position
      have hnk : indices.length * k = st.siIt * k + k := by rw [← hwrap, Nat.succ_mul]
      have hfirst : b = 0 ∧ k = fee / indices.length := by
        rcases h.phase with ⟨rfl, hmax⟩ | ⟨-, rfl, rfl⟩
        · have hdiv : k ≤ fee / indices.length :=
            (Nat.le_div_iff_mul_le (Nat.zero_lt_of_lt h.lt)).mpr (by rw [Nat.mul_comm]; omega)
          omega
        · have hmod := Nat.div_add_mod fee indices.length
          have hlt := Nat.mod_lt fee (Nat.zero_lt_of_lt h.lt)
          omega
      obtain ⟨rfl, hkq⟩ := hfirst
      refine ⟨_, fee / indices.length, 1, hok, ⟨Or.inr ⟨hkq ▸ hk, rfl, rfl⟩, ?_, ?_, ?_, ?_, hother,
        (length_takeFrom ..).trans h.length_eq, hpos⟩, ?_⟩
      · rw [if_pos hwrap]
        exact Nat.zero_lt_of_lt h.lt
      · dsimp only
        rw [if_pos hwrap, hrem, ← hkq]
        omega
      · intro hz
        rw [if_pos hwrap] at hz
        exact absurd hz (lt_irrefl 0)
      · intro j hj
        have hj' : j < st.siIt + 1 := hwrap.symm ▸ hj
        have := htaken' j hj
        rw [if_pos hj'] at this
        dsimp only
        rw [if_pos hwrap, if_neg (Nat.not_lt_zero j), ← hkq]
        omega
      · rw [hrem]
        omega
    · refine ⟨_, b, k, hok, ⟨h.phase, ?_, ?_, fun _ => hamount, ?_, hother,
        (length_takeFrom ..).trans h.length_eq, hpos⟩, ?_⟩
      · dsimp only
        rw [if_neg hwrap]
        have := h.lt
        omega
      · dsimp only
        rw [if_neg hwrap, hrem, Nat.add_mul, Nat.one_mul]
        omega
      · rw [if_neg hwrap]
        exact htaken'
      · rw [hrem]
        omega

/-- The whole loop returns, with the invariant at its end, or throws because some position has no
more than one above its share. -/
theorem Inv.run (h : Inv dsts indices fee b k st) (hnd : indices.Nodup)
    (hlen : ∀ i ∈ indices, i < dsts.length) (hn : indices.length < 2 ^ 64) {fuel : ℕ}
    (hfuel : st.subtractableRemaining.toNat < fuel) :
    (FeeLoop.run indices fuel st = some (.error .zeroAmount) ∧
        ∃ i ∈ indices, (amountAt dsts i).toNat ≤ fee / indices.length + 1) ∨
      ∃ st' b' k', FeeLoop.run indices fuel st = some (.ok st'.res) ∧
        Inv dsts indices fee b' k' st' ∧ st'.subtractableRemaining.toNat = 0 := by
  induction fuel generalizing st b k with
  | zero => exact absurd hfuel (Nat.not_lt_zero _)
  | succ fuel ih =>
    rw [FeeLoop.run]
    by_cases hz : st.subtractableRemaining = 0
    · rw [if_pos hz]
      exact Or.inr ⟨st, b, k, rfl, h, by rw [hz]; rfl⟩
    · have hr : 0 < st.subtractableRemaining.toNat := by
        refine Nat.pos_of_ne_zero fun e => hz (UInt64.toNat_inj.mp ?_)
        rw [e]
        rfl
      rw [if_neg hz]
      rcases h.step hnd hlen hn hr with ⟨herr, hle⟩ | ⟨st', b', k', hok, hinv, hless⟩
      · rw [herr]
        refine Or.inl ⟨rfl, _, getD_mem h.lt, hle.trans ?_⟩
        have := Nat.zero_le (fee / indices.length)
        rcases h.phase with ⟨rfl, hk⟩ | ⟨-, rfl, rfl⟩ <;> omega
      · rw [hok]
        exact ih hinv (by omega)

/-- At the end no position has lost more than one above any other. -/
theorem Inv.fair (h : Inv dsts indices fee b k st) (hz : st.subtractableRemaining.toNat = 0)
    (i j : ℕ) : (b + if i < st.siIt then k else 0) ≤ (b + if j < st.siIt then k else 0) + 1 := by
  have hk : st.siIt = 0 ∨ k = 1 := by
    rcases h.phase with ⟨rfl, hk⟩ | ⟨-, -, hk⟩
    · rcases Nat.eq_zero_or_pos (fee / indices.length) with hq | hq
      · exact Or.inr (by omega)
      · -- the first way round ends at the front of the list
        have hk' : k = fee / indices.length := by omega
        have hle : indices.length * k ≤ fee := hk' ▸ Nat.mul_div_le fee indices.length
        have htotal := h.total
        rw [hz, Nat.mul_zero, Nat.zero_add, Nat.add_zero] at htotal
        have hlt := Nat.mul_lt_mul_of_pos_right h.lt (hk' ▸ hq)
        omega
    · exact Or.inr hk
  rcases hk with hk | rfl
  · simp [hk]
  · split_ifs <;> omega

/-- The losses of the first `n` positions. -/
theorem sum_lost (b k p n : ℕ) :
    ((List.range n).map fun j => b + if j < p then k else 0).sum = n * b + min p n * k := by
  induction n with
  | zero => simp
  | succ n ih =>
    rw [List.range_succ, map_append, sum_append, ih, map_singleton,
      sum_singleton, Nat.succ_mul]
    by_cases hn : n < p
    · rw [if_pos hn, Nat.min_eq_right (by omega : n ≤ p), Nat.min_eq_right hn, Nat.succ_mul]
      omega
    · rw [if_neg hn, Nat.min_eq_left (by omega : p ≤ n), Nat.min_eq_left (by omega : p ≤ n + 1)]
      omega

end FeeLoop

/-! ### The result -/

theorem getD_idxOf {i : ℕ} (h : i ∈ indices) : indices.getD (indices.idxOf i) 0 = i := by
  have hlt := idxOf_lt_length_iff.mpr h
  rw [getD_eq_getElem?_getD, getElem?_eq_getElem hlt]
  exact getElem_idxOf hlt

theorem exactSum_le (dsts : List TxDestinationEntry) (flags : List Bool) :
    Machine.exactSum ((subtractableIndices dsts flags).map (amountAt dsts)) ≤
      Machine.exactSum (dsts.map (·.amount)) := by
  have hall : (List.range dsts.length).map (amountAt dsts) = dsts.map (·.amount) := by
    refine ext_getElem (by simp) fun i _ hi => ?_
    simp only [length_map] at hi
    simp [amountAt, getElem?_eq_getElem hi]
  unfold Machine.exactSum subtractableIndices
  rw [← hall]
  refine List.Sublist.sum_le_sum ?_ fun _ _ => Nat.zero_le _
  exact ((filter_sublist).map _).map _

/-- **Fair shares of the fee.** The loop ends. If it does not throw, exactly the fee is taken, from
marked positions only, in parts that differ by at most one, and nothing becomes zero; it does not
throw if every marked position has more than one above the equal share. -/
theorem getAdjustedDsts_fair (dsts : List TxDestinationEntry) (flags : List Bool)
    (neededFee : UInt64) (hpos : ∀ d ∈ dsts, 0 < d.amount.toNat)
    (htotal : Machine.exactSum (dsts.map (·.amount)) < 2 ^ 64)
    (hmarked : subtractableIndices dsts flags ≠ []) {fuel : ℕ} (hfuel : neededFee.toNat < fuel) :
    let indices := subtractableIndices dsts flags
    (∃ r, getAdjustedDsts fuel dsts flags neededFee = some r) ∧
    (∀ res, getAdjustedDsts fuel dsts flags neededFee = some (.ok res) →
      (∀ i ∉ indices, res[i]? = dsts[i]?) ∧
      (∃ lost : ℕ → ℕ,
        (∀ i ∈ indices, (amountAt res i).toNat + lost i = (amountAt dsts i).toNat) ∧
        (indices.map lost).sum = neededFee.toNat ∧
        ∀ i ∈ indices, ∀ j ∈ indices, lost i ≤ lost j + 1) ∧
      ∀ d ∈ res, 0 < d.amount.toNat) ∧
    ((∀ i ∈ indices, neededFee.toNat / indices.length + 1 < (amountAt dsts i).toNat) →
      ∃ res, getAdjustedDsts fuel dsts flags neededFee = some (.ok res)) := by
  intro indices
  have hnd : indices.Nodup := nodup_subtractableIndices dsts flags
  have hlt : ∀ i ∈ indices, i < dsts.length := fun i hi => mem_subtractableIndices hi
  have hn : indices.length < 2 ^ 64 := by
    have hle : indices.length ≤ dsts.length :=
      (length_filter_le ..).trans_eq (length_range)
    have hsum := length_le_sum_of_one_le ((dsts.map (·.amount)).map UInt64.toNat) (by
      intro a ha
      obtain ⟨d, hd, rfl⟩ := mem_map.mp (map_map .. ▸ ha)
      exact hpos d hd)
    rw [length_map, length_map] at hsum
    exact (hle.trans hsum).trans_lt htotal
  have hamount : ∀ i < dsts.length, 0 < (amountAt dsts i).toNat := by
    intro i hi
    rw [amountAt, getElem?_eq_getElem hi]
    exact hpos _ (getElem_mem hi)
  have hstart : FeeLoop.Inv dsts indices neededFee.toNat 0
      (max (neededFee.toNat / indices.length) 1) ⟨dsts, neededFee, 0, 0⟩ :=
    ⟨Or.inl ⟨rfl, rfl⟩, length_pos_iff.mpr hmarked, by simp, fun h => absurd h (lt_irrefl 0),
      by simp, fun _ _ => rfl, rfl, hamount⟩
  have havail := Machine.toNat_sum ((exactSum_le dsts flags).trans_lt htotal)
  unfold getAdjustedDsts
  dsimp only
  rw [if_neg hmarked]
  split_ifs with hshort
  · -- the marked amounts together do not cover the fee
    refine ⟨⟨_, rfl⟩, fun res hres => absurd (Option.some.inj hres) (by simp), fun hall => ?_⟩
    have hsum := card_nsmul_le_sum ((indices.map (amountAt dsts)).map UInt64.toNat)
      (neededFee.toNat / indices.length + 1) (by
        intro a ha
        obtain ⟨i, hi, rfl⟩ := mem_map.mp (map_map .. ▸ ha)
        exact (hall i hi).le)
    rw [length_map, length_map, Nat.nsmul_eq_mul, Nat.mul_add, Nat.mul_one] at hsum
    have hdiv := Nat.div_add_mod neededFee.toNat indices.length
    have hmod : neededFee.toNat % indices.length < indices.length :=
      Nat.mod_lt _ (length_pos_iff.mpr hmarked)
    have hless : ((indices.map (amountAt dsts)).map UInt64.toNat).sum < neededFee.toNat := by
      have hshort' := UInt64.lt_iff_toNat_lt.mp hshort
      rwa [havail] at hshort'
    omega
  · rcases hstart.run hnd hlt hn hfuel with ⟨herr, i, hi, hle⟩ | ⟨st, b, k, hok, hinv, hz⟩
    · rw [herr]
      refine ⟨⟨_, rfl⟩, fun res hres => absurd (Option.some.inj hres) (by simp), fun hall => ?_⟩
      exact absurd (hall i hi) (by omega)
    · rw [hok]
      refine ⟨⟨_, rfl⟩, ?_, fun _ => ⟨_, rfl⟩⟩
      rintro res hres
      obtain rfl : st.res = res := by simpa using hres
      refine ⟨hinv.other, ⟨fun i => b + if indices.idxOf i < st.siIt then k else 0, ?_, ?_, ?_⟩, ?_⟩
      · intro i hi
        have hj := idxOf_lt_length_iff.mpr hi
        have htaken := hinv.taken _ hj
        rwa [getD_idxOf hi] at htaken
      · have hmap : indices.map (fun i => b + if indices.idxOf i < st.siIt then k else 0) =
            (List.range indices.length).map fun j => b + if j < st.siIt then k else 0 := by
          refine ext_getElem (by simp) fun j hj _ => ?_
          rw [length_map] at hj
          simp [hnd.idxOf_getElem j hj]
        have htotal := hinv.total
        rw [hmap, FeeLoop.sum_lost, Nat.min_eq_left hinv.lt.le]
        omega
      · intro i _ j _
        exact hinv.fair hz _ _
      · intro d hd
        obtain ⟨i, hi⟩ := getElem?_of_mem hd
        have hlen := (List.getElem?_eq_some_iff.mp hi).1
        have hd' := hinv.pos i (hinv.length_eq ▸ hlen)
        rwa [amountAt, hi] at hd'

/-- Two of three destinations pay a fee of five, in parts of three and two. -/
theorem getAdjustedDsts_fair_five :
    let addr : AccountPublicAddress := ⟨default, default, none, none, 0⟩
    let dsts : List TxDestinationEntry := [⟨10, addr, false, false, false⟩,
      ⟨20, addr, false, false, false⟩, ⟨30, addr, false, false, false⟩]
    ∃ res, getAdjustedDsts 6 dsts [true, false, true] 5 = some (.ok res) := by
  intro addr dsts
  exact (getAdjustedDsts_fair dsts [true, false, true] 5 (by simp [dsts]) (by decide) (by decide)
    (by decide)).2.2 (by decide)

end Hidering
