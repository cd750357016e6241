import Mathlib.Data.List.Sort
import Mathlib.Order.Basic

/-!
# Elements of a list by rank

The element of rank `k` of a list is the one at position `k` after sorting. How many elements lie
below a bound decides which side of the bound it is on (`rank_iff`), so ranks are compared by
counting, without looking at the sorted list.

## Main definitions

* `Median.rank`
* `Median.newest` — the last elements of a list

## Main results

* `Median.rank_iff`, `Median.rank_eq_some`
* `Median.rank_le_of_countP_le` — ranks under a comparison of counts
* `Median.le_countP_newest`, `Median.countP_newest_replicate`
-/

namespace Median

open List

variable {α : Type*} [LinearOrder α] {l l' : List α} {a b t : α} {k : ℕ}

/-- The element of rank `k`: position `k` of the sorted list. -/
def rank (l : List α) (k : ℕ) : Option α := (l.insertionSort (· ≤ ·))[k]?

/-- In a sorted list the elements with a property that is inherited by smaller elements come
first. -/
theorem getElem?_iff_of_pairwise {p : α → Bool} (hp : ∀ a b, a ≤ b → p b = true → p a = true)
    (hl : l.Pairwise (· ≤ ·)) (ha : l[k]? = some a) : p a = true ↔ k < l.countP p := by
  induction l generalizing k with
  | nil => cases ha
  | cons b l ih =>
    obtain ⟨hb, hl⟩ := pairwise_cons.mp hl
    have hnone : p b = false → ∀ c ∈ l, p c = false := by
      intro hpb c hc
      by_contra hpc
      rw [hp b c (hb c hc) (Bool.not_eq_false _ ▸ hpc)] at hpb
      cases hpb
    cases k with
    | zero =>
      obtain rfl : b = a := Option.some.inj ha
      cases hpb : p b with
      | true => simp [hpb]
      | false => simpa [hpb] using hnone hpb
    | succ k =>
      rw [getElem?_cons_succ] at ha
      cases hpb : p b with
      | true =>
        rw [countP_cons_of_pos hpb, Nat.add_lt_add_iff_right]
        exact ih hl ha
      | false =>
        have hcount : l.countP p = 0 := countP_eq_zero.mpr fun c hc => by simp [hnone hpb c hc]
        rw [countP_cons_of_neg (by simp [hpb]), hcount, hnone hpb a (mem_of_getElem? ha)]
        simp

theorem rank_isSome_iff : (rank l k).isSome = true ↔ k < l.length := by
  rw [rank, Option.isSome_iff_ne_none, Ne, List.getElem?_eq_none_iff, length_insertionSort,
    not_le]

theorem exists_rank (h : k < l.length) : ∃ a, rank l k = some a :=
  Option.isSome_iff_exists.mp (rank_isSome_iff.mpr h)

/-- **Ranks by counting.** -/
theorem rank_iff {p : α → Bool} (hp : ∀ a b, a ≤ b → p b = true → p a = true)
    (ha : rank l k = some a) : p a = true ↔ k < l.countP p := by
  rw [← (perm_insertionSort (· ≤ ·) l).countP_eq p]
  exact getElem?_iff_of_pairwise hp (pairwise_insertionSort (· ≤ ·) l) ha

theorem rank_le_iff (ha : rank l k = some a) : a ≤ t ↔ k < l.countP (· ≤ t) := by
  rw [← rank_iff (p := (· ≤ t)) (fun a b hab hb => by simp at hb ⊢; exact hab.trans hb) ha]
  simp

theorem rank_lt_iff (ha : rank l k = some a) : a < t ↔ k < l.countP (· < t) := by
  rw [← rank_iff (p := (· < t)) (fun a b hab hb => by simp at hb ⊢; exact hab.trans_lt hb) ha]
  simp

/-- The element of rank `k` is the one with at most `k` elements below it and more than `k` up to
it. -/
theorem rank_eq_some (hlt : l.countP (· < a) ≤ k) (hle : k < l.countP (· ≤ a)) :
    rank l k = some a := by
  obtain ⟨b, hb⟩ := exists_rank (hle.trans_le countP_le_length)
  have hba : b ≤ a := (rank_le_iff hb).mpr hle
  have hab : ¬ b < a := fun h => absurd ((rank_lt_iff hb).mp h) (not_lt.mpr hlt)
  rw [hb, le_antisymm hba (not_lt.mp hab)]

theorem rank_mono (ha : rank l k = some a) {k' : ℕ} (hb : rank l k' = some b) (h : k ≤ k') :
    a ≤ b :=
  (rank_le_iff ha).mpr (h.trans_lt ((rank_le_iff hb).mp le_rfl))

/-- If a list has `e` more elements below every bound than another, its elements of ranks `e` higher
are not larger. -/
theorem rank_le_of_countP_le {e : ℕ} (h : ∀ t, l.countP (· ≤ t) + e ≤ l'.countP (· ≤ t))
    (ha : rank l k = some a) (hb : rank l' (k + e) = some b) : b ≤ a := by
  have hk : k < l.countP (· ≤ a) := (rank_le_iff ha).mp le_rfl
  exact (rank_le_iff hb).mpr ((Nat.add_lt_add_right hk e).trans_le (h a))

/-! ### The newest elements -/

section Newest

variable {β : Type*} {N : ℕ}

/-- The last `N` elements of a list, or all of them if there are fewer. -/
def newest (N : ℕ) (l : List β) : List β := l.drop (l.length - N)

theorem newest_of_length_le {l : List β} (h : l.length ≤ N) : newest N l = l := by
  rw [newest, Nat.sub_eq_zero_of_le h, drop_zero]

theorem length_newest (l : List β) : (newest N l).length = min N l.length := by
  rw [newest, length_drop]
  omega

theorem newest_append (l m : List β) : newest N (newest N l ++ m) = newest N (l ++ m) := by
  have hdrop : newest N l ++ m = (l ++ m).drop (l.length - N) := by
    rw [newest, drop_append_of_le_length (Nat.sub_le _ _)]
  rw [hdrop, newest, newest, drop_drop, length_drop, length_append]
  congr 1
  omega

/-- If all of the newest elements but the last `m` have a property, it holds of as many. -/
theorem le_countP_newest {p : β → Bool} {l : List β} {m : ℕ} (hN : N ≤ l.length)
    (h : ∀ i a, l.length ≤ i + N → i + m < l.length → l[i]? = some a → p a = true) :
    N - m ≤ (newest N l).countP p := by
  have hall : ((newest N l).take (N - m)).countP p = N - m := by
    have hlen : ((newest N l).take (N - m)).length = N - m := by
      rw [length_take, length_newest]
      omega
    conv_rhs => rw [← hlen]
    refine countP_eq_length.mpr fun a ha => ?_
    obtain ⟨i, hi⟩ := mem_iff_getElem?.mp ha
    rw [getElem?_take, newest, getElem?_drop] at hi
    split at hi
    · next hlt => exact h _ a (by omega) (by omega) hi
    · cases hi
  calc N - m = ((newest N l).take (N - m)).countP p := hall.symm
    _ ≤ (newest N l).countP p := List.Sublist.countP_le (take_sublist _ _)

end Newest

/-- The newest of a list with smallest elements behind it has more elements below every bound. -/
theorem countP_newest_replicate {N g : ℕ} {bot : α} (hbot : ∀ t, bot ≤ t) (h : l.length ≤ N)
    (t : α) :
    l.countP (· ≤ t) + ((newest N (l ++ replicate g bot)).length - l.length) ≤
      (newest N (l ++ replicate g bot)).countP (· ≤ t) := by
  have hsplit := take_append_drop ((l ++ replicate g bot).length - N) (l ++ replicate g bot)
  have hcount := congrArg (List.countP fun x => decide (x ≤ t)) hsplit
  have hfront := countP_le_length (p := fun x => decide (x ≤ t))
    (l := (l ++ replicate g bot).take ((l ++ replicate g bot).length - N))
  rw [countP_append, countP_append, countP_replicate, if_pos (by simpa using hbot t)] at hcount
  rw [length_newest, newest]
  simp only [length_append, length_replicate, length_take] at hfront hcount ⊢
  omega

end Median
