import Mathlib.Algebra.BigOperators.Group.List.Basic
import Mathlib.Algebra.GroupWithZero.Nat
import Mathlib.Algebra.Order.BigOperators.Group.List
import Mathlib.Data.List.Basic

/-!
# Sums of machine words

Sums over lists of `UInt64`, the way programs compute them: a running total that wraps around, with
or without a test for overflow at each addition. The exact value of such a sum is the natural
number `exactSum`; the test passes at every step exactly if that number fits in 64 bits
(`noOverflow_iff`), and then the running total holds it (`toNat_sumFrom`).

## Main definitions

* `Machine.sumFrom`, `Machine.sum` — the wrapping total
* `Machine.noOverflow` — the loop that tests `total > a + total`
* `Machine.checkedSum` — the loop that tests `total <= max - a`
* `Machine.exactSum`

## Main results

* `Machine.toNat_sum`, `Machine.noOverflow_iff`, `Machine.checkedSum_eq_some`
-/

namespace Machine

/-- The running total, from `total` on, modulo `2 ^ 64`. -/
def sumFrom (total : UInt64) (xs : List UInt64) : UInt64 := xs.foldl (· + ·) total

/-- The sum of a list, modulo `2 ^ 64`. -/
def sum (xs : List UInt64) : UInt64 := sumFrom 0 xs

/-- The exact sum of a list. -/
def exactSum (xs : List UInt64) : ℕ := (xs.map UInt64.toNat).sum

/-- Sum up and stop at the first addition that wraps around. -/
def noOverflow : UInt64 → List UInt64 → Bool
  | _, [] => true
  | total, a :: xs => if a + total < total then false else noOverflow (total + a) xs

/-- Sum up and fail at the first addition that would exceed the largest word. -/
def checkedSum : UInt64 → List UInt64 → Option UInt64
  | total, [] => some total
  | total, a :: xs =>
    if total.toNat ≤ (2 ^ 64 - 1) - a.toNat then checkedSum (total + a) xs else none

@[simp] theorem exactSum_nil : exactSum [] = 0 := rfl

@[simp] theorem exactSum_cons (a : UInt64) (xs : List UInt64) :
    exactSum (a :: xs) = a.toNat + exactSum xs := by
  simp [exactSum]

theorem toNat_add_of_lt {a b : UInt64} (h : a.toNat + b.toNat < 2 ^ 64) :
    (a + b).toNat = a.toNat + b.toNat := by
  rw [UInt64.toNat_add, Nat.mod_eq_of_lt h]

/-- The running total is the exact sum, modulo `2 ^ 64`. -/
theorem toNat_sumFrom_mod (total : UInt64) (xs : List UInt64) :
    (sumFrom total xs).toNat = (total.toNat + exactSum xs) % 2 ^ 64 := by
  induction xs generalizing total with
  | nil => simp [sumFrom, Nat.mod_eq_of_lt total.toNat_lt]
  | cons a xs ih =>
    have hrest := ih (total + a)
    rw [UInt64.toNat_add, Nat.mod_add_mod, Nat.add_assoc] at hrest
    exact hrest

variable {xs : List UInt64} {total : UInt64}

theorem toNat_sumFrom (h : total.toNat + exactSum xs < 2 ^ 64) :
    (sumFrom total xs).toNat = total.toNat + exactSum xs := by
  rw [toNat_sumFrom_mod, Nat.mod_eq_of_lt h]

/-- The running total comes back to its start exactly if the words sum to a multiple of
`2 ^ 64`. -/
theorem sumFrom_eq_self_iff : sumFrom total xs = total ↔ 2 ^ 64 ∣ exactSum xs := by
  have hlt := total.toNat_lt
  rw [← UInt64.toNat_inj, toNat_sumFrom_mod]
  omega

theorem toNat_sum (h : exactSum xs < 2 ^ 64) : (sum xs).toNat = exactSum xs := by
  have := @toNat_sumFrom xs 0 (by simpa using h)
  simpa [sum] using this

/-- An addition of two words wraps around exactly if the result is smaller than a summand. -/
theorem add_lt_right_iff (a total : UInt64) :
    a + total < total ↔ 2 ^ 64 ≤ a.toNat + total.toNat := by
  rw [UInt64.lt_iff_toNat_lt, UInt64.toNat_add]
  have ha := a.toNat_lt
  have ht := total.toNat_lt
  rcases Nat.lt_or_ge (a.toNat + total.toNat) (2 ^ 64) with h | h
  · rw [Nat.mod_eq_of_lt h]
    omega
  · rw [Nat.mod_eq_sub_mod h, Nat.mod_eq_of_lt (by omega)]
    omega

theorem noOverflow_iff : noOverflow total xs = true ↔ total.toNat + exactSum xs < 2 ^ 64 := by
  induction xs generalizing total with
  | nil => simpa [noOverflow] using total.toNat_lt
  | cons a xs ih =>
    rw [noOverflow, exactSum_cons]
    split
    · next h =>
      have := (add_lt_right_iff a total).mp h
      simp only [Bool.false_eq_true, false_iff]
      omega
    · next h =>
      have hlt : a.toNat + total.toNat < 2 ^ 64 :=
        not_le.mp fun hle => h ((add_lt_right_iff a total).mpr hle)
      rw [ih, toNat_add_of_lt (by omega)]
      omega

theorem checkedSum_eq_some {total s : UInt64} :
    checkedSum total xs = some s ↔
      total.toNat + exactSum xs < 2 ^ 64 ∧ s.toNat = total.toNat + exactSum xs := by
  induction xs generalizing total with
  | nil =>
    have hlt := total.toNat_lt
    simp only [checkedSum, Option.some.injEq, exactSum_nil, Nat.add_zero]
    constructor
    · rintro rfl; exact ⟨hlt, rfl⟩
    · rintro ⟨-, h⟩; exact (UInt64.toNat_inj.mp h).symm
  | cons a xs ih =>
    have ha := a.toNat_lt
    rw [checkedSum, exactSum_cons]
    split
    · next h =>
      rw [ih, toNat_add_of_lt (by omega)]
      constructor <;> rintro ⟨h₁, h₂⟩ <;> exact ⟨by omega, by omega⟩
    · next h =>
      constructor
      · intro hn; cases hn
      · rintro ⟨h₁, -⟩; omega

/-! ### The order of words -/

namespace WordOrder

/-- Words are ordered by their values. -/
scoped instance instLinearOrder : LinearOrder UInt64 where
  le_refl := UInt64.le_refl
  le_trans _ _ _ := UInt64.le_trans
  le_antisymm _ _ := UInt64.le_antisymm
  le_total := UInt64.le_total
  lt_iff_le_not_ge a b := by
    rw [UInt64.lt_iff_toNat_lt, UInt64.le_iff_toNat_le, UInt64.le_iff_toNat_le]
    omega
  toDecidableLE := inferInstance

end WordOrder

end Machine
