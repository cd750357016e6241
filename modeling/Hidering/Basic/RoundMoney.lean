import Mathlib.Data.Nat.Digits.Lemmas

/-!
# Rounding amounts up

`round_money_up` rounds an amount up to a number of significant digits, on its text: it replaces the
digits behind the significant ones by zeros, and counts up the digits in front if one of them was
not zero.

## Main definitions

* `Hidering.roundMoneyUp`

## Main results

* `Hidering.roundMoneyUp_eq_some` — up to `10 ^ 19` the function succeeds
* `Hidering.roundedUp_mono`, `Hidering.le_roundedUp`
-/

namespace Hidering

/-- The loop that bumps digits, from the last digit on: bumping a nine overflows, bumping another
digit ends it, and if the carry gets past the highest digit a 1 is put in front. -/
def bumpDigits : List ℕ → List ℕ
  | [] => [1]
  | d :: l => if d = 9 then 0 :: bumpDigits l else (d + 1) :: l

/-- The text of the rounded amount, from the last digit on. -/
def roundDigits (significantDigits : ℕ) (buf : List ℕ) : List ℕ :=
  let low := buf.take (buf.length - significantDigits)
  let high := buf.drop (buf.length - significantDigits)
  low.map (fun _ => 0) ++ if low.any (fun d => d ≠ 0) then bumpDigits high else high

/-- The number that is read back from the text. -/
def roundedUp (amount significantDigits : ℕ) : ℕ :=
  Nat.ofDigits 10 (roundDigits significantDigits (Nat.digits 10 amount))

/-- `round_money_up`; `none` where it throws. -/
def roundMoneyUp (amount : UInt64) (significantDigits : ℕ) : Option UInt64 :=
  if significantDigits = 0 then none
  else
    let ull := roundedUp amount.toNat significantDigits
    if 2 ^ 64 ≤ ull then none
    else if ull = 0 ∧ amount ≠ 0 then none
    else some (UInt64.ofNat ull)

theorem ofDigits_bumpDigits (l : List ℕ) :
    Nat.ofDigits 10 (bumpDigits l) = Nat.ofDigits 10 l + 1 := by
  induction l with
  | nil => rfl
  | cons d l ih =>
    rw [bumpDigits]
    split_ifs with h
    · rw [Nat.ofDigits_cons, Nat.ofDigits_cons, ih, h]
      omega
    · rw [Nat.ofDigits_cons, Nat.ofDigits_cons]
      omega

theorem ofDigits_zeros (l : List ℕ) : Nat.ofDigits 10 (l.map fun _ => 0) = 0 := by
  induction l with
  | nil => rfl
  | cons d l ih => rw [List.map_cons, Nat.ofDigits_cons, ih]

theorem ofDigits_eq_zero_iff (l : List ℕ) :
    Nat.ofDigits 10 l = 0 ↔ l.any (fun d => d ≠ 0) = false := by
  induction l with
  | nil => simp [Nat.ofDigits]
  | cons d l ih =>
    rw [Nat.ofDigits_cons, List.any_cons, Bool.or_eq_false_iff, ← ih]
    simp

/-- The unit that an amount is rounded to. -/
def roundingUnit (amount significantDigits : ℕ) : ℕ :=
  10 ^ ((Nat.digits 10 amount).length - significantDigits)

theorem roundingUnit_pos (n k : ℕ) : 0 < roundingUnit n k := Nat.pow_pos (by decide)

/-- The amount is rounded up to a multiple of the unit. -/
theorem roundedUp_eq (n k : ℕ) :
    roundedUp n k = roundingUnit n k *
      (n / roundingUnit n k + if n % roundingUnit n k = 0 then 0 else 1) := by
  have hdiv := Nat.self_div_pow_eq_ofDigits_drop ((Nat.digits 10 n).length - k) n
    (show 2 ≤ 10 by decide)
  have hmod := Nat.self_mod_pow_eq_ofDigits_take ((Nat.digits 10 n).length - k) n
    (show 2 ≤ 10 by decide)
  have hlen : ((Nat.digits 10 n).take ((Nat.digits 10 n).length - k)).length =
      (Nat.digits 10 n).length - k := by
    rw [List.length_take]
    omega
  rw [roundingUnit, hdiv, hmod, roundedUp, roundDigits, Nat.ofDigits_append, ofDigits_zeros,
    List.length_map, hlen, Nat.zero_add]
  generalize (Nat.digits 10 n).take ((Nat.digits 10 n).length - k) = low
  by_cases hzero : Nat.ofDigits 10 low = 0
  · rw [if_pos hzero, (ofDigits_eq_zero_iff _).mp hzero]
    rfl
  · have hany : low.any (fun d => d ≠ 0) = true := by
      rw [← Bool.not_eq_false]
      exact fun h => hzero ((ofDigits_eq_zero_iff _).mpr h)
    rw [if_neg hzero, if_pos hany, ofDigits_bumpDigits]

theorem le_roundedUp (n k : ℕ) : n ≤ roundedUp n k := by
  rw [roundedUp_eq]
  have hmod := Nat.mod_add_div n (roundingUnit n k)
  have hlt := Nat.mod_lt n (roundingUnit_pos n k)
  rw [Nat.mul_add]
  split_ifs with h <;> omega

/-- The rounded amount is the least multiple of the unit that is not below the amount. -/
theorem roundedUp_le {n k m : ℕ} (hle : n ≤ m) (hdvd : roundingUnit n k ∣ m) :
    roundedUp n k ≤ m := by
  obtain ⟨c, rfl⟩ := hdvd
  rw [roundedUp_eq]
  have hpos := roundingUnit_pos n k
  generalize roundingUnit n k = u at *
  refine Nat.mul_le_mul_left u ?_
  have hdiv : n / u ≤ c := Nat.div_le_of_le_mul hle
  split_ifs with h
  · exact hdiv
  · refine Nat.lt_of_le_of_ne hdiv fun heq => h ?_
    have hmod := Nat.mod_add_div n u
    rw [heq] at hmod
    omega

theorem roundingUnit_dvd_roundedUp (n k : ℕ) : roundingUnit n k ∣ roundedUp n k := by
  rw [roundedUp_eq]
  exact Nat.dvd_mul_right _ _

theorem roundedUp_mono (k : ℕ) {n m : ℕ} (h : n ≤ m) : roundedUp n k ≤ roundedUp m k := by
  have hlen := Nat.le_length_digits_le 10 n m h
  have hunit : roundingUnit n k ∣ roundingUnit m k :=
    Nat.pow_dvd_pow 10 (Nat.sub_le_sub_right hlen k)
  exact roundedUp_le (h.trans (le_roundedUp m k)) (hunit.trans (roundingUnit_dvd_roundedUp m k))

/-- A power of ten is not exceeded by rounding. -/
theorem roundedUp_le_pow {n k j : ℕ} (hk : 0 < k) (h : n ≤ 10 ^ j) : roundedUp n k ≤ 10 ^ j := by
  have hlen : (Nat.digits 10 n).length ≤ j + 1 := by
    rw [Nat.digits_length_le_iff (by decide)]
    exact h.trans_lt (Nat.pow_lt_pow_right (by decide) (Nat.lt_succ_self j))
  exact roundedUp_le h (Nat.pow_dvd_pow 10 (by omega))

/-- Amounts up to `10 ^ 19` can be rounded. -/
theorem roundMoneyUp_eq_some {amount : UInt64} {k : ℕ} (hk : 0 < k) (h : amount.toNat ≤ 10 ^ 19) :
    ∃ r, roundMoneyUp amount k = some r ∧ r.toNat = roundedUp amount.toNat k := by
  have hlt : roundedUp amount.toNat k < 2 ^ 64 := (roundedUp_le_pow hk h).trans_lt (by decide)
  have hzero : ¬ (roundedUp amount.toNat k = 0 ∧ amount ≠ 0) := by
    rintro ⟨h0, hne⟩
    have hle := le_roundedUp amount.toNat k
    rw [h0, Nat.le_zero] at hle
    exact hne (UInt64.toNat_inj.mp hle)
  refine ⟨_, ?_, UInt64.toNat_ofNat_of_lt' hlt⟩
  rw [roundMoneyUp, if_neg hk.ne', if_neg (Nat.not_le.mpr hlt), if_neg hzero]

end Hidering
