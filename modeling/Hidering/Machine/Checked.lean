import Hidering.Machine.U64
import Mathlib.Data.Nat.Basic
import Mathlib.Tactic.Ring

/-!
# Arithmetic that can be checked for wrap-around

A program that computes with words is written once over an arithmetic `Ops`, and run either with
`wrapping` operations, which is what the machine does, or with `checked` ones, which fail as soon as
a result is not exact. If the checked run succeeds, no operation of the machine run wraps around and
both have the same result (`Agree`).

Products of two words that need 128 bits are computed by `mul128` from 32-bit halves, with the
carries by hand; `toNat_mul128` says that it is exact.

## Main definitions

* `Machine.Ops`, `Machine.wrapping`, `Machine.checked`, and the same with division
* `Machine.Agree`
* `Machine.mul128`, `Machine.div128`

## Main results

* `Machine.Agree.bind`, `Machine.agree_add`, `agree_sub`, `agree_mul`, `agree_div`
* `Machine.toNat_mul128`
-/

namespace Machine

/-! ### Two arithmetics -/

/-- The operations on words whose result may not fit, in a monad. -/
structure Ops (m : Type → Type) where
  add : UInt64 → UInt64 → m UInt64
  sub : UInt64 → UInt64 → m UInt64
  mul : UInt64 → UInt64 → m UInt64

/-- The operations of the machine. -/
def wrapping : Ops Id where
  add a b := a + b
  sub a b := a - b
  mul a b := a * b

/-- The operations, failing where the machine would wrap around. -/
def checked : Ops Option where
  add a b := if a.toNat + b.toNat < 2 ^ 64 then some (a + b) else none
  sub a b := if b ≤ a then some (a - b) else none
  mul a b := if a.toNat * b.toNat < 2 ^ 64 then some (a * b) else none

/-- The operations together with division. -/
structure DivOps (m : Type → Type) extends Ops m where
  div : UInt64 → UInt64 → m UInt64

/-- The operations of the machine. Division by zero, at which the machine stops, gives 0. -/
def wrappingDiv : DivOps Id where
  toOps := wrapping
  div a b := a / b

/-- The operations, failing where the machine would wrap around or divide by zero. -/
def checkedDiv : DivOps Option where
  toOps := checked
  div a b := if b = 0 then none else some (a / b)

variable {a b : UInt64}

theorem checked_add (h : a.toNat + b.toNat < 2 ^ 64) : checked.add a b = some (a + b) := if_pos h

theorem checked_sub (h : b ≤ a) : checked.sub a b = some (a - b) := if_pos h

theorem checked_mul (h : a.toNat * b.toNat < 2 ^ 64) : checked.mul a b = some (a * b) := if_pos h

theorem checked_div (h : b ≠ 0) : checkedDiv.div a b = some (a / b) := if_neg h

theorem toNat_mul_of_lt (h : a.toNat * b.toNat < 2 ^ 64) : (a * b).toNat = a.toNat * b.toNat := by
  rw [UInt64.toNat_mul, Nat.mod_eq_of_lt h]

theorem exists_checked_mul {m n : ℕ} (ha : a.toNat = m) (hb : b.toNat = n)
    (h : m * n < 2 ^ 64) : ∃ r, checked.mul a b = some r ∧ r.toNat = m * n := by
  subst ha hb
  exact ⟨a * b, checked_mul h, toNat_mul_of_lt h⟩

theorem exists_checked_div {m n : ℕ} (ha : a.toNat = m) (hb : b.toNat = n)
    (h : 0 < n) : ∃ r, checkedDiv.div a b = some r ∧ r.toNat = m / n := by
  subst ha hb
  have hne : b ≠ 0 := by
    rintro rfl
    exact absurd h (by decide)
  exact ⟨a / b, checked_div hne, UInt64.toNat_div a b⟩

/-! ### Checked runs and machine runs -/

section Agree

variable {α β : Type}

/-- If the checked run `x` succeeds, the machine run `y` has the same result. -/
def Agree (x : Option α) (y : Id α) : Prop := ∀ a, x = some a → y = a

theorem Agree.pure (a : α) : Agree (Pure.pure a) (Pure.pure a) := fun _ h => Option.some.inj h

theorem Agree.bind {x : Option α} {y : Id α} {f : α → Option β} {g : α → Id β} (h : Agree x y)
    (hf : ∀ a, Agree (f a) (g a)) : Agree (x >>= f) (y >>= g) := by
  intro b hb
  obtain ⟨a, hx, hfa⟩ := Option.bind_eq_some_iff.mp hb
  obtain rfl : y = a := h a hx
  exact hf y b hfa

theorem Agree.ite {p : Prop} [Decidable p] {x x' : Option α} {y y' : Id α} (h : Agree x y)
    (h' : Agree x' y') : Agree (if p then x else x') (if p then y else y') := by
  split
  · exact h
  · exact h'

theorem agree_add (a b : UInt64) : Agree (checked.add a b) (wrapping.add a b) := by
  intro r h
  simp only [checked] at h
  split at h
  · exact Option.some.inj h
  · cases h

theorem agree_sub (a b : UInt64) : Agree (checked.sub a b) (wrapping.sub a b) := by
  intro r h
  simp only [checked] at h
  split at h
  · exact Option.some.inj h
  · cases h

theorem agree_mul (a b : UInt64) : Agree (checked.mul a b) (wrapping.mul a b) := by
  intro r h
  simp only [checked] at h
  split at h
  · exact Option.some.inj h
  · cases h

theorem agree_div (a b : UInt64) : Agree (checkedDiv.div a b) (wrappingDiv.div a b) := by
  intro r h
  simp only [checkedDiv] at h
  split at h
  · cases h
  · exact Option.some.inj h

end Agree

/-! ### 128-bit products and quotients -/

/-- The high half of a word. -/
def hiDword (v : UInt64) : UInt64 := v >>> 32

/-- The low half of a word. -/
def loDword (v : UInt64) : UInt64 := v &&& 0xFFFFFFFF

/-- The product of two words as a high and a low word, computed from 32-bit halves. -/
def mul128 (multiplier multiplicand : UInt64) : UInt64 × UInt64 :=
  let a := hiDword multiplier
  let b := loDword multiplier
  let c := hiDword multiplicand
  let d := loDword multiplicand
  let ac := a * c
  let ad := a * d
  let bc := b * c
  let bd := b * d
  let adbc := ad + bc
  let adbcCarry : UInt64 := if adbc < ad then 1 else 0
  let productLo := bd + (adbc <<< 32)
  let productLoCarry : UInt64 := if productLo < bd then 1 else 0
  (ac + (adbc >>> 32) + (adbcCarry <<< 32) + productLoCarry, productLo)

/-- Division of a 128-bit number by a word, with a 128-bit quotient. -/
def div128 (dividend : UInt64 × UInt64) (divisor : UInt64) : UInt64 × UInt64 :=
  let q := (dividend.1.toNat * 2 ^ 64 + dividend.2.toNat) / divisor.toNat
  (UInt64.ofNat (q / 2 ^ 64), UInt64.ofNat q)

/-- The number that a high and a low word stand for. -/
def toNat128 (p : UInt64 × UInt64) : ℕ := p.1.toNat * 2 ^ 64 + p.2.toNat

theorem toNat_loDword (v : UInt64) : (loDword v).toNat = v.toNat % 2 ^ 32 := by
  rw [loDword, UInt64.toNat_and]
  exact Nat.and_two_pow_sub_one_eq_mod v.toNat 32

/-- Multiplying by hand in base `2 ^ 32`: with the outer products `q`, `p` and the middle products
`x`, `y`, the two words hold the whole product. -/
theorem mul128_carries {p q x y s lo : ℕ} (hp : p < 2 ^ 64) (hx : x < 2 ^ 64) (hy : y < 2 ^ 64)
    (hs : s = (x + y) % 2 ^ 64) (hlo : lo = (p + s * 2 ^ 32 % 2 ^ 64) % 2 ^ 64) :
    (q + s / 2 ^ 32 + (if s < x then 1 else 0) * 2 ^ 32 + if lo < p then 1 else 0) * 2 ^ 64 + lo =
      q * 2 ^ 64 + (x + y) * 2 ^ 32 + p := by
  split_ifs <;> omega

/-- The sum for the high word does not wrap around if the whole product fits. -/
theorem hiWord_exact {q t u v lo : ℕ} (h : (q + t + u + v) * 2 ^ 64 + lo < 2 ^ 128) :
    (((q + t) % 2 ^ 64 + u % 2 ^ 64) % 2 ^ 64 + v) % 2 ^ 64 = q + t + u + v := by
  omega

theorem toNat_carry (p : Prop) [Decidable p] :
    (if p then 1 else 0 : UInt64).toNat = if p then 1 else 0 := by
  split <;> rfl

theorem toNat_shiftLeft_32 (v : UInt64) : (v <<< 32).toNat = v.toNat * 2 ^ 32 % 2 ^ 64 := by
  rw [UInt64.toNat_shiftLeft, Nat.shiftLeft_eq]
  rfl

theorem toNat_shiftRight_32 (v : UInt64) : (v >>> 32).toNat = v.toNat / 2 ^ 32 := by
  rw [UInt64.toNat_shiftRight, Nat.shiftRight_eq_div_pow]
  rfl

theorem toNat_or_shiftLeft_32 (r : UInt64) {x : UInt64} (hx : x.toNat < 2 ^ 32) :
    (x ||| (r <<< 32)).toNat = r.toNat % 2 ^ 32 * 2 ^ 32 + x.toNat := by
  have hr : r.toNat * 2 ^ 32 % 2 ^ 64 = (r.toNat % 2 ^ 32) <<< 32 := by
    rw [Nat.shiftLeft_eq]
    omega
  rw [UInt64.toNat_or, toNat_shiftLeft_32, hr, Nat.or_comm, ← Nat.shiftLeft_add_eq_or_of_lt hx,
    Nat.shiftLeft_eq]

theorem toNat_hiDword (v : UInt64) : (hiDword v).toNat = v.toNat / 2 ^ 32 :=
  toNat_shiftRight_32 v

theorem toNat_eq_dwords (v : UInt64) :
    v.toNat = (hiDword v).toNat * 2 ^ 32 + (loDword v).toNat := by
  rw [toNat_hiDword, toNat_loDword]
  omega

/-- `mul128` is exact. -/
theorem toNat_mul128 (u v : UInt64) : toNat128 (mul128 u v) = u.toNat * v.toNat := by
  have hu := u.toNat_lt
  have hv := v.toNat_lt
  have ha : (hiDword u).toNat = _ := toNat_shiftRight_32 u
  have hb := toNat_loDword u
  have hc : (hiDword v).toNat = _ := toNat_shiftRight_32 v
  have hd := toNat_loDword v
  rw [toNat128, mul128]
  generalize hiDword u = a at *
  generalize loDword u = b at *
  generalize hiDword v = c at *
  generalize loDword v = d at *
  -- products of halves fit in a word
  have hmul : ∀ {s t : UInt64}, s.toNat < 2 ^ 32 → t.toNat < 2 ^ 32 →
      s.toNat * t.toNat < 2 ^ 64 := fun hs ht =>
    calc _ < 2 ^ 32 * 2 ^ 32 := Nat.mul_lt_mul'' hs ht
      _ = 2 ^ 64 := by norm_num
  have ha' : a.toNat < 2 ^ 32 := by omega
  have hb' : b.toNat < 2 ^ 32 := by omega
  have hc' : c.toNat < 2 ^ 32 := by omega
  have hd' : d.toNat < 2 ^ 32 := by omega
  have hprod : u.toNat * v.toNat = a.toNat * c.toNat * 2 ^ 64 +
      (a.toNat * d.toNat + b.toNat * c.toNat) * 2 ^ 32 + b.toNat * d.toNat := by
    have hu' : u.toNat = a.toNat * 2 ^ 32 + b.toNat := by omega
    have hv' : v.toNat = c.toNat * 2 ^ 32 + d.toNat := by omega
    rw [hu', hv']
    ring
  have hlt : u.toNat * v.toNat < 2 ^ 128 :=
    calc _ < 2 ^ 64 * 2 ^ 64 := Nat.mul_lt_mul'' hu hv
      _ = 2 ^ 128 := by norm_num
  rw [hprod] at hlt ⊢
  -- each word of the computation, as a number
  have hac := toNat_mul_of_lt (hmul ha' hc')
  have had := toNat_mul_of_lt (hmul ha' hd')
  have hbc := toNat_mul_of_lt (hmul hb' hc')
  have hbd := toNat_mul_of_lt (hmul hb' hd')
  have hs : (a * d + b * c).toNat = (a.toNat * d.toNat + b.toNat * c.toNat) % 2 ^ 64 := by
    rw [UInt64.toNat_add, had, hbc]
  have hlo : (b * d + (a * d + b * c) <<< 32).toNat =
      (b.toNat * d.toNat + (a * d + b * c).toNat * 2 ^ 32 % 2 ^ 64) % 2 ^ 64 := by
    rw [UInt64.toNat_add, toNat_shiftLeft_32, hbd]
  have hcarries := mul128_carries (q := a.toNat * c.toNat) (hmul hb' hd') (hmul ha' hd')
    (hmul hb' hc') hs hlo
  generalize a * d + b * c = adbc at *
  generalize b * d + adbc <<< 32 = lo at *
  simp only [UInt64.toNat_add, toNat_shiftLeft_32, toNat_shiftRight_32, toNat_carry,
    UInt64.lt_iff_toNat_lt, hac, had, hbd]
  rw [← hcarries] at hlt ⊢
  rw [hiWord_exact hlt]

/-- A product added to a word overflows if its high word is not zero or the addition of its low word
wraps around. -/
theorem mulAdd_overflow_iff (r a b : UInt64) :
    r + (mul128 a b).2 < r ∨ (mul128 a b).1 ≠ 0 ↔ 2 ^ 64 ≤ r.toNat + a.toNat * b.toNat := by
  have hmul := toNat_mul128 a b
  have hlo := (mul128 a b).2.toNat_lt
  have hzero : (mul128 a b).1 = 0 ↔ (mul128 a b).1.toNat = 0 := UInt64.toNat_inj.symm
  rw [toNat128] at hmul
  rw [UInt64.add_comm, add_lt_right_iff, ne_eq, hzero]
  omega

theorem toNat_mulAdd {r a b : UInt64} (h : r.toNat + a.toNat * b.toNat < 2 ^ 64) :
    (r + (mul128 a b).2).toNat = r.toNat + a.toNat * b.toNat := by
  have hmul := toNat_mul128 a b
  rw [toNat128] at hmul
  rw [toNat_add_of_lt (by omega)]
  omega

/-- `div128` is exact. -/
theorem toNat_div128 (p : UInt64 × UInt64) (d : UInt64) :
    toNat128 (div128 p d) = toNat128 p / d.toNat := by
  have h₁ := p.1.toNat_lt
  have h₂ := p.2.toNat_lt
  have hle : toNat128 p / d.toNat ≤ toNat128 p := Nat.div_le_self _ _
  have hlt : toNat128 p < 2 ^ 128 := by rw [toNat128]; omega
  change (UInt64.ofNat (toNat128 p / d.toNat / 2 ^ 64)).toNat * 2 ^ 64 +
    (UInt64.ofNat (toNat128 p / d.toNat)).toNat = _
  rw [UInt64.toNat_ofNat', UInt64.toNat_ofNat']
  generalize toNat128 p / d.toNat = q at *
  omega

end Machine
