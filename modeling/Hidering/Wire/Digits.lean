import Hidering.Wire.Varint
import Mathlib.Data.Nat.Digits.Lemmas

/-!
# Numbers as strings of digits

A number below `b ^ n` is the same thing as a string of `n` digits in base `b`. `toDigits` writes
the digits, the lowest one first, and `Nat.ofDigits` reads them back; bytes are the digits in base
256 (`leNat`, `leBytes`, and `beNat`, `beBytes` for the other order).

## Main definitions

* `Wire.toDigits`
* `Wire.leNat`, `Wire.leBytes`, `Wire.beNat`, `Wire.beBytes`

## Main results

* `Wire.ofDigits_toDigits`, `Wire.toDigits_ofDigits`
* `Wire.beNat_beBytes`, `Wire.beBytes_beNat`
-/

namespace Wire

open List

/-! ### Digits -/

/-- The lowest `n` digits of a number in base `b`, the lowest one first. -/
def toDigits (b : ℕ) : ℕ → ℕ → List ℕ
  | 0, _ => []
  | n + 1, v => v % b :: toDigits b n (v / b)

@[simp] theorem length_toDigits (b n v : ℕ) : (toDigits b n v).length = n := by
  induction n generalizing v with
  | zero => rfl
  | succ n ih => rw [toDigits, length_cons, ih]

theorem lt_of_mem_toDigits {b n v d : ℕ} (hb : 0 < b) (hd : d ∈ toDigits b n v) : d < b := by
  induction n generalizing v with
  | zero => cases hd
  | succ n ih =>
    rw [toDigits, mem_cons] at hd
    rcases hd with rfl | hd
    · exact Nat.mod_lt v hb
    · exact ih hd

@[simp] theorem toDigits_zero (b n : ℕ) : toDigits b n 0 = replicate n 0 := by
  induction n with
  | zero => rfl
  | succ n ih => rw [toDigits, Nat.zero_mod, Nat.zero_div, ih, replicate_succ]

theorem toDigits_add (b m n v : ℕ) :
    toDigits b (m + n) v = toDigits b m v ++ toDigits b n (v / b ^ m) := by
  induction m generalizing v with
  | zero => simp [toDigits]
  | succ m ih =>
    rw [Nat.succ_add, toDigits, ih, toDigits, cons_append, Nat.div_div_eq_div_mul,
      Nat.pow_succ']

theorem ofDigits_toDigits {b n v : ℕ} (h : v < b ^ n) : Nat.ofDigits b (toDigits b n v) = v := by
  induction n generalizing v with
  | zero =>
    rw [Nat.pow_zero, Nat.lt_one_iff] at h
    rw [h]
    rfl
  | succ n ih =>
    have hdiv : v / b < b ^ n := Nat.div_lt_of_lt_mul (by rwa [Nat.pow_succ'] at h)
    rw [toDigits, Nat.ofDigits_cons, ih hdiv]
    exact Nat.mod_add_div v b

theorem toDigits_ofDigits {b : ℕ} (hb : 1 < b) {ds : List ℕ} (h : ∀ d ∈ ds, d < b) :
    toDigits b ds.length (Nat.ofDigits b ds) = ds :=
  Nat.ofDigits_inj_of_len_eq hb (length_toDigits ..)
    (fun _ hd => lt_of_mem_toDigits (by omega) hd) h
    (ofDigits_toDigits (Nat.ofDigits_lt_base_pow_length hb h))

/-! ### Bytes -/

/-- The number that a string of bytes stands for, the lowest byte first. -/
def leNat (bs : Bytes) : ℕ := Nat.ofDigits 256 (bs.map UInt8.toNat)

/-- The lowest `n` bytes of a number, the lowest one first. -/
def leBytes (n v : ℕ) : Bytes := (toDigits 256 n v).map UInt8.ofNat

theorem leNat_lt (bs : Bytes) : leNat bs < 256 ^ bs.length := by
  have h := @Nat.ofDigits_lt_base_pow_length 256 (bs.map UInt8.toNat) (by norm_num)
    (by simpa using fun b _ => b.toNat_lt)
  rwa [length_map] at h

theorem leNat_append (as bs : Bytes) :
    leNat (as ++ bs) = leNat as + 256 ^ as.length * leNat bs := by
  rw [leNat, map_append, Nat.ofDigits_append, length_map]
  rfl

theorem leNat_take_add_drop {n : ℕ} {bs : Bytes} (h : n ≤ bs.length) :
    leNat bs = leNat (bs.take n) + 256 ^ n * leNat (bs.drop n) := by
  conv_lhs => rw [← take_append_drop n bs]
  rw [leNat_append, length_take, Nat.min_eq_left h]

@[simp] theorem length_leBytes (n v : ℕ) : (leBytes n v).length = n := by
  rw [leBytes, length_map, length_toDigits]

theorem map_toNat_leBytes (n v : ℕ) : (leBytes n v).map UInt8.toNat = toDigits 256 n v := by
  rw [leBytes, map_map]
  refine (map_congr_left fun d hd => ?_).trans (map_id _)
  have hlt : d < 256 := lt_of_mem_toDigits (by norm_num) hd
  simp only [Function.comp_apply, UInt8.toNat_ofNat', id_eq]
  omega

theorem leNat_leBytes {n v : ℕ} (h : v < 256 ^ n) : leNat (leBytes n v) = v := by
  rw [leNat, map_toNat_leBytes, ofDigits_toDigits h]

theorem leBytes_leNat (bs : Bytes) : leBytes bs.length (leNat bs) = bs := by
  have h := @toDigits_ofDigits 256 (by norm_num) (bs.map UInt8.toNat)
    (by simpa using fun b _ => b.toNat_lt)
  rw [length_map] at h
  rw [leBytes, leNat, h, map_map]
  exact (map_congr_left fun b _ => UInt8.ofNat_toNat).trans (map_id _)

/-- The number that a string of bytes stands for, the highest byte first. -/
def beNat (bs : Bytes) : ℕ := leNat bs.reverse

/-- The lowest `n` bytes of a number, the highest one first. -/
def beBytes (n v : ℕ) : Bytes := (leBytes n v).reverse

@[simp] theorem length_beBytes (n v : ℕ) : (beBytes n v).length = n := by
  rw [beBytes, length_reverse, length_leBytes]

theorem beNat_lt (bs : Bytes) : beNat bs < 256 ^ bs.length := by
  have h := leNat_lt bs.reverse
  rwa [length_reverse] at h

theorem beNat_beBytes {n v : ℕ} (h : v < 256 ^ n) : beNat (beBytes n v) = v := by
  rw [beNat, beBytes, reverse_reverse, leNat_leBytes h]

theorem beBytes_beNat (bs : Bytes) : beBytes bs.length (beNat bs) = bs := by
  have h := leBytes_leNat bs.reverse
  rw [length_reverse] at h
  rw [beBytes, beNat, h, reverse_reverse]

theorem beNat_append (as bs : Bytes) :
    beNat (as ++ bs) = beNat as * 256 ^ bs.length + beNat bs := by
  rw [beNat, reverse_append, leNat_append, length_reverse, beNat, beNat]
  ring

end Wire
