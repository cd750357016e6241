import Mathlib.Data.Nat.Basic
import Mathlib.Tactic.Ring

/-!
# Variable-length integers

Base-128 little-endian integers: seven payload bits in each byte, bit `0x80` on every byte but
the last. The reader is parameterised by the width of the integer it fills and by what it does
when the input ends in the middle of a number (`Eof`): a *strict* reader refuses, a *lenient* one
returns what it has accumulated so far.

Values are natural numbers here. A reader of width `bits` only returns values below `2 ^ bits`
(`readVarintAux_lt`), so nothing is lost against a machine word of that width.

## Main definitions

* `Wire.Eof` — the two policies at the end of the input
* `Wire.writeVarint`, `Wire.readVarint`

## Main results

* `Wire.readVarint_writeVarint` — reading back what was written, under either policy
* `Wire.writeVarint_of_readVarint` — a strict reader accepts only what the writer writes
* `Wire.readVarintAux_lenient` — the two policies agree unless the end cuts a number off
-/

namespace Wire

open List

/-- A string of raw bytes. -/
abbrev Bytes := List UInt8

/-- What a reader does when the input ends where a variable-length integer still expects a byte. -/
inductive Eof where
  /-- the number read so far is returned -/
  | lenient
  /-- the read fails -/
  | strict
deriving DecidableEq, Repr

/-! ### Writing -/

/-- The bytes of `n`, low digits first. The first argument bounds the number of continuation
bytes; any `k` with `n < 128 ^ (k + 1)` gives the same bytes. -/
def writeVarint : ℕ → ℕ → Bytes
  | 0, n => [UInt8.ofNat n]
  | k + 1, n =>
    if n < 128 then [UInt8.ofNat n]
    else UInt8.ofNat (n % 128 + 128) :: writeVarint k (n / 128)

theorem writeVarint_ne_nil (k n : ℕ) : writeVarint k n ≠ [] := by
  cases k with
  | zero => simp [writeVarint]
  | succ k => rw [writeVarint]; split <;> simp

theorem length_writeVarint_le (k n : ℕ) : (writeVarint k n).length ≤ k + 1 := by
  induction k generalizing n with
  | zero => simp [writeVarint]
  | succ k ih =>
    rw [writeVarint]
    split
    · simp
    · have := ih (n / 128)
      rw [length_cons]
      omega

theorem writeVarint_of_lt {k n : ℕ} (h : n < 128) : writeVarint k n = [UInt8.ofNat n] := by
  cases k with
  | zero => rfl
  | succ k => rw [writeVarint, if_pos h]

/-- A number that needs all bytes. -/
theorem length_writeVarint_of_le {k n : ℕ} (h : 128 ^ k ≤ n) :
    (writeVarint k n).length = k + 1 := by
  induction k generalizing n with
  | zero => rfl
  | succ k ih =>
    have hpos : 0 < 128 ^ k := Nat.pow_pos (by decide)
    rw [Nat.pow_succ] at h
    rw [writeVarint, if_neg (by omega), length_cons,
      ih ((Nat.le_div_iff_mul_le (by decide)).mpr h)]

/-! ### Reading -/

/-- Read the digits of a number of width `bits` whose first `shift` bits are already known; the
value returned is the number formed by the remaining digits. A byte that does not fit the width
is an overflow, and a zero byte after the first one is a non-canonical representation. -/
def readVarintAux (bits : ℕ) (m : Eof) : ℕ → Bytes → Option (ℕ × Bytes)
  | _, [] =>
    match m with
    | .lenient => some (0, [])
    | .strict => none
  | shift, b :: rest =>
    if bits ≤ shift + 7 ∧ 2 ^ (bits - shift) ≤ b.toNat then none
    else if b = 0 ∧ shift ≠ 0 then none
    else if b.toNat < 128 then some (b.toNat, rest)
    else (readVarintAux bits m (shift + 7) rest).map fun r => (b.toNat % 128 + 128 * r.1, r.2)

/-- Read a variable-length integer of width `bits`. -/
def readVarint (bits : ℕ) (m : Eof) (inp : Bytes) : Option (ℕ × Bytes) :=
  readVarintAux bits m 0 inp

section

variable {bits shift k n v : ℕ} {m : Eof} {b : UInt8} {inp rest : Bytes}

/-- Inversion of one reading step: the byte ends the number, or the digits go on behind it. -/
theorem readVarintAux_cons (h : readVarintAux bits m shift (b :: inp) = some (v, rest)) :
    ¬ (bits ≤ shift + 7 ∧ 2 ^ (bits - shift) ≤ b.toNat) ∧ ¬ (b = 0 ∧ shift ≠ 0) ∧
      ((b.toNat < 128 ∧ v = b.toNat ∧ rest = inp) ∨
        (128 ≤ b.toNat ∧ ∃ u, readVarintAux bits m (shift + 7) inp = some (u, rest) ∧
          v = b.toNat % 128 + 128 * u)) := by
  rw [readVarintAux] at h
  split at h
  · cases h
  · next hover =>
    split at h
    · cases h
    · next hzero =>
      refine ⟨hover, hzero, ?_⟩
      split at h
      · next hlast =>
        obtain ⟨rfl, rfl⟩ : b.toNat = v ∧ inp = rest := by simpa using h
        exact Or.inl ⟨hlast, rfl, rfl⟩
      · next hmore =>
        simp only [Option.map_eq_some_iff, Prod.mk.injEq, Prod.exists] at h
        obtain ⟨u, r, hu, rfl, rfl⟩ := h
        exact Or.inr ⟨by omega, u, hu, rfl⟩

/-- A byte with its continuation bit set cannot be the one that fills the width. -/
theorem shift_add_lt_of_cont (hb : 128 ≤ b.toNat)
    (hover : ¬ (bits ≤ shift + 7 ∧ 2 ^ (bits - shift) ≤ b.toNat)) : shift + 7 < bits := by
  by_contra hle
  have hpow : 2 ^ (bits - shift) ≤ 2 ^ 7 := Nat.pow_le_pow_right (by norm_num) (by omega)
  exact hover ⟨by omega, by omega⟩

theorem readVarintAux_lt (hs : shift ≤ bits)
    (h : readVarintAux bits m shift inp = some (v, rest)) : v < 2 ^ (bits - shift) := by
  induction inp generalizing shift v with
  | nil =>
    cases m with
    | lenient =>
      obtain ⟨rfl, -⟩ : 0 = v ∧ [] = rest := by simpa [readVarintAux] using h
      exact Nat.two_pow_pos _
    | strict => simp [readVarintAux] at h
  | cons b inp ih =>
    obtain ⟨hover, -, ⟨hb, rfl, -⟩ | ⟨hb, u, hu, rfl⟩⟩ := readVarintAux_cons h
    · by_cases hw : bits ≤ shift + 7
      · exact not_le.mp fun hle => hover ⟨hw, hle⟩
      · calc b.toNat < 2 ^ 7 := hb
          _ ≤ 2 ^ (bits - shift) := Nat.pow_le_pow_right (by norm_num) (by omega)
    · have hlt := shift_add_lt_of_cont hb hover
      have hu := ih (by omega) hu
      have hpow : 2 ^ (bits - shift) = 128 * 2 ^ (bits - (shift + 7)) := by
        rw [show bits - shift = 7 + (bits - (shift + 7)) by omega, Nat.pow_add]
      omega

theorem readVarint_lt (h : readVarint bits m inp = some (v, rest)) : v < 2 ^ bits := by
  simpa using readVarintAux_lt (Nat.zero_le bits) h

/-! ### The reader undoes the writer -/

theorem toNat_ofNat_lt (h : n < 256) : (UInt8.ofNat n).toNat = n := by
  rw [UInt8.toNat_ofNat']
  exact Nat.mod_eq_of_lt h

theorem readVarintAux_writeVarint (hk : n < 128 ^ (k + 1)) (hn : n < 2 ^ (bits - shift))
    (hs : shift < bits) (hz : shift ≠ 0 → n ≠ 0) :
    readVarintAux bits m shift (writeVarint k n ++ rest) = some (n, rest) := by
  induction k generalizing n shift with
  | zero =>
    have hb : (UInt8.ofNat n).toNat = n := toNat_ofNat_lt (by omega)
    have hne : ¬ (UInt8.ofNat n = 0 ∧ shift ≠ 0) := fun h =>
      hz h.2 (by rw [← hb, h.1]; rfl)
    simp only [writeVarint, cons_append, nil_append, readVarintAux, hb]
    rw [if_neg (by omega), if_neg hne, if_pos (by omega)]
  | succ k ih =>
    by_cases hsmall : n < 128
    · have hb : (UInt8.ofNat n).toNat = n := toNat_ofNat_lt (by omega)
      have hne : ¬ (UInt8.ofNat n = 0 ∧ shift ≠ 0) := fun h =>
        hz h.2 (by rw [← hb, h.1]; rfl)
      rw [writeVarint_of_lt hsmall]
      simp only [cons_append, nil_append, readVarintAux, hb]
      rw [if_neg (by omega), if_neg hne, if_pos hsmall]
    · have hb : (UInt8.ofNat (n % 128 + 128)).toNat = n % 128 + 128 := toNat_ofNat_lt (by omega)
      have hne : ¬ (UInt8.ofNat (n % 128 + 128) = 0 ∧ shift ≠ 0) := by
        rintro ⟨h0, -⟩
        have := congrArg UInt8.toNat h0
        rw [hb] at this
        exact absurd this (by simp)
      -- a number of at least two digits leaves room for the next seven bits
      have hwide : shift + 7 < bits := by
        by_contra hle
        have : 2 ^ (bits - shift) ≤ 2 ^ 7 := Nat.pow_le_pow_right (by norm_num) (by omega)
        omega
      have hpow : 2 ^ (bits - shift) = 128 * 2 ^ (bits - (shift + 7)) := by
        rw [show bits - shift = 7 + (bits - (shift + 7)) by omega, Nat.pow_add]
      have hdiv : n / 128 < 2 ^ (bits - (shift + 7)) := by
        rw [hpow] at hn; exact Nat.div_lt_of_lt_mul hn
      have hk' : n / 128 < 128 ^ (k + 1) :=
        Nat.div_lt_of_lt_mul (by rw [pow_succ] at hk; omega)
      rw [writeVarint, if_neg hsmall, cons_append, readVarintAux, hb, if_neg (by omega),
        if_neg hne, if_neg (by omega), ih hk' hdiv hwide (fun _ => by omega), Option.map_some]
      congr 2
      omega

theorem readVarint_writeVarint (hk : n < 128 ^ (k + 1)) (hn : n < 2 ^ bits) (hbits : 0 < bits) :
    readVarint bits m (writeVarint k n ++ rest) = some (n, rest) :=
  readVarintAux_writeVarint hk (by simpa using hn) hbits (fun h => absurd rfl h)

/-! ### The strict reader accepts only what the writer writes -/

theorem ofNat_toNat_eq (h : b.toNat = n) : UInt8.ofNat n = b := by
  rw [← h, UInt8.ofNat_toNat]

/-- The digits behind a continuation byte never form zero. -/
theorem readVarintAux_ne_zero (hs : shift ≠ 0)
    (h : readVarintAux bits .strict shift inp = some (v, rest)) : v ≠ 0 := by
  induction inp generalizing shift v with
  | nil => simp [readVarintAux] at h
  | cons b inp ih =>
    obtain ⟨-, hzero, ⟨-, rfl, -⟩ | ⟨-, u, hu, rfl⟩⟩ := readVarintAux_cons h
    · intro h0
      exact hzero ⟨by rw [← UInt8.toNat_inj, h0]; rfl, hs⟩
    · have := ih (by omega) hu
      omega

theorem writeVarint_of_readVarintAux (hk : bits ≤ shift + 7 * (k + 1))
    (h : readVarintAux bits .strict shift inp = some (v, rest)) :
    inp = writeVarint k v ++ rest := by
  induction inp generalizing shift v k with
  | nil => simp [readVarintAux] at h
  | cons b inp ih =>
    obtain ⟨hover, -, ⟨hb, rfl, rfl⟩ | ⟨hb, u, hu, rfl⟩⟩ := readVarintAux_cons h
    · rw [writeVarint_of_lt hb, UInt8.ofNat_toNat, singleton_append]
    · have hwide := shift_add_lt_of_cont hb hover
      have hne := readVarintAux_ne_zero (by omega) hu
      cases k with
      | zero => omega
      | succ k =>
        have hinp := ih (k := k) (by omega) hu
        have hlt := b.toNat_lt
        have hhead : UInt8.ofNat ((b.toNat % 128 + 128 * u) % 128 + 128) = b :=
          ofNat_toNat_eq (by omega)
        rw [writeVarint, if_neg (by omega), hhead,
          show (b.toNat % 128 + 128 * u) / 128 = u by omega, cons_append, ← hinp]

theorem writeVarint_of_readVarint (hk : bits ≤ 7 * (k + 1))
    (h : readVarint bits .strict inp = some (v, rest)) : inp = writeVarint k v ++ rest :=
  writeVarint_of_readVarintAux (by omega) h

/-! ### What the end of the input cuts off -/

/-- A number that is read leniently is read strictly, or the end of the input cut it off: then
all bytes announce another one. -/
theorem readVarintAux_lenient (h : readVarintAux bits .lenient shift inp = some (v, rest)) :
    readVarintAux bits .strict shift inp = some (v, rest) ∨
      rest = [] ∧ ∀ b ∈ inp, 128 ≤ b.toNat := by
  induction inp generalizing shift v with
  | nil =>
    obtain ⟨-, rfl⟩ : 0 = v ∧ [] = rest := by simpa [readVarintAux] using h
    exact .inr ⟨rfl, by simp⟩
  | cons b inp ih =>
    obtain ⟨hover, hzero, ⟨hlast, rfl, rfl⟩ | ⟨hmore, u, hu, rfl⟩⟩ := readVarintAux_cons h
    · exact .inl (by rw [readVarintAux, if_neg hover, if_neg hzero, if_pos hlast])
    · rcases ih hu with hs | ⟨rfl, hall⟩
      · left
        rw [readVarintAux, if_neg hover, if_neg hzero, if_neg (by omega), hs]
        rfl
      · exact .inr ⟨rfl, forall_mem_cons.mpr ⟨hmore, hall⟩⟩

end

end Wire
