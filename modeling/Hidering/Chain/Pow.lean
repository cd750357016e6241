import Hidering.Basic.Transaction
import Hidering.Machine.Checked
import Hidering.Wire.Digits

/-!
# The proof-of-work test

A block's hash, read as a number, has to be small enough for the difficulty `d` of the block: their
product has to fit in 256 bits. For difficulties of one word `check_hash_64` decides this without
forming the product: it multiplies the four words of the hash by `d` one by one, keeps only the
carries between the partial products, and fails early on the highest word. `check_hash_128` forms
the product in a wide integer. Both decide the same inequality (`checkHash_iff_mul_lt`).

`mul`, the product of two words as two words, comes in two builds: `mul128` of `int-util.h`, and a
version of its own for other processors. Nothing depends on which is compiled in (`toNat_mul`).

## Main definitions

* `Hidering.MulBuild`, `Hidering.mul`
* `Hidering.cadd`, `Hidering.cadc`
* `Hidering.checkHash64`, `Hidering.checkHash128`, `Hidering.checkHash`

## Main results

* `Hidering.toNat_mul` — both builds of `mul` are exact
* `Hidering.checkHash64_eq_true_iff`, `Hidering.checkHash128_eq_true_iff`
* `Hidering.checkHash_iff_mul_lt`
-/

namespace Hidering

open Machine Wire List

/-! ### The product of two words -/

/-- Which `mul` is compiled in. -/
inductive MulBuild where
  /-- `__x86_64__`: `mul128` -/
  | x8664
  /-- every other processor -/
  | portable
deriving DecidableEq, Repr

/-- `mul` on processors other than `x86_64`; returns the high and the low word. -/
def mulPortable (a b : UInt64) : UInt64 × UInt64 :=
  let aLow := loDword a
  let aHigh := hiDword a
  let bLow := loDword b
  let bHigh := hiDword b
  let res := aLow * bLow
  let lowRes1 := loDword res
  let carry := hiDword res
  let res := aHigh * bLow + carry
  let highResHigh1 := hiDword res
  let highResLow1 := loDword res
  let res := aLow * bHigh
  let lowRes2 := loDword res
  let carry := hiDword res
  let res := aHigh * bHigh + carry
  let highResHigh2 := hiDword res
  let highResLow2 := loDword res
  -- Addition
  let r := highResLow1 + lowRes2
  let carry := hiDword r
  let low := (r <<< 32) ||| lowRes1
  let r := highResHigh1 + highResLow2 + carry
  let d3 := loDword r
  let carry := hiDword r
  let r := highResHigh2 + carry
  (d3 ||| (r <<< 32), low)

/-- `mul`: the high and the low word of a product. -/
def mul : MulBuild → UInt64 → UInt64 → UInt64 × UInt64
  | .x8664 => mul128
  | .portable => mulPortable

/-- The additions of `mulPortable`, for the outer products `p`, `q` and the middle ones `x`, `y`:
no word wraps around, and the two words of the result hold the sum. -/
theorem mulPortable_carries {p q x y : UInt64} (hp : p.toNat ≤ (2 ^ 32 - 1) * (2 ^ 32 - 1))
    (hq : q.toNat ≤ (2 ^ 32 - 1) * (2 ^ 32 - 1)) (hx : x.toNat ≤ (2 ^ 32 - 1) * (2 ^ 32 - 1))
    (hy : y.toNat ≤ (2 ^ 32 - 1) * (2 ^ 32 - 1)) :
    let s := x + hiDword p
    let t := q + hiDword y
    let r := loDword s + loDword y
    let r' := hiDword s + loDword t + hiDword r
    toNat128 (loDword r' ||| ((hiDword t + hiDword r') <<< 32), (r <<< 32) ||| loDword p) =
      q.toNat * 2 ^ 64 + (x.toNat + y.toNat) * 2 ^ 32 + p.toNat := by
  intro s t r r'
  have hlow : ∀ w : UInt64, (loDword w).toNat < 2 ^ 32 := fun w => by
    rw [toNat_loDword]
    omega
  have hs : s.toNat = x.toNat + p.toNat / 2 ^ 32 := by
    rw [toNat_add_of_lt (by rw [toNat_hiDword]; omega), toNat_hiDword]
  have ht : t.toNat = q.toNat + y.toNat / 2 ^ 32 := by
    rw [toNat_add_of_lt (by rw [toNat_hiDword]; omega), toNat_hiDword]
  have hr : r.toNat = s.toNat % 2 ^ 32 + y.toNat % 2 ^ 32 := by
    rw [toNat_add_of_lt (by rw [toNat_loDword, toNat_loDword]; omega), toNat_loDword,
      toNat_loDword]
  have hr' : r'.toNat = s.toNat / 2 ^ 32 + t.toNat % 2 ^ 32 + r.toNat / 2 ^ 32 := by
    simp only [r', UInt64.toNat_add, toNat_hiDword, toNat_loDword]
    omega
  have hr'' : (hiDword t + hiDword r').toNat = t.toNat / 2 ^ 32 + r'.toNat / 2 ^ 32 := by
    rw [UInt64.toNat_add, toNat_hiDword, toNat_hiDword]
    omega
  rw [toNat128, toNat_or_shiftLeft_32 _ (hlow r'), UInt64.or_comm (r <<< 32),
    toNat_or_shiftLeft_32 _ (hlow p), toNat_loDword, toNat_loDword, hr'']
  omega

/-- `mulPortable` is exact. -/
theorem toNat_mulPortable (u v : UInt64) : toNat128 (mulPortable u v) = u.toNat * v.toNat := by
  have hu := u.toNat_lt
  have hv := v.toNat_lt
  have hprod : u.toNat * v.toNat =
      (hiDword u).toNat * (hiDword v).toNat * 2 ^ 64 +
        ((hiDword u).toNat * (loDword v).toNat + (loDword u).toNat * (hiDword v).toNat) * 2 ^ 32 +
        (loDword u).toNat * (loDword v).toNat := by
    rw [toNat_eq_dwords u, toNat_eq_dwords v]
    ring
  have ha : (hiDword u).toNat < 2 ^ 32 := by rw [toNat_hiDword]; omega
  have hb : (loDword u).toNat < 2 ^ 32 := by rw [toNat_loDword]; omega
  have hc : (hiDword v).toNat < 2 ^ 32 := by rw [toNat_hiDword]; omega
  have hd : (loDword v).toNat < 2 ^ 32 := by rw [toNat_loDword]; omega
  -- products of halves fit in a word, with room for a carry
  have hmul : ∀ {s t : UInt64}, s.toNat < 2 ^ 32 → t.toNat < 2 ^ 32 →
      (s * t).toNat = s.toNat * t.toNat ∧
        (s * t).toNat ≤ (2 ^ 32 - 1) * (2 ^ 32 - 1) := fun {s t} hs ht => by
    have hle : s.toNat * t.toNat ≤ (2 ^ 32 - 1) * (2 ^ 32 - 1) :=
      Nat.mul_le_mul (by omega) (by omega)
    rw [toNat_mul_of_lt (by omega)]
    exact ⟨rfl, hle⟩
  obtain ⟨hq, hq'⟩ := hmul ha hc
  obtain ⟨hx, hx'⟩ := hmul ha hd
  obtain ⟨hy, hy'⟩ := hmul hb hc
  obtain ⟨hp, hp'⟩ := hmul hb hd
  rw [hprod, ← hq, ← hx, ← hy, ← hp]
  exact mulPortable_carries hp' hq' hx' hy'

/-- **Exactness of `mul`**, in either build. -/
theorem toNat_mul (build : MulBuild) (u v : UInt64) :
    toNat128 (mul build u v) = u.toNat * v.toNat := by
  cases build with
  | x8664 => exact toNat_mul128 u v
  | portable => exact toNat_mulPortable u v

/-! ### Carries -/

/-- `cadd`: whether `a + b` wraps around. -/
def cadd (a b : UInt64) : Bool := decide (a + b < a)

/-- `cadc`: whether `a + b` and a carry wrap around. -/
def cadc (a b : UInt64) (c : Bool) : Bool := decide (a + b < a) || (c && a + b == -1)

theorem cadd_eq (a b : UInt64) : cadd a b = decide (2 ^ 64 ≤ a.toNat + b.toNat) := by
  rw [cadd, UInt64.add_comm, decide_eq_decide, add_lt_right_iff, Nat.add_comm]

theorem cadc_eq (a b : UInt64) (c : Bool) :
    cadc a b c = decide (2 ^ 64 ≤ a.toNat + b.toNat + c.toNat) := by
  have ha := a.toNat_lt
  have hb := b.toNat_lt
  have hsum : (a + b == -1) = decide ((a.toNat + b.toNat) % 2 ^ 64 = 2 ^ 64 - 1) := by
    rw [← UInt64.toNat_add, Bool.eq_iff_iff, beq_iff_eq, decide_eq_true_iff, ← UInt64.toNat_inj]
    rfl
  have hcadd := cadd_eq a b
  rw [cadd] at hcadd
  rw [cadc, hcadd, hsum, Bool.eq_iff_iff]
  cases c with
  | false => simp
  | true =>
    simp only [Bool.true_and, Bool.or_eq_true, decide_eq_true_eq, Bool.toNat_true]
    omega

/-! ### The test -/

/-- The word `((const uint64_t *) &hash)[i]`, in little-endian order. -/
def hashWord (hash : Hash) (i : ℕ) : UInt64 :=
  UInt64.ofNat (leNat ((hash.bytes.drop (8 * i)).take 8))

/-- `check_hash_64`. -/
def checkHash64 (build : MulBuild) (hash : Hash) (difficulty : UInt64) : Bool :=
  -- First check the highest word, this will most likely fail for a random hash.
  let (high, top) := mul build (hashWord hash 3) difficulty
  if high ≠ 0 then false
  else
    let (cur, _) := mul build (hashWord hash 0) difficulty
    let (high, low) := mul build (hashWord hash 1) difficulty
    let carry := cadd cur low
    let cur := high
    let (high, low) := mul build (hashWord hash 2) difficulty
    let carry := cadc cur low carry
    let carry := cadc high top carry
    !carry

/-- `check_hash_128`, compiled with `FORCE_FULL_128_BITS`. -/
def checkHash128 (hash : Hash) (difficulty : BitVec 128) : Bool :=
  -- usual slow check
  let hashVal : BitVec 512 := [0, 1, 2, 3].foldl (fun hashVal i =>
    (hashVal <<< 64) ||| (hashWord hash (3 - i)).toBitVec.setWidth 512) 0
  decide (hashVal * difficulty.setWidth 512 ≤ BitVec.ofNat 512 (2 ^ 256 - 1))

/-- `check_hash`. -/
def checkHash (build : MulBuild) (hash : Hash) (difficulty : BitVec 128) : Bool :=
  -- if can convert to small difficulty - do it
  if difficulty ≤ BitVec.ofNat 128 (2 ^ 64 - 1) then
    checkHash64 build hash (UInt64.ofNat difficulty.toNat)
  else checkHash128 hash difficulty

theorem toNat_hashWord (hash : Hash) (i : ℕ) :
    (hashWord hash i).toNat = leNat ((hash.bytes.drop (8 * i)).take 8) := by
  have hlt := leNat_lt ((hash.bytes.drop (8 * i)).take 8)
  have hle : ((hash.bytes.drop (8 * i)).take 8).length ≤ 8 := length_take_le ..
  have hpow := Nat.pow_le_pow_right (show 0 < 256 by norm_num) hle
  rw [hashWord, UInt64.toNat_ofNat', Nat.mod_eq_of_lt (by omega)]

/-- A hash as a number is made up of its words. -/
theorem leNat_hash (hash : Hash) :
    leNat hash.bytes = (hashWord hash 0).toNat + 2 ^ 64 * (hashWord hash 1).toNat +
      2 ^ 128 * (hashWord hash 2).toNat + 2 ^ 192 * (hashWord hash 3).toNat := by
  have hlen := hash.length_bytes
  have hlast : (hash.bytes.drop 24).take 8 = hash.bytes.drop 24 :=
    take_of_length_le (by rw [length_drop]; omega)
  simp only [toNat_hashWord, Nat.mul_zero, drop_zero, Nat.mul_one, Nat.reduceMul]
  rw [hlast, @leNat_take_add_drop 8 hash.bytes (by omega),
    @leNat_take_add_drop 8 (hash.bytes.drop 8) (by rw [length_drop]; omega),
    @leNat_take_add_drop 8 ((hash.bytes.drop 8).drop 8) (by simp only [length_drop]; omega),
    drop_drop, drop_drop]
  ring

/-- The carries decide whether the product of a word with four others fits in four words. -/
theorem checkHash64_eq_true_iff (build : MulBuild) (hash : Hash) (difficulty : UInt64) :
    checkHash64 build hash difficulty = true ↔ leNat hash.bytes * difficulty.toNat < 2 ^ 256 := by
  have h₀ := toNat_mul build (hashWord hash 0) difficulty
  have h₁ := toNat_mul build (hashWord hash 1) difficulty
  have h₂ := toNat_mul build (hashWord hash 2) difficulty
  have h₃ := toNat_mul build (hashWord hash 3) difficulty
  have hprod : leNat hash.bytes * difficulty.toNat =
      (hashWord hash 0).toNat * difficulty.toNat +
        2 ^ 64 * ((hashWord hash 1).toNat * difficulty.toNat) +
        2 ^ 128 * ((hashWord hash 2).toNat * difficulty.toNat) +
        2 ^ 192 * ((hashWord hash 3).toNat * difficulty.toNat) := by
    rw [leNat_hash]
    ring
  rw [hprod, ← h₀, ← h₁, ← h₂, ← h₃, checkHash64]
  generalize mul build (hashWord hash 0) difficulty = p₀
  generalize mul build (hashWord hash 1) difficulty = p₁
  generalize mul build (hashWord hash 2) difficulty = p₂
  generalize mul build (hashWord hash 3) difficulty = p₃
  obtain ⟨hi₀, lo₀⟩ := p₀
  obtain ⟨hi₁, lo₁⟩ := p₁
  obtain ⟨hi₂, lo₂⟩ := p₂
  obtain ⟨hi₃, lo₃⟩ := p₃
  have := lo₀.toNat_lt
  have := lo₁.toNat_lt
  have := lo₂.toNat_lt
  have := lo₃.toNat_lt
  have := hi₀.toNat_lt
  have := hi₁.toNat_lt
  have := hi₂.toNat_lt
  have hzero : hi₃ = 0 ↔ hi₃.toNat = 0 := UInt64.toNat_inj.symm
  simp only [toNat128]
  split
  · next h =>
    have := mt hzero.mpr h
    simp only [Bool.false_eq_true, false_iff]
    omega
  · next h =>
    have := hzero.mp (not_not.mp h)
    rw [cadc_eq, cadc_eq, cadd_eq]
    simp only [Bool.not_eq_true', decide_eq_false_iff_not]
    simp only [Bool.toNat, Bool.cond_decide]
    split_ifs <;> omega

theorem two_pow_lt_wide {n : ℕ} (h : n < 512) : 2 ^ n < 2 ^ 512 :=
  Nat.pow_lt_pow_right one_lt_two h

/-- One round of the loop of `check_hash_128`, which never fills the wide integer. -/
theorem toNat_shiftLeft_or_word {v : BitVec 512} (w : UInt64) (h : v.toNat < 2 ^ 192) :
    ((v <<< 64) ||| w.toBitVec.setWidth 512).toNat = v.toNat * 2 ^ 64 + w.toNat := by
  have hw := w.toNat_lt
  have hv : v.toNat * 2 ^ 64 < 2 ^ 256 := by omega
  have hshift : v.toNat <<< 64 % 2 ^ 512 = v.toNat <<< 64 := by
    rw [Nat.shiftLeft_eq]
    exact Nat.mod_eq_of_lt (lt_trans hv (two_pow_lt_wide (by norm_num)))
  rw [BitVec.toNat_or, BitVec.toNat_shiftLeft, BitVec.toNat_setWidth, UInt64.toNat_toBitVec,
    hshift, Nat.mod_eq_of_lt (lt_trans hw (two_pow_lt_wide (by norm_num))),
    ← Nat.shiftLeft_add_eq_or_of_lt hw, Nat.shiftLeft_eq]

theorem toNat_hashVal (hash : Hash) :
    ([0, 1, 2, 3].foldl (fun (hashVal : BitVec 512) i =>
      (hashVal <<< 64) ||| (hashWord hash (3 - i)).toBitVec.setWidth 512) 0).toNat =
      leNat hash.bytes := by
  have h₁ := (hashWord hash 1).toNat_lt
  have h₂ := (hashWord hash 2).toNat_lt
  have h₃ := (hashWord hash 3).toNat_lt
  simp only [foldl_cons, foldl_nil, Nat.sub_zero, Nat.reduceSub]
  have hzero : (0 : BitVec 512).toNat = 0 := BitVec.toNat_zero
  have hv₁ := @toNat_shiftLeft_or_word 0 (hashWord hash 3) (by rw [hzero]; norm_num)
  generalize ((0 : BitVec 512) <<< 64) ||| _ = v₁ at *
  rw [hzero] at hv₁
  have hv₂ := @toNat_shiftLeft_or_word v₁ (hashWord hash 2) (by omega)
  generalize (v₁ <<< 64) ||| _ = v₂ at *
  have hv₃ := @toNat_shiftLeft_or_word v₂ (hashWord hash 1) (by omega)
  generalize (v₂ <<< 64) ||| _ = v₃ at *
  rw [toNat_shiftLeft_or_word _ (by omega), leNat_hash]
  omega

theorem checkHash128_eq_true_iff (hash : Hash) (difficulty : BitVec 128) :
    checkHash128 hash difficulty = true ↔ leNat hash.bytes * difficulty.toNat < 2 ^ 256 := by
  have hlt : leNat hash.bytes < 2 ^ 256 := by
    have h := leNat_lt hash.bytes
    rw [hash.length_bytes] at h
    omega
  have hpred : 2 ^ 256 - 1 < 2 ^ 256 := by norm_num
  have hmul : leNat hash.bytes * difficulty.toNat < 2 ^ (256 + 128) := by
    rw [Nat.pow_add]
    exact Nat.mul_lt_mul'' hlt difficulty.isLt
  have hmod : difficulty.toNat % 2 ^ 512 = difficulty.toNat :=
    Nat.mod_eq_of_lt (lt_trans difficulty.isLt (two_pow_lt_wide (by norm_num)))
  rw [checkHash128, decide_eq_true_iff, BitVec.le_def, BitVec.toNat_mul, toNat_hashVal,
    BitVec.toNat_setWidth, BitVec.toNat_ofNat, hmod,
    Nat.mod_eq_of_lt (lt_trans hmul (two_pow_lt_wide (by norm_num))),
    Nat.mod_eq_of_lt (lt_trans hpred (two_pow_lt_wide (by norm_num))),
    Nat.le_sub_one_iff_lt (by norm_num)]

/-- **The proof-of-work test.** In either build, and for every hash and difficulty, `check_hash`
passes exactly if the product of the hash and the difficulty fits in 256 bits; for difficulties of
one word the short test and the long one agree. -/
theorem checkHash_iff_mul_lt (build : MulBuild) (hash : Hash) :
    (∀ difficulty : BitVec 128, checkHash build hash difficulty = true ↔
      leNat hash.bytes * difficulty.toNat < 2 ^ 256) ∧
    ∀ difficulty : UInt64, checkHash64 build hash difficulty =
      checkHash128 hash (difficulty.toBitVec.setWidth 128) := by
  refine ⟨fun difficulty => ?_, fun difficulty => ?_⟩
  · rw [checkHash]
    split
    · next hle =>
      have hd : difficulty.toNat ≤ 2 ^ 64 - 1 := by
        simpa [BitVec.le_def] using hle
      rw [checkHash64_eq_true_iff, UInt64.toNat_ofNat', Nat.mod_eq_of_lt (by omega)]
    · exact checkHash128_eq_true_iff hash difficulty
  · have hd := difficulty.toNat_lt
    rw [Bool.eq_iff_iff, checkHash64_eq_true_iff, checkHash128_eq_true_iff,
      BitVec.toNat_setWidth, UInt64.toNat_toBitVec, Nat.mod_eq_of_lt (by omega)]

end Hidering
