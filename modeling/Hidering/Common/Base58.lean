import Hidering.Machine.Checked
import Hidering.Wire.Digits
import Mathlib.Data.List.GetD
import Mathlib.Tactic.IntervalCases

/-!
# Base58

`tools::base58` writes a byte string block by block: 8 bytes become 11 letters, and a last block of
1 to 7 bytes becomes the 2 to 10 letters of `encoded_block_sizes`. Within a block, bytes and letters
are the digits of one number, in base 256 and in base 58. Not every string of letters is a block:
the number may not fit in the bytes, and some lengths do not occur at all. The decoder refuses
those, with tests for overflow in 64-bit arithmetic at every letter, and what it accepts is exactly
what the encoder writes.

## Main definitions

* `Hidering.Base58.alphabet`, `encodedBlockSizes`, and the reverse tables
* `Hidering.Base58.encodeBlock`, `Hidering.Base58.decodeBlock`
* `Hidering.Base58.encode`, `Hidering.Base58.decode`

## Main results

* `Hidering.Base58.decodeLoop_eq_some_iff` — the checked sum of `decode_block` is exact
* `Hidering.Base58.decodeBlock_eq_some_iff`
* `Hidering.Base58.base58_bijective`
-/

namespace Hidering

namespace Base58

open Machine Wire List

/-! ### Tables -/

/-- `alphabet`. -/
def alphabet : Bytes :=
  ['1', '2', '3', '4', '5', '6', '7', '8', '9', 'A', 'B', 'C', 'D', 'E', 'F', 'G', 'H', 'J', 'K',
    'L', 'M', 'N', 'P', 'Q', 'R', 'S', 'T', 'U', 'V', 'W', 'X', 'Y', 'Z', 'a', 'b', 'c', 'd', 'e',
    'f', 'g', 'h', 'i', 'j', 'k', 'm', 'n', 'o', 'p', 'q', 'r', 's', 't', 'u', 'v', 'w', 'x', 'y',
    'z'].map fun ch => UInt8.ofNat ch.toNat

/-- `alphabet[digit]`. -/
def letter (digit : ℕ) : UInt8 := alphabet.getD digit 0

/-- `reverse_alphabet`: the position of a letter; `none` stands for -1. -/
def reverseAlphabet (ch : UInt8) : Option ℕ := alphabet.idxOf? ch

/-- `encoded_block_sizes`. -/
def encodedBlockSizes : List ℕ := [0, 2, 3, 5, 6, 7, 9, 10, 11]

/-- `encoded_block_sizes[size]`. -/
def encodedBlockSize (size : ℕ) : ℕ := encodedBlockSizes.getD size 0

/-- `decoded_block_sizes`: `none` stands for -1. -/
def decodedBlockSize (encodedSize : ℕ) : Option ℕ := encodedBlockSizes.idxOf? encodedSize

/-- `full_block_size`. -/
def fullBlockSize : ℕ := 8

/-- `full_encoded_block_size`. -/
def fullEncodedBlockSize : ℕ := 11

/-- Reading a table without repetitions backwards. -/
theorem idxOf?_eq_some_iff_getD {α : Type} [DecidableEq α] {l : List α} (hl : l.Nodup) {a d : α}
    {i : ℕ} : l.idxOf? a = some i ↔ i < l.length ∧ l.getD i d = a := by
  rw [idxOf?_eq_some_iff]
  constructor
  · rintro ⟨hi, ha, -⟩
    exact ⟨hi, by rw [getD_eq_getElem _ _ hi, ha]⟩
  · rintro ⟨hi, ha⟩
    rw [getD_eq_getElem _ _ hi] at ha
    refine ⟨hi, ha, fun j hj hja => ?_⟩
    exact absurd (hl.getElem_inj_iff.mp (hja.trans ha.symm)) (by omega)

theorem reverseAlphabet_eq_some_iff {ch : UInt8} {d : ℕ} :
    reverseAlphabet ch = some d ↔ d < 58 ∧ letter d = ch :=
  idxOf?_eq_some_iff_getD (by decide)

theorem decodedBlockSize_eq_some_iff {m n : ℕ} :
    decodedBlockSize m = some n ↔ n < 9 ∧ encodedBlockSize n = m :=
  idxOf?_eq_some_iff_getD (by decide)

/-! ### Blocks -/

/-- The letters of a number from the last one on, in the `i` places that are left. -/
def encodeLoop : ℕ → UInt64 → Bytes
  | 0, _ => []
  | i + 1, num =>
    if 0 < num then letter (num % 58).toNat :: encodeLoop i (num / 58)
    -- the places that are not written keep `alphabet[0]`
    else replicate (i + 1) (letter 0)

/-- `encode_block`. -/
def encodeBlock (block : Bytes) : Bytes :=
  (encodeLoop (encodedBlockSize block.length) (UInt64.ofNat (beNat block))).reverse

/-- The loop of `decode_block` over the letters from the last one on. -/
def decodeLoop : UInt64 → UInt64 → Bytes → Option UInt64
  | resNum, _, [] => some resNum
  | resNum, order, ch :: rest =>
    (reverseAlphabet ch).bind fun digit =>
      let product := mul128 order (UInt64.ofNat digit)
      let tmp := resNum + product.2
      -- Overflow
      if tmp < resNum ∨ product.1 ≠ 0 then none
      else decodeLoop tmp (order * 58) rest

/-- `decode_block`. -/
def decodeBlock (block : Bytes) : Option Bytes :=
  ((decodedBlockSize block.length).filter (0 < ·)).bind fun resSize =>
    (decodeLoop 0 1 block.reverse).bind fun resNum =>
      -- Overflow
      if resSize < fullBlockSize ∧ 1 <<< UInt64.ofNat (8 * resSize) ≤ resNum then none
      else some (beBytes resSize resNum.toNat)

theorem encodeLoop_eq (i : ℕ) (num : UInt64) :
    encodeLoop i num = (toDigits 58 i num.toNat).map letter := by
  induction i generalizing num with
  | zero => rfl
  | succ i ih =>
    rw [encodeLoop]
    split
    · rw [toDigits, map_cons, ih, UInt64.toNat_mod, UInt64.toNat_div]
      rfl
    · next hnum =>
      have hzero : num.toNat = 0 := by
        have := mt UInt64.lt_iff_toNat_lt.mpr hnum
        simpa using this
      rw [hzero, toDigits_zero, map_replicate]

/-- The numbers that letters stand for. -/
def IsDigits (text : Bytes) (ds : List ℕ) : Prop := text = ds.map letter ∧ ∀ d ∈ ds, d < 58

variable {ds : List ℕ}

theorem isDigits_nil : IsDigits [] ds ↔ ds = [] := by
  constructor
  · rintro ⟨h, -⟩
    exact map_eq_nil_iff.mp h.symm
  · rintro rfl
    exact ⟨rfl, by simp⟩

theorem isDigits_cons {ch : UInt8} {text : Bytes} :
    IsDigits (ch :: text) ds ↔
      ∃ d ds', ds = d :: ds' ∧ reverseAlphabet ch = some d ∧ IsDigits text ds' := by
  constructor
  · rintro ⟨h, hlt⟩
    obtain ⟨d, ds', rfl, rfl, rfl⟩ := map_eq_cons_iff.mp h.symm
    obtain ⟨hd, hds⟩ := forall_mem_cons.mp hlt
    exact ⟨d, ds', rfl, reverseAlphabet_eq_some_iff.mpr ⟨hd, rfl⟩, rfl, hds⟩
  · rintro ⟨d, ds', rfl, hch, rfl, hds⟩
    obtain ⟨hd, rfl⟩ := reverseAlphabet_eq_some_iff.mp hch
    exact ⟨rfl, forall_mem_cons.mpr ⟨hd, hds⟩⟩

variable {k : ℕ}

/-- The loop of `decode_block` fails at the first sum that does not fit in a word. If it does not
fail, it has summed up the digits: `order` is a power of 58 as long as it is used. -/
theorem decodeLoop_eq_some_iff {text : Bytes} {resNum order v : UInt64} (hk : k + text.length ≤ 11)
    (horder : order.toNat = 58 ^ k % 2 ^ 64) :
    decodeLoop resNum order text = some v ↔
      ∃ ds, IsDigits text ds ∧ v.toNat = resNum.toNat + 58 ^ k * Nat.ofDigits 58 ds := by
  induction text generalizing k resNum order with
  | nil =>
    rw [decodeLoop, Option.some_inj]
    constructor
    · rintro rfl
      exact ⟨[], isDigits_nil.mpr rfl, by simp⟩
    · rintro ⟨ds, hds, hv⟩
      rw [isDigits_nil.mp hds] at hv
      exact UInt64.toNat_inj.mp (by simpa using hv.symm)
  | cons ch text ih =>
    rw [length_cons] at hk
    have hpow : 58 ^ k ≤ 58 ^ 10 := Nat.pow_le_pow_right (by norm_num) (by omega)
    rw [Nat.mod_eq_of_lt (by omega)] at horder
    have hnext : (order * 58).toNat = 58 ^ (k + 1) % 2 ^ 64 := by
      rw [UInt64.toNat_mul, horder, Nat.pow_succ]
      rfl
    have hstep : ∀ {d : ℕ}, d < 58 → (UInt64.ofNat d).toNat = d := fun hd => by
      rw [UInt64.toNat_ofNat', Nat.mod_eq_of_lt (by omega)]
    rw [decodeLoop, Option.bind_eq_some_iff]
    constructor
    · rintro ⟨d, hch, hrest⟩
      have hd := (reverseAlphabet_eq_some_iff.mp hch).1
      simp only at hrest
      split at hrest
      · cases hrest
      · next hover =>
        rw [mulAdd_overflow_iff, not_le] at hover
        obtain ⟨ds, hds, hv⟩ := (ih (by omega) hnext).mp hrest
        refine ⟨d :: ds, isDigits_cons.mpr ⟨d, ds, rfl, hch, hds⟩, ?_⟩
        rw [hv, toNat_mulAdd hover, horder, hstep hd, Nat.ofDigits_cons]
        ring
    · rintro ⟨ds, hds, hv⟩
      obtain ⟨d, ds', rfl, hch, hds'⟩ := isDigits_cons.mp hds
      have hd := (reverseAlphabet_eq_some_iff.mp hch).1
      have hvlt := v.toNat_lt
      rw [Nat.ofDigits_cons] at hv
      have hsum : v.toNat = resNum.toNat + 58 ^ k * d + 58 ^ (k + 1) * Nat.ofDigits 58 ds' := by
        rw [hv]
        ring
      have hover : ¬ 2 ^ 64 ≤ resNum.toNat + order.toNat * (UInt64.ofNat d).toNat := by
        rw [horder, hstep hd]
        omega
      refine ⟨d, hch, ?_⟩
      simp only
      rw [if_neg (mt (mulAdd_overflow_iff ..).mp hover)]
      refine (ih (by omega) hnext).mpr ⟨ds', hds', ?_⟩
      rw [toNat_mulAdd (by omega), horder, hstep hd, hsum]

variable {n : ℕ}

theorem encodedBlockSize_bounds (h₁ : 1 ≤ n) (h₈ : n ≤ 8) :
    encodedBlockSize n ≤ 11 ∧ 256 ^ n ≤ 58 ^ encodedBlockSize n := by
  interval_cases n <;> decide

variable {block : Bytes}

/-- A block fits in a word. -/
theorem toNat_uint8beTo64 (h₈ : block.length ≤ 8) :
    (UInt64.ofNat (beNat block)).toNat = beNat block := by
  have hlt := beNat_lt block
  have hle : 256 ^ block.length ≤ 256 ^ 8 := Nat.pow_le_pow_right (by norm_num) h₈
  rw [UInt64.toNat_ofNat', Nat.mod_eq_of_lt (by omega)]

/-- The letters of a block are the digits of the number that its bytes stand for. -/
theorem encodeBlock_isDigits (h₁ : 1 ≤ block.length) (h₈ : block.length ≤ 8) :
    (encodeBlock block).length = encodedBlockSize block.length ∧
      ∃ ds, IsDigits (encodeBlock block).reverse ds ∧ Nat.ofDigits 58 ds = beNat block := by
  rw [encodeBlock, encodeLoop_eq, toNat_uint8beTo64 h₈]
  refine ⟨by simp, toDigits 58 (encodedBlockSize block.length) (beNat block), ⟨?_, ?_⟩, ?_⟩
  · rw [reverse_reverse]
  · exact fun d hd => lt_of_mem_toDigits (by norm_num) hd
  · exact ofDigits_toDigits (lt_of_lt_of_le (beNat_lt block) (encodedBlockSize_bounds h₁ h₈).2)

/-- A block and its letters determine each other. -/
theorem eq_encodeBlock_of_isDigits {block text : Bytes} (h₁ : 1 ≤ block.length)
    (h₈ : block.length ≤ 8) (hlen : text.length = encodedBlockSize block.length)
    (hds : IsDigits text.reverse ds) (hnum : Nat.ofDigits 58 ds = beNat block) :
    text = encodeBlock block := by
  obtain ⟨hlen', ds', hds', hnum'⟩ := encodeBlock_isDigits h₁ h₈
  have hlength : ∀ {t : Bytes} {l : List ℕ}, IsDigits t.reverse l → l.length = t.length :=
    fun {t l} h => by simpa using (congrArg List.length h.1).symm
  have heq : ds = ds' := Nat.ofDigits_inj_of_len_eq (by norm_num)
    (by rw [hlength hds, hlength hds', hlen, hlen']) hds.2 hds'.2 (hnum.trans hnum'.symm)
  exact reverse_injective (by rw [hds.1, hds'.1, heq])

theorem toNat_one_shiftLeft (h : n < 8) :
    (1 <<< UInt64.ofNat (8 * n) : UInt64).toNat = 256 ^ n := by
  interval_cases n <;> rfl

/-- `decode_block` accepts exactly the letters that `encode_block` writes. -/
theorem decodeBlock_eq_some_iff {text block : Bytes} :
    decodeBlock text = some block ↔
      (1 ≤ block.length ∧ block.length ≤ 8) ∧ text = encodeBlock block := by
  have hsum : ∀ {n : ℕ} {v : UInt64}, 1 ≤ n → n ≤ 8 → text.length = encodedBlockSize n →
      (decodeLoop 0 1 text.reverse = some v ↔
        ∃ ds, IsDigits text.reverse ds ∧ v.toNat = Nat.ofDigits 58 ds) := fun {n v} h₁ h₈ hlen => by
    have h := @decodeLoop_eq_some_iff 0 text.reverse 0 1 v
      (by have := (encodedBlockSize_bounds h₁ h₈).1; rw [length_reverse]; omega) rfl
    simpa using h
  have hfits : ∀ {n : ℕ} {v : UInt64}, n ≤ 8 →
      (¬ (n < fullBlockSize ∧ 1 <<< UInt64.ofNat (8 * n) ≤ v) ↔ v.toNat < 256 ^ n) :=
      fun {n v} h₈ => by
    have hv := v.toNat_lt
    rcases Nat.lt_or_eq_of_le h₈ with hlt | rfl
    · rw [UInt64.le_iff_toNat_le, toNat_one_shiftLeft hlt]
      simp [fullBlockSize, hlt]
    · simp [fullBlockSize]
      omega
  simp only [decodeBlock, Option.bind_eq_some_iff, Option.filter_eq_some_iff,
    decodedBlockSize_eq_some_iff, decide_eq_true_eq]
  constructor
  · rintro ⟨n, ⟨⟨hn, hlen⟩, hpos⟩, v, hv, hblock⟩
    obtain ⟨ds, hds, hval⟩ := (hsum hpos (by omega) hlen.symm).mp hv
    split at hblock
    · cases hblock
    · next hover =>
      have hlt := (hfits (by omega)).mp hover
      obtain rfl := Option.some.inj hblock
      rw [length_beBytes]
      refine ⟨⟨hpos, by omega⟩, eq_encodeBlock_of_isDigits (by rw [length_beBytes]; exact hpos)
        (by rw [length_beBytes]; omega) (by rw [length_beBytes, hlen]) hds ?_⟩
      rw [beNat_beBytes hlt, hval]
  · rintro ⟨⟨h₁, h₈⟩, htext⟩
    obtain ⟨hlen, ds, hds, hnum⟩ := encodeBlock_isDigits h₁ h₈
    have hval := toNat_uint8beTo64 h₈
    rw [← htext] at hlen hds
    refine ⟨block.length, ⟨⟨by omega, hlen.symm⟩, h₁⟩, UInt64.ofNat (beNat block),
      (hsum h₁ h₈ hlen).mpr ⟨ds, hds, hval.trans hnum.symm⟩, ?_⟩
    rw [if_neg ((hfits h₈).mpr (by rw [hval]; exact beNat_lt block)), hval, beBytes_beNat]

/-! ### Strings -/

/-- The full blocks of `encode`. -/
def encodeFull : ℕ → Bytes → Bytes
  | 0, _ => []
  | k + 1, data => encodeBlock (data.take fullBlockSize) ++ encodeFull k (data.drop fullBlockSize)

/-- `encode`. -/
def encode (data : Bytes) : Bytes :=
  if data = [] then []
  else
    let fullBlockCount := data.length / fullBlockSize
    let lastBlockSize := data.length % fullBlockSize
    encodeFull fullBlockCount data ++
      if 0 < lastBlockSize then encodeBlock (data.drop (fullBlockSize * fullBlockCount)) else []

/-- The full blocks of `decode`. -/
def decodeFull : ℕ → Bytes → Option Bytes
  | 0, _ => some []
  | k + 1, enc =>
    (decodeBlock (enc.take fullEncodedBlockSize)).bind fun block =>
      (decodeFull k (enc.drop fullEncodedBlockSize)).map (block ++ ·)

/-- `decode`. -/
def decode (enc : Bytes) : Option Bytes :=
  if enc = [] then some []
  else
    let fullBlockCount := enc.length / fullEncodedBlockSize
    let lastBlockSize := enc.length % fullEncodedBlockSize
    if decodedBlockSize lastBlockSize = none then none -- Invalid enc length
    else
      (decodeFull fullBlockCount enc).bind fun data =>
        if 0 < lastBlockSize then
          (decodeBlock (enc.drop (fullEncodedBlockSize * fullBlockCount))).map (data ++ ·)
        else some data

theorem length_encodeBlock (h₁ : 1 ≤ block.length) (h₈ : block.length ≤ 8) :
    (encodeBlock block).length = encodedBlockSize block.length :=
  (encodeBlock_isDigits h₁ h₈).1

/-- Only full blocks have full letters. -/
theorem encodedBlockSize_eq_full_iff (h₈ : n ≤ 8) :
    encodedBlockSize n = fullEncodedBlockSize ↔ n = fullBlockSize := by
  revert n
  decide

variable {data : Bytes}

theorem length_encodeFull (h : data.length = fullBlockSize * k) :
    (encodeFull k data).length = fullEncodedBlockSize * k := by
  rw [fullBlockSize] at h
  rw [fullEncodedBlockSize]
  induction k generalizing data with
  | zero => rfl
  | succ k ih =>
    have hfirst : (data.take 8).length = 8 := by rw [length_take]; omega
    rw [encodeFull, fullBlockSize, length_append,
      length_encodeBlock (by omega) (by omega), hfirst,
      ih (by rw [length_drop]; omega)]
    change 11 + 11 * k = _
    ring

/-- Decoding the full blocks of a string undoes encoding them, and nothing else does. -/
theorem decodeFull_eq_some_iff {enc data : Bytes} (hlen : enc.length = fullEncodedBlockSize * k) :
    decodeFull k enc = some data ↔ data.length = fullBlockSize * k ∧ enc = encodeFull k data := by
  rw [fullEncodedBlockSize] at hlen
  rw [fullBlockSize]
  induction k generalizing enc data with
  | zero =>
    rw [length_eq_zero_iff.mp hlen]
    simp [decodeFull, encodeFull, eq_comm]
  | succ k ih =>
    have hrest : (enc.drop 11).length = 11 * k := by rw [length_drop]; omega
    have hfirst : (enc.take 11).length = 11 := by rw [length_take]; omega
    simp only [decodeFull, encodeFull, Option.bind_eq_some_iff, Option.map_eq_some_iff,
      fullEncodedBlockSize, fullBlockSize, decodeBlock_eq_some_iff, ih hrest]
    constructor
    · rintro ⟨block, ⟨⟨h₁, h₈⟩, hblock⟩, rest, ⟨hlength, hdrop⟩, rfl⟩
      have hfull : block.length = 8 := (encodedBlockSize_eq_full_iff h₈).mp
        (by rw [← length_encodeBlock h₁ h₈, ← hblock, hfirst]; rfl)
      refine ⟨by rw [length_append]; omega, ?_⟩
      rw [take_left' hfull, drop_left' hfull, ← hblock, ← hdrop, take_append_drop]
    · rintro ⟨hlength, henc⟩
      have hblock : (data.take 8).length = 8 := by rw [length_take]; omega
      have hletters : (encodeBlock (data.take 8)).length = 11 := by
        rw [length_encodeBlock (by omega) (by omega), hblock]
        rfl
      refine ⟨data.take 8, ⟨⟨by omega, by omega⟩, ?_⟩, data.drop 8, ⟨?_, ?_⟩, ?_⟩
      · rw [henc, take_left' hletters]
      · rw [length_drop]
        omega
      · rw [henc, drop_left' hletters]
      · exact take_append_drop 8 data

theorem encodeFull_append {front : Bytes} (h : front.length = fullBlockSize * k)
    (last : Bytes) : encodeFull k (front ++ last) = encodeFull k front := by
  rw [fullBlockSize] at h
  induction k generalizing front with
  | zero => rfl
  | succ k ih =>
    rw [encodeFull, encodeFull, fullBlockSize, take_append_of_le_length (by omega),
      drop_append_of_le_length (by omega), ih (by rw [length_drop]; omega)]

theorem decodeFull_append {front : Bytes} (h : front.length = fullEncodedBlockSize * k)
    (last : Bytes) : decodeFull k (front ++ last) = decodeFull k front := by
  rw [fullEncodedBlockSize] at h
  induction k generalizing front with
  | zero => rfl
  | succ k ih =>
    rw [decodeFull, decodeFull, fullEncodedBlockSize, take_append_of_le_length (by omega),
      drop_append_of_le_length (by omega), ih (by rw [length_drop]; omega)]

/-- The number of full blocks and the size of the last one. -/
theorem length_div_mod {n k : ℕ} {front last : Bytes} (hfront : front.length = n * k)
    (hlast : last.length < n) :
    (front ++ last).length / n = k ∧ (front ++ last).length % n = last.length := by
  rw [length_append, hfront, Nat.mul_add_div (by omega), Nat.mul_add_mod,
    Nat.div_eq_of_lt hlast, Nat.mod_eq_of_lt hlast]
  exact ⟨rfl, rfl⟩

/-- `encode`, for a string given as its full blocks and its last block. -/
theorem encode_append {front last : Bytes} (hfront : front.length = fullBlockSize * k)
    (hlast : last.length < fullBlockSize) :
    encode (front ++ last) = encodeFull k front ++ if last = [] then [] else encodeBlock last := by
  obtain ⟨hcount, hsize⟩ := length_div_mod hfront hlast
  rw [encode]
  split
  · next hnil =>
    obtain ⟨rfl, rfl⟩ := append_eq_nil_iff.mp hnil
    obtain rfl : k = 0 := by simpa [fullBlockSize] using hfront.symm
    rfl
  · simp only [hcount, hsize, encodeFull_append hfront, drop_left' hfront,
      length_pos_iff]
    split_ifs <;> first | rfl | contradiction

theorem length_encode {k r : ℕ} (h : data.length = fullBlockSize * k + r) (hr : r < fullBlockSize) :
    (encode data).length = fullEncodedBlockSize * k + encodedBlockSize r := by
  have hfront : (data.take (fullBlockSize * k)).length = fullBlockSize * k := by
    rw [length_take]
    omega
  have hlast : (data.drop (fullBlockSize * k)).length = r := by
    rw [length_drop]
    omega
  rw [← take_append_drop (fullBlockSize * k) data, encode_append hfront (by omega),
    length_append, length_encodeFull hfront]
  split
  · next hnil =>
    obtain rfl : r = 0 := by rw [← hlast, hnil]; rfl
    rfl
  · next hne =>
    rw [length_encodeBlock (length_pos_iff.mpr hne) (by rw [hlast]; exact hr.le), hlast]

/-- The first two letters are the highest digits of the first block. -/
theorem take_two_encode (h : fullBlockSize ≤ data.length) :
    (encode data).take 2 =
      let high := beNat (data.take fullBlockSize) / 58 ^ 9
      [letter (high / 58 % 58), letter (high % 58)] := by
  have hne : data ≠ [] := ne_nil_of_length_pos (lt_of_lt_of_le (by decide) h)
  have hfirst : (data.take fullBlockSize).length = 8 := by
    rw [length_take, Nat.min_eq_left h]
    rfl
  have hletters := length_encodeBlock (show 1 ≤ (data.take fullBlockSize).length by omega)
    (by omega)
  rw [hfirst] at hletters
  obtain ⟨k, hk⟩ := Nat.exists_eq_succ_of_ne_zero (Nat.div_pos h (by decide)).ne'
  rw [encode, if_neg hne]
  simp only [hk, encodeFull]
  rw [append_assoc, take_append_of_le_length (by rw [hletters]; decide), encodeBlock,
    encodeLoop_eq, toNat_uint8beTo64 (by omega), hfirst, show encodedBlockSize 8 = 9 + 2 from rfl,
    toDigits_add, map_append, reverse_append,
    take_append_of_le_length (by simp)]
  rfl

/-- `decode`, for a string given as its full blocks and its last block. -/
theorem decode_append_eq_some_iff {front last data : Bytes}
    (hfront : front.length = fullEncodedBlockSize * k)
    (hlast : last.length < fullEncodedBlockSize) :
    decode (front ++ last) = some data ↔ ∃ front' last', decodeFull k front = some front' ∧
      (if last = [] then last' = [] else decodeBlock last = some last') ∧
      front' ++ last' = data := by
  obtain ⟨hcount, hsize⟩ := length_div_mod hfront hlast
  rw [decode]
  split
  · next hnil =>
    obtain ⟨rfl, rfl⟩ := append_eq_nil_iff.mp hnil
    obtain rfl : k = 0 := by simpa [fullEncodedBlockSize] using hfront.symm
    simp [decodeFull]
  · simp only [hcount, hsize, decodeFull_append hfront, drop_left' hfront,
      length_pos_iff]
    by_cases hnil : last = []
    · rw [hnil, if_neg (by decide)]
      simp
    · simp only [if_neg hnil, if_pos (show last ≠ [] from hnil)]
      split
      · next hnone =>
        -- `decode_block` looks the size up again
        simp [decodeBlock, hnone]
      · simp only [Option.bind_eq_some_iff, Option.map_eq_some_iff]
        grind

/-- Every string has full blocks and a last one. -/
theorem exists_blocks (hn : 0 < n) (l : Bytes) :
    ∃ k front last, l = front ++ last ∧ front.length = n * k ∧ last.length < n := by
  have hle : n * (l.length / n) ≤ l.length := Nat.mul_div_le ..
  have hlt := Nat.mod_lt l.length hn
  have hmod := Nat.div_add_mod l.length n
  refine ⟨l.length / n, l.take (n * (l.length / n)), l.drop (n * (l.length / n)),
    (take_append_drop ..).symm, ?_, ?_⟩
  · rw [length_take, Nat.min_eq_left hle]
  · rw [length_drop]
    omega

theorem eq_encode_of_decode {enc data : Bytes} (h : decode enc = some data) :
    enc = encode data := by
  obtain ⟨k, text, text', rfl, hlen, hrest⟩ :=
    exists_blocks (show 0 < fullEncodedBlockSize by decide) enc
  obtain ⟨front, last, hfront, hlast, rfl⟩ := (decode_append_eq_some_iff hlen hrest).mp h
  obtain ⟨hflen, hftext⟩ := (decodeFull_eq_some_iff hlen).mp hfront
  split at hlast
  · next hnil => rw [hlast, encode_append hflen (by decide), ← hftext, hnil, if_pos rfl]
  · obtain ⟨⟨h₁, h₈⟩, hltext⟩ := decodeBlock_eq_some_iff.mp hlast
    have hne : last.length ≠ fullBlockSize := fun heq => by
      rw [hltext, length_encodeBlock h₁ h₈, (encodedBlockSize_eq_full_iff h₈).mpr heq] at hrest
      omega
    rw [encode_append hflen (lt_of_le_of_ne h₈ hne), ← hftext, ← hltext,
      if_neg (ne_nil_of_length_pos h₁)]

theorem decode_encode (data : Bytes) : decode (encode data) = some data := by
  obtain ⟨k, front, last, rfl, hlen, hrest⟩ :=
    exists_blocks (show 0 < fullBlockSize by decide) data
  have hfull := length_encodeFull hlen
  have hfront := (decodeFull_eq_some_iff hfull).mpr ⟨hlen, rfl⟩
  rw [encode_append hlen hrest]
  split
  · next hnil =>
    exact (decode_append_eq_some_iff hfull (by decide)).mpr ⟨front, [], hfront, rfl, by rw [hnil]⟩
  · next hnil =>
    have h₁ : 1 ≤ last.length := length_pos_iff.mpr hnil
    have hletters := length_encodeBlock h₁ (le_of_lt hrest)
    have hsize : 0 < encodedBlockSize last.length ∧
        encodedBlockSize last.length < fullEncodedBlockSize :=
      (show ∀ n < fullBlockSize, 1 ≤ n → 0 < encodedBlockSize n ∧
        encodedBlockSize n < fullEncodedBlockSize by decide) _ hrest h₁
    have hne : encodeBlock last ≠ [] := ne_nil_of_length_pos (by rw [hletters]; exact hsize.1)
    refine (decode_append_eq_some_iff hfull (by rw [hletters]; exact hsize.2)).mpr
      ⟨front, last, hfront, ?_, rfl⟩
    rw [if_neg hne]
    exact decodeBlock_eq_some_iff.mpr ⟨⟨h₁, le_of_lt hrest⟩, rfl⟩

/-- **Base58 is a bijection onto the strings that `decode` accepts.** What was encoded is decoded to
the same bytes, and every string that is accepted is the one that encodes its result. -/
theorem base58_bijective (enc data : Bytes) :
    decode (encode data) = some data ∧ (decode enc = some data ↔ enc = encode data) :=
  ⟨decode_encode data, eq_encode_of_decode, fun h => h ▸ decode_encode data⟩

end Base58

end Hidering
