import Mathlib.Data.List.DropRight
import Mathlib.Data.Rat.Defs
import Mathlib.Tactic.FieldSimp
import Mathlib.Algebra.Field.Rat

/-!
# Amounts as text

`print_money` writes an amount with a decimal point, `parse_amount` reads one. The parser works on
the text: it takes zeros off an overlong fraction, takes the point out, fills the fraction up with
zeros and converts what is left to a 64-bit number. `IsNumeral` says what a decimal numeral is, and
`numeralValue` which number it stands for; the parser accepts no text whose number, times the unit,
is not the amount it returns.

## Main definitions

* `printMoney`, `parseAmount`, `getXtypeFromString`
* `IsNumeral`, `numeralValue`

## Main results

* `parseAmount_printMoney` — a printed amount is read back
* `exists_isNumeral` — an accepted text is a numeral with the value of the result
-/

namespace Hidering

open List

/-! ### The code -/

/-- White space of the classic locale. -/
def isSpace (c : Char) : Bool := c.toNat = 32 || (9 ≤ c.toNat && c.toNat ≤ 13)

/-- `boost::algorithm::trim`. -/
def trim (s : List Char) : List Char := (s.dropWhile isSpace).rdropWhile isSpace

/-- `get_xtype_from_string<uint64_t>`: digits only, then `boost::lexical_cast`, which fails on an
empty text and on a number that does not fit. -/
def getXtypeFromString (s : List Char) : Option UInt64 :=
  if s.all Char.isDigit = true ∧ s ≠ [] ∧ Nat.ofDigitChars 10 s 0 < 2 ^ 64 then
    some (UInt64.ofNat (Nat.ofDigitChars 10 s 0))
  else none

/-- The loop of `parse_amount` that takes zeros off the end while the fraction is too long. Returns
the text and the length of its fraction. -/
def dropZeros (decimalPoint : ℕ) : ℕ → List Char → List Char × ℕ
  | 0, s => (s, 0)
  | fraction + 1, s =>
    if decimalPoint < fraction + 1 ∧ s.getLast? = some '0' then
      dropZeros decimalPoint fraction s.dropLast
    else (s, fraction + 1)

/-- The end of `parse_amount`: `s` without its point, and the length of its fraction. -/
def parseDigits (decimalPoint : ℕ) (s : List Char) (fraction : ℕ) : Option UInt64 :=
  if s = [] then none
  else getXtypeFromString (s ++ replicate (decimalPoint - fraction) '0')

/-- `parse_amount`, with `default_decimal_point` as a parameter. -/
def parseAmount (decimalPoint : ℕ) (strAmount : List Char) : Option UInt64 :=
  let s := trim strAmount
  let pointIndex := s.idxOf '.'
  if pointIndex < s.length then
    let r := dropZeros decimalPoint (s.length - pointIndex - 1) s
    if decimalPoint < r.2 then none else parseDigits decimalPoint (r.1.eraseIdx pointIndex) r.2
  else parseDigits decimalPoint s 0

/-- `insert_money_decimal_point`. -/
def insertMoneyDecimalPoint (s : List Char) (decimalPoint : ℕ) : List Char :=
  let s := replicate (decimalPoint + 1 - s.length) '0' ++ s
  if 0 < decimalPoint then
    s.take (s.length - decimalPoint) ++ '.' :: s.drop (s.length - decimalPoint)
  else s

/-- `print_money`. -/
def printMoney (decimalPoint : ℕ) (amount : UInt64) : List Char :=
  insertMoneyDecimalPoint (Nat.toDigits 10 amount.toNat) decimalPoint

/-! ### Numerals -/

/-- Digits with at most one point between them, and at least one digit. -/
def IsNumeral (s whole frac : List Char) : Prop :=
  (∀ c ∈ whole ++ frac, c.isDigit = true) ∧ whole ++ frac ≠ [] ∧
    (s = whole ∧ frac = [] ∨ s = whole ++ '.' :: frac)

/-- The number that a numeral stands for. -/
def numeralValue (whole frac : List Char) : ℚ :=
  (Nat.ofDigitChars 10 (whole ++ frac) 0 : ℚ) / 10 ^ frac.length

/-- Zeros at the end of a numeral. -/
theorem ofDigitChars_append_zeros (s : List Char) (k : ℕ) :
    Nat.ofDigitChars 10 (s ++ replicate k '0') 0 = Nat.ofDigitChars 10 s 0 * 10 ^ k := by
  rw [Nat.ofDigitChars_append, Nat.ofDigitChars_replicate_zero, Nat.mul_comm]

variable {s : List Char} {a : UInt64}

theorem getXtypeFromString_eq_some :
    getXtypeFromString s = some a ↔
      (∀ c ∈ s, c.isDigit = true) ∧ s ≠ [] ∧ Nat.ofDigitChars 10 s 0 = a.toNat := by
  unfold getXtypeFromString
  simp only [all_eq_true]
  constructor
  · intro h
    split_ifs at h with hs
    obtain ⟨hdigits, hne, hlt⟩ := hs
    refine ⟨hdigits, hne, ?_⟩
    rw [← Option.some.inj h, UInt64.toNat_ofNat_of_lt' hlt]
  · rintro ⟨hdigits, hne, hval⟩
    rw [if_pos ⟨hdigits, hne, hval ▸ a.toNat_lt⟩, hval, UInt64.ofNat_toNat]

/-- What the loop takes off are zeros of the fraction. -/
theorem dropZeros_spec (decimalPoint : ℕ) (front frac : List Char) :
    ∃ kept zeros, frac = kept ++ replicate zeros '0' ∧
      dropZeros decimalPoint frac.length (front ++ frac) = (front ++ kept, kept.length) := by
  induction frac using reverseRecOn with
  | nil => exact ⟨[], 0, rfl, rfl⟩
  | append_singleton frac c ih =>
    rw [length_append, length_singleton, dropZeros]
    by_cases h : decimalPoint < frac.length + 1 ∧ (front ++ (frac ++ [c])).getLast? = some '0'
    · obtain ⟨kept, zeros, hfrac, hdrop⟩ := ih
      obtain rfl : c = '0' := by simpa using h.2
      refine ⟨kept, zeros + 1, ?_, ?_⟩
      · rw [replicate_succ', ← append_assoc, ← hfrac]
      · rw [if_pos h, ← append_assoc, dropLast_concat, hdrop]
    · refine ⟨frac ++ [c], 0, by simp, ?_⟩
      rw [if_neg h, length_append, length_singleton]

/-- The digits of a numeral, filled up to the unit, are its value in that unit. -/
theorem numeralValue_mul {decimalPoint zeros : ℕ} {whole kept frac : List Char}
    (hfrac : frac = kept ++ replicate zeros '0') (hle : kept.length ≤ decimalPoint)
    (h : Nat.ofDigitChars 10
      (whole ++ kept ++ replicate (decimalPoint - kept.length) '0') 0 = a.toNat) :
    numeralValue whole frac * 10 ^ decimalPoint = a.toNat := by
  rw [ofDigitChars_append_zeros] at h
  have hpow : (10 : ℚ) ^ decimalPoint = 10 ^ kept.length * 10 ^ (decimalPoint - kept.length) := by
    rw [← pow_add, Nat.add_sub_cancel' hle]
  rw [numeralValue, hfrac, ← append_assoc, ofDigitChars_append_zeros, length_append,
    length_replicate, ← h, hpow, pow_add]
  push_cast
  field_simp

/-! ### Both directions -/

theorem isNumeral_of_parseDigits {decimalPoint : ℕ} {s whole : List Char} (kept : List Char)
    (zeros : ℕ) (hle : kept.length ≤ decimalPoint)
    (hs : s = whole ∧ kept ++ replicate zeros '0' = [] ∨
      s = whole ++ '.' :: (kept ++ replicate zeros '0'))
    (h : parseDigits decimalPoint (whole ++ kept) kept.length = some a) :
    ∃ whole frac, IsNumeral s whole frac ∧
      numeralValue whole frac * 10 ^ decimalPoint = a.toNat := by
  unfold parseDigits at h
  split_ifs at h with hne
  obtain ⟨hdigits, -, hval⟩ := getXtypeFromString_eq_some.mp h
  refine ⟨whole, kept ++ replicate zeros '0', ⟨fun c hc => ?_, ?_, hs⟩,
    numeralValue_mul rfl hle hval⟩
  · rw [← append_assoc] at hc
    rcases mem_append.mp hc with hc | hc
    · exact hdigits c (mem_append_left _ hc)
    · rw [eq_of_mem_replicate hc]
      rfl
  · intro hnil
    rw [← append_assoc] at hnil
    exact hne (append_eq_nil_iff.mp hnil).1

/-- A text is cut at its first point. -/
theorem idxOf_append_point {whole : List Char} (h : '.' ∉ whole) (rest : List Char) :
    (whole ++ '.' :: rest).idxOf '.' = whole.length := by
  rw [idxOf_append_of_notMem h, idxOf_cons_self, Nat.add_zero]

theorem parseAmount_point (decimalPoint : ℕ) {s whole rest : List Char} (hpoint : '.' ∉ whole)
    (hs : trim s = whole ++ '.' :: rest) :
    ∃ kept zeros, rest = kept ++ replicate zeros '0' ∧
      parseAmount decimalPoint s =
        if decimalPoint < kept.length then none
        else parseDigits decimalPoint (whole ++ kept) kept.length := by
  obtain ⟨kept, zeros, hrest, hdrop⟩ := dropZeros_spec decimalPoint (whole ++ ['.']) rest
  refine ⟨kept, zeros, hrest, ?_⟩
  have hlen : (whole ++ '.' :: rest).length - whole.length - 1 = rest.length := by
    rw [length_append, length_cons]
    omega
  unfold parseAmount
  dsimp only
  rw [hs, idxOf_append_point hpoint, if_pos (by simp), hlen]
  rw [append_assoc, singleton_append, append_assoc, singleton_append] at hdrop
  rw [hdrop]
  dsimp only
  rw [eraseIdx_append_of_length_le (Nat.le_refl _), Nat.sub_self]
  rfl

/-- An accepted text is a decimal numeral with exactly the value of the result. -/
theorem exists_isNumeral {decimalPoint : ℕ} (h : parseAmount decimalPoint s = some a) :
    ∃ whole frac, IsNumeral (trim s) whole frac ∧
      numeralValue whole frac * 10 ^ decimalPoint = a.toNat := by
  by_cases hpoint : '.' ∈ trim s
  · obtain ⟨whole, rest, hs, hwhole⟩ := eq_append_cons_of_mem hpoint
    obtain ⟨kept, zeros, rfl, hparse⟩ := parseAmount_point decimalPoint hwhole hs
    rw [hparse] at h
    split_ifs at h with hlt
    exact isNumeral_of_parseDigits kept zeros (not_lt.mp hlt) (Or.inr hs) h
  · unfold parseAmount at h
    dsimp only at h
    rw [idxOf_eq_length hpoint, if_neg (lt_irrefl _)] at h
    exact isNumeral_of_parseDigits [] 0 (Nat.zero_le _) (Or.inl ⟨rfl, rfl⟩) (by rwa [append_nil])

theorem trim_eq_self (h : ∀ c ∈ s, isSpace c = false) : trim s = s := by
  have hdrop : s.dropWhile isSpace = s := by
    cases s with
    | nil => rfl
    | cons c s => rw [dropWhile_cons_of_neg (by simp [h c (mem_cons_self ..)])]
  rw [trim, hdrop, rdropWhile_eq_self_iff]
  intro hne
  simp [h _ (getLast_mem hne)]

theorem isSpace_of_isDigit {c : Char} (h : c.isDigit = true) : isSpace c = false := by
  have hlow : 48 ≤ c.toNat := by
    simp only [Char.isDigit, Bool.and_eq_true, decide_eq_true_eq] at h
    exact h.1
  simp only [isSpace, Bool.or_eq_false_iff, Bool.and_eq_false_iff, decide_eq_false_iff_not]
  omega

theorem point_notMem (h : ∀ c ∈ s, c.isDigit = true) : '.' ∉ s :=
  fun hmem => absurd (h _ hmem) (by decide)

/-- A printed amount is read back. -/
theorem parseAmount_printMoney (decimalPoint : ℕ) (a : UInt64) :
    parseAmount decimalPoint (printMoney decimalPoint a) = some a := by
  unfold printMoney insertMoneyDecimalPoint
  -- the digits, filled up so that at least one stands before the point
  generalize ht : replicate (decimalPoint + 1 - (Nat.toDigits 10 a.toNat).length) '0' ++
    Nat.toDigits 10 a.toNat = t
  have hlen : decimalPoint + 1 ≤ t.length := by
    rw [← ht, length_append, length_replicate]
    omega
  have hdigits : ∀ c ∈ t, c.isDigit = true := by
    intro c hc
    rw [← ht] at hc
    rcases mem_append.mp hc with hc | hc
    · rw [eq_of_mem_replicate hc]
      rfl
    · exact Nat.isDigit_of_mem_toDigits (by decide) (by decide) hc
  have hread : getXtypeFromString t = some a := by
    refine getXtypeFromString_eq_some.mpr ⟨hdigits, fun hnil => by simp [hnil] at hlen, ?_⟩
    rw [← ht, Nat.ofDigitChars_append, Nat.ofDigitChars_replicate_zero, Nat.mul_zero,
      Nat.ofDigitChars_ten_toDigits]
  have hspace : ∀ c ∈ t, isSpace c = false := fun c hc => isSpace_of_isDigit (hdigits c hc)
  dsimp only
  split_ifs with hpos
  · have hsplit := take_append_drop (t.length - decimalPoint) t
    have hwlen : (t.take (t.length - decimalPoint)).length = t.length - decimalPoint := by
      rw [length_take]
      omega
    have hrlen : (t.drop (t.length - decimalPoint)).length = decimalPoint := by
      rw [length_drop]
      omega
    generalize t.take (t.length - decimalPoint) = whole at hsplit hwlen ⊢
    generalize t.drop (t.length - decimalPoint) = rest at hsplit hrlen ⊢
    subst hsplit
    have htrim : trim (whole ++ '.' :: rest) = whole ++ '.' :: rest := by
      refine trim_eq_self fun c hc => ?_
      rcases mem_append.mp hc with hc | hc
      · exact hspace c (mem_append_left _ hc)
      · rcases mem_cons.mp hc with rfl | hc
        exacts [rfl, hspace c (mem_append_right _ hc)]
    have hpoint : '.' ∉ whole := point_notMem fun c hc => hdigits c (mem_append_left _ hc)
    obtain ⟨kept, zeros, rfl, hparse⟩ := parseAmount_point decimalPoint hpoint htrim
    rw [length_append, length_replicate] at hrlen
    have hne : whole ++ kept ≠ [] := by
      intro hnil
      have hzero := congrArg List.length (append_eq_nil_iff.mp hnil).1
      rw [length_nil] at hzero
      omega
    have hzeros : decimalPoint - kept.length = zeros := by omega
    rw [hparse, if_neg (by omega), parseDigits, if_neg hne, hzeros, append_assoc]
    exact hread
  · obtain rfl : decimalPoint = 0 := by omega
    unfold parseAmount
    dsimp only
    rw [trim_eq_self hspace, idxOf_eq_length (point_notMem hdigits), if_neg (lt_irrefl _),
      parseDigits, if_neg (fun hnil => by simp [hnil] at hlen)]
    simpa using hread

/-- **Amounts as text.** What is printed is read back, and what is accepted is a decimal numeral
whose value in the unit is exactly the result. -/
theorem parseAmount_exact (decimalPoint : ℕ) :
    (∀ a, parseAmount decimalPoint (printMoney decimalPoint a) = some a) ∧
      ∀ s a, parseAmount decimalPoint s = some a →
        ∃ whole frac, IsNumeral (trim s) whole frac ∧
          numeralValue whole frac * 10 ^ decimalPoint = a.toNat :=
  ⟨parseAmount_printMoney decimalPoint, fun _ _ h => exists_isNumeral h⟩

end Hidering
