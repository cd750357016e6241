import Hidering.Wire.Format

/-!
# Masking with a key stream

A stream cipher adds a key stream to the bytes of a text, byte by byte, with exclusive or. The
stream is a function of the position, and a text that consists of several parts is masked part by
part, each from the position where the one before it ends. Masking twice from the same position
gives the text back, which is all that a lock built on such a cipher relies on.

## Main definitions

* `Cipher.xorFrom` — bytes masked from a position on
* `Cipher.maskBlob`, `Cipher.maskBlobs` — the same for bytes of a fixed length, and for a list of
  such

## Main results

* `Cipher.maskBlob_maskBlob` — masking is an involution
* `Cipher.maskBlob_eq_self_iff` — when masking leaves a text as it is
* `Cipher.zipBlob_comm`, `zipBlob_assoc`, `zipBlob_cancel` — laws that hold byte by byte
-/

namespace Cipher

open Wire List

/-- The bytes of a key stream by position. -/
abbrev KeyStream := ℕ → UInt8

/-- Add the key stream from position `n` on. -/
def xorFrom (ks : KeyStream) : ℕ → Bytes → Bytes
  | _, [] => []
  | n, b :: l => (b ^^^ ks n) :: xorFrom ks (n + 1) l

variable {ks : KeyStream} {n m : ℕ}

@[simp] theorem length_xorFrom (l : Bytes) : (xorFrom ks n l).length = l.length := by
  induction l generalizing n with
  | nil => rfl
  | cons b l ih => rw [xorFrom, length_cons, ih, length_cons]

@[simp] theorem xorFrom_xorFrom (l : Bytes) : xorFrom ks n (xorFrom ks n l) = l := by
  induction l generalizing n with
  | nil => rfl
  | cons b l ih => rw [xorFrom, xorFrom, ih, UInt8.xor_assoc, UInt8.xor_self, UInt8.xor_zero]

/-- Bytes of a fixed length, masked from position `n` on. -/
def maskBlob (ks : KeyStream) (n : ℕ) (k : Blob m) : Blob m :=
  ⟨xorFrom ks n k.bytes, by rw [length_xorFrom, k.length_bytes]⟩

@[simp] theorem maskBlob_maskBlob (k : Blob m) : maskBlob ks n (maskBlob ks n k) = k := by
  rw [maskBlob, Blob.mk.injEq]
  exact xorFrom_xorFrom k.bytes

theorem maskBlob_injective : Function.Injective (maskBlob ks n : Blob m → Blob m) :=
  Function.LeftInverse.injective maskBlob_maskBlob

/-- Consecutive texts of one length, masked from position `n` on. -/
def maskBlobs (ks : KeyStream) : ℕ → List (Blob m) → List (Blob m)
  | _, [] => []
  | n, k :: l => maskBlob ks n k :: maskBlobs ks (n + m) l

@[simp] theorem length_maskBlobs (l : List (Blob m)) : (maskBlobs ks n l).length = l.length := by
  induction l generalizing n with
  | nil => rfl
  | cons k l ih => rw [maskBlobs, length_cons, ih, length_cons]

/-- The stream itself, as what masks the text of zeros. -/
def pad (ks : KeyStream) (n m : ℕ) : Blob m := maskBlob ks n ⟨replicate m 0, Blob.length_zeros m⟩

theorem xorFrom_eq_self_iff (l : Bytes) :
    xorFrom ks n l = l ↔ xorFrom ks n (replicate l.length 0) = replicate l.length 0 := by
  induction l generalizing n with
  | nil => simp [xorFrom]
  | cons b l ih =>
    have hhead : b ^^^ ks n = b ↔ 0 ^^^ ks n = 0 := by
      rw [UInt8.zero_xor]
      constructor
      · intro h
        have hb := congrArg (b ^^^ ·) h
        simpa [← UInt8.xor_assoc] using hb
      · intro h
        rw [h, UInt8.xor_zero]
    rw [xorFrom, length_cons, replicate_succ, xorFrom, List.cons.injEq, List.cons.injEq,
      hhead, ih]

/-- Masking leaves a text as it is if the stream is zero there. -/
theorem maskBlob_eq_self_iff {k : Blob m} :
    maskBlob ks n k = k ↔ pad ks n m = ⟨replicate m 0, by simp⟩ := by
  obtain ⟨l, rfl⟩ := k
  simp only [pad, maskBlob, Blob.mk.injEq]
  exact xorFrom_eq_self_iff l

/-! ### Byte by byte -/

/-- Combine two strings of one length byte by byte. -/
def zipBlob (f : UInt8 → UInt8 → UInt8) (a b : Blob m) : Blob m :=
  ⟨zipWith f a.bytes b.bytes, by
    rw [length_zipWith, a.length_bytes, b.length_bytes, Nat.min_self]⟩

section ZipBlob

variable {f : UInt8 → UInt8 → UInt8}

theorem zipBlob_comm (hf : ∀ x y, f x y = f y x) (a b : Blob m) : zipBlob f a b = zipBlob f b a :=
  Blob.ext_bytes (zipWith_comm_of_comm hf)

theorem zipWith_assoc (hf : ∀ x y z, f (f x y) z = f x (f y z)) (k l r : Bytes) :
    zipWith f (zipWith f k l) r = zipWith f k (zipWith f l r) := by
  induction k generalizing l r with
  | nil => simp
  | cons x k ih =>
    cases l with
    | nil => simp
    | cons y l =>
      cases r with
      | nil => simp
      | cons z r => simp [hf, ih]

theorem zipBlob_assoc (hf : ∀ x y z, f (f x y) z = f x (f y z)) (a b c : Blob m) :
    zipBlob f (zipBlob f a b) c = zipBlob f a (zipBlob f b c) :=
  Blob.ext_bytes (zipWith_assoc hf a.bytes b.bytes c.bytes)

theorem zipWith_cancel {g : UInt8 → UInt8 → UInt8} (hf : ∀ x y, g (f x y) y = x) {k l : Bytes}
    (h : k.length = l.length) : zipWith g (zipWith f k l) l = k := by
  induction k generalizing l with
  | nil => simp
  | cons x k ih =>
    cases l with
    | nil => simp at h
    | cons y l => simp [hf, ih (by simpa using h)]

/-- What was combined with a string is got back with the inverse operation. -/
theorem zipBlob_cancel {g : UInt8 → UInt8 → UInt8} (hf : ∀ x y, g (f x y) y = x) (a b : Blob m) :
    zipBlob g (zipBlob f a b) b = a :=
  Blob.ext_bytes (zipWith_cancel hf (a.length_bytes.trans b.length_bytes.symm))

end ZipBlob

end Cipher
