import Hidering.Wire.Format

/-!
# The sizes of encodings

`f.SizeAt a n` says that the code of `a`, if there is one, has `n` bytes. Sizes are computed along
the combinators: a list of elements of equal size has a multiple of that size, and a count below
128 takes one byte.

## Main definitions

* `Wire.Format.SizeAt`

## Main results

* `Wire.Format.seq_sizeAt`, `listN_sizeAt`, `vector_sizeAt`
-/

namespace Wire.Format

variable {α β : Type}

/-- The code of `a` has `n` bytes. -/
def SizeAt (f : Format α) (a : α) (n : ℕ) : Prop := ∀ bs, f.write a = some bs → bs.length = n

theorem skip_sizeAt (d a : α) : (skip d).SizeAt a 0 := by
  intro bs h
  rw [← Option.some.inj h]
  rfl

theorem blob_sizeAt {k : ℕ} (b : Blob k) : (blob k).SizeAt b k := by
  intro bs h
  rw [← Option.some.inj h]
  exact b.length_bytes

theorem varint64_sizeAt {a : UInt64} (h : a.toNat < 128) : varint64.SizeAt a 1 := by
  intro bs hw
  have hcode : varint64.write a = some (writeVarint 9 a.toNat) := rfl
  rw [hcode, writeVarint_of_lt h] at hw
  rw [← Option.some.inj hw]
  rfl

theorem varint32_sizeAt {a : UInt32} (h : a.toNat < 128) : varint32.SizeAt a 1 := by
  intro bs hw
  have hcode : varint32.write a = some (writeVarint 4 a.toNat) := rfl
  rw [hcode, writeVarint_of_lt h] at hw
  rw [← Option.some.inj hw]
  rfl

section

variable {f : Format α} {g : Format β} {a : α} {m n : ℕ}

theorem seq_sizeAt {b : β} (hf : f.SizeAt a m) (hg : g.SizeAt b n) :
    (f.seq g).SizeAt (a, b) (m + n) := by
  intro bs h
  obtain ⟨x, hx, y, hy, rfl⟩ := seq_eq_some.mp h
  rw [List.length_append, hf x hx, hg y hy]

theorem write_of_check {p : α → Bool} {hp} {bs : Bytes} (h : (f.check p hp).write a = some bs) :
    f.write a = some bs := by
  simp only [check] at h
  split at h
  · exact h
  · cases h

theorem length_writeList {as : List α} {bs : Bytes} (hf : ∀ a ∈ as, f.SizeAt a n)
    (h : writeList f as = some bs) : bs.length = as.length * n := by
  induction as generalizing bs with
  | nil =>
    rw [← Option.some.inj h]
    exact (Nat.zero_mul n).symm
  | cons a as ih =>
    obtain ⟨x, hx, y, hy, rfl⟩ := writeList_cons_eq_some.mp h
    rw [List.length_append, hf a List.mem_cons_self x hx,
      ih (fun a ha => hf a (List.mem_cons_of_mem _ ha)) hy, List.length_cons, Nat.succ_mul,
      Nat.add_comm]

theorem listN_sizeAt {as : List α} (k : ℕ) (hf : ∀ a ∈ as, f.SizeAt a n) :
    (listN f k).SizeAt as (k * n) := by
  intro bs h
  simp only [listN] at h
  split at h
  · next hlen => rw [length_writeList hf h, hlen]
  · cases h

theorem vector_sizeAt {hne} {as : List α} (hlen : as.length < 128)
    (hf : ∀ a ∈ as, f.SizeAt a n) : (vector f hne).SizeAt as (1 + as.length * n) := by
  intro bs h
  have hnat : (UInt64.ofNat as.length).toNat < 128 := by
    rw [UInt64.toNat_ofNat_of_lt' (hlen.trans (by decide))]
    exact hlen
  simp only [vector] at h
  split at h
  · obtain ⟨x, hx, h⟩ := Option.bind_eq_some_iff.mp h
    obtain ⟨y, hy, rfl⟩ := Option.map_eq_some_iff.mp h
    rw [List.length_append, varint64_sizeAt hnat x hx, length_writeList hf hy]
  · cases h

end

end Wire.Format
