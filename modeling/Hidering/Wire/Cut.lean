import Hidering.Wire.Format

/-!
# What the end of the input cuts off

A variable-length integer that is read leniently ends where the input ends. Such a number has no
encoding that gives back the bytes that were read. This file says where that can happen: not in
fixed-size strings, not in numbers with something behind them, and in a list only if the list is
empty.

## Main definitions

* `Wire.Format.Solid` — nothing is cut off

## Main results

* `Wire.Format.varint64_lenient`, `Wire.Format.vector_lenient` — the two ways to read
* `Wire.Format.varint64_seq_solid`
-/

namespace Wire

/-! ### Numbers -/

/-- The last byte of a number announces no other one. -/
theorem exists_mem_writeVarint_lt {k n : ℕ} (h : n < 128 ^ (k + 1)) :
    ∃ b ∈ writeVarint k n, b.toNat < 128 := by
  induction k generalizing n with
  | zero =>
    refine ⟨UInt8.ofNat n, by simp [writeVarint], ?_⟩
    rw [UInt8.toNat_ofNat']
    omega
  | succ k ih =>
    rw [writeVarint]
    split
    · next hn => exact ⟨UInt8.ofNat n, by simp, by rw [UInt8.toNat_ofNat']; omega⟩
    · obtain ⟨b, hb, hlt⟩ := @ih (n / 128) (Nat.div_lt_of_lt_mul (by rwa [pow_succ'] at h))
      exact ⟨b, List.mem_cons_of_mem _ hb, hlt⟩

/-! ### Formats -/

namespace Format

variable {α β : Type}

/-- A value that is read leniently is also read strictly: the end of the input cuts nothing off. -/
def Solid (f : Format α) : Prop :=
  ∀ {inp r}, f.read .lenient inp = some r → f.read .strict inp = some r

theorem blob_solid (n : ℕ) : (blob n).Solid := id

theorem byte_solid : byte.Solid := id

variable {f : Format α}

theorem seq_solid {g : Format β} (hf : f.Solid) (hg : g.Solid) : (f.seq g).Solid := by
  intro inp r h
  simp only [seq, bind, Option.bind_eq_some_iff, Option.map_eq_some_iff] at h ⊢
  obtain ⟨a, ha, b, hb, rfl⟩ := h
  exact ⟨a, hf ha, b, hg hb, rfl⟩

theorem imap_solid {toWire : β → α} {ofWire : α → β} {h} (hf : f.Solid) :
    (f.imap toWire ofWire h).Solid := by
  intro inp r hr
  simp only [imap, Option.map_eq_some_iff] at hr ⊢
  obtain ⟨a, ha, rfl⟩ := hr
  exact ⟨a, hf ha, rfl⟩

variable {inp rest : Bytes}

theorem varint64_lenient {v : UInt64} (h : varint64.read .lenient inp = some (v, rest)) :
    varint64.read .strict inp = some (v, rest) ∨ rest = [] ∧ ∀ b ∈ inp, 128 ≤ b.toNat := by
  simp only [varint64, varint, Option.map_eq_some_iff, Prod.mk.injEq, Prod.exists] at h ⊢
  obtain ⟨n, r, hn, rfl, rfl⟩ := h
  exact (readVarintAux_lenient hn).imp_left fun hs => ⟨n, r, hs, rfl, rfl⟩

/-- A number in front of a value that takes at least one byte is not cut off. -/
theorem varint64_seq_solid {g : Format β} (hg : g.Solid) (hne : g.NonemptyCode) :
    (varint64.seq g).Solid := by
  intro inp r h
  simp only [seq, bind, Option.bind_eq_some_iff, Option.map_eq_some_iff] at h ⊢
  obtain ⟨⟨v, rest⟩, hv, b, hb, rfl⟩ := h
  rcases varint64_lenient hv with hs | ⟨rfl, -⟩
  · exact ⟨_, hs, b, hg hb, rfl⟩
  · obtain ⟨bs, hbs, hnil⟩ := g.write_read (hg hb)
    have := hne hbs
    simp_all

theorem readList_solid (hf : f.Solid) {n : ℕ} {as : List α}
    (h : readList f .lenient n inp = some (as, rest)) :
    readList f .strict n inp = some (as, rest) := by
  induction n generalizing as inp with
  | zero => exact h
  | succ n ih =>
    obtain ⟨a, r, ha, as', has, rfl⟩ := readList_succ_eq_some.mp h
    exact readList_succ_eq_some.mpr ⟨a, r, hf ha, as', ih has, rfl⟩

/-- A list is read strictly, or its length is cut off and it is empty. -/
theorem vector_lenient {hf} (hsolid : f.Solid) {as : List α}
    (h : (vector f hf).read .lenient inp = some (as, rest)) :
    (vector f hf).read .strict inp = some (as, rest) ∨
      as = [] ∧ rest = [] ∧ ∀ b ∈ inp, 128 ≤ b.toNat := by
  simp only [vector, Option.bind_eq_some_iff] at h ⊢
  obtain ⟨⟨n, r⟩, hn, hif⟩ := h
  split at hif
  · cases hif
  · next hlen =>
    rcases varint64_lenient hn with hs | ⟨rfl, hall⟩
    · refine .inl ⟨_, hs, ?_⟩
      rw [if_neg hlen]
      exact readList_solid hsolid hif
    · have hzero : n.toNat = 0 := by simpa using hlen
      rw [hzero] at hif
      obtain ⟨rfl, rfl⟩ : [] = as ∧ [] = rest := by simpa [readList] using hif
      exact .inr ⟨rfl, rfl, hall⟩

end Format

end Wire
