import Hidering.Wire.Varint
import Mathlib.Data.List.Basic

/-!
# Binary formats

A `Format α` is one description of how values of `α` are laid out as bytes, from which both the
writer and the reader come, together with the proofs that the two fit. A serializer that is
written once and run in either direction is exactly such a description, so a concrete format is
obtained by putting the combinators of this file together in the order of its fields, and its
round trip comes for free.

A format may leave data out: a value can carry fields that are not written, and a reader then
fills them with what a fresh object has. `norm` says what becomes of a value that is written and
read back; a format that leaves nothing out is `Faithful`.

Readers take the policy `Eof` that `readVarint` takes. Round trips hold under both; that every
accepted input is the encoding of the value read (`write_read`) holds for the strict one only. The
two agree where the reader does not come to the end of the input (`read_rest`).

## Main definitions

* `Wire.Blob` — byte strings of fixed length
* `Wire.Format`, `Wire.Format.Faithful`
* `Wire.Format.bind`, `seq`, `imap`, `check`, `listN`, `vector`, `variant` — the combinators

## Main results

* `Wire.Format.parse_write` — parsing what was written gives the normal form of the value
* `Wire.Format.write_parse_iff` — among the inputs that the lenient parser accepts, the canonical
  ones are those at whose end the reader stops by itself
-/

namespace Wire

open List

/-! ### Fixed-size byte strings -/

/-- A string of exactly `n` bytes. -/
structure Blob (n : ℕ) where
  /-- the bytes -/
  bytes : Bytes
  /-- there are `n` of them -/
  length_bytes : bytes.length = n

/-- A comparison of bytes as numbers, which evaluates fast. -/
def sameBytes (l l' : Bytes) : Bool := l.isEqv l' fun a b => Nat.beq a.toNat b.toNat

theorem sameBytes_iff {l l' : Bytes} : sameBytes l l' = true ↔ l = l' := by
  induction l generalizing l' with
  | nil => cases l' <;> simp [sameBytes, isEqv]
  | cons a l ih =>
    cases l' with
    | nil => simp [sameBytes, isEqv]
    | cons b l' =>
      have hcons : sameBytes (a :: l) (b :: l') = (Nat.beq a.toNat b.toNat && sameBytes l l') := rfl
      rw [hcons, Bool.and_eq_true, ih, Nat.beq_eq, UInt8.toNat_inj, List.cons.injEq]

namespace Blob

variable {n : ℕ}

theorem ext_bytes {x y : Blob n} (h : x.bytes = y.bytes) : x = y := by
  cases x; cases y; simpa using h

instance : DecidableEq (Blob n) := fun x y =>
  decidable_of_iff (sameBytes x.bytes y.bytes = true)
    (sameBytes_iff.trans ⟨ext_bytes, congrArg bytes⟩)

instance (x : Blob n) (l : List (Blob n)) : Decidable (x ∈ l) :=
  decidable_of_iff (l.any fun y => decide (x = y)) (by simp)

/-- Blobs of one size in front of two strings can be told from what follows. -/
theorem append_inj {a b : Blob n} {x y : Bytes} (h : a.bytes ++ x = b.bytes ++ y) :
    a = b ∧ x = y := by
  obtain ⟨hab, hxy⟩ := List.append_inj h (by rw [a.length_bytes, b.length_bytes])
  exact ⟨ext_bytes hab, hxy⟩

theorem length_zeros (n : ℕ) : (replicate n (0 : UInt8)).length = n := length_replicate

/-- The string of `n` zero bytes, the value of zero-initialised memory. -/
def zero (n : ℕ) : Blob n := ⟨replicate n 0, length_zeros n⟩

instance : Inhabited (Blob n) := ⟨zero n⟩

/-- The first `n` bytes of a list, padded with zeros. -/
def ofList (n : ℕ) (l : Bytes) : Blob n :=
  ⟨(l ++ replicate n 0).take n, by simp⟩

end Blob

/-! ### Formats -/

/-- A layout of values of `α` as bytes, with its writer, its reader, and the laws they keep. -/
structure Format (α : Type) where
  /-- the bytes of a value, if it can be written -/
  write : α → Option Bytes
  /-- read a value from the front of the input and return the rest -/
  read : Eof → Bytes → Option (α × Bytes)
  /-- what remains of a value that is written and read back -/
  norm : α → α
  read_write : ∀ {m a bs} (rest), write a = some bs → read m (bs ++ rest) = some (norm a, rest)
  write_read : ∀ {inp a rest}, read .strict inp = some (a, rest) →
    ∃ bs, write a = some bs ∧ inp = bs ++ rest
  read_rest : ∀ {inp a rest}, read .lenient inp = some (a, rest) → rest ≠ [] →
    read .strict inp = some (a, rest)

namespace Format

variable {α β γ : Type}

/-- Nothing is left out: a value that is written is read back as it was. -/
def Faithful (f : Format α) : Prop := ∀ a, f.norm a = a

/-- Every encoding has at least one byte. -/
def NonemptyCode (f : Format α) : Prop := ∀ {a bs}, f.write a = some bs → 0 < bs.length

/-- Read the whole input: the value at its front, with nothing behind it. -/
def parse (f : Format α) (m : Eof) (inp : Bytes) : Option α :=
  match f.read m inp with
  | some (a, []) => some a
  | _ => none

variable {f : Format α} {a : α} {m : Eof}

theorem parse_eq_some {inp : Bytes} : f.parse m inp = some a ↔ f.read m inp = some (a, []) := by
  rw [parse]
  split
  · next b h => rw [h]; simp
  · next hne =>
    constructor
    · intro h; cases h
    · intro h; exact absurd h (hne a)

variable {bs : Bytes}

/-- **Round trip.** -/
theorem parse_write (f : Format α) (h : f.write a = some bs) : f.parse m bs = some (f.norm a) := by
  rw [parse_eq_some]
  simpa using f.read_write (m := m) [] h

/-- Values with the same bytes are read back alike. -/
theorem norm_eq_of_write (f : Format α) {a b : α} (ha : f.write a = some bs)
    (hb : f.write b = some bs) : f.norm a = f.norm b :=
  Option.some.inj ((f.parse_write (m := .strict) ha).symm.trans (f.parse_write hb))

/-- If nothing is left out, then different values have different encodings. -/
theorem Faithful.write_injective (hf : f.Faithful) {a b : α} (ha : f.write a = some bs)
    (hb : f.write b = some bs) : a = b := by
  have h := f.norm_eq_of_write ha hb
  rwa [hf, hf] at h

/-- What is left of an input is left of it all the more before the read. -/
theorem ne_nil_of_read (f : Format α) {inp rest : Bytes} (h : f.read .strict inp = some (a, rest))
    (hrest : rest ≠ []) : inp ≠ [] := by
  obtain ⟨bs, -, rfl⟩ := f.write_read h
  exact append_ne_nil_of_right_ne_nil bs hrest

/-! ### Elementary formats -/

/-- Data that is not written at all: a reader leaves the value `d` of a fresh object. -/
def skip (d : α) : Format α where
  write _ := some []
  read _ inp := some (d, inp)
  norm _ := d
  read_write rest h := by
    obtain rfl := Option.some.inj h
    rfl
  write_read {inp a rest} h := by
    obtain ⟨rfl, rfl⟩ : d = a ∧ inp = rest := by simpa using h
    exact ⟨[], rfl, rfl⟩
  read_rest h _ := h

/-- A description that neither the writer nor the reader can follow. -/
def fail (α : Type) : Format α where
  write _ := none
  read _ _ := none
  norm a := a
  read_write _ h := by cases h
  write_read h := by cases h
  read_rest h _ := by cases h

/-- One raw byte. -/
def byte : Format UInt8 where
  write b := some [b]
  read _ inp :=
    match inp with
    | [] => none
    | b :: rest => some (b, rest)
  norm b := b
  read_write rest h := by
    obtain rfl := Option.some.inj h
    rfl
  write_read {inp a rest} h := by
    cases inp with
    | nil => cases h
    | cons b inp =>
      obtain ⟨rfl, rfl⟩ : b = a ∧ inp = rest := by simpa using h
      exact ⟨[b], rfl, rfl⟩
  read_rest h _ := h

/-- `n` raw bytes. -/
def blob (n : ℕ) : Format (Blob n) where
  write x := some x.bytes
  read _ inp :=
    if h : n ≤ inp.length then
      some (⟨inp.take n, by rw [length_take, Nat.min_eq_left h]⟩, inp.drop n)
    else none
  norm x := x
  read_write {m x bs} rest h := by
    obtain rfl := Option.some.inj h
    have hlen : n ≤ (x.bytes ++ rest).length := by
      rw [length_append, x.length_bytes]; omega
    rw [dif_pos hlen]
    have htake : (x.bytes ++ rest).take n = x.bytes := take_left' x.length_bytes
    have hdrop : (x.bytes ++ rest).drop n = rest := drop_left' x.length_bytes
    rw [hdrop]
    congr 2
    exact Blob.ext_bytes htake
  write_read {inp x rest} h := by
    split at h
    · obtain ⟨rfl, rfl⟩ := Prod.mk.inj (Option.some.inj h)
      exact ⟨_, rfl, (take_append_drop n inp).symm⟩
    · cases h
  read_rest h _ := h

/-- A variable-length integer of width `bits`, for a type that embeds into the numbers of that
width by `toN`. -/
def varint (bits k : ℕ) (toN : α → ℕ) (ofN : ℕ → α) (hbits : 0 < bits) (hk : bits ≤ 7 * (k + 1))
    (hlt : ∀ a, toN a < 2 ^ bits) (hof : ∀ a, ofN (toN a) = a)
    (hto : ∀ v, v < 2 ^ bits → toN (ofN v) = v) : Format α where
  write a := some (writeVarint k (toN a))
  read m inp := (readVarint bits m inp).map fun r => (ofN r.1, r.2)
  norm a := a
  read_write {m a bs} rest h := by
    obtain rfl := Option.some.inj h
    have hk' : toN a < 128 ^ (k + 1) := by
      calc toN a < 2 ^ bits := hlt a
        _ ≤ 2 ^ (7 * (k + 1)) := Nat.pow_le_pow_right (by norm_num) hk
        _ = 128 ^ (k + 1) := by rw [Nat.pow_mul]
    rw [readVarint_writeVarint hk' (hlt a) hbits, Option.map_some, hof]
  write_read {inp a rest} h := by
    simp only [Option.map_eq_some_iff, Prod.mk.injEq, Prod.exists] at h
    obtain ⟨v, r, hv, rfl, rfl⟩ := h
    exact ⟨_, by rw [hto v (readVarint_lt hv)], writeVarint_of_readVarint hk hv⟩
  read_rest {inp a rest} h hne := by
    simp only [Option.map_eq_some_iff, Prod.mk.injEq, Prod.exists] at h ⊢
    obtain ⟨v, r, hv, rfl, rfl⟩ := h
    exact ⟨v, r, (readVarintAux_lenient hv).resolve_right fun hcut => hne hcut.1, rfl, rfl⟩

/-- A `uint64_t` (or `size_t`) as a variable-length integer. -/
def varint64 : Format UInt64 :=
  varint 64 9 UInt64.toNat UInt64.ofNat (by decide) (by decide) UInt64.toNat_lt
    (fun _ => UInt64.ofNat_toNat) fun _ h => UInt64.toNat_ofNat_of_lt' h

/-- A `uint32_t` as a variable-length integer. -/
def varint32 : Format UInt32 :=
  varint 32 4 UInt32.toNat UInt32.ofNat (by decide) (by decide) UInt32.toNat_lt
    (fun _ => UInt32.ofNat_toNat) fun _ h => UInt32.toNat_ofNat_of_lt' h

/-- A `uint8_t` as a variable-length integer. -/
def varint8 : Format UInt8 :=
  varint 8 1 UInt8.toNat UInt8.ofNat (by decide) (by decide) UInt8.toNat_lt
    (fun _ => UInt8.ofNat_toNat) fun _ h => UInt8.toNat_ofNat_of_lt' h

/-- A `uint32_t` as four bytes, low byte first. -/
def le32 : Format UInt32 where
  write v := some [UInt8.ofNat (v.toNat % 256), UInt8.ofNat (v.toNat / 256 % 256),
    UInt8.ofNat (v.toNat / 65536 % 256), UInt8.ofNat (v.toNat / 16777216)]
  read _ inp :=
    match inp with
    | a :: b :: c :: d :: rest =>
      some (UInt32.ofNat (a.toNat + 256 * b.toNat + 65536 * c.toNat + 16777216 * d.toNat), rest)
    | _ => none
  norm v := v
  read_write {m v bs} rest h := by
    obtain rfl := Option.some.inj h
    have hv := v.toNat_lt
    simp only [cons_append, nil_append, toNat_ofNat_lt (Nat.mod_lt _ (by decide)),
      toNat_ofNat_lt (show v.toNat / 16777216 < 256 by omega)]
    rw [show v.toNat % 256 + 256 * (v.toNat / 256 % 256) + 65536 * (v.toNat / 65536 % 256) +
      16777216 * (v.toNat / 16777216) = v.toNat by omega, UInt32.ofNat_toNat]
  write_read {inp v rest} h := by
    split at h
    · next a b c d rest' =>
      obtain ⟨rfl, rfl⟩ := Prod.mk.inj (Option.some.inj h)
      have ha := a.toNat_lt
      have hb := b.toNat_lt
      have hc := c.toNat_lt
      have hd := d.toNat_lt
      refine ⟨[a, b, c, d], ?_, rfl⟩
      rw [UInt32.toNat_ofNat_of_lt' (by change _ < 4294967296; omega)]
      congr 2
      · exact ofNat_toNat_eq (by omega)
      · congr 1
        · exact ofNat_toNat_eq (by omega)
        · congr 1
          · exact ofNat_toNat_eq (by omega)
          · congr 1
            exact ofNat_toNat_eq (by omega)
    · cases h
  read_rest h _ := h

theorem le32_faithful : le32.Faithful := fun _ => rfl
theorem varint64_faithful : varint64.Faithful := fun _ => rfl
theorem varint32_faithful : varint32.Faithful := fun _ => rfl
theorem varint8_faithful : varint8.Faithful := fun _ => rfl

theorem byte_faithful : byte.Faithful := fun _ => rfl
theorem blob_faithful (n : ℕ) : (blob n).Faithful := fun _ => rfl

theorem byte_nonemptyCode : byte.NonemptyCode := by
  intro a bs h
  obtain rfl := Option.some.inj h
  exact Nat.one_pos

variable {n : ℕ}

theorem blob_nonemptyCode (hn : 0 < n) : (blob n).NonemptyCode := by
  intro a bs h
  obtain rfl := Option.some.inj h
  rw [a.length_bytes]
  exact hn

theorem varint_nonemptyCode {bits k : ℕ} {toN : α → ℕ} {ofN : ℕ → α} {h₁ h₂ h₃ h₄ h₅} :
    (varint bits k toN ofN h₁ h₂ h₃ h₄ h₅).NonemptyCode := by
  intro a bs h
  obtain rfl := Option.some.inj h
  exact length_pos_iff.mpr (writeVarint_ne_nil _ _)

/-! ### Sequencing

The second format may depend on the value of the first, as long as it does not depend on what the
first leaves out. -/

/-- A value, then another one whose layout depends on the first. -/
def bind (f : Format α) (g : α → Format β) (hg : ∀ a, g (f.norm a) = g a) : Format (α × β) where
  write p := (f.write p.1).bind fun x => ((g p.1).write p.2).map fun y => x ++ y
  read m inp := (f.read m inp).bind fun r => ((g r.1).read m r.2).map fun s => ((r.1, s.1), s.2)
  norm p := (f.norm p.1, (g p.1).norm p.2)
  read_write {m p bs} rest h := by
    simp only [Option.bind_eq_some_iff, Option.map_eq_some_iff] at h
    obtain ⟨x, hx, y, hy, rfl⟩ := h
    rw [append_assoc, f.read_write (y ++ rest) hx, Option.bind_some]
    simp only
    rw [hg, (g p.1).read_write rest hy, Option.map_some]
  write_read {inp p rest} h := by
    simp only [Option.bind_eq_some_iff, Option.map_eq_some_iff] at h
    obtain ⟨⟨a, r⟩, ha, ⟨b, s⟩, hb, heq⟩ := h
    obtain ⟨rfl, rfl⟩ := Prod.mk.inj heq
    obtain ⟨x, hx, rfl⟩ := f.write_read ha
    obtain ⟨y, hy, rfl⟩ := (g a).write_read hb
    exact ⟨x ++ y, by simp [hx, hy], (append_assoc ..).symm⟩
  read_rest {inp p rest} h hne := by
    simp only [Option.bind_eq_some_iff, Option.map_eq_some_iff] at h ⊢
    obtain ⟨q, hq, ⟨b, s⟩, hs, heq⟩ := h
    obtain ⟨rfl, rfl⟩ := Prod.mk.inj heq
    have hs := (g q.1).read_rest hs hne
    exact ⟨q, f.read_rest hq ((g q.1).ne_nil_of_read hs hne), _, hs, rfl⟩

/-- A value, then another one of a fixed layout. -/
def seq (f : Format α) (g : Format β) : Format (α × β) :=
  f.bind (fun _ => g) fun _ => rfl

/-- A format for `β` through the part `α` of its values that is written; `ofWire` rebuilds a value
from that part. -/
def imap (f : Format α) (toWire : β → α) (ofWire : α → β) (h : ∀ a, toWire (ofWire a) = a) :
    Format β where
  write b := f.write (toWire b)
  read m inp := (f.read m inp).map fun r => (ofWire r.1, r.2)
  norm b := ofWire (f.norm (toWire b))
  read_write rest hw := by rw [f.read_write rest hw, Option.map_some]
  write_read {inp b rest} hr := by
    simp only [Option.map_eq_some_iff] at hr
    obtain ⟨⟨a, r⟩, ha, heq⟩ := hr
    obtain ⟨rfl, rfl⟩ := Prod.mk.inj heq
    obtain ⟨bs, hbs, rfl⟩ := f.write_read ha
    exact ⟨bs, by rw [h, hbs], rfl⟩
  read_rest {inp b rest} hr hne := by
    simp only [Option.map_eq_some_iff] at hr ⊢
    obtain ⟨⟨a, r⟩, ha, heq⟩ := hr
    obtain ⟨rfl, rfl⟩ := Prod.mk.inj heq
    exact ⟨_, f.read_rest ha hne, rfl⟩

/-- A format with a test on the value: the writer and the reader fail where it does not hold. -/
def check (f : Format α) (p : α → Bool) (hp : ∀ a, p (f.norm a) = p a) : Format α where
  write a := if p a then f.write a else none
  read m inp := (f.read m inp).bind fun r => if p r.1 then some r else none
  norm := f.norm
  read_write {m a bs} rest h := by
    split at h
    · next ha => rw [f.read_write rest h, Option.bind_some, hp, if_pos ha]
    · cases h
  write_read {inp a rest} h := by
    simp only [Option.bind_eq_some_iff] at h
    obtain ⟨r, hr, hif⟩ := h
    split at hif
    · next ha =>
      obtain rfl := Option.some.inj hif
      rw [if_pos ha]
      exact f.write_read hr
    · cases hif
  read_rest {inp a rest} h hne := by
    simp only [Option.bind_eq_some_iff] at h ⊢
    obtain ⟨r, hr, hif⟩ := h
    split at hif
    · next ha =>
      obtain rfl := Option.some.inj hif
      exact ⟨_, f.read_rest hr hne, if_pos ha⟩
    · cases hif

@[simp] theorem seq_norm (f : Format α) (g : Format β) (p : α × β) :
    (f.seq g).norm p = (f.norm p.1, g.norm p.2) := rfl

@[simp] theorem skip_norm (d a : α) : (skip d).norm a = d := rfl

variable {g : Format β}

theorem seq_eq_some {p : α × β} :
    (f.seq g).write p = some bs ↔
      ∃ x, f.write p.1 = some x ∧ ∃ y, g.write p.2 = some y ∧ x ++ y = bs := by
  simp only [seq, bind, Option.bind_eq_some_iff, Option.map_eq_some_iff]

theorem isSome_seq {p : α × β} :
    ((f.seq g).write p).isSome ↔ (f.write p.1).isSome ∧ (g.write p.2).isSome := by
  simp only [Option.isSome_iff_exists, seq_eq_some]
  constructor
  · rintro ⟨bs, x, hx, y, hy, -⟩; exact ⟨⟨x, hx⟩, y, hy⟩
  · rintro ⟨⟨x, hx⟩, y, hy⟩; exact ⟨_, x, hx, y, hy, rfl⟩

theorem bind_faithful {g : α → Format β} {hg} (hf : f.Faithful)
    (h : ∀ a, (g a).Faithful) : (f.bind g hg).Faithful := fun p =>
  Prod.ext (hf p.1) (h p.1 p.2)

theorem seq_faithful (hf : f.Faithful) (hg : g.Faithful) : (f.seq g).Faithful :=
  bind_faithful hf fun _ => hg

theorem imap_faithful {toWire : β → α} {ofWire : α → β} {h} (hf : f.Faithful)
    (hof : ∀ b, ofWire (toWire b) = b) : (f.imap toWire ofWire h).Faithful := fun b =>
  (congrArg ofWire (hf (toWire b))).trans (hof b)

theorem check_faithful {p : α → Bool} {hp} (hf : f.Faithful) : (f.check p hp).Faithful := hf

theorem bind_nonemptyCode_left {g : α → Format β} {hg} (hf : f.NonemptyCode) :
    (f.bind g hg).NonemptyCode := by
  intro p bs h
  obtain ⟨x, hx, y, -, rfl⟩ : ∃ x, f.write p.1 = some x ∧ ∃ y, (g p.1).write p.2 = some y ∧
      x ++ y = bs := by
    simpa only [bind, Option.bind_eq_some_iff, Option.map_eq_some_iff] using h
  have := hf hx
  rw [length_append]
  omega

theorem seq_nonemptyCode_left (hf : f.NonemptyCode) : (f.seq g).NonemptyCode :=
  bind_nonemptyCode_left hf

theorem check_nonemptyCode {p : α → Bool} {hp} (hf : f.NonemptyCode) :
    (f.check p hp).NonemptyCode := by
  intro a bs h
  simp only [check] at h
  split at h
  · exact hf h
  · cases h

theorem imap_nonemptyCode {toWire : β → α} {ofWire : α → β} {h}
    (hf : f.NonemptyCode) : (f.imap toWire ofWire h).NonemptyCode := fun hw => hf hw

/-! ### Lists

A list either has a length known from elsewhere (`listN`) or carries it in front (`vector`). -/

/-- The elements of a list, one after another. -/
def writeList (f : Format α) : List α → Option Bytes
  | [] => some []
  | a :: as => (f.write a).bind fun x => (writeList f as).map fun y => x ++ y

/-- `n` elements, one after another. -/
def readList (f : Format α) (m : Eof) : ℕ → Bytes → Option (List α × Bytes)
  | 0, inp => some ([], inp)
  | n + 1, inp =>
    (f.read m inp).bind fun r => (readList f m n r.2).map fun s => (r.1 :: s.1, s.2)

variable {as : List α}

theorem writeList_cons_eq_some :
    writeList f (a :: as) = some bs ↔
      ∃ x, f.write a = some x ∧ ∃ y, writeList f as = some y ∧ x ++ y = bs := by
  simp only [writeList, Option.bind_eq_some_iff, Option.map_eq_some_iff]

theorem isSome_writeList : (writeList f as).isSome ↔ ∀ a ∈ as, (f.write a).isSome := by
  induction as with
  | nil => simp [writeList]
  | cons a as ih =>
    rw [forall_mem_cons, ← ih]
    simp only [Option.isSome_iff_exists, writeList_cons_eq_some]
    constructor
    · rintro ⟨bs, x, hx, y, hy, -⟩; exact ⟨⟨x, hx⟩, y, hy⟩
    · rintro ⟨⟨x, hx⟩, y, hy⟩; exact ⟨_, x, hx, y, hy, rfl⟩

/-- The elements are written one by one. -/
theorem writeList_of_forall {g : α → Bytes}
    (h : ∀ a ∈ as, f.write a = some (g a)) : writeList f as = some (as.flatMap g) := by
  induction as with
  | nil => rfl
  | cons a as ih =>
    rw [forall_mem_cons] at h
    rw [writeList, h.1, ih h.2]
    rfl

/-- A change of the elements that is not written. -/
theorem writeList_map {g : α → α} (h : ∀ a, f.write (g a) = f.write a)
    (as : List α) : writeList f (as.map g) = writeList f as := by
  induction as with
  | nil => rfl
  | cons a as ih => rw [map_cons, writeList, writeList, h, ih]

variable {inp rest : Bytes}

theorem readList_succ_eq_some {l : List α} :
    readList f m (n + 1) inp = some (l, rest) ↔
      ∃ a r, f.read m inp = some (a, r) ∧ ∃ as, readList f m n r = some (as, rest) ∧
        l = a :: as := by
  simp only [readList, Option.bind_eq_some_iff, Option.map_eq_some_iff, Prod.exists,
    Prod.mk.injEq]
  constructor
  · rintro ⟨a, r, ha, as, s, has, rfl, rfl⟩
    exact ⟨a, r, ha, as, has, rfl⟩
  · rintro ⟨a, r, ha, as, has, rfl⟩
    exact ⟨a, r, ha, as, rest, has, rfl, rfl⟩

theorem readList_writeList (f : Format α) (rest : Bytes) (h : writeList f as = some bs) :
    readList f m as.length (bs ++ rest) = some (as.map f.norm, rest) := by
  induction as generalizing bs with
  | nil =>
    obtain rfl := Option.some.inj h
    rfl
  | cons a as ih =>
    obtain ⟨x, hx, y, hy, rfl⟩ := writeList_cons_eq_some.mp h
    rw [length_cons, readList_succ_eq_some, append_assoc]
    exact ⟨_, _, f.read_write (y ++ rest) hx, _, ih hy, rfl⟩

theorem writeList_readList (f : Format α) (h : readList f .strict n inp = some (as, rest)) :
    ∃ bs, writeList f as = some bs ∧ inp = bs ++ rest := by
  induction n generalizing as inp with
  | zero =>
    obtain ⟨rfl, rfl⟩ : [] = as ∧ inp = rest := by simpa [readList] using h
    exact ⟨[], rfl, rfl⟩
  | succ n ih =>
    obtain ⟨a, r, ha, as', has, rfl⟩ := readList_succ_eq_some.mp h
    obtain ⟨x, hx, rfl⟩ := f.write_read ha
    obtain ⟨y, hy, rfl⟩ := ih has
    exact ⟨x ++ y, writeList_cons_eq_some.mpr ⟨x, hx, y, hy, rfl⟩, (append_assoc ..).symm⟩

theorem ne_nil_of_readList (f : Format α) (h : readList f .strict n inp = some (as, rest))
    (hrest : rest ≠ []) : inp ≠ [] := by
  obtain ⟨bs, -, rfl⟩ := writeList_readList f h
  exact append_ne_nil_of_right_ne_nil bs hrest

theorem readList_rest (f : Format α) (h : readList f .lenient n inp = some (as, rest))
    (hrest : rest ≠ []) : readList f .strict n inp = some (as, rest) := by
  induction n generalizing as inp with
  | zero => exact h
  | succ n ih =>
    obtain ⟨a, r, ha, as', has, rfl⟩ := readList_succ_eq_some.mp h
    have has := ih has
    exact readList_succ_eq_some.mpr
      ⟨a, r, f.read_rest ha (ne_nil_of_readList f has hrest), as', has, rfl⟩

theorem length_of_readList (f : Format α)
    (h : readList f m n inp = some (as, rest)) : as.length = n := by
  induction n generalizing as inp with
  | zero =>
    obtain ⟨rfl, -⟩ : [] = as ∧ inp = rest := by simpa [readList] using h
    rfl
  | succ n ih =>
    obtain ⟨a, r, -, as', has, rfl⟩ := readList_succ_eq_some.mp h
    rw [length_cons, ih has]

/-- A list of elements with nonempty codes is no longer than its encoding. -/
theorem length_le_writeList (hf : f.NonemptyCode)
    (h : writeList f as = some bs) : as.length ≤ bs.length := by
  induction as generalizing bs with
  | nil => exact Nat.zero_le _
  | cons a as ih =>
    obtain ⟨x, hx, y, hy, rfl⟩ := writeList_cons_eq_some.mp h
    have := hf hx
    have := ih hy
    rw [length_cons, length_append]
    omega

theorem map_norm_eq (hf : f.Faithful) (as : List α) : as.map f.norm = as := by
  rw [show f.norm = id from funext hf, map_id]

/-- A list of exactly `n` elements, without a length in front of it. -/
def listN (f : Format α) (n : ℕ) : Format (List α) where
  write as := if as.length = n then writeList f as else none
  read m inp := readList f m n inp
  norm as := as.map f.norm
  read_write {m as bs} rest h := by
    split at h
    · next hn => rw [← hn]; exact readList_writeList f rest h
    · cases h
  write_read {inp as rest} h := by
    rw [if_pos (length_of_readList f h)]
    exact writeList_readList f h
  read_rest h hne := readList_rest f h hne

theorem listN_write_map {g : α → α} (h : ∀ a, f.write (g a) = f.write a) (n : ℕ)
    (as : List α) : (listN f n).write (as.map g) = (listN f n).write as := by
  simp only [listN, length_map, writeList_map h]

@[simp] theorem listN_norm (f : Format α) (n : ℕ) (as : List α) :
    (listN f n).norm as = as.map f.norm := rfl

theorem listN_faithful (hf : f.Faithful) : (listN f n).Faithful :=
  map_norm_eq hf

/-- A list with its length in front. The reader refuses a length that exceeds the number of bytes
left before it reads any element. -/
def vector (f : Format α) (hf : f.NonemptyCode) : Format (List α) where
  write as :=
    if as.length < 2 ^ 64 then
      (varint64.write (UInt64.ofNat as.length)).bind fun x => (writeList f as).map fun y => x ++ y
    else none
  read m inp := (varint64.read m inp).bind fun r =>
    if r.2.length < r.1.toNat then none else readList f m r.1.toNat r.2
  norm as := as.map f.norm
  read_write {m as bs} rest h := by
    split at h
    · next hfit =>
      simp only [Option.bind_eq_some_iff, Option.map_eq_some_iff] at h
      obtain ⟨x, hx, y, hy, rfl⟩ := h
      have hlen : ¬ (y ++ rest).length < as.length := by
        have := length_le_writeList hf hy
        rw [length_append]
        omega
      rw [append_assoc, varint64.read_write (y ++ rest) hx, Option.bind_some,
        varint64_faithful]
      simp only
      rw [UInt64.toNat_ofNat_of_lt' hfit, if_neg hlen, readList_writeList f rest hy]
    · cases h
  write_read {inp as rest} h := by
    simp only [Option.bind_eq_some_iff] at h
    obtain ⟨⟨n, r⟩, hn, hif⟩ := h
    split at hif
    · cases hif
    · obtain ⟨x, hx, rfl⟩ := varint64.write_read hn
      obtain ⟨y, hy, hr⟩ := writeList_readList f hif
      simp only at hr
      subst hr
      refine ⟨x ++ y, ?_, (append_assoc ..).symm⟩
      rw [length_of_readList f hif, if_pos n.toNat_lt, UInt64.ofNat_toNat, hx, Option.bind_some,
        hy, Option.map_some]
  read_rest {inp as rest} h hne := by
    simp only [Option.bind_eq_some_iff] at h ⊢
    obtain ⟨q, hq, hif⟩ := h
    split at hif
    · cases hif
    · next hlen =>
      have hread := readList_rest f hif hne
      refine ⟨q, varint64.read_rest hq (ne_nil_of_readList f hread hne), ?_⟩
      rw [if_neg hlen, hread]

theorem isSome_vector {hf : f.NonemptyCode} :
    ((vector f hf).write as).isSome ↔ as.length < 2 ^ 64 ∧ ∀ a ∈ as, (f.write a).isSome := by
  rw [← isSome_writeList]
  simp only [vector]
  split
  · next hfit =>
    have hcount : varint64.write (UInt64.ofNat as.length) =
      some (writeVarint 9 (UInt64.ofNat as.length).toNat) := rfl
    rw [hcount, Option.bind_some, Option.isSome_map, and_iff_right hfit]
  · next hfit => exact iff_of_false Bool.false_ne_true fun h => hfit h.1

/-- The length in front, then the elements one by one. -/
theorem vector_write_of_forall {hne} {g : α → Bytes} (hfit : as.length < 2 ^ 64)
    (h : ∀ a ∈ as, f.write a = some (g a)) :
    (vector f hne).write as = some (writeVarint 9 as.length ++ as.flatMap g) := by
  have hcount : varint64.write (UInt64.ofNat as.length) = some (writeVarint 9 as.length) := by
    change some (writeVarint 9 (UInt64.ofNat as.length).toNat) = _
    rw [UInt64.toNat_ofNat_of_lt' hfit]
  simp only [vector, if_pos hfit, hcount, Option.bind_some, writeList_of_forall h, Option.map_some]

/-- A string of bytes with its length in front. -/
theorem vector_byte_write {l : Bytes} (h : l.length < 2 ^ 64) :
    (vector byte byte_nonemptyCode).write l = some (writeVarint 9 l.length ++ l) := by
  have hwrite : (vector byte byte_nonemptyCode).write l = _ :=
    vector_write_of_forall (g := fun b => [b]) h fun _ _ => rfl
  rwa [flatMap_singleton'] at hwrite

theorem vector_nonemptyCode {hne} : (vector f hne).NonemptyCode := by
  intro as bs h
  simp only [vector] at h
  split at h
  · simp only [Option.bind_eq_some_iff, Option.map_eq_some_iff] at h
    obtain ⟨x, hx, y, -, rfl⟩ := h
    rw [length_append]
    exact Nat.add_pos_left (varint_nonemptyCode hx) _
  · cases h

theorem vector_faithful {hne} (hf : f.Faithful) : (vector f hne).Faithful :=
  map_norm_eq hf

theorem length_le_vector_write {hne}
    (h : (vector f hne).write as = some bs) : as.length ≤ bs.length := by
  simp only [vector] at h
  split at h
  · simp only [Option.bind_eq_some_iff, Option.map_eq_some_iff] at h
    obtain ⟨x, -, y, hy, rfl⟩ := h
    have := length_le_writeList hne hy
    rw [length_append]
    omega
  · cases h

/-! ### Variants

A value of one of several types, with a tag byte in front that names the type. The reader goes
through the alternatives until one has the tag it read; the writer until one holds the value. -/

/-- One alternative of a variant type `α`. -/
structure Case (α : Type) where
  /-- the byte in front of values of this alternative -/
  tag : UInt8
  /-- the type of the alternative -/
  carrier : Type
  /-- the layout behind the tag -/
  fmt : Format carrier
  /-- the alternative as values of the variant -/
  inj : carrier → α
  /-- the content of a value of this alternative -/
  proj : α → Option carrier
  proj_inj : ∀ b, proj (inj b) = some b
  inj_of_proj : ∀ {a b}, proj a = some b → inj b = a

/-- The tag and the content of a value. -/
def writeVariant : List (Case α) → α → Option Bytes
  | [], _ => none
  | c :: cs, a =>
    match c.proj a with
    | some b => (c.fmt.write b).map fun x => c.tag :: x
    | none => writeVariant cs a

/-- The content of the alternative that has tag `t`. -/
def readVariant (m : Eof) (t : UInt8) : List (Case α) → Bytes → Option (α × Bytes)
  | [], _ => none
  | c :: cs, inp =>
    if c.tag = t then (c.fmt.read m inp).map fun r => (c.inj r.1, r.2)
    else readVariant m t cs inp

/-- The normal form of a value of a variant is that of its content. -/
def normVariant : List (Case α) → α → α
  | [], a => a
  | c :: cs, a =>
    match c.proj a with
    | some b => c.inj (c.fmt.norm b)
    | none => normVariant cs a

variable {cs : List (Case α)}

theorem readVariant_writeVariant (htag : (cs.map Case.tag).Nodup)
    (h : writeVariant cs a = some bs) :
    ∃ t body, bs = t :: body ∧ t ∈ cs.map Case.tag ∧
      ∀ rest, readVariant m t cs (body ++ rest) = some (normVariant cs a, rest) := by
  induction cs generalizing bs with
  | nil => cases h
  | cons c cs ih =>
    rw [map_cons, nodup_cons] at htag
    rw [writeVariant] at h
    split at h
    · next b hb =>
      obtain ⟨x, hx, rfl⟩ := Option.map_eq_some_iff.mp h
      refine ⟨c.tag, x, rfl, mem_cons_self, fun rest => ?_⟩
      rw [readVariant, if_pos rfl, c.fmt.read_write rest hx, Option.map_some, normVariant, hb]
    · next hb =>
      obtain ⟨t, body, rfl, ht, hread⟩ := ih htag.2 h
      refine ⟨t, body, rfl, mem_cons_of_mem _ ht, fun rest => ?_⟩
      have hne : c.tag ≠ t := fun heq => htag.1 (heq ▸ ht)
      rw [readVariant, if_neg hne, hread rest, normVariant, hb]

theorem writeVariant_readVariant {t : UInt8}
    (hdisj : cs.Pairwise fun c d => ∀ b, c.proj (d.inj b) = none)
    (h : readVariant .strict t cs inp = some (a, rest)) :
    ∃ body, writeVariant cs a = some (t :: body) ∧ inp = body ++ rest ∧
      ∃ c ∈ cs, ∃ b, a = c.inj b := by
  induction cs with
  | nil => cases h
  | cons c cs ih =>
    rw [pairwise_cons] at hdisj
    rw [readVariant] at h
    split at h
    · next ht =>
      obtain ⟨⟨b, r⟩, hb, heq⟩ := Option.map_eq_some_iff.mp h
      obtain ⟨rfl, rfl⟩ := Prod.mk.inj heq
      obtain ⟨x, hx, rfl⟩ := c.fmt.write_read hb
      refine ⟨x, ?_, rfl, c, mem_cons_self, b, rfl⟩
      rw [writeVariant, c.proj_inj, ← ht]
      simp [hx]
    · obtain ⟨body, hbody, hinp, d, hd, b, rfl⟩ := ih hdisj.2 h
      refine ⟨body, ?_, hinp, d, mem_cons_of_mem _ hd, b, rfl⟩
      rw [writeVariant, hdisj.1 d hd b, hbody]

theorem readVariant_rest {t : UInt8} (h : readVariant .lenient t cs inp = some (a, rest))
    (hrest : rest ≠ []) : readVariant .strict t cs inp = some (a, rest) := by
  induction cs with
  | nil => cases h
  | cons c cs ih =>
    rw [readVariant] at h ⊢
    split at h
    · next ht =>
      obtain ⟨⟨b, r⟩, hb, heq⟩ := Option.map_eq_some_iff.mp h
      obtain ⟨rfl, rfl⟩ := Prod.mk.inj heq
      rw [if_pos ht, c.fmt.read_rest hb hrest, Option.map_some]
    · next ht => rw [if_neg ht, ih h]

/-- A value of one of the alternatives `cs`, behind the tag of its alternative. -/
def variant (cs : List (Case α)) (htag : (cs.map Case.tag).Nodup)
    (hdisj : cs.Pairwise fun c d => ∀ b, c.proj (d.inj b) = none) : Format α where
  write a := writeVariant cs a
  read m inp :=
    match inp with
    | [] => none
    | t :: rest => readVariant m t cs rest
  norm a := normVariant cs a
  read_write rest h := by
    obtain ⟨t, body, rfl, -, hread⟩ := readVariant_writeVariant htag h
    exact hread rest
  write_read {inp a rest} h := by
    cases inp with
    | nil => cases h
    | cons t inp =>
      obtain ⟨body, hbody, rfl, -⟩ := writeVariant_readVariant hdisj h
      exact ⟨t :: body, hbody, rfl⟩
  read_rest {inp a rest} h hne := by
    cases inp with
    | nil => cases h
    | cons t inp => exact readVariant_rest h hne

theorem variant_nonemptyCode {ht hd} : (variant cs ht hd).NonemptyCode := by
  intro a bs h
  obtain ⟨t, body, rfl, -⟩ := readVariant_writeVariant (m := .strict) ht h
  exact Nat.succ_pos _

theorem variant_faithful {ht hd} (h : ∀ c ∈ cs, c.fmt.Faithful) : (variant cs ht hd).Faithful := by
  intro a
  change normVariant cs a = a
  clear ht hd
  induction cs with
  | nil => rfl
  | cons c cs ih =>
    rw [normVariant]
    split
    · next b hb => rw [h c mem_cons_self, c.inj_of_proj hb]
    · exact ih fun d hd => h d (mem_cons_of_mem _ hd)

end Format

end Wire
