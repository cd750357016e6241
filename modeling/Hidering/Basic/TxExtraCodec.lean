import Hidering.Basic.TxExtra
import Hidering.Wire.Cut

/-!
# The extra field is read canonically, up to its end

`tx_extra_field` has a writer as well. What `parse_tx_extra` accepts is what the writer gives back,
with one exception: the number in front of a nonce, a list of public keys or a `minergate` field may
be cut off by the end of the buffer. It then counts as 0, and the field as an empty one. A single
byte `0x02` is read as an empty nonce, which is written as `0x02 0x00`.

The other direction has no exception: fields that can be written are read back, if padding comes
last.

## Main definitions

* `Hidering.writeTxExtraField`, `Hidering.writeTxExtra`
* `Hidering.TxExtraField.isEmptyVector` — the fields that may be cut off

## Main results

* `Hidering.readTxExtraField_cases` — one field
* `Hidering.txExtra_canonical_iff`
-/

namespace Hidering

open Wire Wire.Format List

/-! ### Writing -/

/-- The writer of `tx_extra_field`: the tag and, behind it, the field. -/
def writeTxExtraField : TxExtraField → Option Bytes
  | .padding size =>
    if txExtraPaddingMaxCount < size then none else some (0x00 :: replicate (size - 1) 0)
  | .pubKey key => (keyFormat.write key).map (0x01 :: ·)
  | .nonce nonce =>
    if txExtraNonceMaxCount < nonce.length then none
    else (bytesFormat.write nonce).map (0x02 :: ·)
  | .mergeMiningTag depth merkleRoot =>
    ((varint64.seq keyFormat).write (depth, merkleRoot)).bind fun field =>
      (bytesFormat.write field).map (0x03 :: ·)
  | .additionalPubKeys data => (keysFormat.write data).map (0x04 :: ·)
  | .mysteriousMinergate data => (bytesFormat.write data).map (0xde :: ·)
  | .pqSig sig => (authFormat.write sig).map (0x06 :: ·)
  | .kyberCt outputIndex selTag ct =>
    (kyberCtFormat.write (outputIndex, selTag, ct)).map (0x07 :: ·)
  | .pqBind outputIndex bindTag => (pqBindFormat.write (outputIndex, bindTag)).map (0x08 :: ·)

/-- The fields one after another. -/
def writeTxExtra : List TxExtraField → Option Bytes
  | [] => some []
  | f :: fs => (writeTxExtraField f).bind fun x => (writeTxExtra fs).map fun y => x ++ y

/-- A nonce, a list of keys or a `minergate` field without content. -/
def TxExtraField.isEmptyVector : TxExtraField → Bool
  | .nonce n => n.isEmpty
  | .additionalPubKeys data => data.isEmpty
  | .mysteriousMinergate data => data.isEmpty
  | _ => false

/-! ### One field -/

theorem keyFormat_solid : keyFormat.Solid := blob_solid 32

theorem depthRoot_solid : (varint64.seq keyFormat).Solid :=
  varint64_seq_solid keyFormat_solid keyFormat_nonemptyCode

theorem kyberCtFormat_solid : kyberCtFormat.Solid :=
  varint64_seq_solid (seq_solid (blob_solid 8) (blob_solid _))
    (seq_nonemptyCode_left (blob_nonemptyCode (by decide)))

theorem kyberCtFormat_faithful : kyberCtFormat.Faithful :=
  seq_faithful varint64_faithful (seq_faithful (blob_faithful 8) (blob_faithful _))

theorem pqBindFormat_faithful : pqBindFormat.Faithful :=
  seq_faithful varint64_faithful keyFormat_faithful

theorem authFormat_faithful : authFormat.Faithful :=
  imap_faithful (seq_faithful (blob_faithful _) (blob_faithful _)) fun _ => rfl

theorem authFormat_solid : authFormat.Solid :=
  imap_solid (seq_solid (blob_solid _) (blob_solid _))

section

variable {α : Type} {fmt : Format α} {tag : UInt8} {inp rest : Bytes} {f : TxExtraField}

/-- A field whose layout is solid is read as it is written. -/
theorem write_of_solid (mk : α → TxExtraField) (hsolid : fmt.Solid)
    (hmk : ∀ a, writeTxExtraField (mk a) = (fmt.write a).map (tag :: ·))
    (h : ((fmt.read .lenient inp).map fun r => (mk r.1, r.2)) = some (f, rest)) :
    ∃ bs, writeTxExtraField f = some (tag :: bs) ∧ inp = bs ++ rest := by
  obtain ⟨⟨a, r⟩, hread, heq⟩ := Option.map_eq_some_iff.mp h
  obtain ⟨rfl, rfl⟩ := Prod.mk.inj heq
  obtain ⟨bs, hbs, hinp⟩ := fmt.write_read (hsolid hread)
  exact ⟨bs, by rw [hmk, hbs]; rfl, hinp⟩

/-- A field that is a list is read as it is written, or it is empty and its length is cut off. -/
theorem write_of_vector (mk : List α → TxExtraField) {hf : fmt.NonemptyCode} (hsolid : fmt.Solid)
    (hmk : ∀ as, writeTxExtraField (mk as) = ((vector fmt hf).write as).map (tag :: ·))
    (h : (((vector fmt hf).read .lenient inp).map fun r => (mk r.1, r.2)) = some (f, rest)) :
    (∃ bs, writeTxExtraField f = some (tag :: bs) ∧ inp = bs ++ rest) ∨
      f = mk [] ∧ rest = [] ∧ ∀ b ∈ inp, 128 ≤ b.toNat := by
  obtain ⟨⟨as, r⟩, hread, heq⟩ := Option.map_eq_some_iff.mp h
  obtain ⟨rfl, rfl⟩ := Prod.mk.inj heq
  rcases vector_lenient hsolid hread with hs | ⟨rfl, rfl, hall⟩
  · obtain ⟨bs, hbs, hinp⟩ := (vector fmt hf).write_read hs
    exact .inl ⟨bs, by rw [hmk, hbs]; rfl, hinp⟩
  · exact .inr ⟨rfl, rfl, hall⟩

theorem write_of_readPadding (h : readPadding inp = some (f, rest)) :
    writeTxExtraField f = some (0x00 :: inp) ∧ rest = [] := by
  rw [readPadding] at h
  split at h
  · next hzero =>
    obtain ⟨rfl, rfl⟩ := Prod.mk.inj (Option.some.inj h)
    have hlen : ¬ txExtraPaddingMaxCount < inp.length + 1 := by omega
    have hrep : replicate inp.length 0 = inp :=
      (eq_replicate_of_mem fun b hb => by simpa using all_eq_true.mp hzero.1 b hb).symm
    exact ⟨by rw [writeTxExtraField, if_neg hlen, Nat.add_sub_cancel, hrep], rfl⟩
  · cases h

theorem write_of_readNonce (h : readNonce inp = some (f, rest)) :
    (∃ bs, writeTxExtraField f = some (0x02 :: bs) ∧ inp = bs ++ rest) ∨
      f = .nonce [] ∧ rest = [] ∧ ∀ b ∈ inp, 128 ≤ b.toNat := by
  obtain ⟨⟨n, r⟩, hread, hif⟩ := Option.bind_eq_some_iff.mp h
  split at hif
  · cases hif
  · next hlen =>
    obtain ⟨rfl, rfl⟩ := Prod.mk.inj (Option.some.inj hif)
    rcases vector_lenient byte_solid hread with hs | ⟨rfl, rfl, hall⟩
    · obtain ⟨bs, hbs, hinp⟩ := bytesFormat.write_read hs
      exact .inl ⟨bs, by rw [writeTxExtraField, if_neg hlen, hbs]; rfl, hinp⟩
    · exact .inr ⟨rfl, rfl, hall⟩

/-- The string of a merge-mining tag holds more than nothing, so that its length is not cut off. -/
theorem write_of_readMergeMiningTag (h : readMergeMiningTag inp = some (f, rest)) :
    ∃ bs, writeTxExtraField f = some (0x03 :: bs) ∧ inp = bs ++ rest := by
  obtain ⟨⟨field, r⟩, hread, hmap⟩ := Option.bind_eq_some_iff.mp h
  obtain ⟨⟨depth, root⟩, hparse, heq⟩ := Option.map_eq_some_iff.mp hmap
  obtain ⟨rfl, rfl⟩ := Prod.mk.inj heq
  obtain ⟨bs', hbs', hfield⟩ :=
    (varint64.seq keyFormat).write_read (depthRoot_solid (parse_eq_some.mp hparse))
  rw [append_nil] at hfield
  subst hfield
  rcases vector_lenient byte_solid hread with hs | ⟨hnil, -, -⟩
  · obtain ⟨bs, hbs, hinp⟩ := bytesFormat.write_read hs
    exact ⟨bs, by rw [writeTxExtraField, hbs', Option.bind_some, hbs]; rfl, hinp⟩
  · have : 0 < field.length := seq_nonemptyCode_left varint_nonemptyCode hbs'
    rw [show field = [] from hnil] at this
    exact absurd this (Nat.lt_irrefl 0)

end

variable {f : TxExtraField}

/-- A field is read as it is written, or it is empty and its length is cut off by the end of the
input. -/
theorem readTxExtraField_cases {tag : UInt8} {inp rest : Bytes}
    (h : readTxExtraField (tag :: inp) = some (f, rest)) :
    (∃ bs, writeTxExtraField f = some (tag :: bs) ∧ inp = bs ++ rest) ∨
      f.isEmptyVector = true ∧ rest = [] ∧ tag ≠ 0 ∧ ∀ b ∈ inp, 128 ≤ b.toNat := by
  rw [readTxExtraField] at h
  split_ifs at h with h0 h1 h2 h3 h4 hde h6 h7 h8
  · obtain ⟨hw, rfl⟩ := write_of_readPadding h
    exact .inl ⟨inp, h0 ▸ hw, (append_nil inp).symm⟩
  · exact .inl (write_of_solid .pubKey keyFormat_solid (fun _ => h1 ▸ rfl) h)
  · rcases write_of_readNonce h with hw | ⟨rfl, rfl, hall⟩
    · exact .inl (h2 ▸ hw)
    · exact .inr ⟨rfl, rfl, h0, hall⟩
  · exact .inl (h3 ▸ write_of_readMergeMiningTag h)
  · subst h4
    rcases write_of_vector .additionalPubKeys keyFormat_solid (fun _ => rfl) h with
      hw | ⟨rfl, rfl, hall⟩
    · exact .inl hw
    · exact .inr ⟨rfl, rfl, h0, hall⟩
  · subst hde
    rcases write_of_vector .mysteriousMinergate byte_solid (fun _ => rfl) h with
      hw | ⟨rfl, rfl, hall⟩
    · exact .inl hw
    · exact .inr ⟨rfl, rfl, h0, hall⟩
  · exact .inl (write_of_solid .pqSig authFormat_solid (fun _ => h6 ▸ rfl) h)
  · exact .inl (write_of_solid (fun w => .kyberCt w.1 w.2.1 w.2.2) kyberCtFormat_solid
      (fun _ => h7 ▸ rfl) h)
  · exact .inl (@write_of_solid _ pqBindFormat _ _ _ _ (fun w => .pqBind w.1 w.2) depthRoot_solid
      (fun _ => h8 ▸ rfl) h)

/-! ### All fields -/

variable {bs : Bytes}

theorem writeTxExtra_cons_eq_some {fs : List TxExtraField} :
    writeTxExtra (f :: fs) = some bs ↔
      ∃ x, writeTxExtraField f = some x ∧ ∃ y, writeTxExtra fs = some y ∧ x ++ y = bs := by
  simp only [writeTxExtra, Option.bind_eq_some_iff, Option.map_eq_some_iff]

theorem writeTxExtra_singleton : writeTxExtra [f] = some bs ↔ writeTxExtraField f = some bs := by
  simp [writeTxExtra]

/-- An empty list ends with its length, which is 0. -/
theorem getLast?_of_isEmptyVector (hf : f.isEmptyVector = true)
    (h : writeTxExtraField f = some bs) : bs.getLast? = some 0 := by
  cases f with
  | nonce n =>
    obtain rfl : n = [] := List.isEmpty_iff.mp hf
    obtain rfl : [0x02, 0x00] = bs := Option.some.inj h
    rfl
  | additionalPubKeys data =>
    obtain rfl : data = [] := List.isEmpty_iff.mp hf
    obtain rfl : [0x04, 0x00] = bs := Option.some.inj h
    rfl
  | mysteriousMinergate data =>
    obtain rfl : data = [] := List.isEmpty_iff.mp hf
    obtain rfl : [0xde, 0x00] = bs := Option.some.inj h
    rfl
  | _ => cases hf

/-- The last field is not cut off: a list without content has its length, 0, at the end. -/
def EndsWhole (extra : Bytes) (fields : List TxExtraField) : Prop :=
  ∀ f, fields.getLast? = some f → f.isEmptyVector = true → extra.getLast? = some 0

variable {fields : List TxExtraField}

/-- The loop reads what the writer writes, exactly if the last field is not cut off. -/
theorem readTxExtraFields_iff {fuel : ℕ} {inp : Bytes}
    (h : readTxExtraFields fuel inp = some fields) :
    (inp ≠ [] → fields ≠ []) ∧ (writeTxExtra fields = some inp ↔ EndsWhole inp fields) := by
  induction fuel generalizing inp fields with
  | zero =>
    rw [readTxExtraFields] at h
    split at h
    · next hnil =>
      obtain rfl := Option.some.inj h
      subst hnil
      exact ⟨fun hne => absurd rfl hne, by simp [writeTxExtra, EndsWhole]⟩
    · cases h
  | succ fuel ih =>
    obtain ⟨⟨f, rest⟩, hread, hif⟩ := Option.bind_eq_some_iff.mp h
    obtain ⟨tag, inp', rfl⟩ : ∃ tag inp', inp = tag :: inp' := by
      cases inp with
      | nil => cases hread
      | cons tag inp' => exact ⟨tag, inp', rfl⟩
    dsimp only at hif
    split at hif
    · -- the last field
      next hnil =>
      subst hnil
      obtain rfl := Option.some.inj hif
      refine ⟨fun _ => by simp, ?_⟩
      rw [writeTxExtra_singleton]
      rcases readTxExtraField_cases hread with ⟨bs, hbs, rfl⟩ | ⟨hempty, -, htag, hall⟩
      · rw [append_nil] at *
        refine ⟨fun hw f' hf' he => ?_, fun _ => hbs⟩
        obtain rfl : f = f' := by simpa using hf'
        exact getLast?_of_isEmptyVector he hw
      · have hlast : (tag :: inp').getLast? ≠ some 0 := by
          intro hl
          have hmem := mem_of_getLast? hl
          rcases mem_cons.mp hmem with h0 | h0
          · exact htag h0.symm
          · exact absurd (hall 0 h0) (by decide)
        refine ⟨fun hw => absurd (getLast?_of_isEmptyVector hempty hw) hlast, fun he => ?_⟩
        exact absurd (he f rfl hempty) hlast
    · -- another field follows
      next hne =>
      obtain ⟨fs, hfs, rfl⟩ := Option.map_eq_some_iff.mp hif
      obtain ⟨hnonempty, hiff⟩ := ih hfs
      obtain ⟨bs, hbs, rfl⟩ : ∃ bs, writeTxExtraField f = some (tag :: bs) ∧ inp' = bs ++ rest := by
        rcases readTxExtraField_cases hread with hw | ⟨-, hnil, -⟩
        · exact hw
        · exact absurd hnil hne
      refine ⟨fun _ => by simp, ?_⟩
      have hends : EndsWhole (tag :: (bs ++ rest)) (f :: fs) ↔ EndsWhole rest fs := by
        rw [EndsWhole, EndsWhole, ← cons_append, getLast?_append_of_ne_nil _ hne,
          getLast?_cons_of_ne_nil (hnonempty hne)]
      rw [hends, ← hiff, writeTxExtra_cons_eq_some, hbs]
      constructor
      · rintro ⟨x, hx, y, hy, heq⟩
        obtain rfl := Option.some.inj hx
        rw [← cons_append] at heq
        rw [hy, append_cancel_left heq]
      · intro hy
        exact ⟨_, rfl, rest, hy, rfl⟩

/-! ### Reading back -/

/-- `tx_extra_padding`. -/
def TxExtraField.isPadding : TxExtraField → Bool
  | .padding _ => true
  | _ => false

/-- A field that can be written and read back: padding of 1 to 2500 bytes, a nonce of at most 255,
and lists whose length is a `size_t`. -/
def TxExtraField.Fits : TxExtraField → Prop
  | .padding size => 1 ≤ size ∧ size ≤ txExtraPaddingMaxCount
  | .nonce n => n.length ≤ txExtraNonceMaxCount
  | .additionalPubKeys data => data.length < 2 ^ 64
  | .mysteriousMinergate data => data.length < 2 ^ 64
  | _ => True

theorem vector_write_isSome {α : Type} {fmt : Format α} {hf : fmt.NonemptyCode}
    (hall : ∀ a, (fmt.write a).isSome) {as : List α} (hlen : as.length < 2 ^ 64) :
    ((vector fmt hf).write as).isSome := by
  have hlist : ∀ as : List α, (writeList fmt as).isSome := by
    intro as
    induction as with
    | nil => rfl
    | cons a as ih =>
      obtain ⟨x, hx⟩ := Option.isSome_iff_exists.mp (hall a)
      obtain ⟨y, hy⟩ := Option.isSome_iff_exists.mp ih
      simp [writeList, hx, hy]
  obtain ⟨y, hy⟩ := Option.isSome_iff_exists.mp (hlist as)
  simp only [vector, if_pos hlen, hy, varint64, varint, Option.bind_some, Option.map_some,
    Option.isSome_some]

theorem bytes_write_isSome (hlen : bs.length < 2 ^ 64) :
    (bytesFormat.write bs).isSome := vector_write_isSome (fun _ => rfl) hlen

theorem writeTxExtraField_isSome (hf : f.Fits) : (writeTxExtraField f).isSome := by
  cases f with
  | padding size => simp [writeTxExtraField, Nat.not_lt.mpr hf.2]
  | nonce n =>
    have hlen : n.length < 2 ^ 64 := Nat.lt_of_le_of_lt hf (by decide)
    simp [writeTxExtraField, Nat.not_lt.mpr hf, bytes_write_isSome hlen]
  | mergeMiningTag depth root =>
    have hfield : (varint64.seq keyFormat).write (depth, root) =
        some (writeVarint 9 depth.toNat ++ root.bytes) := rfl
    have hlen : (writeVarint 9 depth.toNat ++ root.bytes).length < 2 ^ 64 := by
      have := length_writeVarint_le 9 depth.toNat
      rw [length_append, root.length_bytes]
      omega
    simp only [writeTxExtraField, hfield, Option.bind_some, Option.isSome_map,
      bytes_write_isSome hlen]
  | additionalPubKeys data =>
    rw [writeTxExtraField, Option.isSome_map]
    exact vector_write_isSome (fun _ => rfl) hf
  | mysteriousMinergate data => simpa [writeTxExtraField] using bytes_write_isSome hf
  | pubKey key => rfl
  | pqSig sig => rfl
  | kyberCt i t ct => rfl
  | pqBind i t => rfl

/-- A field that is not padding is read back, whatever comes behind it. -/
theorem readTxExtraField_write (hf : f.isPadding = false) (h : writeTxExtraField f = some bs)
    (rest : Bytes) :
    readTxExtraField (bs ++ rest) = some (f, rest) := by
  cases f with
  | padding size => cases hf
  | pubKey key =>
    rw [writeTxExtraField] at h
    obtain ⟨x, hx, rfl⟩ := Option.map_eq_some_iff.mp h
    simp [readTxExtraField, keyFormat.read_write rest hx, keyFormat_faithful key]
  | nonce n =>
    rw [writeTxExtraField] at h
    split at h
    · cases h
    · next hlen =>
      obtain ⟨x, hx, rfl⟩ := Option.map_eq_some_iff.mp h
      simp [readTxExtraField, readNonce, bytesFormat.read_write rest hx, bytesFormat_faithful n,
        hlen]
  | mergeMiningTag depth root =>
    rw [writeTxExtraField] at h
    obtain ⟨field, hfield, h⟩ := Option.bind_eq_some_iff.mp h
    obtain ⟨x, hx, rfl⟩ := Option.map_eq_some_iff.mp h
    have hparse := (varint64.seq keyFormat).parse_write (m := .lenient) hfield
    simp [readTxExtraField, readMergeMiningTag, bytesFormat.read_write rest hx,
      bytesFormat_faithful field, hparse, varint64_faithful depth, keyFormat_faithful root]
  | additionalPubKeys data =>
    rw [writeTxExtraField] at h
    obtain ⟨x, hx, rfl⟩ := Option.map_eq_some_iff.mp h
    simp [readTxExtraField, keysFormat.read_write rest hx, keysFormat_faithful data]
  | mysteriousMinergate data =>
    rw [writeTxExtraField] at h
    obtain ⟨x, hx, rfl⟩ := Option.map_eq_some_iff.mp h
    simp [readTxExtraField, bytesFormat.read_write rest hx, bytesFormat_faithful data]
  | pqSig sig =>
    rw [writeTxExtraField] at h
    obtain ⟨x, hx, rfl⟩ := Option.map_eq_some_iff.mp h
    simp [readTxExtraField, authFormat.read_write rest hx, authFormat_faithful sig]
  | kyberCt i t ct =>
    rw [writeTxExtraField] at h
    obtain ⟨x, hx, rfl⟩ := Option.map_eq_some_iff.mp h
    simp [readTxExtraField, kyberCtFormat.read_write rest hx, kyberCtFormat_faithful (i, t, ct)]
  | pqBind i t =>
    rw [writeTxExtraField] at h
    obtain ⟨x, hx, rfl⟩ := Option.map_eq_some_iff.mp h
    simp [readTxExtraField, pqBindFormat.read_write rest hx, pqBindFormat_faithful (i, t)]

/-- Padding is read back at the end. -/
theorem readTxExtraField_padding {size : ℕ} (hsize : 1 ≤ size)
    (h : writeTxExtraField (.padding size) = some bs) :
    readTxExtraField bs = some (.padding size, []) := by
  rw [writeTxExtraField] at h
  split at h
  · cases h
  · next hmax =>
    obtain rfl := Option.some.inj h
    have hlen : size - 1 < txExtraPaddingMaxCount := by omega
    simp [readTxExtraField, readPadding, hlen, Nat.sub_add_cancel hsize]

theorem writeTxExtraField_ne_nil (h : writeTxExtraField f = some bs) : bs ≠ [] := by
  rintro rfl
  cases f with
  | padding size => rw [writeTxExtraField] at h; split at h <;> cases h
  | nonce n => rw [writeTxExtraField] at h; split at h <;> simp at h
  | mergeMiningTag depth root =>
    rw [writeTxExtraField] at h
    obtain ⟨field, -, h⟩ := Option.bind_eq_some_iff.mp h
    simp at h
  | _ => simp [writeTxExtraField] at h

/-- Fields that can be written are read back, if padding comes last. -/
theorem readTxExtraFields_write (hne : fields ≠ []) (hfits : ∀ f ∈ fields, f.Fits)
    (hlast : ∀ f ∈ fields.dropLast, f.isPadding = false) (h : writeTxExtra fields = some bs)
    {fuel : ℕ} (hfuel : bs.length ≤ fuel) : bs ≠ [] ∧ readTxExtraFields fuel bs = some fields := by
  induction fields generalizing bs fuel with
  | nil => exact absurd rfl hne
  | cons f fs ih =>
    obtain ⟨x, hx, y, hy, rfl⟩ := writeTxExtra_cons_eq_some.mp h
    have hxne := writeTxExtraField_ne_nil hx
    have hpos : 0 < x.length := length_pos_iff.mpr hxne
    refine ⟨by simp [hxne], ?_⟩
    rw [length_append] at hfuel
    obtain ⟨fuel, rfl⟩ : ∃ k, fuel = k + 1 := ⟨fuel - 1, by omega⟩
    rw [readTxExtraFields]
    cases fs with
    | nil =>
      obtain rfl : [] = y := Option.some.inj hy
      have hread : readTxExtraField x = some (f, []) := by
        cases hpad : f.isPadding with
        | false => simpa using readTxExtraField_write hpad hx []
        | true =>
          cases f with
          | padding size => exact readTxExtraField_padding (hfits (.padding size) (by simp)).1 hx
          | _ => cases hpad
      rw [append_nil, hread]
      rfl
    | cons g fs =>
      have hpad : f.isPadding = false := hlast f (by simp)
      obtain ⟨hyne, hread⟩ := ih (by simp) (fun f' hf' => hfits f' (mem_cons_of_mem _ hf'))
        (fun f' hf' => hlast f' (by simp [hf'])) hy (show y.length ≤ fuel by omega)
      rw [readTxExtraField_write hpad hx y, Option.bind_some]
      simp only
      rw [if_neg hyne, hread]
      rfl

theorem writeTxExtra_isSome (hfits : ∀ f ∈ fields, f.Fits) :
    ∃ bs, writeTxExtra fields = some bs := by
  induction fields with
  | nil => exact ⟨[], rfl⟩
  | cons f fs ih =>
    obtain ⟨x, hx⟩ := Option.isSome_iff_exists.mp (writeTxExtraField_isSome (hfits f (by simp)))
    obtain ⟨y, hy⟩ := ih fun f' hf' => hfits f' (mem_cons_of_mem _ hf')
    exact ⟨x ++ y, writeTxExtra_cons_eq_some.mpr ⟨x, hx, y, hy, rfl⟩⟩

/-! ### The extra field -/

theorem parseTxExtra_write (hfits : ∀ f ∈ fields, f.Fits)
    (hlast : ∀ f ∈ fields.dropLast, f.isPadding = false) {extra : Bytes}
    (h : writeTxExtra fields = some extra) : parseTxExtra extra = some fields := by
  rw [parseTxExtra]
  cases fields with
  | nil =>
    obtain rfl : [] = extra := Option.some.inj h
    rfl
  | cons f fs =>
    obtain ⟨hne, hread⟩ := readTxExtraFields_write (by simp) hfits hlast h (Nat.le_refl _)
    rw [if_neg hne, hread]

theorem writeTxExtra_of_parse_iff {extra : Bytes} (h : parseTxExtra extra = some fields) :
    writeTxExtra fields = some extra ↔ EndsWhole extra fields := by
  rw [parseTxExtra] at h
  split at h
  · next hnil =>
    obtain rfl := Option.some.inj h
    subst hnil
    simp [writeTxExtra, EndsWhole]
  · exact (readTxExtraFields_iff h).2

/-- **The extra field.** An extra field that is accepted is what its fields are written as, exactly
if its last field is not cut off; and fields that can be written, with padding only at the end, are
read back. -/
theorem txExtra_canonical_iff (extra : Bytes) (fields : List TxExtraField) :
    (parseTxExtra extra = some fields →
      (writeTxExtra fields = some extra ↔ EndsWhole extra fields)) ∧
    ((∀ f ∈ fields, f.Fits) → (∀ f ∈ fields.dropLast, f.isPadding = false) →
      ∃ extra, writeTxExtra fields = some extra ∧ parseTxExtra extra = some fields) := by
  refine ⟨writeTxExtra_of_parse_iff, fun hfits hlast => ?_⟩
  obtain ⟨extra, hextra⟩ := writeTxExtra_isSome hfits
  exact ⟨extra, hextra, parseTxExtra_write hfits hlast hextra⟩

/-- A tag without a length is accepted as an empty nonce, and written as two bytes. -/
theorem txExtra_cut_off_nonce :
    parseTxExtra [0x02] = some [.nonce []] ∧ writeTxExtra [.nonce []] = some [0x02, 0x00] ∧
      writeTxExtra [.nonce []] ≠ some [0x02] := by
  decide

/-- The two directions at an extra field with a nonce of one byte and padding behind it. -/
theorem txExtra_canonical_nonce_padding :
    writeTxExtra [.nonce [7], .padding 3] = some [0x02, 0x01, 0x07, 0x00, 0x00, 0x00] ∧
      ∃ extra, writeTxExtra [.nonce [7], .padding 3] = some extra ∧
        parseTxExtra extra = some [.nonce [7], .padding 3] :=
  ⟨((txExtra_canonical_iff _ _).1 (by decide)).mpr fun f hf he => by decide,
    (txExtra_canonical_iff [] _).2 (by simp [TxExtraField.Fits, txExtraPaddingMaxCount])
      (by simp [TxExtraField.isPadding])⟩

end Hidering
