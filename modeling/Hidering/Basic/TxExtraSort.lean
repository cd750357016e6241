import Hidering.Basic.TxExtraCodec
import Hidering.Store.Buckets

/-!
# Sorting the extra field

`sort_tx_extra` writes the fields of an extra field again, type by type. The order of the types puts
padding in front of the post-quantum fields, and padding can be read at the end only: an extra field
with both is sorted into one that is refused (`sortTxExtra_canonical_iff`). Without padding, or
without post-quantum fields, the function is a stable sort that changes nothing when it is applied
again.

## Main definitions

* `Hidering.TxExtraKind`, `Hidering.TxExtraField.kind`
* `Hidering.pick`, `Hidering.sortTxExtra`
* `Hidering.SortsCanonically`

## Main results

* `Hidering.sortTxExtra_of_parse` — the sorted fields, written one after another
* `Hidering.sortTxExtra_canonical_iff`
-/

namespace Hidering

open Wire Wire.Format Store List

/-! ### The source functions -/

/-- The types of `tx_extra_field`. -/
inductive TxExtraKind
  | padding
  | pubKey
  | nonce
  | mergeMiningTag
  | additionalPubKeys
  | mysteriousMinergate
  | pqSig
  | kyberCt
  | pqBind
deriving DecidableEq, Repr

/-- The type of a field. -/
def TxExtraField.kind : TxExtraField → TxExtraKind
  | .padding _ => .padding
  | .pubKey _ => .pubKey
  | .nonce _ => .nonce
  | .mergeMiningTag _ _ => .mergeMiningTag
  | .additionalPubKeys _ => .additionalPubKeys
  | .mysteriousMinergate _ => .mysteriousMinergate
  | .pqSig _ => .pqSig
  | .kyberCt _ _ _ => .kyberCt
  | .pqBind _ _ => .pqBind

/-- The order of the calls of `pick` in `sort_tx_extra`. -/
def txExtraOrder : List TxExtraKind :=
  [.pubKey, .additionalPubKeys, .nonce, .mergeMiningTag, .mysteriousMinergate, .padding, .kyberCt,
    .pqBind, .pqSig]

/-- `pick`: the first field of the type is written and erased, as long as there is one. The tag that
is passed to it is that of the type. -/
def pick (k : TxExtraKind) : ℕ → Bytes × List TxExtraField → Option (Bytes × List TxExtraField)
  | 0, s => some s
  | fuel + 1, (out, fields) =>
    match fields.find? (fun f => f.kind = k) with
    | none => some (out, fields)
    | some f =>
      (writeTxExtraField f).bind fun bs =>
        pick k fuel (out ++ bs, fields.eraseP fun f => f.kind = k)

/-- The loop of `sort_tx_extra`: the fields that are read, what is left behind them, and whether the
loop got to the end. -/
def readTxExtraPartial : ℕ → Bytes → List TxExtraField × Bytes × Bool
  | 0, inp => ([], inp, inp = [])
  | fuel + 1, inp =>
    match readTxExtraField inp with
    | none => ([], inp, false)
    | some (f, rest) =>
      if rest = [] then ([f], [], true)
      else
        let r := readTxExtraPartial fuel rest
        (f :: r.1, r.2)

/-- `sort_tx_extra`. -/
def sortTxExtra (extra : Bytes) (allowPartial : Bool) : Option Bytes :=
  if extra = [] then some []
  else
    let r := readTxExtraPartial extra.length extra
    if !r.2.2 && !allowPartial then none
    else
      (txExtraOrder.foldlM (fun s k => pick k s.2.length s) ([], r.1)).bind fun s =>
        if s.2 ≠ [] then none
        -- what has not been read is appended
        else some (if allowPartial then s.1 ++ r.2.1 else s.1)

/-! ### Picking -/

variable {fs gs : List TxExtraField}

theorem writeTxExtra_append :
    writeTxExtra (fs ++ gs) =
      (writeTxExtra fs).bind fun x => (writeTxExtra gs).map fun y => x ++ y := by
  induction fs with
  | nil => simp [writeTxExtra]
  | cons f fs ih =>
    rw [cons_append, writeTxExtra, writeTxExtra, ih]
    cases writeTxExtraField f <;> cases writeTxExtra fs <;> cases writeTxExtra gs <;> simp

variable {bs : Bytes}

theorem writeTxExtra_append_eq_some :
    writeTxExtra (fs ++ gs) = some bs ↔
      ∃ x, writeTxExtra fs = some x ∧ ∃ y, writeTxExtra gs = some y ∧ x ++ y = bs := by
  simp only [writeTxExtra_append, Option.bind_eq_some_iff, Option.map_eq_some_iff]

variable {fuel : ℕ}

variable {fields : List TxExtraField}

/-- What `pick` writes are the fields of the type, in their order; the others are left. -/
theorem pick_eq {k : TxExtraKind} {out : Bytes} (hfuel : fields.length ≤ fuel) :
    pick k fuel (out, fields) =
      (writeTxExtra (fields.filter fun f => f.kind = k)).map fun bs =>
        (out ++ bs, fields.filter fun f => !decide (f.kind = k)) := by
  induction fuel generalizing out fields with
  | zero =>
    obtain rfl := length_eq_zero_iff.mp (Nat.le_zero.mp hfuel)
    simp [pick, writeTxExtra]
  | succ fuel ih =>
    rw [pick]
    split
    case h_1 hnone =>
      have hall : ∀ f ∈ fields, f.kind ≠ k := by simpa using hnone
      have hyes : (fields.filter fun f => f.kind = k) = [] :=
        filter_eq_nil_iff.mpr fun f hf => by simpa using hall f hf
      have hno : (fields.filter fun f => !decide (f.kind = k)) = fields :=
        filter_eq_self.mpr fun f hf => by simpa using hall f hf
      rw [hyes, hno, writeTxExtra, Option.map_some, append_nil]
    case h_2 f hsome =>
      -- the list in front of the field that is found has no field of the type
      obtain ⟨hf, front, back, rfl, hfront⟩ := find?_eq_some_iff_append.mp hsome
      have hfront' : ∀ g ∈ front, ¬ decide (g.kind = k) = true := fun g hg => by
        simpa using hfront g hg
      have herase : (front ++ f :: back).eraseP (fun f => f.kind = k) = front ++ back := by
        rw [eraseP_append_right _ hfront']
        simp [of_decide_eq_true hf]
      have hyes : (front.filter fun f => f.kind = k) = [] := filter_eq_nil_iff.mpr hfront'
      have hlen : (front ++ back).length ≤ fuel := by
        rw [length_append, length_cons] at hfuel
        rw [length_append]
        omega
      have hmore : ((f :: back).filter fun f => decide (f.kind = k)) =
          f :: back.filter fun f => decide (f.kind = k) := filter_cons_of_pos hf
      have hno : ((f :: back).filter fun f => !decide (f.kind = k)) =
          back.filter fun f => !decide (f.kind = k) :=
        filter_cons_of_neg (by simpa using hf)
      simp only [herase, ih hlen, filter_append, hyes, nil_append, hmore, hno,
        writeTxExtra]
      cases writeTxExtraField f <;>
        cases writeTxExtra (back.filter fun f => decide (f.kind = k)) <;> simp

/-- The calls of `pick` one after another sort the fields. -/
theorem foldlM_pick {order : List TxExtraKind} (hnodup : order.Nodup) {out : Bytes} :
    order.foldlM (fun s k => pick k s.2.length s) (out, fields) =
      (writeTxExtra (byKind TxExtraField.kind order fields)).map fun bs =>
        (out ++ bs, fields.filter fun f => f.kind ∉ order) := by
  induction order generalizing out fields with
  | nil => simp [writeTxExtra]
  | cons k order ih =>
    obtain ⟨hnotin, hnodup⟩ := nodup_cons.mp hnodup
    -- the fields that are left have the same fields of the later types
    have hlater : byKind TxExtraField.kind order (fields.filter fun f => !decide (f.kind = k)) =
        byKind TxExtraField.kind order fields := by
      refine byKind_congr fun k' hk' => ?_
      rw [filter_filter]
      refine filter_congr fun f _ => ?_
      by_cases heq : f.kind = k'
      · have hne : k' ≠ k := fun h => hnotin (h ▸ hk')
        simp [heq, hne]
      · simp [heq]
    have hleft : ((fields.filter fun f => !decide (f.kind = k)).filter fun f => f.kind ∉ order) =
        fields.filter fun f => f.kind ∉ k :: order := by
      rw [filter_filter]
      refine filter_congr fun f _ => ?_
      rw [Bool.eq_iff_iff]
      simp [and_comm]
    rw [foldlM_cons, pick_eq (Nat.le_refl _), byKind_cons, writeTxExtra_append]
    cases writeTxExtra (fields.filter fun f => decide (f.kind = k)) with
    | none => rfl
    | some bs =>
      simp only [Option.map_some, Option.bind_eq_bind, Option.bind_some, ih hnodup, hlater, hleft,
        Option.map_map]
      cases writeTxExtra (byKind TxExtraField.kind order fields) <;> simp

theorem txExtraOrder_nodup : txExtraOrder.Nodup := by decide

theorem mem_txExtraOrder (k : TxExtraKind) : k ∈ txExtraOrder := by cases k <;> decide

/-! ### What is read -/

theorem readTxExtraPartial_of_read {inp : Bytes} (h : readTxExtraFields fuel inp = some fields) :
    readTxExtraPartial fuel inp = (fields, [], true) := by
  induction fuel generalizing inp fields with
  | zero =>
    rw [readTxExtraFields] at h
    split at h
    case isTrue hnil =>
      obtain rfl := Option.some.inj h
      simp [readTxExtraPartial, hnil]
    case isFalse => cases h
  | succ fuel ih =>
    obtain ⟨⟨f, rest⟩, hread, h⟩ := Option.bind_eq_some_iff.mp h
    rw [readTxExtraPartial, hread]
    simp only
    split at h
    case isTrue hnil =>
      obtain rfl := Option.some.inj h
      rw [if_pos hnil]
    case isFalse hne =>
      obtain ⟨fs, hfs, rfl⟩ := Option.map_eq_some_iff.mp h
      rw [if_neg hne, ih hfs]

/-- `sort_tx_extra` of an extra field that is accepted: the fields, type by type. -/
theorem sortTxExtra_of_parse {extra : Bytes} (h : parseTxExtra extra = some fields) :
    sortTxExtra extra false = writeTxExtra (byKind TxExtraField.kind txExtraOrder fields) := by
  rw [parseTxExtra] at h
  rw [sortTxExtra]
  by_cases hnil : extra = []
  · rw [if_pos hnil] at h ⊢
    obtain rfl := Option.some.inj h
    rfl
  · rw [if_neg hnil] at h ⊢
    rw [readTxExtraPartial_of_read h]
    simp only [foldlM_pick txExtraOrder_nodup, nil_append, Bool.not_true, Bool.false_and,
      Bool.false_eq_true, if_false, mem_txExtraOrder, not_true, decide_false, filter_false]
    cases writeTxExtra (byKind TxExtraField.kind txExtraOrder fields) <;> rfl

/-! ### What is accepted -/

theorem length_of_vector_write {α : Type} {fmt : Format α} {hf : fmt.NonemptyCode} {as : List α}
    (h : (vector fmt hf).write as = some bs) : as.length < 2 ^ 64 := by
  by_contra hlen
  simp only [vector, if_neg hlen] at h
  cases h

variable {f : TxExtraField}

/-- A field that can be written can be read back, if it is not padding of size 0. -/
theorem fits_of_write (h : writeTxExtraField f = some bs) (hzero : f ≠ .padding 0) : f.Fits := by
  cases f with
  | padding size =>
    rw [writeTxExtraField] at h
    split at h
    case isTrue => cases h
    case isFalse hmax =>
      have hsize : size ≠ 0 := fun h0 => hzero (by rw [h0])
      exact ⟨Nat.one_le_iff_ne_zero.mpr hsize, not_lt.mp hmax⟩
  | nonce n =>
    rw [writeTxExtraField] at h
    split at h
    case isTrue => cases h
    case isFalse hmax => exact not_lt.mp hmax
  | additionalPubKeys data =>
    obtain ⟨_, hdata, -⟩ := Option.map_eq_some_iff.mp h
    exact length_of_vector_write hdata
  | mysteriousMinergate data =>
    obtain ⟨_, hdata, -⟩ := Option.map_eq_some_iff.mp h
    exact length_of_vector_write hdata
  | _ => trivial

/-- Padding is read with its tag, to the end of the input. -/
theorem padding_of_readTxExtraField {inp rest : Bytes} {size : ℕ}
    (h : readTxExtraField inp = some (.padding size, rest)) : size ≠ 0 ∧ rest = [] := by
  cases inp with
  | nil => cases h
  | cons tag inp =>
    rcases readTxExtraField_cases h with ⟨bs, hbs, -⟩ | ⟨hempty, -⟩
    · have htag : tag = 0 := by
        rw [writeTxExtraField] at hbs
        split at hbs
        · cases hbs
        · exact (List.cons.inj (Option.some.inj hbs)).1.symm
      rw [htag, readTxExtraField, if_pos rfl, readPadding] at h
      split at h
      · obtain ⟨hsize, rfl⟩ := Prod.mk.inj (Option.some.inj h)
        rw [← TxExtraField.padding.inj hsize]
        exact ⟨Nat.succ_ne_zero _, rfl⟩
      · cases h
    · cases hempty

theorem readTxExtraField_fits {inp rest : Bytes}
    (h : readTxExtraField inp = some (f, rest)) : f.Fits := by
  cases inp with
  | nil => cases h
  | cons tag inp =>
    rcases readTxExtraField_cases h with ⟨bs, hbs, -⟩ | ⟨hempty, -⟩
    · refine fits_of_write hbs ?_
      rintro rfl
      exact (padding_of_readTxExtraField h).1 rfl
    · cases f with
      | nonce n =>
        obtain rfl : n = [] := List.isEmpty_iff.mp hempty
        exact Nat.zero_le _
      | additionalPubKeys data =>
        obtain rfl : data = [] := List.isEmpty_iff.mp hempty
        exact Nat.two_pow_pos 64
      | mysteriousMinergate data =>
        obtain rfl : data = [] := List.isEmpty_iff.mp hempty
        exact Nat.two_pow_pos 64
      | _ => cases hempty

/-- The fields of an extra field that is accepted can be read back, and padding is the last of
them. -/
theorem readTxExtraFields_shape {inp : Bytes} (h : readTxExtraFields fuel inp = some fields) :
    (∀ f ∈ fields, f.Fits) ∧ ∀ f ∈ fields.dropLast, f.isPadding = false := by
  induction fuel generalizing inp fields with
  | zero =>
    rw [readTxExtraFields] at h
    split at h
    · obtain rfl := Option.some.inj h
      simp
    · cases h
  | succ fuel ih =>
    obtain ⟨⟨f, rest⟩, hread, h⟩ := Option.bind_eq_some_iff.mp h
    have hfits := readTxExtraField_fits hread
    split at h
    case isTrue =>
      obtain rfl := Option.some.inj h
      simpa using hfits
    case isFalse hne =>
      obtain ⟨fs, hfs, rfl⟩ := Option.map_eq_some_iff.mp h
      obtain ⟨hall, hlast⟩ := ih hfs
      have hpad : f.isPadding = false := by
        cases f with
        | padding size => exact absurd (padding_of_readTxExtraField hread).2 hne
        | _ => rfl
      refine ⟨forall_mem_cons.mpr ⟨hfits, hall⟩, fun g hg => ?_⟩
      cases fs with
      | nil => cases hg
      | cons f' fs =>
        rcases mem_cons.mp hg with rfl | hg
        · exact hpad
        · exact hlast g hg

theorem parseTxExtra_shape {extra : Bytes} (h : parseTxExtra extra = some fields) :
    (∀ f ∈ fields, f.Fits) ∧ ∀ f ∈ fields.dropLast, f.isPadding = false := by
  rw [parseTxExtra] at h
  split at h
  · obtain rfl := Option.some.inj h
    simp
  · exact readTxExtraFields_shape h

/-- Fields in front that are no padding are read one by one. -/
theorem readTxExtraFields_append {fs : List TxExtraField} (hfs : ∀ f ∈ fs, f.isPadding = false)
    {x rest : Bytes} (hx : writeTxExtra fs = some x) (hrest : rest ≠ [])
    (hfuel : (x ++ rest).length ≤ fuel) :
    ∃ fuel', rest.length ≤ fuel' ∧
      readTxExtraFields fuel (x ++ rest) =
        (readTxExtraFields fuel' rest).map fun gs => fs ++ gs := by
  induction fs generalizing x fuel with
  | nil =>
    obtain rfl : [] = x := Option.some.inj hx
    exact ⟨fuel, hfuel, by simp⟩
  | cons f fs ih =>
    obtain ⟨y, hy, z, hz, rfl⟩ := writeTxExtra_cons_eq_some.mp hx
    have hpos : 0 < y.length := length_pos_iff.mpr (writeTxExtraField_ne_nil hy)
    simp only [length_append] at hfuel
    obtain ⟨fuel, rfl⟩ : ∃ k, fuel = k + 1 := ⟨fuel - 1, by omega⟩
    obtain ⟨fuel', hfuel', hread⟩ := ih (fun g hg => hfs g (mem_cons_of_mem _ hg)) hz
      (show (z ++ rest).length ≤ fuel by rw [length_append]; omega)
    have hne : z ++ rest ≠ [] := by simp [hrest]
    refine ⟨fuel', hfuel', ?_⟩
    rw [readTxExtraFields, append_assoc, readTxExtraField_write (hfs f (by simp)) hy,
      Option.bind_some]
    simp only
    rw [if_neg hne, hread, Option.map_map]
    rfl

/-! ### The sorted extra field -/

/-- The types that are written behind padding. -/
def TxExtraKind.isPq : TxExtraKind → Bool
  | .kyberCt | .pqBind | .pqSig => true
  | _ => false

/-- The order up to padding, and behind it. -/
theorem txExtraOrder_split :
    txExtraOrder = [.pubKey, .additionalPubKeys, .nonce, .mergeMiningTag, .mysteriousMinergate] ++
      .padding :: [.kyberCt, .pqBind, .pqSig] := rfl

theorem kind_eq_padding : f.kind = .padding ↔ f.isPadding = true := by
  cases f <;> simp [TxExtraField.kind, TxExtraField.isPadding]

/-- A post-quantum field does not consist of zeros. -/
theorem exists_ne_zero_of_isPq (hf : f.kind.isPq = true)
    (h : writeTxExtraField f = some bs) : ∃ b ∈ bs, b ≠ 0 := by
  cases f with
  | pqSig sig =>
    rw [writeTxExtraField] at h
    obtain ⟨x, -, rfl⟩ := Option.map_eq_some_iff.mp h
    exact ⟨0x06, by simp, by decide⟩
  | kyberCt i t ct =>
    rw [writeTxExtraField] at h
    obtain ⟨x, -, rfl⟩ := Option.map_eq_some_iff.mp h
    exact ⟨0x07, by simp, by decide⟩
  | pqBind i t =>
    rw [writeTxExtraField] at h
    obtain ⟨x, -, rfl⟩ := Option.map_eq_some_iff.mp h
    exact ⟨0x08, by simp, by decide⟩
  | _ => cases hf

theorem exists_mem_of_writeTxExtra {fs : List TxExtraField} (hf : f ∈ fs)
    (h : writeTxExtra fs = some bs) : ∃ x, writeTxExtraField f = some x ∧ ∀ b ∈ x, b ∈ bs := by
  obtain ⟨front, back, rfl⟩ := append_of_mem hf
  obtain ⟨y, -, z, hz, rfl⟩ := writeTxExtra_append_eq_some.mp h
  obtain ⟨x, hx, w, -, rfl⟩ := writeTxExtra_cons_eq_some.mp hz
  exact ⟨x, hx, fun b hb => by simp [hb]⟩

/-- Padding with a post-quantum field behind it is refused. -/
theorem parseTxExtra_padding_pq {size : ℕ} {g : TxExtraField} (hfs : ∀ f ∈ fs, f.isPadding = false)
    (hg : g ∈ gs) (hpq : g.kind.isPq = true)
    (h : writeTxExtra (fs ++ .padding size :: gs) = some bs) : parseTxExtra bs = none := by
  obtain ⟨x, hx, y, hy, rfl⟩ := writeTxExtra_append_eq_some.mp h
  obtain ⟨p, hp, z, hz, rfl⟩ := writeTxExtra_cons_eq_some.mp hy
  have hpad : ∃ zeros, p = 0x00 :: zeros := by
    rw [writeTxExtraField] at hp
    split at hp
    · cases hp
    · exact ⟨_, (Option.some.inj hp).symm⟩
  obtain ⟨zeros, rfl⟩ := hpad
  obtain ⟨w, hw, hsub⟩ := exists_mem_of_writeTxExtra hg hz
  obtain ⟨b, hb, hne⟩ := exists_ne_zero_of_isPq hpq hw
  have hzeros : ¬ (zeros ++ z).all (fun b => b == 0) = true := fun hall => hne <| by
    simpa using all_eq_true.mp hall b (mem_append_right _ (hsub b hb))
  obtain ⟨fuel, hfuel, hread⟩ := readTxExtraFields_append hfs hx
    (show 0x00 :: zeros ++ z ≠ [] by simp) (Nat.le_refl _)
  obtain ⟨fuel, rfl⟩ : ∃ k, fuel = k + 1 := ⟨fuel - 1, by simp at hfuel; omega⟩
  rw [parseTxExtra, if_neg (by simp), hread, readTxExtraFields, cons_append, readTxExtraField,
    if_pos rfl, readPadding, if_neg fun h => hzeros h.1]
  rfl

/-- The size of the code of a field. -/
def TxExtraField.codeSize (f : TxExtraField) : ℕ := ((writeTxExtraField f).getD []).length

theorem length_writeTxExtra {fs : List TxExtraField}
    (h : writeTxExtra fs = some bs) : bs.length = (fs.map TxExtraField.codeSize).sum := by
  induction fs generalizing bs with
  | nil =>
    obtain rfl : [] = bs := Option.some.inj h
    rfl
  | cons f fs ih =>
    obtain ⟨x, hx, y, hy, rfl⟩ := writeTxExtra_cons_eq_some.mp h
    rw [length_append, ih hy, map_cons, sum_cons, TxExtraField.codeSize, hx]
    rfl

section Sorted

variable {extra : Bytes} {fields : List TxExtraField}

/-- The fields in the order of `sort_tx_extra`. -/
def sortedFields (fields : List TxExtraField) : List TxExtraField :=
  byKind TxExtraField.kind txExtraOrder fields

theorem sortedFields_perm : (sortedFields fields).Perm fields :=
  byKind_perm txExtraOrder_nodup fun f _ => mem_txExtraOrder f.kind

theorem filter_sortedFields (k : TxExtraKind) :
    (sortedFields fields).filter (fun f => f.kind = k) = fields.filter fun f => f.kind = k :=
  filter_byKind txExtraOrder_nodup (mem_txExtraOrder k)

/-- Sorted fields: the classic ones, padding, and the post-quantum ones. -/
theorem sortedFields_split :
    ∃ front back,
      sortedFields fields = front ++ (fields.filter (fun f => f.kind = .padding) ++ back) ∧
      (∀ f ∈ front, f.isPadding = false) ∧
      (∀ f, f ∈ back ↔ f ∈ fields ∧ f.kind.isPq = true) := by
  refine ⟨byKind TxExtraField.kind
      [.pubKey, .additionalPubKeys, .nonce, .mergeMiningTag, .mysteriousMinergate] fields,
    byKind TxExtraField.kind [.kyberCt, .pqBind, .pqSig] fields, ?_, fun f hf => ?_, fun f => ?_⟩
  · rw [sortedFields, txExtraOrder_split, byKind_append]
    exact congrArg _ byKind_cons
  · have hkind := (mem_byKind.mp hf).2
    cases f <;> first | rfl | exact absurd hkind (by simp [TxExtraField.kind])
  · rw [mem_byKind]
    refine and_congr_right fun _ => ?_
    cases f <;> simp [TxExtraField.kind, TxExtraKind.isPq]

/-- Padding of an accepted extra field is its last field, so that there is one at most. -/
theorem filter_padding_of_parse (h : parseTxExtra extra = some fields) :
    (fields.filter fun f => f.kind = .padding) = [] ∨
      ∃ size, (fields.filter fun f => f.kind = .padding) = [.padding size] := by
  rcases eq_nil_or_concat fields with rfl | ⟨front, last, rfl⟩
  · exact .inl rfl
  · have hfront : (front.filter fun f => f.kind = .padding) = [] := by
      rw [filter_eq_nil_iff]
      intro f hf hkind
      have hpad := (parseTxExtra_shape h).2 f (by simpa using hf)
      rw [kind_eq_padding.mp (of_decide_eq_true hkind)] at hpad
      cases hpad
    rw [concat_eq_append, filter_append, hfront, nil_append]
    cases last <;> simp [TxExtraField.kind]

/-- What a canonical sort of an accepted extra field gives: an extra field that is accepted, with
the same fields in a new order that keeps that of the fields of each type, of the size of the
fields' code, and that is not changed by sorting it again. -/
def SortsCanonically (extra : Bytes) (fields : List TxExtraField) : Prop :=
  ∃ out sorted code, sortTxExtra extra false = some out ∧ parseTxExtra out = some sorted ∧
    sorted.Perm fields ∧
    (∀ k, sorted.filter (fun f => f.kind = k) = fields.filter fun f => f.kind = k) ∧
    writeTxExtra fields = some code ∧ out.length = code.length ∧
    sortTxExtra out false = some out

/-- **Sorting.** `sort_tx_extra` sorts an accepted extra field canonically if and only if it does
not hold both padding and a post-quantum field. -/
theorem sortTxExtra_canonical_iff (h : parseTxExtra extra = some fields) :
    SortsCanonically extra fields ↔
      ¬ ((∃ f ∈ fields, f.isPadding = true) ∧ ∃ f ∈ fields, f.kind.isPq = true) := by
  obtain ⟨front, back, hsplit, hfront, hback⟩ := @sortedFields_split fields
  obtain ⟨hfits, -⟩ := parseTxExtra_shape h
  have hsorted : sortTxExtra extra false = writeTxExtra (sortedFields fields) :=
    sortTxExtra_of_parse h
  constructor
  · rintro ⟨out, sorted, -, hsort, hparse, -⟩ ⟨⟨p, hp, hpad⟩, g, hg, hpq⟩
    -- padding is written in front of the post-quantum fields
    rcases filter_padding_of_parse h with hnone | ⟨size, hone⟩
    · have hmem : p ∈ fields.filter fun f => f.kind = .padding :=
        mem_filter.mpr ⟨hp, decide_eq_true (kind_eq_padding.mpr hpad)⟩
      rw [hnone] at hmem
      cases hmem
    · rw [hsorted, hsplit, hone] at hsort
      have hrefused := parseTxExtra_padding_pq hfront ((hback g).mpr ⟨hg, hpq⟩) hpq hsort
      rw [hparse] at hrefused
      cases hrefused
  · intro hnot
    have hfits' : ∀ f ∈ sortedFields fields, f.Fits := fun f hf =>
      hfits f (sortedFields_perm.mem_iff.mp hf)
    have hlast : ∀ f ∈ (sortedFields fields).dropLast, f.isPadding = false := by
      intro f hf
      by_contra hpad
      rw [Bool.not_eq_false] at hpad
      have hmem := sortedFields_perm.mem_iff.mp (dropLast_subset _ hf)
      -- without post-quantum fields padding comes last
      have hnil : back = [] := eq_nil_iff_forall_not_mem.mpr fun g hg =>
        hnot ⟨⟨f, hmem, hpad⟩, g, (hback g).mp hg⟩
      have hin : f ∈ front := by
        rw [hsplit, hnil, append_nil] at hf
        rcases filter_padding_of_parse h with hnone | ⟨size, hone⟩
        · rw [hnone, append_nil] at hf
          exact dropLast_subset _ hf
        · rwa [hone, dropLast_concat] at hf
      rw [hfront f hin] at hpad
      cases hpad
    obtain ⟨out, hout⟩ := writeTxExtra_isSome hfits'
    obtain ⟨code, hcode⟩ := writeTxExtra_isSome hfits
    have hparse := parseTxExtra_write hfits' hlast hout
    refine ⟨out, _, code, hsorted.trans hout, hparse, sortedFields_perm, filter_sortedFields, hcode,
      ?_, ?_⟩
    · rw [length_writeTxExtra hout, length_writeTxExtra hcode]
      exact (sortedFields_perm.map _).sum_eq
    · rw [sortTxExtra_of_parse hparse]
      exact (congrArg writeTxExtra (byKind_byKind txExtraOrder_nodup)).trans hout

end Sorted

/-- A nonce in front of a public key is moved behind it, and padding stays at the end. -/
theorem sortsCanonically_nonce_padding :
    parseTxExtra ([0x02, 0x01, 0x07] ++ 0x01 :: replicate 32 0x05 ++ [0x00, 0x00]) =
        some [.nonce [7], .pubKey ⟨replicate 32 0x05, rfl⟩, .padding 2] ∧
      SortsCanonically ([0x02, 0x01, 0x07] ++ 0x01 :: replicate 32 0x05 ++ [0x00, 0x00])
        [.nonce [7], .pubKey ⟨replicate 32 0x05, rfl⟩, .padding 2] :=
  have hparse : parseTxExtra ([0x02, 0x01, 0x07] ++ 0x01 :: replicate 32 0x05 ++
      [0x00, 0x00]) = some [.nonce [7], .pubKey ⟨replicate 32 0x05, rfl⟩, .padding 2] := by
    decide +kernel
  ⟨hparse, (sortTxExtra_canonical_iff hparse).mpr
    (by simp [TxExtraField.kind, TxExtraKind.isPq])⟩

/-- A binding tag and padding behind it are accepted; sorted, they are refused. -/
theorem sortTxExtra_padding_pqBind :
    ∃ extra out fields, parseTxExtra extra = some fields ∧ sortTxExtra extra false = some out ∧
      parseTxExtra out = none ∧ sortTxExtra out false = none :=
  ⟨0x08 :: 0x00 :: replicate 32 0x05 ++ [0x00, 0x00],
    0x00 :: 0x00 :: 0x08 :: 0x00 :: replicate 32 0x05,
    [.pqBind 0 ⟨replicate 32 0x05, rfl⟩, .padding 2], by decide +kernel, by decide +kernel,
    by decide +kernel, by decide +kernel⟩

end Hidering
