import Mathlib.Data.List.Basic
import Mathlib.Data.List.Nodup

/-!
# Lists of records with distinct keys

A `Keyed` list is a list of records no two of which have the same key. It is an index of records
that also has an order: `insertBy` puts a new record in front of the first one that it goes before,
and refuses a record whose key is taken; `put` takes the old record out first.

## Main definitions

* `Store.Keyed`, `find?`, `has`, `erase`, `insertBy`, `put`

## Main results

* `Store.Keyed.find?_eq_some` — looking a key up finds the one record that has it
* `Store.Keyed.find?_erase_of_ne`, `find?_put_self`, `find?_put_of_ne`
* `Store.Keyed.perm_erase`, `perm_put` — the records before and after, up to order
-/

namespace Store

open List

/-- A list of records with distinct keys. -/
structure Keyed {κ α : Type} (key : α → κ) where
  entries : List α
  nodup : (entries.map key).Nodup

namespace Keyed

variable {κ α : Type} {key : α → κ} [DecidableEq κ]

/-- No records. -/
def empty : Keyed key := ⟨[], nodup_nil⟩

/-- The record with the given key. -/
def find? (t : Keyed key) (k : κ) : Option α := t.entries.find? fun a => decide (key a = k)

/-- Some record has the given key. -/
def has (t : Keyed key) (k : κ) : Prop := ∃ a ∈ t.entries, key a = k

/-- Remove the record with the given key. -/
def erase (t : Keyed key) (k : κ) : Keyed key where
  entries := t.entries.filter fun a => decide (key a ≠ k)
  nodup := (filter_sublist.map key).nodup t.nodup

/-- The list with `a` in front of the first record that it goes before. -/
def insertAt (before : α → α → Bool) (a : α) (l : List α) : List α :=
  l.takeWhile (fun b => !before a b) ++ a :: l.dropWhile fun b => !before a b

theorem insertAt_perm (before : α → α → Bool) (a : α) (l : List α) :
    (insertAt before a l).Perm (a :: l) := by
  rw [insertAt]
  refine perm_middle.trans ?_
  rw [takeWhile_append_dropWhile]

/-- Insert a record at its place, unless its key is taken. -/
def insertBy (before : α → α → Bool) (t : Keyed key) (a : α) : Keyed key :=
  if h : key a ∈ t.entries.map key then t
  else
    { entries := insertAt before a t.entries
      nodup := (((insertAt_perm before a t.entries).map key).nodup_iff).mpr
        (nodup_cons.mpr ⟨h, t.nodup⟩) }

/-- Insert a record at its place, instead of the one that has its key. -/
def put (before : α → α → Bool) (t : Keyed key) (a : α) : Keyed key :=
  (t.erase (key a)).insertBy before a

/-! ### Membership -/

variable {t : Keyed key} {k : κ} {a b : α} {before : α → α → Bool}

omit [DecidableEq κ] in
theorem eq_of_key_eq (ha : a ∈ t.entries) (hb : b ∈ t.entries) (h : key a = key b) : a = b :=
  inj_on_of_nodup_map t.nodup ha hb h

theorem mem_erase : a ∈ (t.erase k).entries ↔ a ∈ t.entries ∧ key a ≠ k := by
  simp [erase]

theorem mem_insertBy (h : key a ∉ t.entries.map key) :
    b ∈ (t.insertBy before a).entries ↔ b = a ∨ b ∈ t.entries := by
  rw [insertBy, dif_neg h]
  exact (insertAt_perm before a t.entries).mem_iff.trans mem_cons

theorem insertBy_of_mem (h : key a ∈ t.entries.map key) : t.insertBy before a = t := by
  rw [insertBy, dif_pos h]

theorem mem_put : b ∈ (t.put before a).entries ↔ b = a ∨ b ∈ t.entries ∧ key b ≠ key a := by
  have hfree : key a ∉ (t.erase (key a)).entries.map key := by
    intro h
    obtain ⟨b, hb, hk⟩ := mem_map.mp h
    exact (mem_erase.mp hb).2 hk
  rw [put, mem_insertBy hfree, mem_erase]

/-! ### Looking records up -/

/-- Looking a key up finds the one record that has it. -/
theorem find?_eq_some : t.find? k = some a ↔ a ∈ t.entries ∧ key a = k := by
  constructor
  · intro h
    exact ⟨mem_of_find?_eq_some h, by simpa using find?_some h⟩
  · rintro ⟨ha, rfl⟩
    obtain ⟨b, hb⟩ := Option.isSome_iff_exists.mp (find?_isSome.mpr ⟨a, ha, by simp⟩ :
      (t.entries.find? fun b => decide (key b = key a)).isSome)
    have hkb : key b = key a := by simpa using find?_some hb
    rw [find?, hb, eq_of_key_eq (mem_of_find?_eq_some hb) ha hkb]

theorem find?_eq_none : t.find? k = none ↔ ∀ a ∈ t.entries, key a ≠ k := by
  simp [find?, List.find?_eq_none]

theorem find?_congr {t t' : Keyed key}
    (h : ∀ a, key a = k → (a ∈ t.entries ↔ a ∈ t'.entries)) : t.find? k = t'.find? k := by
  refine Option.ext fun a => ?_
  rw [find?_eq_some, find?_eq_some]
  constructor
  · rintro ⟨ha, hk⟩; exact ⟨(h a hk).mp ha, hk⟩
  · rintro ⟨ha, hk⟩; exact ⟨(h a hk).mpr ha, hk⟩

theorem find?_erase_of_ne {k' : κ} (h : k' ≠ k) : (t.erase k).find? k' = t.find? k' :=
  find?_congr fun a ha => by rw [mem_erase, ha]; simp [h]

theorem find?_put_self : (t.put before a).find? (key a) = some a :=
  find?_eq_some.mpr ⟨mem_put.mpr (.inl rfl), rfl⟩

theorem find?_put_of_ne (h : k ≠ key a) : (t.put before a).find? k = t.find? k :=
  find?_congr fun b hb => by
    rw [mem_put]
    constructor
    · rintro (rfl | ⟨hm, -⟩)
      · exact absurd hb.symm h
      · exact hm
    · intro hm; exact .inr ⟨hm, by rw [hb]; exact h⟩

/-! ### Keys -/

theorem has_iff_find? : t.has k ↔ ∃ a, t.find? k = some a := by
  constructor
  · rintro ⟨a, ha, hk⟩; exact ⟨a, find?_eq_some.mpr ⟨ha, hk⟩⟩
  · rintro ⟨a, ha⟩; exact ⟨a, find?_eq_some.mp ha⟩

theorem not_has_iff : ¬ t.has k ↔ t.find? k = none := by
  rw [has_iff_find?, Option.eq_none_iff_forall_not_mem, not_exists]
  rfl

theorem has_erase {k' : κ} : (t.erase k).has k' ↔ t.has k' ∧ k' ≠ k := by
  constructor
  · rintro ⟨a, ha, rfl⟩
    exact ⟨⟨a, (mem_erase.mp ha).1, rfl⟩, (mem_erase.mp ha).2⟩
  · rintro ⟨⟨a, ha, rfl⟩, hne⟩
    exact ⟨a, mem_erase.mpr ⟨ha, hne⟩, rfl⟩

theorem has_insertBy : (t.insertBy before a).has k ↔ k = key a ∨ t.has k := by
  by_cases h : key a ∈ t.entries.map key
  · rw [insertBy_of_mem h]
    constructor
    · exact .inr
    · rintro (rfl | hk)
      · obtain ⟨b, hb, hk⟩ := mem_map.mp h
        exact ⟨b, hb, hk⟩
      · exact hk
  · constructor
    · rintro ⟨b, hb, rfl⟩
      rcases (mem_insertBy h).mp hb with rfl | hb
      · exact .inl rfl
      · exact .inr ⟨b, hb, rfl⟩
    · rintro (rfl | ⟨b, hb, rfl⟩)
      · exact ⟨a, (mem_insertBy h).mpr (.inl rfl), rfl⟩
      · exact ⟨b, (mem_insertBy h).mpr (.inr hb), rfl⟩

theorem has_put : (t.put before a).has k ↔ k = key a ∨ t.has k := by
  rw [put, has_insertBy, has_erase]
  constructor
  · rintro (h | ⟨h, -⟩)
    · exact .inl h
    · exact .inr h
  · rintro (h | h)
    · exact .inl h
    · exact or_iff_not_imp_left.mpr fun hne => ⟨h, hne⟩

/-! ### Records up to order -/

theorem perm_erase (h : t.find? k = some a) : t.entries.Perm (a :: (t.erase k).entries) := by
  obtain ⟨ha, rfl⟩ := find?_eq_some.mp h
  have hnodup : t.entries.Nodup := List.Nodup.of_map key t.nodup
  have hcons : (a :: (t.erase (key a)).entries).Nodup := by
    refine nodup_cons.mpr ⟨fun hm => (mem_erase.mp hm).2 rfl, ?_⟩
    exact List.Nodup.of_map key (t.erase (key a)).nodup
  refine (perm_ext_iff_of_nodup hnodup hcons).mpr fun b => ?_
  rw [mem_cons, mem_erase]
  constructor
  · intro hb
    by_cases hk : key b = key a
    · exact .inl (eq_of_key_eq hb ha hk)
    · exact .inr ⟨hb, hk⟩
  · rintro (rfl | ⟨hb, -⟩)
    · exact ha
    · exact hb

theorem erase_eq_self (h : ¬ t.has k) : (t.erase k).entries = t.entries := by
  refine filter_eq_self.mpr fun a ha => ?_
  simpa using fun hk => h ⟨a, ha, hk⟩

theorem perm_put (a : α) : (t.put before a).entries.Perm (a :: (t.erase (key a)).entries) := by
  have hfree : key a ∉ (t.erase (key a)).entries.map key := by
    intro h
    obtain ⟨b, hb, hk⟩ := mem_map.mp h
    exact (mem_erase.mp hb).2 hk
  rw [put, insertBy, dif_neg hfree]
  exact insertAt_perm before a _

end Keyed

end Store
