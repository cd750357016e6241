import Mathlib.Data.List.Forall2

/-!
# Side tables

A format that leaves data out of its entries can carry them in a table beside the list: one entry
for each element that has such data, with the position of the element. The reader goes through the
table and patches the elements that it names. If the table was made from the list, this comes to
patching every element by itself.

## Main definitions

* `Store.sideEntries` — the table of a list
* `Store.patch` — patch a list from a table

## Main results

* `Store.patch_sideEntries` — patching from the list's own table goes element by element
-/

namespace Store

open List

variable {α β : Type}

/-- The entries of the elements of a list whose first position is `n`. -/
def sideEntriesFrom (extra : α → Option β) : ℕ → List α → List (ℕ × β)
  | _, [] => []
  | n, a :: l =>
    match extra a with
    | none => sideEntriesFrom extra (n + 1) l
    | some b => (n, b) :: sideEntriesFrom extra (n + 1) l

/-- The table of a list. -/
def sideEntries (extra : α → Option β) (l : List α) : List (ℕ × β) := sideEntriesFrom extra 0 l

theorem sideEntriesFrom_eq_nil {extra : α → Option β} {n : ℕ} {l : List α} :
    sideEntriesFrom extra n l = [] ↔ ∀ a ∈ l, extra a = none := by
  induction l generalizing n with
  | nil => simp [sideEntriesFrom]
  | cons a l ih =>
    rw [sideEntriesFrom, forall_mem_cons]
    cases extra a with
    | none => simp [ih]
    | some b => simp

/-- The table is empty if no element has an entry. -/
theorem sideEntries_eq_nil {extra : α → Option β} {l : List α} :
    sideEntries extra l = [] ↔ ∀ a ∈ l, extra a = none := sideEntriesFrom_eq_nil

/-- Patch the elements that the table names, in the order of the table. -/
def patch (fill : β → α → Option α) : List (ℕ × β) → List α → Option (List α)
  | [], l => some l
  | (i, b) :: es, l =>
    l[i]?.bind fun a => (fill b a).bind fun a' => patch fill es (l.set i a')

/-- An element, patched if it has an entry. -/
def patchOne (extra : α → Option β) (fill : β → α → Option α) (strip : α → α) (a : α) : Option α :=
  (extra a).elim (some (strip a)) fun b => fill b (strip a)

theorem patch_sideEntriesFrom (extra : α → Option β) (fill : β → α → Option α) (strip : α → α)
    (done l : List α) :
    patch fill (sideEntriesFrom extra done.length l) (done ++ l.map strip) =
      (l.mapM (patchOne extra fill strip)).map (done ++ ·) := by
  -- `done` is the part of the list that has been patched
  induction l generalizing done with
  | nil => simp [sideEntriesFrom, patch]
  | cons a l ih =>
    have hnext : ∀ a', patch fill (sideEntriesFrom extra (done.length + 1) l)
        (done ++ a' :: l.map strip) =
          (l.mapM (patchOne extra fill strip)).map fun r => done ++ a' :: r := by
      intro a'
      simpa using ih (done ++ [a'])
    rw [mapM_cons, patchOne, sideEntriesFrom]
    cases extra a with
    | none =>
      rw [map_cons, hnext]
      cases l.mapM (patchOne extra fill strip) <;> rfl
    | some b =>
      have hget : (done ++ (a :: l).map strip)[done.length]? = some (strip a) := by simp
      have hset : ∀ a', (done ++ (a :: l).map strip).set done.length a' =
          done ++ a' :: l.map strip := by
        simp
      simp only [patch, hget, Option.bind_some, hset, hnext, Option.elim_some]
      cases fill b (strip a) with
      | none => rfl
      | some a' => cases l.mapM (patchOne extra fill strip) <;> rfl

/-- **Patching from the list's own table** goes element by element. -/
theorem patch_sideEntries (extra : α → Option β) (fill : β → α → Option α) (strip : α → α)
    (l : List α) :
    patch fill (sideEntries extra l) (l.map strip) = l.mapM (patchOne extra fill strip) := by
  simpa [sideEntries] using patch_sideEntriesFrom extra fill strip [] l

/-- Two lists made from one are run through side by side. -/
theorem mapM_zip_map {γ δ : Type} (f : α → β) (g : α → γ) (h : β × γ → Option δ) (l : List α) :
    ((l.map f).zip (l.map g)).mapM h = l.mapM fun a => h (f a, g a) := by
  induction l with
  | nil => rfl
  | cons a l ih => rw [map_cons, map_cons, zip_cons_cons, mapM_cons,
      mapM_cons, ih]

theorem mapM_eq_some_map {f : α → Option β} {g : α → β} {l : List α}
    (h : ∀ a ∈ l, f a = some (g a)) : l.mapM f = some (l.map g) := by
  induction l with
  | nil => rfl
  | cons a l ih =>
    rw [mapM_cons, h a (mem_cons_self ..), ih fun b hb => h b (mem_cons_of_mem a hb)]
    rfl

/-- A run over a list succeeds with the wanted view of every element exactly if each element
does. -/
theorem exists_mapM_map_iff {γ : Type} {f : α → Option β} {view : β → γ} {want : α → γ}
    {l : List α} :
    (∃ l', l.mapM f = some l' ∧ l'.map view = l.map want) ↔
      ∀ a ∈ l, ∃ b, f a = some b ∧ view b = want a := by
  induction l with
  | nil => simp
  | cons a l ih =>
    rw [mapM_cons, forall_mem_cons, ← ih]
    cases f a with
    | none => simp
    | some b => cases l.mapM f <;> simp

end Store
