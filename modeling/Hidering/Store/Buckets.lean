import Mathlib.Data.List.Perm.Basic
import Mathlib.Data.List.Nodup

/-!
# Sorting by kind

The elements of a list, taken kind by kind in a fixed order of the kinds. The result is a
rearrangement of the list that keeps the elements of each kind in their order, and it does not
change when it is sorted again.

## Main definitions

* `Store.byKind`

## Main results

* `Store.filter_byKind`, `Store.byKind_perm`, `Store.byKind_byKind`
-/

namespace Store

open List

variable {α κ : Type*} [DecidableEq κ] (kind : α → κ)

/-- The elements of a list, kind by kind. -/
def byKind (order : List κ) (l : List α) : List α :=
  order.flatMap fun k => l.filter fun a => kind a = k

variable {kind} {order : List κ} {l l' : List α} {k : κ}

@[simp] theorem byKind_nil : byKind kind [] l = [] := rfl

theorem byKind_cons :
    byKind kind (k :: order) l = l.filter (fun a => kind a = k) ++ byKind kind order l :=
  flatMap_cons ..

theorem mem_byKind {a : α} : a ∈ byKind kind order l ↔ a ∈ l ∧ kind a ∈ order := by
  simp [byKind, and_comm]

theorem byKind_append {order' : List κ} :
    byKind kind (order ++ order') l = byKind kind order l ++ byKind kind order' l :=
  flatMap_append ..

theorem filter_byKind_of_notMem (h : k ∉ order) :
    (byKind kind order l).filter (fun a => kind a = k) = [] := by
  rw [filter_eq_nil_iff]
  intro a ha hk
  rw [← of_decide_eq_true hk] at h
  exact h (mem_byKind.mp ha).2

/-- The elements of one kind keep their order. -/
theorem filter_byKind (hnodup : order.Nodup) (hk : k ∈ order) :
    (byKind kind order l).filter (fun a => kind a = k) = l.filter fun a => kind a = k := by
  induction order with
  | nil => cases hk
  | cons k' order ih =>
    obtain ⟨hnotin, hnodup⟩ := nodup_cons.mp hnodup
    rw [byKind_cons, filter_append, filter_filter]
    by_cases heq : k = k'
    · subst heq
      rw [filter_byKind_of_notMem hnotin, append_nil]
      simp
    · have hnone : (l.filter fun a => decide (kind a = k) && decide (kind a = k')) = [] := by
        rw [filter_eq_nil_iff]
        intro a _ h
        obtain ⟨hk, hk'⟩ := Bool.and_eq_true_iff.mp h
        exact heq ((of_decide_eq_true hk).symm.trans (of_decide_eq_true hk'))
      rw [hnone, nil_append]
      exact ih hnodup (mem_of_ne_of_mem heq hk)

/-- A list whose kinds are all listed is rearranged. -/
theorem byKind_perm (hnodup : order.Nodup) (hall : ∀ a ∈ l, kind a ∈ order) :
    (byKind kind order l).Perm l := by
  induction order generalizing l with
  | nil =>
    obtain rfl : l = [] := eq_nil_iff_forall_not_mem.mpr fun a ha => nomatch hall a ha
    exact List.Perm.refl _
  | cons k order ih =>
    obtain ⟨hnotin, hnodup⟩ := nodup_cons.mp hnodup
    have hrest : byKind kind order l =
        byKind kind order (l.filter fun a => !decide (kind a = k)) := by
      refine flatMap_congr fun k' hk' => ?_
      rw [filter_filter]
      refine filter_congr fun a _ => ?_
      by_cases heq : kind a = k'
      · have hne : kind a ≠ k := fun h => hnotin (h ▸ heq ▸ hk')
        simp [heq ▸ hne, heq]
      · simp [heq]
    have hsub : ∀ a ∈ l.filter (fun a => !decide (kind a = k)), kind a ∈ order := by
      intro a ha
      obtain ⟨hmem, hne⟩ := mem_filter.mp ha
      exact mem_of_ne_of_mem (by simpa using hne) (hall a hmem)
    rw [byKind_cons, hrest]
    exact ((ih hnodup hsub).append_left _).trans (filter_append_perm _ l)

/-- Sorting depends on the elements of each kind only. -/
theorem byKind_congr (h : ∀ k ∈ order, l.filter (fun a => kind a = k) =
    l'.filter fun a => kind a = k) : byKind kind order l = byKind kind order l' :=
  flatMap_congr h

/-- A sorted list is sorted already. -/
theorem byKind_byKind (hnodup : order.Nodup) :
    byKind kind order (byKind kind order l) = byKind kind order l :=
  byKind_congr fun _ hk => filter_byKind hnodup hk

end Store
