import Mathlib.Data.List.Basic
import Mathlib.Order.Lattice

/-!
# Sorted lists searched by bisection

A list whose entries have strictly increasing keys, as `std::lower_bound` needs it. `lowerBound` is
the position of the first entry whose key is not below the wanted one. Where the list is sorted the
search splits it: either an entry with the wanted key stands at that position, or the position
separates the smaller keys from the greater ones and a new entry fits there (`lowerBound_cases`).

## Main definitions

* `Store.lowerBound`, `Store.Sorted`

## Main results

* `Store.Sorted.lowerBound_cases` — what a search finds
* `Store.Sorted.insert`, `Store.Sorted.erase` — an entry put in or taken out there
* `Store.Sorted.eq_of_mem` — keys are unique
-/

namespace Store

open List

variable {α κ : Type*} [LinearOrder κ] {key : α → κ} {l : List α} {k : κ}

/-- `std::lower_bound`: the position of the first entry whose key is not less than `k`. -/
def lowerBound (key : α → κ) (l : List α) (k : κ) : ℕ := l.findIdx fun a => !decide (key a < k)

/-- The keys increase strictly. -/
def Sorted (key : α → κ) (l : List α) : Prop := l.Pairwise fun a b => key a < key b

/-- **What a search finds.** The position separates the smaller keys from the greater ones, and the
entry with the wanted key, if there is one, stands there. -/
theorem Sorted.lowerBound_cases (h : Sorted key l) (k : κ) :
    ∃ front back, (∀ a ∈ front, key a < k) ∧ (∀ a ∈ back, k < key a) ∧
      lowerBound key l k = front.length ∧
        (l = front ++ back ∨ ∃ a, key a = k ∧ l = front ++ a :: back) := by
  -- induction on the list: a smaller entry goes to the front, any other one ends the search
  induction l with
  | nil => exact ⟨[], [], by simp, by simp, rfl, Or.inl rfl⟩
  | cons b l ih =>
    obtain ⟨hb, hl⟩ := pairwise_cons.mp h
    rcases lt_trichotomy (key b) k with hlt | heq | hgt
    · obtain ⟨front, back, hfront, hback, hpos, hsplit⟩ := ih hl
      refine ⟨b :: front, back, forall_mem_cons.mpr ⟨hlt, hfront⟩, hback, ?_, ?_⟩
      · rw [length_cons, ← hpos]
        simp [lowerBound, findIdx_cons, hlt]
      · rcases hsplit with rfl | ⟨a, ha, rfl⟩
        exacts [Or.inl rfl, Or.inr ⟨a, ha, rfl⟩]
    · refine ⟨[], l, by simp, fun a ha => heq ▸ hb a ha, ?_, Or.inr ⟨b, heq, rfl⟩⟩
      simp [lowerBound, findIdx_cons, heq]
    · refine ⟨[], b :: l, by simp, ?_, ?_, Or.inl rfl⟩
      · exact forall_mem_cons.mpr ⟨hgt, fun a ha => hgt.trans (hb a ha)⟩
      · simp [lowerBound, findIdx_cons, not_lt.mpr hgt.le]

/-- An entry put between the smaller and the greater keys. -/
theorem Sorted.insert {front back : List α} (h : Sorted key (front ++ back)) {a : α}
    (hfront : ∀ b ∈ front, key b < key a) (hback : ∀ b ∈ back, key a < key b) :
    Sorted key (front ++ a :: back) := by
  obtain ⟨hf, hb, hfb⟩ := pairwise_append.mp h
  refine pairwise_append.mpr ⟨hf, pairwise_cons.mpr ⟨hback, hb⟩, fun x hx => ?_⟩
  exact forall_mem_cons.mpr ⟨hfront x hx, hfb x hx⟩

theorem Sorted.erase {front back : List α} {a : α} (h : Sorted key (front ++ a :: back)) :
    Sorted key (front ++ back) :=
  List.Pairwise.sublist (List.Sublist.append_left (sublist_cons_self ..) _) h

theorem insertIdx_append_length (front back : List α) (a : α) :
    (front ++ back).insertIdx front.length a = front ++ a :: back := by
  induction front with
  | nil => rfl
  | cons b front ih =>
    rw [cons_append, length_cons, insertIdx_succ_cons, ih, cons_append]

/-- There is one entry for each key. -/
theorem Sorted.eq_of_mem (h : Sorted key l) {a b : α} (ha : a ∈ l) (hb : b ∈ l)
    (hkey : key a = key b) : a = b := by
  have hpair : ∀ ⦃x⦄, x ∈ l → ∀ ⦃y⦄, y ∈ l → key x = key y → x = y :=
    List.Pairwise.forall_of_forall_of_flip (fun x _ _ => rfl)
      (h.imp fun hlt e => absurd e hlt.ne) (h.imp fun hlt e => absurd e hlt.ne')
  exact hpair ha hb hkey

end Store
