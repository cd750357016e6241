import Mathlib.Data.List.Basic

/-!
# Hash trees

A binary tree whose inner nodes stand for the hash of two values. Two fillings of one tree that lead
to the same root agree at all leaves, unless two different pairs that are hashed on the way have the
same hash.

## Main definitions

* `Commit.HashTree`, `HashTree.leaves`, `HashTree.eval`, `HashTree.pairs`

## Main results

* `Commit.HashTree.eval_binding`
-/

namespace Commit

/-- A tree with leaves in `α`. -/
inductive HashTree (α : Type*) where
  | leaf (a : α)
  | node (l r : HashTree α)

namespace HashTree

variable {α β : Type*}

/-- The leaves, from left to right. -/
def leaves : HashTree α → List α
  | leaf a => [a]
  | node l r => l.leaves ++ r.leaves

section

variable (hash : β → β → β) (f : α → β)

/-- The value of the root. -/
def eval : HashTree α → β
  | leaf a => f a
  | node l r => hash l.eval r.eval

/-- The pairs that are hashed. -/
def pairs : HashTree α → List (β × β)
  | leaf _ => []
  | node l r => (l.eval hash f, r.eval hash f) :: (l.pairs ++ r.pairs)

end

variable {hash : β → β → β} {f g : α → β}

/-- **Binding.** Equal roots have equal leaves, or show a collision. -/
theorem eval_binding {t : HashTree α} (h : t.eval hash f = t.eval hash g) :
    (∀ a ∈ t.leaves, f a = g a) ∨
      ∃ p ∈ t.pairs hash f, ∃ q ∈ t.pairs hash g, p ≠ q ∧ hash p.1 p.2 = hash q.1 q.2 := by
  induction t with
  | leaf b => exact .inl fun a ha => List.mem_singleton.mp ha ▸ h
  | node l r ihl ihr =>
    by_cases heq : l.eval hash f = l.eval hash g ∧ r.eval hash f = r.eval hash g
    · rcases ihl heq.1 with hl | ⟨p, hp, q, hq, hpq⟩
      · rcases ihr heq.2 with hr | ⟨p, hp, q, hq, hpq⟩
        · exact .inl fun a ha => (List.mem_append.mp ha).elim (hl a) (hr a)
        · exact .inr ⟨p, by simp [pairs, hp], q, by simp [pairs, hq], hpq⟩
      · exact .inr ⟨p, by simp [pairs, hp], q, by simp [pairs, hq], hpq⟩
    · refine .inr ⟨_, List.mem_cons_self, _, List.mem_cons_self, fun hpq => heq ?_, h⟩
      exact Prod.mk.inj hpq

end HashTree

end Commit
