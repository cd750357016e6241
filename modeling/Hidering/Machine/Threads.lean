import Mathlib.Logic.Function.Basic
import Mathlib.Data.List.Basic

/-!
# Threads over shared state

Threads that take turns in any order. A step belongs to one thread: it may change the state of that
thread and the shared state, and takes an input from outside. A property of a thread that its own
steps keep, and that no step of another thread can take away through the shared state, holds for all
threads after every schedule.

## Main definitions

* `Machine.turn` — one step of a chosen thread

## Main results

* `Machine.turn_invariant` — the rule for properties of single threads
-/

namespace Machine

variable {ι γ σ ε : Type*} [DecidableEq ι]

/-- The chosen thread takes a step. -/
def turn (step : γ → σ → ε → γ × σ) (st : γ × (ι → σ)) (x : ι × ε) : γ × (ι → σ) :=
  ((step st.1 (st.2 x.1) x.2).1, Function.update st.2 x.1 (step st.1 (st.2 x.1) x.2).2)

variable {step : γ → σ → ε → γ × σ} {inv : γ → σ → Prop}

/-- **Threads.** What the steps of a thread keep and those of the others cannot disturb holds for
every thread after every schedule. -/
theorem turn_invariant (hown : ∀ g s e, inv g s → inv (step g s e).1 (step g s e).2)
    (hother : ∀ g s s' e, inv g s → inv (step g s' e).1 s) {st : γ × (ι → σ)}
    (hst : ∀ i, inv st.1 (st.2 i)) (schedule : List (ι × ε)) (i : ι) :
    inv (schedule.foldl (turn step) st).1 ((schedule.foldl (turn step) st).2 i) := by
  induction schedule generalizing st with
  | nil => exact hst i
  | cons x schedule ih =>
    refine ih fun j => ?_
    by_cases hj : j = x.1
    · subst hj
      simp only [turn, Function.update_self]
      exact hown _ _ _ (hst _)
    · simp only [turn, Function.update_of_ne hj]
      exact hother _ _ _ _ (hst j)

end Machine
