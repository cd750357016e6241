import Mathlib.Data.List.Basic

/-!
# Runs with side conditions

A system that takes one input after another, `step : σ → ι → σ`, and a condition on the inputs that
may depend on the state in which they come. `Along` says that every input of a run meets the
condition; an invariant that one such step keeps holds at the end of the run.

## Main definitions

* `Machine.Along` — all inputs of a run meet a condition

## Main results

* `Machine.Along.invariant` — the induction over a run
* `Machine.along_append` — runs over two lists
-/

namespace Machine

variable {σ ι : Type*} {step : σ → ι → σ} {cond : σ → ι → Prop} {inv : σ → Prop}

variable (step cond) in
/-- Every input of the run meets the condition in the state in which it comes. -/
def Along : σ → List ι → Prop
  | _, [] => True
  | s, i :: is => cond s i ∧ Along (step s i) is

/-- **Invariants.** What every allowed step keeps holds at the end of a run. -/
theorem Along.invariant (hstep : ∀ s i, inv s → cond s i → inv (step s i)) {s : σ} {is : List ι}
    (h : Along step cond s is) (hs : inv s) : inv (is.foldl step s) := by
  induction is generalizing s with
  | nil => exact hs
  | cons i is ih => exact ih h.2 (hstep s i hs h.1)

/-- A run over two lists is a run over the first, followed by one over the second. -/
theorem along_append {s : σ} {is js : List ι} :
    Along step cond s (is ++ js) ↔ Along step cond s is ∧ Along step cond (is.foldl step s) js := by
  induction is generalizing s with
  | nil => exact (iff_of_eq (true_and _)).symm
  | cons i is ih =>
    rw [List.cons_append, Along, Along, ih, and_assoc]
    rfl

/-- A call that reports success, evaluated together with a test of its result. -/
theorem exists_of_trueAnd {r : Bool × σ} {q : σ → Bool} (h : (r.1 && q r.2) = true) :
    ∃ s, r = (true, s) ∧ q s = true := by
  obtain ⟨ok, s⟩ := r
  obtain ⟨hok, hq⟩ := Bool.and_eq_true_iff.mp h
  obtain rfl : ok = true := hok
  exact ⟨s, rfl, hq⟩

end Machine
