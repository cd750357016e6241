import Hidering.Store.Sorted
import Mathlib.Algebra.GroupWithZero.Nat
import Mathlib.Order.Bounds.Basic

/-!
# The block queue

The spans of blocks that a synchronising node has asked its peers for. A span is scheduled until its
blocks arrive and filled from then on. The queue is a `std::set` ordered by the start heights of the
spans only, so that spans may overlap but no two start at the same height.

The lock is left out, and so is what the spans hold apart from their heights. Heights are natural
numbers with the 64-bit sums written out.

## Main definitions

* `Hidering.Span`, `Span.Covers`, `Hidering.BlockMap`
* `Hidering.BlockMap.getNextNeededHeight`

## Main results

* `Hidering.BlockMap.isLeast_getNextNeededHeight` — the first height that no span covers
-/

namespace Hidering

/-- `block_queue::span`: the heights of blocks asked for from one connection. -/
structure Span where
  startBlockHeight : ℕ
  nblocks : ℕ
  deriving DecidableEq

/-- The height lies in the span. -/
def Span.Covers (s : Span) (h : ℕ) : Prop :=
  s.startBlockHeight ≤ h ∧ h < s.startBlockHeight + s.nblocks

/-- `block_queue::block_map`: the spans in the order of their start heights. -/
structure BlockMap where
  spans : List Span
  sorted : Store.Sorted Span.startBlockHeight spans

/-! ### The next needed height -/

namespace BlockMap

/-- The loop of `get_next_needed_height`, which has covered everything below `covered`. -/
def neededLoop (b : ℕ) : ℕ → List Span → ℕ
  | covered, [] => covered
  | covered, s :: rest =>
    if (s.startBlockHeight + s.nblocks + (2 ^ 64 - 1)) % 2 ^ 64 < b then neededLoop b covered rest
    else if covered < s.startBlockHeight then covered
    else neededLoop b (max covered ((s.startBlockHeight + s.nblocks) % 2 ^ 64)) rest

/-- `get_next_needed_height`. -/
def getNextNeededHeight (q : BlockMap) (b : ℕ) : ℕ := neededLoop b b q.spans

/-- A span moves the end of what is covered, or leaves it where it is. -/
theorem uncovered_cons {s : Span} {rest : List Span} {c d : ℕ}
    (h : ∀ x, d ≤ x ↔ c ≤ x ∧ ¬ s.Covers x) :
    {x | c ≤ x ∧ ∀ t ∈ s :: rest, ¬ t.Covers x} = {x | d ≤ x ∧ ∀ t ∈ rest, ¬ t.Covers x} := by
  ext x
  simp only [List.forall_mem_cons, Set.mem_ofPred_eq, h x, and_assoc]

theorem isLeast_neededLoop {b : ℕ} {l : List Span}
    (hsorted : Store.Sorted Span.startBlockHeight l)
    (hspans : ∀ s ∈ l, 0 < s.nblocks ∧ s.startBlockHeight + s.nblocks < 2 ^ 64) {covered : ℕ}
    (hb : b ≤ covered) :
    IsLeast {x | covered ≤ x ∧ ∀ s ∈ l, ¬ s.Covers x} (neededLoop b covered l) := by
  -- induction on the spans that are left, for every end of what is covered
  induction l generalizing covered with
  | nil => exact ⟨⟨le_rfl, by simp⟩, fun x hx => hx.1⟩
  | cons s rest ih =>
    obtain ⟨hfirst, hrest⟩ := List.pairwise_cons.mp hsorted
    obtain ⟨⟨hpos, hend⟩, hspans⟩ := List.forall_mem_cons.mp hspans
    have hlast : (s.startBlockHeight + s.nblocks + (2 ^ 64 - 1)) % 2 ^ 64 =
        s.startBlockHeight + s.nblocks - 1 := by
      omega
    rw [neededLoop, hlast, Nat.mod_eq_of_lt hend]
    split_ifs with hbelow hgap
    · rw [uncovered_cons (d := covered) fun x => by unfold Span.Covers; omega]
      exact ih hrest hspans hb
    · -- the first gap: every later span starts above it too
      refine ⟨⟨le_rfl, List.forall_mem_cons.mpr ⟨fun h => ?_, fun t ht h => ?_⟩⟩, fun x hx => hx.1⟩
      · exact absurd h.1 (not_le.mpr hgap)
      · exact absurd h.1 (not_le.mpr (hgap.trans (hfirst t ht)))
    · rw [uncovered_cons (d := max covered (s.startBlockHeight + s.nblocks))
        fun x => by unfold Span.Covers; omega]
      exact ih hrest hspans (hb.trans (le_max_left _ _))

/-- **Next needed height.** Where no span is empty and no end wraps around, it is the least height
from the blockchain height on that no span covers. -/
theorem isLeast_getNextNeededHeight (q : BlockMap) (b : ℕ)
    (hspans : ∀ s ∈ q.spans, 0 < s.nblocks ∧ s.startBlockHeight + s.nblocks < 2 ^ 64) :
    IsLeast {x | b ≤ x ∧ ∀ s ∈ q.spans, ¬ s.Covers x} (q.getNextNeededHeight b) :=
  isLeast_neededLoop q.sorted hspans le_rfl

theorem overlapping_sorted : Store.Sorted Span.startBlockHeight
    [⟨5, 10⟩, ⟨7, 2⟩, ⟨15, 5⟩, ⟨30, 5⟩] := by
  unfold Store.Sorted
  decide

/-- Spans that overlap, nest and leave a gap. -/
def overlapping : BlockMap := ⟨_, overlapping_sorted⟩

theorem isLeast_getNextNeededHeight_overlapping :
    overlapping.getNextNeededHeight 6 = 20 ∧
      IsLeast {x | 6 ≤ x ∧ ∀ s ∈ overlapping.spans, ¬ s.Covers x} 20 :=
  ⟨by decide, isLeast_getNextNeededHeight overlapping 6 (by decide)⟩

end BlockMap

end Hidering
