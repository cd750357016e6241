import Hidering.Median.Rank
import Mathlib.Logic.Equiv.Basic

/-!
# A rolling median

`rolling_median_t` of `rolling_median.h`: the median of the last `N` items, kept up to date in
`O(log N)`. The items stand in a circular queue. Their indices stand in two heaps that share the
median as their root: position 0 of `heap`, with the items above the median at the positive
positions and those below it at the negative ones. Position `i` has its parent at `i / 2`, so that
the two heaps are mirror images of each other, and what is proved about one side holds for both.

This module has the functions and the repairs of the heaps; what a structure holds is said in
`Median.Window`.

## Main definitions

* `Median.RollingMedian`, `clear`, `insert`, `median`
* `Median.RollingMedian.Ordered` — the order of one heap

## Main results

* `Median.RollingMedian.sortDown_spec`, `sortUp_spec` — the repairs of a heap
* `Median.RollingMedian.raise_spec`, `fixMedian_spec` — the repairs of both heaps
-/

namespace Median

/-- The two heaps. -/
inductive Side
  | min
  | max

namespace Side

/-- Position `n` of a heap. -/
def slot : Side → ℕ → ℤ
  | .min, n => n
  | .max, n => -n

/-- The other heap. -/
def other : Side → Side
  | .min => .max
  | .max => .min

variable {α : Type*} [LinearOrder α] {a b c : α}

/-- The first item belongs strictly above the second in the heap. -/
def lt : Side → α → α → Prop
  | .min, a, b => a < b
  | .max, a, b => b < a

/-- The first item may stand above the second in the heap. -/
def le : Side → α → α → Prop
  | .min, a, b => a ≤ b
  | .max, a, b => b ≤ a

instance : (s : Side) → (a b : α) → Decidable (s.lt a b)
  | .min, a, b => inferInstanceAs (Decidable (a < b))
  | .max, a, b => inferInstanceAs (Decidable (b < a))

variable {s : Side}

theorem refl (s : Side) (a : α) : s.le a a := by
  cases s <;> exact le_refl a

theorem le.trans (h : s.le a b) (h' : s.le b c) : s.le a c := by
  cases s
  · exact le_trans h h'
  · exact le_trans h' h

theorem lt.le (h : s.lt a b) : s.le a b := by
  cases s <;> exact le_of_lt h

theorem not_lt_iff : ¬ s.lt a b ↔ s.le b a := by
  cases s <;> exact not_lt

theorem le_other : s.other.le a b ↔ s.le b a := by cases s <;> rfl

@[simp] theorem slot_zero (s : Side) : s.slot 0 = 0 := by cases s <;> rfl

@[simp] theorem other_other (s : Side) : s.other.other = s := by cases s <;> rfl

theorem slot_inj {n m : ℕ} : s.slot n = s.slot m ↔ n = m := by
  cases s <;> simp only [slot] <;> omega

theorem slot_other_ne {n m : ℕ} (hn : 1 ≤ n) : s.other.slot n ≠ s.slot m := by
  cases s <;> simp only [other, slot] <;> omega

end Side

/-! ### The source functions -/

/-- `rolling_median_t`. -/
structure RollingMedian (α : Type*) where
  /-- circular queue of values -/
  data : ℕ → α
  /-- index into `heap` for each value -/
  pos : ℕ → ℤ
  /-- max/median/min heap holding indexes into `data` -/
  heap : ℤ → ℕ
  /-- allocated size -/
  N : ℕ
  /-- position in circular queue -/
  idx : ℕ
  /-- count of items in min heap -/
  minCt : ℕ
  /-- count of items in max heap -/
  maxCt : ℕ
  /-- count of items in heap -/
  sz : ℕ

namespace RollingMedian

section Source

variable {α : Type*}

/-- The initial heap fill pattern: median, max, min, max, ... -/
def fillPos (n : ℕ) : ℤ := ((n + 1) / 2 : ℕ) * (if n % 2 = 1 then -1 else 1)

/-- The index that the fill pattern puts at a position. -/
def fillIndex (p : ℤ) : ℕ := if p < 0 then 2 * p.natAbs - 1 else 2 * p.natAbs

/-- `clear`. -/
def clear (r : RollingMedian α) : RollingMedian α :=
  { r with idx := 0, minCt := 0, maxCt := 0, sz := 0, pos := fillPos, heap := fillIndex }

/-- `rolling_median_t(N)`; the storage is not initialised. -/
def create (N : ℕ) (data : ℕ → α) : RollingMedian α :=
  clear ⟨data, fillPos, fillIndex, N, 0, 0, 0, 0⟩

/-- The item at a position. -/
def val (r : RollingMedian α) (p : ℤ) : α := r.data (r.heap p)

/-- The number of items of a heap. -/
def ct (r : RollingMedian α) : Side → ℕ
  | .min => r.minCt
  | .max => r.maxCt

/-- The item at position `n` of a heap. -/
def key (r : RollingMedian α) (s : Side) (n : ℕ) : α := r.val (s.slot n)

/-- `mmexchange`: swaps items `i` and `j` in `heap`, maintains indexes. -/
def mmexchange (r : RollingMedian α) (i j : ℤ) : RollingMedian α :=
  let heap := Function.update (Function.update r.heap i (r.heap j)) j (r.heap i)
  { r with
    heap := heap
    pos := Function.update (Function.update r.pos (heap i) i) (heap j) j }

variable [LinearOrder α]

/-- `mmCmpExch`: swaps items `i` and `j` if `i < j`; true if swapped. -/
def mmCmpExch (r : RollingMedian α) (i j : ℤ) : RollingMedian α × Bool :=
  if r.val i < r.val j then (r.mmexchange i j, true) else (r, false)

/-- The child of `i` that `sortDown` looks at: the second one, if there is one and it belongs above
the first. -/
def child (r : RollingMedian α) (s : Side) (i : ℕ) : ℕ :=
  if 2 * i < r.ct s ∧ s.lt (r.key s (2 * i + 1)) (r.key s (2 * i)) then 2 * i + 1 else 2 * i

/-- `minSortDown` and `maxSortDown`: maintains the heap property for all items below `i`. -/
def sortDown (s : Side) : ℕ → ℕ → RollingMedian α → RollingMedian α
  | 0, _, r => r
  | fuel + 1, i, r =>
    if r.ct s < 2 * i then r
    else if s.lt (r.key s (r.child s i)) (r.key s (r.child s i / 2)) then
      sortDown s fuel (r.child s i) (r.mmexchange (s.slot (r.child s i)) (s.slot (r.child s i / 2)))
    else r

/-- `minSortUp` and `maxSortUp`: maintains the heap property for all items above `i`, including the
median; true if the median changed. -/
def sortUp (s : Side) : ℕ → ℕ → RollingMedian α → RollingMedian α × Bool
  | 0, i, r => (r, i = 0)
  | fuel + 1, i, r =>
    if 0 < i ∧ s.lt (r.key s i) (r.key s (i / 2)) then
      sortUp s fuel (i / 2) (r.mmexchange (s.slot i) (s.slot (i / 2)))
    else (r, i = 0)

/-- `minSortDown(p)`. -/
def minSortDown (r : RollingMedian α) (p : ℤ) : RollingMedian α :=
  sortDown .min r.minCt p.natAbs r

/-- `maxSortDown(p)`. -/
def maxSortDown (r : RollingMedian α) (p : ℤ) : RollingMedian α :=
  sortDown .max r.maxCt p.natAbs r

/-- `minSortUp(p)`. -/
def minSortUp (r : RollingMedian α) (p : ℤ) : RollingMedian α × Bool :=
  sortUp .min p.natAbs p.natAbs r

/-- `maxSortUp(p)`. -/
def maxSortUp (r : RollingMedian α) (p : ℤ) : RollingMedian α × Bool :=
  sortUp .max p.natAbs p.natAbs r

/-- An item of the min heap that moves up; if it becomes the median, the max heap is repaired. -/
def minRaise (r : RollingMedian α) (p : ℤ) : RollingMedian α :=
  let up := r.minSortUp p
  if up.2 then
    let root := up.1.mmCmpExch 0 (-1)
    if root.2 then root.1.maxSortDown (-1) else root.1
  else up.1

/-- An item of the max heap that moves up; if it becomes the median, the min heap is repaired. -/
def maxRaise (r : RollingMedian α) (p : ℤ) : RollingMedian α :=
  let up := r.maxSortUp p
  if up.2 ∧ 0 < up.1.minCt then
    let root := up.1.mmCmpExch 1 0
    if root.2 then root.1.minSortDown 1 else root.1
  else up.1

/-- A new item at the median. -/
def fixMedian (r : RollingMedian α) : RollingMedian α :=
  let up := r.maxSortUp (-1)
  let r := if 0 < r.maxCt then if up.2 then up.1.maxSortDown (-1) else up.1 else r
  let up := r.minSortUp 1
  if 0 < r.minCt then if up.2 then up.1.minSortDown 1 else up.1 else r

/-- `insert`: inserts item, maintains median. -/
def insert (r : RollingMedian α) (v : α) : RollingMedian α :=
  let p := r.pos r.idx
  let old := r.data r.idx
  let r := { r with
    data := Function.update r.data r.idx v
    idx := (r.idx + 1) % r.N
    sz := min (r.sz + 1) r.N }
  if 0 < p then
    if r.minCt < (r.N - 1) / 2 then minRaise { r with minCt := r.minCt + 1 } p
    else if old < v then r.minSortDown p
    else r.minRaise p
  else if p < 0 then
    if r.maxCt < r.N / 2 then maxRaise { r with maxCt := r.maxCt + 1 } p
    else if v < old then r.maxSortDown p
    else r.maxRaise p
  else r.fixMedian

/-- `median`: the median item, or the middle of 2 when the item count is even. -/
def median (mid : α → α → α) (r : RollingMedian α) : α :=
  if r.minCt < r.maxCt then mid (r.val 0) (r.val (-1)) else r.val 0

end Source

/-! ### Exchanging items -/

section Wired

variable {α : Type*} {r r' r'' : RollingMedian α} {p i j : ℤ} {n m : ℕ} {s : Side}

/-- The positions of the heaps when `N` items are in. -/
def InRange (r : RollingMedian α) (p : ℤ) : Prop :=
  -((r.N / 2 : ℕ) : ℤ) ≤ p ∧ p ≤ ((r.N - 1) / 2 : ℕ)

/-- `pos` and `heap` are inverse to each other. -/
structure Wired (r : RollingMedian α) : Prop where
  minCt_le : r.minCt ≤ (r.N - 1) / 2
  maxCt_le : r.maxCt ≤ r.N / 2
  inRange : ∀ n < r.N, r.InRange (r.pos n)
  heap_pos : ∀ n < r.N, r.heap (r.pos n) = n
  heap_lt : ∀ p, r.InRange p → r.heap p < r.N
  pos_heap : ∀ p, r.InRange p → r.pos (r.heap p) = p

theorem Wired.slot_inRange (h : r.Wired) (hn : n ≤ r.ct s) : r.InRange (s.slot n) := by
  have hmin := h.minCt_le
  have hmax := h.maxCt_le
  cases s <;> simp only [ct, Side.slot, InRange] at hn ⊢ <;> omega

theorem mmexchange_heap (hij : i ≠ j) (p : ℤ) :
    (r.mmexchange i j).heap p = r.heap (Equiv.swap i j p) := by
  simp only [mmexchange, Function.update_apply, Equiv.swap_apply_def]
  split_ifs <;> simp_all

theorem mmexchange_val (hij : i ≠ j) (p : ℤ) :
    (r.mmexchange i j).val p = r.val (Equiv.swap i j p) := by
  rw [val, mmexchange_heap hij]
  rfl

theorem Wired.mmexchange_pos (h : r.Wired) (hi : r.InRange i) (hj : r.InRange j) (hij : i ≠ j)
    (hn : n < r.N) : (r.mmexchange i j).pos n = Equiv.swap i j (r.pos n) := by
  have hheap : ∀ p, r.InRange p → (n = r.heap p ↔ r.pos n = p) := fun p hp =>
    ⟨fun h' => h' ▸ h.pos_heap p hp, fun h' => h' ▸ (h.heap_pos n hn).symm⟩
  simp only [mmexchange, Function.update_apply, Equiv.swap_apply_def, if_true, if_neg hij,
    hheap i hi, hheap j hj]

/-- Swapping two positions keeps `pos` and `heap` inverse to each other. -/
theorem Wired.mmexchange (h : r.Wired) (hi : r.InRange i) (hj : r.InRange j) (hij : i ≠ j) :
    (r.mmexchange i j).Wired := by
  have hswap : ∀ p, r.InRange p → r.InRange (Equiv.swap i j p) := by
    intro p hp
    rw [Equiv.swap_apply_def]
    split_ifs <;> assumption
  refine ⟨h.minCt_le, h.maxCt_le, fun n hn => ?_, fun n hn => ?_, fun p hp => ?_, fun p hp => ?_⟩
  · rw [h.mmexchange_pos hi hj hij hn]
    exact hswap _ (h.inRange n hn)
  · rw [h.mmexchange_pos hi hj hij hn, mmexchange_heap hij, Equiv.swap_apply_self]
    exact h.heap_pos n hn
  · rw [mmexchange_heap hij]
    exact h.heap_lt _ (hswap p hp)
  · rw [mmexchange_heap hij, h.mmexchange_pos hi hj hij (h.heap_lt _ (hswap p hp)),
      h.pos_heap _ (hswap p hp), Equiv.swap_apply_self]

/-- Items have moved between the positions of a set only. -/
structure Moved (S : Set ℤ) (r r' : RollingMedian α) : Prop where
  data : r'.data = r.data
  N : r'.N = r.N
  idx : r'.idx = r.idx
  minCt : r'.minCt = r.minCt
  maxCt : r'.maxCt = r.maxCt
  sz : r'.sz = r.sz
  wired : r'.Wired
  heap : ∀ p, p ∉ S → r'.heap p = r.heap p

namespace Moved

variable {S T : Set ℤ}

theorem refl (h : r.Wired) : Moved S r r := ⟨rfl, rfl, rfl, rfl, rfl, rfl, h, fun _ _ => rfl⟩

theorem trans (h : Moved S r r') (h' : Moved S r' r'') : Moved S r r'' where
  data := h'.data.trans h.data
  N := h'.N.trans h.N
  idx := h'.idx.trans h.idx
  minCt := h'.minCt.trans h.minCt
  maxCt := h'.maxCt.trans h.maxCt
  sz := h'.sz.trans h.sz
  wired := h'.wired
  heap p hp := (h'.heap p hp).trans (h.heap p hp)

theorem mono (hST : S ⊆ T) (h : Moved S r r') : Moved T r r' :=
  { h with heap := fun p hp => h.heap p fun hS => hp (hST hS) }

theorem val (h : Moved S r r') (hp : p ∉ S) : r'.val p = r.val p := by
  rw [RollingMedian.val, h.heap p hp, h.data]
  rfl

theorem ct (h : Moved S r r') (s : Side) : r'.ct s = r.ct s := by
  cases s
  · exact h.minCt
  · exact h.maxCt

theorem inRange (h : Moved S r r') : r'.InRange p ↔ r.InRange p := by
  rw [InRange, InRange, h.N]

/-- An item whose position is outside the set stays where it is. -/
theorem pos (h : Moved S r r') (hw : r.Wired) (hn : n < r.N) (hp : r.pos n ∉ S) :
    r'.pos n = r.pos n := by
  have hheap : r'.heap (r.pos n) = n := (h.heap _ hp).trans (hw.heap_pos n hn)
  have hpos := h.wired.pos_heap _ (h.inRange.mpr (hw.inRange n hn))
  rwa [hheap] at hpos

/-- An item whose position is in the set stays in it. -/
theorem pos_mem_iff (h : Moved S r r') (hw : r.Wired) (hn : n < r.N) :
    r'.pos n ∈ S ↔ r.pos n ∈ S := by
  refine ⟨fun h' => by_contra fun hp => hp (h.pos hw hn hp ▸ h'), fun h' => by_contra fun hp => ?_⟩
  have hn' : n < r'.N := h.N ▸ hn
  have hheap : r.heap (r'.pos n) = n := (h.heap _ hp).symm.trans (h.wired.heap_pos n hn')
  have hpos := hw.pos_heap _ (h.inRange.mp (h.wired.inRange n hn'))
  rw [hheap] at hpos
  exact hp (hpos ▸ h')

end Moved

theorem Wired.moved_mmexchange {S : Set ℤ} (h : r.Wired) (hi : r.InRange i) (hj : r.InRange j)
    (hij : i ≠ j) (hiS : i ∈ S) (hjS : j ∈ S) : Moved S r (r.mmexchange i j) where
  data := rfl
  N := rfl
  idx := rfl
  minCt := rfl
  maxCt := rfl
  sz := rfl
  wired := h.mmexchange hi hj hij
  heap p hp := by
    have hpi : p ≠ i := by
      rintro rfl
      exact hp hiS
    have hpj : p ≠ j := by
      rintro rfl
      exact hp hjS
    rw [mmexchange_heap hij, Equiv.swap_apply_of_ne_of_ne hpi hpj]

/-- The positions of a heap from its `lo`-th on. -/
def slots (r : RollingMedian α) (s : Side) (lo : ℕ) : Set ℤ :=
  { p | ∃ n, lo ≤ n ∧ n ≤ r.ct s ∧ p = s.slot n }

theorem Moved.slots {S : Set ℤ} (h : Moved S r r') (s : Side) (lo : ℕ) :
    r'.slots s lo = r.slots s lo := by
  rw [RollingMedian.slots, h.ct, RollingMedian.slots]

theorem slots_mono {lo lo' : ℕ} (h : lo' ≤ lo) : r.slots s lo ⊆ r.slots s lo' :=
  fun _ ⟨n, hn, hct, hp⟩ => ⟨n, h.trans hn, hct, hp⟩

theorem slot_notMem_slots {lo : ℕ} (h : n < lo) : s.slot n ∉ r.slots s lo := by
  rintro ⟨m, hm, -, hp⟩
  rw [Side.slot_inj] at hp
  omega

theorem slot_other_notMem_slots {lo : ℕ} (h : 1 ≤ n) : s.other.slot n ∉ r.slots s lo := by
  rintro ⟨m, -, -, hp⟩
  exact Side.slot_other_ne h hp

/-- The positions that are in use. -/
def active (r : RollingMedian α) : Set ℤ := { p | -(r.maxCt : ℤ) ≤ p ∧ p ≤ r.minCt }

theorem slots_subset_active (s : Side) (lo : ℕ) : r.slots s lo ⊆ r.active := by
  rintro p ⟨n, -, hn, rfl⟩
  change -(r.maxCt : ℤ) ≤ s.slot n ∧ s.slot n ≤ r.minCt
  cases s <;> simp only [Side.slot, ct] at hn ⊢ <;> omega

/-- The items of one heap after an exchange of two of its positions. -/
theorem key_mmexchange {i j n : ℕ} (hij : i ≠ j) :
    (r.mmexchange (s.slot i) (s.slot j)).key s n =
      if n = i then r.key s j else if n = j then r.key s i else r.key s n := by
  have hslot : s.slot i ≠ s.slot j := fun h => hij (Side.slot_inj.mp h)
  rw [key, mmexchange_val hslot, Equiv.swap_apply_def]
  simp only [Side.slot_inj]
  split_ifs <;> rfl

@[simp] theorem ct_mmexchange {i j : ℤ} : (r.mmexchange i j).ct s = r.ct s := by cases s <;> rfl

theorem Wired.moved_slots (h : r.Wired) {i j lo : ℕ} (hi : i ≤ r.ct s) (hj : j ≤ r.ct s)
    (hij : i ≠ j) (hloi : lo ≤ i) (hloj : lo ≤ j) :
    Moved (r.slots s lo) r (r.mmexchange (s.slot i) (s.slot j)) :=
  h.moved_mmexchange (h.slot_inRange hi) (h.slot_inRange hj) (fun h' => hij (Side.slot_inj.mp h'))
    ⟨i, hloi, hi, rfl⟩ ⟨j, hloj, hj, rfl⟩

theorem mmexchange_comm {i j : ℤ} (hij : i ≠ j) (hne : r.heap i ≠ r.heap j) :
    r.mmexchange i j = r.mmexchange j i := by
  have hheap : Function.update (Function.update r.heap i (r.heap j)) j (r.heap i) =
      Function.update (Function.update r.heap j (r.heap i)) i (r.heap j) :=
    Function.update_comm hij _ _ _
  simp only [mmexchange, hheap, Function.update_self, Function.update_of_ne hij.symm]
  rw [Function.update_comm hne]

theorem Wired.heap_ne (hw : r.Wired) {p q : ℤ} (hp : r.InRange p) (hq : r.InRange q) (h : p ≠ q) :
    r.heap p ≠ r.heap q := fun heq =>
  h (by rw [← hw.pos_heap p hp, heq, hw.pos_heap q hq])

theorem key_zero (s : Side) : r.key s 0 = r.val 0 := by rw [key, Side.slot_zero]

/-- Moving items of one heap leaves the other one as it is, up to the root. -/
theorem Moved.key_other {lo : ℕ} (h : Moved (r.slots s lo) r r') (hn : 1 ≤ n) :
    r'.key s.other n = r.key s.other n := h.val (slot_other_notMem_slots hn)

end Wired

/-! ### The order of a heap -/

section Order

variable {α : Type*} [LinearOrder α] {r r' : RollingMedian α} {s : Side} {i n : ℕ} {fuel : ℕ}

/-- No item of the heap belongs above its parent. -/
def Ordered (r : RollingMedian α) (s : Side) : Prop :=
  ∀ n, 1 ≤ n → n ≤ r.ct s → s.le (r.key s (n / 2)) (r.key s n)

/-- The heap is in order except for the children of `i`, which are in order with the parent of
`i`. -/
structure DownOrder (r : RollingMedian α) (s : Side) (i : ℕ) : Prop where
  off : ∀ n, 1 ≤ n → n ≤ r.ct s → n / 2 ≠ i → s.le (r.key s (n / 2)) (r.key s n)
  grand : ∀ n, 1 ≤ n → n ≤ r.ct s → n / 2 = i → s.le (r.key s (i / 2)) (r.key s n)

/-- The heap is in order except for `i` and its parent, and the children of `i` are in order with
the parent of `i`. -/
structure UpOrder (r : RollingMedian α) (s : Side) (i : ℕ) : Prop where
  off : ∀ n, 1 ≤ n → n ≤ r.ct s → n ≠ i → s.le (r.key s (n / 2)) (r.key s n)
  grand : 1 ≤ i → ∀ n, 1 ≤ n → n ≤ r.ct s → n / 2 = i → s.le (r.key s (i / 2)) (r.key s n)

theorem child_spec (hct : 2 * i ≤ r.ct s) :
    r.child s i ≤ r.ct s ∧ r.child s i / 2 = i ∧
      ∀ n, n ≤ r.ct s → n / 2 = i → s.le (r.key s (r.child s i)) (r.key s n) := by
  rw [child]
  split_ifs with h
  · refine ⟨h.1, by omega, fun n hn hni => ?_⟩
    rcases (show n = 2 * i ∨ n = 2 * i + 1 by omega) with rfl | rfl
    · exact h.2.le
    · exact s.refl _
  · refine ⟨hct, by omega, fun n hn hni => ?_⟩
    rcases (show n = 2 * i ∨ n = 2 * i + 1 by omega) with rfl | rfl
    · exact s.refl _
    · exact Side.not_lt_iff.mp fun hlt => h ⟨hn, hlt⟩

/-- One round of `sortDown`: the child that moves up leaves its place to be repaired. -/
theorem DownOrder.exchange (h : r.DownOrder s i) (hi : 1 ≤ i) (hct : 2 * i ≤ r.ct s)
    (hlt : s.lt (r.key s (r.child s i)) (r.key s i)) :
    (r.mmexchange (s.slot (r.child s i)) (s.slot i)).DownOrder s (r.child s i) := by
  obtain ⟨hc, hci, hmin⟩ := child_spec hct
  generalize r.child s i = c at hc hci hmin hlt ⊢
  have hne : c ≠ i := by omega
  constructor
  · intro n hn hn' hnc
    rw [ct_mmexchange] at hn'
    simp only [key_mmexchange hne]
    rcases eq_or_ne n c with rfl | hn_c
    · rw [if_pos rfl, if_neg (by omega), if_pos hci]
      exact hlt.le
    rcases eq_or_ne n i with rfl | hn_i
    · rw [if_neg (by omega), if_neg (by omega), if_neg hn_c, if_pos rfl]
      exact h.grand c (by omega) hc hci
    rw [if_neg hnc, if_neg hn_c, if_neg hn_i]
    by_cases hni : n / 2 = i
    · rw [if_pos hni]
      exact hmin n hn' hni
    · rw [if_neg hni]
      exact h.off n hn hn' hni
  · intro n hn hn' hnc
    rw [ct_mmexchange] at hn'
    simp only [key_mmexchange hne]
    rw [hci, if_neg (by omega), if_pos rfl, if_neg (by omega), if_neg (by omega), ← hnc]
    exact h.off n hn hn' (by omega)

/-- **`sortDown`** repairs the heap below a position, and moves items from that position on only. -/
theorem sortDown_spec (hw : r.Wired) (hi : 1 ≤ i) (hict : i ≤ r.ct s) (hfuel : r.ct s < fuel + i)
    (h : r.DownOrder s i) :
    Moved (r.slots s i) r (sortDown s fuel i r) ∧ (sortDown s fuel i r).Ordered s := by
  induction fuel generalizing i r with
  | zero => omega
  | succ fuel ih =>
    have hstop : (∀ n, n ≤ r.ct s → n / 2 = i → s.le (r.key s i) (r.key s n)) → r.Ordered s := by
      intro hchild n hn hn'
      by_cases hni : n / 2 = i
      · exact hni ▸ hchild n hn' hni
      · exact h.off n hn hn' hni
    rw [sortDown]
    split_ifs with hleaf hlt
    · exact ⟨.refl hw, hstop fun n hn hni => by omega⟩
    · -- the child is exchanged with its parent, and the heap is repaired below it
      have hct : 2 * i ≤ r.ct s := not_lt.mp hleaf
      obtain ⟨hc, hci, -⟩ := child_spec hct
      rw [hci] at hlt ⊢
      have hmoved : Moved (r.slots s i) r (r.mmexchange (s.slot (r.child s i)) (s.slot i)) :=
        hw.moved_slots hc hict (by omega) (by omega) le_rfl
      obtain ⟨hmoved', hordered⟩ := ih hmoved.wired (by omega) (by rwa [ct_mmexchange])
        (by rw [ct_mmexchange]; omega) (h.exchange hi hct hlt)
      rw [hmoved.slots] at hmoved'
      exact ⟨hmoved.trans (hmoved'.mono (slots_mono (by omega))), hordered⟩
    · have hct : 2 * i ≤ r.ct s := not_lt.mp hleaf
      obtain ⟨hc, hci, hmin⟩ := child_spec hct
      rw [hci, Side.not_lt_iff] at hlt
      exact ⟨.refl hw, hstop fun n hn hni => hlt.trans (hmin n hn hni)⟩

/-- Above the place that is repaired, the root is in order with all items. -/
theorem UpOrder.root_le (h : r.UpOrder s i) (hn : 1 ≤ n) (hn' : n ≤ r.ct s) (hni : n ≠ i) :
    s.le (r.key s 0) (r.key s n) := by
  induction n using Nat.strong_induction_on with
  | _ n ih =>
    have hup : ∀ m, m ≠ i → m < n → s.le (r.key s 0) (r.key s m) := by
      intro m hm hlt
      rcases Nat.eq_zero_or_pos m with rfl | hpos
      · exact s.refl _
      · exact ih m hlt hpos (by omega) hm
    rcases eq_or_ne (n / 2) i with hpar | hpar
    · rcases Nat.eq_zero_or_pos i with rfl | hpos
      · rw [← hpar]
        exact h.off n hn hn' hni
      · exact (hup (i / 2) (by omega) (by omega)).trans (h.grand hpos n hn hn' hpar)
    · exact (hup (n / 2) hpar (by omega)).trans (h.off n hn hn' hni)

/-- One round of `sortUp`. -/
theorem UpOrder.exchange (h : r.UpOrder s i) (hi : 1 ≤ i) (hct : i ≤ r.ct s)
    (hlt : s.lt (r.key s i) (r.key s (i / 2))) :
    (r.mmexchange (s.slot i) (s.slot (i / 2))).UpOrder s (i / 2) := by
  have hne : i ≠ i / 2 := by omega
  constructor
  · intro n hn hn' hnq
    rw [ct_mmexchange] at hn'
    simp only [key_mmexchange hne]
    rcases eq_or_ne n i with rfl | hn_i
    · rw [if_neg (Ne.symm hne), if_pos rfl, if_pos rfl]
      exact hlt.le
    rw [if_neg hn_i, if_neg hnq]
    split_ifs with h1 h2
    · exact h.grand hi n hn hn' h1
    · have hoff := h.off n hn hn' hn_i
      rw [h2] at hoff
      exact hlt.le.trans hoff
    · exact h.off n hn hn' hn_i
  · intro hq n hn hn' hnq
    rw [ct_mmexchange] at hn'
    have habove := h.off (i / 2) hq (by omega) (by omega)
    simp only [key_mmexchange hne]
    rw [if_neg (by omega), if_neg (by omega)]
    rcases eq_or_ne n i with rfl | hn_i
    · rw [if_pos rfl]
      exact habove
    · rw [if_neg hn_i, if_neg (by omega)]
      have hoff := h.off n hn hn' hn_i
      rw [hnq] at hoff
      exact habove.trans hoff

/-- **`sortUp`** repairs the heap above a position. If the item gets to the root, the old root is in
order with all items below the root. -/
theorem sortUp_spec (hw : r.Wired) (hi : 1 ≤ i) (hict : i ≤ r.ct s) (hfuel : i ≤ fuel)
    (h : r.UpOrder s i) :
    Moved (r.slots s 0) r (sortUp s fuel i r).1 ∧ (sortUp s fuel i r).1.Ordered s ∧
      ((sortUp s fuel i r).2 = false → (sortUp s fuel i r).1.heap 0 = r.heap 0) ∧
      ((sortUp s fuel i r).2 = true → (sortUp s fuel i r).1.val 0 = r.key s i ∧
        ∀ n, 1 ≤ n → n ≤ r.ct s → s.le (r.val 0) ((sortUp s fuel i r).1.key s n)) := by
  induction fuel generalizing i r with
  | zero => omega
  | succ fuel ih =>
    have hzero : ¬ (i = 0) := by omega
    rw [sortUp]
    split_ifs with hlt
    · obtain ⟨-, hlt⟩ := hlt
      have hne : i ≠ i / 2 := by omega
      have hmoved : Moved (r.slots s 0) r (r.mmexchange (s.slot i) (s.slot (i / 2))) :=
        hw.moved_slots hict (by omega) hne (Nat.zero_le _) (Nat.zero_le _)
      have hup := h.exchange hi hict hlt
      rcases Nat.eq_zero_or_pos (i / 2) with hroot | hpos
      · -- the item is the new root, and the old one its child
        have hone : i = 1 := by omega
        subst hone
        change (r.mmexchange (s.slot 1) (s.slot 0)).UpOrder s 0 at hup
        change Moved (r.slots s 0) r (r.mmexchange (s.slot 1) (s.slot 0)) at hmoved
        have hstop : sortUp s fuel (1 / 2) (r.mmexchange (s.slot 1) (s.slot (1 / 2))) =
            (r.mmexchange (s.slot 1) (s.slot 0), true) := by cases fuel <;> simp [sortUp]
        rw [hstop]
        refine ⟨hmoved, fun n hn hn' => hup.off n hn hn' (by omega), by simp, fun _ => ⟨?_, ?_⟩⟩
        · change (r.mmexchange (s.slot 1) (s.slot 0)).val 0 = r.key s 1
          rw [← key_zero s, key_mmexchange (by decide)]
          rfl
        · intro n hn hn'
          rw [key_mmexchange (by decide), ← key_zero s]
          split_ifs with h1 h0
          · exact s.refl _
          · omega
          · exact h.root_le hn hn' h1
      · obtain ⟨hmoved', hordered, hsame, hnew⟩ := ih hmoved.wired hpos
          (by rw [ct_mmexchange]; omega) (by omega) hup
        have hslot : ∀ n, 1 ≤ n → (0 : ℤ) ≠ s.slot n := by
          intro n hn h0
          rw [← Side.slot_zero s, Side.slot_inj] at h0
          omega
        have hheap : (r.mmexchange (s.slot i) (s.slot (i / 2))).heap 0 = r.heap 0 := by
          rw [mmexchange_heap fun h' => hne (Side.slot_inj.mp h'),
            Equiv.swap_apply_of_ne_of_ne (hslot i hi) (hslot _ hpos)]
        rw [hmoved.slots] at hmoved'
        refine ⟨hmoved.trans hmoved', hordered, fun hf => (hsame hf).trans hheap, fun ht => ?_⟩
        obtain ⟨hroot, hle⟩ := hnew ht
        rw [ct_mmexchange] at hle
        refine ⟨hroot.trans ?_, fun n hn hn' => ?_⟩
        · rw [key_mmexchange hne, if_neg (Ne.symm hne), if_pos rfl]
        · have hval : (r.mmexchange (s.slot i) (s.slot (i / 2))).val 0 = r.val 0 := by
            rw [val, hheap]
            rfl
          rw [← hval]
          exact hle n hn hn'
    · have hlt' : ¬ s.lt (r.key s i) (r.key s (i / 2)) := fun h' => hlt ⟨hi, h'⟩
      refine ⟨.refl hw, fun n hn hn' => ?_, fun _ => rfl, by simp [hzero]⟩
      rcases eq_or_ne n i with rfl | hni
      · exact Side.not_lt_iff.mp hlt'
      · exact h.off n hn hn' hni

/-! ### Repairing the root -/

/-- The root is exchanged with the top of a heap if they are not in order, and the heap is
repaired. -/
def fixRoot (r : RollingMedian α) (s : Side) : RollingMedian α :=
  if s.lt (r.key s 1) (r.key s 0) then sortDown s (r.ct s) 1 (r.mmexchange (s.slot 1) (s.slot 0))
  else r

/-- The heap is in order below its top. -/
def OrderedBelow (r : RollingMedian α) (s : Side) : Prop :=
  ∀ n, 2 ≤ n → n ≤ r.ct s → s.le (r.key s (n / 2)) (r.key s n)

theorem Ordered.below (h : r.Ordered s) : r.OrderedBelow s := fun n hn hn' => h n (by omega) hn'

theorem OrderedBelow.ordered (h : r.OrderedBelow s)
    (hroot : 1 ≤ r.ct s → s.le (r.val 0) (r.key s 1)) : r.Ordered s := by
  intro n hn hn'
  rcases eq_or_ne n 1 with rfl | hne
  · rw [show 1 / 2 = 0 from rfl, key_zero]
    exact hroot hn'
  · exact h n (by omega) hn'

/-- After `fixRoot` the heap is in order; nothing has changed, or the top of the heap is the new
root. -/
theorem fixRoot_spec (hw : r.Wired) (hct : 1 ≤ r.ct s) (h : r.OrderedBelow s) :
    Moved (r.slots s 0) r (r.fixRoot s) ∧ (r.fixRoot s).Ordered s ∧
      (r.fixRoot s = r ∨ (r.fixRoot s).val 0 = r.key s 1 ∧ s.lt (r.key s 1) (r.val 0)) := by
  rw [fixRoot]
  split_ifs with hlt
  · have hmoved : Moved (r.slots s 0) r (r.mmexchange (s.slot 1) (s.slot 0)) :=
      hw.moved_slots hct (Nat.zero_le _) (by decide) (Nat.zero_le _) le_rfl
    have hroot : (r.mmexchange (s.slot 1) (s.slot 0)).val 0 = r.key s 1 := by
      rw [← key_zero s, key_mmexchange (by decide)]
      rfl
    have hdown : (r.mmexchange (s.slot 1) (s.slot 0)).DownOrder s 1 := by
      constructor
      · intro n hn hn' hn1
        rw [ct_mmexchange] at hn'
        rw [key_mmexchange (by decide), key_mmexchange (by decide)]
        rcases eq_or_ne n 1 with rfl | hne
        · exact hlt.le
        · rw [if_neg hn1, if_neg (by omega), if_neg hne, if_neg (by omega)]
          exact h n (by omega) hn'
      · intro n hn hn' hn1
        rw [ct_mmexchange] at hn'
        rw [key_mmexchange (by decide), key_mmexchange (by decide), if_neg (by decide), if_pos rfl,
          if_neg (by omega), if_neg (by omega), ← hn1]
        exact h n (by omega) hn'
    obtain ⟨hmoved', hordered⟩ := sortDown_spec hmoved.wired le_rfl (hmoved.ct s ▸ hct)
      (by rw [ct_mmexchange]; exact Nat.lt_succ_self _) hdown
    have hkeep := hmoved'.val (slot_notMem_slots (s := s) Nat.zero_lt_one)
    rw [hmoved.slots] at hmoved'
    rw [key_zero] at hlt
    refine ⟨hmoved.trans (hmoved'.mono (slots_mono (Nat.zero_le _))), hordered, .inr ⟨?_, hlt⟩⟩
    rw [Side.slot_zero] at hkeep hroot
    rw [Side.slot_zero]
    exact hkeep.trans hroot
  · rw [Side.not_lt_iff, key_zero] at hlt
    exact ⟨.refl hw, h.ordered fun _ => hlt, .inl rfl⟩

theorem Moved.below_other {lo : ℕ} (h : Moved (r.slots s lo) r r')
    (hbelow : r.OrderedBelow s.other) : r'.OrderedBelow s.other := by
  intro n hn hn'
  rw [h.key_other (by omega), h.key_other (by omega)]
  exact hbelow n hn (h.ct _ ▸ hn')

/-- An item moves up; if it becomes the median, the other heap is repaired. -/
def raise (r : RollingMedian α) (s : Side) (i : ℕ) : RollingMedian α :=
  let up := sortUp s i i r
  if up.2 ∧ 0 < up.1.ct s.other then up.1.fixRoot s.other else up.1

/-- After an item has moved up, both heaps are in order. -/
theorem raise_spec (hw : r.Wired) (hi : 1 ≤ i) (hict : i ≤ r.ct s) (h : r.UpOrder s i)
    (hother : r.Ordered s.other) :
    Moved r.active r (r.raise s i) ∧ (r.raise s i).Ordered s ∧ (r.raise s i).Ordered s.other := by
  obtain ⟨hmoved, hordered, hsame, hnew⟩ := sortUp_spec hw hi hict le_rfl h
  have hactive : Moved r.active r (sortUp s i i r).1 := hmoved.mono (slots_subset_active s 0)
  have hbelow : (sortUp s i i r).1.OrderedBelow s.other := hmoved.below_other hother.below
  have htop : 1 ≤ r.ct s.other → s.other.le (r.val 0) (r.key s.other 1) := by
    intro hct
    rw [← key_zero s.other]
    exact hother 1 le_rfl hct
  rw [raise]
  generalize sortUp s i i r = up at *
  split_ifs with hroot
  · obtain ⟨htrue, hct⟩ := hroot
    obtain ⟨-, hle⟩ := hnew htrue
    obtain ⟨hfix, hordered', hcases⟩ := fixRoot_spec hmoved.wired hct hbelow
    rw [hactive.ct] at hct
    refine ⟨hactive.trans ?_, ?_, hordered'⟩
    · have hsub := hfix.mono (slots_subset_active s.other 0)
      rwa [active, hactive.minCt, hactive.maxCt] at hsub
    · rcases hcases with heq | ⟨hval, -⟩
      · rw [heq]
        exact hordered
      · -- the new root was the top of the other heap, below the old root
        have hkey : ∀ n, 1 ≤ n → (up.1.fixRoot s.other).key s n = up.1.key s n := by
          intro n hn
          have hk := hfix.key_other hn
          rwa [Side.other_other] at hk
        have hbelow' : (up.1.fixRoot s.other).OrderedBelow s := by
          have hb := hfix.below_other (by rw [Side.other_other]; exact hordered.below)
          rwa [Side.other_other] at hb
        refine hbelow'.ordered fun hct' => ?_
        rw [hfix.ct, hactive.ct] at hct'
        rw [hval, hkey 1 le_rfl, hmoved.key_other le_rfl]
        exact (Side.le_other.mp (htop hct)).trans (hle 1 le_rfl hct')
  · refine ⟨hactive, hordered, hbelow.ordered fun hct => ?_⟩
    have hfalse : up.2 = false := by
      by_contra htrue
      exact hroot ⟨Bool.not_eq_false _ ▸ htrue, hct⟩
    rw [hactive.ct] at hct
    rw [val, hsame hfalse, hmoved.data, hmoved.key_other le_rfl]
    exact htop hct

/-- A new root between two heaps whose tops are in order. -/
theorem fixMedian_spec (hw : r.Wired) (hmin : r.OrderedBelow .min) (hmax : r.OrderedBelow .max)
    (hminct : 1 ≤ r.minCt) (hmaxct : 1 ≤ r.maxCt) (htops : r.key .max 1 ≤ r.key .min 1) :
    Moved r.active r ((r.fixRoot .max).fixRoot .min) ∧
      ∀ s, ((r.fixRoot .max).fixRoot .min).Ordered s := by
  obtain ⟨hmoved, hordered, hcases⟩ := fixRoot_spec hw (s := .max) hmaxct hmax
  have hbelow : (r.fixRoot .max).OrderedBelow .min := hmoved.below_other hmin
  have hminct' : 1 ≤ (r.fixRoot .max).ct .min := by
    rw [hmoved.ct]
    exact hminct
  have hkey : (r.fixRoot .max).key .min 1 = r.key .min 1 := hmoved.key_other le_rfl
  have hactive := hmoved.mono (slots_subset_active .max 0)
  obtain ⟨hmoved', hordered', hcases'⟩ := fixRoot_spec hmoved.wired hminct' hbelow
  have hactive' := hmoved'.mono (slots_subset_active .min 0)
  rw [active, hactive.minCt, hactive.maxCt] at hactive'
  refine ⟨hactive.trans hactive', ?_⟩
  rintro (_ | _)
  · exact hordered'
  · rcases hcases' with heq | ⟨hval, hlt⟩
    · rw [heq]
      exact hordered
    · -- the top of the min heap is the root: then the first repair has changed nothing
      have hsame : r.fixRoot .max = r := by
        rcases hcases with heq | ⟨hval', -⟩
        · exact heq
        · rw [hval', hkey] at hlt
          exact absurd htops (not_le.mpr hlt)
      have hbelow' : ((r.fixRoot .max).fixRoot .min).OrderedBelow .max :=
        hmoved'.below_other hordered.below
      refine hbelow'.ordered fun _ => ?_
      have hkey' : ((r.fixRoot .max).fixRoot .min).key .max 1 = (r.fixRoot .max).key .max 1 :=
        hmoved'.key_other le_rfl
      rw [hval, hkey', hsame]
      exact htops

end Order

/-! ### The source functions as repairs -/

section Repairs

variable {α : Type*} [LinearOrder α] {r : RollingMedian α}

/-- The repair of the max heap after `mmCmpExch(0, -1)`. -/
theorem fixRoot_max_eq (hw : r.Wired) (hct : 1 ≤ r.maxCt) :
    (if (r.mmCmpExch 0 (-1)).2 then (r.mmCmpExch 0 (-1)).1.maxSortDown (-1)
      else (r.mmCmpExch 0 (-1)).1) = r.fixRoot .max := by
  have hzero : r.InRange 0 := hw.slot_inRange (s := .max) (n := 0) (Nat.zero_le _)
  have hone : r.InRange (-1) := hw.slot_inRange (s := .max) (n := 1) hct
  have hcomm := mmexchange_comm (by decide) (hw.heap_ne hzero hone (by decide))
  rw [fixRoot, mmCmpExch, key_zero, Side.slot_zero]
  change (if (if r.val 0 < r.val (-1) then (r.mmexchange 0 (-1), true) else (r, false)).2 then _
    else _) = if r.val 0 < r.val (-1) then _ else _
  by_cases hlt : r.val 0 < r.val (-1)
  · rw [if_pos hlt, if_pos hlt, hcomm]
    rfl
  · rw [if_neg hlt, if_neg hlt]
    rfl

/-- The repair of the min heap after `mmCmpExch(1, 0)`. -/
theorem fixRoot_min_eq :
    (if (r.mmCmpExch 1 0).2 then (r.mmCmpExch 1 0).1.minSortDown 1 else (r.mmCmpExch 1 0).1) =
      r.fixRoot .min := by
  rw [fixRoot, mmCmpExch, key_zero, Side.slot_zero]
  change (if (if r.val 1 < r.val 0 then (r.mmexchange 1 0, true) else (r, false)).2 then _
    else _) = if r.val 1 < r.val 0 then _ else _
  by_cases hlt : r.val 1 < r.val 0
  · rw [if_pos hlt, if_pos hlt]
    rfl
  · rw [if_neg hlt, if_neg hlt]
    rfl

/-- `sortUp` from the top of a heap is a comparison with the root. -/
theorem sortUp_one (s : Side) :
    sortUp s 1 1 r =
      if s.lt (r.key s 1) (r.key s 0) then (r.mmexchange (s.slot 1) (s.slot 0), true)
      else (r, false) := by
  rw [sortUp]
  by_cases hlt : s.lt (r.key s 1) (r.key s 0)
  · rw [if_pos hlt, if_pos ⟨Nat.one_pos, hlt⟩]
    rfl
  · rw [if_neg hlt, if_neg fun h => hlt h.2]
    rfl

theorem minRaise_eq {i : ℕ} (hw : r.Wired) (hi : 1 ≤ i) (hict : i ≤ r.minCt) (h : r.UpOrder .min i)
    (hct : 1 ≤ r.maxCt) : r.minRaise i = r.raise .min i := by
  obtain ⟨hmoved, -⟩ := sortUp_spec (s := .min) hw hi hict le_rfl h
  have hct' : 0 < (sortUp .min i i r).1.ct Side.min.other := by
    rw [hmoved.ct]
    exact hct
  rw [minRaise, minSortUp, Int.natAbs_natCast, raise]
  by_cases htop : (sortUp .min i i r).2 = true
  · rw [if_pos htop]
    exact (fixRoot_max_eq hmoved.wired hct').trans (if_pos ⟨htop, hct'⟩).symm
  · rw [if_neg htop]
    exact (if_neg fun h => htop h.1).symm

theorem maxRaise_eq (i : ℕ) : r.maxRaise (-i) = r.raise .max i := by
  rw [maxRaise, maxSortUp, Int.natAbs_neg, Int.natAbs_natCast, raise]
  by_cases htop : (sortUp .max i i r).2 = true ∧ 0 < (sortUp .max i i r).1.minCt
  · rw [if_pos htop]
    exact fixRoot_min_eq.trans (if_pos htop).symm
  · rw [if_neg htop]
    exact (if_neg htop).symm

theorem fixMedian_eq :
    r.fixMedian =
      let r' := if 0 < r.maxCt then r.fixRoot .max else r
      if 0 < r'.minCt then r'.fixRoot .min else r' := by
  have hmax : (if (r.maxSortUp (-1)).2 then (r.maxSortUp (-1)).1.maxSortDown (-1)
      else (r.maxSortUp (-1)).1) = r.fixRoot .max := by
    rw [fixRoot, maxSortUp, show (-1 : ℤ).natAbs = 1 from rfl, sortUp_one]
    split_ifs <;> first | rfl | contradiction
  have hmin : ∀ r' : RollingMedian α, (if (r'.minSortUp 1).2 then (r'.minSortUp 1).1.minSortDown 1
      else (r'.minSortUp 1).1) = r'.fixRoot .min := by
    intro r'
    rw [fixRoot, minSortUp, show (1 : ℤ).natAbs = 1 from rfl, sortUp_one]
    split_ifs <;> first | rfl | contradiction
  simp only [fixMedian, hmin, hmax]

end Repairs

end RollingMedian

end Median
