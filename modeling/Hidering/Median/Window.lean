import Hidering.Median.Rolling
import Mathlib.Data.Int.Interval
import Mathlib.Order.Interval.Finset.Nat

/-!
# The window of a rolling median

The invariant of `RollingMedian`: the structure holds a window, a queue of items from the oldest to
the newest. Inserting an item moves the window (`Holds.insert`), and the median of the structure is
the median of the window (`Holds.median`), by counting the positions on each side of the root.

## Main definitions

* `Median.RollingMedian.Slotted` — which positions are in use
* `Median.RollingMedian.Holds`

## Main results

* `Median.RollingMedian.Holds.insert`, `Holds.foldl_insert`
* `Median.RollingMedian.Holds.median`
-/

namespace Median

open List

namespace RollingMedian

/-! ### The invariant -/

section Holds

variable {α : Type*} {r r' : RollingMedian α} {s : Side} {v : α} {i n a b : ℕ} {window : List α}

/-- The items fill the positions around the root, half of them on each side, and the indices that
have not been used yet are where the fill pattern puts them. -/
structure Slotted (r : RollingMedian α) : Prop where
  wired : r.Wired
  N_pos : 0 < r.N
  sz_le : r.sz ≤ r.N
  idx_lt : r.idx < r.N
  idx_eq : r.sz < r.N → r.idx = r.sz
  minCt : r.minCt = (r.sz - 1) / 2
  maxCt : r.maxCt = r.sz / 2
  active : 0 < r.sz → ∀ n < r.N, n < r.sz ↔ r.pos n ∈ r.active
  fresh : ∀ n, r.sz ≤ n → n < r.N → r.pos n = fillPos n

theorem fillPos_of_odd (h : n % 2 = 1) : fillPos n = -((n + 1) / 2 : ℕ) := by
  simp [fillPos, h]

theorem fillPos_of_even (h : n % 2 = 0) : fillPos n = (n / 2 : ℕ) := by
  rw [fillPos, if_neg (by omega), mul_one]
  omega

theorem fillIndex_fillPos (n : ℕ) : fillIndex (fillPos n) = n := by
  rcases Nat.mod_two_eq_zero_or_one n with h | h
  · rw [fillPos_of_even h, fillIndex]
    split_ifs <;> omega
  · rw [fillPos_of_odd h, fillIndex]
    split_ifs <;> omega

theorem fillPos_fillIndex (p : ℤ) : fillPos (fillIndex p) = p := by
  rw [fillIndex]
  split_ifs with hneg
  · rw [fillPos_of_odd (by omega)]
    omega
  · rw [fillPos_of_even (by omega)]
    omega

/-- After `clear` no position is in use. -/
theorem slotted_clear (hN : 0 < r.N) : r.clear.Slotted where
  wired :=
    { minCt_le := Nat.zero_le _
      maxCt_le := Nat.zero_le _
      inRange := fun n (hn : n < r.N) => by
        change -((r.N / 2 : ℕ) : ℤ) ≤ fillPos n ∧ fillPos n ≤ ((r.N - 1) / 2 : ℕ)
        rcases Nat.mod_two_eq_zero_or_one n with h | h
        · rw [fillPos_of_even h]
          omega
        · rw [fillPos_of_odd h]
          omega
      heap_pos := fun n _ => fillIndex_fillPos n
      heap_lt := fun p hp => by
        change -((r.N / 2 : ℕ) : ℤ) ≤ p ∧ p ≤ ((r.N - 1) / 2 : ℕ) at hp
        change fillIndex p < r.N
        rw [fillIndex]
        split_ifs <;> omega
      pos_heap := fun p _ => fillPos_fillIndex p }
  N_pos := hN
  sz_le := Nat.zero_le _
  idx_lt := hN
  idx_eq _ := rfl
  minCt := by simp [clear]
  maxCt := by simp [clear]
  active h := absurd h (Nat.lt_irrefl 0)
  fresh _ _ _ := rfl

theorem Slotted.of_moved (h : r.Slotted) (hsz : 0 < r.sz) (hm : Moved r.active r r') :
    r'.Slotted where
  wired := hm.wired
  N_pos := by rw [hm.N]; exact h.N_pos
  sz_le := by rw [hm.sz, hm.N]; exact h.sz_le
  idx_lt := by rw [hm.idx, hm.N]; exact h.idx_lt
  idx_eq := by rw [hm.sz, hm.N, hm.idx]; exact h.idx_eq
  minCt := by rw [hm.minCt, hm.sz]; exact h.minCt
  maxCt := by rw [hm.maxCt, hm.sz]; exact h.maxCt
  active _ n hn := by
    rw [hm.N] at hn
    have hactive : r'.active = r.active := by
      rw [RollingMedian.active, hm.minCt, hm.maxCt, RollingMedian.active]
    rw [hm.sz, hactive, hm.pos_mem_iff h.wired hn]
    exact h.active hsz n hn
  fresh n hn hn' := by
    rw [hm.sz] at hn
    rw [hm.N] at hn'
    rw [hm.pos h.wired hn' fun hmem => absurd ((h.active hsz n hn').mpr hmem) (by omega)]
    exact h.fresh n hn hn'

/-- The structure with a new item in the queue, before the heaps are repaired. -/
def stored (r : RollingMedian α) (v : α) (minCt maxCt : ℕ) : RollingMedian α :=
  { r with
    data := Function.update r.data r.idx v
    idx := (r.idx + 1) % r.N
    sz := min (r.sz + 1) r.N
    minCt := minCt
    maxCt := maxCt }

theorem Slotted.stored (h : r.Slotted) (ha : a = (min (r.sz + 1) r.N - 1) / 2)
    (hb : b = min (r.sz + 1) r.N / 2) : (r.stored v a b).Slotted := by
  have hsz := h.sz_le
  have hN := h.N_pos
  have hw := h.wired
  refine ⟨⟨?_, ?_, hw.inRange, hw.heap_pos, hw.heap_lt, hw.pos_heap⟩, hN, Nat.min_le_right _ _,
    Nat.mod_lt _ hN, ?_, ha, hb, fun _ n hn => ?_, fun n hn hn' => ?_⟩
  · change a ≤ (r.N - 1) / 2
    omega
  · change b ≤ r.N / 2
    omega
  · change min (r.sz + 1) r.N < r.N → (r.idx + 1) % r.N = min (r.sz + 1) r.N
    intro hlt
    rw [h.idx_eq (by omega), Nat.mod_eq_of_lt (by omega)]
    omega
  · change n < r.N at hn
    change n < min (r.sz + 1) r.N ↔ -(b : ℤ) ≤ r.pos n ∧ r.pos n ≤ a
    rcases Nat.lt_or_ge n r.sz with hlt | hge
    · obtain ⟨hlo, hhi⟩ := (h.active (by omega) n hn).mp hlt
      rw [h.maxCt] at hlo
      rw [h.minCt] at hhi
      constructor <;> intro _ <;> omega
    · rw [h.fresh n hge hn]
      rcases Nat.mod_two_eq_zero_or_one n with h2 | h2
      · rw [fillPos_of_even h2]
        omega
      · rw [fillPos_of_odd h2]
        omega
  · change min (r.sz + 1) r.N ≤ n at hn
    change n < r.N at hn'
    exact h.fresh n (by omega) hn'

/-- The items of the heap that the new item is in. -/
theorem Slotted.stored_key (h : r.Slotted) (hp : r.pos r.idx = s.slot i)
    (hn : r.InRange (s.slot n)) : (r.stored v a b).key s n = if n = i then v else r.key s n := by
  change Function.update r.data r.idx v (r.heap (s.slot n)) = _
  rw [Function.update_apply]
  have hiff : r.heap (s.slot n) = r.idx ↔ n = i := by
    rw [← @Side.slot_inj s n i, ← hp]
    exact ⟨fun heq => by rw [← heq, h.wired.pos_heap _ hn],
      fun heq => by rw [heq, h.wired.heap_pos _ h.idx_lt]⟩
  simp only [hiff]
  rfl

/-- The other heap does not have the new item. -/
theorem Slotted.stored_key_other (h : r.Slotted) (hp : r.pos r.idx = s.slot i) (hi : 1 ≤ i)
    (hn : r.InRange (s.other.slot n)) : (r.stored v a b).key s.other n = r.key s.other n := by
  change Function.update r.data r.idx v (r.heap (s.other.slot n)) = _
  rw [Function.update_of_ne]
  · rfl
  · intro heq
    have hslot : s.other.slot n = s.slot i := by
      rw [← hp, ← heq, h.wired.pos_heap _ hn]
    rcases Nat.eq_zero_or_pos n with rfl | hpos
    · rw [Side.slot_zero, ← Side.slot_zero s, Side.slot_inj] at hslot
      omega
    · exact Side.slot_other_ne hpos hslot

theorem Wired.data_eq (h : r.Wired) (hn : n < r.N) : r.data n = r.val (r.pos n) := by
  rw [val, h.heap_pos n hn]

/-- The number of items at the positions from `lo` to `hi`. -/
theorem Slotted.card_between (h : r.Slotted) (hsz : 0 < r.sz) {lo hi : ℤ}
    (hlo : -(r.maxCt : ℤ) ≤ lo) (hhi : hi ≤ r.minCt) :
    ((Finset.range r.sz).filter fun n => lo ≤ r.pos n ∧ r.pos n ≤ hi).card =
      (hi + 1 - lo).toNat := by
  rw [← Int.card_Icc]
  have hmin := h.wired.minCt_le
  have hmax := h.wired.maxCt_le
  have hsz' := h.sz_le
  have hrange : ∀ p ∈ Finset.Icc lo hi, r.InRange p := by
    intro p hp
    rw [Finset.mem_Icc] at hp
    constructor <;> omega
  refine Finset.card_bij' (fun n _ => r.pos n) (fun p _ => r.heap p) ?_ ?_ ?_ ?_
  · intro n hn
    exact Finset.mem_Icc.mpr (Finset.mem_filter.mp hn).2
  · intro p hp
    have hpos := h.wired.pos_heap p (hrange p hp)
    have hact : r.pos (r.heap p) ∈ r.active := by
      rw [Finset.mem_Icc] at hp
      rw [hpos]
      exact ⟨by omega, by omega⟩
    rw [Finset.mem_filter, Finset.mem_range, hpos]
    exact ⟨(h.active hsz _ (h.wired.heap_lt p (hrange p hp))).mpr hact, Finset.mem_Icc.mp hp⟩
  · intro n hn
    have hlt := Finset.mem_range.mp (Finset.mem_filter.mp hn).1
    exact h.wired.heap_pos n (hlt.trans_le hsz')
  · intro p hp
    exact h.wired.pos_heap p (hrange p hp)

/-- In a full circular queue the new item takes the place of the oldest one. -/
theorem drop_rotate_concat {l : List α} {N : ℕ} (hi : i < l.length) (hlen : l.length = N) :
    (l.rotate i ++ [v]).drop 1 = (l.set i v).rotate ((i + 1) % N) := by
  have hset : l.set i v = (l.take i ++ [v]) ++ l.drop (i + 1) := by
    rw [set_eq_take_append_cons_drop, if_pos hi]
    simp
  have hcount : (l.take i ++ [v]).length = i + 1 := by
    rw [length_append, length_take, length_singleton]
    omega
  have hrot := rotate_append_length_eq (l.take i ++ [v]) (l.drop (i + 1))
  rw [hcount, ← hset] at hrot
  have hmod := rotate_mod (l.set i v) (i + 1)
  rw [length_set, hlen] at hmod
  have hdrop : l.drop i = l[i] :: l.drop (i + 1) := drop_eq_getElem_cons hi
  rw [hmod, hrot, rotate_eq_drop_append_take hi.le, hdrop, cons_append, cons_append,
    drop_one, tail_cons, append_assoc]

/-- The place of the new item while the structure is growing. -/
theorem Slotted.pos_growing (h : r.Slotted) (hgrow : r.sz < r.N) : r.pos r.idx = fillPos r.sz := by
  rw [h.idx_eq hgrow]
  exact h.fresh _ le_rfl hgrow

/-- The place of the new item once the structure is full. -/
theorem Slotted.pos_full (h : r.Slotted) (hfull : r.sz = r.N) : r.pos r.idx ∈ r.active :=
  (h.active (hfull ▸ h.N_pos) _ h.idx_lt).mp (hfull ▸ h.idx_lt)

/-- The keys of the heap that gets the new item, and the item that it replaces. -/
theorem Slotted.stored_keys (h : r.Slotted) (hs : (r.stored v a b).Slotted)
    (hp : r.pos r.idx = s.slot i) :
    (∀ n, n ≤ (r.stored v a b).ct s →
      (r.stored v a b).key s n = if n = i then v else r.key s n) ∧ r.key s i = r.data r.idx := by
  refine ⟨fun n hn => h.stored_key hp (hs.wired.slot_inRange hn), ?_⟩
  rw [key, val, ← hp, h.wired.heap_pos _ h.idx_lt]

variable [LinearOrder α]

/-- The structure holds a window: a queue of items, from the oldest on. -/
structure Holds (r : RollingMedian α) (window : List α) : Prop extends Slotted r where
  ordered : ∀ s, r.Ordered s
  window_eq : window = ((List.range r.sz).map r.data).rotate r.idx

/-- After `clear` the structure holds nothing. -/
theorem holds_clear (hN : 0 < r.N) : r.clear.Holds [] where
  toSlotted := slotted_clear hN
  ordered s n hn hn' := by
    have hct : r.clear.ct s = 0 := by cases s <;> rfl
    omega
  window_eq := rfl

/-- A new item that grows its heap, or that belongs above the item it replaces, moves up. -/
theorem Slotted.stored_upOrder (h : r.Slotted) (hs : (r.stored v a b).Slotted)
    (hp : r.pos r.idx = s.slot i) (hord : r.Ordered s)
    (hcase : (r.stored v a b).ct s = i ∧ r.ct s + 1 = i ∨
      (r.stored v a b).ct s = r.ct s ∧ i ≤ r.ct s ∧ s.le v (r.data r.idx)) :
    (r.stored v a b).UpOrder s i := by
  obtain ⟨hkey, hold⟩ := h.stored_keys hs hp
  constructor
  · intro n hn hn' hni
    rw [hkey n hn', hkey (n / 2) (by omega), if_neg hni]
    have hle := hord n hn (by omega)
    split_ifs with hpar
    · rcases hcase with hgrow | ⟨-, -, hle'⟩
      · omega
      · rw [hpar, hold] at hle
        exact hle'.trans hle
    · exact hle
  · intro hi n hn hn' hni
    rw [hkey n hn', hkey (i / 2) (by omega), if_neg (by omega), if_neg (by omega)]
    have hle := hord n hn (by omega)
    rw [hni] at hle
    exact (hord i hi (by omega)).trans hle

/-- A new item that belongs below the item it replaces moves down. -/
theorem Slotted.stored_downOrder (h : r.Slotted) (hs : (r.stored v a b).Slotted)
    (hp : r.pos r.idx = s.slot i) (hord : r.Ordered s) (hi : 1 ≤ i)
    (hct : (r.stored v a b).ct s = r.ct s) (hict : i ≤ r.ct s) (hlt : s.lt (r.data r.idx) v) :
    (r.stored v a b).DownOrder s i := by
  obtain ⟨hkey, hold⟩ := h.stored_keys hs hp
  constructor
  · intro n hn hn' hni
    rw [hkey n hn', hkey (n / 2) (by omega), if_neg hni]
    have hle := hord n hn (by omega)
    split_ifs with hpos
    · rw [hpos, hold] at hle
      exact (hpos ▸ hle).trans hlt.le
    · exact hle
  · intro n hn hn' hni
    rw [hkey n hn', hkey (i / 2) (by omega), if_neg (by omega), if_neg (by omega)]
    have hle := hord n hn (by omega)
    rw [hni] at hle
    exact (hord i hi hict).trans hle

theorem Slotted.stored_ordered_other (h : r.Slotted) (hs : (r.stored v a b).Slotted)
    (hp : r.pos r.idx = s.slot i) (hi : 1 ≤ i) (hord : r.Ordered s.other)
    (hct : (r.stored v a b).ct s.other = r.ct s.other) : (r.stored v a b).Ordered s.other := by
  intro n hn hn'
  have hrange : ∀ m, m ≤ n → r.InRange (s.other.slot m) := fun m hm =>
    hs.wired.slot_inRange (hm.trans hn')
  rw [h.stored_key_other hp hi (hrange n le_rfl), h.stored_key_other hp hi (hrange _ (by omega))]
  exact hord n hn (hct ▸ hn')

/-- What `insert` does to the structure with the new item: it moves items, and afterwards both heaps
are in order. -/
def Repaired (r r' : RollingMedian α) : Prop := Moved r.active r r' ∧ ∀ s, r'.Ordered s

theorem Repaired.of_side (s : Side) (hm : Moved r.active r r') (h : r'.Ordered s)
    (h' : r'.Ordered s.other) : Repaired r r' := by
  refine ⟨hm, fun t => ?_⟩
  cases s <;> cases t <;> assumption

theorem insert_of_pos (hp : r.pos r.idx = i) (hi : 1 ≤ i) :
    r.insert v =
      if r.minCt < (r.N - 1) / 2 then (r.stored v (r.minCt + 1) r.maxCt).minRaise i
      else if r.data r.idx < v then (r.stored v r.minCt r.maxCt).minSortDown i
      else (r.stored v r.minCt r.maxCt).minRaise i := by
  rw [insert]
  simp only [hp]
  rw [if_pos (by omega)]
  rfl

theorem insert_of_neg (hp : r.pos r.idx = -i) (hi : 1 ≤ i) :
    r.insert v =
      if r.maxCt < r.N / 2 then (r.stored v r.minCt (r.maxCt + 1)).maxRaise (-i)
      else if v < r.data r.idx then (r.stored v r.minCt r.maxCt).maxSortDown (-i)
      else (r.stored v r.minCt r.maxCt).maxRaise (-i) := by
  rw [insert]
  simp only [hp]
  rw [if_neg (by omega), if_pos (by omega)]
  rfl

theorem insert_of_zero (hp : r.pos r.idx = 0) :
    r.insert v = (r.stored v r.minCt r.maxCt).fixMedian := by
  rw [insert]
  simp only [hp, lt_irrefl, if_false]
  rfl

/-- The new item moves up its heap. -/
theorem Holds.repaired_up (h : r.Holds window) (hs : (r.stored v a b).Slotted)
    (hp : r.pos r.idx = s.slot i) (hi : 1 ≤ i) (hict : i ≤ (r.stored v a b).ct s)
    (hother : (r.stored v a b).ct s.other = r.ct s.other) (hup : (r.stored v a b).UpOrder s i) :
    Repaired (r.stored v a b) ((r.stored v a b).raise s i) := by
  obtain ⟨hmoved, hord, hord'⟩ := raise_spec hs.wired hi hict hup
    (h.stored_ordered_other hs hp hi (h.ordered _) hother)
  exact .of_side s hmoved hord hord'

/-- The new item moves down its heap. -/
theorem Holds.repaired_down (h : r.Holds window) (hs : (r.stored v a b).Slotted)
    (hp : r.pos r.idx = s.slot i) (hi : 1 ≤ i) (hct : (r.stored v a b).ct s = r.ct s)
    (hict : i ≤ r.ct s) (hother : (r.stored v a b).ct s.other = r.ct s.other)
    (hlt : s.lt (r.data r.idx) v) :
    Repaired (r.stored v a b) (sortDown s ((r.stored v a b).ct s) i (r.stored v a b)) := by
  have hord' := h.stored_ordered_other hs hp hi (h.ordered _) hother
  obtain ⟨hmoved, hord⟩ := sortDown_spec (s := s) (i := i) hs.wired hi (hct ▸ hict)
    (Nat.lt_add_of_pos_right hi) (h.stored_downOrder hs hp (h.ordered s) hi hct hict hlt)
  refine .of_side s (hmoved.mono (slots_subset_active _ _)) hord ?_
  refine (hmoved.below_other hord'.below).ordered fun hct => ?_
  have hroot := hmoved.val (slot_notMem_slots (s := s) (n := 0) hi)
  rw [Side.slot_zero] at hroot
  rw [hmoved.key_other le_rfl, hroot, ← key_zero s.other]
  exact hord' 1 le_rfl (hmoved.ct _ ▸ hct)

theorem Holds.repaired_of_pos (h : r.Holds window) (hp : r.pos r.idx = i) (hi : 1 ≤ i) :
    ∃ a b, (r.stored v a b).Slotted ∧ Repaired (r.stored v a b) (r.insert v) := by
  have hmin := h.minCt
  have hmax := h.maxCt
  have hp' : r.pos r.idx = Side.min.slot i := hp
  rw [insert_of_pos hp hi]
  rcases Nat.lt_or_ge r.sz r.N with hgrow | hfull
  · have hfill := h.pos_growing hgrow
    have heven : r.sz % 2 = 0 := by
      by_contra hodd
      rw [hp, fillPos_of_odd (by omega)] at hfill
      omega
    rw [hp, fillPos_of_even heven] at hfill
    have hs : (r.stored v (r.minCt + 1) r.maxCt).Slotted := h.stored (by omega) (by omega)
    have hct : r.minCt + 1 = i := by omega
    have hup := h.stored_upOrder hs hp' (h.ordered .min) (.inl ⟨hct, hct⟩)
    refine ⟨r.minCt + 1, r.maxCt, hs, ?_⟩
    rw [if_pos (by omega),
      minRaise_eq hs.wired hi hct.ge hup (show 1 ≤ r.maxCt by omega)]
    exact h.repaired_up hs hp' hi hct.ge rfl hup
  · have hN : r.sz = r.N := le_antisymm h.sz_le hfull
    have hs : (r.stored v r.minCt r.maxCt).Slotted := h.stored (by omega) (by omega)
    have hict : i ≤ r.minCt := by
      have hact := (h.pos_full hN).2
      omega
    refine ⟨r.minCt, r.maxCt, hs, ?_⟩
    rw [if_neg (by omega)]
    split_ifs with hlt
    · exact h.repaired_down hs hp' hi rfl hict rfl hlt
    · have hup := h.stored_upOrder hs hp' (h.ordered .min) (.inr ⟨rfl, hict, not_lt.mp hlt⟩)
      rw [minRaise_eq hs.wired hi hict hup (show 1 ≤ r.maxCt by omega)]
      exact h.repaired_up hs hp' hi hict rfl hup

theorem Holds.repaired_of_neg (h : r.Holds window) (hp : r.pos r.idx = -i) (hi : 1 ≤ i) :
    ∃ a b, (r.stored v a b).Slotted ∧ Repaired (r.stored v a b) (r.insert v) := by
  have hmin := h.minCt
  have hmax := h.maxCt
  have hp' : r.pos r.idx = Side.max.slot i := hp
  rw [insert_of_neg hp hi]
  rcases Nat.lt_or_ge r.sz r.N with hgrow | hfull
  · have hfill := h.pos_growing hgrow
    have hodd : r.sz % 2 = 1 := by
      by_contra heven
      rw [hp, fillPos_of_even (by omega)] at hfill
      omega
    rw [hp, fillPos_of_odd hodd] at hfill
    have hs : (r.stored v r.minCt (r.maxCt + 1)).Slotted := h.stored (by omega) (by omega)
    have hct : r.maxCt + 1 = i := by omega
    refine ⟨r.minCt, r.maxCt + 1, hs, ?_⟩
    rw [if_pos (by omega), maxRaise_eq]
    exact h.repaired_up hs hp' hi hct.ge rfl
      (h.stored_upOrder hs hp' (h.ordered .max) (.inl ⟨hct, hct⟩))
  · have hN : r.sz = r.N := le_antisymm h.sz_le hfull
    have hs : (r.stored v r.minCt r.maxCt).Slotted := h.stored (by omega) (by omega)
    have hict : i ≤ r.maxCt := by
      have hact := (h.pos_full hN).1
      omega
    refine ⟨r.minCt, r.maxCt, hs, ?_⟩
    rw [if_neg (by omega)]
    split_ifs with hlt
    · have hdown := h.repaired_down hs hp' hi rfl hict rfl hlt
      rw [maxSortDown, Int.natAbs_neg, Int.natAbs_natCast]
      exact hdown
    · rw [maxRaise_eq]
      exact h.repaired_up hs hp' hi hict rfl
        (h.stored_upOrder hs hp' (h.ordered .max) (.inr ⟨rfl, hict, not_lt.mp hlt⟩))

/-- A new item at the root. -/
theorem Holds.repaired_of_zero (h : r.Holds window) (hp : r.pos r.idx = 0) :
    ∃ a b, (r.stored v a b).Slotted ∧ Repaired (r.stored v a b) (r.insert v) := by
  have hmin := h.minCt
  have hmax := h.maxCt
  have hcounts : r.sz = 0 ∨ r.sz = r.N := by
    rcases Nat.lt_or_ge r.sz r.N with hgrow | hfull
    · have hfill := h.pos_growing hgrow
      rw [hp] at hfill
      rcases Nat.mod_two_eq_zero_or_one r.sz with h2 | h2
      · rw [fillPos_of_even h2] at hfill
        omega
      · rw [fillPos_of_odd h2] at hfill
        omega
    · exact .inr (le_antisymm h.sz_le hfull)
  have hN := h.N_pos
  have hs : (r.stored v r.minCt r.maxCt).Slotted := h.stored (by omega) (by omega)
  have hkey : ∀ s n, 1 ≤ n → n ≤ r.ct s → (r.stored v r.minCt r.maxCt).key s n = r.key s n := by
    intro s n hn hn'
    rw [h.stored_key (i := 0) (by rw [hp, Side.slot_zero]) (h.wired.slot_inRange hn'),
      if_neg (by omega)]
  have hbelow : ∀ s, (r.stored v r.minCt r.maxCt).OrderedBelow s := by
    intro s n hn hn'
    have hct : (r.stored v r.minCt r.maxCt).ct s = r.ct s := by cases s <;> rfl
    rw [hct] at hn'
    rw [hkey s n (by omega) hn', hkey s (n / 2) (by omega) (by omega)]
    exact h.ordered s n (by omega) hn'
  refine ⟨r.minCt, r.maxCt, hs, ?_⟩
  rw [insert_of_zero hp, fixMedian_eq]
  have hempty : ∀ {r' : RollingMedian α} {s : Side}, r'.ct s = 0 → r'.Ordered s :=
    fun hct n hn hn' => by omega
  rcases Nat.eq_zero_or_pos r.maxCt with hzero | hmaxct
  · have hmin0 : ¬ 0 < (r.stored v r.minCt r.maxCt).minCt := by
      change ¬ 0 < r.minCt
      omega
    have hmax0 : ¬ 0 < (r.stored v r.minCt r.maxCt).maxCt := by
      change ¬ 0 < r.maxCt
      omega
    simp only [if_neg hmax0, if_neg hmin0]
    exact .of_side .min (.refl hs.wired) (hempty (Nat.eq_zero_of_not_pos hmin0))
      (hempty (Nat.eq_zero_of_not_pos hmax0))
  obtain ⟨hmoved, hord, -⟩ := fixRoot_spec (s := .max) hs.wired hmaxct (hbelow .max)
  simp only [if_pos (show 0 < (r.stored v r.minCt r.maxCt).maxCt from hmaxct), hmoved.minCt]
  rcases Nat.eq_zero_or_pos r.minCt with hzero | hminct
  · rw [if_neg (show ¬ 0 < (r.stored v r.minCt r.maxCt).minCt from hzero.not_gt)]
    exact .of_side .max (hmoved.mono (slots_subset_active _ _)) hord
      (hempty (hmoved.minCt.trans hzero))
  · rw [if_pos (show 0 < (r.stored v r.minCt r.maxCt).minCt from hminct)]
    refine fixMedian_spec hs.wired (hbelow .min) (hbelow .max) hminct hmaxct ?_
    rw [hkey .max 1 le_rfl hmaxct, hkey .min 1 le_rfl hminct]
    have hle := h.ordered .max 1 le_rfl hmaxct
    have hle' := h.ordered .min 1 le_rfl hminct
    rw [show 1 / 2 = 0 from rfl, key_zero] at hle hle'
    exact le_trans hle hle'

theorem Holds.repaired (h : r.Holds window) (v : α) :
    ∃ a b, (r.stored v a b).Slotted ∧ Repaired (r.stored v a b) (r.insert v) := by
  rcases lt_trichotomy (r.pos r.idx) 0 with hneg | hzero | hpos
  · obtain ⟨i, hi⟩ := Int.exists_eq_neg_ofNat hneg.le
    exact h.repaired_of_neg hi (by omega)
  · exact h.repaired_of_zero hzero
  · obtain ⟨i, hi⟩ := Int.eq_ofNat_of_zero_le hpos.le
    exact h.repaired_of_pos hi (by omega)

/-! ### The window -/

theorem Holds.length (h : r.Holds window) : window.length = r.sz := by
  rw [h.window_eq, length_rotate, length_map, length_range]

/-- The queue with a new item: the oldest one leaves it if it is full. -/
theorem Holds.newest_eq (h : r.Holds window) (v : α) :
    newest r.N (window ++ [v]) = ((List.range (min (r.sz + 1) r.N)).map
      (Function.update r.data r.idx v)).rotate ((r.idx + 1) % r.N) := by
  have hlen : ((List.range r.sz).map r.data).length = r.sz := by simp
  rcases Nat.lt_or_ge r.sz r.N with hgrow | hfull
  · -- the queue is extended, and it starts at the first place
    have hidx := h.idx_eq hgrow
    have hmap : (List.range (r.sz + 1)).map (Function.update r.data r.sz v) =
        (List.range r.sz).map r.data ++ [v] := by
      rw [List.range_succ, map_append, map_singleton, Function.update_self]
      refine congrArg (· ++ [v]) (map_congr_left fun n hn => ?_)
      rw [Function.update_of_ne (mem_range.mp hn).ne]
    have hwindow : window = (List.range r.sz).map r.data := by
      have hrot := rotate_length ((List.range r.sz).map r.data)
      rw [hlen] at hrot
      rw [h.window_eq, hidx, hrot]
    have hrot : (r.sz + 1) % r.N = 0 ∨ (r.sz + 1) % r.N = r.sz + 1 := by
      rcases Nat.lt_or_ge (r.sz + 1) r.N with hlt | hge
      · exact .inr (Nat.mod_eq_of_lt hlt)
      · exact .inl (by rw [show r.sz + 1 = r.N by omega, Nat.mod_self])
    rw [newest, length_append, length_singleton, h.length,
      show r.sz + 1 - r.N = 0 by omega, drop_zero, hidx,
      show min (r.sz + 1) r.N = r.sz + 1 by omega, hmap, hwindow]
    rcases hrot with hrot | hrot
    · rw [hrot, rotate_zero]
    · have hself := rotate_length ((List.range r.sz).map r.data ++ [v])
      rw [length_append, hlen, length_singleton] at hself
      rw [hrot, hself]
  · -- the item takes the place of the oldest one, and the queue starts behind it
    have hN : r.sz = r.N := le_antisymm h.sz_le hfull
    have hidx : r.idx < ((List.range r.N).map r.data).length := by simpa using h.idx_lt
    have hmap : (List.range r.N).map (Function.update r.data r.idx v) =
        ((List.range r.N).map r.data).set r.idx v := by
      refine ext_getElem (by simp) fun n hn hn' => ?_
      rw [getElem_map, getElem_range, getElem_set]
      split_ifs with heq
      · rw [heq, Function.update_self]
      · rw [Function.update_of_ne (Ne.symm heq), getElem_map, getElem_range]
    rw [newest, length_append, length_singleton, h.length, hN,
      show r.N + 1 - r.N = 1 by omega, show min (r.N + 1) r.N = r.N by omega, hmap, h.window_eq, hN]
    rw [hN] at hlen
    generalize (List.range r.N).map r.data = l at hidx hlen
    exact drop_rotate_concat hidx hlen

/-- **Inserting an item.** -/
theorem Holds.insert (h : r.Holds window) (v : α) :
    (r.insert v).N = r.N ∧ (r.insert v).Holds (newest r.N (window ++ [v])) := by
  obtain ⟨a, b, hs, hm, hord⟩ := h.repaired v
  have hpos : 0 < (r.stored v a b).sz := by
    have hN := h.N_pos
    change 0 < min (r.sz + 1) r.N
    omega
  refine ⟨hm.N, { toSlotted := hs.of_moved hpos hm, ordered := hord, window_eq := ?_ }⟩
  rw [hm.sz, hm.data, hm.idx]
  exact h.newest_eq v

/-- Inserting items one after another. -/
theorem Holds.foldl_insert (h : r.Holds window) (vs : List α) :
    (vs.foldl RollingMedian.insert r).N = r.N ∧
      (vs.foldl RollingMedian.insert r).Holds (newest r.N (window ++ vs)) := by
  induction vs generalizing r window with
  | nil =>
    refine ⟨rfl, ?_⟩
    rw [append_nil, newest_of_length_le (h.length ▸ h.sz_le)]
    exact h
  | cons v vs ih =>
    obtain ⟨hN, hins⟩ := h.insert v
    obtain ⟨hN', hfold⟩ := ih hins
    rw [hN] at hN' hfold
    rw [newest_append, append_assoc, singleton_append] at hfold
    exact ⟨hN', hfold⟩

/-! ### The median -/

/-- The top of a heap is in order with all its items. -/
theorem Ordered.top_le (h : r.Ordered s) (hn : 1 ≤ n) (hn' : n ≤ r.ct s) :
    s.le (r.key s 1) (r.key s n) := by
  induction n using Nat.strong_induction_on with
  | _ n ih =>
    rcases eq_or_ne n 1 with rfl | hne
    · exact s.refl _
    · exact (ih (n / 2) (by omega) (by omega) (by omega)).trans (h n hn hn')

theorem Ordered.root_le (h : r.Ordered s) (hn' : n ≤ r.ct s) : s.le (r.val 0) (r.key s n) := by
  rcases Nat.eq_zero_or_pos n with rfl | hn
  · rw [key_zero]
    exact s.refl _
  · have hroot := h 1 le_rfl (hn.trans_le hn')
    rw [show 1 / 2 = 0 from rfl, key_zero] at hroot
    exact hroot.trans (h.top_le hn hn')

/-- Counting items of the window by their index. -/
theorem Holds.countP_eq (h : r.Holds window) (p : α → Bool) :
    window.countP p = ((Finset.range r.sz).filter fun n => p (r.data n) = true).card := by
  rw [h.window_eq, (rotate_perm _ _).countP_eq, countP_map, countP_eq_length_filter]
  change _ = ((List.range r.sz).filter fun n => decide (p (r.data n) = true)).length
  simp only [Bool.decide_eq_true]
  rfl

/-- A position that splits the items by their size has the rank of its place. -/
theorem Holds.rank_of_split (h : r.Holds window) (hsz : 0 < r.sz) {q : ℤ} (hq : q ∈ r.active)
    (hle : ∀ p ∈ r.active, p ≤ q → r.val p ≤ r.val q)
    (hge : ∀ p ∈ r.active, q ≤ p → r.val q ≤ r.val p) :
    rank window (q + r.maxCt).toNat = some (r.val q) := by
  obtain ⟨hlo, hhi⟩ := hq
  have hdata : ∀ n ∈ Finset.range r.sz, r.data n = r.val (r.pos n) ∧ r.pos n ∈ r.active := by
    intro n hn
    have hlt := Finset.mem_range.mp hn
    have hN := hlt.trans_le h.sz_le
    exact ⟨h.wired.data_eq hN, (h.active hsz n hN).mp hlt⟩
  apply rank_eq_some
  · -- the smaller items are at the positions below
    have hcard := @Slotted.card_between _ _ h.toSlotted hsz (-(r.maxCt : ℤ)) (q - 1) le_rfl
      (by omega)
    rw [h.countP_eq]
    refine (Finset.card_le_card fun n hn => ?_).trans (hcard.le.trans (by omega))
    obtain ⟨hmem, hlt⟩ := Finset.mem_filter.mp hn
    obtain ⟨heq, hact⟩ := hdata n hmem
    rw [heq, decide_eq_true_eq] at hlt
    refine Finset.mem_filter.mpr ⟨hmem, hact.1, ?_⟩
    by_contra hpos
    exact absurd (hge _ hact (by omega)) (not_le.mpr hlt)
  · have hcard := @Slotted.card_between _ _ h.toSlotted hsz (-(r.maxCt : ℤ)) q le_rfl hhi
    rw [h.countP_eq]
    refine lt_of_lt_of_le (lt_of_lt_of_eq (by omega) hcard.symm)
      (Finset.card_le_card fun n hn => ?_)
    obtain ⟨hmem, -, hpos⟩ := Finset.mem_filter.mp hn
    obtain ⟨heq, hact⟩ := hdata n hmem
    rw [Finset.mem_filter, heq, decide_eq_true_eq]
    exact ⟨hmem, hle _ hact hpos⟩

theorem Holds.root_le_val (h : r.Holds window) {p : ℤ} (hp : p ∈ r.active) (hpos : 0 ≤ p) :
    r.val 0 ≤ r.val p := by
  obtain ⟨n, rfl⟩ := Int.eq_ofNat_of_zero_le hpos
  exact (h.ordered .min).root_le (Int.ofNat_le.mp hp.2)

theorem Holds.val_le_root (h : r.Holds window) {p : ℤ} (hp : p ∈ r.active) (hneg : p ≤ 0) :
    r.val p ≤ r.val 0 := by
  obtain ⟨n, rfl⟩ := Int.exists_eq_neg_ofNat hneg
  exact (h.ordered .max).root_le (show n ≤ r.maxCt by have := hp.1; omega)

/-- The root has rank `sz / 2`. -/
theorem Holds.rank_root (h : r.Holds window) (hsz : 0 < r.sz) :
    rank window (r.sz / 2) = some (r.val 0) := by
  have hrank := h.rank_of_split (q := 0) hsz ⟨by omega, by omega⟩ (fun p hp => h.val_le_root hp)
    fun p hp => h.root_le_val hp
  rwa [zero_add, Int.toNat_natCast, h.maxCt] at hrank

/-- The top of the max heap has the rank before the root. -/
theorem Holds.rank_top (h : r.Holds window) (hct : 1 ≤ r.maxCt) :
    rank window (r.sz / 2 - 1) = some (r.val (-1)) := by
  have hmax := h.maxCt
  have hact : (-1 : ℤ) ∈ r.active := ⟨by omega, by omega⟩
  have hrank := h.rank_of_split (q := -1) (by omega) hact (fun p hp hle => ?_) fun p hp hge => ?_
  · rwa [show (-1 + (r.maxCt : ℤ)).toNat = r.sz / 2 - 1 by omega] at hrank
  · obtain ⟨n, rfl⟩ := Int.exists_eq_neg_ofNat (show p ≤ 0 by omega)
    exact (h.ordered .max).top_le (by omega) (show n ≤ r.maxCt by have := hp.1; omega)
  · rcases (show p = -1 ∨ 0 ≤ p by omega) with rfl | hpos
    · exact le_rfl
    · exact (h.val_le_root hact (by decide)).trans (h.root_le_val hp hpos)

/-- **The median.** It is the median of the window: the middle item, or the middle of the two middle
items. -/
theorem Holds.median (h : r.Holds window) (hne : window ≠ []) (mid : α → α → α) :
    ∃ x y, rank window ((window.length - 1) / 2) = some x ∧
      rank window (window.length / 2) = some y ∧
      r.median mid = if window.length % 2 = 1 then y else mid y x := by
  have hsz : 0 < r.sz := h.length ▸ length_pos_iff.mpr hne
  have hmin := h.minCt
  have hmax := h.maxCt
  rw [h.length, RollingMedian.median]
  rcases Nat.mod_two_eq_zero_or_one r.sz with h2 | h2
  · refine ⟨r.val (-1), r.val 0, ?_, h.rank_root hsz, ?_⟩
    · rw [show (r.sz - 1) / 2 = r.sz / 2 - 1 by omega]
      exact h.rank_top (by omega)
    · rw [if_pos (by omega), if_neg (by omega)]
  · refine ⟨r.val 0, r.val 0, ?_, h.rank_root hsz, ?_⟩
    · rw [show (r.sz - 1) / 2 = r.sz / 2 by omega]
      exact h.rank_root hsz
    · rw [if_neg (by omega), if_pos h2]

end Holds

end RollingMedian

end Median
