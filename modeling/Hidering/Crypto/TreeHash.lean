import Hidering.Commit.HashTree
import Mathlib.Logic.Function.Basic
import Mathlib.Tactic.Ring

/-!
# The hash of a list of hashes

`tree_hash` of `crypto/tree-hash.c`. The lowest level of its tree is only partly filled, and each
level is computed over the buffer that holds the one below it, reading two entries and writing one.
The loops are the same for all hashes of a given number: running them on positions instead of hashes
gives the tree that they evaluate.

## Main definitions

* `Hidering.treeHash`
* `Hidering.treeShape` — the tree, with positions at its leaves

## Main results

* `Hidering.treeHash_isRoot` — the hash is the root of a tree of all the hashes
* `Hidering.treeHash_binding`
-/

namespace Hidering

open Commit List

section

variable {H : Type} (node : H → H → H)

/-- The loop of `tree_hash_cnt`, of at most `fuel` rounds. -/
def doublePow (count : ℕ) : (fuel pow : ℕ) → ℕ
  | 0, pow => pow
  | fuel + 1, pow => if pow < count then doublePow count fuel (2 * pow) else pow

/-- `tree_hash_cnt`. -/
def treeHashCnt (count : ℕ) : ℕ := doublePow count count 2 / 2

/-- Hash the entries `i` and `i + 1` of `src` into entry `j` of `ints`, for `i = lo, lo + 2, …` and
`j = lo, lo + 1, …` below `lo + n`. The source may be the buffer itself. -/
def hashLoop (src : (ℕ → H) → ℕ → H) (lo n : ℕ) (ints : ℕ → H) : ℕ → H :=
  (List.range n).foldl (fun ints t => Function.update ints (lo + t)
    (node (src ints (lo + 2 * t)) (src ints (lo + 2 * t + 1)))) ints

/-- The loop `while (cnt > 2)`. -/
def halve : (fuel cnt : ℕ) → (ℕ → H) → ℕ → H
  | 0, _, ints => ints
  | fuel + 1, cnt, ints =>
    if 2 < cnt then halve fuel (cnt / 2) (hashLoop node id 0 (cnt / 2) ints) else ints

/-- `tree_hash` of `count > 0` hashes in memory; `null` is what `calloc` fills the buffer with. -/
def treeHashOf (null : H) (hashes : ℕ → H) (count : ℕ) : H :=
  if count = 1 then hashes 0
  else if count = 2 then node (hashes 0) (hashes 1)
  else
    let cnt := treeHashCnt count
    let lo := 2 * cnt - count
    let ints := hashLoop node (fun _ => hashes) lo (cnt - lo) fun k =>
      if k < lo then hashes k else null
    let ints := halve node count cnt ints
    node (ints 0) (ints 1)

/-- `tree_hash` of a vector. -/
def treeHash [Inhabited H] (hashes : List H) : H :=
  treeHashOf node default (fun i => hashes.getD i default) hashes.length

end

/-- The tree over the positions below `count`. -/
def treeShape (count : ℕ) : HashTree ℕ := treeHashOf .node (.leaf count) .leaf count

/-! ### The loops on positions -/

section

variable {G H : Type} {node : H → H → H} {node' : G → G → G} (φ : G → H)

theorem hashLoop_hom (hφ : ∀ a b, φ (node' a b) = node (φ a) (φ b))
    {src : (ℕ → H) → ℕ → H} (src' : (ℕ → G) → ℕ → G) (hsrc : ∀ f k, φ (src' f k) = src (φ ∘ f) k)
    (lo n : ℕ) (ints : ℕ → G) :
    hashLoop node src lo n (φ ∘ ints) = φ ∘ hashLoop node' src' lo n ints := by
  refine foldl_hom (φ ∘ ·) fun f t => ?_
  simp only [Function.comp_update, hφ, hsrc]

theorem halve_hom (hφ : ∀ a b, φ (node' a b) = node (φ a) (φ b)) (fuel cnt : ℕ) (ints : ℕ → G) :
    halve node fuel cnt (φ ∘ ints) = φ ∘ halve node' fuel cnt ints := by
  induction fuel generalizing cnt ints with
  | zero => rfl
  | succ fuel ih =>
    rw [halve, halve]
    split
    · rw [hashLoop_hom φ hφ id fun _ _ => rfl, ih]
    · rfl

theorem treeHashOf_hom (hφ : ∀ a b, φ (node' a b) = node (φ a) (φ b)) (null : G) (hashes : ℕ → G)
    (count : ℕ) :
    treeHashOf node (φ null) (φ ∘ hashes) count = φ (treeHashOf node' null hashes count) := by
  have hcopy : ∀ lo, (fun k => if k < lo then (φ ∘ hashes) k else φ null) =
      φ ∘ fun k => if k < lo then hashes k else null := fun lo => by
    funext k
    exact (apply_ite φ _ _ _).symm
  rw [treeHashOf, treeHashOf]
  split
  · rfl
  split
  · exact (hφ _ _).symm
  · simp only [hcopy]
    rw [hashLoop_hom φ hφ (fun _ => hashes) fun _ _ => rfl, halve_hom φ hφ]
    exact (hφ _ _).symm

/-- The hash is the root of the tree, with the hashes at its leaves. -/
theorem treeHash_eq_eval [Inhabited H] (hashes : List H) : treeHash node hashes =
    (treeShape hashes.length).eval node fun i => hashes.getD i default := by
  rw [treeHash, treeShape, ← treeHashOf_hom (HashTree.eval node _) fun _ _ => rfl]
  simp [HashTree.eval, Function.comp_def]

end

/-! ### The leaves of the tree -/

section

variable {H α : Type} {node : H → H → H} {L : H → List α} (hL : ∀ a b, L (node a b) = L a ++ L b)

include hL

/-- A loop moves what it reads to the next level, behind the entries below it. -/
theorem hashLoop_leaves (src : (ℕ → H) → ℕ → H)
    (hsrc : ∀ f j v k, k ≠ j → src (Function.update f j v) k = src f k) (lo n : ℕ)
    (ints : ℕ → H) :
    (List.range (lo + n)).flatMap (fun k => L (hashLoop node src lo n ints k)) =
      (List.range lo).flatMap (fun k => L (ints k)) ++
        (range' lo (2 * n)).flatMap fun k => L (src ints k) := by
  have hsucc : ∀ n, hashLoop node src lo (n + 1) ints =
      Function.update (hashLoop node src lo n ints) (lo + n)
        (node (src (hashLoop node src lo n ints) (lo + 2 * n))
          (src (hashLoop node src lo n ints) (lo + 2 * n + 1))) := fun n => by
    simp [hashLoop, List.range_succ]
  -- what is read was not written before
  have hread : ∀ n, ∀ k ≥ lo + n, src (hashLoop node src lo n ints) k = src ints k := by
    intro n
    induction n with
    | zero => exact fun k _ => rfl
    | succ n ih => exact fun k hk => by rw [hsucc, hsrc _ _ _ _ (by omega), ih k (by omega)]
  induction n with
  | zero => simp [hashLoop]
  | succ n ih =>
    have hold : (List.range (lo + n)).flatMap (fun k => L (hashLoop node src lo (n + 1) ints k)) =
        (List.range (lo + n)).flatMap fun k => L (hashLoop node src lo n ints k) := by
      refine flatMap_congr fun k hk => ?_
      rw [hsucc, Function.update_of_ne (mem_range.mp hk).ne]
    rw [← Nat.add_assoc, List.range_succ, flatMap_append, hold, ih, flatMap_singleton,
      hsucc, Function.update_self, hL, hread n _ (by omega), hread n _ (by omega),
      show 2 * (n + 1) = 2 * n + 1 + 1 by ring, range'_concat, range'_concat]
    simp [Nat.add_assoc]

theorem halve_leaves {fuel m : ℕ} (hfuel : m < fuel) (ints : ℕ → H) :
    (List.range (2 ^ (m + 1))).flatMap (fun k => L (ints k)) =
      L (halve node fuel (2 ^ (m + 1)) ints 0) ++ L (halve node fuel (2 ^ (m + 1)) ints 1) := by
  obtain ⟨fuel, rfl⟩ := Nat.exists_eq_add_one_of_ne_zero hfuel.ne_bot
  induction m generalizing fuel ints with
  | zero => simp [halve, List.range_succ]
  | succ m ih =>
    have hlt : 2 < 2 ^ (m + 1 + 1) := lt_self_pow₀ one_lt_two (by omega)
    have hloop := hashLoop_leaves hL id (fun f j v k hk => Function.update_of_ne hk _ _) 0
      (2 ^ (m + 1)) ints
    obtain ⟨fuel, rfl⟩ := Nat.exists_eq_add_one_of_ne_zero (show fuel ≠ 0 by omega)
    rw [halve, if_pos hlt, pow_succ, Nat.mul_div_cancel _ two_pos, ← ih _ _ (by omega)]
    simpa [mul_comm, range_eq_range'] using hloop.symm

end

theorem doublePow_spec {count fuel m : ℕ} (hm : 2 ^ m < count) (hfuel : count ≤ m + 1 + fuel) :
    ∃ k, doublePow count fuel (2 ^ (m + 1)) = 2 ^ (k + 1) ∧ 2 ^ k < count ∧
      count ≤ 2 ^ (k + 1) := by
  induction fuel generalizing m with
  | zero => exact ⟨m, rfl, hm, hfuel.trans Nat.lt_two_pow_self.le⟩
  | succ fuel ih =>
    rw [doublePow]
    split
    · next hlt =>
      rw [← pow_succ']
      exact ih hlt (by omega)
    · next hge => exact ⟨m, rfl, hm, Nat.le_of_not_lt hge⟩

/-- The leaves of the tree are the positions in order. -/
theorem leaves_treeShape {count : ℕ} (hpos : 0 < count) :
    (treeShape count).leaves = List.range count := by
  obtain rfl | rfl | hbig : count = 1 ∨ count = 2 ∨ 2 < count := by omega
  · rfl
  · rfl
  obtain ⟨m, hcnt, hlt, hle⟩ := doublePow_spec (m := 0) (show 2 ^ 0 < count by omega)
    (show count ≤ 0 + 1 + count by omega)
  replace hcnt : treeHashCnt count = 2 ^ m := by
    rw [treeHashCnt, show 2 = 2 ^ (0 + 1) from rfl, hcnt, Nat.pow_div (by omega) two_pos]
    rfl
  obtain ⟨m, rfl⟩ := Nat.exists_eq_add_one_of_ne_zero (show m ≠ 0 by rintro rfl; omega)
  have hfuel : m < count := (Nat.lt_succ_self m).trans (Nat.lt_two_pow_self.trans hlt)
  rw [treeShape, treeHashOf, if_neg (by omega), if_neg (by omega), hcnt]
  obtain ⟨lo, hlo⟩ : ∃ lo, lo = 2 * 2 ^ (m + 1) - count := ⟨_, rfl⟩
  have hL : ∀ a b : HashTree ℕ, (HashTree.node a b).leaves = a.leaves ++ b.leaves := fun _ _ => rfl
  simp only [← hlo, hL]
  rw [← halve_leaves hL hfuel]
  have hloop := hashLoop_leaves hL (fun _ => .leaf) (fun _ _ _ _ _ => rfl) lo (2 ^ (m + 1) - lo)
    fun k => if k < lo then .leaf k else .leaf count
  rw [show lo + (2 ^ (m + 1) - lo) = 2 ^ (m + 1) by omega] at hloop
  have hsplit := @range'_append_1 0 lo (count - lo)
  rw [Nat.add_sub_of_le (by omega)] at hsplit
  rw [hloop, flatMap_congr fun k hk => by rw [if_pos (mem_range.mp hk)],
    show 2 * (2 ^ (m + 1) - lo) = count - lo by omega]
  simpa [HashTree.leaves, range_eq_range'] using hsplit

section

variable {H : Type} [Inhabited H] {node : H → H → H} {hashes hashes' : List H}

variable (node hashes) in
/-- The pairs that `tree_hash` hashes. -/
def treePairs : List (H × H) :=
  (treeShape hashes.length).pairs node fun i => hashes.getD i default

/-- Lists of one length with the same hash are equal, or show a collision. -/
theorem treeHash_binding (hlen : hashes.length = hashes'.length)
    (h : treeHash node hashes = treeHash node hashes') :
    hashes = hashes' ∨ ∃ p ∈ treePairs node hashes, ∃ q ∈ treePairs node hashes',
      p ≠ q ∧ node p.1 p.2 = node q.1 q.2 := by
  rw [treeHash_eq_eval, treeHash_eq_eval, ← hlen] at h
  rw [treePairs, treePairs, ← hlen]
  refine (HashTree.eval_binding h).imp_left fun hleaves => ext_getElem hlen fun i hi hi' => ?_
  have hmem : i ∈ (treeShape hashes.length).leaves := by
    rw [leaves_treeShape (Nat.zero_lt_of_lt hi)]
    exact mem_range.mpr hi
  simpa [hi, hi'] using hleaves i hmem

/-- A hash function with collisions. -/
theorem treeHash_binding_const : [1, 2] = [3, 4] ∨ ∃ p ∈ treePairs (fun _ _ => 0) [1, 2],
    ∃ q ∈ treePairs (fun _ _ => 0) [3, 4], p ≠ q ∧ 0 = 0 :=
  treeHash_binding rfl rfl

end

/-- **The tree.** It depends on the number of hashes only, and its leaves are all of them in
order. -/
theorem treeHash_isRoot {n : ℕ} (hn : 0 < n) : ∃ t : HashTree ℕ, t.leaves = List.range n ∧
    ∀ (H : Type) [Inhabited H] (node : H → H → H) (hashes : List H), hashes.length = n →
      treeHash node hashes = t.eval node fun i => hashes.getD i default :=
  ⟨treeShape n, leaves_treeShape hn, fun _ _ _ hashes hlen => hlen ▸ treeHash_eq_eval hashes⟩

/-- Three hashes. -/
theorem treeHash_isRoot_three : ∃ t : HashTree ℕ, t.leaves = [0, 1, 2] ∧
    treeHash (· + ·) [5, 7, 11] = t.eval (· + ·) fun i => [5, 7, 11].getD i 0 :=
  (treeHash_isRoot three_pos).imp fun _ h => ⟨h.1, h.2 _ _ _ rfl⟩

end Hidering
