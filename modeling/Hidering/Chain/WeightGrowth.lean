import Hidering.Chain.BlockWeight
import Hidering.Chain.Fees
import Hidering.Chain.Linked
import Mathlib.Algebra.Order.Ring.Rat
import Mathlib.Tactic.Linarith
import Mathlib.Tactic.NormNum

/-!
# How fast the weight limit can grow

From `HF_VERSION_2021_SCALING` on the long-term weight of a block lies between 10/17 and 17/10 of
the long-term median in force, and the effective median is at most 50 times the long-term median.
The long-term median is taken over the last `N` blocks. Fewer than half of them cannot move it above
the values that the others have, so that it takes `N / 2` blocks for the long-term median to grow by
a factor of 17/10, whatever the blocks weigh.

The bounds are stated over the rationals; the machine arithmetic does not overflow below `2 ^ 58`.

## Main definitions

* `Hidering.AcceptedBlocks` — blocks accepted one after the other
* `Hidering.WeightsBounded` — the bound on the weight of each block

## Main results

* `Hidering.median_le_of_countP` — a bound on more than half of a list
* `Hidering.WeightsBounded.effective_le`
* `Hidering.AcceptedBlocks.weight_growth`
-/

namespace Hidering

open Wire Machine Median Crypto List
open scoped Machine.WordOrder

/-! ### The median of a window -/

/-- If more than half of a list is below a bound, so is its median. -/
theorem median_le_of_countP {l : List UInt64} {B : ℚ}
    (h : l.length / 2 < l.countP fun w => decide ((w.toNat : ℚ) ≤ B)) :
    ((median l).toNat : ℚ) ≤ B := by
  have hmono : ∀ a b : UInt64, a ≤ b → decide ((b.toNat : ℚ) ≤ B) = true →
      decide ((a.toNat : ℚ) ≤ B) = true := by
    intro a b hab hb
    rw [decide_eq_true_eq] at hb ⊢
    exact le_trans (Nat.cast_le.mpr (UInt64.le_iff_toNat_le.mp hab)) hb
  have hne : l ≠ [] := by
    rintro rfl
    exact absurd h (Nat.lt_irrefl 0)
  obtain ⟨x, y, hx, hy, hmedian, -⟩ := median_eq hne
  have hle : median l ≤ y := by
    rw [hmedian]
    exact (getMid_mono (rank_mono hx hy (by omega)) (UInt64.le_refl y)).trans (getMid_self y).le
  exact of_decide_eq_true (hmono _ _ hle ((rank_iff hmono hy).mpr h))

/-- The bounds on the long-term weights of a chain whose first `h₀` blocks came before: a block is
allowed a factor of 17/10 for every `N / 2` blocks that came before it, and one more. -/
structure WeightsBounded (W : ℚ) (h₀ : ℕ) (weights : List UInt64) : Prop where
  old : ∀ i w, h₀ ≤ i + cryptonoteLongTermBlockWeightWindowSize → i < h₀ → weights[i]? = some w →
    (w.toNat : ℚ) ≤ W
  new : ∀ i w, weights[h₀ + i]? = some w →
    (w.toNat : ℚ) ≤ (17 / 10) ^ (i / (cryptonoteLongTermBlockWeightWindowSize / 2) + 1) * W

section Bounds

variable {W : ℚ} {h₀ k : ℕ} {weights : List UInt64}

theorem pow_mul_le (hW : 0 ≤ W) {a b : ℕ} (h : a ≤ b) :
    ((17 : ℚ) / 10) ^ a * W ≤ (17 / 10) ^ b * W :=
  mul_le_mul_of_nonneg_right (pow_le_pow_right₀ (by norm_num) h) hW

/-- **The long-term median.** All but the last `k % (N / 2)` weights of the window are below the
bound for `k / (N / 2)`, and these are more than half of it. -/
theorem WeightsBounded.effective_le (h : WeightsBounded W h₀ weights)
    (hlen : weights.length = h₀ + k) (hfull : cryptonoteLongTermBlockWeightWindowSize ≤ h₀)
    (hzone : 300000 ≤ W) :
    ((max fullRewardZoneV5
      (median (newest cryptonoteLongTermBlockWeightWindowSize weights))).toNat : ℚ) ≤
        (17 / 10) ^ (k / (cryptonoteLongTermBlockWeightWindowSize / 2)) * W := by
  have hW : 0 ≤ W := le_trans (by norm_num) hzone
  have hone : W ≤ (17 / 10) ^ (k / (cryptonoteLongTermBlockWeightWindowSize / 2)) * W := by
    simpa using pow_mul_le hW (Nat.zero_le (k / (cryptonoteLongTermBlockWeightWindowSize / 2)))
  have hcount := le_countP_newest (l := weights) (N := cryptonoteLongTermBlockWeightWindowSize)
    (m := k % (cryptonoteLongTermBlockWeightWindowSize / 2))
    (p := fun w => decide ((w.toNat : ℚ) ≤
      (17 / 10) ^ (k / (cryptonoteLongTermBlockWeightWindowSize / 2)) * W)) (by omega) (by
      intro i w hi hlt hw
      refine decide_eq_true ?_
      rcases Nat.lt_or_ge i h₀ with hold | hnew
      · exact (h.old i w (by omega) hold hw).trans hone
      · obtain ⟨i, rfl⟩ := Nat.exists_eq_add_of_le hnew
        refine (h.new i w hw).trans (pow_mul_le hW ?_)
        have hsum := Nat.div_add_mod k (cryptonoteLongTermBlockWeightWindowSize / 2)
        exact Nat.div_lt_of_lt_mul (by omega))
  have hmod := Nat.mod_lt k (show 0 < cryptonoteLongTermBlockWeightWindowSize / 2 by decide)
  have hmedian := median_le_of_countP (Nat.lt_of_lt_of_le (by rw [length_newest]; omega) hcount)
  rw [toNat_max_word, Nat.cast_max]
  exact max_le (hzone.trans hone) hmedian

end Bounds

/-! ### One block -/

/-- The long-term weight lies between 10/17 and 17/10 of the median in force. -/
theorem Blockchain.getNextLongTermBlockWeight_bounds {chain : Blockchain} {weight w : UInt64}
    (hversion : hfVersion2021Scaling ≤ chain.hfVersion)
    (hmedian : chain.db.longTermEffectiveMedian.toNat < 2 ^ 58)
    (h : chain.getNextLongTermBlockWeight weight = some w) :
    chain.db.longTermEffectiveMedian.toNat * 10 / 17 ≤ w.toNat ∧
      (w.toNat : ℚ) ≤ 17 / 10 * chain.db.longTermEffectiveMedian.toNat := by
  rw [getNextLongTermBlockWeight,
    if_neg (UInt8.not_lt.mpr (UInt8.le_trans (by decide) hversion))] at h
  split at h
  · cases h
  · have hw : min (max weight (chain.db.longTermEffectiveMedian * 10 / 17))
        (chain.db.longTermEffectiveMedian + chain.db.longTermEffectiveMedian * 7 / 10) = w :=
      Option.some.inj h
    rw [← hw]
    generalize chain.db.longTermEffectiveMedian = m at hmedian ⊢
    have hlow : (m * 10 / 17).toNat = m.toNat * 10 / 17 := by
      rw [UInt64.toNat_div, toNat_mul_of_lt (show m.toNat * 10 < _ by omega)]
      rfl
    have hseven : (m * 7 / 10).toNat = m.toNat * 7 / 10 := by
      rw [UInt64.toNat_div, toNat_mul_of_lt (show m.toNat * 7 < _ by omega)]
      rfl
    have hhigh : (m + m * 7 / 10).toNat = m.toNat + m.toNat * 7 / 10 := by
      rw [toNat_add_of_lt (by rw [hseven]; omega), hseven]
    rw [toNat_min_word, toNat_max_word, hlow, hhigh]
    refine ⟨by omega, ?_⟩
    have hnat : 10 * min (max weight.toNat (m.toNat * 10 / 17)) (m.toNat + m.toNat * 7 / 10) ≤
        17 * m.toNat := by omega
    have hrat : (10 : ℚ) * (min (max weight.toNat (m.toNat * 10 / 17))
        (m.toNat + m.toNat * 7 / 10) : ℕ) ≤ 17 * m.toNat := by exact_mod_cast hnat
    linarith

/-- What `update_next_cumulative_weight_limit` leaves behind. -/
theorem Blockchain.medians_of_limits {chain : Blockchain}
    (hlimits : chain.updateNextCumulativeWeightLimit = chain)
    (hversion : hfVersion2021Scaling ≤ chain.hfVersion)
    (hmedian : chain.db.longTermEffectiveMedian.toNat < 2 ^ 58) :
    chain.longTermEffectiveMedianBlockWeight = chain.db.longTermEffectiveMedian ∧
      chain.currentBlockCumulWeightMedian.toNat ≤ 50 * chain.db.longTermEffectiveMedian.toNat := by
  have h10 : ¬ chain.hfVersion < hfVersionLongTermBlockWeight :=
    UInt8.not_lt.mpr (UInt8.le_trans (by decide) hversion)
  have hcurrent : chain.currentBlockCumulWeightMedian =
      effectiveMedian chain.nextWeightMedian chain.hfVersion := by
    conv_lhs => rw [← hlimits]
    rfl
  constructor
  · conv_lhs => rw [← hlimits]
    exact if_neg h10
  · have hsurge : (cryptonoteShortTermBlockWeightSurgeFactor *
        chain.db.longTermEffectiveMedian).toNat = 50 * chain.db.longTermEffectiveMedian.toNat :=
      toNat_mul_of_lt (show 50 * _ < _ by omega)
    have hnext : chain.nextWeightMedian.toNat ≤ 50 * chain.db.longTermEffectiveMedian.toNat := by
      rw [nextWeightMedian, if_neg h10, toNat_min_word, hsurge]
      exact Nat.min_le_right _ _
    have hzone := (toNat_getMinBlockWeight chain.hfVersion).2
    have hlong : 300000 ≤ chain.db.longTermEffectiveMedian.toNat := by
      rw [Db.longTermEffectiveMedian, toNat_max_word]
      exact Nat.le_max_left _ _
    rw [hcurrent, toNat_effectiveMedian]
    omega

/-! ### Runs -/

/-- Blocks that are accepted one after the other, at versions from `HF_VERSION_2021_SCALING` on,
with the chain before each of them. Between two blocks the pool may change in any way. -/
inductive AcceptedBlocks (p : NodeParams) (c : Crypto) (start : Blockchain) :
    List Blockchain → Blockchain → Prop
  | nil : AcceptedBlocks p c start [] start
  | block {l : List Blockchain} {node node' : Node} {now : UInt64} {b : Block}
      {extra : PoolSupplement} (hrun : AcceptedBlocks p c start l node.chain)
      (h : node.handleBlockToMainChain p c now b extra = (true, node'))
      (hversion : hfVersion2021Scaling ≤ node'.chain.hfVersion) :
      AcceptedBlocks p c start (l ++ [node.chain]) node'.chain

section Run

variable {p : NodeParams} {c : Crypto} {start chain : Blockchain} {l : List Blockchain}

/-- What holds in every state of a run of fewer than `(j + 1) * (N / 2)` blocks. -/
structure GrowthOk (W : ℚ) (start : Blockchain) (l : List Blockchain) (chain : Blockchain) :
    Prop where
  limits : chain.updateNextCumulativeWeightLimit = chain
  version : hfVersion2021Scaling ≤ chain.hfVersion
  length : chain.db.infos.length = chain.db.height
  height : chain.db.height = start.db.height + l.length
  bounded : WeightsBounded W start.db.height chain.db.longTermWeights
  above : ∀ i before, l[i]? = some before →
    ∃ w, chain.db.longTermWeights[start.db.height + i]? = some w ∧
      before.longTermEffectiveMedianBlockWeight.toNat * 10 / 17 ≤ w.toNat

variable {W : ℚ} {j : ℕ}

namespace GrowthOk

theorem length_weights (h : GrowthOk W start l chain) :
    chain.db.longTermWeights.length = start.db.height + l.length := by
  rw [Db.longTermWeights, length_map, h.length, h.height]

end GrowthOk

variable (hfull : cryptonoteLongTermBlockWeightWindowSize ≤ start.db.height) (hzone : 300000 ≤ W)

include hfull hzone

theorem GrowthOk.effective_le (h : GrowthOk W start l chain) :
    (chain.db.longTermEffectiveMedian.toNat : ℚ) ≤
      (17 / 10) ^ (l.length / (cryptonoteLongTermBlockWeightWindowSize / 2)) * W := by
  rw [Db.longTermEffectiveMedian, LongTermCache.longTermBlockWeightMedian_eq h.length]
  exact h.bounded.effective_le h.length_weights hfull hzone

variable (hW : (17 / 10) ^ (j + 1) * W < 2 ^ 58)
  (hshort : l.length < (j + 1) * (cryptonoteLongTermBlockWeightWindowSize / 2))

include hW hshort

/-- The long-term median has not grown by more than `j` factors yet, and does not overflow. -/
theorem GrowthOk.effective_bound (h : GrowthOk W start l chain) :
    (chain.db.longTermEffectiveMedian.toNat : ℚ) ≤ (17 / 10) ^ j * W ∧
      chain.db.longTermEffectiveMedian.toNat < 2 ^ 58 := by
  have hpos : 0 ≤ W := le_trans (by norm_num) hzone
  have hj : l.length / (cryptonoteLongTermBlockWeightWindowSize / 2) ≤ j :=
    Nat.lt_succ_iff.mp (Nat.div_lt_of_lt_mul (by rwa [Nat.mul_comm] at hshort))
  have hle := (h.effective_le hfull hzone).trans (pow_mul_le hpos hj)
  refine ⟨hle, ?_⟩
  have hlt := hle.trans_lt ((pow_mul_le hpos (Nat.le_succ j)).trans_lt hW)
  exact_mod_cast hlt

/-- **One accepted block.** -/
theorem GrowthOk.step {node node' : Node} {now : UInt64} {b : Block} {extra : PoolSupplement}
    (h : GrowthOk W start l node.chain)
    (hblock : node.handleBlockToMainChain p c now b extra = (true, node'))
    (hversion : hfVersion2021Scaling ≤ node'.chain.hfVersion) :
    GrowthOk W start (l ++ [node.chain]) node'.chain := by
  obtain ⟨r, hr, rfl⟩ := Node.handleBlockToMainChain_true.mp hblock
  obtain ⟨n, hstored⟩ := hr.stored
  obtain ⟨cumRct, hinfos⟩ := addBlock_infos hstored
  have hheight := addBlock_height hstored
  have hweights : r.db.longTermWeights = node.chain.db.longTermWeights ++ [r.longTermWeight] := by
    rw [Db.longTermWeights, hinfos, map_append, map_singleton]
    exact congrArg (fun w => _ ++ [w]) UInt64.ofNat_toNat
  have hdb : (node.accept p c now b r.db r.gathered).chain.db = r.db := Node.accept_db
  obtain ⟨-, hlt⟩ := h.effective_bound hfull hzone hW hshort
  obtain ⟨hlow, hhigh⟩ :=
    Blockchain.getNextLongTermBlockWeight_bounds h.version hlt hr.longTerm
  have hmember := (Blockchain.medians_of_limits h.limits h.version hlt).1
  have hget : ∀ i, i < start.db.height + l.length →
      r.db.longTermWeights[i]? = node.chain.db.longTermWeights[i]? := by
    intro i hi
    rw [hweights, getElem?_append_left (by rw [h.length_weights]; exact hi)]
  have hlast : r.db.longTermWeights[start.db.height + l.length]? = some r.longTermWeight := by
    rw [hweights, ← h.length_weights, getElem?_concat_length]
  refine ⟨?_, hversion, ?_, ?_, ⟨?_, ?_⟩, ?_⟩
  · rw [Node.accept_chain]
    exact Blockchain.updateNextCumulativeWeightLimit_idem _
  · rw [hdb, hinfos, length_append, h.length, hheight]
    rfl
  · rw [hdb, hheight, h.height, length_append]
    rfl
  · rw [hdb]
    intro i w hi hlt hw
    rw [hget i (by omega)] at hw
    exact h.bounded.old i w hi hlt hw
  · rw [hdb]
    intro i w hw
    have hi : i ≤ l.length := by
      have := (List.getElem?_eq_some_iff.mp hw).1
      rw [hweights, length_append, h.length_weights, length_singleton] at this
      omega
    rcases hi.lt_or_eq with hlt | rfl
    · rw [hget _ (by omega)] at hw
      exact h.bounded.new i w hw
    · obtain rfl := Option.some.inj (hlast.symm.trans hw)
      have hle := h.effective_le hfull hzone
      rw [pow_succ]
      linarith
  · rw [hdb]
    intro i before hi
    rcases Nat.lt_or_ge i l.length with hlt | hge
    · rw [getElem?_append_left hlt] at hi
      rw [hget _ (by omega)]
      exact h.above i before hi
    · obtain rfl : i = l.length := by
        have := (List.getElem?_eq_some_iff.mp hi).1
        rw [length_append, length_singleton] at this
        omega
      rw [getElem?_concat_length] at hi
      obtain rfl := Option.some.inj hi
      exact ⟨_, hlast, by rw [hmember]; exact hlow⟩

/-- **Runs.** -/
theorem AcceptedBlocks.growthOk (hlimits : start.updateNextCumulativeWeightLimit = start)
    (hversion : hfVersion2021Scaling ≤ start.hfVersion)
    (hlength : start.db.infos.length = start.db.height)
    (hold : ∀ w ∈ newest cryptonoteLongTermBlockWeightWindowSize start.db.longTermWeights,
      (w.toNat : ℚ) ≤ W) (hrun : AcceptedBlocks p c start l chain) :
    GrowthOk W start l chain := by
  induction hrun with
  | nil =>
    have hlen : start.db.longTermWeights.length = start.db.height := by
      rw [Db.longTermWeights, length_map, hlength]
    refine ⟨hlimits, hversion, hlength, rfl, ⟨?_, ?_⟩, ?_⟩
    · intro i w hi hlt hw
      refine hold w (mem_iff_getElem?.mpr
        ⟨i - (start.db.height - cryptonoteLongTermBlockWeightWindowSize), ?_⟩)
      rw [newest, getElem?_drop, hlen, Nat.add_sub_cancel' (Nat.sub_le_iff_le_add.mpr hi)]
      exact hw
    · intro i w hw
      have := (List.getElem?_eq_some_iff.mp hw).1
      omega
    · intro i before hi
      cases hi
  | block _ hblock hversion' ih =>
    rw [length_append, length_singleton] at hshort
    have hshort' := Nat.lt_of_succ_lt hshort
    exact (ih hshort').step hfull hzone hW hshort' hblock hversion'

omit hfull hzone hW hshort

/-- **The growth of the weight limit.** Let the long-term window be full, with all weights in it and
the full reward zone at most `W`, at versions from `HF_VERSION_2021_SCALING` on. While fewer than
`(j + 1) * (N / 2)` blocks have been added, the long-term effective median is at most
`(17/10)^j * W` and the effective median at most 50 times that; and the long-term weight stored with
each of these blocks is at least 10/17, rounded down, of the long-term median in force when it was
added. -/
theorem AcceptedBlocks.weight_growth (hlimits : start.updateNextCumulativeWeightLimit = start)
    (hversion : hfVersion2021Scaling ≤ start.hfVersion)
    (hlength : start.db.infos.length = start.db.height)
    (hfull : cryptonoteLongTermBlockWeightWindowSize ≤ start.db.height)
    (hold : ∀ w ∈ newest cryptonoteLongTermBlockWeightWindowSize start.db.longTermWeights,
      (w.toNat : ℚ) ≤ W) (hzone : 300000 ≤ W) (hW : (17 / 10) ^ (j + 1) * W < 2 ^ 58)
    (hrun : AcceptedBlocks p c start l chain)
    (hshort : l.length < (j + 1) * (cryptonoteLongTermBlockWeightWindowSize / 2)) :
    (chain.longTermEffectiveMedianBlockWeight.toNat : ℚ) ≤ (17 / 10) ^ j * W ∧
      (chain.currentBlockCumulWeightMedian.toNat : ℚ) ≤ 50 * ((17 / 10) ^ j * W) ∧
      ∀ i before, l[i]? = some before →
        ∃ w, chain.db.longTermWeights[start.db.height + i]? = some w ∧
          before.longTermEffectiveMedianBlockWeight.toNat * 10 / 17 ≤ w.toNat := by
  have hok := hrun.growthOk hfull hzone hW hshort hlimits hversion hlength hold
  obtain ⟨hle, hlt⟩ := hok.effective_bound hfull hzone hW hshort
  obtain ⟨hlong, hcurrent⟩ := Blockchain.medians_of_limits hok.limits hok.version hlt
  refine ⟨by rw [hlong]; exact hle, ?_, hok.above⟩
  have hcast : (chain.currentBlockCumulWeightMedian.toNat : ℚ) ≤
      50 * chain.db.longTermEffectiveMedian.toNat := by exact_mod_cast hcurrent
  linarith

end Run

/-- A database with `n` blocks of 300000 bytes behind the end of the emission. -/
def Db.heavy (n : ℕ) : Db :=
  { Db.empty 0 with
    blocks := (List.range n).map fun k => (k, [])
    blockInfo := (List.range n).map fun k =>
      (k, ⟨0, moneySupply, 300000, k, natLe 1, 0, 300000⟩)
    blockHeights := fun h => if h = natLe 1 then some (n - 1) else none }

theorem Db.heavy_spec (n : ℕ) : (Db.heavy n).height = n ∧ (Db.heavy n).infos.length = n ∧
    ∀ w ∈ (Db.heavy n).longTermWeights, w = 300000 := by
  refine ⟨?_, ?_, ?_⟩
  · rw [Db.height, Db.heavy, length_map, length_range]
  · rw [Db.infos, Db.heavy, length_map, length_map, length_range]
  · intro w hw
    obtain ⟨i, hi, rfl⟩ := mem_map.mp hw
    obtain ⟨e, he, rfl⟩ := mem_map.mp hi
    obtain ⟨k, -, rfl⟩ := mem_map.mp he
    rfl

/-- The top block can be looked up, and its hash leads back to it. -/
theorem Db.heavy_top {n : ℕ} (hn : 0 < n) : (Db.heavy n).Extensible ∧
    (Db.heavy n).alreadyGeneratedCoins = moneySupply ∧ (Db.heavy n).blockHeights default = none := by
  have hheight := (Db.heavy_spec n).1
  have hdense : (Db.heavy n).blockInfo.Dense := by
    simp [Store.Table.Dense, Db.heavy, Function.comp_def]
  have htop : (Db.heavy n).blockInfo.get? (n - 1) =
      some ⟨0, moneySupply, 300000, n - 1, natLe 1, 0, 300000⟩ := by
    rw [hdense.get?_eq]
    simp [Db.heavy, hn]
  refine ⟨⟨?_, ?_, ?_, ?_⟩, ?_, ?_⟩
  · constructor <;> intro e he <;> cases he
  · rw [hheight]
    simp [Db.heavy]
  · rw [hheight]
    simp [Db.heavy]
  · rw [hheight]
    exact ⟨_, htop, by simp [Db.heavy]⟩
  · rw [Db.alreadyGeneratedCoins, hheight, htop]
    rfl
  · have hne : (default : Hash) ≠ natLe 1 := by decide +kernel
    simp [Db.heavy, hne]

/-- A fork that is on the last row of the table stays there. -/
theorem getCurrentVersion_sample_add (db : Db) (b : Block) (height : ℕ) :
    ((Blockchain.sample db).hardfork.add b height).getCurrentVersion = 16 := by
  have hheights : privateHardForks.ByHeight := ⟨by decide, rfl⟩
  rw [HardFork.add]
  split
  · change (privateHardForks.row (max 1 (HardFork.getVotedForkIndex _ (height + 1)))).version = 16
    have hindex := privateHardForks.indexAt_lt (height + 1)
    rw [HardFork.getVotedForkIndex_eq hheights]
    exact congrArg (fun i => (privateHardForks.row i).version)
      (max_eq_left (Nat.le_of_lt_succ hindex))
  · rfl

/-- A block without transactions is accepted behind a full window, and the bounds hold after it. -/
theorem AcceptedBlocks.weight_growth_heavy :
    ∃ start chain, AcceptedBlocks NodeParams.sample transparent start [start] chain ∧
      start.db.height = cryptonoteLongTermBlockWeightWindowSize ∧
      (chain.longTermEffectiveMedianBlockWeight.toNat : ℚ) ≤ (17 / 10) ^ 0 * 300000 ∧
      (chain.currentBlockCumulWeightMedian.toNat : ℚ) ≤ 50 * ((17 / 10) ^ 0 * 300000) ∧
      ∃ w, chain.db.longTermWeights[start.db.height]? = some w ∧
        start.longTermEffectiveMedianBlockWeight.toNat * 10 / 17 ≤ w.toNat := by
  obtain ⟨hheight, hlength, hweights⟩ := Db.heavy_spec cryptonoteLongTermBlockWeightWindowSize
  obtain ⟨htop, hcoins, hnew⟩ := @Db.heavy_top cryptonoteLongTermBlockWeightWindowSize (by decide)
  have hnewTx : (Db.heavy cryptonoteLongTermBlockWeightWindowSize).txIndices default = none := rfl
  generalize Db.heavy cryptonoteLongTermBlockWeightWindowSize = db at *
  obtain ⟨start, rfl, hversion, hlimits, hadd⟩ : ∃ start : Blockchain, start.db = db ∧
      start.hfVersion = 16 ∧ start.updateNextCumulativeWeightLimit = start ∧
      ∀ b height, (start.hardfork.add b height).getCurrentVersion = 16 :=
    ⟨Blockchain.sample db, rfl, rfl, Blockchain.updateNextCumulativeWeightLimit_idem _,
      getCurrentVersion_sample_add db⟩
  have hpos : 0 < start.db.height := by
    rw [hheight]
    decide
  obtain ⟨r, hr, -⟩ := @Node.passes_idleBlock NodeParams.sample transparent 0 []
    ⟨start, TxPool.empty⟩ _ htop (by rw [hversion]; decide) hpos (by rw [hheight]; decide)
    (Nat.zero_le _) (by rw [hcoins]; exact emissionEnd_lt.le) Nat.one_ne_zero
    ⟨rfl, rfl, hnew, hnewTx⟩ (by decide) (coinbaseWeight_idleBlock (by decide))
  have hrun := AcceptedBlocks.block .nil (Node.handleBlockToMainChain_true.mpr ⟨r, hr, rfl⟩) (by
      rw [Node.accept_chain]
      exact (by decide : hfVersion2021Scaling ≤ 16).trans_eq (hadd _ _).symm)
  obtain ⟨hlong, hcurrent, habove⟩ := AcceptedBlocks.weight_growth (j := 0) (W := 300000) hlimits
    (by rw [hversion]; decide) (hlength.trans hheight.symm) hheight.ge (fun w hw => by
      rw [hweights w (mem_of_mem_drop hw)]
      decide) (by norm_num) (by norm_num) hrun (by norm_num)
  exact ⟨_, _, hrun, hheight, hlong, hcurrent, habove 0 _ rfl⟩

end Hidering
