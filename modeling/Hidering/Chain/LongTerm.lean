import Hidering.Chain.State
import Hidering.Median.Window

/-!
# The cache of the long-term median

`get_long_term_block_weight_median` keeps the long-term weights of the last blocks in a rolling
median, together with the hash of the block that they end with. If the tip of the chain is the block
of the cache, the median is read off; if it is the next block, its weight is inserted; otherwise the
weights are read from the database again.

A cache is coherent if it holds the weights of the chain that ends with its block, where a block
hash stands for the same blocks in every database.

## Main definitions

* `Hidering.LongTermCache`, `Hidering.LongTermCache.getLongTermBlockWeightMedian`
* `Hidering.LongTermCache.CoherentAt`

## Main results

* `Hidering.median_newest_zeros_le` — zeros lower the median
* `Hidering.Db.CachedBy.graceMedian_le`
-/

namespace Hidering

open Wire Machine Median List
open scoped Machine.WordOrder

/-! ### Medians of words -/

theorem toNat_getMid (a b : UInt64) : (getMid a b).toNat = (a.toNat + b.toNat) / 2 := by
  have ha := a.toNat_lt
  have hb := b.toNat_lt
  have htwo : (2 : UInt64).toNat = 2 := rfl
  have hlow : ∀ x : UInt64, (x - 2 * (x / 2)).toNat = x.toNat % 2 := by
    intro x
    have hx := x.toNat_lt
    have hmul : (2 * (x / 2)).toNat = 2 * (x.toNat / 2) := by
      rw [UInt64.toNat_mul, UInt64.toNat_div, htwo]
      omega
    rw [UInt64.toNat_sub_of_le, hmul]
    · omega
    · rw [UInt64.le_iff_toNat_le, hmul]
      omega
  rw [getMid, UInt64.toNat_add, UInt64.toNat_add, UInt64.toNat_div, UInt64.toNat_div,
    UInt64.toNat_div, UInt64.toNat_add, hlow, hlow, htwo]
  omega

theorem getMid_comm (a b : UInt64) : getMid a b = getMid b a := by
  rw [← UInt64.toNat_inj, toNat_getMid, toNat_getMid, Nat.add_comm]

theorem getMid_self (a : UInt64) : getMid a a = a := by
  rw [← UInt64.toNat_inj, toNat_getMid]
  omega

theorem getMid_mono {a b a' b' : UInt64} (ha : a ≤ a') (hb : b ≤ b') :
    getMid a b ≤ getMid a' b' := by
  rw [UInt64.le_iff_toNat_le] at *
  rw [toNat_getMid, toNat_getMid]
  omega

/-- The median is the middle of the two elements of middle rank, which are the same one in a list of
odd length. -/
theorem median_eq {l : List UInt64} (hne : l ≠ []) :
    ∃ x y, rank l ((l.length - 1) / 2) = some x ∧ rank l (l.length / 2) = some y ∧
      median l = getMid x y ∧ (l.length % 2 = 1 → x = y) := by
  have hpos := length_pos_iff.mpr hne
  obtain ⟨x, hx⟩ := exists_rank (show (l.length - 1) / 2 < l.length by omega)
  obtain ⟨y, hy⟩ := exists_rank (show l.length / 2 < l.length by omega)
  have hget : ∀ {k a}, rank l k = some a → (l.insertionSort (· ≤ ·)).getD k 0 = a := by
    intro k a h
    rw [rank] at h
    rw [getD_eq_getElem?_getD, h, Option.getD_some]
  refine ⟨x, y, hx, hy, ?_, fun hodd => ?_⟩
  · rw [median, length_insertionSort]
    split_ifs with hodd
    · rw [show l.length / 2 = (l.length - 1) / 2 by omega] at hy
      rw [show l.length / 2 = (l.length - 1) / 2 by omega, hget hx,
        ← Option.some.inj (hx.symm.trans hy), getMid_self]
    · rw [show l.length / 2 - 1 = (l.length - 1) / 2 by omega, hget hx, hget hy]
  · rw [show l.length / 2 = (l.length - 1) / 2 by omega] at hy
    exact Option.some.inj (hx.symm.trans hy)

/-- The median of a rolling median is that of its window. -/
theorem holds_median {r : RollingMedian UInt64} {window : List UInt64} (h : r.Holds window)
    (hne : window ≠ []) : r.median getMid = median window := by
  obtain ⟨x, y, hx, hy, hmedian⟩ := h.median hne getMid
  obtain ⟨x', y', hx', hy', hmedian', hodd⟩ := median_eq hne
  obtain rfl := Option.some.inj (hx.symm.trans hx')
  obtain rfl := Option.some.inj (hy.symm.trans hy')
  rw [hmedian, hmedian']
  split_ifs with h2
  · rw [hodd h2, getMid_self]
  · exact getMid_comm y x

/-- **Zeros lower the median.** -/
theorem median_newest_zeros_le {l : List UInt64} {N : ℕ} (hne : l ≠ []) (hlen : l.length ≤ N)
    (g : ℕ) : median (newest N (l ++ replicate g 0)) ≤ median l := by
  have hcount := countP_newest_replicate (g := g) (fun t => UInt64.zero_le) hlen
  have hpos := length_pos_iff.mpr hne
  have hlen' := length_newest (N := N) (l ++ replicate g 0)
  rw [length_append, length_replicate] at hlen'
  have hne' : newest N (l ++ replicate g 0) ≠ [] := by
    rw [← length_pos_iff]
    omega
  obtain ⟨x, y, hx, hy, hmedian, -⟩ := median_eq hne
  obtain ⟨x', y', hx', hy', hmedian', -⟩ := median_eq hne'
  generalize newest N (l ++ replicate g 0) = l' at *
  -- the middle ranks of the longer list are not above those of the list, moved by the zeros
  have hrank : ∀ {k k' a a'}, rank l k = some a → rank l' k' = some a' →
      k' ≤ k + (l'.length - l.length) → a' ≤ a := by
    intro k k' a a' ha ha' hk
    have hlt : k < l.length := rank_isSome_iff.mp (by rw [ha]; rfl)
    obtain ⟨b, hb⟩ := exists_rank (show k + (l'.length - l.length) < l'.length by omega)
    exact (rank_mono ha' hb hk).trans (rank_le_of_countP_le hcount ha hb)
  rw [hmedian, hmedian']
  exact getMid_mono (hrank hx hx' (by omega)) (hrank hy hy' (by omega))

/-! ### The source function -/

/-- The rows of `block_info`, by height. -/
def Db.infos (db : Db) : List BlockInfo := db.blockInfo.map Prod.snd

/-- The long-term weights of the blocks, by height. -/
def Db.longTermWeights (db : Db) : List UInt64 :=
  db.infos.map fun i => UInt64.ofNat i.longTermBlockWeight

/-- `m_long_term_block_weights_cache_tip_hash` and
`m_long_term_block_weights_cache_rolling_median`. -/
structure LongTermCache where
  tipHash : Hash
  rollingMedian : RollingMedian UInt64

namespace LongTermCache

/-- `get_long_term_block_weight_median`; `none` where it throws. -/
def getLongTermBlockWeightMedian (cache : LongTermCache) (db : Db) (startHeight count : ℕ) :
    Option (UInt64 × LongTermCache) :=
  if count = 0 then none
  else
    let rm := cache.rollingMedian
    let tipHeight := startHeight + count - 1
    let tipHash := (db.infos[tipHeight]?).map BlockInfo.hash
    if tipHeight < db.height ∧ count = rm.sz ∧ tipHash = some cache.tipHash then
      some (rm.median getMid, cache)
    else if 0 < tipHeight ∧ tipHeight < db.height ∧
        (count = rm.sz ∨ count = rm.sz + 1 ∧ rm.sz < cryptonoteLongTermBlockWeightWindowSize) ∧
        (db.infos[tipHeight - 1]?).map BlockInfo.hash = some cache.tipHash then
      (db.infos[tipHeight]?).map fun info =>
        let rm := rm.insert (UInt64.ofNat info.longTermBlockWeight)
        (rm.median getMid, ⟨info.hash, rm⟩)
    else
      let weights := (db.longTermWeights.drop startHeight).take count
      let rm := weights.foldl RollingMedian.insert rm.clear
      -- the tip hash is the null hash if the window ends above the chain
      some (rm.median getMid, ⟨tipHash.getD default, rm⟩)

/-! ### Coherence -/

/-- A block hash stands for the same long-term weights in every database: those of the block and all
blocks below it. -/
def Traces (history : Hash → List UInt64) (db : Db) : Prop :=
  ∀ k info, db.infos[k]? = some info → history info.hash = db.longTermWeights.take (k + 1)

/-- The cache, for a window of the given size, holds the weights of the chain that ends with its
block. -/
structure CoherentAt (window : ℕ) (history : Hash → List UInt64) (cache : LongTermCache) :
    Prop where
  N_eq : cache.rollingMedian.N = window
  holds : cache.rollingMedian.Holds (newest window (history cache.tipHash))

section

variable {history : Hash → List UInt64} {cache : LongTermCache} {db : Db}

theorem longTermBlockWeightMedian_eq (hlen : db.infos.length = db.height) :
    db.longTermBlockWeightMedian =
      median (newest cryptonoteLongTermBlockWeightWindowSize db.longTermWeights) := by
  have hdrop : (db.lastBlockInfos cryptonoteLongTermBlockWeightWindowSize).map
      (fun i => UInt64.ofNat i.longTermBlockWeight) =
        newest cryptonoteLongTermBlockWeightWindowSize db.longTermWeights := by
    have hcount : db.height - min db.height cryptonoteLongTermBlockWeightWindowSize =
        db.height - cryptonoteLongTermBlockWeightWindowSize := by omega
    rw [newest, Db.longTermWeights, length_map, hlen, Db.infos, Db.lastBlockInfos, hcount,
      map_drop, map_drop]
  rw [Db.longTermBlockWeightMedian, hdrop]

/-- **The cached median.** On a chain that is not empty, a coherent cache gives the median of the
last long-term weights, and it holds these afterwards. -/
theorem CoherentAt.median_eq {window : ℕ} (hwindow : 0 < window)
    (hlen : db.infos.length = db.height) (hpos : 0 < db.height) (htraces : Traces history db)
    (h : cache.CoherentAt window history) :
    ∃ cache', cache.getLongTermBlockWeightMedian db
          (db.height - min window db.height)
          (min window db.height) =
        some (median (newest window db.longTermWeights), cache') ∧
      cache'.CoherentAt window history ∧ cache'.rollingMedian.Holds
        (newest window db.longTermWeights) := by
  have hwlen : db.longTermWeights.length = db.height := by
    rw [Db.longTermWeights, length_map, hlen]
  have hne : newest window db.longTermWeights ≠ [] := by
    rw [← length_pos_iff, length_newest, hwlen]
    exact Nat.lt_min.mpr ⟨hwindow, hpos⟩
  obtain ⟨info, hinfo⟩ : ∃ info, db.infos[db.height - 1]? = some info :=
    ⟨_, getElem?_eq_getElem (show db.height - 1 < db.infos.length by omega)⟩
  have hhistory : history info.hash = db.longTermWeights := by
    rw [htraces _ info hinfo, Nat.sub_add_cancel hpos, take_of_length_le hwlen.le]
  -- in each case the new window is that of the chain
  obtain ⟨rm, hN, hholds, heq⟩ : ∃ rm : RollingMedian UInt64,
      rm.N = window ∧
      rm.Holds (newest window db.longTermWeights) ∧
      cache.getLongTermBlockWeightMedian db
          (db.height - min window db.height)
          (min window db.height) =
        some (rm.median getMid, ⟨info.hash, rm⟩) := by
    have htip : db.height - min window db.height +
        min window db.height - 1 = db.height - 1 := by omega
    have hcount : min window db.height ≠ 0 :=
      (Nat.lt_min.mpr ⟨hwindow, hpos⟩).ne'
    rw [getLongTermBlockWeightMedian, if_neg hcount]
    simp only [htip, hinfo, Option.map_some, Option.some_inj, Option.getD_some]
    split_ifs with hcached hnext
    · obtain ⟨-, -, hhash⟩ := hcached
      refine ⟨cache.rollingMedian, h.N_eq, ?_, by rw [hhash]⟩
      rw [← hhistory, hhash]
      exact h.holds
    · obtain ⟨htwo, -, -, hprev⟩ := hnext
      obtain ⟨prev, hprev, hhash⟩ := Option.map_eq_some_iff.mp hprev
      have hweight : db.longTermWeights =
          history cache.tipHash ++ [UInt64.ofNat info.longTermBlockWeight] := by
        have hlast : db.longTermWeights[db.height - 1]? =
            some (UInt64.ofNat info.longTermBlockWeight) := by
          rw [Db.longTermWeights, getElem?_map, hinfo, Option.map_some]
        rw [← hhash, htraces _ prev hprev, Nat.sub_add_cancel (by omega)]
        refine (take_of_length_le hwlen.le).symm.trans ?_
        conv_lhs => rw [← Nat.sub_add_cancel hpos]
        rw [take_add_one, hlast, Option.toList_some]
      obtain ⟨hN, hholds⟩ := h.holds.insert (UInt64.ofNat info.longTermBlockWeight)
      rw [h.N_eq] at hN hholds
      rw [newest_append, ← hweight] at hholds
      exact ⟨_, hN, hholds, rfl⟩
    · have hall : (db.longTermWeights.drop
          (db.height - min window db.height)).take (min window db.height) =
          newest window db.longTermWeights := by
        have hstart : db.height - min window db.height = db.height - window := by omega
        rw [hstart, take_of_length_le, newest, hwlen]
        rw [length_drop, hwlen]
        omega
      have hclear : 0 < cache.rollingMedian.N := by
        rw [h.N_eq]
        exact hwindow
      obtain ⟨hN, hholds⟩ := (RollingMedian.holds_clear hclear).foldl_insert
        (newest window db.longTermWeights)
      have hN' : cache.rollingMedian.clear.N = window := h.N_eq
      have hself : newest window
          (newest window db.longTermWeights) = newest window db.longTermWeights :=
        newest_of_length_le (by rw [length_newest]; exact Nat.min_le_left _ _)
      rw [hN'] at hN hholds
      rw [nil_append, hself] at hholds
      rw [hall]
      exact ⟨_, hN, hholds, rfl⟩
  refine ⟨⟨info.hash, rm⟩, ?_, ⟨hN, by rw [hhistory]; exact hholds⟩, hholds⟩
  rw [heq, holds_median hholds hne]

end

end LongTermCache

/-! ### The median with empty blocks ahead -/

/-- The median that the fee estimate takes from a copy of the rolling median, after as many zeros as
there are blocks to wait for. -/
def graceMedian (rm : RollingMedian UInt64) (graceBlocks : ℕ) : UInt64 :=
  let rm := (replicate graceBlocks 0).foldl RollingMedian.insert rm
  if rm.sz = 0 then 0 else rm.median getMid

/-- The rolling median holds the long-term weights of the chain. -/
structure Db.CachedBy (db : Db) (rm : RollingMedian UInt64) : Prop where
  length : db.infos.length = db.height
  N_eq : rm.N = cryptonoteLongTermBlockWeightWindowSize
  holds : rm.Holds (newest cryptonoteLongTermBlockWeightWindowSize db.longTermWeights)

/-- Every chain has such a rolling median. -/
theorem Db.exists_cachedBy {db : Db} (hlen : db.infos.length = db.height) :
    ∃ rm, db.CachedBy rm := by
  have hclear : (RollingMedian.create cryptonoteLongTermBlockWeightWindowSize
      (fun _ => (0 : UInt64))).Holds [] :=
    RollingMedian.holds_clear (show 0 < cryptonoteLongTermBlockWeightWindowSize by decide)
  obtain ⟨hN, hholds⟩ := hclear.foldl_insert db.longTermWeights
  exact ⟨_, hlen, hN, hholds⟩

/-- The median with zeros is not above that of the chain. -/
theorem Db.CachedBy.graceMedian_le {db : Db} {rm : RollingMedian UInt64} (h : db.CachedBy rm)
    (hpos : 0 < db.height) (graceBlocks : ℕ) :
    graceMedian rm graceBlocks ≤ db.longTermBlockWeightMedian := by
  have hwlen : db.longTermWeights.length = db.height := by
    rw [Db.longTermWeights, length_map, h.length]
  have hne : newest cryptonoteLongTermBlockWeightWindowSize db.longTermWeights ≠ [] := by
    rw [← length_pos_iff, length_newest, hwlen]
    exact Nat.lt_min.mpr ⟨by decide, hpos⟩
  have hlen : (newest cryptonoteLongTermBlockWeightWindowSize db.longTermWeights).length ≤
      cryptonoteLongTermBlockWeightWindowSize := by
    rw [length_newest]
    exact Nat.min_le_left _ _
  obtain ⟨-, hholds⟩ := h.holds.foldl_insert (replicate graceBlocks 0)
  rw [h.N_eq] at hholds
  have hle := median_newest_zeros_le hne hlen graceBlocks
  rw [LongTermCache.longTermBlockWeightMedian_eq h.length]
  rw [graceMedian]
  split_ifs
  · exact UInt64.zero_le
  · rw [holds_median hholds]
    · exact hle
    · rw [← length_pos_iff, length_newest, length_append]
      exact Nat.lt_min.mpr ⟨by decide, Nat.add_pos_left (length_pos_iff.mpr hne) _⟩

end Hidering
