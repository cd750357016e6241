import Hidering.Chain.Linked
import Mathlib.Data.List.GetD

/-!
# The cache of the long-term median over runs

`get_next_long_term_block_weight` and `update_next_cumulative_weight_limit` ask for the long-term
median of the chain, through the cache of `get_long_term_block_weight_median`. The cache is keyed by
the hash of the block that its window ends with, and nothing clears it when blocks are popped.

The hash of a block stands for the block and all blocks below it, hence for their weights, hence for
their long-term weights: the long-term weight that is stored with a block is computed from its
weight and the long-term weights below it. So the cache is coherent in every state of a run.

The size of the window is a member of `Blockchain`, which tests may change; the hard-fork version of
the next block is a function of the height (`forkRun_version`).

## Main definitions

* `Hidering.LongTermCache.getNextLongTermBlockWeight`, `updateNextCumulativeWeightLimit`
* `Hidering.LongTermStep`, `Hidering.LongTermRun`
* `Hidering.chainWeights` — the long-term weights of a chain of blocks

## Main results

* `Hidering.longTermCache_transparent`
-/

namespace Hidering

open Wire Store Median Crypto List
open scoped Machine.WordOrder

/-! ### Medians as numbers -/

/-- The middle element of a list of numbers, or the mean of the two middle elements, rounded
down. -/
def meanMedian (l : List ℕ) : ℕ :=
  let s := l.insertionSort (· ≤ ·)
  if s.length % 2 = 1 then s.getD (s.length / 2) 0
  else (s.getD (s.length / 2 - 1) 0 + s.getD (s.length / 2) 0) / 2

theorem toNat_median (l : List UInt64) : (median l).toNat = meanMedian (l.map UInt64.toNat) := by
  have hsort : (l.map UInt64.toNat).insertionSort (· ≤ ·) =
      (l.insertionSort (· ≤ ·)).map UInt64.toNat :=
    (map_insertionSort (· ≤ ·) (· ≤ ·) UInt64.toNat l fun _ _ _ _ => UInt64.le_iff_toNat_le).symm
  have hget : ∀ k, ((l.insertionSort (· ≤ ·)).map UInt64.toNat).getD k 0 =
      ((l.insertionSort (· ≤ ·)).getD k 0).toNat := fun k => by
    rw [getD_eq_getElem?_getD, getD_eq_getElem?_getD, getElem?_map]
    cases (l.insertionSort (· ≤ ·))[k]? <;> rfl
  rw [meanMedian, hsort, median]
  simp only [length_map, hget]
  split
  · rfl
  · rw [toNat_getMid]

/-! ### The functions that ask for the median -/

/-- The long-term weight of a block for which a median was found. -/
def longTermWeight (version : UInt8) (longTermMedian blockWeight : UInt64) : UInt64 :=
  let longTerm := max fullRewardZoneV5 longTermMedian
  if hfVersion2021Scaling ≤ version then
    min (max blockWeight (longTerm * 10 / 17)) (longTerm + longTerm * 7 / 10)
  else min blockWeight (longTerm + longTerm * 2 / 5)

namespace LongTermCache

/-- The call of `get_long_term_block_weight_median` that both functions make. -/
def longTermMedian (window : ℕ) (cache : LongTermCache) (db : Db) :
    Option (UInt64 × LongTermCache) :=
  cache.getLongTermBlockWeightMedian db (db.height - min window db.height) (min window db.height)

/-- `get_next_long_term_block_weight`, with the cache. -/
def getNextLongTermBlockWeight (window : ℕ) (version : UInt8) (cache : LongTermCache) (db : Db)
    (blockWeight : UInt64) : Option (UInt64 × LongTermCache) :=
  if version < hfVersionLongTermBlockWeight then some (blockWeight, cache)
  else (cache.longTermMedian window db).map fun r => (longTermWeight version r.1 blockWeight, r.2)

/-- `update_next_cumulative_weight_limit`, as far as the cache goes. -/
def updateNextCumulativeWeightLimit (window : ℕ) (version : UInt8) (cache : LongTermCache)
    (db : Db) : Option LongTermCache :=
  if version < hfVersionLongTermBlockWeight then some cache
  else (cache.longTermMedian window db).map Prod.snd

/-- A new cache; the items of a new rolling median are not set. -/
def create (window : ℕ) (data : ℕ → UInt64) : LongTermCache :=
  ⟨default, RollingMedian.create window data⟩

end LongTermCache

/-! ### Runs -/

/-- What the node does to the main chain and to the cache. The blocks that occur are those of `B`,
each with its weight; `version` gives the hard-fork version of the next block by the height of the
chain. -/
inductive LongTermStep (c : Crypto) (window : ℕ) (version : ℕ → UInt8) (B : Set (Block × ℕ)) :
    Db × LongTermCache → Db × LongTermCache → Prop
  /-- `handle_block_to_main_chain`, which stores the long-term weight of the block -/
  | add {db db' : Db} {cache cache' : LongTermCache} {w : UInt64} {n : ℕ} {blk : Block}
      {info : BlockMeta} {txs : List (Transaction × Bytes)} (hblk : (blk, info.weight) ∈ B)
      (hprev : blk.prevId = db.topBlockHash)
      (hlong : cache.getNextLongTermBlockWeight window (version db.height) db
        (UInt64.ofNat info.weight) = some (w, cache'))
      (hw : info.longTermBlockWeight = w.toNat) (hc : CanonicalBlock c blk txs)
      (h : addBlock c blk info txs db = .ok n db') :
      LongTermStep c window version B (db, cache) (db', cache')
  /-- `pop_block_from_blockchain` -/
  | pop {db db' : Db} {cache : LongTermCache} {r : Block × List Transaction}
      (h : popBlock c db = .ok r db') : LongTermStep c window version B (db, cache) (db', cache)
  /-- a call of `update_next_cumulative_weight_limit` -/
  | update {db : Db} {cache cache' : LongTermCache}
      (h : cache.updateNextCumulativeWeightLimit window (version db.height) db = some cache') :
      LongTermStep c window version B (db, cache) (db, cache')
  /-- a call of `get_next_long_term_block_weight` -/
  | next {db : Db} {cache cache' : LongTermCache} {blockWeight w : UInt64}
      (h : cache.getNextLongTermBlockWeight window (version db.height) db blockWeight =
        some (w, cache')) : LongTermStep c window version B (db, cache) (db, cache')
  /-- a new process over the same database -/
  | restart {db : Db} {cache : LongTermCache} {data : ℕ → UInt64} :
      LongTermStep c window version B (db, cache) (db, .create window data)

/-- What such steps lead to from an empty database. -/
def LongTermRun (c : Crypto) (seed : UInt32) (window : ℕ) (version : ℕ → UInt8)
    (B : Set (Block × ℕ)) (s : Db × LongTermCache) : Prop :=
  ∃ data, Relation.ReflTransGen (LongTermStep c window version B)
    (Db.empty seed, .create window data) s

/-! ### The long-term weights of a chain -/

/-- The long-term weights that are stored for a chain of blocks with their weights, from the first
block on; the first element of the chain is the top block. -/
def chainWeights (window : ℕ) (version : ℕ → UInt8) : List (Block × ℕ) → List UInt64
  | [] => []
  | b :: l =>
    let weights := chainWeights window version l
    weights ++ [if version l.length < hfVersionLongTermBlockWeight then UInt64.ofNat b.2
      else longTermWeight (version l.length) (median (newest window weights)) (UInt64.ofNat b.2)]

section Weights

variable {window : ℕ} {version : ℕ → UInt8} {l : List (Block × ℕ)}

theorem length_chainWeights : (chainWeights window version l).length = l.length := by
  induction l with
  | nil => rfl
  | cons b l ih => rw [chainWeights, length_append, ih]; rfl

/-- The weights of the lower part of a chain. -/
theorem chainWeights_drop (j : ℕ) : chainWeights window version (l.drop j) =
    (chainWeights window version l).take (l.length - j) := by
  induction j generalizing l with
  | zero =>
    rw [drop_zero, Nat.sub_zero, ← @length_chainWeights window version l, take_length]
  | succ j ih =>
    cases l with
    | nil => rw [drop_nil, chainWeights, take_nil]
    | cons b l =>
      have hlen : l.length - j ≤ (chainWeights window version l).length := by
        rw [length_chainWeights]
        exact Nat.sub_le _ _
      rw [drop_succ_cons, ih, length_cons, Nat.add_sub_add_right, chainWeights,
        take_append_of_le_length hlen]

end Weights

/-! ### What every state keeps -/

section Run

variable {c : Crypto} {seed : UInt32} {window : ℕ} {version : ℕ → UInt8} {B : Set (Block × ℕ)}
  {s s' : Db × LongTermCache} {db db' : Db} {cache cache' : LongTermCache} {l : List (Block × ℕ)}

variable (c window version B) in
/-- The long-term weights of the chain with a given hash. -/
noncomputable def historyOf (h : Hash) : List UInt64 :=
  chainWeights window version (chainOf (hashOf c Prod.fst) (prevOf Prod.fst) default B h)

/-- What holds in every state of a run: the chain has the long-term weights that its blocks
determine, and the cache holds those of the chain of its hash. -/
structure LongTermOk (c : Crypto) (seed : UInt32) (window : ℕ) (version : ℕ → UInt8)
    (B : Set (Block × ℕ)) (s : Db × LongTermCache) (l : List (Block × ℕ)) : Prop where
  chained : s.1.Chained c seed Prod.fst B l
  stored : s.1.infos.map BlockInfo.longTermBlockWeight =
    (chainWeights window version l).map UInt64.toNat
  coherent : s.2.CoherentAt window (historyOf c window version B)

namespace LongTermOk

theorem weights (h : LongTermOk c seed window version B (db, cache) l) :
    db.longTermWeights = chainWeights window version l := by
  have hstored := congrArg (List.map UInt64.ofNat) h.stored
  rw [map_map, map_map] at hstored
  have hid : UInt64.ofNat ∘ UInt64.toNat = id := funext fun w => UInt64.ofNat_toNat
  rwa [hid, map_id] at hstored

theorem traces (hB : ToldApart (hashOf c Prod.fst) default B)
    (h : LongTermOk c seed window version B (db, cache) l) :
    LongTermCache.Traces (historyOf c window version B) db := by
  intro k info hinfo
  have hk : k < l.length := by
    rw [h.chained.height, ← h.chained.built.infos_length]
    exact (List.getElem?_eq_some_iff.mp hinfo).1
  -- the block at height `k` is the newest one of the lower part of the chain
  have hhash : info.hash = tipHash (hashOf c Prod.fst) default (l.drop (l.length - 1 - k)) := by
    have hget := h.chained.hash_getElem? k
    rw [hinfo, Option.map_some, getElem?_reverse (by rw [length_map]; exact hk),
      length_map, getElem?_map,
      getElem?_eq_getElem (show l.length - 1 - k < l.length by omega)] at hget
    rw [drop_eq_getElem_cons (show l.length - 1 - k < l.length by omega)]
    exact Option.some.inj hget
  rw [historyOf, hhash, hB.chainOf_tipHash (fun b hb => h.chained.mem b (mem_of_mem_drop hb))
    (h.chained.linked.drop _), chainWeights_drop, h.weights]
  congr 1
  omega

/-- Without blocks there is no median. -/
theorem height_pos {r : UInt64 × LongTermCache} (h : cache.longTermMedian window db = some r) :
    0 < db.height := by
  by_contra hzero
  rw [LongTermCache.longTermMedian, LongTermCache.getLongTermBlockWeightMedian,
    if_pos (by omega)] at h
  cases h

end LongTermOk

/-- A run goes on. -/
theorem LongTermRun.tail (h : LongTermRun c seed window version B s)
    (hstep : LongTermStep c window version B s s') : LongTermRun c seed window version B s' :=
  ⟨h.choose, h.choose_spec.tail hstep⟩

variable (hwindow : 0 < window) (hB : ToldApart (hashOf c Prod.fst) default B)

include hwindow hB

theorem coherentAt_create (data : ℕ → UInt64) :
    (LongTermCache.create window data).CoherentAt window (historyOf c window version B) where
  N_eq := rfl
  holds := by
    have hnil : chainOf (hashOf c Prod.fst) (prevOf Prod.fst) default B default = [] :=
      hB.chainOf_tipHash (l := []) (by simp) trivial
    have hclear : (RollingMedian.create window data).Holds [] :=
      RollingMedian.holds_clear (by exact hwindow)
    rw [historyOf, LongTermCache.create, hnil, chainWeights, newest, drop_nil]
    exact hclear

namespace LongTermOk

/-- A call for the median of the chain returns it. -/
theorem median_eq (h : LongTermOk c seed window version B (db, cache) l) (hpos : 0 < db.height) :
    ∃ cache', cache.longTermMedian window db =
        some (median (newest window db.longTermWeights), cache') ∧
      LongTermOk c seed window version B (db, cache') l := by
  obtain ⟨cache', heq, hcoherent, -⟩ := LongTermCache.CoherentAt.median_eq hwindow
    h.chained.built.infos_length hpos (h.traces hB) h.coherent
  exact ⟨cache', heq, h.chained, h.stored, hcoherent⟩

/-- What a call for the median leaves behind. -/
theorem after {r : UInt64 × LongTermCache}
    (h : LongTermOk c seed window version B (db, cache) l)
    (hcall : cache.longTermMedian window db = some r) :
    r.1 = median (newest window db.longTermWeights) ∧
      LongTermOk c seed window version B (db, r.2) l := by
  obtain ⟨cache', heq, hok⟩ := h.median_eq hwindow hB (height_pos hcall)
  obtain rfl := Option.some.inj (hcall.symm.trans heq)
  exact ⟨rfl, hok⟩

/-- What a call of `get_next_long_term_block_weight` returns and leaves behind. -/
theorem next {blockWeight : ℕ} {w : UInt64} (blk : Block)
    (h : LongTermOk c seed window version B (db, cache) l)
    (hcall : cache.getNextLongTermBlockWeight window (version db.height) db
      (UInt64.ofNat blockWeight) = some (w, cache')) :
    chainWeights window version ((blk, blockWeight) :: l) = db.longTermWeights ++ [w] ∧
      LongTermOk c seed window version B (db, cache') l := by
  rw [chainWeights, h.chained.height, ← h.weights]
  rw [LongTermCache.getNextLongTermBlockWeight] at hcall
  split at hcall
  · next hversion =>
    obtain ⟨rfl, rfl⟩ := Prod.mk.inj (Option.some.inj hcall)
    exact ⟨by rw [if_pos hversion], h⟩
  · next hversion =>
    obtain ⟨r, hr, heq⟩ := Option.map_eq_some_iff.mp hcall
    obtain ⟨rfl, rfl⟩ := Prod.mk.inj heq
    obtain ⟨hmedian, hok⟩ := h.after hwindow hB hr
    exact ⟨by rw [if_neg hversion, hmedian], hok⟩

/-- **One step.** -/
theorem step (h : LongTermOk c seed window version B s l)
    (hstep : LongTermStep c window version B s s') :
    ∃ l', LongTermOk c seed window version B s' l' := by
  cases hstep with
  | @add db db' cache cache' w n blk info txs hblk hprev hlong hw hc hadd =>
    obtain ⟨hweights, hok⟩ := h.next hwindow hB blk hlong
    obtain ⟨cumRct, hinfos⟩ := addBlock_infos hadd
    refine ⟨(blk, info.weight) :: l, h.chained.add (b := (blk, info.weight)) hblk hprev hc hadd, ?_,
      hok.coherent⟩
    rw [hweights, h.weights, hinfos, map_append, map_append, h.stored, map_singleton,
      map_singleton, hw]
  | @pop db db' cache r hpop =>
    obtain ⟨b, l', rfl, hchained, i, hinfos⟩ := h.chained.pop hpop
    have hstored := h.stored
    rw [hinfos, map_append, chainWeights, map_append] at hstored
    exact ⟨l', hchained, (append_inj' hstored rfl).1, h.coherent⟩
  | @update db cache cache' hcall =>
    rw [LongTermCache.updateNextCumulativeWeightLimit] at hcall
    split at hcall
    · obtain rfl := Option.some.inj hcall
      exact ⟨l, h⟩
    · obtain ⟨r, hr, rfl⟩ := Option.map_eq_some_iff.mp hcall
      exact ⟨l, (h.after hwindow hB hr).2⟩
  | @next db cache cache' blockWeight w hcall =>
    rw [← UInt64.ofNat_toNat (x := blockWeight)] at hcall
    exact ⟨l, (h.next hwindow hB default hcall).2⟩
  | restart => exact ⟨l, h.chained, h.stored, coherentAt_create hwindow hB _⟩

end LongTermOk

/-- **Runs.** -/
theorem LongTermRun.ok (h : LongTermRun c seed window version B s) :
    ∃ l, LongTermOk c seed window version B s l := by
  obtain ⟨data, h⟩ := h
  induction h with
  | refl => exact ⟨[], .empty, rfl, coherentAt_create hwindow hB data⟩
  | tail _ hstep ih =>
    obtain ⟨l, hl⟩ := ih
    exact hl.step hwindow hB hstep

omit hwindow hB

/-- The long-term weights that are stored with the blocks from a height on. -/
def Db.longTermWeightsFrom (db : Db) (startHeight count : ℕ) : List ℕ :=
  ((db.infos.map BlockInfo.longTermBlockWeight).drop startHeight).take count

/-- **The cache of the long-term median is transparent.** Whatever blocks are added and popped
between the calls of `update_next_cumulative_weight_limit` and `get_next_long_term_block_weight`,
every call of `get_long_term_block_weight_median` for the last blocks of the chain, as many as the
window holds, returns the median of the long-term weights that are stored with these blocks. -/
theorem longTermCache_transparent (hwindow : 0 < window)
    (hB : ToldApart (hashOf c Prod.fst) default B)
    (h : LongTermRun c seed window version B (db, cache)) {startHeight count : ℕ}
    (hcount : count = min window db.height) (hstart : startHeight = db.height - count)
    (hpos : 0 < db.height) :
    ∃ median cache', cache.getLongTermBlockWeightMedian db startHeight count =
        some (median, cache') ∧
      median.toNat = meanMedian (db.longTermWeightsFrom startHeight count) := by
  obtain ⟨l, hok⟩ := LongTermRun.ok hwindow hB h
  obtain ⟨cache', heq, -⟩ := hok.median_eq hwindow hB hpos
  subst hcount hstart
  refine ⟨_, cache', heq, ?_⟩
  have hlen : (chainWeights window version l).length = db.height := by
    rw [length_chainWeights, hok.chained.height]
  rw [toNat_median, Db.longTermWeightsFrom, hok.weights, hok.stored, newest, hlen,
    ← map_drop, ← map_take, take_of_length_le]
  · congr 3
    omega
  · rw [length_drop, hlen]
    omega

end Run

/-- Two blocks of a private chain; the second one is popped, and the median is asked for once
before and once after that. -/
theorem longTermCache_transparent_popped :
    ∃ db cache median cache', LongTermRun transparent 0 100000 privateHardForks.versionAt
        {b | b ∈ [(soloBlock 1 0, 500), (soloBlock 16 1, 400000)]} (db, cache) ∧ db.height = 1 ∧
      cache.getLongTermBlockWeightMedian db 0 1 = some (median, cache') ∧
      median.toNat = 500 := by
  have hB : ToldApart (hashOf transparent Prod.fst) default
      {b | b ∈ [(soloBlock 1 0, 500), (soloBlock 16 1, 400000)]} :=
    toldApart_list (by decide +kernel) (by decide +kernel)
  obtain ⟨n₁, db₁, h₁, hdb₁⟩ := exists_of_okAnd
    (r := addBlock transparent (soloBlock 1 0) ⟨500, 500, 1, 0⟩ [] (Db.empty 0))
    (p := fun _ db => decide ((soloBlock 16 1).prevId = db.topBlockHash) &&
      decide (db.longTermWeights = [500]) &&
      okAnd (addBlock transparent (soloBlock 16 1) ⟨400000, 400000, 2, 0⟩ [] db)
        (fun _ db' => okAnd (popBlock transparent db') fun _ db'' =>
          decide (db''.height = 1) &&
          decide (db''.infos.map BlockInfo.longTermBlockWeight = [500])))
    (by decide +kernel)
  simp only [Bool.and_eq_true, decide_eq_true_eq] at hdb₁
  obtain ⟨⟨hprev, hweights⟩, hrest⟩ := hdb₁
  obtain ⟨n₂, db₂, h₂, hrest⟩ := exists_of_okAnd hrest
  obtain ⟨r, db₃, h₃, hrest⟩ := exists_of_okAnd hrest
  simp only [Bool.and_eq_true, decide_eq_true_eq] at hrest
  obtain ⟨hheight, hlast⟩ := hrest
  have hone : db₁.height = 1 := addBlock_height h₁
  have hversion : privateHardForks.versionAt 1 = 16 := rfl
  have hfirst : LongTermRun transparent 0 100000 privateHardForks.versionAt
      {b | b ∈ [(soloBlock 1 0, 500), (soloBlock 16 1, 400000)]} (db₁, .create 100000 fun _ => 0) :=
    ⟨fun _ => 0, .single (.add (by simp) rfl rfl rfl (.of_parse (by decide +kernel)) h₁)⟩
  obtain ⟨l, hok⟩ := LongTermRun.ok (by decide) hB hfirst
  obtain ⟨cache₁, hcall, -⟩ := hok.median_eq (by decide) hB (by rw [hone]; decide)
  have hnext : (LongTermCache.create 100000 fun _ => 0).getNextLongTermBlockWeight 100000
      (privateHardForks.versionAt db₁.height) db₁ 400000 = some (400000, cache₁) := by
    have hclamped : longTermWeight 16 (median (newest 100000 [500])) 400000 = 400000 := by
      decide +kernel
    rw [LongTermCache.getNextLongTermBlockWeight, hone, hversion, if_neg (by decide), hcall,
      hweights, Option.map_some]
    exact congrArg (fun w => some (w, cache₁)) hclamped
  have hthird := (hfirst.tail (.add (w := 400000) (by simp) hprev hnext rfl
    (.of_parse (by decide +kernel)) h₂)).tail (.pop h₃)
  obtain ⟨median, cache', heq, hmedian⟩ := longTermCache_transparent (by decide) hB hthird
    (show 1 = min 100000 db₃.height by rw [hheight]; rfl) (show 0 = db₃.height - 1 by rw [hheight])
    (by rw [hheight]; decide)
  rw [Db.longTermWeightsFrom, hlast] at hmedian
  exact ⟨db₃, cache₁, median, cache', hthird, hheight, heq, hmedian⟩

end Hidering
