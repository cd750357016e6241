import Hidering.Chain.Checkpoints
import Hidering.Chain.Difficulty
import Hidering.Chain.LongTerm

/-!
# Alternative blocks

`handle_alternative_block` records a block that does not stand on the top block. It collects the
branch below the block from the table of alternative blocks (`build_alt_chain`), completes the
timestamps of the branch from the main chain, checks the block as far as that is possible without
the state of its own chain, and decides whether the branch is to become the main chain. What
follows such a decision is not part of this module.

The timestamps are completed only if there are fewer than `BLOCKCHAIN_TIMESTAMP_CHECK_WINDOW` of
them, but they are never cut: a longer branch is compared with the median of all its blocks, not
with that of the last ones.

The weight that is recorded with an alternative block is left out: it is read only where
`create_block_template` builds on such a block. The table holds the block itself in place of its
blob.

## Main definitions

* `Hidering.AltBlock`, `Hidering.AltNode`
* `Hidering.buildAltChain`, `completeTimestampsVector`
* `Hidering.AltNode.recordAlternativeBlock` — `handle_alternative_block` up to the decision
* `Hidering.Branch` — a branch in the table of alternative blocks

## Main results

* `Hidering.Branch.buildAltChain_eq` — the branch is found, with its timestamps
* `Hidering.altMedian_eq_iff`
-/

namespace Hidering

open Wire Machine Store Median Crypto List
open scoped Machine.WordOrder

/-! ### The table of alternative blocks -/

/-- `block_extended_info`, as it is stored under the hash of the block. -/
structure AltBlock extends BlockExtendedInfo where
  id : Hash
  alreadyGeneratedCoins : UInt64

/-- The order of the table. -/
def altBefore (a b : AltBlock) : Bool := hashLt a.id b.id

/-- A node with its alternative blocks. -/
structure AltNode extends Node where
  alts : Keyed AltBlock.id

/-- What is fixed for a node, with what is needed for alternative blocks. -/
structure AltParams extends NodeParams where
  /-- `m_fixed_difficulty` -/
  fixedDifficulty : ℕ
  /-- `m_checkpoints` -/
  checkpoints : Checkpoints
  checkCheckpoint_eq : ∀ height id,
    checkCheckpoint height id = (checkpoints.checkBlock height id).1
  /-- `check_hash` of `get_altblock_longhash` with a seed hash, against a difficulty -/
  checkAltLonghash : Block → Hash → ℕ → Bool

/-- `get_block_height` of a block: the height that its miner transaction gives, or 0. -/
def getBlockHeight (b : Block) : ℕ :=
  match b.minerTx.vin with
  | [.gen h] => h.toNat
  | _ => 0

/-! ### Collecting a branch -/

/-- The loop of `build_alt_chain`: the alternative blocks from the given one down, as many as there
are at most. -/
def altChainFrom (alts : Keyed AltBlock.id) : ℕ → Hash → List AltBlock
  | 0, _ => []
  | fuel + 1, id =>
    match alts.find? id with
    | none => []
    | some a => a :: altChainFrom alts fuel a.bl.prevId

/-- The timestamps of the main chain at `n` heights, from the given one down; `none` where the
database throws. -/
def timestampsDown (db : Db) : ℕ → ℕ → Option (List UInt64)
  | _, 0 => some []
  | height, n + 1 =>
    (db.blockInfo.get? height).bind fun i =>
      (timestampsDown db (height - 1) n).map fun rest => i.timestamp :: rest

/-- `complete_timestamps_vector`; its result is not looked at by its callers. -/
def completeTimestampsVector (db : Db) (startTopHeight : ℕ) (timestamps : List UInt64) :
    Option (List UInt64) :=
  if blockchainTimestampCheckWindow ≤ timestamps.length then some timestamps
  else if db.height ≤ startTopHeight then some timestamps
  else
    let needElements := blockchainTimestampCheckWindow - timestamps.length
    let stopOffset := if needElements < startTopHeight then startTopHeight - needElements else 0
    (timestampsDown db startTopHeight (startTopHeight - stopOffset)).map (timestamps ++ ·)

/-- `build_alt_chain`: the branch that ends with the given block, from the main chain up, and the
timestamps that the next block is compared with. -/
def buildAltChain (db : Db) (alts : Keyed AltBlock.id) (prevId : Hash) :
    Option (List AltBlock × List UInt64) :=
  let blocks := altChainFrom alts alts.entries.length prevId
  let timestamps := blocks.map fun a => a.bl.timestamp
  match blocks.getLast? with
  | some front =>
    if db.height ≤ front.height then none
    else
      (db.blockHeights front.bl.prevId).bind fun height =>
        if db.getBlockHashFromHeight (front.height - 1) = some front.bl.prevId then
          (completeTimestampsVector db height timestamps).map fun timestamps =>
            (blocks.reverse, timestamps)
        else none
  | none =>
    (db.blockHeights prevId).bind fun height =>
      (completeTimestampsVector db height timestamps).map fun timestamps => ([], timestamps)

/-! ### Checking an alternative block -/

/-- `RX_BLOCK_VERSION`. -/
abbrev rxBlockVersion : UInt8 := 12

/-- `SEEDHASH_EPOCH_BLOCKS`. -/
abbrev seedhashEpochBlocks : ℕ := 2048

/-- `SEEDHASH_EPOCH_LAG`. -/
abbrev seedhashEpochLag : ℕ := 64

/-- `rx_seedheight`. -/
def rxSeedheight (height : ℕ) : ℕ :=
  if height ≤ seedhashEpochBlocks + seedhashEpochLag then 0
  else (height - seedhashEpochLag - 1) / seedhashEpochBlocks * seedhashEpochBlocks

/-- The seed hash for a block at the given height, from the branch or from the main chain. -/
def altSeedHash (db : Db) (altChain : List AltBlock) (height : ℕ) : Hash :=
  let seedheight := rxSeedheight height
  let onMain := (db.getBlockHashFromHeight seedheight).getD default
  match altChain.head? with
  | none => onMain
  | some front =>
    if front.height ≤ seedheight then
      ((altChain.find? fun a => a.height = seedheight + 1).map fun a => a.bl.prevId).getD default
    else onMain

/-- What is known of the parent of a block, from the last block of the branch or, if there is none,
from the main chain. -/
def fromParent {α : Type} (altChain : List AltBlock) (ofAlt : AltBlock → α) (ofMain : Option α) :
    Option α :=
  match altChain.getLast? with
  | some prev => some (ofAlt prev)
  | none => ofMain

/-- How a block fares as an alternative one. A recorded block comes with the branch that it ends,
and with `discard_disconnected_chain` if the branch is to become the main chain. -/
inductive AltOutcome where
  | refused
  | orphaned
  | recorded (altChain : List AltBlock) (reorganize : Option Bool)

namespace AltNode

variable (p : AltParams) (c : Crypto) (now : UInt64) (node : AltNode)

/-- The checks of a block whose parent is known, and what is recorded for it: the branch below it,
the block, and whether there is a checkpoint at its height. -/
def checkAlternativeBlock (b : Block) (hfVersion : UInt8) :
    Option (List AltBlock × AltBlock × Bool) := do
  let db := node.chain.db
  let id := c.getBlockHash b
  let (altChain, timestamps) ← buildAltChain db node.alts b.prevId
  let prevHeight ← fromParent altChain (fun prev => prev.height) (db.blockHeights b.prevId)
  let height := prevHeight + 1
  let prevCoins ← fromParent altChain AltBlock.alreadyGeneratedCoins
    ((db.blockInfo.get? prevHeight).map BlockInfo.coins)
  let coins : UInt64 :=
    nextGeneratedCoins wrapping (getOutsMoneyAmount b.minerTx) prevCoins
  guard (median timestamps ≤ b.timestamp)
  let checkpoint := p.checkpoints.checkBlock height id
  guard checkpoint.1
  let currentDiff ← getNextDifficultyForAlternativeChain p.fixedDifficulty
    (node.chain.hardfork.getIdealVersion height) db.rows
    (altChain.map AltBlock.toBlockExtendedInfo) height
  guard (currentDiff ≠ 0)
  guard (if rxBlockVersion ≤ b.majorVersion then
      p.checkAltLonghash b (altSeedHash db altChain height) currentDiff
    else p.checkProofOfWork db b height currentDiff)
  guard (prevalidateMinerTransaction b.minerTx height hfVersion)
  let prevDifficulty ← fromParent altChain (fun prev => prev.cumulativeDifficulty)
    ((db.blockInfo.get? prevHeight).map BlockInfo.diff)
  some (altChain, ⟨⟨b, height, (prevDifficulty + currentDiff) % 2 ^ 128⟩, id, coins⟩, checkpoint.2)

/-- The loop that adds the transactions that came with an alternative block to the pool. -/
def addSupplement (hfVersion : UInt8) : List (Hash × Transaction × Bytes) → TxPool → Bool × TxPool
  | [], pool => (true, pool)
  | (txid, tx, _) :: rest, pool =>
    if pool.txpoolTxMatchesCategory txid .legacy || node.chain.db.txExists txid then
      addSupplement hfVersion rest pool
    else
      match TxPool.NewTx.ofTransaction c tx with
      | none => (false, pool)
      | some t =>
        match pool.addTx c p.toNodeParams node.chain now t .block hfVersion hfVersion with
        | (.error _, pool) => (false, pool)
        | (.ok (), pool) => addSupplement hfVersion rest pool

/-- `handle_alternative_block`, up to the decision to reorganize. -/
def recordAlternativeBlock (b : Block) (extra : PoolSupplement) : AltOutcome × AltNode :=
  let blockHeight := getBlockHeight b
  let hfVersion := node.chain.hardfork.getIdealVersion blockHeight
  if blockHeight = 0 then (.refused, node)
  else if !p.checkpoints.isAlternativeBlockAllowed node.chain.db.height blockHeight then
    (.refused, node)
  else if !node.chain.hardfork.checkForHeight b blockHeight then (.refused, node)
  else if (node.alts.find? b.prevId).isNone && !node.chain.db.blockExists b.prevId then
    (.orphaned, node)
  else
    match node.checkAlternativeBlock p c b hfVersion with
    | none => (.refused, node)
    | some (altChain, bei, isACheckpoint) =>
      if !extra.verNonInputConsensus c hfVersion then (.refused, node)
      else
        let r := node.addSupplement p c now hfVersion extra.txsByTxid.entries node.pool
        let node := { node with pool := r.2 }
        if !r.1 || (node.alts.find? bei.id).isSome then (.refused, node)
        else
          (.recorded (altChain ++ [bei])
            (if isACheckpoint then some true
              else if node.chain.db.cumulativeDifficulty < bei.cumulativeDifficulty then some false
              else none),
            { node with alts := node.alts.put altBefore bei })

end AltNode

/-! ### Branches -/

/-- There is one row for each block. -/
structure Db.Indexed (db : Db) : Prop where
  dense : db.blockInfo.Dense
  length : db.blockInfo.length = db.height

theorem Built.indexed {c : Crypto} {seed : UInt32} {db : Db} (h : Built c seed db) : db.Indexed :=
  ⟨h.countWf.blockInfo, h.countWf.length⟩

/-- The timestamps of the blocks of the main chain. -/
def Db.timestamps (db : Db) : List UInt64 := db.infos.map BlockInfo.timestamp

/-- A branch of the table that ends with the given block; its first block has the height `split`
and stands on a block of the main chain. -/
inductive Branch (db : Db) (alts : Keyed AltBlock.id) (split : ℕ) : List AltBlock → Hash → Prop
  | root {id : Hash} (hheight : db.blockHeights id = some (split - 1))
      (hid : db.getBlockHashFromHeight (split - 1) = some id) (hmain : alts.find? id = none) :
      Branch db alts split [] id
  | block {l : List AltBlock} {a : AltBlock} (hl : Branch db alts split l a.bl.prevId)
      (ha : alts.find? a.id = some a) (hheight : a.height = split + l.length) :
      Branch db alts split (l ++ [a]) a.id

/-- The timestamps of the chain that a branch belongs to. -/
def branchTimestamps (db : Db) (split : ℕ) (l : List AltBlock) : List UInt64 :=
  db.timestamps.take split ++ l.map fun a => a.bl.timestamp

variable {a : AltBlock}

section Branches

variable {db db' : Db} {alts : Keyed AltBlock.id} {split : ℕ} {l : List AltBlock} {id : Hash}

namespace Db.Indexed

theorem length_timestamps (h : db.Indexed) : db.timestamps.length = db.height := by
  rw [Db.timestamps, Db.infos, length_map, length_map, h.length]

theorem get?_timestamp (h : db.Indexed) (k : ℕ) :
    (db.blockInfo.get? k).map BlockInfo.timestamp = db.timestamps[k]? := by
  rw [h.dense.get?_eq, Db.timestamps, Db.infos, getElem?_map, getElem?_map]

/-- The check of timestamps on the main chain looks at the newest ones. -/
theorem lastTimestamps_eq (h : db.Indexed) (hwindow : blockchainTimestampCheckWindow ≤ db.height) :
    lastTimestamps db db.height = newest blockchainTimestampCheckWindow db.timestamps := by
  have hrange : ∀ n, db.height - blockchainTimestampCheckWindow + n ≤ db.height →
      (List.range n).filterMap (fun k =>
        (db.blockInfo.get? (db.height - blockchainTimestampCheckWindow + k)).map
          BlockInfo.timestamp) =
        (db.timestamps.drop (db.height - blockchainTimestampCheckWindow)).take n := by
    intro n hn
    induction n with
    | zero => rfl
    | succ n ih =>
      rw [List.range_succ, filterMap_append, ih (by omega), take_add_one,
        getElem?_drop, filterMap_cons, h.get?_timestamp]
      cases db.timestamps[db.height - blockchainTimestampCheckWindow + n]? <;> rfl
  rw [lastTimestamps, hrange _ (by omega), newest, h.length_timestamps]
  exact take_of_length_le (by rw [length_drop, h.length_timestamps]; omega)

theorem timestampsDown_eq (h : db.Indexed) {height n : ℕ} (hn : n ≤ height)
    (hlt : height < db.height) :
    timestampsDown db height n =
      some ((db.timestamps.take (height + 1)).drop (height + 1 - n)).reverse := by
  have hlen := h.length_timestamps
  induction n generalizing height with
  | zero =>
    rw [timestampsDown, drop_eq_nil_of_le (by rw [length_take]; omega)]
    rfl
  | succ n ih =>
    obtain ⟨height, rfl⟩ : ∃ k, height = k + 1 := ⟨height - 1, by omega⟩
    obtain ⟨i, hi, hstamp⟩ := Option.map_eq_some_iff.mp
      ((h.get?_timestamp (height + 1)).trans (getElem?_eq_getElem (by omega)))
    rw [timestampsDown, hi, Option.bind_some, hstamp, Nat.add_sub_cancel, ih (by omega) (by omega),
      Option.map_some, ← reverse_concat]
    congr 2
    rw [take_succ_eq_append_getElem (by omega : height + 1 < db.timestamps.length),
      drop_append_of_le_length (by rw [length_take]; omega)]
    congr 2
    omega

end Db.Indexed

namespace Branch

theorem height_eq (h : Branch db alts split l id) {k : ℕ} (hk : k < l.length) :
    l[k].height = split + k := by
  induction h with
  | root => exact absurd hk (Nat.not_lt_zero _)
  | @block l a hl ha hheight ih =>
    rw [length_append, length_singleton] at hk
    rcases Nat.lt_succ_iff_lt_or_eq.mp hk with hlt | rfl
    · rw [getElem_append_left hlt]
      exact ih hlt
    · rw [getElem_append_right (Nat.le_refl _)]
      simpa using hheight

theorem mem_entries (h : Branch db alts split l id) (ha : a ∈ l) : a ∈ alts.entries := by
  induction h with
  | root => cases ha
  | block hl hfind hheight ih =>
    rcases mem_append.mp ha with ha | ha
    · exact ih ha
    · rw [mem_singleton.mp ha]
      exact (Keyed.find?_eq_some.mp hfind).1

/-- The blocks of a branch are different entries of the table. -/
theorem length_le (h : Branch db alts split l id) : l.length ≤ alts.entries.length := by
  have hnodup : l.Nodup := by
    rw [nodup_iff_injective_getElem]
    intro i j hij
    have hi := h.height_eq i.isLt
    have hj := h.height_eq j.isLt
    simp only at hij
    rw [hij, hj] at hi
    exact Fin.ext (by omega)
  exact (hnodup.subperm fun a ha => h.mem_entries ha).length_le

/-- The loop of `build_alt_chain` goes down the branch and stops at the main chain. -/
theorem altChainFrom_eq (h : Branch db alts split l id) {fuel : ℕ} (hfuel : l.length ≤ fuel) :
    altChainFrom alts fuel id = l.reverse := by
  induction h generalizing fuel with
  | root _ _ hmain =>
    cases fuel with
    | zero => rfl
    | succ fuel => rw [altChainFrom, hmain]; rfl
  | @block l a hl ha hheight ih =>
    rw [length_append, length_singleton] at hfuel
    obtain ⟨fuel, rfl⟩ : ∃ n, fuel = n + 1 := ⟨fuel - 1, by omega⟩
    rw [altChainFrom, ha, reverse_append]
    simp only [ih (by omega : l.length ≤ fuel)]
    rfl

theorem of_nil (h : Branch db alts split l id) (hl : l = []) :
    db.blockHeights id = some (split - 1) ∧ db.getBlockHashFromHeight (split - 1) = some id := by
  cases h with
  | root hheight hid hmain => exact ⟨hheight, hid⟩
  | block => simp at hl

/-- Where a branch stands on the main chain. -/
theorem front (h : Branch db alts split l id) (ha : l.head? = some a) :
    a.height = split ∧ db.blockHeights a.bl.prevId = some (split - 1) ∧
      db.getBlockHashFromHeight (split - 1) = some a.bl.prevId := by
  induction h with
  | root => cases ha
  | @block l b hl hb hheight ih =>
    cases l with
    | nil =>
      obtain rfl : b = a := by simpa using ha
      exact ⟨hheight, hl.of_nil rfl⟩
    | cons x l => exact ih ha

/-- **A branch is found.** `build_alt_chain` collects the blocks of the branch; its timestamps are
completed from the main chain. -/
theorem buildAltChain_eq (h : Branch db alts split l id) (hsplit : l ≠ [] → split < db.height) :
    buildAltChain db alts id =
      (completeTimestampsVector db (split - 1) (l.map fun a => a.bl.timestamp).reverse).map
        fun timestamps => (l, timestamps) := by
  rw [buildAltChain, h.altChainFrom_eq h.length_le, getLast?_reverse, map_reverse]
  cases hhead : l.head? with
  | none =>
    have hnil : l = [] := head?_eq_none_iff.mp hhead
    simp only [(h.of_nil hnil).1, Option.bind_some, hnil]
  | some a =>
    obtain ⟨hheight, hmain, hid⟩ := h.front hhead
    have hne : l ≠ [] := by
      rintro rfl
      cases hhead
    simp only [hheight, if_neg (Nat.not_le.mpr (hsplit hne)), hmain, Option.bind_some, hid,
      if_true, reverse_reverse]

/-- **The timestamps of a branch.** They are the newest ones of its chain: all those of the branch,
and if these are fewer than the window, as many from the main chain as are missing, down to the
second block. -/
theorem timestamps_eq (h : Branch db alts split l id) (hdb : db.Indexed) (hpos : 0 < split)
    (hheight : split < db.height) :
    buildAltChain db alts id = some (l, (newest (max l.length
      (min blockchainTimestampCheckWindow (l.length + (split - 1))))
        (branchTimestamps db split l)).reverse) := by
  rw [h.buildAltChain_eq fun _ => hheight, completeTimestampsVector, length_reverse,
    length_map]
  have hlen : (branchTimestamps db split l).length = split + l.length := by
    rw [branchTimestamps, length_append, length_take, hdb.length_timestamps,
      length_map]
    omega
  have htake : (db.timestamps.take split).length = split := by
    rw [length_take, hdb.length_timestamps]
    omega
  split
  · next hlong =>
    rw [Option.map_some, newest, hlen, max_eq_left (by omega), Nat.add_sub_cancel,
      branchTimestamps, drop_left' htake]
  · next hshort =>
    have hn : split - 1 - (if blockchainTimestampCheckWindow - l.length < split - 1 then
        split - 1 - (blockchainTimestampCheckWindow - l.length) else 0) =
          min (blockchainTimestampCheckWindow - l.length) (split - 1) := by
      split <;> omega
    have hdown := hdb.timestampsDown_eq
      (show min (blockchainTimestampCheckWindow - l.length) (split - 1) ≤ split - 1 by omega)
      (show split - 1 < db.height by omega)
    rw [if_neg (by omega)]
    simp only [hn, hdown, Option.map_some]
    rw [← reverse_append, newest, hlen, branchTimestamps,
      drop_append_of_le_length (by omega), show split - 1 + 1 = split by omega,
      show split - min (blockchainTimestampCheckWindow - l.length) (split - 1) = split + l.length -
        max l.length (min blockchainTimestampCheckWindow (l.length + (split - 1))) by omega]

end Branch

end Branches

/-! ### Medians -/

/-- The median does not depend on the order. -/
theorem median_perm {l l' : List UInt64} (h : l.Perm l') : median l = median l' := by
  have hsort : l.insertionSort (· ≤ ·) = l'.insertionSort (· ≤ ·) :=
    (((perm_insertionSort _ l).trans h).trans
      (perm_insertionSort _ l').symm).eq_of_pairwise'
        (pairwise_insertionSort _ l) (pairwise_insertionSort _ l')
  rw [median, median, hsort]

/-- The median of zeros and twos. -/
theorem median_zeros_twos (a b : ℕ) (hpos : 0 < a + b) :
    median (replicate a 0 ++ replicate b 2) =
      if b < a then 0 else if a < b then 2 else 1 := by
  have hsorted : (replicate a (0 : UInt64) ++ replicate b 2).Pairwise (· ≤ ·) := by
    refine pairwise_append.mpr ⟨pairwise_replicate.mpr (.inr le_rfl),
      pairwise_replicate.mpr (.inr le_rfl), fun x hx y hy => ?_⟩
    rw [eq_of_mem_replicate hx, eq_of_mem_replicate hy]
    decide
  have hrank : ∀ k, k < a + b →
      rank (replicate a (0 : UInt64) ++ replicate b 2) k = some (if k < a then 0 else 2) := by
    intro k hk
    rw [rank, hsorted.insertionSort_eq, getElem?_append, length_replicate]
    split
    · next hlt => rw [getElem?_replicate, if_pos hlt]
    · rw [getElem?_replicate, if_pos (by omega)]
  obtain ⟨x, y, hx, hy, hmedian, -⟩ := median_eq
    (show replicate a (0 : UInt64) ++ replicate b 2 ≠ [] from
      length_pos_iff.mp (by simpa using hpos))
  rw [length_append, length_replicate, length_replicate] at hx hy
  rw [hrank _ (by omega)] at hx hy
  rw [hmedian, ← Option.some.inj hx, ← Option.some.inj hy]
  split_ifs <;> first | omega | decide

/-! ### Chains with given timestamps -/

/-- A main chain with the given timestamps; the hash of a block is its height. -/
def Db.ofTimestamps (stamps : List UInt64) : Db :=
  { Db.empty 0 with
    blocks := stamps.zipIdx.map fun s => (s.2, [])
    blockInfo := stamps.zipIdx.map fun s => (s.2, ⟨s.1, 0, 0, 0, natLe s.2, 0, 0⟩)
    blockHeights := fun id =>
      (List.range stamps.length).find? fun k => decide (natLe k = id) }

/-- The hash of the block below the `k`-th one of a branch. -/
def branchId (split k : ℕ) : Hash :=
  if k = 0 then natLe (split - 1) else natLe (2 ^ 64 + k)

/-- The `k`-th block of a branch. -/
def branchBlock (split : ℕ) (stamp : UInt64) (k : ℕ) : AltBlock where
  bl := { soloBlock 16 (split + k) with timestamp := stamp, prevId := branchId split k }
  height := split + k
  cumulativeDifficulty := 0
  id := branchId split (k + 1)
  alreadyGeneratedCoins := 0

/-- A branch with the given timestamps. -/
def branchOf (split : ℕ) (stamps : List UInt64) : List AltBlock :=
  stamps.zipIdx.map fun s => branchBlock split s.1 s.2

theorem Db.ofTimestamps_indexed (stamps : List UInt64) : (Db.ofTimestamps stamps).Indexed where
  dense := by
    rw [Db.ofTimestamps, Table.Dense, map_map, length_map, length_zipIdx]
    simp [Function.comp_def, zipIdx_map_snd, range_eq_range']
  length := by
    rw [Db.height, Db.ofTimestamps, length_map, length_map]

theorem Db.timestamps_ofTimestamps (stamps : List UInt64) :
    (Db.ofTimestamps stamps).timestamps = stamps := by
  rw [Db.timestamps, Db.infos, Db.ofTimestamps, map_map, map_map]
  simp [Function.comp_def]

theorem natLe_inj {m n : ℕ} (hm : m < 256 ^ 32) (hn : n < 256 ^ 32)
    (h : natLe m = natLe n) : m = n := by
  rw [← leNat_natLe hm, h, leNat_natLe hn]

theorem branchId_inj {split i j : ℕ} (hsplit : split < 2 ^ 64) (hi : i < 2 ^ 64 + 1)
    (hj : j < 2 ^ 64 + 1) (h : branchId split i = branchId split j) : i = j := by
  have hbound : (2 : ℕ) ^ 64 + 2 ^ 64 < 256 ^ 32 := by norm_num
  rw [branchId, branchId] at h
  split_ifs at h with h0 h0' h0'
  · omega
  · have := natLe_inj (by omega) (by omega) h
    omega
  · have := natLe_inj (by omega) (by omega) h
    omega
  · have := natLe_inj (by omega) (by omega) h
    omega

theorem length_branchOf (split : ℕ) (stamps : List UInt64) :
    (branchOf split stamps).length = stamps.length := by
  rw [branchOf, length_map, length_zipIdx]

variable {split : ℕ}

theorem mem_branchOf {stamps : List UInt64}
    (h : a ∈ branchOf split stamps) : ∃ k < stamps.length, a.id = branchId split (k + 1) := by
  obtain ⟨s, hs, rfl⟩ := mem_map.mp h
  exact ⟨s.2, (mem_zipIdx' hs).1, rfl⟩

/-- The table with the blocks of a branch. -/
def branchTable {split : ℕ} {stamps : List UInt64} (hsplit : split < 2 ^ 64)
    (hfit : stamps.length < 2 ^ 64) : Keyed AltBlock.id where
  entries := branchOf split stamps
  nodup := by
    have hids : (branchOf split stamps).map AltBlock.id =
        (List.range stamps.length).map fun k => branchId split (k + 1) := by
      rw [branchOf, map_map, range_eq_range', ← zipIdx_map_snd, map_map]
      rfl
    rw [hids]
    refine List.Nodup.map_on (fun i hi j hj hij => ?_) nodup_range
    rw [mem_range] at hi hj
    have := branchId_inj hsplit (by omega) (by omega) hij
    omega

theorem branchOf_branch {stamps below : List UInt64} (hpos : 0 < split)
    (hlen : split ≤ below.length) (hsplit : split < 2 ^ 64) (hfit : stamps.length < 2 ^ 64) :
    Branch (Db.ofTimestamps below) (branchTable hsplit hfit) split (branchOf split stamps)
      (branchId split stamps.length) := by
  suffices hall : ∀ n ≤ stamps.length, Branch (Db.ofTimestamps below)
      (branchTable hsplit hfit) split ((branchOf split stamps).take n) (branchId split n) by
    have := hall _ le_rfl
    rwa [take_of_length_le (length_branchOf split stamps).le] at this
  have hbound : (2 : ℕ) ^ 64 + 2 ^ 64 < 256 ^ 32 := by norm_num
  intro n hn
  induction n with
  | zero =>
    refine .root ?_ ?_ ?_
    · rw [Db.ofTimestamps, find?_range_eq_some]
      refine ⟨decide_eq_true rfl, mem_range.mpr (by omega), fun j hj => ?_⟩
      rw [Bool.not_eq_true', decide_eq_false_iff_not]
      intro heq
      have := natLe_inj (by omega) (by omega) heq
      omega
    · rw [Db.getBlockHashFromHeight, (Db.ofTimestamps_indexed below).dense.get?_eq,
        Db.ofTimestamps, getElem?_map, getElem?_zipIdx,
        getElem?_eq_getElem (show split - 1 < below.length by omega)]
      simp [branchId]
    · refine Keyed.find?_eq_none.mpr fun a ha heq => ?_
      obtain ⟨k, hk, hid⟩ := mem_branchOf ha
      have := branchId_inj hsplit (by omega) (by omega) (hid.symm.trans heq)
      omega
  | succ n ih =>
    have hn' : n < (branchOf split stamps).length := by
      rw [length_branchOf]
      omega
    have hget : (branchOf split stamps)[n] = branchBlock split stamps[n] n := by
      simp [branchOf]
    rw [take_succ_eq_append_getElem hn', hget]
    refine .block (a := branchBlock split stamps[n] n) (ih (by omega))
      (Keyed.find?_eq_some.mpr ⟨hget ▸ getElem_mem hn', rfl⟩) ?_
    rw [length_take, min_eq_left hn'.le]
    rfl

theorem map_timestamp_branchOf (split : ℕ) (stamps : List UInt64) :
    (branchOf split stamps).map (fun a => a.bl.timestamp) = stamps := by
  rw [branchOf, map_map]
  exact zipIdx_map_fst 0 stamps

/-- **Any chain** with a branch from a given height on. -/
theorem exists_branch {stamps : List UInt64} (hpos : 0 < split) (hlen : split ≤ stamps.length)
    (hfit : stamps.length < 2 ^ 64) :
    ∃ db alts l id, db.Indexed ∧ split < db.height ∧ Branch db alts split l id ∧
      split + l.length = stamps.length ∧ branchTimestamps db split l = stamps := by
  have hdb := Db.ofTimestamps_indexed (stamps.take split ++ [0])
  have htake : (stamps.take split).length = split := by
    rw [length_take]
    omega
  have hrest : (stamps.drop split).length < 2 ^ 64 := by
    rw [length_drop]
    omega
  refine ⟨_, _, _, _, hdb, ?_, branchOf_branch hpos ?_ (by omega) hrest, ?_, ?_⟩
  · rw [← hdb.length_timestamps, Db.timestamps_ofTimestamps, length_append, htake]
    exact Nat.lt_succ_self split
  · rw [length_append, htake]
    exact Nat.le_succ split
  · rw [length_branchOf, length_drop]
    omega
  · rw [branchTimestamps, Db.timestamps_ofTimestamps, map_timestamp_branchOf,
      take_left' htake, take_append_drop]

/-! ### The rule for timestamps -/

/-- The chain of a branch as the main chain. -/
structure AsMainChain (db : Db) (split : ℕ) (l : List AltBlock) (db' : Db) : Prop where
  indexed : db'.Indexed
  timestamps : db'.timestamps = branchTimestamps db split l

/-- Both medians are taken over the newest timestamps of the chain of a branch, but over different
numbers of them. -/
theorem Branch.medians {db db' : Db} {alts : Keyed AltBlock.id} {l : List AltBlock} {id : Hash}
    (h : Branch db alts split l id) (hdb : db.Indexed)
    (hsplit : blockchainTimestampCheckWindow ≤ split) (hheight : split < db.height)
    (hmain : AsMainChain db split l db') :
    ∃ timestamps, buildAltChain db alts id = some (l, timestamps) ∧
      median timestamps = median (newest (max l.length
        (min blockchainTimestampCheckWindow (l.length + (split - 1)))) db'.timestamps) ∧
      median (lastTimestamps db' db'.height) =
        median (newest blockchainTimestampCheckWindow db'.timestamps) := by
  have hwindow : blockchainTimestampCheckWindow = 60 := rfl
  have hlen : split ≤ db'.height := by
    rw [← hmain.indexed.length_timestamps, hmain.timestamps, branchTimestamps,
      length_append, length_take, hdb.length_timestamps]
    omega
  refine ⟨_, h.timestamps_eq hdb (by omega) hheight, ?_, ?_⟩
  · rw [hmain.timestamps]
    exact median_perm (reverse_perm _)
  · rw [hmain.indexed.lastTimestamps_eq (hsplit.trans hlen)]

/-- The newest of zeros and thirty twos. -/
theorem newest_zeros_twos {a m : ℕ} (hm : 30 ≤ m) (ha : m ≤ a + 30) :
    newest m (replicate a (0 : UInt64) ++ replicate 30 2) =
      replicate (m - 30) 0 ++ replicate 30 2 := by
  rw [newest, length_append, length_replicate, length_replicate,
    drop_append_of_le_length (by rw [length_replicate]; omega), drop_replicate,
    show a - (a + 30 - m) = m - 30 by omega]

/-- Thirty zeros and thirty twos, with further zeros in front of them: of all numbers from 30 on,
the median of the newest 60 is the only one that is 1. -/
theorem median_newest_eq_one_iff {a m : ℕ} (hm : 30 ≤ m) (ha : m ≤ a + 30) :
    median (newest m (replicate a (0 : UInt64) ++ replicate 30 2)) = 1 ↔ m = 60 := by
  rw [newest_zeros_twos hm ha, median_zeros_twos _ _ (by omega)]
  split_ifs with hlt hgt
  · exact iff_of_false (by decide) (by omega)
  · exact iff_of_false (by decide) (by omega)
  · exact iff_of_true rfl (by omega)

/-- A branch with such timestamps. -/
theorem exists_branch_zeros_twos {split n : ℕ} (hsplit : blockchainTimestampCheckWindow ≤ split)
    (hfit : split + n < 2 ^ 64) :
    ∃ db alts l id db', db.Indexed ∧ split < db.height ∧ Branch db alts split l id ∧
      l.length = n ∧ AsMainChain db split l db' ∧
      db'.timestamps = replicate (split + n - 30) 0 ++ replicate 30 2 := by
  have hwindow : blockchainTimestampCheckWindow = 60 := rfl
  have hlen : (replicate (split + n - 30) (0 : UInt64) ++ replicate 30 2).length =
      split + n := by
    rw [length_append, length_replicate, length_replicate]
    omega
  obtain ⟨db, alts, l, id, hdb, hheight, hbranch, hl, hstamps⟩ :=
    exists_branch (show 0 < split by omega) (by omega) (hlen.trans_lt hfit)
  refine ⟨db, alts, l, id, Db.ofTimestamps _, hdb, hheight, hbranch, by omega,
    ⟨Db.ofTimestamps_indexed _, (Db.timestamps_ofTimestamps _).trans hstamps.symm⟩,
    Db.timestamps_ofTimestamps _⟩

/-- **The median on a branch.** On all branches of `n` blocks that leave the main chain at a height
of at least `BLOCKCHAIN_TIMESTAMP_CHECK_WINDOW`, the next block is compared with the same median as
if the branch were the main chain, exactly if `n` is not larger than the window, and the branch and
the part of the main chain below it, without the first block, are not smaller. -/
theorem altMedian_eq_iff (split n : ℕ) (hsplit : blockchainTimestampCheckWindow ≤ split)
    (hfit : split + n < 2 ^ 64) :
    (∀ db alts l id db', db.Indexed → split < db.height → Branch db alts split l id →
        l.length = n → AsMainChain db split l db' →
        ∃ timestamps, buildAltChain db alts id = some (l, timestamps) ∧
          median timestamps = median (lastTimestamps db' db'.height)) ↔
      n ≤ blockchainTimestampCheckWindow ∧ blockchainTimestampCheckWindow < split + n := by
  have hwindow : blockchainTimestampCheckWindow = 60 := rfl
  constructor
  · intro hall
    obtain ⟨db, alts, l, id, db', hdb, hheight, hbranch, hl, hmain, hstamps⟩ :=
      exists_branch_zeros_twos hsplit hfit
    obtain ⟨timestamps, hbuild, hmedian⟩ := hall db alts l id db' hdb hheight hbranch hl hmain
    obtain ⟨timestamps', hbuild', halt, hlast⟩ := hbranch.medians hdb hsplit hheight hmain
    obtain rfl : timestamps' = timestamps := by
      rw [hbuild] at hbuild'
      simpa using hbuild'.symm
    have hone : median (newest blockchainTimestampCheckWindow db'.timestamps) = 1 := by
      rw [hstamps]
      exact (median_newest_eq_one_iff (by omega) (by omega)).mpr hwindow
    rw [halt, hlast, hone, hstamps, median_newest_eq_one_iff (by omega) (by omega)] at hmedian
    omega
  · rintro ⟨hle, hlt⟩ db alts l id db' hdb hheight hbranch hl hmain
    obtain ⟨timestamps, hbuild, halt, hlast⟩ := hbranch.medians hdb hsplit hheight hmain
    refine ⟨timestamps, hbuild, ?_⟩
    rw [halt, hlast, show max l.length (min blockchainTimestampCheckWindow
      (l.length + (split - 1))) = blockchainTimestampCheckWindow by omega]

/-- A branch of 61 blocks that leaves the main chain at height 60, with timestamps that do not
decrease along its chain: 91 times 0 and then 30 times 2. The median of the last 60 blocks is 1,
and the median that the next block is compared with is 0. -/
theorem altMedian_differs :
    ∃ db alts l id db' timestamps, db.Indexed ∧ 60 < db.height ∧ Branch db alts 60 l id ∧
      l.length = 61 ∧ AsMainChain db 60 l db' ∧ db'.timestamps.Pairwise (· ≤ ·) ∧
      buildAltChain db alts id = some (l, timestamps) ∧ median timestamps = 0 ∧
      median (lastTimestamps db' db'.height) = 1 := by
  obtain ⟨db, alts, l, id, db', hdb, hheight, hbranch, hl, hmain, hstamps⟩ :=
    @exists_branch_zeros_twos 60 61 le_rfl (by norm_num)
  obtain ⟨timestamps, hbuild, halt, hlast⟩ := hbranch.medians hdb le_rfl hheight hmain
  refine ⟨db, alts, l, id, db', timestamps, hdb, hheight, hbranch, hl, hmain, ?_, hbuild, ?_, ?_⟩
  · rw [hstamps]
    decide
  · rw [halt, hl, hstamps, newest_zeros_twos (by decide) (by decide),
      median_zeros_twos _ _ (by decide)]
    decide
  · rw [hlast, hstamps]
    exact (median_newest_eq_one_iff (by decide) (by decide)).mpr rfl

/-- All branches of one block that leave the main chain at height 100. -/
theorem altMedian_eq_one_block :
    (∃ db alts l id, db.Indexed ∧ 100 < db.height ∧ Branch db alts 100 l id ∧ l.length = 1) ∧
    ∀ db alts l id db', db.Indexed → 100 < db.height → Branch db alts 100 l id →
      l.length = 1 → AsMainChain db 100 l db' →
      ∃ timestamps, buildAltChain db alts id = some (l, timestamps) ∧
        median timestamps = median (lastTimestamps db' db'.height) := by
  obtain ⟨db, alts, l, id, db', hdb, hheight, hbranch, hl, -⟩ :=
    @exists_branch_zeros_twos 100 1 (by decide) (by norm_num)
  exact ⟨⟨db, alts, l, id, hdb, hheight, hbranch, hl⟩,
    (altMedian_eq_iff 100 1 (by decide) (by norm_num)).mpr (by decide)⟩

end Hidering
