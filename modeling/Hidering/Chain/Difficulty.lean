import Hidering.Chain.State
import Hidering.Verify.Balance

/-!
# Difficulty on the main chain and on alternative chains

`get_difficulty_for_next_block` computes the difficulty of the next block of the main chain from the
timestamps and cumulative difficulties of its last blocks. For a block on an alternative chain the
same has to be computed as if that chain were the main one, from the blocks of the alternative chain
and, where these are too few, from the part of the main chain below them
(`get_next_difficulty_for_alternative_chain`). The two functions select the blocks by different
arithmetic; they select the same ones.

The functions read a chain only through its rows of timestamps and cumulative difficulties
(`BlockRows`). The members of `Blockchain` in which `get_difficulty_for_next_block` remembers its
last result are in `DifficultyCache`; when they belong to the chain at hand is `Consistent`.

## Main definitions

* `Hidering.nextDifficulty`
* `Hidering.getDifficultyForNextBlock`, `DifficultyCache`
* `Hidering.AltChain`, `getNextDifficultyForAlternativeChain`
* `Hidering.AltChain.AsMain` — the rows of the main chain, if the alternative chain were it

## Main results

* `Hidering.AltChain.AsMain.window_short`, `AsMain.window_long` — both functions select the same
  rows
* `Hidering.AltChain.AsMain.recordAll`, `Hidering.altDifficulty_eq_mainDifficulty`
-/

namespace Hidering

open Wire List

/-! ### `next_difficulty` -/

/-- `next_difficulty`. Differences of cumulative difficulties are taken modulo `2 ^ 128`. -/
def nextDifficulty (timestamps : List UInt64) (cumulativeDifficulties : List ℕ)
    (targetSeconds : ℕ) : ℕ :=
  -- cutoff DIFFICULTY_LAG
  let timestamps := timestamps.take difficultyWindow
  let cumulativeDifficulties := cumulativeDifficulties.take difficultyWindow
  let length := timestamps.length
  if length ≤ 1 then 1
  else
    let sorted := timestamps.insertionSort (· ≤ ·)
    let kept := difficultyWindow - 2 * difficultyCut
    let cutBegin := if length ≤ kept then 0 else (length - kept + 1) / 2
    let cutEnd := if length ≤ kept then length else cutBegin + kept
    let timeSpan := (sorted.getD (cutEnd - 1) 0 - sorted.getD cutBegin 0).toNat
    let timeSpan := if timeSpan = 0 then 1 else timeSpan
    let totalWork := (cumulativeDifficulties.getD (cutEnd - 1) 0 + 2 ^ 128 -
      cumulativeDifficulties.getD cutBegin 0) % 2 ^ 128
    let res := (totalWork * targetSeconds + timeSpan - 1) / timeSpan
    if 2 ^ 128 ≤ res then 0 else res

/-- `get_difficulty_target` at a hard-fork version. -/
def getDifficultyTarget (hfVersion : UInt8) : ℕ :=
  if hfVersion < 2 then difficultyTargetV1 else difficultyTargetV2

/-! ### The main chain -/

/-- What the functions of this module read of a chain: its height, and the timestamp and the
cumulative difficulty of the block at a height. -/
structure BlockRows where
  height : ℕ
  row : ℕ → Option (UInt64 × ℕ)

/-- The rows of the main chain. -/
def Db.rows (db : Db) : BlockRows where
  height := db.height
  row h := (db.blockInfo.get? h).map fun i => (i.timestamp, i.diff)

namespace BlockRows

/-- The `n` rows from `start` on; `none` where the database throws. -/
def rowsFrom (rows : BlockRows) : ℕ → ℕ → Option (List (UInt64 × ℕ))
  | _, 0 => some []
  | start, n + 1 =>
    (rows.row start).bind fun r => (rows.rowsFrom (start + 1) n).map fun w => r :: w

/-- The rows from `start` up to `stop`. -/
def range (rows : BlockRows) (start stop : ℕ) : Option (List (UInt64 × ℕ)) :=
  rows.rowsFrom start (stop - start)

/-- The height at which the window of a chain of the given height starts: the genesis block is
skipped. -/
def windowStart (height : ℕ) : ℕ :=
  let offset := height - min height difficultyBlocksCount
  if offset = 0 then offset + 1 else offset

/-- The rows that the next difficulty is computed from. -/
def window (rows : BlockRows) : Option (List (UInt64 × ℕ)) :=
  rows.range (windowStart rows.height) rows.height

end BlockRows

/-- The members of `Blockchain` in which `get_difficulty_for_next_block` remembers its results. -/
structure DifficultyCache where
  /-- `m_timestamps_and_difficulties_height` -/
  height : ℕ
  /-- `m_reset_timestamps_and_difficulties_height` -/
  reset : Bool
  /-- `m_timestamps` -/
  timestamps : List UInt64
  /-- `m_difficulties` -/
  difficulties : List ℕ
  /-- `m_difficulty_for_next_block_top_hash` -/
  topHash : Hash
  /-- `m_difficulty_for_next_block` -/
  difficulty : ℕ

namespace DifficultyCache

/-- The values that the constructor sets. -/
def start : DifficultyCache where
  height := 0
  reset := true
  timestamps := []
  difficulties := []
  topHash := default
  difficulty := 1

/-- The rows kept from the call before can be extended by one. -/
def Extends (cache : DifficultyCache) (rows : BlockRows) : Prop :=
  cache.reset = false ∧ cache.height ≠ 0 ∧ rows.height = cache.height + 1 ∧
    difficultyBlocksCount ≤ cache.timestamps.length

instance (cache : DifficultyCache) (rows : BlockRows) : Decidable (cache.Extends rows) := by
  unfold Extends
  infer_instance

/-- Erase entries from the front until `DIFFICULTY_BLOCKS_COUNT` are left. -/
def trim {α : Type} (l : List α) : List α := l.drop (l.length - difficultyBlocksCount)

/-- The timestamps and difficulties that the next difficulty is computed from. -/
def select (cache : DifficultyCache) (rows : BlockRows) : Option (List UInt64 × List ℕ) :=
  if cache.Extends rows then
    (rows.row (rows.height - 1)).map fun r =>
      (trim (cache.timestamps ++ [r.1]), trim (cache.difficulties ++ [r.2]))
  else rows.window.map fun w => (w.map Prod.fst, w.map Prod.snd)

end DifficultyCache

/-- `get_difficulty_for_next_block` on a chain whose top block has the hash `topHash`; a
`fixedDifficulty` of 0 means that there is none. Returns the members afterwards as well. -/
def getDifficultyForNextBlock (fixedDifficulty : ℕ) (hfVersion : UInt8) (topHash : Hash)
    (rows : BlockRows) (cache : DifficultyCache) : Option (ℕ × DifficultyCache) :=
  if fixedDifficulty ≠ 0 then some (if rows.height ≠ 0 then fixedDifficulty else 1, cache)
  else if topHash = cache.topHash then some (cache.difficulty, cache)
  else
    (cache.select rows).map fun s =>
      let diff := nextDifficulty s.1 s.2 (getDifficultyTarget hfVersion)
      (diff, { cache with
        height := rows.height
        timestamps := s.1
        difficulties := s.2
        topHash := topHash
        difficulty := diff })

/-- The cumulative difficulty that `handle_block_to_main_chain` stores for the next block. -/
def BlockRows.nextCumulativeDifficulty (rows : BlockRows) (diff : ℕ) : Option ℕ :=
  if rows.height = 0 then some diff
  else (rows.row (rows.height - 1)).map fun r => (diff + r.2) % 2 ^ 128

/-- The difficulty of the next block, without the members that remember it. -/
def BlockRows.nextDifficulty (rows : BlockRows) (hfVersion : UInt8) : Option ℕ :=
  rows.window.map fun w =>
    Hidering.nextDifficulty (w.map Prod.fst) (w.map Prod.snd) (getDifficultyTarget hfVersion)

namespace DifficultyCache

/-- The remembered values belong to the chain at hand: the difficulty, if it was computed for the
same top block, and the rows, if they end one block below. -/
structure Consistent (cache : DifficultyCache) (hfVersion : UInt8) (topHash : Hash)
    (rows : BlockRows) : Prop where
  difficulty : topHash = cache.topHash → rows.nextDifficulty hfVersion = some cache.difficulty
  window : cache.Extends rows →
    ∃ w, rows.range (BlockRows.windowStart cache.height) cache.height = some w ∧
      cache.timestamps = w.map Prod.fst ∧ cache.difficulties = w.map Prod.snd

end DifficultyCache

/-! ### Alternative chains -/

/-- The part of `block_extended_info` that the difficulty of an alternative block depends on. -/
structure BlockExtendedInfo where
  bl : Block
  height : ℕ
  cumulativeDifficulty : ℕ

/-- Timestamp and cumulative difficulty of an alternative block. -/
def BlockExtendedInfo.row (bei : BlockExtendedInfo) : UInt64 × ℕ :=
  (bei.bl.timestamp, bei.cumulativeDifficulty)

/-- An alternative chain, from the block that stands on the main chain to its head, as
`build_alt_chain` collects it. It may have no block yet: then the next one stands on the block at
height `split - 1` of the main chain. -/
structure AltChain (main : BlockRows) where
  /-- the height of the first block -/
  split : ℕ
  blocks : List BlockExtendedInfo
  split_pos : 0 < split
  split_le : split ≤ main.height
  height_eq : ∀ k (hk : k < blocks.length), blocks[k].height = split + k

/-- `bei.height` of the next block: one more than the height of the block before it. -/
def AltChain.nextHeight {main : BlockRows} (alt : AltChain main) : ℕ :=
  (alt.blocks.getLast?.map BlockExtendedInfo.height).getD (alt.split - 1) + 1

/-- The rows of the main chain that complete an alternative chain of fewer than
`DIFFICULTY_BLOCKS_COUNT` blocks. -/
def mainChainRows (main : BlockRows) (altChain : List BlockExtendedInfo) (nextHeight : ℕ) :
    Option (List (UInt64 × ℕ)) :=
  let mainChainStopOffset := (altChain.head?.map BlockExtendedInfo.height).getD nextHeight
  let mainChainCount := difficultyBlocksCount - min difficultyBlocksCount altChain.length
  let mainChainCount := min mainChainCount mainChainStopOffset
  let mainChainStartOffset := mainChainStopOffset - mainChainCount
  let mainChainStartOffset :=
    if mainChainStartOffset = 0 then mainChainStartOffset + 1 else mainChainStartOffset
  main.range mainChainStartOffset mainChainStopOffset

/-- `get_next_difficulty_for_alternative_chain`, for a next block at height `nextHeight`, for which
the hard-fork table has the version `idealVersion`. -/
def getNextDifficultyForAlternativeChain (fixedDifficulty : ℕ) (idealVersion : UInt8)
    (main : BlockRows) (altChain : List BlockExtendedInfo) (nextHeight : ℕ) : Option ℕ :=
  let target := if idealVersion < 2 then difficultyTargetV1 else difficultyTargetV2
  if fixedDifficulty ≠ 0 then some (if main.height ≠ 0 then fixedDifficulty else 1)
  else if altChain.length < difficultyBlocksCount then
    (mainChainRows main altChain nextHeight).map fun rows =>
      if altChain.length + rows.length ≤ difficultyBlocksCount then
        let rows := rows ++ altChain.map BlockExtendedInfo.row
        nextDifficulty (rows.map Prod.fst) (rows.map Prod.snd) target
      else 0
  else
    -- the last blocks, copied from the back
    let rows := ((altChain.reverse.take difficultyBlocksCount).map BlockExtendedInfo.row).reverse
    some (nextDifficulty (rows.map Prod.fst) (rows.map Prod.snd) target)

/-- The cumulative difficulty that `handle_alternative_block` records for the next block. -/
def AltChain.nextCumulativeDifficulty {main : BlockRows} (alt : AltChain main) (diff : ℕ) :
    Option ℕ :=
  match alt.blocks.getLast? with
  | some prev => some ((prev.cumulativeDifficulty + diff) % 2 ^ 128)
  | none => (main.row (alt.split - 1)).map fun r => (r.2 + diff) % 2 ^ 128

/-- The rows of the main chain, if the blocks of the alternative chain were its last ones. -/
structure AltChain.AsMain {main : BlockRows} (alt : AltChain main) (rows : BlockRows) : Prop where
  height : rows.height = alt.split + alt.blocks.length
  below : ∀ h < alt.split, rows.row h = main.row h
  above : ∀ k (hk : k < alt.blocks.length), rows.row (alt.split + k) = some alt.blocks[k].row

/-! ### Ranges of rows -/

variable {w : List (UInt64 × ℕ)}

namespace BlockRows

variable {rows rows' : BlockRows}

theorem rowsFrom_add (start m n : ℕ) : rows.rowsFrom start (m + n) =
    (rows.rowsFrom start m).bind fun a => (rows.rowsFrom (start + m) n).map fun b => a ++ b := by
  induction m generalizing start with
  | zero => simp [rowsFrom]
  | succ m ih =>
    rw [Nat.succ_add, rowsFrom, rowsFrom, ih, Nat.add_right_comm, Nat.add_assoc]
    cases rows.row start with
    | none => rfl
    | some r =>
      cases rows.rowsFrom (start + 1) m with
      | none => rfl
      | some a => cases rows.rowsFrom (start + (m + 1)) n <;> rfl

theorem range_append {start mid stop : ℕ} (h₁ : start ≤ mid) (h₂ : mid ≤ stop) :
    rows.range start stop =
      (rows.range start mid).bind fun a => (rows.range mid stop).map fun b => a ++ b := by
  have hsum : stop - start = (mid - start) + (stop - mid) := by omega
  rw [range, hsum, rowsFrom_add, Nat.add_sub_cancel' h₁]
  rfl

theorem rowsFrom_congr {start n : ℕ}
    (h : ∀ k, start ≤ k → k < start + n → rows.row k = rows'.row k) :
    rows.rowsFrom start n = rows'.rowsFrom start n := by
  induction n generalizing start with
  | zero => rfl
  | succ n ih =>
    rw [rowsFrom, rowsFrom, h start (Nat.le_refl _) (by omega)]
    rw [ih fun k hk hlt => h k (by omega) (by omega)]

variable {start stop : ℕ}

theorem range_congr (h : ∀ k, start ≤ k → k < stop → rows.row k = rows'.row k) :
    rows.range start stop = rows'.range start stop :=
  rowsFrom_congr fun k hk hlt => h k hk (by omega)

theorem length_of_rowsFrom {start n : ℕ} (h : rows.rowsFrom start n = some w) : w.length = n := by
  induction n generalizing start w with
  | zero => simp only [rowsFrom, Option.some.injEq] at h; rw [← h]; rfl
  | succ n ih =>
    simp only [rowsFrom, Option.bind_eq_some_iff, Option.map_eq_some_iff] at h
    obtain ⟨r, -, w', hw', rfl⟩ := h
    rw [length_cons, ih hw']

theorem length_of_range (h : rows.range start stop = some w) : w.length = stop - start :=
  length_of_rowsFrom h

/-- A later start drops rows. -/
theorem range_drop {start stop k : ℕ} (h : rows.range start stop = some w) (hk : start + k ≤ stop) :
    rows.range (start + k) stop = some (w.drop k) := by
  rw [range_append (Nat.le_add_right start k) hk] at h
  simp only [Option.bind_eq_some_iff, Option.map_eq_some_iff] at h
  obtain ⟨a, ha, b, hb, rfl⟩ := h
  have hlen : a.length = k := by rw [length_of_range ha, Nat.add_sub_cancel_left]
  rw [hb, ← hlen, drop_left]

/-- A later stop appends a row. -/
theorem range_succ (h : start ≤ stop) : rows.range start (stop + 1) =
    (rows.range start stop).bind fun w => (rows.row stop).map fun r => w ++ [r] := by
  have hone : rows.range stop (stop + 1) = (rows.row stop).map fun r => [r] := by
    rw [range, Nat.add_sub_cancel_left, rowsFrom]
    cases rows.row stop <;> rfl
  rw [range_append h (Nat.le_succ stop), hone]
  cases rows.row stop <;> rfl

/-- Rows that are known one by one. -/
theorem rowsFrom_eq_some {start : ℕ}
    (h : ∀ k (hk : k < w.length), rows.row (start + k) = some w[k]) :
    rows.rowsFrom start w.length = some w := by
  induction w generalizing start with
  | nil => rfl
  | cons r w ih =>
    have hhead : rows.row start = some r := h 0 (Nat.succ_pos _)
    have htail := @ih (start + 1) fun k hk => by
      have := h (k + 1) (Nat.succ_lt_succ hk)
      rwa [← Nat.add_assoc, Nat.add_right_comm] at this
    rw [length_cons, rowsFrom, hhead, Option.bind_some, htail, Option.map_some]

end BlockRows

/-! ### The same window -/

namespace AltChain

variable {main rows : BlockRows} {alt : AltChain main}

theorem nextHeight_eq (alt : AltChain main) : alt.nextHeight = alt.split + alt.blocks.length := by
  have hpos := alt.split_pos
  rw [nextHeight]
  by_cases hnil : alt.blocks = []
  · rw [hnil, getLast?_nil, Option.map_none, Option.getD_none, length_nil]
    omega
  · have hlen : 0 < alt.blocks.length := length_pos_iff.mpr hnil
    have hget : alt.blocks.getLast? = some alt.blocks[alt.blocks.length - 1] := by
      rw [getLast?_eq_getElem?, getElem?_eq_getElem]
    rw [hget, Option.map_some, Option.getD_some, alt.height_eq]
    omega

theorem head_height (alt : AltChain main) :
    (alt.blocks.head?.map BlockExtendedInfo.height).getD alt.nextHeight = alt.split := by
  cases hb : alt.blocks with
  | nil => rw [alt.nextHeight_eq, hb]; rfl
  | cons b bs =>
    have := alt.height_eq 0 (by rw [hb]; exact Nat.succ_pos _)
    simpa [hb] using this

/-- The rows of the alternative blocks themselves. -/
theorem AsMain.range_above (h : alt.AsMain rows) {k : ℕ} (hk : k ≤ alt.blocks.length) :
    rows.range (alt.split + k) rows.height =
      some ((alt.blocks.drop k).map BlockExtendedInfo.row) := by
  have hlen : rows.height - (alt.split + k) =
      ((alt.blocks.drop k).map BlockExtendedInfo.row).length := by
    rw [h.height, length_map, length_drop]
    omega
  rw [BlockRows.range, hlen]
  refine BlockRows.rowsFrom_eq_some fun i hi => ?_
  rw [length_map, length_drop] at hi
  rw [Nat.add_assoc, h.above (k + i) (by omega), getElem_map, getElem_drop]

/-- The offsets of the two functions, if the alternative chain is completed from the main chain. -/
theorem windowStart_eq {split n : ℕ} (hpos : 0 < split) (hn : n < difficultyBlocksCount) :
    BlockRows.windowStart (split + n) =
      (let count := min (difficultyBlocksCount - min difficultyBlocksCount n) split
       if split - count = 0 then split - count + 1 else split - count) ∧
    BlockRows.windowStart (split + n) ≤ split := by
  simp only [BlockRows.windowStart, difficultyBlocksCount, difficultyWindow, difficultyLag] at hn ⊢
  constructor
  · split <;> split <;> omega
  · split <;> omega

/-- The window, if the alternative chain is completed from the main chain. -/
theorem AsMain.window_short (h : alt.AsMain rows)
    (hlen : alt.blocks.length < difficultyBlocksCount) :
    rows.window = (mainChainRows main alt.blocks alt.nextHeight).map fun w =>
      w ++ alt.blocks.map BlockExtendedInfo.row := by
  obtain ⟨hstart, hle⟩ := windowStart_eq alt.split_pos hlen
  have hmain : mainChainRows main alt.blocks alt.nextHeight =
      main.range (BlockRows.windowStart rows.height) alt.split := by
    rw [h.height, hstart, mainChainRows, alt.head_height]
  have habove := h.range_above (Nat.zero_le _)
  rw [Nat.add_zero, drop_zero] at habove
  have hbelow : rows.range (BlockRows.windowStart rows.height) alt.split =
      main.range (BlockRows.windowStart rows.height) alt.split :=
    BlockRows.range_congr fun k _ hk => h.below k hk
  rw [BlockRows.window, BlockRows.range_append (h.height ▸ hle) (h.height ▸ Nat.le_add_right _ _),
    habove, hbelow, hmain]
  cases main.range (BlockRows.windowStart rows.height) alt.split <;> rfl

/-- The window, if it lies within the alternative chain. -/
theorem AsMain.window_long (h : alt.AsMain rows)
    (hlen : difficultyBlocksCount ≤ alt.blocks.length) :
    rows.window = some
      ((alt.blocks.reverse.take difficultyBlocksCount).map BlockExtendedInfo.row).reverse := by
  have hstart : BlockRows.windowStart rows.height =
      alt.split + (alt.blocks.length - difficultyBlocksCount) := by
    have hpos := alt.split_pos
    simp only [BlockRows.windowStart, h.height]
    split <;> omega
  rw [BlockRows.window, hstart, h.range_above (Nat.sub_le _ _), take_reverse, map_reverse,
    reverse_reverse]

end AltChain

/-! ### The same difficulty -/

namespace DifficultyCache

variable {cache : DifficultyCache} {rows : BlockRows} {hfVersion : UInt8} {topHash : Hash}

theorem windowStart_succ {n len : ℕ} (hlong : difficultyBlocksCount ≤ n - BlockRows.windowStart n)
    (hlen : len = n - BlockRows.windowStart n) :
    len = difficultyBlocksCount ∧
      BlockRows.windowStart (n + 1) = BlockRows.windowStart n + 1 ∧
      BlockRows.windowStart n + 1 ≤ n := by
  simp only [BlockRows.windowStart, difficultyBlocksCount, difficultyWindow, difficultyLag]
    at hlong hlen ⊢
  split at hlong
  · omega
  · next hpos =>
    rw [if_neg hpos] at hlen ⊢
    split <;> omega

/-- Dropping the oldest of `DIFFICULTY_BLOCKS_COUNT` rows and adding the newest gives the window. -/
theorem Consistent.select_eq (h : cache.Consistent hfVersion topHash rows) :
    cache.select rows = rows.window.map fun w => (w.map Prod.fst, w.map Prod.snd) := by
  rw [select]
  split
  · next hext =>
    obtain ⟨w, hw, hts, hds⟩ := h.window hext
    obtain ⟨-, -, hheight, hlong⟩ := hext
    have hlen := BlockRows.length_of_range hw
    have hcount : w.length = difficultyBlocksCount ∧
        BlockRows.windowStart (cache.height + 1) = BlockRows.windowStart cache.height + 1 ∧
        BlockRows.windowStart cache.height + 1 ≤ cache.height := by
      rw [hts, length_map, hlen] at hlong
      exact windowStart_succ hlong hlen
    obtain ⟨hw735, hsucc, hle⟩ := hcount
    have hwindow : rows.window = (rows.row cache.height).map fun r => w.drop 1 ++ [r] := by
      rw [BlockRows.window, hheight, hsucc, BlockRows.range_succ hle, BlockRows.range_drop hw hle]
      rfl
    have htrim : ∀ {α : Type} (f : UInt64 × ℕ → α) (r : UInt64 × ℕ),
        trim (w.map f ++ [f r]) = (w.drop 1 ++ [r]).map f := by
      intro α f r
      rw [trim, length_append, length_map, hw735, length_singleton,
        Nat.add_sub_cancel_left, map_append, map_drop,
        drop_append_of_le_length (by rw [length_map, hw735]; decide)]
      rfl
    rw [hwindow, hheight, Nat.add_sub_cancel, hts, hds]
    cases rows.row cache.height with
    | none => rfl
    | some r => simp only [Option.map_some, htrim]
  · rfl

/-- Values that belong to the chain at hand do not change the result. -/
theorem Consistent.getDifficultyForNextBlock_eq (h : cache.Consistent hfVersion topHash rows) :
    (getDifficultyForNextBlock 0 hfVersion topHash rows cache).map Prod.fst =
      rows.nextDifficulty hfVersion := by
  rw [getDifficultyForNextBlock, if_neg (fun hne => hne rfl)]
  split
  · next htop => rw [Option.map_some, h.difficulty htop]
  · rw [h.select_eq, BlockRows.nextDifficulty]
    cases rows.window with
    | none => rfl
    | some w => simp only [Option.map_some]

/-- A node that has not remembered anything. -/
theorem consistent_start (hne : topHash ≠ default) : start.Consistent hfVersion topHash rows where
  difficulty h := absurd h hne
  window h := absurd h.1 (by decide)

end DifficultyCache

namespace AltChain

variable {main rows : BlockRows} {alt : AltChain main}

/-- The check that not too many rows were taken never fails. -/
theorem length_mainChainRows (h : mainChainRows main alt.blocks alt.nextHeight = some w)
    (hlen : alt.blocks.length < difficultyBlocksCount) :
    alt.blocks.length + w.length ≤ difficultyBlocksCount := by
  rw [mainChainRows, alt.head_height] at h
  have := BlockRows.length_of_range h
  split at this <;> omega

/-- The difficulty of the next block of an alternative chain is that of the chain as a main one. -/
theorem AsMain.nextDifficulty_eq (h : alt.AsMain rows) {idealVersion hfVersion : UInt8}
    (hideal : 2 ≤ idealVersion) (hhf : 2 ≤ hfVersion) :
    getNextDifficultyForAlternativeChain 0 idealVersion main alt.blocks alt.nextHeight =
      rows.nextDifficulty hfVersion := by
  have htarget : getDifficultyTarget hfVersion = difficultyTargetV2 :=
    if_neg (UInt8.not_lt.mpr hhf)
  rw [getNextDifficultyForAlternativeChain, if_neg (fun hne => hne rfl), BlockRows.nextDifficulty,
    htarget, if_neg (UInt8.not_lt.mpr hideal)]
  by_cases hlen : alt.blocks.length < difficultyBlocksCount
  · rw [if_pos hlen, h.window_short hlen, Option.map_map]
    refine Option.map_congr fun w hw => ?_
    rw [if_pos (length_mainChainRows hw hlen), Function.comp_apply]
  · rw [if_neg hlen, h.window_long (Nat.le_of_not_lt hlen), Option.map_some]

/-- The cumulative difficulty as well. -/
theorem AsMain.nextCumulativeDifficulty_eq (h : alt.AsMain rows) (diff : ℕ) :
    alt.nextCumulativeDifficulty diff = rows.nextCumulativeDifficulty diff := by
  have hpos := alt.split_pos
  have hheight : rows.height ≠ 0 := by rw [h.height]; omega
  rw [nextCumulativeDifficulty, BlockRows.nextCumulativeDifficulty, if_neg hheight]
  by_cases hnil : alt.blocks = []
  · have htop : rows.height - 1 = alt.split - 1 := by rw [h.height, hnil]; rfl
    rw [hnil, htop, h.below _ (by omega)]
    simp only [getLast?_nil, Nat.add_comm]
  · have hlen : 0 < alt.blocks.length := length_pos_iff.mpr hnil
    have hget : alt.blocks.getLast? = some alt.blocks[alt.blocks.length - 1] := by
      rw [getLast?_eq_getElem?, getElem?_eq_getElem]
    have htop : rows.height - 1 = alt.split + (alt.blocks.length - 1) := by rw [h.height]; omega
    rw [hget, htop, h.above _ (by omega)]
    simp only [Option.map_some, BlockExtendedInfo.row, Nat.add_comm]

end AltChain

/-! ### Whole branches -/

/-- The rows with one more. -/
def BlockRows.push (rows : BlockRows) (r : UInt64 × ℕ) : BlockRows :=
  ⟨rows.height + 1, fun k => if k = rows.height then some r else rows.row k⟩

/-- The row that `handle_block_to_main_chain` stores for the next block, which is refused if its
difficulty is 0. -/
def BlockRows.store (version : ℕ → UInt8) (rows : BlockRows) (bl : Block) : Option BlockRows :=
  (rows.nextDifficulty (version rows.height)).bind fun diff =>
    if diff = 0 then none
    else (rows.nextCumulativeDifficulty diff).map fun d => rows.push (bl.timestamp, d)

namespace AltChain

variable {main rows : BlockRows} {alt : AltChain main} {version : ℕ → UInt8}

theorem height_append (alt : AltChain main) {bei : BlockExtendedInfo}
    (hbei : bei.height = alt.nextHeight) (k : ℕ) (hk : k < (alt.blocks ++ [bei]).length) :
    (alt.blocks ++ [bei])[k].height = alt.split + k := by
  rw [length_append, length_singleton] at hk
  rcases Nat.lt_succ_iff_lt_or_eq.mp hk with hlt | rfl
  · rw [getElem_append_left hlt, alt.height_eq k hlt]
  · rw [getElem_concat_length rfl, hbei, alt.nextHeight_eq]

/-- The block that `handle_alternative_block` records, which is refused if its difficulty is 0. -/
def record (version : ℕ → UInt8) (alt : AltChain main) (bl : Block) : Option (AltChain main) :=
  (getNextDifficultyForAlternativeChain 0 (version alt.nextHeight) main alt.blocks
    alt.nextHeight).bind fun diff =>
      if diff = 0 then none
      else (alt.nextCumulativeDifficulty diff).map fun d =>
        { alt with
          blocks := alt.blocks ++ [⟨bl, alt.nextHeight, d⟩]
          height_eq := alt.height_append rfl }

/-- One block on both sides. -/
theorem AsMain.record (h : alt.AsMain rows) (hversion : 2 ≤ version rows.height) (bl : Block) :
    Option.Rel (fun alt' rows' => rows'.height = rows.height + 1 ∧ alt'.AsMain rows')
      (alt.record version bl) (rows.store version bl) := by
  have hheight : rows.height = alt.nextHeight := by rw [h.height, alt.nextHeight_eq]
  rw [AltChain.record, BlockRows.store, h.nextDifficulty_eq (hheight ▸ hversion) hversion]
  cases rows.nextDifficulty (version rows.height) with
  | none => exact .none
  | some diff =>
    rw [Option.bind_some, Option.bind_some]
    split
    · exact .none
    rw [h.nextCumulativeDifficulty_eq]
    cases rows.nextCumulativeDifficulty diff with
    | none => exact .none
    | some d =>
      refine .some ⟨rfl, ?_, fun k (hk : k < alt.split) => ?_, fun k hk => ?_⟩
      · simp [BlockRows.push, h.height, Nat.add_assoc]
      · exact (if_neg (by rw [h.height]; omega)).trans (h.below k hk)
      · rw [length_append, length_singleton] at hk
        rcases Nat.lt_succ_iff_lt_or_eq.mp hk with hlt | rfl
        · simp only [getElem_append_left hlt]
          exact (if_neg (by rw [h.height]; omega)).trans (h.above k hlt)
        · simp only [getElem_concat_length]
          exact if_pos h.height.symm

/-- **A whole branch.** Blocks that are recorded one after another have the cumulative difficulties
that the main chain would store for them, and are refused on one side if on the other. -/
theorem AsMain.recordAll (h : alt.AsMain rows) (hversion : ∀ k, rows.height ≤ k → 2 ≤ version k)
    (bls : List Block) :
    Option.Rel AsMain (bls.foldlM (AltChain.record version) alt)
      (bls.foldlM (BlockRows.store version) rows) := by
  induction bls generalizing alt rows with
  | nil => exact .some h
  | cons bl bls ih =>
    rw [foldlM_cons, foldlM_cons]
    have hstep := h.record (hversion _ le_rfl) bl
    generalize alt.record version bl = next at hstep ⊢
    generalize rows.store version bl = next' at hstep ⊢
    cases hstep with
    | none => exact .none
    | some hrel => exact ih hrel.2 fun k hk => hversion k (by omega)

end AltChain

/-- **Difficulty on alternative chains.** Take any main chain, any alternative chain that branches
off it, and any database `db'` in which the blocks of the alternative chain are the main chain. From
hard-fork version 2 on, and without a fixed difficulty, the next block of the alternative chain has
the difficulty that `get_difficulty_for_next_block` returns for `db'`, and the cumulative difficulty
recorded for it is the one that is stored for the next block of `db'`. So it goes on, whatever blocks
follow. -/
theorem altDifficulty_eq_mainDifficulty (db db' : Db) (alt : AltChain db.rows)
    (h : alt.AsMain db'.rows) (idealVersion hfVersion : UInt8) (hideal : 2 ≤ idealVersion)
    (hhf : 2 ≤ hfVersion) (cache : DifficultyCache)
    (hcache : cache.Consistent hfVersion db'.topBlockHash db'.rows) :
    getNextDifficultyForAlternativeChain 0 idealVersion db.rows alt.blocks alt.nextHeight =
      (getDifficultyForNextBlock 0 hfVersion db'.topBlockHash db'.rows cache).map Prod.fst ∧
    (∀ diff, alt.nextCumulativeDifficulty diff = db'.rows.nextCumulativeDifficulty diff) ∧
    ∀ version, (∀ k, db'.height ≤ k → 2 ≤ version k) → ∀ bls : List Block,
      Option.Rel AltChain.AsMain (bls.foldlM (AltChain.record version) alt)
        (bls.foldlM (BlockRows.store version) db'.rows) := by
  refine ⟨?_, h.nextCumulativeDifficulty_eq, fun version hversion => h.recordAll hversion⟩
  rw [h.nextDifficulty_eq hideal hhf, hcache.getDifficultyForNextBlock_eq]

/-- What is evaluated about a chain that forks at height 2. -/
theorem exists_forkedRows {fork n : ℕ}
    (h : Store.okAnd (addBlocks Crypto.transparent (forkedChain 2 fork n) (Db.empty 0)) (fun _ db =>
      db.height == n && decide (db.topBlockHash ≠ default) && (List.range n).all fun k =>
        db.rows.row k == some (UInt64.ofNat (120 * if k < 2 then k else k + fork), k + 1)) = true) :
    ∃ db : Db, db.height = n ∧ db.topBlockHash ≠ default ∧ ∀ k < n, db.rows.row k =
      some (UInt64.ofNat (120 * if k < 2 then k else k + fork), k + 1) := by
  obtain ⟨⟨⟩, db, -, hdb⟩ := Store.exists_of_okAnd h
  simp only [Bool.and_eq_true, beq_iff_eq, decide_eq_true_eq, all_eq_true, mem_range] at hdb
  exact ⟨db, hdb.1.1, hdb.1.2, hdb.2⟩

/-- Chains of three and of four blocks that share two, and the other blocks of the second one as an
alternative chain on the first. -/
theorem altDifficulty_eq_mainDifficulty_top :
    ∃ (db db' : Db) (alt : AltChain db.rows), db.rows.row 2 ≠ db'.rows.row 2 ∧
      alt.blocks.length = 2 ∧ alt.nextHeight = 4 ∧
      getNextDifficultyForAlternativeChain 0 16 db.rows alt.blocks alt.nextHeight =
        (getDifficultyForNextBlock 0 16 db'.topBlockHash db'.rows .start).map Prod.fst := by
  obtain ⟨db, hheight, -, hrow⟩ := @exists_forkedRows 0 3 (by decide +kernel)
  obtain ⟨db', hheight', htop, hrow'⟩ := @exists_forkedRows 20 4 (by decide +kernel)
  let alt : AltChain db.rows :=
    { split := 2
      blocks := ((forkedChain 2 20 4).drop 2).zipIdx.map fun e => ⟨e.1.1, 2 + e.2, 3 + e.2⟩
      split_pos := by decide
      split_le := by
        change 2 ≤ db.height
        omega
      height_eq := by decide +kernel }
  have has : alt.AsMain db'.rows := by
    refine ⟨hheight', fun k hk => ?_, fun k hk => ?_⟩
    · have hk : k < 2 := hk
      rw [hrow k (by omega), hrow' k (by omega), if_pos hk, if_pos hk]
    · obtain rfl | rfl : k = 0 ∨ k = 1 := by simp [alt, forkedChain] at hk; omega
      · exact hrow' 2 (by decide)
      · exact hrow' 3 (by decide)
  refine ⟨db, db', alt, ?_, rfl, alt.nextHeight_eq, (altDifficulty_eq_mainDifficulty db db' alt has 16
    16 (by decide) (by decide) .start (DifficultyCache.consistent_start htop)).1⟩
  rw [hrow 2 (by decide), hrow' 2 (by decide)]
  decide

end Hidering
