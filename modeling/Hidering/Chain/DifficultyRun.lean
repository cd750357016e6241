import Hidering.Chain.Difficulty
import Hidering.Chain.Linked

/-!
# The caches of the difficulty over runs

`get_difficulty_for_next_block` remembers two things: its last result together with the hash of the
top block, and the rows it was computed from together with the height of the chain. The result is
reused for a chain with the same top block; the rows are shifted by one if the chain is one block
higher. Popping a block, inserting an alternative block and switching chains throw the rows away,
but never the result.

The rows are right since every procedure that removes a block throws them away. The result is right
since the hash of the top block stands for the whole chain, and the cumulative difficulty of a block
is itself determined by the blocks below it: it was computed by the same function.

The hard-fork version of the next block is a function of the height (`forkRun_version`).

## Main definitions

* `Hidering.DifficultyStep`, `Hidering.DifficultyRun`
* `Hidering.chainRows` — timestamps and cumulative difficulties of a chain of blocks

## Main results

* `Hidering.difficultyCache_transparent`
-/

namespace Hidering

open Wire Store Crypto List

/-! ### The rows of a chain -/

/-- A list of rows, by height. -/
def BlockRows.ofList (rows : List (UInt64 × ℕ)) : BlockRows where
  height := rows.length
  row h := rows[h]?

/-- The rows that are stored for a chain of blocks, from the first block on; the first element of
the chain is the top block. -/
def chainRows (version : ℕ → UInt8) : List Block → List (UInt64 × ℕ)
  | [] => []
  | b :: l =>
    let rows := chainRows version l
    let diff := ((BlockRows.ofList rows).nextDifficulty (version rows.length)).getD 0
    rows ++ [(b.timestamp, ((BlockRows.ofList rows).nextCumulativeDifficulty diff).getD 0)]

theorem length_chainRows (version : ℕ → UInt8) (l : List Block) :
    (chainRows version l).length = l.length := by
  induction l with
  | nil => rfl
  | cons b l ih => rw [chainRows, length_append, ih]; rfl

/-- The difficulty of the block behind a chain. -/
def chainDifficulty (version : ℕ → UInt8) (l : List Block) : Option ℕ :=
  (BlockRows.ofList (chainRows version l)).nextDifficulty (version l.length)

theorem BlockRows.ofList_range {rows : List (UInt64 × ℕ)} {start : ℕ} (h : start ≤ rows.length) :
    (BlockRows.ofList rows).range start rows.length = some (rows.drop start) := by
  have hrows := @BlockRows.rowsFrom_eq_some (rows.drop start) (BlockRows.ofList rows) start
    fun k hk => by
      rw [length_drop] at hk
      rw [getElem_drop]
      exact getElem?_eq_getElem (by omega)
  rw [length_drop] at hrows
  exact hrows

theorem BlockRows.ofList_window (rows : List (UInt64 × ℕ)) :
    (BlockRows.ofList rows).window = some (rows.drop (windowStart rows.length)) := by
  rcases Nat.lt_or_ge rows.length (windowStart rows.length) with hlt | hle
  · -- an empty chain has no block to start with
    have hnil : (BlockRows.ofList rows).window =
        (BlockRows.ofList rows).rowsFrom (windowStart rows.length) 0 := by
      rw [window, range]
      exact congrArg _ (Nat.sub_eq_zero_of_le hlt.le)
    rw [hnil, drop_eq_nil_of_le hlt.le]
    rfl
  · exact ofList_range hle

/-- The rows of the main chain, as a list. -/
def Db.rowList (db : Db) : List (UInt64 × ℕ) := db.infos.map fun i => (i.timestamp, i.diff)

theorem Built.rows_eq {c : Crypto} {seed : UInt32} {db : Db} (h : Built c seed db) :
    db.rows = BlockRows.ofList db.rowList := by
  rw [Db.rows, BlockRows.ofList, Db.rowList, length_map, h.infos_length]
  congr 1
  funext k
  rw [h.get?_blockInfo, getElem?_map]

/-! ### Runs -/

/-- The members with the rows thrown away. -/
def DifficultyCache.forgetRows (cache : DifficultyCache) : DifficultyCache :=
  { cache with height := 0, reset := true }

/-- `cleanup_handle_incoming_blocks`. -/
def DifficultyCache.settle (cache : DifficultyCache) : DifficultyCache :=
  if cache.reset then { cache with height := 0, reset := false } else cache

/-- What the node does to the main chain and to the remembered values, without a fixed difficulty.
The blocks that occur are those of `B`; `version` gives the hard-fork version of the next block by
the height of the chain. -/
inductive DifficultyStep (c : Crypto) (version : ℕ → UInt8) (B : Set Block) :
    Db × DifficultyCache → Db × DifficultyCache → Prop
  /-- a call of `get_difficulty_for_next_block` -/
  | call {db : Db} {cache cache' : DifficultyCache} {diff : ℕ}
      (h : getDifficultyForNextBlock 0 (version db.height) db.topBlockHash db.rows cache =
        some (diff, cache')) : DifficultyStep c version B (db, cache) (db, cache')
  /-- `handle_block_to_main_chain`, which stores the difficulty that it has asked for -/
  | add {db db' : Db} {cache cache' : DifficultyCache} {diff n : ℕ} {blk : Block}
      {info : BlockMeta} {txs : List (Transaction × Bytes)} (hblk : blk ∈ B)
      (hprev : blk.prevId = db.topBlockHash)
      (hdiff : getDifficultyForNextBlock 0 (version db.height) db.topBlockHash db.rows cache =
        some (diff, cache'))
      (hcum : db.rows.nextCumulativeDifficulty diff = some info.cumulativeDifficulty)
      (hc : CanonicalBlock c blk txs) (h : addBlock c blk info txs db = .ok n db') :
      DifficultyStep c version B (db, cache) (db', cache')
  /-- `pop_block_from_blockchain` -/
  | pop {db db' : Db} {cache : DifficultyCache} {r : Block × List Transaction}
      (h : popBlock c db = .ok r db') :
      DifficultyStep c version B (db, cache) (db', cache.forgetRows)
  /-- `handle_alternative_block`, `switch_to_alternative_blockchain` and
  `rollback_blockchain_switching`, before they do anything else -/
  | alternative {db : Db} {cache : DifficultyCache} :
      DifficultyStep c version B (db, cache) (db, cache.forgetRows)
  | settle {db : Db} {cache : DifficultyCache} :
      DifficultyStep c version B (db, cache) (db, cache.settle)
  /-- a new process over the same database -/
  | restart {db : Db} {cache : DifficultyCache} :
      DifficultyStep c version B (db, cache) (db, .start)

/-- What such steps lead to from an empty database. -/
def DifficultyRun (c : Crypto) (seed : UInt32) (version : ℕ → UInt8) (B : Set Block) :
    Db × DifficultyCache → Prop :=
  Relation.ReflTransGen (DifficultyStep c version B) (Db.empty seed, .start)

namespace DifficultyCache

/-- The remembered rows are those of the chain at the remembered height. -/
def RowsOk (cache : DifficultyCache) (rows : BlockRows) : Prop :=
  cache.height ≠ 0 → cache.height ≤ rows.height ∧
    ∃ w, rows.range (BlockRows.windowStart cache.height) cache.height = some w ∧
      cache.timestamps = w.map Prod.fst ∧ cache.difficulties = w.map Prod.snd

/-- The remembered difficulty is that of the chain whose top block has the remembered hash. -/
def MemoOk (c : Crypto) (version : ℕ → UInt8) (B : Set Block) (cache : DifficultyCache) : Prop :=
  ∃ l, (∀ b ∈ l, b ∈ B) ∧ Linked (hashOf c id) (prevOf id) default l ∧
    cache.topHash = tipHash (hashOf c id) default l ∧
    chainDifficulty version l = some cache.difficulty

/-- A call returns the remembered values, or those of the chain at hand, which it remembers. -/
theorem Consistent.cases {cache cache' : DifficultyCache} {hfVersion : UInt8} {topHash : Hash}
    {rows : BlockRows} {diff : ℕ} (h : cache.Consistent hfVersion topHash rows)
    (hcall : Hidering.getDifficultyForNextBlock 0 hfVersion topHash rows cache =
      some (diff, cache')) :
    cache' = cache ∨ cache'.topHash = topHash ∧
      rows.nextDifficulty hfVersion = some cache'.difficulty ∧ cache'.RowsOk rows := by
  rw [Hidering.getDifficultyForNextBlock, if_neg (fun hne => hne rfl)] at hcall
  split at hcall
  · exact .inl (Prod.mk.inj (Option.some.inj hcall)).2.symm
  · rw [h.select_eq, Option.map_map] at hcall
    obtain ⟨w, hw, heq⟩ := Option.map_eq_some_iff.mp hcall
    obtain ⟨-, rfl⟩ := Prod.mk.inj heq
    refine .inr ⟨rfl, ?_, fun _ => ⟨Nat.le_refl _, w, hw, rfl, rfl⟩⟩
    rw [BlockRows.nextDifficulty, hw]
    rfl

end DifficultyCache

/-- What holds in every state of a run: the chain has the rows that its blocks determine, and what
is remembered is right. -/
structure DifficultyOk (c : Crypto) (seed : UInt32) (version : ℕ → UInt8) (B : Set Block)
    (s : Db × DifficultyCache) (l : List Block) : Prop where
  chained : s.1.Chained c seed id B l
  rows : s.1.rowList = chainRows version l
  kept : s.2.RowsOk s.1.rows
  memo : s.2.MemoOk c version B

section Run

variable {c : Crypto} {seed : UInt32} {version : ℕ → UInt8} {B : Set Block}
  {s s' : Db × DifficultyCache} {db db' : Db} {cache cache' : DifficultyCache} {l : List Block}

/-- The values that the constructor sets belong to the empty chain. -/
theorem DifficultyOk.memoOk_start : DifficultyCache.start.MemoOk c version B :=
  ⟨[], by simp, trivial, rfl, rfl⟩

namespace DifficultyOk

section State

variable (h : DifficultyOk c seed version B (db, cache) l)

include h

theorem rows_eq : db.rows = BlockRows.ofList (chainRows version l) := by
  rw [h.chained.built.rows_eq, h.rows]

theorem nextDifficulty_eq :
    db.rows.nextDifficulty (version db.height) = chainDifficulty version l := by
  rw [h.rows_eq, ← h.chained.height]
  rfl

/-- The rows may be thrown away at any time. -/
theorem forget (hheight : cache'.height = 0) (htop : cache'.topHash = cache.topHash)
    (hdiff : cache'.difficulty = cache.difficulty) :
    DifficultyOk c seed version B (db, cache') l := by
  refine ⟨h.chained, h.rows, fun hne => absurd hheight hne, ?_⟩
  rw [DifficultyCache.MemoOk, htop, hdiff]
  exact h.memo

variable (hB : ToldApart (hashOf c id) default B)

include hB

/-- The remembered values belong to the chain at hand. -/
theorem consistent : cache.Consistent (version db.height) db.topBlockHash db.rows where
  difficulty htop := by
    obtain ⟨l₀, hmem, hlinked, htip, hdiff⟩ := h.memo
    obtain rfl := h.chained.eq_of_topBlockHash hB hmem hlinked (htop.trans htip)
    exact h.nextDifficulty_eq.trans hdiff
  window hext := (h.kept hext.2.1).2

/-- A call leaves right values behind. -/
theorem call {diff : ℕ}
    (hcall : getDifficultyForNextBlock 0 (version db.height) db.topBlockHash db.rows cache =
      some (diff, cache')) : DifficultyOk c seed version B (db, cache') l := by
  rcases (h.consistent hB).cases hcall with rfl | ⟨htop, hdiff, hkept⟩
  · exact h
  · exact ⟨h.chained, h.rows, hkept, l, h.chained.mem, h.chained.linked,
      htop.trans h.chained.topBlockHash, h.nextDifficulty_eq.symm.trans hdiff⟩

/-- The difficulty that a call returns is that of the chain. -/
theorem call_eq {diff : ℕ}
    (hcall : getDifficultyForNextBlock 0 (version db.height) db.topBlockHash db.rows cache =
      some (diff, cache')) : chainDifficulty version l = some diff := by
  rw [← h.nextDifficulty_eq, ← (h.consistent hB).getDifficultyForNextBlock_eq, hcall]
  rfl

end State

/-- **One step.** -/
theorem step (hB : ToldApart (hashOf c id) default B) (h : DifficultyOk c seed version B s l)
    (hstep : DifficultyStep c version B s s') : ∃ l', DifficultyOk c seed version B s' l' := by
  cases hstep with
  | call hcall => exact ⟨l, h.call hB hcall⟩
  | @add db db' cache cache' diff n blk info txs hblk hprev hdiff hcum hc hadd =>
    have hcall := h.call hB hdiff
    obtain ⟨cumRct, hinfos⟩ := addBlock_infos hadd
    have hchained := h.chained.add (b := blk) hblk hprev hc hadd
    have hlist : db'.rowList = db.rowList ++ [(blk.timestamp, info.cumulativeDifficulty)] := by
      rw [Db.rowList, hinfos, map_append]
      rfl
    have hrows : db'.rowList = chainRows version (blk :: l) := by
      have hnext := h.call_eq hB hdiff
      rw [chainDifficulty, ← length_chainRows version l] at hnext
      rw [h.rows_eq] at hcum
      rw [hlist, h.rows, chainRows, hnext, Option.getD_some, hcum, Option.getD_some]
    refine ⟨blk :: l, hchained, hrows, fun hne => ?_, hcall.memo⟩
    -- the rows below the new block are those of before
    obtain ⟨hle, w, hw, hts, hds⟩ := hcall.kept hne
    have hheight : db'.rows.height = db.rows.height + 1 := addBlock_height hadd
    refine ⟨by rw [hheight]; exact hle.trans (Nat.le_succ _), w, ?_, hts, hds⟩
    rw [← hw, hchained.built.rows_eq, h.chained.built.rows_eq]
    refine BlockRows.range_congr fun k _ hk => ?_
    have hlt : k < db.rowList.length := by
      have hlen : db.rows.height = db.rowList.length := by rw [h.chained.built.rows_eq]; rfl
      rw [← hlen]
      exact Nat.lt_of_lt_of_le hk hle
    change db'.rowList[k]? = db.rowList[k]?
    rw [hlist, getElem?_append_left hlt]
  | @pop db db' cache r hpop =>
    obtain ⟨b, l', rfl, hchained, i, hinfos⟩ := h.chained.pop hpop
    have hrows := h.rows
    rw [Db.rowList, hinfos, map_append, chainRows] at hrows
    exact ⟨l', hchained, (append_inj' hrows rfl).1, fun hne => absurd rfl hne, h.memo⟩
  | alternative => exact ⟨l, h.forget rfl rfl rfl⟩
  | @settle db cache =>
    refine ⟨l, ?_⟩
    rw [DifficultyCache.settle]
    split
    · exact h.forget rfl rfl rfl
    · exact h
  | restart => exact ⟨l, h.chained, h.rows, fun hne => absurd rfl hne, memoOk_start⟩

end DifficultyOk

/-- **Runs.** -/
theorem DifficultyRun.ok (hB : ToldApart (hashOf c id) default B)
    (h : DifficultyRun c seed version B s) : ∃ l, DifficultyOk c seed version B s l := by
  induction h with
  | refl => exact ⟨[], .empty, rfl, fun hne => absurd rfl hne, DifficultyOk.memoOk_start⟩
  | tail _ hstep ih =>
    obtain ⟨l, hl⟩ := ih
    exact hl.step hB hstep

/-- The rows of the last `DIFFICULTY_BLOCKS_COUNT` blocks of the main chain, without the first
block. -/
def Db.lastDifficultyInfos (db : Db) : List BlockInfo :=
  db.infos.drop (max 1 (db.height - difficultyBlocksCount))

theorem windowStart_eq_max (height : ℕ) :
    BlockRows.windowStart height = max 1 (height - difficultyBlocksCount) := by
  rw [BlockRows.windowStart]
  split <;> omega

/-- **The difficulty cache is transparent.** Whatever blocks are added and popped, chains switched
and alternative blocks inserted between the calls of `get_difficulty_for_next_block`, each call
returns `next_difficulty` of the timestamps and cumulative difficulties of the last blocks of the
main chain, without the first block. -/
theorem difficultyCache_transparent (hB : ToldApart (hashOf c id) default B)
    (h : DifficultyRun c seed version B (db, cache)) :
    ∃ cache', getDifficultyForNextBlock 0 (version db.height) db.topBlockHash db.rows cache =
      some (nextDifficulty (db.lastDifficultyInfos.map BlockInfo.timestamp)
        (db.lastDifficultyInfos.map BlockInfo.diff)
        (getDifficultyTarget (version db.height)), cache') := by
  obtain ⟨l, hok⟩ := DifficultyRun.ok hB h
  have hcall := (hok.consistent hB).getDifficultyForNextBlock_eq
  have hwindow : db.rows.window =
      some (db.lastDifficultyInfos.map fun i => (i.timestamp, i.diff)) := by
    rw [hok.chained.built.rows_eq, BlockRows.ofList_window, Db.rowList, length_map,
      hok.chained.built.infos_length, windowStart_eq_max, ← map_drop]
    rfl
  have hfst : Prod.fst ∘ (fun i : BlockInfo => (i.timestamp, i.diff)) = BlockInfo.timestamp := rfl
  have hsnd : Prod.snd ∘ (fun i : BlockInfo => (i.timestamp, i.diff)) = BlockInfo.diff := rfl
  rw [BlockRows.nextDifficulty, hwindow, Option.map_some, map_map, map_map, hfst,
    hsnd] at hcall
  obtain ⟨⟨diff, cache'⟩, heq, hdiff⟩ := Option.map_eq_some_iff.mp hcall
  rw [← hdiff]
  exact ⟨cache', heq⟩

end Run

/-- Two blocks of a private chain, of which the second one is popped. -/
theorem difficultyCache_transparent_popped :
    ∃ db cache cache', DifficultyRun transparent 0 privateHardForks.versionAt
        {b | b ∈ [soloBlock 1 0, soloBlock 16 1]} (db, cache) ∧ db.height = 1 ∧
      getDifficultyForNextBlock 0 16 db.topBlockHash db.rows cache = some (1, cache') := by
  have hB : ToldApart (hashOf transparent id) default
      {b | b ∈ [soloBlock 1 0, soloBlock 16 1]} :=
    toldApart_list (by decide +kernel) (by decide +kernel)
  obtain ⟨n₁, db₁, h₁, hdb₁⟩ := exists_of_okAnd
    (r := addBlock transparent (soloBlock 1 0) ⟨0, 0, 1, 0⟩ [] (Db.empty 0))
    (p := fun _ db => decide ((soloBlock 16 1).prevId = db.topBlockHash) &&
      decide ((getDifficultyForNextBlock 0 16 db.topBlockHash db.rows .start).map Prod.fst =
        some 1) && decide (db.rows.nextCumulativeDifficulty 1 = some 2) &&
      okAnd (addBlock transparent (soloBlock 16 1) ⟨0, 0, 2, 0⟩ [] db)
        (fun _ db' => okAnd (popBlock transparent db') fun _ db'' =>
          decide (db''.height = 1) && decide (db''.lastDifficultyInfos.length = 0)))
    (by decide +kernel)
  simp only [Bool.and_eq_true, decide_eq_true_eq] at hdb₁
  obtain ⟨⟨⟨hprev, hcall⟩, hcum⟩, hrest⟩ := hdb₁
  obtain ⟨⟨_, cache₁⟩, hcall, rfl⟩ := Option.map_eq_some_iff.mp hcall
  obtain ⟨n₂, db₂, h₂, hrest⟩ := exists_of_okAnd hrest
  obtain ⟨r, db₃, h₃, hrest⟩ := exists_of_okAnd hrest
  simp only [Bool.and_eq_true, decide_eq_true_eq] at hrest
  obtain ⟨hheight, hlast⟩ := hrest
  have hone : db₁.height = 1 := addBlock_height h₁
  have hversion : privateHardForks.versionAt 1 = 16 := rfl
  have hfirst : DifficultyRun transparent 0 privateHardForks.versionAt
      {b | b ∈ [soloBlock 1 0, soloBlock 16 1]} (db₁, .start) :=
    .tail .refl (.add (by simp) rfl rfl rfl (.of_parse (by decide +kernel)) h₁)
  have hsecond := hfirst.tail (.add (by simp) hprev (by rw [hone, hversion]; exact hcall) hcum
    (.of_parse (by decide +kernel)) h₂)
  have hthird := hsecond.tail (.pop h₃)
  obtain ⟨cache', heq⟩ := difficultyCache_transparent hB hthird
  rw [length_eq_zero_iff.mp hlast, hheight, hversion] at heq
  exact ⟨db₃, _, cache', hthird, hheight, heq⟩

end Hidering
