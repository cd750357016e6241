import Hidering.Chain.HardFork
import Hidering.Db.Invariant

/-!
# The hard-fork version over runs

The index of the current fork is kept by five procedures: `add` moves it up, `on_block_popped` sets
it, `reorganize_from_chain_height` moves it down and up again through the stored blocks, and `init`
finds it again in the database. Whatever the order in which the blockchain calls them, the current
fork is the last one whose height the chain has reached (`forkRun_version`).

Two facts are carried along a run besides `Follows`: the stored blocks have the versions of the
table, since `add` goes through them again and skips a block that fails the check; and the original
version is 1, below every fork but the first, so that a reorganisation from the first block starts
at the first row.

## Main definitions

* `Hidering.ForkStep`, `Hidering.ForkRun` — the calls that the blockchain makes
* `Hidering.HardFork.Stored` — the stored blocks have the versions of the table

## Main results

* `Hidering.ForkTable.lastRowAt_eq` — the row in force, as a search from the end of the table
* `Hidering.HardFork.Stored.reorganizeFromChainHeight`, `Stored.init`
* `Hidering.forkRun_version`
-/

namespace Hidering

open Wire Store Crypto List

/-! ### Tables built by `add_fork` -/

/-- Rows that `add_fork` has accepted have a version. -/
theorem addFork_version {rows rows' : List HardforkRow} {r : HardforkRow}
    (h : addFork rows r = some rows') : rows' = rows ++ [r] ∧ r.version ≠ 0 := by
  rw [addFork] at h
  split_ifs at h with h0
  exact ⟨(Option.some.inj h).symm, h0⟩

theorem addForks_version {calls rows rows' : List HardforkRow}
    (h : calls.foldlM addFork rows = some rows') (hrows : ∀ r ∈ rows, r.version ≠ 0) :
    ∀ r ∈ rows', r.version ≠ 0 := by
  induction calls generalizing rows with
  | nil =>
    obtain rfl := Option.some.inj h
    exact hrows
  | cons r calls ih =>
    rw [foldlM_cons] at h
    obtain ⟨rows₁, hadd, hrest⟩ := Option.bind_eq_some_iff.mp h
    obtain ⟨rfl, hr⟩ := addFork_version hadd
    refine ih hrest fun r' hr' => ?_
    rcases mem_append.mp hr' with hr' | hr'
    · exact hrows r' hr'
    · rw [mem_singleton.mp hr']
      exact hr

namespace ForkTable

variable {t : ForkTable} {height : ℕ}

/-- The row in force is the first one that a search from the end of the table finds. -/
theorem lastRowAt_eq (ht : t.ByHeight) (height : ℕ) :
    t.lastRowAt height = some (t.row (t.indexAt height)) := by
  have hlt := t.indexAt_lt height
  have hrow : t.rows[t.indexAt height] = t.row (t.indexAt height) := by
    rw [row, getD_eq_getElem _ _ hlt]
  have hrows : t.rows.reverse = (t.rows.drop (t.indexAt height + 1)).reverse ++
      t.row (t.indexAt height) :: (t.rows.take (t.indexAt height)).reverse := by
    have hsplit : t.rows = t.rows.take (t.indexAt height) ++
        t.row (t.indexAt height) :: t.rows.drop (t.indexAt height + 1) := by
      rw [← hrow, ← drop_eq_getElem_cons hlt, take_append_drop]
    conv_lhs => rw [hsplit]
    rw [reverse_append, reverse_cons, append_assoc]
    rfl
  rw [lastRowAt, find?_eq_some_iff_append]
  refine ⟨decide_eq_true ((le_indexAt_iff ht.2 hlt).mp (Nat.le_refl _)), _, _, hrows, ?_⟩
  intro r hr
  obtain ⟨j, hj, rfl⟩ := mem_iff_getElem.mp (mem_reverse.mp hr)
  rw [length_drop] at hj
  have hj' : t.indexAt height + 1 + j < t.rows.length := by omega
  have hnot : ¬ (t.row (t.indexAt height + 1 + j)).height ≤ height :=
    mt (le_indexAt_iff ht.2 hj').mpr (by omega)
  rw [row, getD_eq_getElem _ _ hj'] at hnot
  rw [getElem_drop]
  simpa using hnot

/-- A row whose version is not above that of another one does not come after it. -/
theorem le_of_version_le {m n : ℕ} (hm : m < t.rows.length)
    (h : (t.row m).version ≤ (t.row n).version) : m ≤ n := by
  by_contra hlt
  exact absurd (row_lt (Nat.lt_of_not_le hlt) hm).1 (UInt8.not_lt.mpr h)

theorem indexOfVersion_le {n : ℕ} (hn : n < t.rows.length) :
    t.indexOfVersion (t.row n).version ≤ n := by
  have hfind : t.rows.findIdx (fun r => r.version == (t.row n).version) ≤ n := by
    by_contra hlt
    have hrow : t.rows[n] = t.row n := by rw [row, getD_eq_getElem _ _ hn]
    have hdiffer := not_of_lt_findIdx (Nat.lt_of_not_le hlt)
    simp [hrow] at hdiffer
  exact (Nat.min_le_left _ _).trans hfind

end ForkTable

/-! ### Going through the stored blocks -/

namespace HardFork

variable {hf : HardFork} {db : Db}

/-- The version of a stored block is recorded, is the one that its height asks for, and the block
votes for it or for a later one. -/
structure Stored (hf : HardFork) (db : Db) : Prop where
  byHeight : hf.heights.ByHeight
  versions : ∀ r ∈ hf.heights.rows, r.version ≠ 0
  original : hf.originalVersion = 1
  index : hf.currentForkIndex < hf.heights.rows.length
  recorded : ∀ k < db.height, hf.hfVersions k = some (hf.heights.versionAt k)
  blocks : ∀ k < db.height, ∃ b, db.getBlockFromHeight k = some b ∧
    b.majorVersion = hf.heights.versionAt k ∧ hf.heights.versionAt k ≤ getBlockVote b

/-- The rules that no call changes. -/
def SameRules (hf hf' : HardFork) : Prop :=
  hf'.heights = hf.heights ∧ hf'.originalVersion = hf.originalVersion

theorem SameRules.trans {hf' hf'' : HardFork} (h : hf.SameRules hf') (h' : hf'.SameRules hf'') :
    hf.SameRules hf'' := ⟨h'.1.trans h.1, h'.2.trans h.2⟩

theorem sameRules_add (hf : HardFork) (b : Block) (height : ℕ) :
    hf.SameRules (hf.add b height) := by
  rw [HardFork.add]
  split <;> exact ⟨rfl, rfl⟩

/-- A state that follows the height of a chain whose blocks were stored. -/
theorem Stored.next {hf' : HardFork} (h : hf.Stored db) (hrules : hf.SameRules hf')
    (hf'follows : hf'.Follows db.height) : hf'.Stored db where
  byHeight := hf'follows.byHeight
  versions := by rw [hrules.1]; exact h.versions
  original := hrules.2.trans h.original
  index := by rw [hf'follows.index]; exact ForkTable.indexAt_lt _ _
  recorded := hf'follows.recorded
  blocks := by rw [hrules.1]; exact h.blocks

theorem Stored.check {height : ℕ} {b : Block} (hfollows : hf.Follows height)
    (hmajor : b.majorVersion = hf.heights.versionAt height)
    (hvote : hf.heights.versionAt height ≤ getBlockVote b) : hf.check b = true := by
  rw [HardFork.check, doCheck, hfollows.getCurrentVersion, hmajor, Bool.and_eq_true_iff]
  exact ⟨beq_self_eq_true _, decide_eq_true hvote⟩

/-- Adding stored blocks again moves the fork on with the height: each of them passes the check. -/
theorem Follows.addAgain {h n : ℕ} (hfollows : hf.Follows h)
    (hblocks : ∀ k, h ≤ k → k < h + n → ∃ b, db.getBlockFromHeight k = some b ∧
      b.majorVersion = hf.heights.versionAt k ∧ hf.heights.versionAt k ≤ getBlockVote b) :
    ∃ hf', HardFork.addAgain db h n hf = some hf' ∧ hf.SameRules hf' ∧ hf'.Follows (h + n) := by
  induction n generalizing h hf with
  | zero => exact ⟨hf, rfl, ⟨rfl, rfl⟩, hfollows⟩
  | succ n ih =>
    obtain ⟨b, hb, hmajor, hvote⟩ := hblocks h (Nat.le_refl _) (by omega)
    have hadd := hfollows.add (Stored.check hfollows hmajor hvote)
    have hrules := sameRules_add hf b h
    obtain ⟨hf', heq, hrules', hfollows'⟩ := ih hadd (by
      rw [hrules.1]
      exact fun k hk hk' => hblocks k (by omega) (by omega))
    refine ⟨hf', ?_, hrules.trans hrules', ?_⟩
    · rw [HardFork.addAgain, hb]
      exact heq
    · rw [show h + (n + 1) = h + 1 + n by omega]
      exact hfollows'

/-- The loop that goes back ends at the first row or at one whose version is not above the given
one. -/
theorem goBack_version (hf : HardFork) (v : UInt8) (n : ℕ) :
    hf.goBack v n = 0 ∨ (hf.heights.row (hf.goBack v n)).version ≤ v := by
  induction n with
  | zero => exact .inl rfl
  | succ n ih =>
    rw [goBack]
    split
    · exact ih
    · next hle => exact .inr (UInt8.not_lt.mp hle)

/-- Going back from the block at height `k` ends at or below the row in force for that block. -/
theorem Stored.goBack_le_indexAt {k : ℕ} (h : hf.Stored db) (hk : k < db.height) :
    ∃ v, hf.startVersion k = some v ∧ hf.goBack v hf.currentForkIndex ≤ hf.heights.indexAt k := by
  have hlt := (hf.goBack_le · hf.currentForkIndex |>.trans_lt h.index)
  rw [startVersion]
  split
  · -- at the first block the version is the original one, which is below every later fork
    refine ⟨_, rfl, ?_⟩
    rw [h.original]
    rcases hf.goBack_version 1 hf.currentForkIndex with h0 | hle
    · rw [h0]
      exact Nat.zero_le _
    · by_contra hpos
      have hfirst := h.versions _ (ForkTable.row_mem (hlt 1 |> (Nat.zero_le _).trans_lt))
      have hrow := (ForkTable.row_lt (show 0 < hf.goBack 1 hf.currentForkIndex by omega) (hlt 1)).1
      have := UInt8.lt_of_lt_of_le hrow hle
      rw [UInt8.lt_iff_toNat_lt] at this
      exact hfirst (UInt8.toNat_inj.mp (Nat.lt_one_iff.mp this))
  · refine ⟨_, h.recorded k hk, ?_⟩
    rcases hf.goBack_version (hf.heights.versionAt k) hf.currentForkIndex with h0 | hle
    · rw [h0]
      exact Nat.zero_le _
    · exact ForkTable.le_of_version_le (hlt _) hle

/-- **Going through the blocks again from any height on** leaves the fork where the height of the
chain puts it. -/
theorem Stored.reorganizeFromBlockHeight {k : ℕ} (h : hf.Stored db) (hk : k < db.height) :
    ∃ hf', hf.reorganizeFromBlockHeight db k = some hf' ∧ hf.SameRules hf' ∧
      hf'.Follows db.height := by
  obtain ⟨v, hv, hle⟩ := h.goBack_le_indexAt hk
  obtain ⟨votes, hvotes⟩ := @votesFrom_isSome hf db (k + 1 - hf.windowSize)
    (k + 1 - (k + 1 - hf.windowSize)) (fun j hj => by
      obtain ⟨b, hb, -⟩ := h.blocks j (by omega)
      rw [hb]
      rfl)
  have hfollows : (moveOn { hf with
      versions := votes, currentForkIndex := hf.goBack v hf.currentForkIndex } (k + 1)).Follows
        (k + 1) :=
    Follows.of_moveOn h.byHeight (hle.trans (ForkTable.indexAt_mono h.byHeight.2 (Nat.le_succ k)))
      fun j hj => h.recorded j (by omega)
  obtain ⟨hf', heq, hrules, hfollows'⟩ :=
    @Follows.addAgain _ db _ (db.height - (k + 1)) hfollows (fun j _ hj' => h.blocks j (by omega))
  rw [show k + 1 + (db.height - (k + 1)) = db.height by omega] at hfollows'
  refine ⟨hf', ?_, hrules, hfollows'⟩
  rw [HardFork.reorganizeFromBlockHeight, if_neg (Nat.not_le.mpr hk)]
  simp only [Option.bind_eq_bind, Option.bind_some, hv, hvotes]
  exact heq

/-- A reorganisation at the height of the chain finds the fork again, wherever it was before. -/
theorem Stored.reorganize_top (h : hf.Stored db) (hpos : 0 < db.height) :
    ∃ hf', hf.reorganizeFromChainHeight db db.height = some hf' ∧ hf.SameRules hf' ∧
      hf'.Follows db.height := by
  rw [HardFork.reorganizeFromChainHeight, if_neg hpos.ne']
  exact h.reorganizeFromBlockHeight (Nat.sub_lt hpos Nat.one_pos)

/-- A reorganisation at any height keeps the fork where the height of the chain puts it. -/
theorem Stored.reorganizeFromChainHeight (h : hf.Stored db) (hfollows : hf.Follows db.height)
    (k : ℕ) : ∃ hf', hf.reorganizeFromChainHeight db k = some hf' ∧ hf.SameRules hf' ∧
      hf'.Follows db.height := by
  rw [HardFork.reorganizeFromChainHeight]
  split
  · exact ⟨hf, rfl, ⟨rfl, rfl⟩, hfollows⟩
  · rcases Nat.lt_or_ge (k - 1) db.height with hk | hk
    · exact h.reorganizeFromBlockHeight hk
    · rw [HardFork.reorganizeFromBlockHeight, if_pos hk]
      exact ⟨hf, rfl, ⟨rfl, rfl⟩, hfollows⟩

/-- **`init` finds the fork of the chain in the database.** -/
theorem Stored.init (h : hf.Stored db) :
    ∃ hf', hf.init db = some hf' ∧ hf.SameRules hf' ∧ hf'.Follows db.height := by
  obtain ⟨k, hk, hinit⟩ : ∃ k, (db.height = 0 ∨ k < db.height) ∧ hf.init db =
      rescanFromBlockHeight { hf with versions := [], currentForkIndex := 0 } db k := by
    refine ⟨(if hf.windowSize < db.height then db.height - (hf.windowSize - 1) else 1) - 1,
      by split <;> omega, ?_⟩
    rw [HardFork.init, rescanFromChainHeight, if_neg (by split <;> omega)]
  rw [hinit, rescanFromBlockHeight]
  split
  · next hempty =>
    have h0 : db.height = 0 := by omega
    refine ⟨_, rfl, ⟨rfl, rfl⟩, h.byHeight, ?_, h.recorded⟩
    rw [h0]
    exact (ForkTable.indexAt_zero h.byHeight).symm
  · next hlt =>
    obtain ⟨votes, hvotes⟩ := @votesFrom_isSome
      { hf with versions := [], currentForkIndex := 0 } db k (db.height - k) (fun j hj => by
        obtain ⟨b, hb, -⟩ := h.blocks j (by omega)
        rw [hb]
        rfl)
    have hlast := h.recorded (db.height - 1) (by omega)
    refine ⟨moveOn { hf with
      versions := votes
      currentForkIndex :=
        hf.heights.indexOfVersion (hf.heights.versionAt (db.height - 1)) } db.height,
      ?_, ⟨rfl, rfl⟩, ?_⟩
    · simp only [Option.bind_eq_bind, Option.bind_some, hvotes, hlast]
    · refine Follows.of_moveOn h.byHeight ?_ h.recorded
      exact (ForkTable.indexOfVersion_le (ForkTable.indexAt_lt _ _)).trans
        (ForkTable.indexAt_mono h.byHeight.2 (Nat.sub_le _ _))

end HardFork

/-! ### Runs -/

section Blocks

variable {c : Crypto} {seed : UInt32} {db db' : Db} {blk : Block} {info : BlockMeta}
  {txs : List (Transaction × Bytes)} {n : ℕ}

/-- The blocks below a new one are those of before, and the new one is read back as it was. -/
theorem addBlock_getBlockFromHeight (hc : CanonicalBlock c blk txs)
    (h : addBlock c blk info txs db = .ok n db') :
    db'.getBlockFromHeight db.height = some blk ∧
      ∀ k < db.height, db'.getBlockFromHeight k = db.getBlockFromHeight k := by
  obtain ⟨⟨blob, hblob, hblocks⟩, -⟩ := addBlock_blocks h
  constructor
  · rw [Db.getBlockFromHeight, Table.get?_append_self hblocks]
    exact hc.parsed blob hblob
  · intro k hk
    rw [Db.getBlockFromHeight, Db.getBlockFromHeight, Table.get?_append_ne hblocks hk.ne]

/-- What a successful call of `pop_block` leaves is a chain from which the popped one was built. -/
theorem Built.popBlock {r : Block × List Transaction} (hdb : Built c seed db)
    (h : popBlock c db = .ok r db') : Built c seed db' ∧ db.height = db'.height + 1 ∧
      ∀ k < db'.height, db.getBlockFromHeight k = db'.getBlockFromHeight k := by
  cases hdb with
  | empty => exact absurd h popBlock_empty
  | add hbelow hc hadd =>
    rw [popBlock_addBlock hc.parsed hc.txs hbelow.wf.tip hadd] at h
    cases h
    exact ⟨hbelow, addBlock_height hadd, (addBlock_getBlockFromHeight hc hadd).2⟩

end Blocks

/-- A successful call of `m_db->pop_block`. -/
def Popped (c : Crypto) (db db' : Db) : Prop := ∃ r, popBlock c db = .ok r db'

/-- The calls of the fork state that the blockchain makes, each with what it does to the database
before it. -/
inductive ForkStep (c : Crypto) (seed : UInt32) : Db × HardFork → Db × HardFork → Prop
  /-- `handle_block_to_main_chain` checks the block, `BlockchainDB::add_block` stores it and calls
  `add`. -/
  | add {db db' : Db} {hf : HardFork} {blk : Block} {info : BlockMeta}
      {txs : List (Transaction × Bytes)} {n : ℕ} (hcheck : hf.check blk = true)
      (hc : CanonicalBlock c blk txs) (h : addBlock c blk info txs db = .ok n db') :
      ForkStep c seed (db, hf) (db', hf.add blk db.height)
  /-- `pop_block_from_blockchain`, which keeps the first block. -/
  | pop {db db' : Db} {hf hf' : HardFork} (hheight : 1 < db.height) (h : Popped c db db')
      (hpop : hf.onBlockPopped db'.height 1 = some hf') : ForkStep c seed (db, hf) (db', hf')
  /-- `rollback_blockchain_switching` and `switch_to_alternative_blockchain`. -/
  | reorganize {db : Db} {hf hf' : HardFork} {k : ℕ}
      (h : hf.reorganizeFromChainHeight db k = some hf') : ForkStep c seed (db, hf) (db, hf')
  /-- `Blockchain::init` pops blocks from the database alone and then reorganizes at the height of
  what is left. -/
  | unwind {db db' : Db} {hf hf' : HardFork} (hpops : Relation.ReflTransGen (Popped c) db db')
      (hpos : 0 < db'.height) (h : hf.reorganizeFromChainHeight db' db'.height = some hf') :
      ForkStep c seed (db, hf) (db', hf')
  /-- `Blockchain::init`, on the database as it was left. -/
  | init {db : Db} {hf hf' : HardFork} (h : hf.init db = some hf') :
      ForkStep c seed (db, hf) (db, hf')
  /-- `reset_and_set_genesis_block`, up to the call of `init`. -/
  | reset {db : Db} {hf hf' : HardFork}
      (h : HardFork.init { hf with hfVersions := fun _ => none } (Db.empty seed) = some hf') :
      ForkStep c seed (db, hf) (Db.empty seed, hf')

/-- What calls lead to from a new object over an empty database. The blockchain takes 1 for the
original version. -/
def ForkRun (c : Crypto) (seed : UInt32) (t : ForkTable) (windowSize : ℕ) : Db × HardFork → Prop :=
  Relation.ReflTransGen (ForkStep c seed) (Db.empty seed, HardFork.start t windowSize 1)

/-- What holds after every call. -/
structure ForkOk (c : Crypto) (seed : UInt32) (t : ForkTable) (s : Db × HardFork) : Prop where
  built : Built c seed s.1
  table : s.2.heights = t
  follows : s.2.Follows s.1.height
  stored : s.2.Stored s.1

section Run

variable {c : Crypto} {seed : UInt32} {t : ForkTable} {windowSize : ℕ} {s s' : Db × HardFork}
  {db db' : Db} {hf hf' : HardFork}

theorem HardFork.stored_empty {hf : HardFork} (ht : hf.heights.ByHeight)
    (hversions : ∀ r ∈ hf.heights.rows, r.version ≠ 0) (hone : hf.originalVersion = 1)
    (hindex : hf.currentForkIndex < hf.heights.rows.length) : hf.Stored (Db.empty seed) where
  byHeight := ht
  versions := hversions
  original := hone
  index := hindex
  recorded := fun _ hk => absurd hk (Nat.not_lt_zero _)
  blocks := fun _ hk => absurd hk (Nat.not_lt_zero _)

/-- A call that keeps the rules and puts the fork where the height asks for it. -/
theorem ForkOk.next (h : ForkOk c seed t (db, hf)) (hbuilt : Built c seed db')
    (hstored : hf.Stored db') (hrules : hf.SameRules hf') (hfollows : hf'.Follows db'.height) :
    ForkOk c seed t (db', hf') :=
  ⟨hbuilt, hrules.1.trans h.table, hfollows, hstored.next hrules hfollows⟩

/-- Blocks popped from the database leave stored blocks. -/
theorem HardFork.Stored.popped (hpops : Relation.ReflTransGen (Popped c) db db')
    (hbuilt : Built c seed db) (h : hf.Stored db) : Built c seed db' ∧ hf.Stored db' := by
  induction hpops with
  | refl => exact ⟨hbuilt, h⟩
  | tail _ hpop ih =>
    obtain ⟨r, hr⟩ := hpop
    obtain ⟨hbuilt₁, h₁⟩ := ih
    obtain ⟨hbuilt₂, hheight, hblocks⟩ := hbuilt₁.popBlock hr
    refine ⟨hbuilt₂, h₁.byHeight, h₁.versions, h₁.original, h₁.index,
      fun k hk => h₁.recorded k (by omega), fun k hk => ?_⟩
    rw [← hblocks k hk]
    exact h₁.blocks k (by omega)

/-- **One call.** -/
theorem ForkOk.step (h : ForkOk c seed t s) (hstep : ForkStep c seed s s') :
    ForkOk c seed t s' := by
  cases hstep with
  | @add db db' hf blk info txs n hcheck hc hadd =>
    have hheight := addBlock_height hadd
    obtain ⟨hnew, hbelow⟩ := addBlock_getBlockFromHeight hc hadd
    have hfollows := h.follows.add hcheck
    have hrules := hf.sameRules_add blk db.height
    rw [HardFork.check, HardFork.doCheck, h.follows.getCurrentVersion,
      Bool.and_eq_true_iff] at hcheck
    rw [← hheight] at hfollows
    refine ⟨h.built.add hc hadd, hrules.1.trans h.table, hfollows, hfollows.byHeight, ?_,
      hrules.2.trans h.stored.original, ?_, hfollows.recorded, ?_⟩
    · rw [hrules.1]
      exact h.stored.versions
    · rw [hfollows.index]
      exact ForkTable.indexAt_lt _ _
    · intro k hk
      rw [hrules.1]
      rcases Nat.lt_succ_iff_lt_or_eq.mp (hheight ▸ hk) with hlt | rfl
      · rw [hbelow k hlt]
        exact h.stored.blocks k hlt
      · exact ⟨blk, hnew, beq_iff_eq.mp hcheck.1, of_decide_eq_true hcheck.2⟩
  | @pop db db' hf hf' _ hpop hback =>
    obtain ⟨hbuilt, hstored⟩ := h.stored.popped (.single hpop) h.built
    obtain ⟨r, hr⟩ := hpop
    obtain ⟨-, hheight, -⟩ := h.built.popBlock hr
    have hold := h.follows
    rw [hheight] at hold
    obtain ⟨hf₁, hback₁, hheights, hfollows⟩ := hold.onBlockPopped
    obtain rfl := Option.some.inj (hback.symm.trans hback₁)
    have horiginal : hf'.originalVersion = hf.originalVersion := by
      obtain ⟨votes, -, hback⟩ := Option.bind_eq_some_iff.mp hback
      rw [← Option.some.inj hback]
    exact h.next hbuilt hstored ⟨hheights, horiginal⟩ hfollows
  | @reorganize db hf hf' k hcall =>
    obtain ⟨hf₁, heq, hrules, hfollows⟩ := h.stored.reorganizeFromChainHeight h.follows k
    obtain rfl := Option.some.inj (hcall.symm.trans heq)
    exact h.next h.built h.stored hrules hfollows
  | @unwind db db' hf hf' hpops hpos hcall =>
    obtain ⟨hbuilt, hstored⟩ := h.stored.popped hpops h.built
    obtain ⟨hf₁, heq, hrules, hfollows⟩ := hstored.reorganize_top hpos
    obtain rfl := Option.some.inj (hcall.symm.trans heq)
    exact h.next hbuilt hstored hrules hfollows
  | @init db hf hf' hcall =>
    obtain ⟨hf₁, heq, hrules, hfollows⟩ := h.stored.init
    obtain rfl := Option.some.inj (hcall.symm.trans heq)
    exact h.next h.built h.stored hrules hfollows
  | @reset db hf hf' hcall =>
    have hempty : HardFork.Stored { hf with hfVersions := fun _ => none } (Db.empty seed) :=
      HardFork.stored_empty h.stored.byHeight h.stored.versions h.stored.original h.stored.index
    obtain ⟨hf₁, heq, hrules, hfollows⟩ := hempty.init
    obtain rfl := Option.some.inj (hcall.symm.trans heq)
    exact ⟨.empty, hrules.1.trans h.table, hfollows, hempty.next hrules hfollows⟩

/-- **Runs.** -/
theorem ForkRun.ok (ht : t.ByHeight) (hversions : ∀ r ∈ t.rows, r.version ≠ 0)
    (h : ForkRun c seed t windowSize s) : ForkOk c seed t s := by
  induction h with
  | refl =>
    exact ⟨.empty, rfl, HardFork.Follows.start ht windowSize 1,
      HardFork.stored_empty ht hversions rfl (length_pos_iff.mpr t.ne_nil)⟩
  | tail _ hstep ih => exact ih.step hstep

/-- **The hard-fork version follows the height.** After any sequence of calls on a table that
`add_fork` has accepted, without thresholds and with its first row at height 0: the current version
is that of the last row whose height the chain has reached; a block that passes the check has the
version of the row for its own height, and so has every block of the chain; and every call that the
blockchain can make next returns. -/
theorem forkRun_version {calls : List HardforkRow} (hcalls : calls.foldlM addFork [] = some t.rows)
    (hthreshold : ∀ r ∈ t.rows, r.threshold = 0) (hfirst : (t.row 0).height = 0)
    (h : ForkRun c seed t windowSize (db, hf)) :
    (t.lastRowAt db.height).map HardforkRow.version = some hf.getCurrentVersion ∧
      (∀ b, hf.check b = true →
        (t.lastRowAt db.height).map HardforkRow.version = some b.majorVersion) ∧
      (∀ k < db.height, ∃ b, db.getBlockFromHeight k = some b ∧
        (t.lastRowAt k).map HardforkRow.version = some b.majorVersion) ∧
      (hf.init db).isSome ∧ (∀ k, (hf.reorganizeFromChainHeight db k).isSome) ∧
      ∀ db', Popped c db db' → (hf.onBlockPopped db'.height 1).isSome := by
  have ht : t.ByHeight := ⟨hthreshold, hfirst⟩
  have hok := ForkRun.ok ht (addForks_version hcalls (by simp)) h
  have htable : hf.heights = t := hok.table
  have hrow : ∀ k, (t.lastRowAt k).map HardforkRow.version = some (hf.heights.versionAt k) := by
    intro k
    rw [ForkTable.lastRowAt_eq ht, htable]
    rfl
  have hcurrent := hok.follows.getCurrentVersion
  refine ⟨(hrow _).trans (congrArg some hcurrent.symm), ?_, ?_, ?_, ?_, ?_⟩
  · intro b hb
    rw [HardFork.check, HardFork.doCheck, Bool.and_eq_true_iff, beq_iff_eq] at hb
    rw [hrow, hb.1, hcurrent]
  · intro k hk
    obtain ⟨b, hb, hmajor, -⟩ := hok.stored.blocks k hk
    exact ⟨b, hb, (hrow k).trans (congrArg some hmajor.symm)⟩
  · obtain ⟨hf', heq, -⟩ := hok.stored.init
    exact Option.isSome_of_eq_some heq
  · intro k
    obtain ⟨hf', heq, -⟩ := hok.stored.reorganizeFromChainHeight hok.follows k
    exact Option.isSome_of_eq_some heq
  · rintro db' ⟨r, hr⟩
    obtain ⟨-, hheight, -⟩ := hok.built.popBlock hr
    have hold := hok.follows
    rw [hheight] at hold
    obtain ⟨hf', heq, -⟩ := hold.onBlockPopped
    exact Option.isSome_of_eq_some heq

end Run

/-- Two blocks of a private chain, and the calls of a reorganisation from the second one on. -/
theorem forkRun_version_private :
    ∃ db hf, ForkRun transparent 0 privateHardForks 10080 (db, hf) ∧ db.height = 2 ∧
      (privateHardForks.lastRowAt db.height).map HardforkRow.version =
        some hf.getCurrentVersion := by
  obtain ⟨⟨⟩, db₂, hchain, hheight⟩ := exists_of_okAnd
    (r := addBlocks transparent (soloChain [1, 16]) (Db.empty 0))
    (p := fun _ db => decide (db.height = 2)) (by decide +kernel)
  obtain ⟨n₁, db₁, h₁, hrest⟩ := bind_ok.mp hchain
  obtain ⟨n₂, db₂', h₂, hrest⟩ := bind_ok.mp hrest
  obtain ⟨-, rfl⟩ := pure_ok.mp hrest
  have hone : db₁.height = 1 := addBlock_height h₁
  have hfirst : ForkRun transparent 0 privateHardForks 10080
      (db₁, (HardFork.start privateHardForks 10080 1).add (soloBlock 1 0) 0) :=
    .tail .refl (.add (by decide +kernel) (.of_parse (by decide +kernel)) h₁)
  have hsecond := hfirst.tail (.add (by decide +kernel) (.of_parse (by decide +kernel)) h₂)
  obtain ⟨ht, hversions⟩ : privateHardForks.ByHeight ∧
      ∀ r ∈ privateHardForks.rows, r.version ≠ 0 := by
    refine ⟨⟨?_, rfl⟩, ?_⟩ <;> decide
  have hok := ForkRun.ok ht hversions hsecond
  obtain ⟨hf, hcall, -⟩ := hok.stored.reorganizeFromChainHeight hok.follows 1
  have hrun := hsecond.tail (.reorganize hcall)
  exact ⟨db₂', hf, hrun, of_decide_eq_true hheight,
    (forkRun_version (show privateHardForks.rows.foldlM addFork [] = some _ from rfl)
      ht.1 ht.2 hrun).1⟩

end Hidering
