import Hidering.Db.BlockchainDb
import Mathlib.Data.List.GetD

/-!
# The hard-fork state machine

`cryptonote_basic/hardfork.cpp`: a table of forks, a window of votes, and the index of the fork
that the next block belongs to. A block is checked against the current fork (`check`), moves the
state on (`add`), and is taken back by `onBlockPopped` and `reorganizeFromChainHeight`.

The histogram `last_versions` of the source counts the entries of the queue `versions`; here it is
computed from the queue. The table `hf_versions` of the database is part of the state.

All fork tables of the repository have threshold 0, so that votes never hold a fork back. The
current fork is then the last one whose height is not above the height of the chain
(`HardFork.Follows`), whatever was added and popped before.

## Main definitions

* `Hidering.ForkTable`, `Hidering.HardFork`
* `Hidering.HardFork.check`, `add`, `onBlockPopped`, `reorganizeFromChainHeight`
* `Hidering.HardFork.Follows`

## Main results

* `Hidering.HardFork.Follows.add`, `Follows.onBlockPopped`
-/

namespace Hidering

open Wire Store

/-! ### Fork tables -/

/-- `hardfork_t`. -/
structure HardforkRow where
  version : UInt8
  height : ℕ
  /-- percentage of votes -/
  threshold : ℕ
  time : ℕ
deriving DecidableEq, Inhabited

/-- A fork table as `add_fork` builds it: versions, heights and times increase from row to row. -/
structure ForkTable where
  rows : List HardforkRow
  ne_nil : rows ≠ []
  increasing : rows.Pairwise fun a b =>
    a.version < b.version ∧ a.height < b.height ∧ a.time < b.time
  threshold_le : ∀ r ∈ rows, r.threshold ≤ 100

namespace ForkTable

/-- The row with the given index. -/
def row (t : ForkTable) (n : ℕ) : HardforkRow := t.rows.getD n default

/-- The last row at or below index `n` whose height is not above `height`, and 0 if there is none:
the loop at the end of `on_block_popped`. -/
def indexFrom (t : ForkTable) (height : ℕ) : ℕ → ℕ
  | 0 => 0
  | n + 1 => if (t.row (n + 1)).height ≤ height then n + 1 else indexFrom t height n

/-- The row in force for a chain of the given height. -/
def indexAt (t : ForkTable) (height : ℕ) : ℕ := t.indexFrom height (t.rows.length - 1)

/-- The version in force for a chain of the given height. -/
def versionAt (t : ForkTable) (height : ℕ) : UInt8 := (t.row (t.indexAt height)).version

/-- The last row whose height is not above `height`. -/
def lastRowAt (t : ForkTable) (height : ℕ) : Option HardforkRow :=
  t.rows.reverse.find? fun r => decide (r.height ≤ height)

/-- The first row with the version, or the last row if there is none: the loop of
`rescan_from_block_height`. -/
def indexOfVersion (t : ForkTable) (v : UInt8) : ℕ :=
  min (t.rows.findIdx fun r => r.version == v) (t.rows.length - 1)

/-- No fork waits for votes, and the first one is in force from the start. -/
def ByHeight (t : ForkTable) : Prop := (∀ r ∈ t.rows, r.threshold = 0) ∧ (t.row 0).height = 0

end ForkTable

/-- `add_fork`: the rows with the new one behind them, or `none` if it is refused. -/
def addFork (heights : List HardforkRow) (r : HardforkRow) : Option (List HardforkRow) :=
  if r.version = 0 then none
  else if heights.getLast?.any fun last => decide (r.version ≤ last.version) ||
      decide (r.height ≤ last.height) || decide (r.time ≤ last.time) then none
  else if 100 < r.threshold then none
  else some (heights ++ [r])

/-- `mainnet_hard_forks`. -/
def mainnetHardForks : ForkTable where
  rows := [⟨1, 0, 0, 1713700000⟩, ⟨15, 1, 0, 1713700001⟩, ⟨16, 2000000, 0, 1713700002⟩]
  ne_nil := by decide
  increasing := by decide
  threshold_le := by decide

/-- `testnet_hard_forks`, and `stagenet_hard_forks` as well. -/
def testnetHardForks : ForkTable where
  rows := [⟨1, 0, 0, 1713700000⟩, ⟨15, 1, 0, 1713700001⟩]
  ne_nil := by decide
  increasing := by decide
  threshold_le := by decide

/-- The forks of a private chain on which the last version follows the first block. -/
def privateHardForks : ForkTable where
  rows := [⟨1, 0, 0, 0⟩, ⟨16, 1, 0, 1⟩]
  ne_nil := by decide
  increasing := by decide
  threshold_le := by decide

theorem mainnetHardForks_byHeight : mainnetHardForks.ByHeight := by
  refine ⟨?_, rfl⟩
  decide

/-! ### The state -/

/-- `HardFork`, with the table `hf_versions`. -/
structure HardFork where
  heights : ForkTable
  windowSize : ℕ
  originalVersion : UInt8
  /-- the votes in the window, oldest first -/
  versions : List UInt8
  currentForkIndex : ℕ
  /-- the version of each block, by height; entries of popped blocks stay -/
  hfVersions : ℕ → Option UInt8

/-- `get_block_vote`: a minor version of 0 counts as a vote for version 1. -/
def getBlockVote (b : Block) : UInt8 := if b.minorVersion = 0 then 1 else b.minorVersion

/-- `get_block_from_height`. -/
def Db.getBlockFromHeight (db : Db) (height : ℕ) : Option Block :=
  (db.blocks.get? height).bind parseBlock

namespace HardFork

/-- A new object, as the constructor, `add_fork` and `init` leave it for an empty database. -/
def start (heights : ForkTable) (windowSize : ℕ) (originalVersion : UInt8) : HardFork where
  heights := heights
  windowSize := windowSize
  originalVersion := originalVersion
  versions := []
  currentForkIndex := 0
  hfVersions := fun _ => none

variable (hf : HardFork)

/-- `get_current_version`. -/
def getCurrentVersion : UInt8 := (hf.heights.row hf.currentForkIndex).version

/-- `get_ideal_version(height)`. -/
def getIdealVersion (height : ℕ) : UInt8 :=
  if hf.heights.indexAt height = 0 then hf.originalVersion else hf.heights.versionAt height

/-- `get_effective_version`: votes are capped at the last version of the table. -/
def getEffectiveVersion (votingVersion : UInt8) : UInt8 :=
  min votingVersion (hf.heights.row (hf.heights.rows.length - 1)).version

/-- `do_check`. -/
def doCheck (blockVersion votingVersion : UInt8) : Bool :=
  blockVersion == hf.getCurrentVersion && decide (hf.getCurrentVersion ≤ votingVersion)

/-- `check`. -/
def check (b : Block) : Bool := hf.doCheck b.majorVersion (getBlockVote b)

/-- `last_versions[v]`. -/
def lastVersions (v : UInt8) : ℕ := hf.versions.count v

/-- The loop of `get_voted_fork_index` over the rows below index `n`, with the votes accumulated so
far. -/
def votedFrom (height : ℕ) : ℕ → ℕ → Option ℕ
  | 0, _ => none
  | n + 1, accumulatedVotes =>
    let row := hf.heights.row n
    let accumulatedVotes := accumulatedVotes + hf.lastVersions row.version
    let threshold := (hf.windowSize * row.threshold + 99) / 100
    if row.height ≤ height ∧ threshold ≤ accumulatedVotes then some n
    else votedFrom height n accumulatedVotes

/-- `get_voted_fork_index`. -/
def getVotedForkIndex (height : ℕ) : ℕ :=
  (hf.votedFrom height hf.heights.rows.length 0).getD hf.currentForkIndex

/-- `check_for_height`. -/
def checkForHeight (b : Block) (height : ℕ) : Bool :=
  let version := (hf.heights.row (hf.getVotedForkIndex height)).version
  b.majorVersion == version && decide (version ≤ getBlockVote b)

/-- Move to the voted fork for a chain of the given height, never back. -/
def moveOn (height : ℕ) : HardFork :=
  { hf with currentForkIndex := max hf.currentForkIndex (hf.getVotedForkIndex height) }

/-- `add(block, height)`; a block that fails the check changes nothing. -/
def add (b : Block) (height : ℕ) : HardFork :=
  if hf.check b then
    let vote := hf.getEffectiveVersion (getBlockVote b)
    let kept := hf.versions.drop (hf.versions.length + 1 - hf.windowSize)
    moveOn { hf with
      hfVersions := Function.update hf.hfVersions height (some hf.getCurrentVersion)
      versions := kept ++ [vote] } (height + 1)
  else hf

/-- The loop of `on_block_popped`, which takes one vote per popped block off the end of the window
and puts the version of the popped block at its front. -/
def popVotes (hfVersions : ℕ → Option UInt8) (newChainHeight : ℕ) :
    ℕ → List UInt8 → Option (List UInt8)
  | 0, versions => some versions
  | n + 1, versions => do
    let v ← hfVersions (newChainHeight + n)
    popVotes hfVersions newChainHeight n (v :: versions.dropLast)

/-- `on_block_popped(nblocks)`, for a database that is already at the new height; `none` if a
version is missing in the table. -/
def onBlockPopped (newChainHeight nblocks : ℕ) : Option HardFork := do
  let versions ← popVotes hf.hfVersions newChainHeight nblocks hf.versions
  some { hf with versions := versions, currentForkIndex := hf.heights.indexAt newChainHeight }

/-- The loop that goes back while the fork is newer than the version of the last block. -/
def goBack (startVersion : UInt8) : ℕ → ℕ
  | 0 => 0
  | n + 1 =>
    if startVersion < (hf.heights.row (n + 1)).version then goBack startVersion n else n + 1

/-- The votes of `n` blocks from the given height on. -/
def votesFrom (db : Db) : ℕ → ℕ → Option (List UInt8)
  | _, 0 => some []
  | h, n + 1 => do
    let b ← db.getBlockFromHeight h
    let votes ← votesFrom db (h + 1) n
    some (hf.getEffectiveVersion (getBlockVote b) :: votes)

/-- The loop that adds the blocks from the given height on again. -/
def addAgain (db : Db) : ℕ → ℕ → HardFork → Option HardFork
  | _, 0, hf => some hf
  | h, n + 1, hf => do
    let b ← db.getBlockFromHeight h
    addAgain db (h + 1) n (hf.add b h)

/-- The version of the block at the given height, as `reorganize_from_block_height` reads it. -/
def startVersion (height : ℕ) : Option UInt8 :=
  if height = 0 then some hf.originalVersion else hf.hfVersions height

/-- `reorganize_from_block_height`: nothing happens above the top block; `none` if the database
throws. -/
def reorganizeFromBlockHeight (db : Db) (height : ℕ) : Option HardFork :=
  if db.height ≤ height then some hf
  else do
    let rescanHeight := height + 1 - hf.windowSize
    let startVersion ← hf.startVersion height
    let versions ← hf.votesFrom db rescanHeight (height + 1 - rescanHeight)
    let hf' : HardFork := { hf with
      versions := versions, currentForkIndex := hf.goBack startVersion hf.currentForkIndex }
    addAgain db (height + 1) (db.height - (height + 1)) (hf'.moveOn (height + 1))

/-- `reorganize_from_chain_height`. -/
def reorganizeFromChainHeight (db : Db) (height : ℕ) : Option HardFork :=
  if height = 0 then some hf else hf.reorganizeFromBlockHeight db (height - 1)

/-- `rescan_from_block_height`: nothing happens above the top block; `none` if the database
throws. -/
def rescanFromBlockHeight (db : Db) (height : ℕ) : Option HardFork :=
  if db.height ≤ height then some hf
  else do
    let versions ← hf.votesFrom db height (db.height - height)
    let lastv ← hf.hfVersions (db.height - 1)
    let hf' : HardFork := { hf with
      versions := versions, currentForkIndex := hf.heights.indexOfVersion lastv }
    some (hf'.moveOn db.height)

/-- `rescan_from_chain_height`. -/
def rescanFromChainHeight (db : Db) (height : ℕ) : Option HardFork :=
  if height = 0 then some hf else hf.rescanFromBlockHeight db (height - 1)

/-- `init`, for a table that is not empty. -/
def init (db : Db) : Option HardFork :=
  let hf' : HardFork := { hf with versions := [], currentForkIndex := 0 }
  hf'.rescanFromChainHeight db
    (if hf.windowSize < db.height then db.height - (hf.windowSize - 1) else 1)

end HardFork

/-! ### Rows and heights -/

namespace ForkTable

variable {t : ForkTable} {height : ℕ}

theorem indexFrom_le (t : ForkTable) (height n : ℕ) : t.indexFrom height n ≤ n := by
  induction n with
  | zero => exact Nat.le_refl 0
  | succ n ih =>
    rw [indexFrom]
    split
    · exact Nat.le_refl _
    · exact Nat.le_succ_of_le ih

theorem indexAt_lt (t : ForkTable) (height : ℕ) : t.indexAt height < t.rows.length := by
  have hpos := List.length_pos_iff.mpr t.ne_nil
  have := t.indexFrom_le height (t.rows.length - 1)
  rw [indexAt]
  omega

theorem row_mem {n : ℕ} (hn : n < t.rows.length) : t.row n ∈ t.rows := by
  rw [row, List.getD_eq_getElem _ _ hn]
  exact List.getElem_mem hn

/-- Heights and versions of the rows are strictly increasing. -/
theorem row_lt {m n : ℕ} (hmn : m < n) (hn : n < t.rows.length) :
    (t.row m).version < (t.row n).version ∧ (t.row m).height < (t.row n).height := by
  have h := List.pairwise_iff_getElem.mp t.increasing m n (hmn.trans hn) hn hmn
  rw [row, row, List.getD_eq_getElem _ _ hn, List.getD_eq_getElem _ _ (hmn.trans hn)]
  exact ⟨h.1, h.2.1⟩

theorem row_height_le {m n : ℕ} (hmn : m ≤ n) (hn : n < t.rows.length) :
    (t.row m).height ≤ (t.row n).height := by
  rcases hmn.eq_or_lt with rfl | hlt
  · exact Nat.le_refl _
  · exact (row_lt hlt hn).2.le

/-- The row in force is the last one whose height is reached. -/
theorem le_indexFrom_iff {m n : ℕ} (h0 : (t.row 0).height = 0) (hmn : m ≤ n)
    (hn : n < t.rows.length) : m ≤ t.indexFrom height n ↔ (t.row m).height ≤ height := by
  induction n with
  | zero =>
    obtain rfl := Nat.le_zero.mp hmn
    simp [indexFrom, h0]
  | succ n ih =>
    rw [indexFrom]
    split
    · next hle => exact ⟨fun _ => (row_height_le hmn hn).trans hle, fun _ => hmn⟩
    · next hlt =>
      rcases hmn.eq_or_lt with rfl | hm
      · have := t.indexFrom_le height n
        constructor
        · intro h; omega
        · intro h; exact absurd h hlt
      · exact ih (Nat.lt_succ_iff.mp hm) (Nat.lt_of_succ_lt hn)

theorem le_indexAt_iff {m : ℕ} (h0 : (t.row 0).height = 0) (hm : m < t.rows.length) :
    m ≤ t.indexAt height ↔ (t.row m).height ≤ height :=
  le_indexFrom_iff h0 (by omega) (by omega)

theorem indexAt_mono (h0 : (t.row 0).height = 0) {h h' : ℕ} (hle : h ≤ h') :
    t.indexAt h ≤ t.indexAt h' :=
  (le_indexAt_iff h0 (t.indexAt_lt h)).mpr
    (((le_indexAt_iff h0 (t.indexAt_lt h)).mp (Nat.le_refl _)).trans hle)

theorem indexAt_zero (h : t.ByHeight) : t.indexAt 0 = 0 := by
  by_contra hne
  have hle := (le_indexAt_iff h.2 (t.indexAt_lt 0)).mp (Nat.le_refl _)
  have := (row_lt (Nat.pos_of_ne_zero hne) (t.indexAt_lt 0)).2
  omega

end ForkTable

/-! ### The fork follows the height -/

namespace HardFork

variable {hf : HardFork} {height : ℕ}

/-- The current fork is the one that the height of the chain asks for, and the table of versions
has the version of every block. -/
structure Follows (hf : HardFork) (height : ℕ) : Prop where
  byHeight : hf.heights.ByHeight
  index : hf.currentForkIndex = hf.heights.indexAt height
  recorded : ∀ h < height, hf.hfVersions h = some (hf.heights.versionAt h)

theorem Follows.getCurrentVersion (h : hf.Follows height) :
    hf.getCurrentVersion = hf.heights.versionAt height := by
  rw [HardFork.getCurrentVersion, h.index]
  rfl

theorem Follows.start {t : ForkTable} (ht : t.ByHeight) (windowSize : ℕ) (v : UInt8) :
    (HardFork.start t windowSize v).Follows 0 :=
  ⟨ht, (ForkTable.indexAt_zero ht).symm, fun _ h => absurd h (Nat.not_lt_zero _)⟩

/-- Without thresholds the voted fork is the one in force for the height. -/
theorem votedFrom_eq (ht : hf.heights.ByHeight) (height : ℕ) {n : ℕ} (votes : ℕ)
    (hn : n < hf.heights.rows.length) :
    hf.votedFrom height (n + 1) votes = some (hf.heights.indexFrom height n) := by
  have hthr : ∀ m < hf.heights.rows.length,
      (hf.windowSize * (hf.heights.row m).threshold + 99) / 100 = 0 := by
    intro m hm
    rw [ht.1 _ (ForkTable.row_mem hm), Nat.mul_zero]
  induction n generalizing votes with
  | zero => simp [votedFrom, hthr 0 hn, ht.2, ForkTable.indexFrom]
  | succ n ih =>
    rw [votedFrom, ForkTable.indexFrom]
    simp only [hthr _ hn, Nat.zero_le, and_true]
    split
    · rfl
    · exact ih _ (Nat.lt_of_succ_lt hn)

theorem getVotedForkIndex_eq (ht : hf.heights.ByHeight) (height : ℕ) :
    hf.getVotedForkIndex height = hf.heights.indexAt height := by
  have hpos := List.length_pos_iff.mpr hf.heights.ne_nil
  obtain ⟨n, hn⟩ : ∃ n, hf.heights.rows.length = n + 1 := ⟨_, (Nat.succ_pred hpos.ne').symm⟩
  rw [getVotedForkIndex, hn, votedFrom_eq ht height 0 (by omega), ForkTable.indexAt, hn]
  rfl

/-- A step that leaves the fork at or behind the one in force, and then moves on. -/
theorem Follows.of_moveOn (ht : hf.heights.ByHeight)
    (hle : hf.currentForkIndex ≤ hf.heights.indexAt height)
    (hrec : ∀ h < height, hf.hfVersions h = some (hf.heights.versionAt h)) :
    (hf.moveOn height).Follows height := by
  refine ⟨ht, ?_, hrec⟩
  change max hf.currentForkIndex (hf.getVotedForkIndex height) = _
  rw [getVotedForkIndex_eq ht]
  exact max_eq_right hle

/-- **Adding a block moves the fork on with the height.** -/
theorem Follows.add {b : Block} (h : hf.Follows height) (hcheck : hf.check b = true) :
    (hf.add b height).Follows (height + 1) := by
  rw [HardFork.add, if_pos hcheck]
  refine Follows.of_moveOn h.byHeight ?_ ?_
  · exact h.index.le.trans (ForkTable.indexAt_mono h.byHeight.2 (Nat.le_succ _))
  · intro k hk
    change Function.update hf.hfVersions height (some hf.getCurrentVersion) k = _
    rcases Nat.lt_succ_iff_lt_or_eq.mp hk with hlt | rfl
    · rw [Function.update_of_ne hlt.ne, h.recorded k hlt]
    · rw [Function.update_self, h.getCurrentVersion]

/-- **Popping a block moves the fork back with the height.** -/
theorem Follows.onBlockPopped (h : hf.Follows (height + 1)) :
    ∃ hf', hf.onBlockPopped height 1 = some hf' ∧ hf'.heights = hf.heights ∧
      hf'.Follows height := by
  have hrec := h.recorded height (Nat.lt_succ_self _)
  refine ⟨{ hf with
    versions := hf.heights.versionAt height :: hf.versions.dropLast
    currentForkIndex := hf.heights.indexAt height }, ?_, rfl, h.byHeight, rfl, ?_⟩
  · simp [HardFork.onBlockPopped, popVotes, hrec]
  · exact fun k hk => h.recorded k (hk.trans (Nat.lt_succ_self _))

theorem goBack_le (hf : HardFork) (v : UInt8) (n : ℕ) : hf.goBack v n ≤ n := by
  induction n with
  | zero => exact Nat.le_refl 0
  | succ n ih =>
    rw [goBack]
    split
    · exact Nat.le_succ_of_le ih
    · exact Nat.le_refl _

theorem votesFrom_isSome {db : Db} {h n : ℕ}
    (hblocks : ∀ k < h + n, (db.getBlockFromHeight k).isSome) :
    ∃ votes, hf.votesFrom db h n = some votes := by
  induction n generalizing h with
  | zero => exact ⟨[], rfl⟩
  | succ n ih =>
    obtain ⟨b, hb⟩ := Option.isSome_iff_exists.mp (hblocks h (by omega))
    obtain ⟨votes, hvotes⟩ := ih (h := h + 1) (fun k hk => hblocks k (by omega))
    exact ⟨_, by rw [votesFrom, hb, hvotes]; rfl⟩

end HardFork

end Hidering
