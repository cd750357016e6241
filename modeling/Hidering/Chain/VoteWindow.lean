import Hidering.Chain.ForkRun
import Hidering.Store.Recent

/-!
# The window of votes

`HardFork` keeps the effective votes of the last blocks in a queue `versions` and counts them in a
table `last_versions`. Here the table is part of the state, in words of 32 bits, and is changed by
one at each vote that comes in or goes out, as the source does it; it always counts the queue
(`VoteOk.tally`), which is what the model of `Hidering.Chain.HardFork` takes for granted.

A fresh `init` fills the queue with the votes of the last `window_size` blocks. `add` keeps the
queue in this shape. `on_block_popped` does not in general: for every popped block it takes the last
vote off and puts the *version* of the popped block in at the front, where the *vote* of the block
just below the window belongs, and it does so also if there is no block below the window.

## Main definitions

* `Hidering.CountedFork`, with `add`, `onBlockPopped` and `init`
* `Hidering.VoteStep` — a block is added, or `k` blocks are popped
* `Hidering.CountedFork.Exact` — queue and table are those of a fresh `init`
* `Hidering.PopFits` — when a call of `on_block_popped` keeps the window

## Main results

* `Hidering.CountedFork.popVotes_spec`
* `Hidering.VoteOk.exact_iff` — exactness, as a statement about the votes of the chain
* `Hidering.voteWindow_exact_iff`
-/

namespace Hidering

open Wire Store Crypto List

/-! ### The state with its table -/

/-- `HardFork` with `last_versions`. -/
structure CountedFork extends HardFork where
  lastVersions : UInt8 → UInt32

namespace CountedFork

/-- A new object. -/
def start (heights : ForkTable) (windowSize : ℕ) (originalVersion : UInt8) : CountedFork where
  toHardFork := HardFork.start heights windowSize originalVersion
  lastVersions := fun _ => 0

variable (s : CountedFork)

/-- The loop of `get_voted_fork_index` over the rows below index `n`; votes and thresholds are words
of 32 bits. -/
def votedFrom (height : ℕ) : ℕ → UInt32 → Option ℕ
  | 0, _ => none
  | n + 1, accumulatedVotes =>
    let row := s.heights.row n
    let accumulatedVotes := accumulatedVotes + s.lastVersions row.version
    let threshold := UInt32.ofNat ((s.windowSize * row.threshold + 99) % 2 ^ 64 / 100)
    if row.height ≤ height ∧ threshold ≤ accumulatedVotes then some n
    else votedFrom height n accumulatedVotes

/-- `get_voted_fork_index`. -/
def getVotedForkIndex (height : ℕ) : ℕ :=
  (s.votedFrom height s.heights.rows.length 0).getD s.currentForkIndex

/-- Move to the voted fork for a chain of the given height, never back. -/
def moveOn (height : ℕ) : CountedFork :=
  { s with currentForkIndex := max s.currentForkIndex (s.getVotedForkIndex height) }

/-- The loop of `add` that makes room in the window. -/
def dropOld (windowSize : ℕ) :
    List UInt8 → (UInt8 → UInt32) → List UInt8 × (UInt8 → UInt32)
  | [], table => ([], table)
  | v :: vs, table =>
    if windowSize ≤ (v :: vs).length then dropOld windowSize vs (decrement table v)
    else (v :: vs, table)

/-- `add(block, height)`; a block that fails the check changes nothing. -/
def add (b : Block) (height : ℕ) : CountedFork :=
  if s.check b then
    let vote := s.getEffectiveVersion (getBlockVote b)
    let kept := dropOld s.windowSize s.versions s.lastVersions
    moveOn { s with
      hfVersions := Function.update s.hfVersions height (some s.getCurrentVersion)
      versions := kept.1 ++ [vote]
      lastVersions := increment kept.2 vote } (height + 1)
  else s

/-- The loop of `on_block_popped`. `none` if the queue is empty or a version is missing in the
database. -/
def popVotes (hfVersions : ℕ → Option UInt8) (newChainHeight : ℕ) :
    ℕ → List UInt8 → (UInt8 → UInt32) → Option (List UInt8 × (UInt8 → UInt32))
  | 0, versions, table => some (versions, table)
  | n + 1, versions, table =>
    versions.getLast?.bind fun back =>
      (hfVersions (newChainHeight + n)).bind fun version =>
        popVotes hfVersions newChainHeight n (version :: versions.dropLast)
          (increment (decrement table back) version)

/-- `on_block_popped(nblocks)`, for a database that is already at the new height. -/
def onBlockPopped (newChainHeight nblocks : ℕ) : Option CountedFork :=
  if nblocks = 0 then none
  else
    (popVotes s.hfVersions newChainHeight nblocks s.versions s.lastVersions).map fun votes =>
      { s with
        versions := votes.1
        lastVersions := votes.2
        -- does not take voting into account
        currentForkIndex := s.heights.indexAt newChainHeight }

/-- `rescan_from_block_height`: nothing happens above the top block; `none` if the database
throws. -/
def rescanFromBlockHeight (db : Db) (height : ℕ) : Option CountedFork :=
  if db.height ≤ height then some s
  else
    (s.votesFrom db height (db.height - height)).bind fun votes =>
      (s.hfVersions (db.height - 1)).map fun lastv =>
        moveOn { s with
          versions := votes
          lastVersions := votes.foldl increment fun _ => 0
          currentForkIndex := s.heights.indexOfVersion lastv } db.height

/-- `rescan_from_chain_height`. -/
def rescanFromChainHeight (db : Db) (height : ℕ) : Option CountedFork :=
  if height = 0 then some s else s.rescanFromBlockHeight db (height - 1)

/-- `init`, for a table that is not empty. -/
def init (db : Db) : Option CountedFork :=
  let fresh : CountedFork :=
    { s with versions := [], lastVersions := fun _ => 0, currentForkIndex := 0 }
  fresh.rescanFromChainHeight db
    (if s.windowSize < db.height then db.height - (s.windowSize - 1) else 1)

/-! ### The loops -/

variable {s}

theorem dropOld_spec {windowSize : ℕ} {versions : List UInt8} {table : UInt8 → UInt32}
    (h : Tally table versions) :
    (dropOld windowSize versions table).1 = versions.drop (versions.length + 1 - windowSize) ∧
      Tally (dropOld windowSize versions table).2 (dropOld windowSize versions table).1 := by
  induction versions generalizing table with
  | nil => exact ⟨by simp [dropOld], h⟩
  | cons v vs ih =>
    rw [dropOld]
    split
    · next hfull =>
      obtain ⟨hkept, htally⟩ := ih (h.decrement (List.Perm.refl _))
      refine ⟨?_, htally⟩
      rw [length_cons] at hfull ⊢
      rw [hkept, show vs.length + 1 + 1 - windowSize = vs.length + 1 - windowSize + 1 by omega,
        drop_succ_cons]
    · next hroom =>
      refine ⟨?_, h⟩
      rw [show (v :: vs).length + 1 - windowSize = 0 by omega, drop_zero]

/-- Popping `k` blocks puts their versions in front of the queue and keeps its length. -/
theorem popVotes_spec {hfVersions : ℕ → Option UInt8} {newChainHeight k : ℕ}
    {versions versions' : List UInt8} {table table' : UInt8 → UInt32} (h : Tally table versions)
    (hpop : popVotes hfVersions newChainHeight k versions table = some (versions', table')) :
    Tally table' versions' ∧ ∃ front : List UInt8, front.length = k ∧
      (∀ j < k, front[j]? = hfVersions (newChainHeight + j)) ∧
      versions' = (front ++ versions).take versions.length := by
  induction k generalizing versions table with
  | zero =>
    cases hpop
    exact ⟨h, [], rfl, by simp, by simp⟩
  | succ k ih =>
    obtain ⟨back, hback, hpop⟩ := Option.bind_eq_some_iff.mp hpop
    obtain ⟨version, hversion, hpop⟩ := Option.bind_eq_some_iff.mp hpop
    obtain ⟨ys, rfl⟩ := getLast?_eq_some_iff.mp hback
    rw [dropLast_concat] at hpop
    have hout := h.decrement (perm_append_singleton back ys)
    obtain ⟨htally, front, hfront, hsame, hversions⟩ :=
      ih (hout.increment (List.Perm.refl (version :: ys))) hpop
    refine ⟨htally, front ++ [version], by rw [length_append, hfront]; rfl, ?_, ?_⟩
    · intro j hj
      rcases Nat.lt_succ_iff_lt_or_eq.mp hj with hlt | rfl
      · rw [getElem?_append_left (by omega), hsame j hlt]
      · rw [getElem?_append_right (by omega), hfront, Nat.sub_self, hversion]
        rfl
    · have hassoc : front ++ [version] ++ (ys ++ [back]) = front ++ version :: ys ++ [back] := by
        simp
      have hroom : (ys ++ [back]).length ≤ (front ++ version :: ys).length := by simp
      rw [hassoc, take_append_of_le_length hroom, hversions]
      congr 1
      simp

theorem tally_foldl_increment {votes seen : List UInt8} {table : UInt8 → UInt32}
    (h : Tally table seen) : Tally (votes.foldl increment table) (votes ++ seen) := by
  induction votes generalizing seen table with
  | nil => exact h
  | cons v votes ih =>
    have hstep := ih (h.increment (List.Perm.refl (v :: seen)))
    intro a
    rw [foldl_cons, hstep a]
    exact congrArg UInt32.ofNat (perm_middle.count_eq a)

end CountedFork

/-! ### The votes of a chain -/

namespace HardFork

variable {hf : HardFork} {db db' : Db}

/-- The effective vote of the block at a height. -/
def voteAt (hf : HardFork) (db : Db) (height : ℕ) : Option UInt8 :=
  (db.getBlockFromHeight height).map fun b => hf.getEffectiveVersion (getBlockVote b)

theorem votesFrom_getElem? {h n : ℕ} {votes : List UInt8}
    (hvotes : hf.votesFrom db h n = some votes) :
    votes.length = n ∧ ∀ i < n, votes[i]? = hf.voteAt db (h + i) := by
  induction n generalizing h votes with
  | zero =>
    cases hvotes
    exact ⟨rfl, fun i hi => absurd hi (Nat.not_lt_zero i)⟩
  | succ n ih =>
    obtain ⟨b, hb, hvotes⟩ := Option.bind_eq_some_iff.mp hvotes
    obtain ⟨rest, hrest, hvotes⟩ := Option.bind_eq_some_iff.mp hvotes
    obtain rfl := Option.some.inj hvotes
    obtain ⟨hlen, hat⟩ := ih hrest
    refine ⟨by rw [length_cons, hlen], fun i hi => ?_⟩
    cases i with
    | zero => rw [Nat.add_zero, voteAt, hb]; rfl
    | succ i =>
      rw [getElem?_cons_succ, hat i (by omega)]
      congr 1
      omega

/-- Votes are determined by their blocks. -/
theorem votesFrom_eq {h n : ℕ} {votes : List UInt8} (hlen : votes.length = n)
    (hat : ∀ i < n, votes[i]? = hf.voteAt db (h + i)) : hf.votesFrom db h n = some votes := by
  induction n generalizing h votes with
  | zero => rw [length_eq_zero_iff.mp hlen]; rfl
  | succ n ih =>
    cases votes with
    | nil => cases hlen
    | cons v votes =>
      have hfirst := hat 0 (Nat.succ_pos n)
      rw [getElem?_cons_zero, Nat.add_zero] at hfirst
      obtain ⟨b, hb, hv⟩ := Option.map_eq_some_iff.mp hfirst.symm
      have hrest := @ih (h + 1) votes (Nat.succ.inj hlen) fun i hi => by
        rw [show h + 1 + i = h + (i + 1) by omega, ← hat (i + 1) (by omega),
          getElem?_cons_succ]
      rw [votesFrom, hb, hrest, ← hv]
      rfl

end HardFork

/-! ### Steps -/

/-- A block is added to the chain (`k = 0`), or `k` blocks are popped and `on_block_popped(k)` is
called. -/
inductive VoteStep (c : Crypto) : ℕ → Db × CountedFork → Db × CountedFork → Prop
  | add {db db' : Db} {s : CountedFork} {blk : Block} {info : BlockMeta}
      {txs : List (Transaction × Bytes)} {n : ℕ} (hcheck : s.check blk = true)
      (hc : CanonicalBlock c blk txs) (h : addBlock c blk info txs db = .ok n db') :
      VoteStep c 0 (db, s) (db', s.add blk db.height)
  | pop {db db' : Db} {s s' : CountedFork} {k : ℕ}
      (hpops : Relation.ReflTransGen (Popped c) db db') (hheight : db.height = db'.height + k)
      (hcall : s.onBlockPopped db'.height k = some s') : VoteStep c k (db, s) (db', s')

/-- Queue and table are those of a fresh `init` on the chain. -/
def CountedFork.Exact (st : Db × CountedFork) : Prop :=
  ∃ fresh, st.2.init st.1 = some fresh ∧ st.2.versions = fresh.versions ∧
    st.2.lastVersions = fresh.lastVersions

/-- Popping `k` blocks leaves at least a window of them, and the version of a popped block is the
vote of the block that comes into the window for it. -/
def PopFits (st : Db × CountedFork) (k : ℕ) : Prop :=
  let height := st.1.height
  let window := st.2.windowSize
  window + k ≤ height ∧ ∀ j < min k window,
    (st.1.getBlockFromHeight (height - k + j)).map (fun b => b.majorVersion) =
      st.2.voteAt st.1 (height - k - window + j)

/-- What holds after every step. -/
structure VoteOk (c : Crypto) (seed : UInt32) (st : Db × CountedFork) : Prop where
  built : Built c seed st.1
  window : 0 < st.2.windowSize
  recorded : ∀ k < st.1.height, ∃ b, st.1.getBlockFromHeight k = some b ∧
    st.2.hfVersions k = some b.majorVersion
  tally : Tally st.2.lastVersions st.2.versions

/-- The queue is the window of the votes of the chain. -/
def VotesRecent (st : Db × CountedFork) : Prop :=
  ∃ votes, st.2.votesFrom st.1 0 st.1.height = some votes ∧
    st.2.versions = recent st.2.windowSize votes

section Steps

variable {c : Crypto} {seed : UInt32} {st st' : Db × CountedFork} {db db' : Db} {s s' : CountedFork}
  {k : ℕ} {votes : List UInt8}

/-! ### A fresh `init` -/

theorem VoteOk.exists_votes (h : VoteOk c seed st) :
    ∃ votes, st.2.votesFrom st.1 0 st.1.height = some votes :=
  HardFork.votesFrom_isSome fun k hk => by
    obtain ⟨b, hb, -⟩ := h.recorded k (by omega)
    rw [hb]
    rfl

/-- `init` finds the votes of the window, and counts them. -/
theorem VoteOk.init (h : VoteOk c seed st)
    (hvotes : st.2.votesFrom st.1 0 st.1.height = some votes) :
    ∃ fresh, st.2.init st.1 = some fresh ∧ fresh.versions = recent st.2.windowSize votes ∧
      Tally fresh.lastVersions fresh.versions := by
  obtain ⟨hlen, hat⟩ := HardFork.votesFrom_getElem? hvotes
  have hpos := h.window
  -- the first block of the window
  have hstart : (if st.2.windowSize < st.1.height then st.1.height - (st.2.windowSize - 1)
      else 1) = st.1.height - st.2.windowSize + 1 := by
    split <;> omega
  have hrecent : recent st.2.windowSize votes = votes.drop (st.1.height - st.2.windowSize) := by
    rw [recent, hlen]
  rw [CountedFork.init, hstart, CountedFork.rescanFromChainHeight, if_neg (Nat.succ_ne_zero _),
    Nat.add_sub_cancel, CountedFork.rescanFromBlockHeight]
  split
  · next hempty =>
    obtain rfl : votes = [] := length_eq_zero_iff.mp (by omega)
    exact ⟨_, rfl, by rw [hrecent]; simp, Tally.zero⟩
  · next hlt =>
    have hwindow : HardFork.votesFrom
        { st.2.toHardFork with versions := [], currentForkIndex := 0 } st.1
        (st.1.height - st.2.windowSize) (st.1.height - (st.1.height - st.2.windowSize)) =
        some (votes.drop (st.1.height - st.2.windowSize)) :=
      HardFork.votesFrom_eq (by rw [length_drop, hlen]) fun i hi => by
        rw [getElem?_drop, hat _ (by omega), Nat.zero_add]
        rfl
    obtain ⟨b, -, hlast⟩ := h.recorded (st.1.height - 1) (by omega)
    refine ⟨CountedFork.moveOn { st.2 with
      versions := votes.drop (st.1.height - st.2.windowSize)
      lastVersions := (votes.drop (st.1.height - st.2.windowSize)).foldl increment fun _ => 0
      currentForkIndex := st.2.heights.indexOfVersion b.majorVersion } st.1.height,
      ?_, hrecent.symm, ?_⟩
    · exact Option.bind_eq_some_iff.mpr ⟨_, hwindow, Option.map_eq_some_iff.mpr ⟨_, hlast, rfl⟩⟩
    · have htally := @CountedFork.tally_foldl_increment
        (votes.drop (st.1.height - st.2.windowSize)) [] _ Tally.zero
      rwa [append_nil] at htally

/-- Exactness, as a statement about the votes of the chain. -/
theorem VoteOk.exact_iff (h : VoteOk c seed st) : CountedFork.Exact st ↔ VotesRecent st := by
  obtain ⟨votes, hvotes⟩ := h.exists_votes
  obtain ⟨fresh, hinit, hversions, htally⟩ := h.init hvotes
  constructor
  · rintro ⟨fresh', hinit', hsame, -⟩
    obtain rfl := Option.some.inj (hinit.symm.trans hinit')
    exact ⟨votes, hvotes, hsame.trans hversions⟩
  · rintro ⟨votes', hvotes', hsame⟩
    obtain rfl := Option.some.inj (hvotes.symm.trans hvotes')
    rw [← hversions] at hsame
    exact ⟨fresh, hinit, hsame, h.tally.unique (hsame ▸ htally)⟩

/-! ### One step -/

/-- Adding a block. -/
theorem VoteOk.add {blk : Block} {info : BlockMeta} {txs : List (Transaction × Bytes)} {n : ℕ}
    (h : VoteOk c seed (db, s)) (hcheck : s.check blk = true) (hc : CanonicalBlock c blk txs)
    (hadd : addBlock c blk info txs db = .ok n db') :
    VoteOk c seed (db', s.add blk db.height) ∧
      (VotesRecent (db, s) → VotesRecent (db', s.add blk db.height)) := by
  have hheight := addBlock_height hadd
  obtain ⟨hnew, hbelow⟩ := addBlock_getBlockFromHeight hc hadd
  obtain ⟨hkept, htally⟩ := @CountedFork.dropOld_spec s.windowSize _ _ h.tally
  have hmajor : s.getCurrentVersion = blk.majorVersion := by
    rw [HardFork.check, HardFork.doCheck, Bool.and_eq_true_iff, beq_iff_eq] at hcheck
    exact hcheck.1.symm
  rw [CountedFork.add, if_pos hcheck]
  refine ⟨⟨h.built.add hc hadd, h.window, fun k hk => ?_, ?_⟩, ?_⟩
  · rcases Nat.lt_succ_iff_lt_or_eq.mp (hheight ▸ hk) with hlt | rfl
    · obtain ⟨b, hb, hv⟩ := h.recorded k hlt
      refine ⟨b, (hbelow k hlt).trans hb, ?_⟩
      change Function.update s.hfVersions db.height _ k = _
      rw [Function.update_of_ne hlt.ne]
      exact hv
    · refine ⟨blk, hnew, ?_⟩
      change Function.update s.hfVersions db.height _ db.height = _
      rw [Function.update_self, hmajor]
  · exact htally.increment (perm_append_singleton ..)
  · rintro ⟨votes, hvotes, hversions⟩
    obtain ⟨hlen, hat⟩ := HardFork.votesFrom_getElem? hvotes
    refine ⟨votes ++ [s.getEffectiveVersion (getBlockVote blk)], ?_, ?_⟩
    · refine HardFork.votesFrom_eq (by rw [length_append, hlen, hheight]; rfl) fun i hi => ?_
      rcases Nat.lt_succ_iff_lt_or_eq.mp (hheight ▸ hi) with hlt | rfl
      · rw [getElem?_append_left (by rw [hlen]; exact hlt), hat i hlt, HardFork.voteAt,
          HardFork.voteAt, hbelow (0 + i) (by omega)]
        rfl
      · rw [getElem?_append_right hlen.le, hlen, Nat.sub_self, Nat.zero_add, HardFork.voteAt,
          hnew]
        rfl
    · change (CountedFork.dropOld s.windowSize s.versions s.lastVersions).1 ++ [_] = _
      rw [hkept]
      change s.versions = recent s.windowSize votes at hversions
      rw [hversions]
      exact (recent_concat h.window votes _).symm

/-- Popping blocks from the database. -/
theorem Built.popped_getBlockFromHeight (hpops : Relation.ReflTransGen (Popped c) db db')
    (hdb : Built c seed db) :
    Built c seed db' ∧ db'.height ≤ db.height ∧
      ∀ k < db'.height, db.getBlockFromHeight k = db'.getBlockFromHeight k := by
  induction hpops with
  | refl => exact ⟨hdb, Nat.le_refl _, fun _ _ => rfl⟩
  | tail _ hpop ih =>
    obtain ⟨r, hr⟩ := hpop
    obtain ⟨hbuilt, hle, hsame⟩ := ih
    obtain ⟨hbuilt', hheight, hsame'⟩ := hbuilt.popBlock hr
    exact ⟨hbuilt', by omega, fun k hk => (hsame k (by omega)).trans (hsame' k hk)⟩

/-- Popping `k` blocks. -/
theorem VoteOk.pop (h : VoteOk c seed (db, s)) (hrecent : VotesRecent (db, s))
    (hpops : Relation.ReflTransGen (Popped c) db db') (hheight : db.height = db'.height + k)
    (hcall : s.onBlockPopped db'.height k = some s') :
    VoteOk c seed (db', s') ∧ (VotesRecent (db', s') ↔ PopFits (db, s) k) := by
  obtain ⟨votes, hvotes, hversions⟩ := hrecent
  obtain ⟨hlen, hat⟩ := HardFork.votesFrom_getElem? hvotes
  obtain ⟨hbuilt, -, hbelow⟩ := Built.popped_getBlockFromHeight hpops h.built
  obtain ⟨hk, hcall⟩ := (Option.ite_none_left_eq_some ..).mp hcall
  obtain ⟨⟨versions', table'⟩, hpop, rfl⟩ := Option.map_eq_some_iff.mp hcall
  obtain ⟨htally, front, hfront, hsame, hqueue⟩ := CountedFork.popVotes_spec h.tally hpop
  have hrecorded := h.recorded
  dsimp only at hversions hlen hat hrecorded
  have hmajor : ∀ j < k, front[j]? =
      (db.getBlockFromHeight (db.height - k + j)).map fun b => b.majorVersion := by
    intro j hj
    obtain ⟨b, hb, hv⟩ := hrecorded (db.height - k + j) (by omega)
    rw [hsame j hj, show db'.height + j = db.height - k + j by omega, hb]
    exact hv
  have hvotes' : HardFork.votesFrom { s.toHardFork with
      versions := versions', currentForkIndex := s.heights.indexAt db'.height } db' 0 db'.height =
      some (votes.take (votes.length - k)) := by
    refine HardFork.votesFrom_eq (by rw [length_take]; omega) fun i hi => ?_
    rw [getElem?_take, if_pos (by omega), hat i (by omega), HardFork.voteAt,
      HardFork.voteAt, hbelow (0 + i) (by omega)]
    rfl
  refine ⟨⟨hbuilt, h.window, fun j hj => ?_, htally⟩, ?_⟩
  · obtain ⟨b, hb, hv⟩ := hrecorded j (by dsimp only at hj; omega)
    exact ⟨b, (hbelow j hj).symm.trans hb, hv⟩
  · have hiff := @take_append_recent_eq_iff _ s.windowSize k votes front
      (Nat.pos_of_ne_zero hk) (by omega) hfront
    rw [← hversions, ← hqueue, hlen] at hiff
    have hqueue' : VotesRecent (db', { s with
        versions := versions'
        lastVersions := table'
        currentForkIndex := s.heights.indexAt db'.height }) ↔
        versions' = recent s.windowSize (votes.take (db.height - k)) := by
      rw [← hlen]
      constructor
      · rintro ⟨votes'', hvotes'', h'⟩
        obtain rfl := Option.some.inj (hvotes'.symm.trans hvotes'')
        exact h'
      · exact fun h' => ⟨_, hvotes', h'⟩
    rw [hqueue', hiff]
    refine and_congr_right fun hfit => forall₂_congr fun j hj => ?_
    rw [hmajor j (by omega), hat _ (by omega), Nat.zero_add]

/-- One step from an exact window. -/
theorem VoteOk.step (h : VoteOk c seed st) (hrecent : VotesRecent st)
    (hstep : VoteStep c k st st') :
    VoteOk c seed st' ∧ (VotesRecent st' ↔ (k ≠ 0 → PopFits st k)) := by
  cases hstep with
  | add hcheck hc hadd =>
    obtain ⟨hok, hnext⟩ := h.add hcheck hc hadd
    exact ⟨hok, iff_of_true (hnext hrecent) fun hne => absurd rfl hne⟩
  | pop hpops hheight hcall =>
    obtain ⟨hok, hiff⟩ := h.pop hrecent hpops hheight hcall
    have hk : k ≠ 0 := ((Option.ite_none_left_eq_some ..).mp hcall).1
    exact ⟨hok, fun h' _ => hiff.mp h', fun h' => hiff.mpr (h' hk)⟩

end Steps

/-! ### Runs -/

/-- Runs from a new object over an empty database, in which every call of `on_block_popped` fits. -/
def FittingRun (c : Crypto) (seed : UInt32) (t : ForkTable) (windowSize : ℕ)
    (originalVersion : UInt8) : Db × CountedFork → Prop :=
  Relation.ReflTransGen (fun st st' => ∃ k, VoteStep c k st st' ∧ (k ≠ 0 → PopFits st k))
    (Db.empty seed, CountedFork.start t windowSize originalVersion)

theorem FittingRun.ok {c : Crypto} {seed : UInt32} {t : ForkTable} {windowSize : ℕ}
    {originalVersion : UInt8} {st : Db × CountedFork} (hpos : 0 < windowSize)
    (h : FittingRun c seed t windowSize originalVersion st) :
    VoteOk c seed st ∧ VotesRecent st := by
  induction h with
  | refl =>
    exact ⟨⟨.empty, hpos, fun _ hk => absurd hk (Nat.not_lt_zero _), Tally.zero⟩,
      [], rfl, drop_nil.symm⟩
  | tail _ hstep ih =>
    obtain ⟨k, hstep, hfits⟩ := hstep
    obtain ⟨hok, hiff⟩ := ih.1.step ih.2 hstep
    exact ⟨hok, hiff.mpr hfits⟩

/-- **The window of votes is exact as long as popping fits.** For every table and every window:
after any run in which every call of `on_block_popped` fits, the queue and the table of counts are
those of a fresh `init`, namely the effective votes of the last blocks; and the next step keeps them
so exactly if it adds a block or is again a call that fits. -/
theorem voteWindow_exact_iff {c : Crypto} {seed : UInt32} {t : ForkTable} {windowSize : ℕ}
    {originalVersion : UInt8} {st : Db × CountedFork} (hpos : 0 < windowSize)
    (h : FittingRun c seed t windowSize originalVersion st) :
    CountedFork.Exact st ∧
      (∃ votes, st.2.votesFrom st.1 0 st.1.height = some votes ∧
        st.2.versions = recent st.2.windowSize votes) ∧
      ∀ k st', VoteStep c k st st' → (CountedFork.Exact st' ↔ (k ≠ 0 → PopFits st k)) := by
  obtain ⟨hok, hrecent⟩ := h.ok hpos
  refine ⟨hok.exact_iff.mpr hrecent, hrecent, fun k st' hstep => ?_⟩
  obtain ⟨hok', hiff⟩ := hok.step hrecent hstep
  exact hok'.exact_iff.trans hiff

/-- A table with one version only. -/
def plainHardForks : ForkTable where
  rows := [⟨1, 0, 0, 0⟩]
  ne_nil := by decide
  increasing := by decide
  threshold_le := by decide

/-- The object after the blocks of a chain of two. -/
def twoVotes (windowSize : ℕ) : CountedFork :=
  ((CountedFork.start plainHardForks windowSize 1).add (soloBlock 1 0) 0).add (soloBlock 1 1) 1

/-- A chain of two blocks whose second one is popped, under any window. -/
theorem exists_pop_of_two {windowSize : ℕ}
    (hcheck : ((CountedFork.start plainHardForks windowSize 1).add (soloBlock 1 0) 0).check
      (soloBlock 1 1) = true) (hpop : ((twoVotes windowSize).onBlockPopped 1 1).isSome) :
    ∃ st st', FittingRun transparent 0 plainHardForks windowSize 1 st ∧
      VoteStep transparent 1 st st' ∧ st.1.height = 2 ∧ st'.1.height = 1 ∧
      st.2 = twoVotes windowSize ∧ st.1.getBlockFromHeight 0 = some (soloBlock 1 0) ∧
      st.1.getBlockFromHeight 1 = some (soloBlock 1 1) := by
  obtain ⟨⟨⟩, db₂, hchain, hheight⟩ := exists_of_okAnd
    (r := addBlocks transparent (soloChain [1, 1]) (Db.empty 0))
    (p := fun _ db => decide (db.height = 2)) (by decide +kernel)
  obtain ⟨n₁, db₁, h₁, hrest⟩ := bind_ok.mp hchain
  obtain ⟨n₂, db₂', h₂, hrest⟩ := bind_ok.mp hrest
  obtain ⟨-, rfl⟩ := pure_ok.mp hrest
  have hone : db₁.height = 1 := addBlock_height h₁
  have hc₁ : CanonicalBlock transparent (soloBlock 1 0) [] := .of_parse (by decide +kernel)
  have hc₂ : CanonicalBlock transparent (soloBlock 1 1) [] := .of_parse (by decide +kernel)
  have hbuilt : Built transparent 0 db₁ := .add .empty hc₁ h₁
  have hrun : FittingRun transparent 0 plainHardForks windowSize 1 (db₂', twoVotes windowSize) := by
    refine .tail (.single ⟨0, .add (by rfl) hc₁ h₁, fun h => absurd rfl h⟩)
      ⟨0, ?_, fun h => absurd rfl h⟩
    have hstep := VoteStep.add hcheck hc₂ h₂
    rw [hone] at hstep
    exact hstep
  obtain ⟨s', hs'⟩ := Option.isSome_iff_exists.mp hpop
  obtain ⟨hnew, hbelow⟩ := addBlock_getBlockFromHeight hc₂ h₂
  have hfirst := (addBlock_getBlockFromHeight hc₁ h₁).1
  have hpopped : Popped transparent db₂' db₁ :=
    ⟨_, popBlock_addBlock hc₂.parsed hc₂.txs hbuilt.wf.tip h₂⟩
  refine ⟨(db₂', twoVotes windowSize), (db₁, s'), hrun,
    .pop (.single hpopped) (addBlock_height h₂) ?_, of_decide_eq_true hheight, hone, rfl, ?_, ?_⟩
  · rw [hone]
    exact hs'
  · exact (hbelow 0 (by omega)).trans hfirst
  · rw [hone] at hnew
    exact hnew

/-- With a window of one block, popping the second of two like blocks fits. -/
theorem voteWindow_exact_popped :
    ∃ st, FittingRun transparent 0 plainHardForks 1 1 st ∧ st.1.height = 1 ∧
      CountedFork.Exact st := by
  obtain ⟨st, st', hrun, hstep, htwo, hone, hs, hb₀, hb₁⟩ :=
    @exists_pop_of_two 1 (by decide +kernel) (by decide +kernel)
  have hwindow : st.2.windowSize = 1 := by
    rw [hs]
    decide +kernel
  have hfits : PopFits st 1 := by
    refine ⟨by rw [hwindow, htwo], fun j hj => ?_⟩
    obtain rfl : j = 0 := by omega
    rw [hwindow, htwo, HardFork.voteAt, hb₀, hb₁, hs]
    decide +kernel
  have hrun' : FittingRun transparent 0 plainHardForks 1 1 st' :=
    hrun.tail ⟨1, hstep, fun _ => hfits⟩
  exact ⟨st', hrun', hone, (voteWindow_exact_iff (by decide) hrun').1⟩

/-- With the window of the main network, popping the second of two blocks leaves two votes for a
chain of one block. -/
theorem popped_window_too_long :
    ∃ st st', FittingRun transparent 0 plainHardForks 10080 1 st ∧
      VoteStep transparent 1 st st' ∧ ¬ CountedFork.Exact st' := by
  obtain ⟨st, st', hrun, hstep, htwo, hone, hs, -⟩ :=
    @exists_pop_of_two 10080 (by decide +kernel) (by decide +kernel)
  obtain ⟨hok, hrecent⟩ := hrun.ok (by decide)
  obtain ⟨hok', hiff⟩ := hok.step hrecent hstep
  refine ⟨st, st', hrun, hstep, fun hexact => ?_⟩
  have hfits := hiff.mp (hok'.exact_iff.mp hexact) (by decide)
  have hwindow : st.2.windowSize = 10080 := by
    rw [hs]
    decide +kernel
  have := hfits.1
  omega

end Hidering
