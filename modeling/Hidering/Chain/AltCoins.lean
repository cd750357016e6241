import Hidering.Chain.Alternative
import Hidering.Chain.Supply
import Hidering.Verify.Hybrid

/-!
# Generated coins on alternative chains

For a block on the main chain `handle_block_to_main_chain` adds the base reward to
`already_generated_coins`; the fees, which the miner transaction pays out on top of it, are not
generated. `handle_alternative_block` does not know the fees and adds all that the miner transaction
pays out. The two totals agree along a branch exactly if its blocks have no fees, except where the
base reward alone exhausts `MONEY_SUPPLY`.

## Main definitions

* `Hidering.RecordedBranch` — blocks recorded one after another on a branch
* `Hidering.MainRun` — blocks accepted one after another on the main chain

## Main results

* `Hidering.RecordedBranch.ok` — what is recorded for the blocks of a branch
* `Hidering.altCoins_eq_mainCoins_iff`
-/

namespace Hidering

open Wire Machine Store Crypto List

/-! ### What is recorded -/

/-- The total behind a block that is recorded: all that its miner transaction pays out is added. -/
def coinsBehind (b : Block) (coins : UInt64) : UInt64 :=
  nextGeneratedCoins wrapping (getOutsMoneyAmount b.minerTx) coins

/-- The totals for blocks that go on from a total. -/
def altCoins (coins : UInt64) : List Block → List UInt64
  | [] => []
  | b :: bs => coinsBehind b coins :: altCoins (coinsBehind b coins) bs

theorem altCoins_concat (coins : UInt64) (bs : List Block) (b : Block) :
    altCoins coins (bs ++ [b]) =
      altCoins coins bs ++ [coinsBehind b ((altCoins coins bs).getLast?.getD coins)] := by
  induction bs generalizing coins with
  | nil => rfl
  | cons x bs ih =>
    rw [cons_append, altCoins, altCoins, ih, cons_append, getLast?_cons,
      Option.getD_some]

namespace AltNode

variable {p : AltParams} {c : Crypto} {now : UInt64} {node node' : AltNode} {b : Block}
  {extra : PoolSupplement} {hfVersion : UInt8} {altChain chain : List AltBlock} {bei : AltBlock}
  {isACheckpoint : Bool} {reorganize : Option Bool}

/-- The total that is recorded for a block goes on from that of its parent. -/
theorem checkAlternativeBlock_some
    (h : node.checkAlternativeBlock p c b hfVersion = some (altChain, bei, isACheckpoint)) :
    ∃ timestamps prevHeight prevCoins,
      buildAltChain node.chain.db node.alts b.prevId = some (altChain, timestamps) ∧
      fromParent altChain (fun prev => prev.height) (node.chain.db.blockHeights b.prevId) =
        some prevHeight ∧
      fromParent altChain AltBlock.alreadyGeneratedCoins
        ((node.chain.db.blockInfo.get? prevHeight).map BlockInfo.coins) = some prevCoins ∧
      bei.bl = b ∧ bei.id = c.getBlockHash b ∧ bei.height = prevHeight + 1 ∧
      bei.alreadyGeneratedCoins = coinsBehind b prevCoins := by
  simp only [checkAlternativeBlock, Option.bind_eq_bind] at h
  obtain ⟨⟨altChain', timestamps⟩, hbuild, h⟩ := Option.bind_eq_some_iff.mp h
  obtain ⟨prevHeight, hheight, h⟩ := Option.bind_eq_some_iff.mp h
  obtain ⟨prevCoins, hcoins, h⟩ := Option.bind_eq_some_iff.mp h
  simp only [Check.guard_bind_some] at h
  obtain ⟨-, -, h⟩ := h
  obtain ⟨currentDiff, -, h⟩ := Option.bind_eq_some_iff.mp h
  simp only [Check.guard_bind_some] at h
  obtain ⟨-, -, -, h⟩ := h
  obtain ⟨prevDifficulty, -, h⟩ := Option.bind_eq_some_iff.mp h
  simp only [Option.some.injEq, Prod.mk.injEq] at h
  obtain ⟨rfl, rfl, -⟩ := h
  exact ⟨timestamps, prevHeight, prevCoins, hbuild, hheight, hcoins, rfl, rfl, rfl, rfl⟩

/-- A block that is recorded is put into the table, and nothing but the pool changes besides. -/
theorem recordAlternativeBlock_recorded
    (h : node.recordAlternativeBlock p c now b extra = (.recorded chain reorganize, node')) :
    ∃ altChain bei isACheckpoint,
      node.checkAlternativeBlock p c b
        (node.chain.hardfork.getIdealVersion (getBlockHeight b)) =
          some (altChain, bei, isACheckpoint) ∧
      chain = altChain ++ [bei] ∧ node.alts.find? bei.id = none ∧
      node'.chain = node.chain ∧ node'.alts = node.alts.put altBefore bei := by
  simp only [recordAlternativeBlock] at h
  split at h
  · cases h
  split at h
  · cases h
  split at h
  · cases h
  split at h
  · cases h
  split at h
  · cases h
  · next altChain bei isACheckpoint hcheck =>
    split at h
    · cases h
    split at h
    · cases h
    · next hnew =>
      simp only [Prod.mk.injEq, AltOutcome.recorded.injEq] at h
      obtain ⟨⟨rfl, -⟩, rfl⟩ := h
      refine ⟨altChain, bei, isACheckpoint, hcheck, rfl, ?_, rfl, rfl⟩
      simp only [Bool.or_eq_true, not_or, Bool.not_eq_true, Option.isSome_eq_false_iff,
        Option.isNone_iff_eq_none] at hnew
      exact hnew.2

end AltNode

/-! ### Branches -/

/-- A new block in the table, with a hash that is not the one of the block on which the branch
stands, does not change a branch. -/
theorem Branch.put {db : Db} {alts : Keyed AltBlock.id} {split : ℕ} {l : List AltBlock} {id : Hash}
    {a : AltBlock} (h : Branch db alts split l id) (hnew : alts.find? a.id = none)
    (hmain : db.blockHeights a.id = none) : Branch db (alts.put altBefore a) split l id := by
  induction h with
  | root hheight hid hfind =>
    refine .root hheight hid ?_
    rw [Keyed.find?_put_of_ne, hfind]
    rintro rfl
    rw [hmain] at hheight
    cases hheight
  | @block l x hl hx hheight ih =>
    refine .block ih ?_ hheight
    rw [Keyed.find?_put_of_ne, hx]
    intro heq
    rw [heq, hnew] at hx
    cases hx

/-- Blocks recorded one after another on a branch, each on the one before it, from a block of the
main chain on, while the main chain stays as it is. A block with a hash that is known does not get
this far. -/
inductive RecordedBranch (p : AltParams) (c : Crypto) (start : AltNode) (split : ℕ) :
    AltNode → List AltBlock → Hash → Prop
  | root {id : Hash} (hheight : start.chain.db.blockHeights id = some (split - 1))
      (hid : start.chain.db.getBlockHashFromHeight (split - 1) = some id)
      (hmain : start.alts.find? id = none) : RecordedBranch p c start split start [] id
  | block {node node' : AltNode} {l chain : List AltBlock} {now : UInt64} {b : Block}
      {extra : PoolSupplement} (hrun : RecordedBranch p c start split node l b.prevId)
      (hnew : node.chain.db.blockExists (c.getBlockHash b) = false)
      (h : node.recordAlternativeBlock p c now b extra = (.recorded chain none, node')) :
      RecordedBranch p c start split node' chain (c.getBlockHash b)

section Recorded

variable {p : AltParams} {c : Crypto} {start node node' : AltNode} {split : ℕ}
  {l chain : List AltBlock} {id : Hash} {now : UInt64} {b : Block} {extra : PoolSupplement}
  {reorganize : Option Bool} {coins : UInt64}

/-- What holds along a branch that is recorded. -/
structure BranchOk (start : AltNode) (split : ℕ) (coins : UInt64) (node : AltNode)
    (l : List AltBlock) (id : Hash) : Prop where
  chain : node.chain = start.chain
  branch : Branch node.chain.db node.alts split l id
  coins : l.map AltBlock.alreadyGeneratedCoins = altCoins coins (l.map fun a => a.bl)

/-- One more block. -/
theorem BranchOk.record (hok : BranchOk start split coins node l b.prevId) (hsplit : 0 < split)
    (hheight : split < start.chain.db.height) (hdb : start.chain.db.Indexed)
    (hcoins : (start.chain.db.blockInfo.get? (split - 1)).map BlockInfo.coins = some coins)
    (h : node.recordAlternativeBlock p c now b extra = (.recorded chain reorganize, node')) :
    ∃ bei, chain = l ++ [bei] ∧ bei.bl = b ∧ bei.id = c.getBlockHash b ∧
      node'.chain = start.chain ∧ node.alts.find? bei.id = none ∧
      node'.alts = node.alts.put altBefore bei ∧ bei.height = split + l.length ∧
      chain.map AltBlock.alreadyGeneratedCoins = altCoins coins (chain.map fun a => a.bl) := by
  obtain ⟨altChain, bei, isACheckpoint, hcheck, rfl, hnew, hchain, halts⟩ :=
    AltNode.recordAlternativeBlock_recorded h
  obtain ⟨timestamps, prevHeight, prevCoins, hbuild, hprev, hprevCoins, hbl, hid, hheight', hbei⟩ :=
    AltNode.checkAlternativeBlock_some hcheck
  obtain ⟨hsame, hbranch, hold⟩ := hok
  obtain rfl : altChain = l := by
    have := hbranch.timestamps_eq (hsame ▸ hdb) hsplit (hsame ▸ hheight)
    rw [hbuild] at this
    exact (Prod.mk.inj (Option.some.inj this)).1
  obtain ⟨hprevHeight, hlastCoins⟩ : prevHeight + 1 = split + altChain.length ∧
      prevCoins = (altChain.map AltBlock.alreadyGeneratedCoins).getLast?.getD coins := by
    rcases eq_nil_or_concat altChain with rfl | ⟨front, prev, rfl⟩
    · -- the block stands on the main chain
      have hmain := (hbranch.of_nil rfl).1
      rw [fromParent, getLast?_nil, hmain] at hprev
      obtain rfl := Option.some.inj hprev
      rw [fromParent, getLast?_nil, hsame, hcoins] at hprevCoins
      exact ⟨by rw [length_nil]; omega, (Option.some.inj hprevCoins).symm⟩
    · rw [concat_eq_append] at hprev hprevCoins hbranch ⊢
      rw [fromParent, getLast?_concat, Option.some_inj] at hprev hprevCoins
      have hlast := hbranch.height_eq (show front.length < (front ++ [prev]).length by simp)
      rw [getElem_concat_length rfl] at hlast
      refine ⟨?_, ?_⟩
      · rw [← hprev, hlast, length_append, length_singleton]
        omega
      · rw [map_append, map_singleton, getLast?_concat, ← hprevCoins]
        rfl
  refine ⟨bei, rfl, hbl, hid, hchain.trans hsame, hnew, halts, hheight'.trans hprevHeight, ?_⟩
  rw [map_append, map_append, map_singleton, map_singleton, altCoins_concat,
    ← hold, hbei, hbl, hlastCoins]

/-- **A branch that is recorded.** -/
theorem RecordedBranch.ok (hrun : RecordedBranch p c start split node l id) (hsplit : 0 < split)
    (hheight : split < start.chain.db.height) (hdb : start.chain.db.Indexed)
    (hcoins : (start.chain.db.blockInfo.get? (split - 1)).map BlockInfo.coins = some coins) :
    BranchOk start split coins node l id := by
  induction hrun with
  | root hh hid hmain => exact ⟨rfl, .root hh hid hmain, rfl⟩
  | @block node node' l chain now b extra hrun hnew h ih =>
    obtain ⟨bei, rfl, hbl, hid, hchain, hfresh, halts, hbeiHeight, hmap⟩ :=
      ih.record hsplit hheight hdb hcoins h
    refine ⟨hchain, ?_, hmap⟩
    have hmain : node.chain.db.blockHeights bei.id = none := by
      rw [hid]
      exact Option.isSome_eq_false_iff.mp hnew |> Option.isNone_iff_eq_none.mp
    have hbelow := ih.branch.put hfresh hmain
    rw [hchain, ← ih.chain, halts, ← hid]
    subst hbl
    exact .block hbelow Keyed.find?_put_self hbeiHeight

end Recorded

/-! ### The same blocks on the main chain -/

/-- A block that is accepted on the main chain: the chain before it, what is computed for it, and
the chain behind it. -/
structure MainBlock where
  before : Blockchain
  result : Node.Processed
  after : Blockchain

/-- Blocks accepted one after another on the main chain, from `HF_VERSION_EXACT_COINBASE` on. -/
inductive MainRun (p : NodeParams) (c : Crypto) : Blockchain → List Block → List MainBlock → Prop
  | nil {chain : Blockchain} : MainRun p c chain [] []
  | block {node node' : Node} {now : UInt64} {b : Block} {extra : PoolSupplement}
      {r : Node.Processed} {bs : List Block} {ms : List MainBlock}
      (h : node.handleBlockToMainChain p c now b extra = (true, node'))
      (hr : node.Passes p c now b extra r)
      (hversion : hfVersionExactCoinbase ≤ node.chain.hfVersion)
      (hrun : MainRun p c node'.chain bs ms) :
      MainRun p c node.chain (b :: bs) (⟨node.chain, r, node'.chain⟩ :: ms)

/-- The fees of a block. -/
def MainBlock.fee (m : MainBlock) : UInt64 := m.result.gathered.feeSummary

/-- The total behind a block. -/
def MainBlock.coins (m : MainBlock) : UInt64 := m.after.db.alreadyGeneratedCoins

/-- The base reward alone exhausts the supply, and so does what is paid out. -/
def MainBlock.Exhausts (m : MainBlock) : Prop :=
  moneySupply - m.before.db.alreadyGeneratedCoins ≤ m.result.base ∧
    moneySupply - m.before.db.alreadyGeneratedCoins ≤ m.result.base + m.fee

/-- Two rewards lead to the same total exactly if they are the same, or both exhaust the supply. -/
theorem nextGeneratedCoins_inj {x y coins : UInt64} :
    (nextGeneratedCoins wrapping x coins : UInt64) = nextGeneratedCoins wrapping y coins ↔
      x = y ∨ moneySupply - coins ≤ x ∧ moneySupply - coins ≤ y := by
  have hcap : ∀ z : UInt64, coins + z = moneySupply → z = moneySupply - coins := fun z hz => by
    rw [← hz, UInt64.add_comm, UInt64.add_sub_cancel]
  change (if x < moneySupply - coins then coins + x else moneySupply) =
    (if y < moneySupply - coins then coins + y else moneySupply) ↔ _
  split_ifs with hx hy hy
  · rw [UInt64.add_right_inj]
    refine ⟨.inl, ?_⟩
    rintro (heq | ⟨hle, -⟩)
    · exact heq
    · exact absurd hx (UInt64.not_lt.mpr hle)
  · refine ⟨fun heq => ?_, ?_⟩
    · rw [← hcap x heq] at hx
      exact absurd hx (UInt64.lt_irrefl x)
    · rintro (rfl | ⟨hle, -⟩)
      · exact absurd hx hy
      · exact absurd hx (UInt64.not_lt.mpr hle)
  · refine ⟨fun heq => ?_, ?_⟩
    · rw [← hcap y heq.symm] at hy
      exact absurd hy (UInt64.lt_irrefl y)
    · rintro (rfl | ⟨-, hle⟩)
      · exact absurd hy hx
      · exact absurd hy (UInt64.not_lt.mpr hle)
  · exact iff_of_true rfl (.inr ⟨UInt64.not_lt.mp hx, UInt64.not_lt.mp hy⟩)

section Main

variable {p : NodeParams} {c : Crypto} {chain : Blockchain} {bs : List Block}
  {ms : List MainBlock}

/-- **The totals along blocks** that are accepted on the main chain, compared with those that are
recorded for them as alternative blocks from the same total on. -/
theorem MainRun.altCoins_eq_iff (h : MainRun p c chain bs ms) (hpos : 0 < chain.db.height) :
    altCoins chain.db.alreadyGeneratedCoins bs = ms.map MainBlock.coins ↔
      ∀ m ∈ ms, m.fee = 0 ∨ m.Exhausts := by
  induction h with
  | nil => simp [altCoins]
  | @block node node' now b extra r bs ms h hr hversion hrun ih =>
    obtain ⟨r', hr', hnode⟩ := Node.handleBlockToMainChain_true.mp h
    obtain rfl := hr.unique hr'
    have hdb : node'.chain.db = r'.db := by rw [hnode, Node.accept_db]
    have hheight : 0 < node'.chain.db.height := by
      obtain ⟨n, hstored⟩ := hr.stored
      rw [hdb, addBlock_height hstored]
      exact Nat.succ_pos _
    have hstep : coinsBehind b node.chain.db.alreadyGeneratedCoins =
        node'.chain.db.alreadyGeneratedCoins ↔
          r'.gathered.feeSummary = 0 ∨ MainBlock.Exhausts ⟨node.chain, r', node'.chain⟩ := by
      rw [hdb, hr.coins, coinsBehind, getOutsMoneyAmount, ← (hr.reward hpos hversion).2,
        nextGeneratedCoins_inj, and_comm]
      refine or_congr ?_ Iff.rfl
      conv_lhs => rhs; rw [← UInt64.add_zero r'.base]
      exact UInt64.add_right_inj _
    rw [altCoins, map_cons, List.cons.injEq, forall_mem_cons, ← ih hheight]
    constructor
    · rintro ⟨hfirst, hrest⟩
      refine ⟨hstep.mp hfirst, ?_⟩
      rw [← hrest, hfirst]
      rfl
    · rintro ⟨hfirst, hrest⟩
      have heq := hstep.mpr hfirst
      exact ⟨heq, by rw [heq]; exact hrest⟩

end Main

/-- **Coins on a branch.** For blocks recorded one after another on a branch and the same blocks
accepted one after another on the main chain as it is below the branch: the recorded totals are
those of the main chain exactly if every block has no fees or its base reward exhausts the
supply. -/
theorem altCoins_eq_mainCoins_iff {p : AltParams} {c : Crypto} {start node node' : AltNode}
    {split : ℕ} {l chain : List AltBlock} {now : UInt64} {b : Block} {extra : PoolSupplement}
    {reorganize : Option Bool} {first : Blockchain} {ms : List MainBlock}
    (hdb : start.chain.db.Indexed) (hsplit : 0 < split) (hheight : split < start.chain.db.height)
    (hrun : RecordedBranch p c start split node l b.prevId)
    (h : node.recordAlternativeBlock p c now b extra = (.recorded chain reorganize, node'))
    (hfirst : first.db.height = split)
    (hcoins : (start.chain.db.blockInfo.get? (split - 1)).map BlockInfo.coins =
      some first.db.alreadyGeneratedCoins)
    (hmain : MainRun p.toNodeParams c first (chain.map fun a => a.bl) ms) :
    chain.map AltBlock.alreadyGeneratedCoins = ms.map MainBlock.coins ↔
      ∀ m ∈ ms, m.fee = 0 ∨ m.Exhausts := by
  obtain ⟨bei, -, -, -, -, -, -, -, hmap⟩ :=
    (hrun.ok hsplit hheight hdb hcoins).record hsplit hheight hdb hcoins h
  rw [hmap, hmain.altCoins_eq_iff (by omega)]

/-! ### A block with fees -/

/-- A node without checkpoints that accepts every proof of work, of a fixed difficulty. -/
def AltParams.sample : AltParams :=
  { NodeParams.sample with
    fixedDifficulty := 1
    checkpoints := ⟨[], .nil⟩
    checkCheckpoint_eq := fun _ _ => rfl
    checkAltLonghash := fun _ _ _ => true }

/-- A block at height 10 of a chain of bound blocks, with another key than the one that is there,
and with the given amount and transactions. -/
def rivalBlock (amount : Amount) (txHashes : List Hash) : Block :=
  { boundBlock 16 10 with
    minerTx :=
      { (boundBlock 16 10).minerTx with
        vout := [⟨amount, .toTaggedKey ⟨natLe 5000, 0⟩⟩] }
    txHashes := txHashes }

/-- The transactions that come with the block: a spend of the first mined output. -/
def rivalSupplement : PoolSupplement where
  txsByTxid := ⟨[(natLe 1000, boundSpend 0, (serializeTransaction (boundSpend 0)).getD [])],
    nodup_singleton _⟩
  nicVerifiedHfVersion := 0

/-- The node with the block at height 10 that is there already. -/
def rivalNode (db : Db) : AltNode := ⟨⟨Blockchain.sample db, TxPool.empty⟩, Keyed.empty⟩

/-- The block is recorded with the given total. -/
def recordsTotal (b : Block) (total : UInt64) (db : Db) : Bool :=
  match (rivalNode db).recordAlternativeBlock AltParams.sample transparent 0 b .empty with
  | (.recorded [a] _, _) => decide (a.bl = b ∧ a.alreadyGeneratedCoins = total)
  | _ => false

/-- The block is accepted on the main chain, and the total behind it is the given one. -/
def acceptsTotal (b : Block) (extra : PoolSupplement) (total : UInt64) (db : Db) : Bool :=
  let r := Node.handleBlockToMainChain NodeParams.sample transparent 0
    ⟨Blockchain.sample db, TxPool.empty⟩ b extra
  r.1 && decide (r.2.chain.db.alreadyGeneratedCoins = total)

/-- One block on both sides: recorded on a branch from height 10 on, and accepted on the main chain
below it. -/
theorem exists_rival {b : Block} {extra : PoolSupplement} {altTotal mainTotal : UInt64}
    (hprev : b.prevId = natLe 10)
    (halt : okAnd (addBlocks transparent (boundChain 16 11) (Db.empty 0))
      (fun _ db => recordsTotal b altTotal db) = true)
    (hmain : okAnd (addBlocks transparent (boundChain 16 10) (Db.empty 0))
      (fun _ db => acceptsTotal b extra mainTotal db) = true) :
    ∃ (start node' : AltNode) (chain : List AltBlock) (reorganize : Option Bool)
      (first : Blockchain) (m : MainBlock), start.chain.db.Indexed ∧
      10 < start.chain.db.height ∧
      RecordedBranch AltParams.sample transparent start 10 start [] b.prevId ∧
      start.recordAlternativeBlock AltParams.sample transparent 0 b .empty =
        (.recorded chain reorganize, node') ∧ first.db.height = 10 ∧
      (start.chain.db.blockInfo.get? (10 - 1)).map BlockInfo.coins =
        some first.db.alreadyGeneratedCoins ∧
      MainRun AltParams.sample.toNodeParams transparent first (chain.map fun a => a.bl) [m] ∧
      (b.txHashes = [] → m.fee = 0) ∧
      chain.map AltBlock.alreadyGeneratedCoins = [altTotal] ∧ m.coins = mainTotal := by
  have hsolo : ∀ x ∈ boundChain 16 11, x.2.2 = [] ∧
      (blockToBlob x.1).bind parseBlock = some x.1 := by decide +kernel
  have hstart : okAnd (addBlocks transparent (boundChain 16 11) (Db.empty 0)) (fun _ db =>
      decide (db.height = 11 ∧ db.blockHeights (natLe 10) = some 9 ∧
        db.getBlockHashFromHeight 9 = some (natLe 10) ∧
        (db.blockInfo.get? 9).map BlockInfo.coins = some 0)) = true := by decide +kernel
  have hfirst : okAnd (addBlocks transparent (boundChain 16 10) (Db.empty 0)) (fun _ db =>
      decide (db.height = 10 ∧ db.alreadyGeneratedCoins = 0)) = true := by decide +kernel
  obtain ⟨⟨⟩, db, hchain, hdb⟩ := exists_of_okAnd hstart
  obtain ⟨⟨⟩, db₁, hchain₁, hrecords⟩ := exists_of_okAnd halt
  obtain ⟨⟨⟩, db₂, hchain₂, hdb₂⟩ := exists_of_okAnd hfirst
  obtain ⟨⟨⟩, db₃, hchain₃, haccepts⟩ := exists_of_okAnd hmain
  obtain ⟨-, rfl⟩ := EStateM.Result.ok.inj (hchain.symm.trans hchain₁)
  obtain ⟨-, rfl⟩ := EStateM.Result.ok.inj (hchain₂.symm.trans hchain₃)
  obtain ⟨hheight, hheights, hhash, hcoins⟩ := of_decide_eq_true hdb
  obtain ⟨hheight₂, hcoins₂⟩ := of_decide_eq_true hdb₂
  have hbuilt := (Reachable.of_solo (fun x hx => (hsolo x hx).1) (fun x hx => (hsolo x hx).2)
    hchain).built
  rw [recordsTotal] at hrecords
  split at hrecords
  · next a reorganize node' hrecord =>
    obtain ⟨hbl, htotal⟩ := of_decide_eq_true hrecords
    obtain ⟨node₁, hhandle, hafter⟩ := exists_of_trueAnd
      (r := Node.handleBlockToMainChain NodeParams.sample transparent 0
        ⟨Blockchain.sample db₂, TxPool.empty⟩ b extra)
      (q := fun node => decide (node.chain.db.alreadyGeneratedCoins = mainTotal)) haccepts
    obtain ⟨r, hr, -⟩ := Node.handleBlockToMainChain_true.mp hhandle
    refine ⟨rivalNode db, node', [a], reorganize, Blockchain.sample db₂,
      ⟨Blockchain.sample db₂, r, node₁.chain⟩, hbuilt.indexed, ?_, ?_, hrecord, hheight₂, ?_, ?_,
      ?_, ?_, of_decide_eq_true hafter⟩
    · exact Nat.lt_of_lt_of_eq (by decide) hheight.symm
    · rw [hprev]
      exact .root hheights hhash rfl
    · exact hcoins.trans (congrArg some hcoins₂.symm)
    · rw [map_singleton, hbl]
      exact .block hhandle hr (show hfVersionExactCoinbase ≤ (16 : UInt8) by decide) .nil
    · intro hnone
      rw [MainBlock.fee, Gathered.feeSummary, hr.gathered_txs hnone]
      rfl
    · rw [map_singleton, htotal]
  · cases hrecords

/-- A block whose transaction pays a fee: as an alternative block it is recorded with the fee as
generated coins, on the main chain it is stored without. -/
theorem altCoins_differ_by_fee :
    ∃ (b : Block) (start node' : AltNode) (chain : List AltBlock) (reorganize : Option Bool)
      (first : Blockchain) (m : MainBlock),
      RecordedBranch AltParams.sample transparent start 10 start [] b.prevId ∧
      start.recordAlternativeBlock AltParams.sample transparent 0 b .empty =
        (.recorded chain reorganize, node') ∧ first.db.height = 10 ∧
      (start.chain.db.blockInfo.get? (10 - 1)).map BlockInfo.coins =
        some first.db.alreadyGeneratedCoins ∧
      MainRun AltParams.sample.toNodeParams transparent first (chain.map fun a => a.bl) [m] ∧
      chain.map AltBlock.alreadyGeneratedCoins = [85714285711286] ∧
      m.coins = 42857142857143 := by
  obtain ⟨start, node', chain, reorganize, first, m, -, -, hrun, hrecord, hfirst, hcoins, hmain, -,
    halt, htotal⟩ := @exists_rival (rivalBlock 85714285711286 [natLe 1000])
      rivalSupplement 85714285711286 42857142857143 rfl (by decide +kernel) (by decide +kernel)
  exact ⟨_, start, node', chain, reorganize, first, m, hrun, hrecord, hfirst, hcoins, hmain, halt,
    htotal⟩

/-- A block without transactions. -/
theorem altCoins_eq_without_fee :
    ∃ (start node' : AltNode) (chain : List AltBlock) (reorganize : Option Bool)
      (first : Blockchain) (m : MainBlock),
      start.recordAlternativeBlock AltParams.sample transparent 0
        (rivalBlock 42857142857143 []) .empty = (.recorded chain reorganize, node') ∧
      MainRun AltParams.sample.toNodeParams transparent first (chain.map fun a => a.bl) [m] ∧
      chain.map AltBlock.alreadyGeneratedCoins = [m].map MainBlock.coins := by
  obtain ⟨start, node', chain, reorganize, first, m, hdb, hheight, hrun, hrecord, hfirst, hcoins,
    hmain, hfee, -⟩ := @exists_rival (rivalBlock 42857142857143 []) .empty 42857142857143
      42857142857143 rfl (by decide +kernel) (by decide +kernel)
  refine ⟨start, node', chain, reorganize, first, m, hrecord, hmain, ?_⟩
  refine (altCoins_eq_mainCoins_iff hdb (by decide) hheight hrun hrecord hfirst hcoins hmain).mpr ?_
  rintro _ (_ | ⟨_, ⟨⟩⟩)
  exact .inl (hfee rfl)

end Hidering
