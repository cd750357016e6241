import Hidering.Chain.Node
import Hidering.Db.Invariant

/-!
# The supply over runs of accepted blocks

Every block stores the coins generated up to it. From `HF_VERSION_EXACT_COINBASE` on a miner
transaction pays out exactly the reward and the fees of its block, so that the stored number is the
sum of what the miner transactions have paid out beyond fees. It grows from block to block and
stops at the supply.

The sums of the claim are exact; the program adds in 64 bits. `MinedRun` asks for sums of reward
and fees that fit, and the outputs of a miner transaction cannot overflow since they are checked.

## Main definitions

* `Hidering.MinedBlock`, `Hidering.MinedRun` — a run of accepted blocks from the first one on

## Main results

* `Hidering.MinedRun.supply` — the coins of a run
-/

namespace Hidering

open Machine Store Crypto

/-! ### One block -/

/-- The coins stored with a new block are those of the top block. -/
theorem addBlock_alreadyGeneratedCoins {c : Crypto} {blk : Block} {info : BlockMeta}
    {txs : List (Transaction × Wire.Bytes)} {db db' : Db} {n : ℕ}
    (h : addBlock c blk info txs db = .ok n db') :
    db'.alreadyGeneratedCoins = info.coinsGenerated := by
  obtain ⟨-, cumRct, -, hinfo⟩ := addBlock_blocks h
  rw [Db.alreadyGeneratedCoins, addBlock_height h, Nat.add_sub_cancel,
    Table.get?_append_self hinfo]
  rfl

/-- From `HF_VERSION_EXACT_COINBASE` on an accepted miner transaction pays out the reward and the
fees. -/
theorem validateMinerTransaction_exact {minerTx : TransactionPrefix}
    {weight fee coins median lastMedian base : UInt64} {version : UInt8} {part : Bool}
    (hversion : hfVersionExactCoinbase ≤ version)
    (h : validateMinerTransaction minerTx weight fee coins version median lastMedian =
      some (base, part)) :
    getBlockReward wrapping median weight coins version = some base ∧
      base + fee = sum (minerTx.vout.map TxOut.amount) := by
  have hmedian : hfVersionEffectiveShortTermMedianInPenalty ≤ version :=
    UInt8.le_trans (by decide) hversion
  have h3 : version ≠ 3 := by
    rintro rfl
    exact absurd hversion (by decide)
  simp only [validateMinerTransaction, h3, false_and, if_false, if_pos hmedian] at h
  cases hreward : (getBlockReward wrapping median weight coins version : Option UInt64) with
  | none => simp [hreward] at h
  | some r =>
    simp only [hreward, hversion, or_true, if_true] at h
    split at h
    · cases h
    · split at h
      · cases h
      · next hpays =>
        obtain ⟨rfl, -⟩ := Prod.mk.inj (Option.some.inj h)
        exact ⟨rfl, not_not.mp hpays⟩

/-- What a miner transaction has passed before the rest of its block is looked at. -/
theorem prevalidateMinerTransaction_true {minerTx : Transaction} {height : ℕ} {version : UInt8} :
    prevalidateMinerTransaction minerTx height version = true ↔
      ∃ h : UInt64, minerTx.vin = [.gen h] ∧
        (1 < minerTx.version ∨ version < hfVersionMinV2CoinbaseTx) ∧
        (hfVersionRejectSigsInCoinbase ≤ version → 2 ≤ minerTx.version →
          minerTx.rctSignatures.type = rctTypeNull) ∧
        h.toNat = height ∧
        minerTx.unlockTime.toNat = height + cryptonoteMinedMoneyUnlockWindow ∧
        checkOutsOverflow minerTx = true ∧
        checkOutputTypes minerTx version = true := by
  rw [prevalidateMinerTransaction]
  split
  · next h hvin =>
    simp only [hvin, List.cons.injEq, Txin.gen.injEq, and_true, exists_eq_left', Bool.and_eq_true,
      Bool.or_eq_true, decide_eq_true_eq, Bool.not_eq_true', beq_iff_eq, and_assoc,
      Bool.and_eq_false_imp, decide_eq_false_iff_not, or_iff_not_imp_left, not_forall, not_not,
      exists_prop, and_imp]
  · next hvin =>
    simp only [Bool.false_eq_true, false_iff, not_exists]
    rintro h ⟨h', -⟩
    exact hvin h h'

namespace Node

variable {p : NodeParams} {c : Crypto} {now : UInt64} {node : Node} {b : Block}
  {extra : PoolSupplement} {r : Processed}

/-- The coins that an accepted block stores. -/
theorem Passes.coins (h : node.Passes p c now b extra r) : r.db.alreadyGeneratedCoins =
    (nextGeneratedCoins wrapping r.base node.chain.db.alreadyGeneratedCoins : UInt64) := by
  obtain ⟨n, hstored⟩ := h.stored
  rw [addBlock_alreadyGeneratedCoins hstored, Blockchain.blockMeta]

/-- The outputs of the miner transaction of an accepted block do not overflow. -/
theorem Passes.outputs_lt (h : node.Passes p c now b extra r) :
    exactSum (b.minerTx.vout.map TxOut.amount) < 2 ^ 64 := by
  obtain ⟨-, -, -, -, -, -, -, hminer⟩ := Blockchain.checkBlock_some.mp h.checked
  obtain ⟨-, -, -, -, -, -, hover, -⟩ := prevalidateMinerTransaction_true.mp hminer
  simpa using noOverflow_iff.mp hover

/-- The reward of an accepted block behind the first one. -/
theorem Passes.reward (h : node.Passes p c now b extra r) (hheight : 0 < node.chain.db.height)
    (hversion : hfVersionExactCoinbase ≤ node.chain.hfVersion) :
    getBlockReward wrapping node.chain.currentBlockCumulWeightMedian r.weight
        node.chain.db.alreadyGeneratedCoins node.chain.hfVersion = some r.base ∧
      r.base + r.gathered.feeSummary = sum (b.minerTx.vout.map TxOut.amount) := by
  have hrewarded := h.rewarded
  rw [Blockchain.checkReward, if_neg hheight.ne', Option.map_eq_some_iff] at hrewarded
  obtain ⟨⟨base, part⟩, hvalid, hbase⟩ := hrewarded
  obtain rfl : base = r.base := hbase
  exact validateMinerTransaction_exact hversion hvalid

end Node

/-! ### Runs -/

/-- A block of a run, with the node before it and what was computed for it. -/
structure MinedBlock where
  node : Node
  now : UInt64
  block : Block
  extra : PoolSupplement
  processed : Node.Processed

namespace MinedBlock

variable (m : MinedBlock)

/-- What the miner transaction pays out. -/
def outputs : ℕ := exactSum (m.block.minerTx.vout.map TxOut.amount)

/-- The fees of the transactions of the block. -/
def fees : ℕ := exactSum (m.processed.gathered.txs.map TakenTx.fee)

/-- The generated coins before the block. -/
def coinsBefore : UInt64 := m.node.chain.db.alreadyGeneratedCoins

/-- The generated coins that are stored with the block. -/
def coins : UInt64 := m.processed.db.alreadyGeneratedCoins

/-- Neither `get_block_reward` nor the update of the generated coins wraps around: with checked
operations they compute the same. -/
def NoWrap : Prop :=
  getBlockReward checked m.node.chain.currentBlockCumulWeightMedian m.processed.weight
      m.coinsBefore m.node.chain.hfVersion = some (some m.processed.base) ∧
    nextGeneratedCoins checked m.processed.base m.coinsBefore = some m.coins

end MinedBlock

/-- Blocks that a node has accepted one after the other, from the first block on. Between two
blocks the pool may change in any way. From the second block on the version asks for exact miner
transactions, medians are below `2 ^ 32`, and the sums of reward and fees fit. -/
inductive MinedRun (p : NodeParams) (c : Crypto) : List MinedBlock → Node → Prop
  | genesis {node node' : Node} {now : UInt64} {b : Block} {extra : PoolSupplement} {seed : UInt32}
      (hempty : node.chain.db = Db.empty seed)
      (h : node.handleBlockToMainChain p c now b extra = (true, node')) : MinedRun p c [] node'
  | block {l : List MinedBlock} {node : Node} {m : MinedBlock} {node' : Node}
      (hrun : MinedRun p c l node) (hchain : m.node.chain = node.chain)
      (hversion : hfVersionExactCoinbase ≤ m.node.chain.hfVersion)
      (hmedian : m.node.chain.currentBlockCumulWeightMedian.toNat < 2 ^ 32)
      (h : m.node.handleBlockToMainChain p c m.now m.block m.extra = (true, node'))
      (hpasses : m.node.Passes p c m.now m.block m.extra m.processed)
      (hfees : m.processed.base.toNat + m.fees < 2 ^ 64) : MinedRun p c (l ++ [m]) node'

variable {now : UInt64} {b : Block}

section Run

variable {p : NodeParams} {c : Crypto} {l : List MinedBlock} {node : Node} {m : MinedBlock}

theorem Node.accept_db {db : Db} {g : Gathered} : (node.accept p c now b db g).chain.db = db := by
  rw [Node.accept_chain]
  rfl

/-- The first block generates no coins. -/
theorem coins_genesis {node node' : Node} {extra : PoolSupplement} {seed : UInt32}
    (hempty : node.chain.db = Db.empty seed)
    (h : node.handleBlockToMainChain p c now b extra = (true, node')) :
    node'.chain.db.alreadyGeneratedCoins = 0 ∧ 0 < node'.chain.db.height := by
  obtain ⟨r, hr, rfl⟩ := Node.handleBlockToMainChain_true.mp h
  have hbase := hr.rewarded
  rw [Blockchain.checkReward, if_pos (by rw [hempty]; rfl), Option.some_inj] at hbase
  have hcoins : node.chain.db.alreadyGeneratedCoins = 0 := by rw [hempty]; rfl
  obtain ⟨n, hstored⟩ := hr.stored
  rw [Node.accept_db]
  refine ⟨?_, by rw [addBlock_height hstored]; exact Nat.succ_pos _⟩
  rw [hr.coins, ← hbase, hcoins]
  decide +kernel

/-- **One block.** The stored coins grow by what the miner transaction pays out beyond the fees of
the block, and nothing wraps around. -/
theorem MinedBlock.step (hheight : 0 < m.node.chain.db.height)
    (hversion : hfVersionExactCoinbase ≤ m.node.chain.hfVersion)
    (hmedian : m.node.chain.currentBlockCumulWeightMedian.toNat < 2 ^ 32)
    (hpasses : m.node.Passes p c m.now m.block m.extra m.processed)
    (hfees : m.processed.base.toNat + m.fees < 2 ^ 64) (hsupply : m.coinsBefore ≤ moneySupply) :
    (m.coins.toNat : ℤ) = m.coinsBefore.toNat + (m.outputs - m.fees) ∧
      m.coinsBefore ≤ m.coins ∧ m.coins ≤ moneySupply ∧ m.NoWrap := by
  obtain ⟨hreward, hpays⟩ := hpasses.reward hheight hversion
  obtain ⟨reward, hchecked, hfits⟩ := @getBlockReward_checked _ m.processed.weight _
    m.node.chain.hfVersion hmedian hsupply
  obtain rfl : reward = some m.processed.base := by
    rw [← hreward]
    exact (agree_getBlockReward _ _ _ _ _ hchecked).symm
  have hfit := hfits _ rfl
  obtain ⟨next, hnext, hwrap, hnat⟩ := nextGeneratedCoins_checked hfit
  have hcoins : m.coins = next := by
    rw [MinedBlock.coins, hpasses.coins]
    exact hwrap
  have hsum : m.processed.gathered.feeSummary.toNat = m.fees := toNat_sum (by
    have := hfees
    rw [MinedBlock.fees] at this
    omega)
  have houtputs : m.outputs = m.processed.base.toNat + m.fees := by
    rw [MinedBlock.outputs, ← toNat_sum hpasses.outputs_lt, ← hpays,
      toNat_add_of_lt (by rw [hsum]; exact hfees), hsum]
  refine ⟨?_, ?_, ?_, hchecked, by rw [hnext, hcoins]⟩
  · rw [hcoins, hnat, houtputs]
    push_cast
    ring
  · rw [hcoins, UInt64.le_iff_toNat_le, hnat]
    exact Nat.le_add_right _ _
  · rw [hcoins, UInt64.le_iff_toNat_le, hnat]
    exact hfit

theorem MinedRun.height_pos (h : MinedRun p c l node) : 0 < node.chain.db.height := by
  cases h with
  | genesis hempty h => exact (coins_genesis hempty h).2
  | block _ _ _ _ h =>
    obtain ⟨r, hr, rfl⟩ := Node.handleBlockToMainChain_true.mp h
    obtain ⟨n, hstored⟩ := hr.stored
    rw [Node.accept_db, addBlock_height hstored]
    exact Nat.succ_pos _

/-- **Supply.** Over a run of accepted blocks what the miner transactions pay out beyond the fees
adds up to the coins stored with the last block. The stored coins never go down and never exceed
the supply, and no operation of `get_block_reward` or of the update wraps around. -/
theorem MinedRun.supply (h : MinedRun p c l node) :
    (l.map fun m => (m.outputs : ℤ) - m.fees).sum = node.chain.db.alreadyGeneratedCoins.toNat ∧
      (l.map MinedBlock.coins).Pairwise (· ≤ ·) ∧
      node.chain.db.alreadyGeneratedCoins ≤ moneySupply ∧
      ∀ m ∈ l, m.coins ≤ node.chain.db.alreadyGeneratedCoins ∧ m.NoWrap := by
  induction h with
  | genesis hempty h =>
    rw [(coins_genesis hempty h).1]
    exact ⟨rfl, List.Pairwise.nil, by decide, by simp⟩
  | @block l node m node' hrun hchain hversion hmedian h hpasses hfees ih =>
    obtain ⟨hsum, hmono, hsupply, hall⟩ := ih
    obtain ⟨r, hr, rfl⟩ := Node.handleBlockToMainChain_true.mp h
    obtain rfl := hpasses.unique hr
    have hbefore : m.coinsBefore = node.chain.db.alreadyGeneratedCoins := by
      rw [MinedBlock.coinsBefore, hchain]
    have hpos : 0 < m.node.chain.db.height := by rw [hchain]; exact hrun.height_pos
    obtain ⟨hstep, hle, hcap, hwrap⟩ :=
      MinedBlock.step hpos hversion hmedian hpasses hfees (by rw [hbefore]; exact hsupply)
    have htop : m.processed.db.alreadyGeneratedCoins = m.coins := rfl
    rw [Node.accept_db, htop]
    rw [hbefore] at hstep hle
    have hbelow : ∀ m' ∈ l, m'.coins ≤ m.coins := fun m' hm' =>
      UInt64.le_trans (hall m' hm').1 hle
    refine ⟨?_, ?_, hcap, ?_⟩
    · rw [List.map_append, List.sum_append, hsum, hstep]
      simp
    · rw [List.map_append, List.pairwise_append]
      refine ⟨hmono, List.pairwise_singleton _ _, ?_⟩
      simpa using hbelow
    · intro m' hm'
      rcases List.mem_append.mp hm' with hm' | hm'
      · exact ⟨hbelow m' hm', (hall m' hm').2⟩
      · rw [List.mem_singleton.mp hm']
        exact ⟨UInt64.le_refl _, hwrap⟩

end Run

/-- A block without transactions has no fees. -/
theorem Node.Passes.gathered_txs {p : NodeParams} {c : Crypto} {node : Node}
    {extra : PoolSupplement} {r : Node.Processed} (hb : b.txHashes = [])
    (h : node.Passes p c now b extra r) : r.gathered.txs = [] := by
  have htaken := h.taken
  rw [hb, Blockchain.gatherTxs] at htaken
  rw [← (Prod.mk.inj htaken).2]

/-- The first two blocks of a private chain; the second one pays out the first reward. -/
theorem MinedRun.supply_second_block :
    ∃ l node, MinedRun NodeParams.sample transparent l node ∧ l.length = 1 ∧
      (l.map fun m => (m.outputs : ℤ) - m.fees).sum =
        node.chain.db.alreadyGeneratedCoins.toNat := by
  obtain ⟨node₀, h₀, hnode₀⟩ := exists_of_trueAnd
    (r := Node.start.handleBlockToMainChain NodeParams.sample transparent 0
      (minedBlock 1 0 0) PoolSupplement.empty)
    (q := fun node => decide (node.chain.hfVersion = 16 ∧
        node.chain.currentBlockCumulWeightMedian = 300000) &&
      (node.handleBlockToMainChain NodeParams.sample transparent 0
        (minedBlock 16 1 42857142857143) PoolSupplement.empty).1) (by decide +kernel)
  obtain ⟨hchain, h₁⟩ := Bool.and_eq_true_iff.mp hnode₀
  obtain ⟨hversion, hmedian⟩ := of_decide_eq_true hchain
  obtain ⟨r, hr, hnode₁⟩ := Node.handleBlockToMainChain_true.mp (Prod.ext h₁ rfl)
  have hrun : MinedRun NodeParams.sample transparent [⟨node₀, 0, _, _, r⟩] _ :=
    .block (l := []) (.genesis rfl h₀) rfl (by rw [hversion]; decide) (by rw [hmedian]; decide)
      (Prod.ext h₁ rfl) hr (by
        have hfees : exactSum (r.gathered.txs.map TakenTx.fee) = 0 := by
          rw [hr.gathered_txs rfl]
          rfl
        rw [MinedBlock.fees, hfees]
        exact r.base.toNat_lt)
  exact ⟨_, _, hrun, rfl, hrun.supply.1⟩

end Hidering
