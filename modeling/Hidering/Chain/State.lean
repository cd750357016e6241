import Hidering.Chain.HardFork
import Hidering.Verify.Inputs

/-!
# The state of the chain

The members of `Blockchain` that the verification of blocks and transactions reads, apart from the
pool: the database, the hard-fork object and the limits on block weight, which
`update_next_cumulative_weight_limit` derives from the weights of the last blocks.

The difficulty and the proof of work of a block are parameters (`NodeParams`), as is the table of
precomputed block hashes. The caches of `get_difficulty_for_next_block`, of the long-term median
and of verified ring signatures are not part of the state: the functions compute what the caches
hold.

## Main definitions

* `Hidering.NodeParams`, `Hidering.Blockchain`
* `Hidering.Blockchain.updateNextCumulativeWeightLimit`, `getNextLongTermBlockWeight`
* `Hidering.Blockchain.checkFee`, `checkBlockTimestamp`, `checkTxInputs`
-/

namespace Hidering

open Wire Machine Check

/-- What is fixed for a node. -/
structure NodeParams where
  /-- `get_difficulty_for_next_block` at a hard-fork version -/
  getDifficultyForNextBlock : Db → UInt8 → ℕ
  /-- `check_hash` of `get_block_longhash` for a block at a height, against a difficulty -/
  checkProofOfWork : Db → Block → ℕ → ℕ → Bool
  /-- the block hash at a height does not contradict `m_checkpoints` -/
  checkCheckpoint : ℕ → Hash → Bool
  /-- `m_blocks_hash_check`: precomputed block hashes and weights -/
  blocksHashCheck : List (Hash × ℕ)
  /-- the order in which the pool sorts fees per byte, `fee / (double)weight` -/
  feePerByte : UInt64 → ℕ → ℕ
  /-- `m_mine_stem_txes` -/
  mineStemTxes : Bool

/-- A node that accepts every proof of work and knows no precomputed hashes. -/
def NodeParams.sample : NodeParams where
  getDifficultyForNextBlock _ _ := 1
  checkProofOfWork _ _ _ _ := true
  checkCheckpoint _ _ := true
  blocksHashCheck := []
  feePerByte fee weight := fee.toNat / weight
  mineStemTxes := false

/-- The members of `Blockchain`. -/
structure Blockchain where
  db : Db
  hardfork : HardFork
  /-- `m_current_block_cumul_weight_median` -/
  currentBlockCumulWeightMedian : UInt64
  /-- `m_current_block_cumul_weight_limit` -/
  currentBlockCumulWeightLimit : UInt64
  /-- `m_long_term_effective_median_block_weight` -/
  longTermEffectiveMedianBlockWeight : UInt64

/-! ### Reading the database -/

namespace Db

/-- `get_block_info` of the last `count` blocks, or of all of them if there are fewer. -/
def lastBlockInfos (db : Db) (count : ℕ) : List BlockInfo :=
  (db.blockInfo.drop (db.height - min db.height count)).map Prod.snd

/-- `top_block_hash`; the null hash for an empty chain. -/
def topBlockHash (db : Db) : Hash :=
  ((db.blockInfo.get? (db.height - 1)).map BlockInfo.hash).getD default

/-- `get_block_already_generated_coins` of the top block; 0 for an empty chain. -/
def alreadyGeneratedCoins (db : Db) : UInt64 :=
  ((db.blockInfo.get? (db.height - 1)).map BlockInfo.coins).getD 0

/-- `get_block_cumulative_difficulty` of the top block; 0 for an empty chain. -/
def cumulativeDifficulty (db : Db) : ℕ :=
  ((db.blockInfo.get? (db.height - 1)).map BlockInfo.diff).getD 0

/-- `block_exists`. -/
def blockExists (db : Db) (h : Hash) : Bool := (db.blockHeights h).isSome

/-- The median of the weights of the last blocks. -/
def lastBlocksWeightMedian (db : Db) : UInt64 :=
  median ((db.lastBlockInfos cryptonoteRewardBlocksWindow).map fun i => UInt64.ofNat i.weight)

/-- `get_long_term_block_weight_median` over the long-term window. -/
def longTermBlockWeightMedian (db : Db) : UInt64 :=
  median ((db.lastBlockInfos cryptonoteLongTermBlockWeightWindowSize).map fun i =>
    UInt64.ofNat i.longTermBlockWeight)

/-- The long-term median, at least the full reward zone. -/
def longTermEffectiveMedian (db : Db) : UInt64 := max fullRewardZoneV5 db.longTermBlockWeightMedian

end Db

namespace Blockchain

variable (p : NodeParams) (chain : Blockchain)

/-- `get_current_hard_fork_version`. -/
def hfVersion : UInt8 := chain.hardfork.getCurrentVersion

/-- What the checks of transactions read at a time. -/
def view (now : UInt64) : ChainView := ⟨chain.db, chain.hfVersion, now⟩

/-! ### Block weights -/

/-- The median that the next block is measured against, before the full reward zone is applied. -/
def nextWeightMedian : UInt64 :=
  if chain.hfVersion < hfVersionLongTermBlockWeight then chain.db.lastBlocksWeightMedian
  else
    let longTerm := chain.db.longTermEffectiveMedian
    let lower := if hfVersion2021Scaling ≤ chain.hfVersion then longTerm else fullRewardZoneV5
    min (max lower chain.db.lastBlocksWeightMedian)
      (cryptonoteShortTermBlockWeightSurgeFactor * longTerm)

/-- `update_next_cumulative_weight_limit`. -/
def updateNextCumulativeWeightLimit : Blockchain :=
  let median := effectiveMedian chain.nextWeightMedian chain.hfVersion
  { chain with
    currentBlockCumulWeightMedian := median
    currentBlockCumulWeightLimit := median * 2
    longTermEffectiveMedianBlockWeight :=
      if chain.hfVersion < hfVersionLongTermBlockWeight then
        chain.longTermEffectiveMedianBlockWeight
      else chain.db.longTermEffectiveMedian }

/-- `get_next_long_term_block_weight`; it throws for an empty chain, which has no median. -/
def getNextLongTermBlockWeight (blockWeight : UInt64) : Option UInt64 :=
  if chain.hfVersion < hfVersionLongTermBlockWeight then some blockWeight
  else if chain.db.height = 0 then none
  else
    let longTerm := chain.db.longTermEffectiveMedian
    if hfVersion2021Scaling ≤ chain.hfVersion then
      some (min (max blockWeight (longTerm * 10 / 17)) (longTerm + longTerm * 7 / 10))
    else some (min blockWeight (longTerm + longTerm * 2 / 5))

/-! ### Fees -/

/-- `get_dynamic_base_fee`. -/
def getDynamicBaseFee (blockReward medianBlockWeight : UInt64) : UInt64 :=
  let medianBlockWeight := max fullRewardZoneV5 medianBlockWeight
  let product := mul128 blockReward dynamicFeeReferenceTransactionWeight
  let lo := (div128 (div128 product medianBlockWeight) medianBlockWeight).2
  let lo := lo - lo / 20
  if lo = 0 then 1 else lo

/-- The fee that `check_fee` asks for, before its tolerance of 2%. -/
def neededFee (txWeight : UInt64) (baseReward median : UInt64) : UInt64 :=
  let feePerByte := getDynamicBaseFee baseReward
    (min median chain.longTermEffectiveMedianBlockWeight) / 100
  (txWeight * feePerByte + feeQuantizationMask - 1) / feeQuantizationMask * feeQuantizationMask

/-- `check_fee`. -/
def checkFee (txWeight : ℕ) (fee : UInt64) : Bool :=
  let median := chain.currentBlockCumulWeightLimit / 2
  match getBlockReward wrapping median 1 chain.db.alreadyGeneratedCoins chain.hfVersion with
  | none => false
  | some baseReward =>
    let needed := chain.neededFee (UInt64.ofNat txWeight) baseReward median
    decide (needed - needed / 50 ≤ fee)

/-! ### Timestamps and inputs -/

/-- `check_block_timestamp`. -/
def checkBlockTimestamp (now : UInt64) (b : Block) : Bool :=
  decide (b.timestamp ≤ now + UInt64.ofNat cryptonoteBlockFutureTimeLimit) &&
    (decide (chain.db.height < blockchainTimestampCheckWindow) ||
      decide (median (lastTimestamps chain.db chain.db.height) ≤ b.timestamp))

/-- `check_tx_inputs(tx, max_used_block_height, max_used_block_id, tvc, kept_by_block)`; the block
that the height names is only reported. A transaction that was in a block is let through below the
end of the precomputed hashes. -/
def checkTxInputs (c : Crypto) (now : UInt64) (tx : Transaction) (keptByBlock : Bool) :
    Verdict Unit :=
  if chain.db.height < p.blocksHashCheck.length ∧ keptByBlock then pure ()
  else do
    let r ← Hidering.checkTxInputs c (chain.view now) RctVerCache.empty tx
    ensure (decide (r.1 < chain.db.height)) []

/-- A private chain of version 16 with the given blocks. -/
def sample (db : Db) : Blockchain :=
  updateNextCumulativeWeightLimit
    { db := db
      hardfork := { HardFork.start privateHardForks 10 1 with currentForkIndex := 1 }
      currentBlockCumulWeightMedian := 0
      currentBlockCumulWeightLimit := 0
      longTermEffectiveMedianBlockWeight := 0 }

end Blockchain

end Hidering
