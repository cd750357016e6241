import Hidering.Machine.Run
import Hidering.Pool.TxPool

/-!
# Blocks on the main chain

`handle_block_to_main_chain` and `pop_block_from_blockchain` over the chain and the pool together:
the checks on the block, the loop that takes its transactions from the pool or from the block's
supplement, the miner transaction, and the update of all state. A block that is refused still
changes the pool: what had been taken is put back as a transaction from a block.

The clock is read once per call. Where the source throws outside a `try`, the call fails and what
has been done stays done. The transactions that are announced to clients, the notifications and
the marks for invalid blocks are left out.

## Main definitions

* `Hidering.Node`, `Hidering.PoolSupplement`
* `Hidering.Node.handleBlockToMainChain`, `popBlockFromBlockchain`

## Main results

* `Hidering.Node.handleBlockToMainChain_true` — what an accepted block has passed, and the node
  after it
-/

namespace Hidering

open Wire Machine Store Crypto

/-- The chain and the pool. -/
structure Node where
  chain : Blockchain
  pool : TxPool

/-- `pool_supplement`: transactions that came with a block. -/
structure PoolSupplement where
  /-- `txs_by_txid` -/
  txsByTxid : Keyed (Prod.fst : Hash × Transaction × Bytes → Hash)
  nicVerifiedHfVersion : UInt8

/-- No transactions. -/
def PoolSupplement.empty : PoolSupplement := ⟨Keyed.empty, 0⟩

/-- `ver_non_input_consensus` for a supplement: nothing is checked again for a version at which it
has been checked. -/
def PoolSupplement.verNonInputConsensus (c : Crypto) (s : PoolSupplement) (hfVersion : UInt8) :
    Bool :=
  s.nicVerifiedHfVersion == hfVersion ||
    Check.passes (Hidering.verNonInputConsensus c hfVersion
      (s.txsByTxid.entries.map fun e => e.2.1))

/-! ### Checks on the block -/

/-- The lookup in `m_blocks_hash_check`: whether the block is known there, or `none` if another one
is. -/
def NodeParams.fastCheck (p : NodeParams) (height : ℕ) (id : Hash) : Option Bool :=
  match p.blocksHashCheck[height]? with
  | none => some false
  | some (expected, _) =>
    if expected = default then some false else if id = expected then some true else none

namespace Blockchain

variable (p : NodeParams) (c : Crypto) (chain : Blockchain) (now : UInt64)

/-- `get_difficulty_for_next_block`. -/
def nextDifficulty : ℕ := p.getDifficultyForNextBlock chain.db chain.hfVersion

/-- The checks on a block in front of its transactions; returns `fast_check`, or `none` if the
block is refused. -/
def checkBlock (b : Block) : Option Bool := do
  let height := chain.db.height
  let id := c.getBlockHash b
  guard (b.prevId = chain.db.topBlockHash)
  guard (chain.hardfork.check b)
  guard (chain.checkBlockTimestamp now b)
  guard (chain.nextDifficulty p ≠ 0)
  let fast ← p.fastCheck height id
  guard (fast || p.checkProofOfWork chain.db b height (chain.nextDifficulty p))
  guard (p.checkCheckpoint height id)
  guard (prevalidateMinerTransaction b.minerTx height chain.hfVersion)
  some fast

/-- What a block has passed in front of its transactions. -/
theorem checkBlock_some {p : NodeParams} {c : Crypto} {chain : Blockchain} {now : UInt64}
    {b : Block} {fast : Bool} :
    chain.checkBlock p c now b = some fast ↔
      b.prevId = chain.db.topBlockHash ∧ chain.hardfork.check b = true ∧
      chain.checkBlockTimestamp now b = true ∧ chain.nextDifficulty p ≠ 0 ∧
      p.fastCheck chain.db.height (c.getBlockHash b) = some fast ∧
      (fast || p.checkProofOfWork chain.db b chain.db.height (chain.nextDifficulty p)) = true ∧
      p.checkCheckpoint chain.db.height (c.getBlockHash b) = true ∧
      prevalidateMinerTransaction b.minerTx chain.db.height chain.hfVersion = true := by
  simp only [checkBlock, Option.bind_eq_bind, Check.guard_bind_some]
  rw [Option.bind_eq_some_iff]
  simp only [Check.guard_bind_some]
  constructor
  · rintro ⟨hprev, hfork, htime, hdiff, fast', hfast, hpow, hpoint, hminer, h⟩
    obtain rfl := Option.some.inj h
    exact ⟨hprev, hfork, htime, hdiff, hfast, hpow, hpoint, hminer⟩
  · rintro ⟨hprev, hfork, htime, hdiff, hfast, hpow, hpoint, hminer⟩
    exact ⟨hprev, hfork, htime, hdiff, fast, hfast, hpow, hpoint, hminer, rfl⟩

/-- `get_transaction_weight(bl.miner_tx)`; `none` where it throws. -/
def coinbaseWeight (b : Block) : Option ℕ :=
  getTransactionWeight b.minerTx (getTransactionBlobSize b.minerTx)

/-- `check_tx_inputs(tx, tvc)`, as it is called for the transactions of a block. -/
def checkBlockTxInputs (tx : Transaction) : Bool :=
  Check.passes (Hidering.checkTxInputs c (chain.view now) RctVerCache.empty tx)

end Blockchain

/-! ### The transactions of a block -/

/-- A transaction taken for a block: an element of `txs` with its element of `txs_meta`. -/
structure TakenTx where
  txid : Hash
  tx : Transaction
  blob : Bytes
  weight : ℕ
  fee : UInt64
  pruned : Bool
  foundInPool : Bool

/-- The variables of the loop over the transactions of a block. -/
structure Gathered where
  pool : TxPool
  supplement : PoolSupplement
  txs : List TakenTx

/-- How the loop ends. -/
inductive Outcome where
  | done
  | refused
  | thrown
deriving DecidableEq

namespace Gathered

variable (c : Crypto)

/-- The transactions that have been taken, with their blobs. -/
def stored (g : Gathered) : List (Transaction × Bytes) := g.txs.map fun t => (t.tx, t.blob)

/-- `fee_summary`, added up modulo `2 ^ 64`. -/
def feeSummary (g : Gathered) : UInt64 := sum (g.txs.map TakenTx.fee)

/-- A transaction of the supplement; `none` where its weight throws. -/
def ofSupplement (txid : Hash) (tx : Transaction) (blob : Bytes) : Option TakenTx :=
  (if tx.pruned then getPrunedTransactionWeight tx
    else getTransactionWeight tx blob.length).map fun weight =>
    ⟨txid, tx, blob, weight, getTxFee tx, tx.pruned, false⟩

/-- Take a transaction from the pool, or else from the supplement; `none` if it is in neither, and
no transaction where the source throws. -/
def take (g : Gathered) (txid : Hash) : Option (Option TakenTx × Gathered) :=
  match g.pool.takeTx c txid with
  | some (tx, e, pool) =>
    some (some ⟨txid, tx, e.blob, e.info.weight, e.info.fee, e.info.pruned, true⟩,
      { g with pool := pool })
  | none =>
    (g.supplement.txsByTxid.find? txid).map fun e =>
      (ofSupplement txid e.2.1 e.2.2,
        { g with supplement :=
          { g.supplement with txsByTxid := g.supplement.txsByTxid.erase txid } })

end Gathered

namespace Blockchain

variable (p : NodeParams) (c : Crypto) (chain : Blockchain) (now : UInt64)

/-- The loop over the hashes of a block. -/
def gatherTxs (fast : Bool) : List Hash → Gathered → Outcome × Gathered
  | [], g => (.done, g)
  | txid :: txids, g =>
    if chain.db.txExists txid then (.refused, g)
    else
      match g.take c txid with
      | none => (.refused, g)
      | some (none, g) => (.thrown, g)
      | some (some t, g) =>
        let g := { g with txs := g.txs ++ [t] }
        if fast || chain.checkBlockTxInputs c now t.tx then gatherTxs fast txids g
        else (.refused, g)

/-- The lambda `return_txs_to_pool`. -/
def returnTxsToPool (hfVersion : UInt8) (g : Gathered) : TxPool :=
  (g.txs.filter TakenTx.foundInPool).foldl (fun pool t =>
    (pool.addTx c p chain now ⟨t.tx, t.txid, t.blob, t.weight⟩ .block hfVersion hfVersion).2) g.pool

/-- `cumulative_block_weight`, added up modulo `2 ^ 64`. With a pruned transaction it comes from the
table of precomputed hashes, and `none` is the case that there is none. -/
def cumulativeBlockWeight (coinbaseWeight : ℕ) (g : Gathered) : Option UInt64 :=
  if g.txs.any TakenTx.pruned then
    match p.blocksHashCheck[chain.db.height]? with
    | none => none
    | some (_, weight) => if weight = 0 then none else some (UInt64.ofNat weight)
  else some (UInt64.ofNat (coinbaseWeight + (g.txs.map TakenTx.weight).sum))

/-- The check of the miner transaction, which the first block does not need to pass; returns the
base reward. -/
def checkReward (b : Block) (weight fee : UInt64) : Option UInt64 :=
  if chain.db.height = 0 then some 0
  else
    (validateMinerTransaction b.minerTx weight fee
      chain.db.alreadyGeneratedCoins chain.hfVersion chain.currentBlockCumulWeightMedian
      chain.db.lastBlocksWeightMedian).map Prod.fst

/-- What is stored alongside a block. -/
def blockMeta (weight longTermWeight base : UInt64) : BlockMeta where
  weight := weight.toNat
  longTermBlockWeight := longTermWeight.toNat
  cumulativeDifficulty := chain.nextDifficulty p + chain.db.cumulativeDifficulty
  coinsGenerated := (nextGeneratedCoins wrapping base chain.db.alreadyGeneratedCoins : UInt64)

/-- The chain after a block has been stored: `HardFork::add` is called at the end of
`BlockchainDB::add_block`. -/
def advance (b : Block) (db : Db) : Blockchain :=
  updateNextCumulativeWeightLimit
    { chain with db := db, hardfork := chain.hardfork.add b chain.db.height }

end Blockchain

/-! ### Adding a block -/

namespace Node

variable (p : NodeParams) (c : Crypto) (now : UInt64) (node : Node)

/-- The pool is revalidated if the version has changed. -/
def revalidatePool (before : UInt8) : Node :=
  if node.chain.hfVersion = before then node
  else { node with pool := node.pool.validate c p node.chain now node.chain.hfVersion }

/-- A refused block: the transactions taken for it are put back. -/
def refuse (hfVersion : UInt8) (g : Gathered) : Bool × Node :=
  (false, { node with pool := node.chain.returnTxsToPool p c now hfVersion g })

/-- The node after a block has been stored. The pool is not revalidated after the first block. -/
def accept (b : Block) (db : Db) (g : Gathered) : Node :=
  let after : Node := ⟨node.chain.advance b db, g.pool.onBlockchainChange⟩
  if db.height = 1 then after else after.revalidatePool p c now node.chain.hfVersion

/-- `handle_block_to_main_chain`, after the transactions of the block have been taken. -/
def finishBlock (b : Block) (coinbaseWeight : ℕ) (g : Gathered) : Bool × Node :=
  let hfVersion := node.chain.hfVersion
  match node.chain.cumulativeBlockWeight p coinbaseWeight g with
  | none => (false, { node with pool := g.pool })
  | some weight =>
    match node.chain.checkReward b weight g.feeSummary with
    | none => node.refuse p c now hfVersion g
    | some base =>
      match node.chain.getNextLongTermBlockWeight weight with
      | none => node.refuse p c now hfVersion g
      | some longTermWeight =>
        match addBlock c b (node.chain.blockMeta p weight longTermWeight base) g.stored
            node.chain.db with
        -- what was written before the exception stays in the transaction of the database
        | .error _ db => refuse p c now { node with chain := { node.chain with db := db } }
            hfVersion g
        | .ok _ db => (true, node.accept p c now b db g)

/-- `handle_block_to_main_chain`. -/
def handleBlockToMainChain (b : Block) (extra : PoolSupplement) : Bool × Node :=
  match node.chain.checkBlock p c now b with
  | none => (false, node)
  | some fast =>
    if !fast && !extra.verNonInputConsensus c node.chain.hfVersion then (false, node)
    else
      match Blockchain.coinbaseWeight b with
      | none => (false, node)
      | some coinbaseWeight =>
        let r := node.chain.gatherTxs c now fast b.txHashes ⟨node.pool, extra, []⟩
        match r.1 with
        | .done => node.finishBlock p c now b coinbaseWeight r.2
        | .refused => node.refuse p c now node.chain.hfVersion r.2
        | .thrown => (false, { node with pool := r.2.pool })

/-! ### Taking the top block off -/

/-- The loop over the popped transactions: those that are complete and no coinbase go to the
pool. -/
def returnPopped (chain : Blockchain) (pool : TxPool) (txs : List Transaction) : TxPool :=
  let version := chain.hardfork.getIdealVersion chain.db.height
  txs.foldl (fun pool tx =>
    if tx.pruned || isCoinbase tx.toTransactionPrefix then pool
    else
      match TxPool.NewTx.ofTransaction c tx with
      | none => pool
      | some t => (pool.addTx c p chain now t .block version version).2) pool

/-- `pop_block_from_blockchain`; `none` where it throws. -/
def popBlockFromBlockchain : Option (Block × Node) :=
  if node.chain.db.height ≤ 1 then none
  else
    match popBlock c node.chain.db with
    | .error _ _ => none
    | .ok (b, txs) db => do
      let hardfork ← node.chain.hardfork.onBlockPopped db.height 1
      let chain := { node.chain with db := db, hardfork := hardfork }
      let pool := returnPopped p c now chain node.pool txs
      some (b, revalidatePool p c now ⟨chain, pool.onBlockchainChange⟩ node.chain.hfVersion)

/-! ### Accepted blocks -/

/-- What is computed on the way to accepting a block. -/
structure Processed where
  fastCheck : Bool
  coinbaseWeight : ℕ
  gathered : Gathered
  /-- `cumulative_block_weight` -/
  weight : UInt64
  /-- `base_reward` -/
  base : UInt64
  longTermWeight : UInt64
  /-- the database after the block -/
  db : Db

/-- What an accepted block has passed. -/
structure Passes (b : Block) (extra : PoolSupplement) (r : Processed) : Prop where
  checked : node.chain.checkBlock p c now b = some r.fastCheck
  supplement : r.fastCheck = true ∨ extra.verNonInputConsensus c node.chain.hfVersion = true
  coinbase : Blockchain.coinbaseWeight b = some r.coinbaseWeight
  taken : node.chain.gatherTxs c now r.fastCheck b.txHashes ⟨node.pool, extra, []⟩ =
    (.done, r.gathered)
  weighed : node.chain.cumulativeBlockWeight p r.coinbaseWeight r.gathered = some r.weight
  rewarded : node.chain.checkReward b r.weight r.gathered.feeSummary = some r.base
  longTerm : node.chain.getNextLongTermBlockWeight r.weight = some r.longTermWeight
  stored : ∃ n, addBlock c b (node.chain.blockMeta p r.weight r.longTermWeight r.base)
    r.gathered.stored node.chain.db = .ok n r.db

variable {p c now node} {b : Block} {extra : PoolSupplement} {node' : Node}

theorem revalidatePool_chain {before : UInt8} :
    (node.revalidatePool p c now before).chain = node.chain := by
  rw [revalidatePool]
  split <;> rfl

/-- The chain after an accepted block. -/
theorem accept_chain {db : Db} {g : Gathered} :
    (node.accept p c now b db g).chain = node.chain.advance b db := by
  rw [accept]
  split
  · rfl
  · exact revalidatePool_chain

/-- What is computed for a block is determined. -/
theorem Passes.unique {r r' : Processed} (h : node.Passes p c now b extra r)
    (h' : node.Passes p c now b extra r') : r' = r := by
  obtain ⟨fast, cw, g, weight, base, longTermWeight, db⟩ := r
  obtain ⟨fast', cw', g', weight', base', longTermWeight', db'⟩ := r'
  obtain rfl : fast' = fast := Option.some.inj (h'.checked.symm.trans h.checked)
  obtain rfl : cw' = cw := Option.some.inj (h'.coinbase.symm.trans h.coinbase)
  obtain rfl : g' = g := (Prod.mk.inj (h'.taken.symm.trans h.taken)).2
  obtain rfl : weight' = weight := Option.some.inj (h'.weighed.symm.trans h.weighed)
  obtain rfl : base' = base := Option.some.inj (h'.rewarded.symm.trans h.rewarded)
  obtain rfl : longTermWeight' = longTermWeight :=
    Option.some.inj (h'.longTerm.symm.trans h.longTerm)
  obtain ⟨n, hstored⟩ := h.stored
  obtain ⟨n', hstored'⟩ := h'.stored
  obtain ⟨-, rfl⟩ := EStateM.Result.ok.inj (hstored'.symm.trans hstored)
  rfl

theorem finishBlock_true {cw : ℕ} {g : Gathered} :
    node.finishBlock p c now b cw g = (true, node') ↔
      ∃ weight base longTermWeight n db, node.chain.cumulativeBlockWeight p cw g = some weight ∧
        node.chain.checkReward b weight g.feeSummary = some base ∧
        node.chain.getNextLongTermBlockWeight weight = some longTermWeight ∧
        addBlock c b (node.chain.blockMeta p weight longTermWeight base) g.stored node.chain.db =
          .ok n db ∧ node' = node.accept p c now b db g := by
  rw [finishBlock]
  cases hweight : node.chain.cumulativeBlockWeight p cw g with
  | none => simp
  | some weight =>
    cases hbase : node.chain.checkReward b weight g.feeSummary with
    | none => simp [hbase, refuse]
    | some base =>
      cases hlong : node.chain.getNextLongTermBlockWeight weight with
      | none => simp [hbase, hlong, refuse]
      | some longTermWeight =>
        cases hadd : addBlock c b (node.chain.blockMeta p weight longTermWeight base) g.stored
            node.chain.db with
        | error e db => simp [hbase, hlong, hadd, refuse]
        | ok n db => simp [hbase, hlong, hadd, eq_comm]

/-- **Accepted blocks.** A block is accepted exactly if it passes all of this, and then the node is
the one that `accept` builds. -/
theorem handleBlockToMainChain_true :
    node.handleBlockToMainChain p c now b extra = (true, node') ↔
      ∃ r, node.Passes p c now b extra r ∧ node' = node.accept p c now b r.db r.gathered := by
  rw [handleBlockToMainChain]
  constructor
  · intro h
    cases hchecked : node.chain.checkBlock p c now b with
    | none => simp [hchecked] at h
    | some fast =>
      simp only [hchecked] at h
      split at h
      · simp at h
      · next hsupp =>
        cases hcoinbase : Blockchain.coinbaseWeight b with
        | none => simp [hcoinbase] at h
        | some cw =>
          simp only [hcoinbase] at h
          cases htaken : node.chain.gatherTxs c now fast b.txHashes ⟨node.pool, extra, []⟩ with
          | mk outcome g =>
            simp only [htaken] at h
            cases outcome with
            | refused => simp [refuse] at h
            | thrown => simp at h
            | done =>
              obtain ⟨weight, base, longTermWeight, n, db, hweight, hbase, hlong, hadd, hnode⟩ :=
                finishBlock_true.mp h
              refine ⟨⟨fast, cw, g, weight, base, longTermWeight, db⟩, ?_, hnode⟩
              refine ⟨hchecked, ?_, hcoinbase, htaken, hweight, hbase, hlong, n, hadd⟩
              cases fast with
              | true => exact .inl rfl
              | false => exact .inr (by simpa using hsupp)
  · rintro ⟨r, h, rfl⟩
    obtain ⟨n, hstored⟩ := h.stored
    have hsupp : ¬ (!r.fastCheck && !extra.verNonInputConsensus c node.chain.hfVersion) = true := by
      rcases h.supplement with hfast | hver
      · simp [hfast]
      · simp [hver]
    simp only [h.checked, if_neg hsupp, h.coinbase, h.taken]
    exact finishBlock_true.mpr
      ⟨_, _, _, n, _, h.weighed, h.rewarded, h.longTerm, hstored, rfl⟩

/-- A node without blocks, on a private chain. -/
def start : Node where
  chain :=
    { db := Db.empty 0
      hardfork := HardFork.start privateHardForks 10 1
      currentBlockCumulWeightMedian := 0
      currentBlockCumulWeightLimit := 0
      longTermEffectiveMedianBlockWeight := 0 }
  pool := TxPool.empty

end Node

/-- A block at height `h` whose miner transaction has one output, of the given amount. -/
def minedBlock (version : UInt8) (h : ℕ) (amount : Amount) : Block where
  majorVersion := version
  minorVersion := version
  timestamp := 0
  prevId := natLe h
  nonce := 0
  minerTx :=
    { version := 2
      unlockTime := UInt64.ofNat (h + 60)
      vin := [.gen (UInt64.ofNat h)]
      vout := [⟨amount,
        if version < hfVersionViewTags then .toKey (natLe (h + 1))
        else .toTaggedKey ⟨natLe (h + 1), 0⟩⟩] }
  txHashes := []

end Hidering
