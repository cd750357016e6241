import Hidering.Basic.Pruned
import Hidering.Basic.TxExtra
import Hidering.Store.Table
import Mathlib.Data.Finset.Erase
import Mathlib.Data.Finset.Insert
import Mathlib.Logic.Function.Basic

/-!
# The tables of the block database

The LMDB tables of `db_lmdb.cpp` and the operations of `BlockchainLMDB` that add to them and remove
from them. Tables with integer keys are `Store.Table`s; tables keyed by a hash are finite maps.
An operation throws where the source throws, and then keeps what it has written so far.

`remove_block` deletes the block under the write cursor, which `get_top_block` has left on the top
block; here it deletes the top block.

## Main definitions

* `Hidering.Db` — the tables
* `Hidering.addSpentKey`, `removeSpentKey`, `addTransactionData`, `removeTransactionData`,
  `addOutput`, `removeOutput`, `addBlockData`, `removeBlock`
-/

namespace Hidering

open Wire Store

/-! ### Tables -/

/-- `outtx`, the value of an entry of `output_txs`. -/
structure OutTx where
  txHash : Hash
  localIndex : ℕ
deriving DecidableEq

/-- `outkey` and `pre_rct_outkey`, the value of an entry of `output_amounts`. The commitment is
stored for outputs in the bucket of amount 0 only. -/
structure OutKey where
  outputId : ℕ
  pubkey : PublicKey
  unlockTime : UInt64
  height : ℕ
  commitment : Option Key
deriving DecidableEq

/-- `txindex`, the value of an entry of `tx_indices`. -/
structure TxIndex where
  txId : ℕ
  unlockTime : UInt64
  blockId : ℕ
deriving DecidableEq

/-- `mdb_block_info`. -/
structure BlockInfo where
  timestamp : UInt64
  coins : UInt64
  weight : ℕ
  diff : ℕ
  hash : Hash
  cumRct : ℕ
  longTermBlockWeight : ℕ
deriving DecidableEq

/-- The tables of the database. -/
@[ext] structure Db where
  /-- blocks by height -/
  blocks : Table Bytes
  blockInfo : Table BlockInfo
  /-- heights by block hash -/
  blockHeights : Hash → Option ℕ
  txIndices : Hash → Option TxIndex
  /-- the unprunable part of each transaction, by transaction id -/
  txsPruned : Table Bytes
  txsPrunable : Table Bytes
  txsPrunableHash : Table Hash
  txsPrunableTip : Table ℕ
  /-- the amount output indices of each transaction -/
  txOutputs : Table (List ℕ)
  /-- transaction and local index by global output id -/
  outputTxs : Table OutTx
  /-- the outputs of each amount, by amount output index -/
  outputAmounts : Amount → Table OutKey
  /-- spent key images, curve and synthetic alike -/
  spentKeys : Finset KeyImage
  /-- `get_blockchain_pruning_seed`, 0 unless the database is pruned -/
  pruningSeed : UInt32

/-- The exceptions that the operations throw. -/
inductive DbError where
  /-- `KEY_IMAGE_EXISTS` -/
  | keyImageExists
  /-- `TX_EXISTS` -/
  | txExists
  /-- `TX_DNE` -/
  | txDne
  /-- `BLOCK_EXISTS` -/
  | blockExists
  /-- `BLOCK_PARENT_DNE` -/
  | blockParentDne
  /-- `BLOCK_DNE` -/
  | blockDne
  /-- `OUTPUT_DNE` -/
  | outputDne
  /-- `DB_ERROR` -/
  | dbError
  /-- `std::runtime_error` -/
  | runtimeError
  /-- access behind the end of a vector, undefined in the source -/
  | outOfBounds
deriving DecidableEq

/-- An operation on the database. -/
abbrev DbM := EStateM DbError Db

namespace Db

/-- An empty database. -/
def empty (seed : UInt32) : Db where
  blocks := []
  blockInfo := []
  blockHeights := fun _ => none
  txIndices := fun _ => none
  txsPruned := []
  txsPrunable := []
  txsPrunableHash := []
  txsPrunableTip := []
  txOutputs := []
  outputTxs := []
  outputAmounts := fun _ => []
  spentKeys := ∅
  pruningSeed := seed

/-- `height()`: the number of blocks. -/
def height (db : Db) : ℕ := db.blocks.length

/-- `get_tx_count()`. -/
def getTxCount (db : Db) : ℕ := db.txsPruned.length

/-- `num_outputs()`. -/
def numOutputs (db : Db) : ℕ := db.outputTxs.nextKey

/-- `get_num_outputs(amount)`. -/
def getNumOutputs (db : Db) (amount : Amount) : ℕ := (db.outputAmounts amount).length

/-- `tx_exists`. -/
def txExists (db : Db) (h : Hash) : Bool := (db.txIndices h).isSome

/-- `has_key_image`. -/
def hasKeyImage (db : Db) (k : KeyImage) : Bool := decide (k ∈ db.spentKeys)

end Db

/-! ### Spent keys -/

/-- `add_spent_key`. -/
def addSpentKey (k : KeyImage) : DbM Unit := do
  let db ← get
  require (decide (k ∉ db.spentKeys)) .keyImageExists
  set { db with spentKeys := insert k db.spentKeys }

/-- `remove_spent_key`; nothing happens if the key image is not there. -/
def removeSpentKey (k : KeyImage) : DbM Unit :=
  modify fun db => { db with spentKeys := db.spentKeys.erase k }

/-! ### Transactions -/

/-- `add_transaction_data`. -/
def addTransactionData (tx : Transaction) (blob : Bytes) (txHash txPrunableHash : Hash) :
    DbM ℕ := do
  let db ← get
  let txId := db.getTxCount
  require (db.txIndices txHash).isNone .txExists
  let ti : TxIndex := ⟨txId, tx.unlockTime, db.height⟩
  modify fun s => { s with txIndices := Function.update s.txIndices txHash (some ti) }
  let n ← ofOption (unprunableSize tx) .dbError
  require (decide (n ≤ blob.length)) .dbError
  let pruned ← ofOption (db.txsPruned.append txId (blob.take n)) .dbError
  modify fun s => { s with txsPruned := pruned }
  let prunable ← ofOption (db.txsPrunable.append txId (blob.drop n)) .dbError
  modify fun s => { s with txsPrunable := prunable }
  let tip := if db.pruningSeed ≠ 0 then db.txsPrunableTip.put txId db.height else db.txsPrunableTip
  modify fun s => { s with txsPrunableTip := tip }
  let hashes ← ofOption (if 1 < tx.version then db.txsPrunableHash.append txId txPrunableHash
    else some db.txsPrunableHash) .dbError
  modify fun s => { s with txsPrunableHash := hashes }
  pure txId

/-! ### Outputs -/

/-- `add_output`: returns the amount output index. -/
def addOutput (txHash : Hash) (out : TxOut) (localIndex : ℕ) (unlockTime : UInt64)
    (commitment : Option Key) : DbM ℕ := do
  let db ← get
  let pubkey ← ofOption (getOutputPublicKey out) .dbError
  require (!(out.amount == 0 && commitment.isNone)) .dbError
  let outputId := db.numOutputs
  let outputTxs ← ofOption (db.outputTxs.append outputId ⟨txHash, localIndex⟩) .dbError
  modify fun s => { s with outputTxs := outputTxs }
  let amountIndex := (db.outputAmounts out.amount).length
  let bucket ← ofOption ((db.outputAmounts out.amount).append amountIndex
    ⟨outputId, pubkey, unlockTime, db.height, if out.amount = 0 then commitment else none⟩) .dbError
  modify fun s => { s with outputAmounts := Function.update s.outputAmounts out.amount bucket }
  pure amountIndex

/-- `remove_output`. -/
def removeOutput (amount : Amount) (outIndex : ℕ) : DbM Unit := do
  let db ← get
  let ok ← ofOption ((db.outputAmounts amount).get? outIndex) .outputDne
  require (db.outputTxs.get? ok.outputId).isSome .dbError
  set { db with
    outputTxs := db.outputTxs.erase ok.outputId
    outputAmounts := Function.update db.outputAmounts amount
      ((db.outputAmounts amount).erase outIndex) }

/-- `add_tx_amount_output_indices`. -/
def addTxAmountOutputIndices (txId : ℕ) (indices : List ℕ) : DbM Unit := do
  let db ← get
  let txOutputs ← ofOption (db.txOutputs.append txId indices) .dbError
  set { db with txOutputs := txOutputs }

/-- `outputs_stored_as_pseudo_rct`: outputs with a revealed amount that live in the bucket of
amount 0, under a commitment with mask 1. -/
def outputsStoredAsPseudoRct (tx : Transaction) : Bool :=
  (tx.vin.any (fun | .gen _ => true | _ => false) && tx.version == 2) ||
    (hasTransparentPqInput tx && tx.rctSignatures.type == rctTypeNull)

/-- The bucket that an output of `tx` is removed from. -/
def bucketOf (tx : Transaction) (out : TxOut) : Amount :=
  if outputsStoredAsPseudoRct tx then 0 else out.amount

/-- The loop of `remove_tx_outputs`, from the last output to the first. -/
def removeOutputs : List (Amount × ℕ) → DbM Unit
  | [] => pure ()
  | (amount, index) :: rest => do
    removeOutputs rest
    removeOutput amount index

/-- `remove_tx_outputs`. -/
def removeTxOutputs (txId : ℕ) (tx : Transaction) : DbM Unit := do
  let db ← get
  let indices := (db.txOutputs.get? txId).getD []
  require (!(indices.isEmpty && !tx.vout.isEmpty)) .dbError
  require (decide (tx.vout.length ≤ indices.length)) .outOfBounds
  removeOutputs ((tx.vout.map (bucketOf tx)).zip indices)

/-- `remove_transaction_data`. -/
def removeTransactionData (txHash : Hash) (tx : Transaction) : DbM Unit := do
  let db ← get
  let ti ← ofOption (db.txIndices txHash) .txDne
  require (db.txsPruned.get? ti.txId).isSome .dbError
  modify fun s => { s with txsPruned := s.txsPruned.erase ti.txId }
  modify fun s => { s with txsPrunable := s.txsPrunable.erase ti.txId }
  modify fun s => { s with txsPrunableTip := s.txsPrunableTip.erase ti.txId }
  require (decide (tx.version ≤ 1) || (db.txsPrunableHash.get? ti.txId).isSome) .dbError
  let hashes :=
    if 1 < tx.version then db.txsPrunableHash.erase ti.txId else db.txsPrunableHash
  modify fun s => { s with txsPrunableHash := hashes }
  removeTxOutputs ti.txId tx
  modify fun s => { s with txOutputs := s.txOutputs.erase ti.txId }
  modify fun s => { s with txIndices := Function.update s.txIndices txHash none }

/-! ### Blocks -/

/-- What the caller of `add_block` stores alongside a block. -/
structure BlockMeta where
  weight : ℕ
  longTermBlockWeight : ℕ
  cumulativeDifficulty : ℕ
  coinsGenerated : UInt64
deriving DecidableEq

/-- The cumulative count of RingCT outputs: that of the previous block plus the block's own from
version 4 on, the block's own alone before. -/
def cumulativeRct (db : Db) (blk : Block) (numRctOuts : ℕ) : Option ℕ :=
  if 4 ≤ blk.majorVersion then
    if db.height = 0 then none
    else (db.blockInfo.get? (db.height - 1)).map fun bi => numRctOuts + bi.cumRct
  else some numRctOuts

/-- `BlockchainLMDB::add_block`. -/
def addBlockData (blk : Block) (info : BlockMeta) (numRctOuts : ℕ) (blkHash : Hash) :
    DbM Unit := do
  let db ← get
  require (db.blockHeights blkHash).isNone .blockExists
  let parent ← ofOption (if db.height = 0 then some 0 else db.blockHeights blk.prevId) .dbError
  require (decide (parent = db.height - 1)) .blockParentDne
  let blob ← ofOption (blockToBlob blk) .dbError
  let blocks ← ofOption (db.blocks.append db.height blob) .dbError
  modify fun s => { s with blocks := blocks }
  let cumRct ← ofOption (cumulativeRct db blk numRctOuts) .blockDne
  let blockInfo ← ofOption (db.blockInfo.append db.height
    ⟨blk.timestamp, info.coinsGenerated, info.weight, info.cumulativeDifficulty, blkHash, cumRct,
      info.longTermBlockWeight⟩) .dbError
  modify fun s => { s with blockInfo := blockInfo }
  modify fun s => { s with blockHeights := Function.update s.blockHeights blkHash (some db.height) }

/-- `remove_block`. -/
def removeBlock : DbM Unit := do
  let db ← get
  require (decide (0 < db.height)) .blockDne
  let bi ← ofOption (db.blockInfo.get? (db.height - 1)) .blockDne
  require (db.blockHeights bi.hash).isSome .dbError
  set { db with
    blockHeights := Function.update db.blockHeights bi.hash none
    blocks := db.blocks.erase (db.height - 1)
    blockInfo := db.blockInfo.erase (db.height - 1) }

end Hidering
