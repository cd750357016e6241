import Hidering.Db.Lmdb
import Mathlib.Data.Finset.Basic

/-!
# Adding and popping blocks

`BlockchainDB::add_block` and `BlockchainDB::pop_block` with the functions they call, over the
tables of `Hidering.Db.Lmdb`. The call of `HardFork::add` at the end of `add_block` touches the
fork state and its own table only, and is part of `Hidering.Chain.HardFork`.

## Main definitions

* `Hidering.addTransaction`, `removeTransaction`
* `Hidering.addBlock`, `popBlock`
-/

namespace Hidering

open Wire Store

variable (c : Crypto)

/-! ### Key images -/

/-- The key image that an input marks as spent: its own for a ring input, the synthetic one for a
post-quantum input. -/
def spentImage : Txin → Option KeyImage
  | .toKey i => some i.kImage
  | .toKeyPq i => some (c.getPqInputKeyImage i.realOutputKey)
  | _ => none

/-- The loop over the inputs in `add_transaction`. -/
def addSpentKeys : List Txin → DbM Unit
  | [] => pure ()
  | .toKey i :: vin => do
    addSpentKey i.kImage
    addSpentKeys vin
  | .toKeyPq i :: vin => do
    addSpentKey (c.getPqInputKeyImage i.realOutputKey)
    addSpentKeys vin
  | .gen _ :: vin => addSpentKeys vin
  | _ :: _ => throw .runtimeError

/-- The loop over the inputs in `remove_transaction`. -/
def removeSpentKeys : List Txin → DbM Unit
  | [] => pure ()
  | .toKey i :: vin => do
    removeSpentKey i.kImage
    removeSpentKeys vin
  | .toKeyPq i :: vin => do
    removeSpentKey (c.getPqInputKeyImage i.realOutputKey)
    removeSpentKeys vin
  | _ :: vin => removeSpentKeys vin

/-! ### Transactions -/

/-- The output and the commitment that `add_transaction` hands to `add_output` for output `i` of
`tx`; `none` if the transaction has no commitment for it. -/
def storedOutput (tx : Transaction) (i : ℕ) (out : TxOut) : Option (TxOut × Option Key) :=
  if outputsStoredAsPseudoRct tx then
    some ({ out with amount := 0 }, some (c.zeroCommit out.amount))
  else if 1 < tx.version then
    (tx.rctSignatures.outPk[i]?).map fun k => (out, some k.mask)
  else some (out, none)

/-- The loop over the outputs in `add_transaction`, from output `i` on. -/
def addOutputs (txHash : Hash) (tx : Transaction) : ℕ → List TxOut → DbM (List ℕ)
  | _, [] => pure []
  | i, out :: outs => do
    let stored ← ofOption (storedOutput c tx i out) .outOfBounds
    let index ← addOutput txHash stored.1 i tx.unlockTime stored.2
    let indices ← addOutputs txHash tx (i + 1) outs
    pure (index :: indices)

/-- The hash of the prunable part, which version 1 does not have. -/
def prunableHash (tx : Transaction) (blob : Bytes) : Hash :=
  if 2 ≤ tx.version then c.getTransactionPrunableHash tx blob else default

/-- `add_transaction`. -/
def addTransaction (tx : Transaction) (blob : Bytes) (txHash : Hash) : DbM Unit := do
  addSpentKeys c tx.vin
  let txId ← addTransactionData tx blob txHash (prunableHash c tx blob)
  let indices ← addOutputs c txHash tx 0 tx.vout
  addTxAmountOutputIndices txId indices

/-- `get_tx_blob`. -/
def Db.getTxBlob (db : Db) (h : Hash) : Option Bytes :=
  (db.txIndices h).bind fun ti =>
    (db.txsPruned.get? ti.txId).bind fun base =>
      (db.txsPrunable.get? ti.txId).map fun rest => base ++ rest

/-- `get_pruned_tx_blob`. -/
def Db.getPrunedTxBlob (db : Db) (h : Hash) : Option Bytes :=
  (db.txIndices h).bind fun ti => db.txsPruned.get? ti.txId

/-- `get_pruned_tx`. -/
def getPrunedTx (h : Hash) : DbM Transaction := do
  let db ← get
  let blob ← ofOption (db.getPrunedTxBlob h) .txDne
  ofOption (parseAndValidateTxBase c blob) .dbError

/-- `get_tx`, or `get_pruned_tx` if the prunable part is not there. -/
def getTxOrPruned (h : Hash) : DbM Transaction := do
  let db ← get
  match db.getTxBlob h with
  | some blob => ofOption (parseAndValidateTx c blob) .dbError
  | none => getPrunedTx c h

/-- `remove_transaction`. -/
def removeTransaction (txHash : Hash) : DbM Unit := do
  let tx ← getPrunedTx c txHash
  removeSpentKeys c tx.vin
  removeTransactionData txHash tx

/-! ### Blocks -/

/-- `num_outputs_in_rct_bucket`. -/
def numOutputsInRctBucket (tx : Transaction) : ℕ :=
  if outputsStoredAsPseudoRct tx then tx.vout.length
  else tx.vout.countP fun out => out.amount == 0

/-- The loop over the transactions in `add_block`. -/
def addTransactions : List (Hash × Transaction × Bytes) → DbM Unit
  | [] => pure ()
  | (txHash, tx, blob) :: txs => do
    addTransaction c tx blob txHash
    addTransactions txs

/-- `BlockchainDB::add_block`: returns the height of the new block. -/
def addBlock (blk : Block) (info : BlockMeta) (txs : List (Transaction × Bytes)) : DbM ℕ := do
  require (decide (blk.txHashes.length = txs.length)) .runtimeError
  let db ← get
  let minerBlob := (serializeTransaction blk.minerTx).getD []
  addTransaction c blk.minerTx minerBlob (c.getTransactionHash blk.minerTx)
  addTransactions c (blk.txHashes.zip txs)
  let numRctOuts := numOutputsInRctBucket blk.minerTx +
    (txs.map fun p => numOutputsInRctBucket p.1).sum
  addBlockData blk info numRctOuts (c.getBlockHash blk)
  pure db.height

/-- `get_top_block`; a block without content if there is none. -/
def getTopBlock : DbM Block := do
  let db ← get
  if db.height = 0 then pure default
  else do
    let blob ← ofOption (db.blocks.get? (db.height - 1)) .blockDne
    ofOption (parseBlock blob) .dbError

/-- The loop over the transactions in `pop_block`; `hashes` is already reversed. -/
def popTransactions : List Hash → DbM (List Transaction)
  | [] => pure []
  | h :: hashes => do
    let tx ← getTxOrPruned c h
    removeTransaction c h
    let txs ← popTransactions hashes
    pure (tx :: txs)

/-- `BlockchainDB::pop_block`. -/
def popBlock : DbM (Block × List Transaction) := do
  let blk ← getTopBlock
  removeBlock
  let txs ← popTransactions c blk.txHashes.reverse
  removeTransaction c (c.getTransactionHash blk.minerTx)
  pure (blk, txs)

end Hidering
