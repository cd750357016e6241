import Hidering.Chain.State
import Hidering.Store.Keyed

/-!
# The transaction pool

`tx_memory_pool`: the transactions that wait for a block, with the functions that add, take, prune
and revalidate them. The pool keeps its entries in the database (`txes`) and, in memory, the key
images they spend, an order by fee, and two caches: the results of input checks (`inputCache`) and
parsed transactions (`parsedTxCache`). Both caches live until the next block is added or popped.

The tables are `Store.Keyed` lists, ordered as LMDB and `boost::bimap` order them. Of a
transaction's metadata the fields are kept that some function here reads; the times at which
transactions are relayed, the marks for clients (`double_spend_seen`, `relayed`, the block of the
youngest output) and `m_cookie` are left out.

## Main definitions

* `Hidering.RelayMethod`, `TxpoolTxMeta`, `Hidering.TxPool`
* `Hidering.TxPool.addTx`, `takeTx`, `prune`, `validate`, `onBlockchainChange`
* `Hidering.TxPool.removeStuckTransactions`, `setRelayed`, `init`
-/

namespace Hidering

open Wire Machine Store

/-! ### Relay methods -/

/-- `relay_method`, in the order of the source. -/
inductive RelayMethod where
  | none
  | local_
  | forward
  | stem
  | fluff
  | block
deriving DecidableEq

/-- `relay_category`. -/
inductive RelayCategory where
  | broadcasted
  | relayable
  | legacy
  | all
deriving DecidableEq

namespace RelayMethod

/-- The value of the enumeration. -/
def value : RelayMethod → ℕ
  | none => 0
  | local_ => 1
  | forward => 2
  | stem => 3
  | fluff => 4
  | block => 5

/-- `matches_category`. -/
def matchesCategory (m : RelayMethod) : RelayCategory → Bool
  | .all => true
  | .relayable => decide (m ≠ none)
  | .broadcasted => decide (m = block ∨ m = fluff)
  | .legacy => decide (m = block ∨ m = fluff ∨ m = none)

end RelayMethod

/-! ### The state -/

/-- `txpool_tx_meta_t`. The bits for the relay method are read and written together. -/
structure TxpoolTxMeta where
  weight : ℕ
  fee : UInt64
  lastFailedId : Hash
  receiveTime : UInt64
  relayMethod : RelayMethod
  pruned : Bool
deriving DecidableEq

/-- An entry of the tables `txpool_meta` and `txpool_blob`. -/
structure TxpoolEntry where
  txid : Hash
  info : TxpoolTxMeta
  blob : Bytes
deriving DecidableEq

/-- An entry of `m_txs_by_fee_and_receive_time`. -/
structure SortedEntry where
  feePerByte : ℕ
  receiveTime : UInt64
  txid : Hash
deriving DecidableEq

/-- `compare_hash32`: the words of a hash are compared from the last one to the first. -/
def hashLt (a b : Hash) : Bool := memcmpLt a.bytes.reverse b.bytes.reverse

/-- `txFeeCompare`: the greatest fee first, and then the earliest time. -/
def feeBefore (a b : SortedEntry) : Bool :=
  decide (b.feePerByte < a.feePerByte ∨ a.feePerByte = b.feePerByte ∧ a.receiveTime < b.receiveTime)

/-- The order of the pool tables. -/
def entryBefore (a b : TxpoolEntry) : Bool := hashLt a.txid b.txid

/-- The members of `tx_memory_pool`. -/
structure TxPool where
  txes : Keyed TxpoolEntry.txid
  /-- `m_spent_key_images` -/
  spentKeyImages : KeyImage → Option (Finset Hash)
  /-- `m_txs_by_fee_and_receive_time` -/
  sorted : Keyed SortedEntry.txid
  /-- the keys of `m_added_txs_by_id` -/
  addedTxsById : Finset Hash
  /-- `m_timed_out_transactions` -/
  timedOut : Finset Hash
  /-- `m_input_cache` -/
  inputCache : Hash → Option (Verdict Unit)
  /-- `m_parsed_tx_cache` -/
  parsedTxCache : Hash → Option Transaction
  /-- `m_txpool_weight` -/
  txpoolWeight : ℕ
  /-- `m_txpool_max_weight` -/
  txpoolMaxWeight : ℕ

namespace TxPool

/-- A new pool. -/
def empty : TxPool where
  txes := Keyed.empty
  spentKeyImages := fun _ => none
  sorted := Keyed.empty
  addedTxsById := ∅
  timedOut := ∅
  inputCache := fun _ => none
  parsedTxCache := fun _ => none
  txpoolWeight := 0
  txpoolMaxWeight := defaultTxpoolMaxWeight

variable (pool : TxPool)

/-! ### Tables -/

/-- `get_txpool_tx_meta`. -/
def getTxpoolTxMeta (txid : Hash) : Option TxpoolTxMeta :=
  (pool.txes.find? txid).map TxpoolEntry.info

/-- `txpool_has_tx`, for all categories. -/
def txpoolHasTx (txid : Hash) : Bool := (pool.getTxpoolTxMeta txid).isSome

/-- `txpool_tx_matches_category`. -/
def txpoolTxMatchesCategory (txid : Hash) (category : RelayCategory) : Bool :=
  (pool.getTxpoolTxMeta txid).any fun m => m.relayMethod.matchesCategory category

/-- `add_txpool_tx`. -/
def addTxpoolTx (e : TxpoolEntry) : TxPool := { pool with txes := pool.txes.put entryBefore e }

/-- `remove_txpool_tx`. -/
def removeTxpoolTx (txid : Hash) : TxPool := { pool with txes := pool.txes.erase txid }

/-- `update_txpool_tx`; it throws if there is no such transaction, and its callers go on. -/
def updateTxpoolTx (txid : Hash) (info : TxpoolTxMeta) : TxPool :=
  match pool.txes.find? txid with
  | none => pool
  | some e => pool.addTxpoolTx { e with info := info }

/-- `add_tx_to_transient_lists`. -/
def addTxToTransientLists (e : SortedEntry) : TxPool :=
  { pool with
    sorted := Keyed.insertBy feeBefore
      (if e.txid ∈ pool.addedTxsById then pool.sorted.erase e.txid else pool.sorted) e
    addedTxsById := insert e.txid pool.addedTxsById }

/-- `remove_tx_from_transient_lists`. -/
def removeTxFromTransientLists (txid : Hash) : TxPool :=
  { pool with
    sorted := pool.sorted.erase txid
    addedTxsById := pool.addedTxsById.erase txid }

/-- `reduce_txpool_weight`. -/
def reduceTxpoolWeight (weight : ℕ) : TxPool :=
  { pool with txpoolWeight := pool.txpoolWeight - weight }

/-- `on_blockchain_inc` and `on_blockchain_dec`: both caches are cleared. -/
def onBlockchainChange : TxPool :=
  { pool with inputCache := fun _ => none, parsedTxCache := fun _ => none }

/-! ### Key images -/

variable (c : Crypto)

/-- Replace the set of a key image. -/
def setKeyImage (image : KeyImage) (txids : Option (Finset Hash)) : TxPool :=
  { pool with spentKeyImages := Function.update pool.spentKeyImages image txids }

/-- The body of the loop in `insert_key_images`. -/
def insertKeyImage (image : KeyImage) (txid : Hash) (relay : RelayMethod) : Bool × TxPool :=
  let txids := (pool.spentKeyImages image).getD ∅
  if relay ≠ .block ∧ ¬ (txids = ∅ ∨ txids = {txid}) then
    (false, pool.setKeyImage image (some txids))
  else
    (decide (txid ∉ txids) || !pool.txpoolTxMatchesCategory txid .legacy,
      pool.setKeyImage image (some (insert txid txids)))

/-- `insert_key_images`; what was inserted before a failure stays. -/
def insertKeyImages (txid : Hash) (relay : RelayMethod) : List Txin → TxPool → Bool × TxPool
  | [], pool => (true, pool)
  | i :: vin, pool =>
    match spentImage c i with
    | none => (false, pool)
    | some image =>
      let r := pool.insertKeyImage image txid relay
      if r.1 then insertKeyImages txid relay vin r.2 else (false, r.2)

/-- `remove_transaction_keyimages`; it stops at an image that is not there. -/
def removeTransactionKeyimages (txid : Hash) : List Txin → TxPool → TxPool
  | [], pool => pool
  | i :: vin, pool =>
    match (spentImage c i).bind fun image => (pool.spentKeyImages image).map (image, ·) with
    | none => pool
    | some (image, txids) =>
      if txid ∈ txids then
        let left := txids.erase txid
        removeTransactionKeyimages txid vin
          (pool.setKeyImage image (if left = ∅ then none else some left))
      else pool

/-- `have_tx_keyimg_as_spent`. -/
def haveTxKeyimgAsSpent (image : KeyImage) (txid : Hash) : Bool :=
  let txids := (pool.spentKeyImages image).getD ∅
  decide (txids ≠ ∅) && (decide (txids ≠ {txid}) || pool.txpoolTxMatchesCategory txid .legacy)

/-- `have_tx_keyimges_as_spent`. -/
def haveTxKeyimgesAsSpent (tx : TransactionPrefix) (txid : Hash) : Bool :=
  tx.vin.any fun i =>
    match spentImage c i with
    | none => true
    | some image => pool.haveTxKeyimgAsSpent image txid

/-! ### Input checks -/

variable (p : NodeParams) (chain : Blockchain) (now : UInt64)

/-- `check_tx_inputs`: the result for a transaction that was not in a block comes from the cache if
it is there, and then the transaction is not looked at (`getTx`, which fails where it throws). -/
def checkTxInputs (getTx : Option Transaction) (txid : Hash) (keptByBlock : Bool) :
    Verdict Unit × TxPool :=
  match if keptByBlock then none else pool.inputCache txid with
  | some r => (r, pool)
  | none =>
    match getTx with
    | none => (throw [.thrown], pool)
    | some tx =>
      let r := chain.checkTxInputs p c now tx keptByBlock
      (r, if keptByBlock then pool
        else { pool with inputCache := Function.update pool.inputCache txid (some r) })

/-! ### Taking and pruning -/

/-- Remove a transaction with the given inputs from all tables. -/
def removeTx (e : TxpoolEntry) (vin : List Txin) : TxPool :=
  (removeTransactionKeyimages c e.txid vin
    ((pool.removeTxpoolTx e.txid).reduceTxpoolWeight e.info.weight)).removeTxFromTransientLists
      e.txid

/-- The transaction of an entry, parsed earlier or now. -/
def parsedTx (e : TxpoolEntry) : Option Transaction :=
  match pool.parsedTxCache e.txid with
  | some tx => some tx
  | none => if e.info.pruned then parseAndValidateTxBase c e.blob else parseAndValidateTx c e.blob

/-- `take_tx`; `none` where it returns `false`, with the pool unchanged. -/
def takeTx (txid : Hash) : Option (Transaction × TxpoolEntry × TxPool) := do
  let e ← pool.txes.find? txid
  let tx ← pool.parsedTx c e
  some (tx, e, pool.removeTx c e tx.vin)

/-- The loop of `prune` over the transactions from the lowest fee up. -/
def pruneLoop (bytes : ℕ) : List Hash → TxPool → TxPool
  | [], pool => pool
  | txid :: txids, pool =>
    if pool.txpoolWeight ≤ bytes then pool
    else
      match pool.txes.find? txid with
      | none => pruneLoop bytes txids pool
      | some e =>
        if e.info.relayMethod = .block then pruneLoop bytes txids pool
        else
          match prefixFormat.read .lenient e.blob with
          | none => pool
          | some (tx, _) => pruneLoop bytes txids (pool.removeTx c e tx.vin)

/-- `prune`: the transaction with the highest fee is never removed. -/
def prune (bytes : ℕ) : TxPool :=
  pruneLoop c (if bytes = 0 then pool.txpoolMaxWeight else bytes)
    ((pool.sorted.entries.drop 1).reverse.map SortedEntry.txid) pool

/-! ### Adding -/

/-- What is known of a transaction that is added. -/
structure NewTx where
  tx : Transaction
  txid : Hash
  blob : Bytes
  weight : ℕ
deriving Inhabited

/-- `add_tx` of a transaction alone computes the rest; it fails if there is no blob. -/
def NewTx.ofTransaction (tx : Transaction) : Option NewTx := do
  let blob ← serializeTransaction tx
  let weight ← getTransactionWeight tx blob.length
  some ⟨tx, c.getTransactionHash tx, blob, weight⟩

/-- The metadata that `add_tx` stores. -/
def NewTx.info (t : NewTx) (relay : RelayMethod) : TxpoolTxMeta where
  weight := t.weight
  fee := getTxFee t.tx
  lastFailedId := default
  receiveTime := now
  relayMethod := relay
  pruned := t.tx.pruned

/-- Store a transaction in all tables; `false` if its key images cannot be inserted. -/
def store (t : NewTx) (relay stored : RelayMethod) : Bool × TxPool :=
  let r := insertKeyImages c t.txid relay t.tx.vin pool
  if r.1 then
    (true, ((r.2.removeTxpoolTx t.txid).addTxpoolTx ⟨t.txid, t.info now stored, t.blob⟩)
      |>.addTxToTransientLists
        ⟨p.feePerByte (getTxFee t.tx) (if t.weight = 0 then 1 else t.weight), now, t.txid⟩)
  else (false, r.2)

/-- `m_parsed_tx_cache.insert`, for transactions from blocks. -/
def cacheParsed (t : NewTx) (keptByBlock : Bool) : TxPool :=
  if keptByBlock ∧ (pool.parsedTxCache t.txid).isNone then
    { pool with parsedTxCache := Function.update pool.parsedTxCache t.txid (some t.tx) }
  else pool

/-- The relay method of a transaction that comes in again: a stem transaction that comes back is
broadcast. -/
def upgraded (relay : RelayMethod) : Option TxpoolTxMeta → RelayMethod
  | some m => if relay = .stem ∧ m.relayMethod = .stem then .fluff else relay
  | none => relay

/-- The end of `add_tx`, for a transaction that has been stored: `added` if it is new. -/
def finishAdd (t : NewTx) (added : Bool) : TxPool :=
  let pool := if added then { pool with txpoolWeight := pool.txpoolWeight + t.weight } else pool
  pool.prune c pool.txpoolMaxWeight

/-- `add_tx` after the input check has failed: only a transaction from a block is stored. -/
def addFailed (t : NewTx) (relay : RelayMethod) : Verdict Unit × TxPool :=
  if relay = .block then
    let r := (pool.cacheParsed t true).store c p now t relay relay
    if r.1 then (pure (), r.2.finishAdd c t true) else (throw [.verifivationFailed], r.2)
  else (throw [.verifivationFailed, .invalidInput], pool)

/-- `add_tx` after the input check has passed. -/
def addPassed (t : NewTx) (relay : RelayMethod) : Verdict Unit × TxPool :=
  let pool := pool.cacheParsed t (decide (relay = .block))
  let existing := pool.getTxpoolTxMeta t.txid
  let relay := upgraded relay existing
  let before := (existing.map TxpoolTxMeta.relayMethod).getD .none
  if before.value < relay.value ∨ existing = none then
    let r := pool.store c p now t relay (if before.value < relay.value then relay else before)
    if r.1 then (pure (), r.2.finishAdd c t existing.isNone)
    else (throw [.verifivationFailed], r.2)
  else (pure (), pool.finishAdd c t false)

/-- The checks that a transaction that was not in a block has to pass before its inputs. -/
def checkRelayed (t : NewTx) : Verdict Unit := do
  Check.ensure (chain.checkFee t.weight (getTxFee t.tx))
    [.verifivationFailed, .feeTooLow, .noDropOffense]
  Check.ensure (decide (t.tx.extra.length ≤
      if hfVersionPq ≤ chain.hfVersion then maxTxExtraSizePq else maxTxExtraSize))
    [.verifivationFailed, .txExtraTooBig, .noDropOffense]
  Check.ensure (decide (t.tx.unlockTime = 0))
    [.verifivationFailed, .nonzeroUnlockTime, .noDropOffense]
  Check.ensure (!pool.haveTxKeyimgesAsSpent c t.tx t.txid)
    [.verifivationFailed, .doubleSpend, .noDropOffense]

/-- The checks of `add_tx` in front of the input check. The rules that do not depend on the inputs
are not checked again for a version at which they have been checked (`nicVerifiedHfVersion`). -/
def checkNew (t : NewTx) (relay : RelayMethod) (version nicVerifiedHfVersion : UInt8) :
    Verdict Unit := do
  Check.ensure (decide (relay = .block) || decide (t.txid ∉ pool.timedOut)) [.verifivationFailed]
  if version ≠ nicVerifiedHfVersion then verNonInputConsensus c version [t.tx]
  if relay ≠ .block then pool.checkRelayed c chain t

/-- `add_tx`. -/
def addTx (t : NewTx) (relay : RelayMethod) (version nicVerifiedHfVersion : UInt8) :
    Verdict Unit × TxPool :=
  match pool.checkNew c chain t relay version nicVerifiedHfVersion with
  | .error e => (.error e, pool)
  | .ok () =>
    let r := pool.checkTxInputs c p chain now (some t.tx) t.txid (decide (relay = .block))
    match r.1 with
    | .error _ => r.2.addFailed c p now t relay
    | .ok () => r.2.addPassed c p now t relay

/-! ### Revalidation -/

/-- The body of the loop in `validate`: take a transaction out and add it again. If it cannot be
taken, an empty transaction is added in its place. -/
def revalidate (version : UInt8) (pool : TxPool) (e : TxpoolEntry) : TxPool :=
  let taken := (pool.takeTx c e.txid).getD (default, ⟨e.txid, e.info, []⟩, pool)
  let t : NewTx := ⟨taken.1, e.txid, taken.2.1.blob, e.info.weight⟩
  let r := taken.2.2.addTx c p chain now t e.info.relayMethod version 0
  match r.1 with
  | .error _ => r.2
  | .ok () => r.2.updateTxpoolTx e.txid e.info

/-- `validate`: all transactions that are not pruned are taken out and added again. -/
def validate (version : UInt8) : TxPool :=
  (pool.txes.entries.filter fun e => !e.info.pruned).foldl (revalidate c p chain now version)
    { pool with addedTxsById := ∅ }

/-! ### Stuck and relayed transactions -/

/-- A transaction is stuck if it has waited too long; the age is computed modulo `2 ^ 64`. -/
def isStuck (e : TxpoolEntry) : Bool :=
  let age := now - e.info.receiveTime
  if e.info.relayMethod = .block then decide (cryptonoteMempoolTxFromAltBlockLivetime < age)
  else decide (cryptonoteMempoolTxLivetime < age)

/-- The second loop of `remove_stuck_transactions`; a transaction that cannot be parsed stays. -/
def removeStuck (pool : TxPool) (e : TxpoolEntry) : TxPool :=
  match prefixFormat.read .lenient e.blob with
  | none => pool
  | some (tx, _) => removeTransactionKeyimages c e.txid tx.vin
      ((pool.removeTxpoolTx e.txid).reduceTxpoolWeight e.info.weight)

/-- The first loop of `remove_stuck_transactions`. -/
def timeOut (pool : TxPool) (e : TxpoolEntry) : TxPool :=
  let pool := pool.removeTxFromTransientLists e.txid
  { pool with timedOut := insert e.txid pool.timedOut }

/-- `remove_stuck_transactions`. -/
def removeStuckTransactions : TxPool :=
  let stuck := pool.txes.entries.filter (isStuck now)
  stuck.foldl (removeStuck c) (stuck.foldl timeOut pool)

/-- The body of the loop in `set_relayed`. -/
def setRelayed1 (method : RelayMethod) (pool : TxPool) (txid : Hash) : TxPool :=
  match pool.getTxpoolTxMeta txid with
  | none => pool
  | some m =>
    let after := if m.relayMethod.value < method.value then method else m.relayMethod
    let pool := pool.updateTxpoolTx txid { m with relayMethod := after }
    if !m.relayMethod.matchesCategory .broadcasted && after.matchesCategory .broadcasted then
      pool.addTxToTransientLists ⟨p.feePerByte m.fee m.weight, now, txid⟩
    else pool

/-- `set_relayed`. -/
def setRelayed (txids : List Hash) (method : RelayMethod) : TxPool :=
  txids.foldl (setRelayed1 p now method) pool

/-! ### Start -/

/-- The body of the loop in `init`; `none` if the key images of a transaction cannot be inserted. -/
def initTx (pool : TxPool) (e : TxpoolEntry) : Option TxPool :=
  match prefixFormat.read .lenient e.blob with
  | none => some pool
  | some (tx, _) =>
    let r := insertKeyImages c e.txid e.info.relayMethod tx.vin pool
    if r.1 then
      let pool := r.2.addTxToTransientLists
        ⟨p.feePerByte e.info.fee e.info.weight, e.info.receiveTime, e.txid⟩
      some { pool with txpoolWeight := pool.txpoolWeight + e.info.weight }
    else none

/-- `init`: the transactions in the database that are not from a block come first. Transactions
that cannot be parsed are removed. -/
def init (txes : Keyed TxpoolEntry.txid) (maxTxpoolWeight : ℕ) : Option TxPool := do
  let start := { empty with
    txes := txes
    txpoolMaxWeight := if maxTxpoolWeight = 0 then defaultTxpoolMaxWeight else maxTxpoolWeight }
  let kept := fun e : TxpoolEntry => decide (e.info.relayMethod = .block)
  let pool ← (txes.entries.filter fun e => !kept e).foldlM (initTx c p) start
  let pool ← (txes.entries.filter kept).foldlM (initTx c p) pool
  let unparsed := txes.entries.filter fun e => (prefixFormat.read .lenient e.blob).isNone
  some (unparsed.foldl (fun pool e => pool.removeTxpoolTx e.txid) pool)

end TxPool

end Hidering
