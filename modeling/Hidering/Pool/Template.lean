import Hidering.Pool.TxPool

/-!
# Block templates

`fill_block_template`: the transactions of the pool are considered by fee, and one is taken if it
fits, does not lower the reward of the block, has valid inputs and shares no key image with one
taken before.

The inputs are checked through the cache of the pool. Only a transaction that is not found in the
cache is parsed, and the key images are then read off an object that was never filled in otherwise
(`Readiness.tx`).

## Main definitions

* `Hidering.TxPool.isTransactionReadyToGo`, `haveKeyImages`, `appendKeyImages`
* `Hidering.TxPool.fillBlockTemplate`
-/

namespace Hidering

open Wire Machine Store

/-- `amount * ACCEPT_THRESHOLD` is computed in single precision: the nearest number with 24
significant bits, and the even one of two. -/
def templateAcceptThreshold (amount : UInt64) : UInt64 :=
  let e := Nat.log2 amount.toNat - 23
  let q := amount.toNat / 2 ^ e
  let r := amount.toNat % 2 ^ e
  let up := decide (2 ^ e < 2 * r) || (decide (0 < r) && decide (2 ^ e = 2 * r) && q % 2 == 1)
  UInt64.ofNat ((if up then q + 1 else q) * 2 ^ e)

/-- What the caller of `fill_block_template` passes. -/
structure TemplateArgs where
  medianWeight : UInt64
  alreadyGeneratedCoins : UInt64
  version : UInt8

/-- The largest total weight of the transactions. -/
def TemplateArgs.maxTotalWeight (a : TemplateArgs) : UInt64 :=
  if 5 ≤ a.version then 2 * a.medianWeight - UInt64.ofNat cryptonoteCoinbaseBlobReservedSize
  else 130 * a.medianWeight / 100 - UInt64.ofNat cryptonoteCoinbaseBlobReservedSize

/-- The reward of a block with transactions of the given weight. -/
def TemplateArgs.reward (a : TemplateArgs) (weight : ℕ) : Option UInt64 :=
  getBlockReward wrapping a.medianWeight (UInt64.ofNat weight) a.alreadyGeneratedCoins a.version

/-- What `is_transaction_ready_to_go` returns: the answer, the metadata, and the object into which
it parses the transaction. -/
structure Readiness where
  ready : Bool
  info : TxpoolTxMeta
  tx : Transaction
  pool : TxPool

/-- The variables of the loop in `fill_block_template`. -/
structure Template where
  txHashes : List Hash
  totalWeight : ℕ
  fee : UInt64
  bestCoinbase : UInt64
  kImages : Finset KeyImage
  pool : TxPool

namespace TxPool

variable (pool : TxPool) (c : Crypto) (p : NodeParams) (chain : Blockchain) (now : UInt64)

/-- `is_transaction_ready_to_go`. A transaction whose result is in the cache is not parsed; one that
cannot be parsed throws, and the caller goes on with what it has. -/
def isTransactionReadyToGo (e : TxpoolEntry) : Readiness :=
  if e.info.lastFailedId = chain.db.topBlockHash then ⟨false, e.info, default, pool⟩
  else
    let failed := { e.info with lastFailedId := chain.db.topBlockHash }
    match pool.inputCache e.txid with
    | some (.ok ()) => ⟨true, e.info, default, pool⟩
    | some (.error _) => ⟨false, failed, default, pool⟩
    | none =>
      match parseAndValidateTx c e.blob with
      | none => ⟨false, e.info, default, pool⟩
      | some tx =>
        let r := pool.checkTxInputs c p chain now (some tx) e.txid false
        match r.1 with
        | .ok () => ⟨true, e.info, tx, r.2⟩
        | .error _ => ⟨false, failed, tx, r.2⟩

/-- `have_key_images`. -/
def haveKeyImages (kImages : Finset KeyImage) : List Txin → Bool
  | [] => false
  | i :: vin =>
    match spentImage c i with
    | none => false
    | some image => decide (image ∈ kImages) || haveKeyImages kImages vin

/-- `append_key_images`; it stops at an image that is already there. -/
def appendKeyImages : List Txin → Finset KeyImage → Finset KeyImage
  | [], kImages => kImages
  | i :: vin, kImages =>
    match spentImage c i with
    | none => kImages
    | some image =>
      if image ∈ kImages then kImages else appendKeyImages vin (insert image kImages)

/-- The rules for a candidate that do not look at its content: the coins of the coinbase with it,
or `none` if it is skipped. -/
def candidateCoinbase (a : TemplateArgs) (t : Template) (m : TxpoolTxMeta) : Option UInt64 :=
  if !m.relayMethod.matchesCategory .legacy && !(p.mineStemTxes && decide (m.relayMethod = .stem))
  then none
  else if m.pruned then none
  else if a.maxTotalWeight.toNat < t.totalWeight + m.weight then none
  else if 5 ≤ a.version then
    match a.reward (t.totalWeight + m.weight) with
    | none => none
    | some reward =>
      let coinbase := reward + t.fee + m.fee
      if coinbase < templateAcceptThreshold t.bestCoinbase then none else some coinbase
  else some 0

/-- The end of the loop body: check the transaction and take it if nothing speaks against it. -/
def considerTx (t : Template) (e : TxpoolEntry) (coinbase : UInt64) : Template :=
  let r := t.pool.isTransactionReadyToGo c p chain now e
  let pool := if r.info = e.info then r.pool else r.pool.updateTxpoolTx e.txid r.info
  if !r.ready || haveKeyImages c t.kImages r.tx.vin then { t with pool := pool }
  else
    { txHashes := t.txHashes ++ [e.txid]
      totalWeight := t.totalWeight + e.info.weight
      fee := t.fee + e.info.fee
      bestCoinbase := coinbase
      kImages := appendKeyImages c r.tx.vin t.kImages
      pool := pool }

/-- The loop of `fill_block_template` over the transactions by fee. Before version 5 it ends as soon
as the weight exceeds the median. -/
def fillLoop (a : TemplateArgs) : List SortedEntry → Template → Template
  | [], t => t
  | s :: rest, t =>
    match t.pool.txes.find? s.txid with
    | none => fillLoop a rest t
    | some e =>
      match candidateCoinbase p a t e.info with
      | none => fillLoop a rest t
      | some coinbase =>
        if a.version < 5 ∧ a.medianWeight.toNat < t.totalWeight then t
        else fillLoop a rest (considerTx c p chain now t e coinbase)

/-- `fill_block_template`; `none` if there is no reward for an empty block. The expected reward is
`bestCoinbase`. -/
def fillBlockTemplate (a : TemplateArgs) : Option Template :=
  match a.reward 0 with
  | none => none
  | some reward => some (fillLoop c p chain now a pool.sorted.entries ⟨[], 0, 0, reward, ∅, pool⟩)

end TxPool

end Hidering
