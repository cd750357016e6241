import Hidering.Basic.Crypto
import Hidering.Config
import Hidering.Machine.U64

/-!
# Properties of a transaction read off its fields

The functions of `cryptonote_format_utils.cpp` that look at one transaction: the expansion of a
parsed transaction, the public key of an output, sums of amounts and their overflow tests, the fee,
and the weight.

## Main definitions

* `Hidering.expandTransaction1`, `parseAndValidateTx`, `parseAndValidateTxBase`
* `Hidering.getPqTransparentInputSum`, `getTxFee`
* `Hidering.checkInputsTypesSupported`, `checkInputsOverflow`, `checkOutsOverflow`,
  `checkOutputTypes`
* `Hidering.getTransactionWeight`, `getPrunedTransactionWeight`
-/

namespace Hidering

open Wire Machine

/-! ### Outputs and expansion -/

/-- `get_output_public_key`. -/
def getOutputPublicKey (out : TxOut) : Option PublicKey :=
  match out.target with
  | .toKey key => some key
  | .toTaggedKey t => some t.key
  | _ => none

/-- Fill the destinations of `outPk` from the outputs. -/
def fillDests : List TxOut → List CtKey → Option (List CtKey)
  | o :: os, k :: ks =>
    (getOutputPublicKey o).bind fun dest => (fillDests os ks).map fun r => ⟨dest, k.mask⟩ :: r
  | _, ks => some ks

/-- Restore the commitments of the range proof of a signature, which are not serialized. -/
def fillProofCommitments (c : Crypto) (tx : Transaction) : Option Transaction :=
  let rv := tx.rctSignatures
  let vs := rv.outPk.map fun k => c.scalarmultKey k.mask c.invEight
  if isRctBulletproofPlus rv.type then
    match rv.p.bulletproofsPlus with
    | [bp] =>
      if bp.l.length < 6 ∨ bp.maxAmounts < tx.vout.length then none
      else some { tx with rctSignatures := { rv with p := { rv.p with
        bulletproofsPlus := [{ bp with v := vs }] } } }
    | _ => none
  else if isRctBulletproof rv.type then
    match rv.p.bulletproofs with
    | [bp] =>
      if bp.l.length < 6 ∨ 2 ^ (bp.l.length - 6) < tx.vout.length then none
      else some { tx with rctSignatures := { rv with p := { rv.p with
        bulletproofs := [{ bp with v := vs }] } } }
    | _ => none
  else some tx

/-- `expand_transaction_1`: restore what the wire format leaves out and the transaction itself
determines. -/
def expandTransaction1 (c : Crypto) (tx : Transaction) (baseOnly : Bool) : Option Transaction :=
  if 2 ≤ tx.version ∧ ¬ isCoinbase tx then
    let rv := tx.rctSignatures
    if rv.type = rctTypeNull then some tx
    else if rv.outPk.length ≠ tx.vout.length then none
    else (fillDests tx.vout rv.outPk).bind fun outPk =>
      let tx' := { tx with rctSignatures := { rv with outPk := outPk } }
      if baseOnly then some tx' else fillProofCommitments c tx'
  else some tx

/-- `parse_and_validate_tx_from_blob`. -/
def parseAndValidateTx (c : Crypto) (blob : Bytes) : Option Transaction :=
  (parseTransaction blob).bind fun tx => expandTransaction1 c tx false

/-- `parse_and_validate_tx_base_from_blob`; bytes behind the base part are not looked at. -/
def parseAndValidateTxBase (c : Crypto) (blob : Bytes) : Option Transaction :=
  (transactionBaseFormat.read .lenient blob).bind fun r => expandTransaction1 c r.1 true

/-! ### Inputs -/

/-- `has_transparent_pq_input`. -/
def hasTransparentPqInput (tx : TransactionPrefix) : Bool := tx.vin.any Txin.isToKeyPq

/-- The post-quantum inputs, in order. -/
def pqInputs (tx : TransactionPrefix) : List TxinToKeyPq := tx.vin.filterMap Txin.toKeyPq?

/-- The ring inputs, in order. -/
def ringInputs (tx : TransactionPrefix) : List TxinToKey := tx.vin.filterMap Txin.toKey?

/-- `check_inputs_types_supported`. -/
def checkInputsTypesSupported (tx : TransactionPrefix) (hfVersion : UInt8) : Bool :=
  tx.vin.all fun
    | .toKeyPq _ => hfVersionPq ≤ hfVersion
    | .toKey _ => true
    | _ => false

/-- The amounts that the inputs of a spend reveal. -/
def inputAmounts (vin : List Txin) : List UInt64 :=
  vin.filterMap fun
    | .toKeyPq i => some i.amount
    | .toKey i => some i.amount
    | _ => none

/-- `check_inputs_overflow`; an input of another type fails it. -/
def checkInputsOverflow (tx : TransactionPrefix) : Bool :=
  tx.vin.all (fun i => i.isToKey || i.isToKeyPq) && noOverflow 0 (inputAmounts tx.vin)

/-- `check_outs_overflow`. -/
def checkOutsOverflow (tx : TransactionPrefix) : Bool := noOverflow 0 (tx.vout.map TxOut.amount)

/-- `check_money_overflow`. -/
def checkMoneyOverflow (tx : TransactionPrefix) : Bool :=
  checkInputsOverflow tx && checkOutsOverflow tx

/-- `get_outs_money_amount`. -/
def getOutsMoneyAmount (tx : TransactionPrefix) : UInt64 := sum (tx.vout.map TxOut.amount)

/-- `get_pq_transparent_input_sum`. -/
def getPqTransparentInputSum (tx : TransactionPrefix) : Option UInt64 :=
  checkedSum 0 ((pqInputs tx).map TxinToKeyPq.amount)

/-- `get_tx_fee(tx, fee)`. -/
def getTxFee? (tx : Transaction) : Option UInt64 :=
  if hasTransparentPqInput tx ∧ 2 ≤ tx.version ∧
      tx.rctSignatures.type = rctTypeNull then
    let amountIn := sum (inputAmounts tx.vin)
    let amountOut := getOutsMoneyAmount tx
    if amountOut ≤ amountIn then some (amountIn - amountOut) else none
  else if 1 < tx.version then some tx.rctSignatures.txnFee
  else if tx.vin.all Txin.isToKey then
    let amountIn := sum (inputAmounts tx.vin)
    let amountOut := getOutsMoneyAmount tx
    if amountOut ≤ amountIn then some (amountIn - amountOut) else none
  else none

/-- `get_tx_fee(tx)`: 0 where the fee cannot be computed. -/
def getTxFee (tx : Transaction) : UInt64 := (getTxFee? tx).getD 0

/-! ### Output types -/

/-- The alternative of a target, for comparisons of `typeid`. -/
def TxoutTarget.which : TxoutTarget → ℕ
  | .toScript _ => 0
  | .toScripthash _ => 1
  | .toKey _ => 2
  | .toTaggedKey _ => 3

/-- `check_output_types`. -/
def checkOutputTypes (tx : TransactionPrefix) (hfVersion : UInt8) : Bool :=
  tx.vout.all fun o =>
    if hfVersionViewTags < hfVersion then o.target.which == 3
    else if hfVersion < hfVersionViewTags then o.target.which == 2
    else (o.target.which == 2 || o.target.which == 3) &&
      (tx.vout.head?.map fun f => f.target.which) == some o.target.which

/-- `check_outs_valid`. -/
def checkOutsValid (c : Crypto) (tx : TransactionPrefix) : Bool :=
  tx.vout.all fun o =>
    match getOutputPublicKey o with
    | none => false
    | some key => !(tx.version == 1 && o.amount == 0) && c.checkKey key

/-! ### Weight -/

/-- The loop `while ((1u << nlr) < n) ++nlr`, for `n` of at most 32 bits. -/
def log2Ceil (n : ℕ) : ℕ := ((List.range 32).find? fun k => n ≤ 2 ^ k).getD 32

/-- `get_transaction_weight_clawback`; `none` where the source throws. -/
def getTransactionWeightClawback (tx : Transaction) (nPaddedOutputs : ℕ) : Option ℕ :=
  let elements := if tx.rctSignatures.type = rctTypeBulletproofPlus then 6 else 9
  let bpBase := (32 * (elements + 7 * 2)) / 2
  if nPaddedOutputs ≤ 2 then some 0
  else
    let bpSize := 32 * (elements + 2 * (log2Ceil nPaddedOutputs + 6))
    if ¬ tx.vout.length ≤ bulletproofMaxOutputs then none
    else if ¬ bpSize ≤ bpBase * nPaddedOutputs then none
    else some ((bpBase * nPaddedOutputs - bpSize) * 4 / 5)

/-- `get_transaction_weight(tx, blob_size)`; `none` where the source throws. -/
def getTransactionWeight (tx : Transaction) (blobSize : ℕ) : Option ℕ :=
  if tx.pruned then some (2 ^ 64 - 1)
  else if tx.version < 2 then some blobSize
  else if ¬ isRctBulletproof tx.rctSignatures.type ∧
      ¬ isRctBulletproofPlus tx.rctSignatures.type then some blobSize
  else
    let nPaddedOutputs :=
      if isRctBulletproofPlus tx.rctSignatures.type then
        nBulletproofPlusMaxAmounts tx.rctSignatures.p.bulletproofsPlus
      else nBulletproofMaxAmounts tx.rctSignatures.p.bulletproofs
    (getTransactionWeightClawback tx nPaddedOutputs).bind fun clawback =>
      if clawback ≤ 2 ^ 64 - 1 - blobSize then some (blobSize + clawback) else none

/-- `get_pruned_transaction_weight`: what a pruned transaction weighed before its signatures and
range proofs, of the canonical sizes, were cut off. It is the largest word for a transaction of
another kind, and `none` where the source throws. -/
def getPrunedTransactionWeight (tx : Transaction) : Option ℕ :=
  let size := ((serializeTransaction tx).getD []).length
  let type := tx.rctSignatures.type
  if !tx.pruned || decide (tx.version < 2) then some (2 ^ 64 - 1)
  else if hasTransparentPqInput tx ∧ type = rctTypeNull then some size
  else if type ≠ rctTypeBulletproof2 ∧ type ≠ rctTypeClsag ∧ type ≠ rctTypeBulletproofPlus then
    some (2 ^ 64 - 1)
  else
    match tx.vin with
    | .toKey i :: _ =>
      let nrl := log2Ceil tx.vout.length
      let elements := if isRctBulletproofPlus type then 6 else 9
      let proofs := 32 * (elements + 2 * (nrl + 6)) + 2
      let ringSize := i.keyOffsets.length
      let signatures := tx.vin.length *
        if isRctClsag type then (ringSize + 2) * 32 else ringSize * 2 * 32 + 32
      let weight := size + 1 + proofs + signatures + 32 * tx.vin.length
      (getTransactionWeightClawback tx (2 ^ nrl)).bind fun clawback =>
        if clawback ≤ 2 ^ 64 - 1 - weight then some (weight + clawback) else none
    | _ => some (2 ^ 64 - 1)

end Hidering
