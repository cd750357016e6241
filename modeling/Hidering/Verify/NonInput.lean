import Hidering.Chain.Reward
import Hidering.Db.BlockchainDb
import Hidering.Store.Check
import Hidering.Verify.RingCt

/-!
# The checks that do not look at the chain

`ver_non_input_consensus` and the functions it calls: size and weight, `core::check_tx_semantic`,
`Blockchain::check_tx_outputs`, and the semantics of the RingCT signatures, which are verified for
all transactions of a batch together.

A check returns the flags of `tx_verification_context` that it sets when it refuses a transaction.

## Main definitions

* `Hidering.checkTxSemantic`, `checkTxOutputs`
* `Hidering.verNonInputConsensus`
-/

namespace Hidering

open Wire Machine Check

variable (c : Crypto)

/-! ### Verdicts -/

/-- The flags of `tx_verification_context` that say why a transaction was refused. -/
inductive TvcFlag where
  | verifivationFailed
  | noDropOffense
  | verifivationImpossible
  | lowMixin
  | doubleSpend
  | invalidInput
  | invalidOutput
  | tooBig
  | overspend
  | feeTooLow
  | tooFewOutputs
  | txExtraTooBig
  | nonzeroUnlockTime
  /-- no flag: an exception has left the function -/
  | thrown
deriving DecidableEq

/-- The result of a check: a value, or the flags set by the refusal. -/
abbrev Verdict := Except (List TvcFlag)

/-! ### Semantics of a transaction -/

/-- `check_tx_inputs_keyimages_diff`. -/
def checkTxInputsKeyimagesDiff (tx : TransactionPrefix) : Bool :=
  (tx.vin.all fun i => i.isToKey || i.isToKeyPq) &&
    decide (tx.vin.filterMap (spentImage c)).Nodup

/-- `check_tx_inputs_ring_members_diff`. -/
def checkTxInputsRingMembersDiff (tx : TransactionPrefix) (hfVersion : UInt8) : Bool :=
  decide (hfVersion < 6) || tx.vin.all fun
    | .toKeyPq _ => true
    | .toKey i => i.keyOffsets.tail.all fun o => o != 0
    | _ => false

/-- `check_tx_inputs_keyimages_domain`. -/
def checkTxInputsKeyimagesDomain (tx : TransactionPrefix) : Bool :=
  tx.vin.all fun
    | .toKeyPq _ => true
    | .toKey i => i.kImage != Crypto.identity &&
        c.scalarmultKey i.kImage c.curveOrder == Crypto.identity
    | _ => false

/-- `check_tx_semantic`. -/
def checkTxSemantic (tx : Transaction) (hfVersion : UInt8) : Verdict Unit := do
  ensure (!tx.vin.isEmpty) [.verifivationFailed, .invalidInput]
  ensure (checkInputsTypesSupported tx hfVersion) [.verifivationFailed, .invalidInput]
  ensure (checkOutsValid c tx) [.verifivationFailed, .invalidOutput]
  let pqTransparent := decide (hfVersionPq ≤ hfVersion) &&
    tx.rctSignatures.type == rctTypeNull && hasTransparentPqInput tx
  ensure (decide (tx.version ≤ 1) || pqTransparent ||
    tx.rctSignatures.outPk.length == tx.vout.length) [.verifivationFailed, .invalidOutput]
  ensure (checkMoneyOverflow tx) [.verifivationFailed, .overspend]
  ensure (tx.version != 1 ||
    decide (getOutsMoneyAmount tx < sum (inputAmounts tx.vin)))
    [.verifivationFailed, .overspend]
  ensure (checkTxInputsKeyimagesDiff c tx) [.verifivationFailed, .invalidInput]
  ensure (checkTxInputsRingMembersDiff tx hfVersion) [.verifivationFailed, .invalidInput]
  ensure (checkTxInputsKeyimagesDomain c tx) [.verifivationFailed, .invalidInput]
  ensure (checkOutputTypes tx hfVersion) [.verifivationFailed, .invalidOutput]

/-! ### Outputs -/

/-- The hashes of two transactions that are let through with an old type of signature. -/
def grandfathered : List Hash :=
  [Blob.ofList 32 [0xc5, 0x15, 0x19, 0x44, 0xf0, 0x58, 0x30, 0x97, 0xba, 0x0c, 0x88, 0xcd, 0x0f,
    0x43, 0xe7, 0xfa, 0xbb, 0x38, 0x81, 0x27, 0x8a, 0xa2, 0xf7, 0x3b, 0x3b, 0x0a, 0x00, 0x7c, 0x5d,
    0x34, 0xe9, 0x10],
  Blob.ofList 32 [0x6f, 0x2f, 0x11, 0x7c, 0xde, 0x6f, 0xbc, 0xf8, 0xd4, 0xa6, 0xef, 0x89, 0x74,
    0xfc, 0xac, 0x74, 0x47, 0x26, 0x57, 0x4a, 0xc3, 0x8c, 0xf2, 0x5d, 0x33, 0x22, 0xc9, 0x96, 0xb2,
    0x1e, 0xdd, 0x4c]]

/-- The types of signature that each fork version allows in a version-2 transaction. -/
def checkRctType (tx : Transaction) (hfVersion : UInt8) : Bool :=
  let type := tx.rctSignatures.type
  let p := tx.rctSignatures.p
  !(decide (hfVersion < 8) && (isRctBulletproof type || !p.bulletproofs.isEmpty)) &&
  !(decide (8 < hfVersion) && isRctBorromean type) &&
  !(decide (hfVersion < hfVersionSmallerBp) && type == rctTypeBulletproof2) &&
  !(decide (hfVersionSmallerBp < hfVersion) && type == rctTypeBulletproof) &&
  !(decide (hfVersion < hfVersionClsag) && type == rctTypeClsag) &&
  !(decide (hfVersionClsag < hfVersion) && decide (type ≤ rctTypeBulletproof2) &&
    !grandfathered.contains (c.getTransactionHash tx)) &&
  !(decide (hfVersion < hfVersionBulletproofPlus) &&
    (isRctBulletproofPlus type || !p.bulletproofsPlus.isEmpty)) &&
  !(decide (hfVersionBulletproofPlus < hfVersion) && isRctBulletproof type)

/-- The rules of `check_tx_outputs` for a transaction that it does not let through at once. -/
def checkOutputRules (tx : Transaction) (hfVersion : UInt8) : Verdict Unit := do
  ensure (!(decide (2 ≤ hfVersion) && tx.version == 1) ||
    tx.vout.all fun o => isValidDecomposedAmount o.amount) [.invalidOutput]
  ensure (!(decide (3 ≤ hfVersion) && decide (2 ≤ tx.version)) ||
    tx.vout.all fun o => o.amount == 0) [.invalidOutput]
  ensure (decide (tx.version < 2) || checkRctType c tx hfVersion) [.invalidOutput]
  ensure (checkOutputTypes tx hfVersion) [.invalidOutput]

/-- `check_tx_outputs`. -/
def checkTxOutputs (tx : Transaction) (hfVersion : UInt8) : Verdict Unit :=
  if hfVersionPq ≤ hfVersion ∧ 2 ≤ tx.version ∧ tx.rctSignatures.type = rctTypeNull ∧
      hasTransparentPqInput tx then pure ()
  else checkOutputRules c tx hfVersion

/-! ### The batch -/

/-- `get_transaction_blob_size`. -/
def getTransactionBlobSize (tx : Transaction) : ℕ := ((serializeTransaction tx).getD []).length

/-- `get_transaction_weight_limit`. -/
def getTransactionWeightLimit (hfVersion : UInt8) : ℕ :=
  if hfVersionPerByteFee ≤ hfVersion then
    (getMinBlockWeight hfVersion).toNat / 2 - cryptonoteCoinbaseBlobReservedSize
  else (getMinBlockWeight hfVersion).toNat - cryptonoteCoinbaseBlobReservedSize

/-- Rules 1 to 3: the size, the version and the weight. -/
def checkSizeRules (hfVersion : UInt8) (tx : Transaction) (blobSize : ℕ) : Verdict Unit := do
  ensure (decide (blobSize ≤ cryptonoteMaxTxSize)) [.verifivationFailed, .tooBig]
  let maxTxVersion : UInt64 := if hfVersion < hfVersionDynamicFee then 1 else 2
  ensure (tx.version != 0 && decide (tx.version ≤ maxTxVersion)) [.verifivationFailed]
  let txWeight ← ofOption (getTransactionWeight tx blobSize) [.thrown]
  ensure (decide (hfVersion < hfVersionPerByteFee) ||
    decide (txWeight ≤ getTransactionWeightLimit hfVersion)) [.verifivationFailed, .tooBig]

/-- Rules 1 to 6 for one transaction, and the signature that it adds to the batch. -/
def verNonInputRules (hfVersion : UInt8) (tx : Transaction) : Verdict (Option RctSig) := do
  checkSizeRules hfVersion tx (getTransactionBlobSize tx)
  checkTxSemantic c tx hfVersion
  checkTxOutputs c tx hfVersion
  if 2 ≤ tx.version ∧ tx.rctSignatures.type ≠ rctTypeNull then do
    let pqIn ← ofOption (getPqTransparentInputSum tx) [.verifivationFailed]
    pure (some { tx.rctSignatures with pqTransparentIn := pqIn })
  else pure none

/-- The loop of `ver_non_input_consensus`: the signatures of the batch. -/
def collectSignatures (rules : Transaction → Verdict (Option RctSig)) :
    List Transaction → Verdict (List RctSig)
  | [] => pure []
  | tx :: txs => do
    let rv ← rules tx
    let rvv ← collectSignatures rules txs
    pure (rv.toList ++ rvv)

/-- `ver_non_input_consensus`. -/
def verNonInputConsensus (hfVersion : UInt8) (txs : List Transaction) : Verdict Unit := do
  let rvv ← collectSignatures (verNonInputRules c hfVersion) txs
  ensure (verMixedRctSemantics c rvv) [.verifivationFailed, .invalidInput]

end Hidering
