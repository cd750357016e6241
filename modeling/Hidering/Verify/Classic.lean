import Hidering.Verify.Inputs

/-!
# The checks without post-quantum transactions

The checks of `ver_non_input_consensus` and `check_tx_inputs` as they read with every branch of
`HF_VERSION_PQ` taken out: an input is a ring input or it is refused, everything that is counted is
counted over all of `tx.vin`, a version-2 transaction has a RingCT signature, and the balance
equation has no transparent term. Only the functions that change are written again; the others are
shared with the code as it is.

The record `rctSig` of that code has no field for the transparent term. Here the field is there, and
it is 0 where a signature is put into the batch and where it is expanded; the equation leaves a term
of 0 out.

## Main definitions

* `Hidering.Classic.verNonInputConsensus`
* `Hidering.Classic.checkTxInputs`
-/

namespace Hidering.Classic

open Wire Wire.Format Machine Check

variable (c : Crypto)

/-! ### Serialization: the signature is sized by `vin.size()` -/

/-- What comes behind the prefix `p`. -/
def transactionBody (p : TransactionPrefix) : Format (List (List Signature) × RctSig) :=
  if p.version = 1 then (signaturesFormat p.vin).seq (skip {})
  else if p.vin = [] then (skip []).seq (skip {})
  else (skip []).seq (rctSigFormat p.vin.length p)

/-- What `serialize_base` puts behind the prefix `p`. -/
def transactionBaseBody (p : TransactionPrefix) : Format RctSig :=
  if p.version = 1 ∨ p.vin = [] then skip {}
  else (rctsigBaseFormat p.vin.length p.vout.length).imap RctSig.toRctSigBase
    (fun b => { toRctSigBase := b }) rctSig_base

/-- The serializer of `transaction`. -/
def serializeTransaction (tx : Transaction) : Option Bytes :=
  (prefixFormat.write tx).bind fun x =>
    if tx.pruned then
      if tx.version = 1 ∧ tx.signatures ≠ [] ∧ tx.vin.length ≠ tx.signatures.length then none
      else ((transactionBaseBody tx).write tx.rctSignatures).map (x ++ ·)
    else ((transactionBody tx).write (tx.signatures, tx.rctSignatures)).map (x ++ ·)

/-- `get_transaction_blob_size`. -/
def getTransactionBlobSize (tx : Transaction) : ℕ := ((serializeTransaction tx).getD []).length

/-! ### Semantics of a transaction -/

/-- `check_inputs_types_supported`. -/
def checkInputsTypesSupported (tx : TransactionPrefix) : Bool := tx.vin.all Txin.isToKey

/-- The amounts of the inputs. -/
def inputAmounts (vin : List Txin) : List UInt64 := (vin.filterMap Txin.toKey?).map TxinToKey.amount

/-- `check_money_overflow`. -/
def checkMoneyOverflow (tx : TransactionPrefix) : Bool :=
  (tx.vin.all Txin.isToKey && noOverflow 0 (inputAmounts tx.vin)) && checkOutsOverflow tx

/-- `check_tx_inputs_keyimages_diff`. -/
def checkTxInputsKeyimagesDiff (tx : TransactionPrefix) : Bool :=
  tx.vin.all Txin.isToKey && decide ((ringInputs tx).map TxinToKey.kImage).Nodup

/-- `check_tx_inputs_ring_members_diff`. -/
def checkTxInputsRingMembersDiff (tx : TransactionPrefix) (hfVersion : UInt8) : Bool :=
  decide (hfVersion < 6) || tx.vin.all fun
    | .toKey i => i.keyOffsets.tail.all fun o => o != 0
    | _ => false

/-- `check_tx_inputs_keyimages_domain`. -/
def checkTxInputsKeyimagesDomain (tx : TransactionPrefix) : Bool :=
  tx.vin.all fun
    | .toKey i => i.kImage != Crypto.identity &&
        c.scalarmultKey i.kImage c.curveOrder == Crypto.identity
    | _ => false

/-- `check_tx_semantic`. -/
def checkTxSemantic (tx : Transaction) (hfVersion : UInt8) : Verdict Unit := do
  ensure (!tx.vin.isEmpty) [.verifivationFailed, .invalidInput]
  ensure (checkInputsTypesSupported tx) [.verifivationFailed, .invalidInput]
  ensure (checkOutsValid c tx) [.verifivationFailed, .invalidOutput]
  ensure (decide (tx.version ≤ 1) || tx.rctSignatures.outPk.length == tx.vout.length)
    [.verifivationFailed, .invalidOutput]
  ensure (checkMoneyOverflow tx) [.verifivationFailed, .overspend]
  ensure (tx.version != 1 ||
    decide (getOutsMoneyAmount tx < sum (inputAmounts tx.vin)))
    [.verifivationFailed, .overspend]
  ensure (checkTxInputsKeyimagesDiff tx) [.verifivationFailed, .invalidInput]
  ensure (checkTxInputsRingMembersDiff tx hfVersion) [.verifivationFailed, .invalidInput]
  ensure (checkTxInputsKeyimagesDomain c tx) [.verifivationFailed, .invalidInput]
  ensure (checkOutputTypes tx hfVersion) [.verifivationFailed, .invalidOutput]

/-! ### The batch -/

/-- Rules 1 to 6 for one transaction, and the signature that it adds to the batch. -/
def verNonInputRules (hfVersion : UInt8) (tx : Transaction) : Verdict (Option RctSig) := do
  checkSizeRules hfVersion tx (getTransactionBlobSize tx)
  checkTxSemantic c tx hfVersion
  checkOutputRules c tx hfVersion
  pure (if 2 ≤ tx.version then some { tx.rctSignatures with pqTransparentIn := 0 } else none)

/-- `ver_non_input_consensus`. -/
def verNonInputConsensus (hfVersion : UInt8) (txs : List Transaction) : Verdict Unit := do
  let rvv ← collectSignatures (verNonInputRules c hfVersion) txs
  ensure (verMixedRctSemantics c rvv) [.verifivationFailed, .invalidInput]

/-! ### Expansion and verification of the ring signatures -/

/-- The key images of the inputs; `none` where `boost::get<txin_to_key>` throws. -/
def inputImages (tx : TransactionPrefix) : Option (List KeyImage) :=
  if tx.vin.all Txin.isToKey then some ((ringInputs tx).map TxinToKey.kImage) else none

/-- The key images that a ring signature does not carry on the wire are copied from the inputs. -/
def expandKeyImages (tx : Transaction) : Option RctSigPrunable :=
  let rv := tx.rctSignatures
  if tx.pruned then some rv.p
  else if rv.type = rctTypeFull then do
    let images ← inputImages tx
    pure { rv.p with mgs := [{ (rv.p.mgs.headD default) with ii := images }] }
  else if isRctClsag rv.type then do
    guard (rv.p.clsags.length = tx.vin.length)
    let images ← inputImages tx
    pure { rv.p with
      clsags := List.zipWith (fun s image => { s with i := image }) rv.p.clsags images }
  else do
    guard (rv.p.mgs.length = tx.vin.length)
    let images ← inputImages tx
    pure { rv.p with
      mgs := List.zipWith (fun mg image => { mg with ii := [image] }) rv.p.mgs images }

/-- `expand_transaction_2`. -/
def expandTransaction2 (tx : Transaction) (txPrefixHash : Hash) (pubkeys : List (List CtKey)) :
    Option Transaction := do
  let rv := tx.rctSignatures
  guard (tx.version = 2)
  let mixRing ← expandMixRing rv.type pubkeys
  let p ← expandKeyImages tx
  pure { tx with rctSignatures := { rv with
    message := txPrefixHash, pqTransparentIn := 0, mixRing := mixRing, p := p } }

/-- `expand_tx_and_ver_rct_non_sem`. -/
def expandTxAndVerRctNonSem (tx : Transaction) (mixRing : List (List CtKey)) : Bool :=
  !tx.pruned &&
    match expandTransaction2 tx (c.getTransactionPrefixHash tx) mixRing with
    | none => false
    | some tx' =>
      let rv := tx'.rctSignatures
      let nSigs := if isRctClsag rv.type then rv.p.clsags.length else rv.p.mgs.length
      decide (rv.mixRing = mixRing) && nSigs == tx'.vin.length &&
        (List.range nSigs).all (keyImageMatches tx') && verRctNonSemanticsSimple c rv

/-- `ver_rct_non_semantics_simple_cached`, with a cache that holds the same hashes. -/
def verRctNonSemanticsSimpleCached (cache : RctVerCache c) (tx : Transaction)
    (mixRing : List (List CtKey)) : Bool :=
  if 2 < tx.version ∨ rctTypeBulletproofPlus < tx.rctSignatures.type then false
  else if tx.rctSignatures.type ≠ rctTypeBulletproofPlus then expandTxAndVerRctNonSem c tx mixRing
  else cache.has (calcTxMixringHash c tx mixRing) || expandTxAndVerRctNonSem c tx mixRing

/-! ### The inputs -/

/-- The rules about ring sizes, for rings with `mixins` decoys each; without a ring
`min_actual_mixin` keeps its first value `SIZE_MAX` and `max_actual_mixin` is 0. -/
def checkRingSizes (hfVersion : UInt8) (nUnmixable nMixable : ℕ) (mixins : List ℕ) : Verdict Unit :=
  checkMixinBounds hfVersion nUnmixable nMixable
    (mixins.tail.foldl min (mixins.headD (2 ^ 64 - 1))) (mixins.tail.foldl max (mixins.headD 0))

/-- The rules about ring sizes and transaction versions, made from version 2 on. -/
def checkMixins : ChainView → Transaction → Verdict Unit := checkMixinsBy checkRingSizes

/-- The loop over the inputs. Returns the rings and the largest height of the last member of a
ring. -/
def checkRingInputs (view : ChainView) (tx : Transaction) (txPrefixHash : Hash) :
    ℕ → List Txin → Verdict (List (List CtKey) × ℕ)
  | _, [] => pure ([], 0)
  | sigIndex, .toKey i :: vin => do
    let ring ← checkRingInput c view tx txPrefixHash sigIndex i
    let rest ← checkRingInputs view tx txPrefixHash (sigIndex + 1) vin
    pure (ring.1 :: rest.1, max ring.2 rest.2)
  | _, _ :: _ => throw []

/-- The verification of a signature of type `RCTTypeFull`. -/
def verFullSignature (tx : Transaction) (txPrefixHash : Hash) (pubkeys : List (List CtKey)) :
    Bool :=
  verFullExpanded c tx pubkeys (expandTransaction2 tx txPrefixHash pubkeys)

/-- The verification of the RingCT signature, from transaction version 2 on. -/
def checkRctSignature (cache : RctVerCache c) (tx : Transaction) (txPrefixHash : Hash)
    (pubkeys : List (List CtKey)) : Verdict Unit :=
  let type := tx.rctSignatures.type
  if type = rctTypeNull then throw []
  else if isRctSimple type then ensure (verRctNonSemanticsSimpleCached c cache tx pubkeys) []
  else if type = rctTypeFull then ensure (verFullSignature c tx txPrefixHash pubkeys) []
  else throw []

/-- `check_tx_inputs`: returns `*pmax_used_block_height`. -/
def checkTxInputs (view : ChainView) (cache : RctVerCache c) (tx : Transaction) :
    Verdict ℕ := do
  let txPrefixHash := c.getTransactionPrefixHash tx
  ensure (!(decide (hfVersionMin2Outputs ≤ view.hfVersion ∧ 2 ≤ tx.version)) ||
    decide (2 ≤ tx.vout.length)) [.tooFewOutputs]
  if 2 ≤ view.hfVersion then checkMixins view tx
  ensure (decide (view.hfVersion < 7) ||
    sortedImages ((ringInputs tx).map TxinToKey.kImage)) [.verifivationFailed]
  let rings ← checkRingInputs c view tx txPrefixHash 0 tx.vin
  ensure (decide (view.hfVersion < hfVersionEnforceMinAge) ||
    decide (rings.2 + cryptonoteDefaultTxSpendableAge ≤ view.db.height)) []
  if tx.version = 1 then pure rings.2
  else do
    checkRctSignature c cache tx txPrefixHash rings.1
    pure rings.2

end Hidering.Classic
