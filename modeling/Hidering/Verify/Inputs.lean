import Hidering.Verify.NonInput
import Mathlib.Data.List.Sort

/-!
# The checks of the inputs against the chain

`Blockchain::check_tx_inputs` and the functions it calls. It works in passes over the inputs: the
well-formedness of the extra field, the post-quantum inputs (checks a to e of the source), the ring
sizes, the order of the inputs, the ring inputs, the age of the outputs in the rings, and the ring
signatures.

The table `m_scan_table` of outputs fetched ahead for a batch of blocks is not modelled: the rings
are looked up in the database.

## Main definitions

* `Hidering.ChainView` — what the checks read of the node
* `Hidering.isTxSpendtimeUnlocked`, `scanOutputkeysForIndexes`, `checkTxInput`
* `Hidering.checkPqInput`, `checkPqPass`
* `Hidering.checkTxInputs`
-/

namespace Hidering

open Wire Machine Check Store

/-- What the checks read of the node. -/
structure ChainView where
  db : Db
  /-- `m_hardfork->get_current_version()` -/
  hfVersion : UInt8
  /-- `time(NULL)` -/
  now : UInt64

/-! ### Unlock times -/

/-- The midpoint of two words, `epee::misc_utils::get_mid`. -/
def getMid (a b : UInt64) : UInt64 := a / 2 + b / 2 + ((a - 2 * (a / 2)) + (b - 2 * (b / 2))) / 2

/-- `epee::misc_utils::median`. -/
def median (v : List UInt64) : UInt64 :=
  let s := v.insertionSort (· ≤ ·)
  let n := s.length / 2
  if s.length % 2 = 1 then s.getD n 0
  else getMid (s.getD (n - 1) 0) (s.getD n 0)

/-- The timestamps of the last blocks, as many as the check of timestamps looks at. -/
def lastTimestamps (db : Db) (height : ℕ) : List UInt64 :=
  (List.range blockchainTimestampCheckWindow).filterMap fun k =>
    (db.blockInfo.get? (height - blockchainTimestampCheckWindow + k)).map BlockInfo.timestamp

/-- `get_adjusted_time`. -/
def getAdjustedTime (view : ChainView) (height : ℕ) : UInt64 :=
  if height < blockchainTimestampCheckWindow then view.now
  else
    let timestamps := lastTimestamps view.db height
    let medianTs := median timestamps +
      UInt64.ofNat ((blockchainTimestampCheckWindow + 1) * difficultyTargetV2 / 2)
    -- `median` has sorted the vector in place, so its back is the latest of the timestamps
    let adjustedCurrentBlockTs :=
      (timestamps.insertionSort (· ≤ ·)).getLastD 0 + UInt64.ofNat difficultyTargetV2
    if adjustedCurrentBlockTs < medianTs then adjustedCurrentBlockTs else medianTs

/-- `is_tx_spendtime_unlocked`. -/
def isTxSpendtimeUnlocked (view : ChainView) (unlockTime : UInt64) : Bool :=
  if unlockTime.toNat < cryptonoteMaxBlockNumber then
    decide (unlockTime ≤ UInt64.ofNat view.db.height - 1 +
      UInt64.ofNat cryptonoteLockedTxAllowedDeltaBlocks)
  else
    let currentTime :=
      if hfVersionDeterministicUnlockTime ≤ view.hfVersion then getAdjustedTime view view.db.height
      else view.now
    decide (unlockTime ≤ currentTime + UInt64.ofNat (if view.hfVersion < 2 then
      cryptonoteLockedTxAllowedDeltaSecondsV1 else cryptonoteLockedTxAllowedDeltaSecondsV2))

/-! ### Rings -/

/-- `output_data_t`. -/
structure OutputData where
  pubkey : PublicKey
  unlockTime : UInt64
  height : ℕ
  commitment : Key
deriving DecidableEq

variable (c : Crypto)

/-- `get_output_key`. -/
def Db.getOutputKey (db : Db) (amount : Amount) (index : UInt64) : Option OutputData :=
  ((db.outputAmounts amount).get? index.toNat).map fun ok =>
    ⟨ok.pubkey, ok.unlockTime, ok.height,
      if amount = 0 then ok.commitment.getD default else c.zeroCommit amount⟩

/-- `relative_output_offsets_to_absolute`, from the sum of the offsets before on. -/
def absoluteFrom : UInt64 → List UInt64 → List UInt64
  | _, [] => []
  | total, o :: os => (total + o) :: absoluteFrom (total + o) os

/-- `relative_output_offsets_to_absolute`. -/
def relativeOutputOffsetsToAbsolute (offsets : List UInt64) : List UInt64 := absoluteFrom 0 offsets

/-- The outputs at the given indices; `none` if one of them does not exist. -/
def Db.getOutputKeys (db : Db) (amount : Amount) : List UInt64 → Option (List OutputData)
  | [] => some []
  | index :: indices => do
    let od ← db.getOutputKey c amount index
    let ods ← db.getOutputKeys amount indices
    pure (od :: ods)

/-- `scan_outputkeys_for_indexes`: the members of the ring of an input. Every one of them must be
unlocked. -/
def scanOutputkeysForIndexes (view : ChainView) (txin : TxinToKey) : Verdict (List OutputData) := do
  ensure (!txin.keyOffsets.isEmpty) []
  let outputs ← ofOption
    (view.db.getOutputKeys c txin.amount (relativeOutputOffsetsToAbsolute txin.keyOffsets)) []
  ensure (outputs.all fun od => isTxSpendtimeUnlocked view od.unlockTime) []
  pure outputs

/-- The height that `scan_outputkeys_for_indexes` feeds into `*pmax_related_block_height`: that of
the last member of the ring. -/
def relatedBlockHeight (outputs : List OutputData) : ℕ :=
  (outputs.getLast?.map OutputData.height).getD 0

/-- `check_tx_input`: the ring as keys and commitments, and the height of its last member. -/
def checkTxInput (view : ChainView) (txVersion : UInt64) (txin : TxinToKey)
    (sig : List Signature) : Verdict (List CtKey × ℕ) := do
  let outputs ← scanOutputkeysForIndexes c view txin
  ensure (txVersion != 1 || sig.length == outputs.length) []
  pure (outputs.map fun od => ⟨od.pubkey, od.commitment⟩, relatedBlockHeight outputs)

/-! ### The extra field -/

/-- The fields with an account-level signature, which are no longer accepted. -/
def isPqSigField : TxExtraField → Bool
  | .pqSig _ => true
  | _ => false

/-- The part of `check_tx_inputs` about `tx.extra`, made from `HF_VERSION_PQ` on. -/
def checkPqExtra (tx : TransactionPrefix) : Verdict Unit := do
  ensure (decide (tx.extra.length ≤ maxTxExtraSizePq)) [.verifivationFailed]
  let fields ← ofOption (parseTxExtra tx.extra) [.verifivationFailed]
  ensure (!fields.isEmpty) [.verifivationFailed]
  ensure (!fields.any isPqSigField) [.verifivationFailed]
  ensure (checkPqOutputFieldIndices fields tx.vout.length) [.verifivationFailed]
  ensure (decide ((kyberCtIndices fields).length ≤ tx.vout.length)) [.verifivationFailed]

/-! ### Post-quantum inputs -/

/-- An input with its two signatures zeroed. -/
def zeroPqSigs : Txin → Txin
  | .toKeyPq i => .toKeyPq { i with ownerSig := default, auth := { i.auth with sig := default } }
  | i => i

/-- `pq_in_hash`, the message that the signatures of the post-quantum inputs sign. -/
def pqInHash (tx : TransactionPrefix) : Hash :=
  c.getTransactionPrefixHash { tx with vin := tx.vin.map zeroPqSigs }

/-- `get_output_tx_and_index`. -/
def Db.getOutputTxAndIndex (db : Db) (amount : Amount) (index : UInt64) : Option (Hash × ℕ) :=
  ((db.outputAmounts amount).get? index.toNat).bind fun ok =>
    (db.outputTxs.get? ok.outputId).map fun ot => (ot.txHash, ot.localIndex)

/-- The binding tag that the transaction which created an output published for it. -/
def storedBindTag (db : Db) (index : UInt64) : Option Hash := do
  let toi ← db.getOutputTxAndIndex 0 index
  let blob ← db.getPrunedTxBlob toi.1
  let originTx ← parseAndValidateTxBase c blob
  let fields ← parseTxExtra originTx.extra
  findPqBind fields (UInt64.ofNat toi.2)

/-- The binding tag that opens to the authorisation key of an input. -/
def expectedBindTag (i : TxinToKeyPq) : Hash :=
  c.pqcComputeBindTagV2 i.authType i.realOutputKey
    (c.pqcComputeAuthCommit i.authType i.auth.pk) i.authBlind

/-- Checks (a) to (d2) of a post-quantum input. -/
def checkPqInput (view : ChainView) (message : Hash) (i : TxinToKeyPq) : Verdict Unit := do
  -- (a) the output exists and its synthetic key image is not spent
  let od ← ofOption (view.db.getOutputKey c 0 i.spentOutputIndex) [.verifivationFailed]
  ensure (!view.db.hasKeyImage (c.getPqInputKeyImage i.realOutputKey)) [.doubleSpend]
  -- (b) the revealed key is the one on the chain
  ensure (decide (od.pubkey = i.realOutputKey)) [.verifivationFailed]
  -- (b2) the declared amount opens the commitment on the chain
  ensure (decide (od.commitment = c.commit i.amount i.mask)) [.verifivationFailed]
  -- (c) the binding tag on the chain opens to the authorisation key
  let storedBind ← ofOption (storedBindTag c view.db i.spentOutputIndex) [.verifivationFailed]
  ensure (i.authType == pqAuthTypeMldsa65) [.verifivationFailed]
  ensure (decide (expectedBindTag c i = storedBind)) [.verifivationFailed]
  -- (d) and (d2) the two signatures
  ensure (c.pqcTxVerify message i.auth) [.verifivationFailed]
  ensure (c.checkSignature message i.realOutputKey i.ownerSig) [.verifivationFailed]

/-- Check (e): conservation of the revealed amounts. -/
def checkPqConservation (tx : Transaction) : Verdict Unit :=
  if 0 < nRing tx then
    ensure (tx.version == 2 && tx.rctSignatures.type != rctTypeNull) [.verifivationFailed]
  else do
    let pqInSum ← ofOption (checkedSum 0 ((pqInputs tx).map TxinToKeyPq.amount))
      [.verifivationFailed]
    ensure (tx.version == 2 && tx.rctSignatures.type == rctTypeNull) [.verifivationFailed]
    let pqOutSum ← ofOption (checkedSum 0 (tx.vout.map TxOut.amount)) [.verifivationFailed]
    ensure (decide (pqOutSum ≤ pqInSum)) [.verifivationFailed]

/-- The pass over the post-quantum inputs, made from `HF_VERSION_PQ` on. -/
def checkPqPass (view : ChainView) (tx : Transaction) : Verdict Unit :=
  if hasTransparentPqInput tx then do
    forAll (checkPqInput c view (pqInHash c tx)) (pqInputs tx)
    checkPqConservation tx
  else pure ()

/-! ### Ring sizes and the order of the inputs -/

/-- The smallest number of decoys of a ring. -/
def minMixin (hfVersion : UInt8) : ℕ :=
  if hfVersionMinMixin31 ≤ hfVersion then 31
  else if hfVersionMinMixin10 ≤ hfVersion then 10
  else if hfVersionMinMixin6 ≤ hfVersion then 6
  else if hfVersionMinMixin4 ≤ hfVersion then 4
  else 2

/-- A ring input whose amount has too few outputs for a ring. -/
def isUnmixable (view : ChainView) (i : TxinToKey) : Bool :=
  i.amount != 0 && decide (view.db.getNumOutputs i.amount ≤ minMixin view.hfVersion)

/-- The rules about the smallest and the largest number of decoys of a ring. -/
def checkMixinBounds (hfVersion : UInt8)
    (nUnmixable nMixable minActualMixin maxActualMixin : ℕ) : Verdict Unit := do
  ensure (!decide (hfVersionSameMixin ≤ hfVersion) || minActualMixin == maxActualMixin) [.lowMixin]
  if minActualMixin < minMixin hfVersion then do
    ensure (nUnmixable != 0) [.lowMixin]
    ensure (decide (nMixable ≤ 1)) [.lowMixin]
  else
    ensure (!(
      decide (hfVersionMinMixin31 ≤ hfVersion ∧ 63 < maxActualMixin) ||
      decide (hfVersion < hfVersionMinMixin31 ∧ hfVersionMinMixin10 + 2 ≤ hfVersion ∧
        10 < minActualMixin) ||
      decide ((hfVersion = hfVersionMinMixin10 ∨ hfVersion = hfVersionMinMixin10 + 1) ∧
        minActualMixin ≠ 10))) [.lowMixin]

/-- The rules about ring sizes, for rings with `mixins` decoys each. -/
def checkRingSizes (hfVersion : UInt8) (nUnmixable nMixable : ℕ) (mixins : List ℕ) : Verdict Unit :=
  match mixins with
  | [] => pure ()
  | m :: ms =>
    checkMixinBounds hfVersion nUnmixable nMixable (ms.foldl min m) (ms.foldl max m)

/-- The rules about transaction versions, behind `checkSizes` for the ring sizes. -/
def checkMixinsBy (checkSizes : UInt8 → ℕ → ℕ → List ℕ → Verdict Unit) (view : ChainView)
    (tx : Transaction) : Verdict Unit := do
  let ins := ringInputs tx
  ensure (ins.all fun i => !i.keyOffsets.isEmpty) [.verifivationFailed]
  let nUnmixable := ins.countP (isUnmixable view)
  let nMixable := ins.countP fun i => !isUnmixable view i
  checkSizes view.hfVersion nUnmixable nMixable (ins.map fun i => i.keyOffsets.length - 1)
  let maxTxVersion : UInt64 := if view.hfVersion ≤ 3 then 1 else 2
  ensure (decide (tx.version ≤ maxTxVersion)) [.verifivationFailed]
  let minTxVersion : UInt64 :=
    if 0 < nUnmixable then 1 else if hfVersionEnforceRct ≤ view.hfVersion then 2 else 1
  ensure (decide (minTxVersion ≤ tx.version)) [.verifivationFailed]

/-- The rules about ring sizes and transaction versions, made from version 2 on. -/
def checkMixins : ChainView → Transaction → Verdict Unit := checkMixinsBy checkRingSizes

/-- Every ring input stands before every post-quantum one. -/
def ringBeforePq : List Txin → Bool
  | [] => true
  | i :: vin => (!i.isToKeyPq || vin.all Txin.isToKeyPq) && ringBeforePq vin

/-- `memcmp(a, b) < 0`. -/
def memcmpLt : Bytes → Bytes → Bool
  | a :: as, b :: bs => decide (a < b) || (a == b && memcmpLt as bs)
  | _, _ => false

theorem memcmpLt_asymm {a b : Bytes} (h : memcmpLt a b = true) : memcmpLt b a = false := by
  induction a generalizing b with
  | nil => cases b <;> simp [memcmpLt] at h
  | cons x a ih =>
    cases b with
    | nil => simp [memcmpLt] at h
    | cons y b =>
      simp only [memcmpLt, Bool.or_eq_true, decide_eq_true_eq, Bool.and_eq_true, beq_iff_eq,
        Bool.or_eq_false_iff, decide_eq_false_iff_not, Bool.and_eq_false_iff,
        beq_eq_false_iff_ne] at h ⊢
      rcases h with hlt | ⟨rfl, hlt⟩
      · exact ⟨UInt8.lt_asymm hlt, .inl fun heq => UInt8.lt_irrefl x (heq ▸ hlt)⟩
      · exact ⟨UInt8.lt_irrefl x, .inr (ih hlt)⟩

theorem memcmpLt_trans {a b d : Bytes} (h : memcmpLt a b = true) (h' : memcmpLt b d = true) :
    memcmpLt a d = true := by
  induction a generalizing b d with
  | nil => cases b <;> simp [memcmpLt] at h
  | cons x a ih =>
    cases b with
    | nil => simp [memcmpLt] at h
    | cons y b =>
      cases d with
      | nil => simp [memcmpLt] at h'
      | cons z d =>
        simp only [memcmpLt, Bool.or_eq_true, decide_eq_true_eq, Bool.and_eq_true,
          beq_iff_eq] at h h' ⊢
        rcases h with hlt | ⟨rfl, hlt⟩
        · rcases h' with hlt' | ⟨rfl, -⟩
          · exact .inl (UInt8.lt_trans hlt hlt')
          · exact .inl hlt
        · rcases h' with hlt' | ⟨rfl, hlt'⟩
          · exact .inl hlt'
          · exact .inr ⟨rfl, ih hlt hlt'⟩

/-- The key images are strictly descending. -/
def sortedImages : List KeyImage → Bool
  | k :: k' :: ks => memcmpLt k'.bytes k.bytes && sortedImages (k' :: ks)
  | _ => true

/-! ### Ring inputs -/

/-- The version-1 ring signature of ring input `sigIndex`; later versions have none. -/
def inputSignature (tx : Transaction) (sigIndex : ℕ) : Verdict (List Signature) :=
  if tx.version = 1 then ofOption tx.signatures[sigIndex]? [] else pure []

/-- One ring input: its ring and the height of the last member. -/
def checkRingInput (view : ChainView) (tx : Transaction) (txPrefixHash : Hash) (sigIndex : ℕ)
    (i : TxinToKey) : Verdict (List CtKey × ℕ) := do
  ensure (!i.keyOffsets.isEmpty) []
  ensure (!view.db.hasKeyImage i.kImage) [.doubleSpend]
  let sig ← inputSignature tx sigIndex
  let ring ← checkTxInput c view tx.version i sig
  ensure (tx.version != 1 ||
    c.checkRingSignature txPrefixHash i.kImage (ring.1.map CtKey.dest) sig) []
  pure ring

/-- The loop over the inputs; the number counts the ring inputs. Returns the rings and the largest
height of the last member of a ring. -/
def checkRingInputs (view : ChainView) (tx : Transaction) (txPrefixHash : Hash) :
    ℕ → List Txin → Verdict (List (List CtKey) × ℕ)
  | _, [] => pure ([], 0)
  | sigIndex, .toKeyPq _ :: vin => do
    ensure (decide (hfVersionPq ≤ view.hfVersion)) [.invalidInput, .verifivationFailed]
    checkRingInputs view tx txPrefixHash sigIndex vin
  | sigIndex, .toKey i :: vin => do
    let ring ← checkRingInput c view tx txPrefixHash sigIndex i
    let rest ← checkRingInputs view tx txPrefixHash (sigIndex + 1) vin
    pure (ring.1 :: rest.1, max ring.2 rest.2)
  | _, _ :: _ => throw []

/-- The rings agree with the ones that a signature of type `RCTTypeFull` holds. -/
def fullRingMatches (pubkeys mixRing : List (List CtKey)) : Bool :=
  (pubkeys.all fun r => r.length == mixRing.length) &&
    (mixRing.all fun r => r.length == pubkeys.length) &&
    (List.range pubkeys.length).all fun n => (List.range mixRing.length).all fun m =>
      decide (pubkeys[n]?.bind (·[m]?) = mixRing[m]?.bind (·[n]?))

/-- The verification of a signature of type `RCTTypeFull` that has been expanded. -/
def verFullExpanded (tx : Transaction) (pubkeys : List (List CtKey)) : Option Transaction → Bool
  | none => false
  | some tx' =>
    let rv := tx'.rctSignatures
    fullRingMatches pubkeys rv.mixRing &&
      (match rv.p.mgs with
      | [mg] => decide (mg.ii = (ringInputs tx).map TxinToKey.kImage) &&
          mg.ii.length == tx.vin.length
      | _ => false) && verRct c rv

/-- The verification of a signature of type `RCTTypeFull`. -/
def verFullSignature (tx : Transaction) (txPrefixHash : Hash) (pubkeys : List (List CtKey)) :
    Bool :=
  verFullExpanded c tx pubkeys (expandTransaction2 tx txPrefixHash pubkeys)

/-- The verification of the RingCT signature, from transaction version 2 on. -/
def checkRctSignature (view : ChainView) (cache : RctVerCache c) (tx : Transaction)
    (txPrefixHash : Hash) (pubkeys : List (List CtKey)) : Verdict (RctVerCache c) :=
  let type := tx.rctSignatures.type
  if type = rctTypeNull then do
    ensure (decide (hfVersionPq ≤ view.hfVersion) && hasTransparentPqInput tx) []
    pure cache
  else if isRctSimple type then ofOption (verRctNonSemanticsSimpleCached c cache tx pubkeys) []
  else if type = rctTypeFull then do
    ensure (verFullSignature c tx txPrefixHash pubkeys) []
    pure cache
  else throw []

/-! ### All inputs -/

/-- `check_tx_inputs`: returns `*pmax_used_block_height` and the cache of verified signatures. -/
def checkTxInputs (view : ChainView) (cache : RctVerCache c) (tx : Transaction) :
    Verdict (ℕ × RctVerCache c) := do
  let txPrefixHash := c.getTransactionPrefixHash tx
  if hfVersionPq ≤ view.hfVersion then checkPqExtra tx
  if hfVersionPq ≤ view.hfVersion then checkPqPass c view tx
  ensure (!(decide (hfVersionMin2Outputs ≤ view.hfVersion ∧ 2 ≤ tx.version)) ||
    decide (2 ≤ tx.vout.length)) [.tooFewOutputs]
  if 2 ≤ view.hfVersion then checkMixins view tx
  ensure (ringBeforePq tx.vin) [.verifivationFailed]
  ensure (decide (view.hfVersion < 7) ||
    sortedImages ((ringInputs tx).map TxinToKey.kImage)) [.verifivationFailed]
  let rings ← checkRingInputs c view tx txPrefixHash 0 tx.vin
  ensure (decide (view.hfVersion < hfVersionEnforceMinAge) ||
    decide (rings.2 + cryptonoteDefaultTxSpendableAge ≤ view.db.height)) []
  if tx.version = 1 then pure (rings.2, cache)
  else do
    let cache ← checkRctSignature c view cache tx txPrefixHash rings.1
    pure (rings.2, cache)

end Hidering
