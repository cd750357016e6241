import Hidering.Basic.Pruned

/-!
# Verification of RingCT signatures

The verification functions of `rctSigs.cpp` and `tx_verification_utils.cpp` above the level of the
proof systems: the balance equation, the sizes of the parts of a signature, the expansion of a
signature by what the chain and the transaction determine, and the cache of verified signatures.

Point arithmetic of the source throws on bytes that are not a point, and the callers turn the
exception into a rejection; here such an operation returns `none`.

## Main definitions

* `Hidering.verRctSemanticsSimple`, `verRctNonSemanticsSimple`, `verRct`
* `Hidering.verMixedRctSemantics`
* `Hidering.expandTransaction2`, `expandTxAndVerRctNonSem`
* `Hidering.RctVerCache`, `verRctNonSemanticsSimpleCached`
-/

namespace Hidering

open Wire Crypto

variable (c : Crypto)

/-! ### Sums of points -/

/-- `addKeys(A, B)`. -/
def Crypto.addKeys? (p q : Key) : Option Key :=
  if c.checkKey p && c.checkKey q then some (c.addKeys p q) else none

/-- `addKeys` of a vector. -/
def Crypto.addKeysV : List Key → Option Key
  | [] => some identity
  | k :: ks => if c.checkKey k then ks.foldlM c.addKeys? k else none

/-! ### Semantics -/

/-- The pseudo outputs that the checks of a simple signature use. -/
def simplePseudoOuts (rv : RctSig) : List Key :=
  if isRctBulletproof rv.type || isRctBulletproofPlus rv.type then rv.p.pseudoOuts
  else rv.pseudoOuts

/-- The first loop of `verRctSemanticsSimple`: the sizes of the parts agree. -/
def semanticsSizesOk (rv : RctSig) : Bool :=
  isRctSimple rv.type &&
  (if isRctBulletproof rv.type || isRctBulletproofPlus rv.type then
    (if isRctBulletproofPlus rv.type then
      rv.outPk.length == nBulletproofPlusAmounts rv.p.bulletproofsPlus
    else rv.outPk.length == nBulletproofAmounts rv.p.bulletproofs) &&
    (if isRctClsag rv.type then
      rv.p.mgs.isEmpty && rv.p.pseudoOuts.length == rv.p.clsags.length
    else rv.p.clsags.isEmpty && rv.p.pseudoOuts.length == rv.p.mgs.length) &&
    rv.pseudoOuts.isEmpty
  else
    rv.outPk.length == rv.p.rangeSigs.length && rv.pseudoOuts.length == rv.p.mgs.length &&
      rv.p.pseudoOuts.isEmpty) &&
  rv.outPk.length == rv.ecdhInfo.length

/-- Add the revealed amount of the post-quantum inputs to the pseudo outputs. -/
def addTransparentIn (rv : RctSig) (sumPseudoOuts : Key) : Option Key :=
  if rv.pqTransparentIn ≠ 0 then
    c.addKeys? sumPseudoOuts (c.scalarmultH (d2h rv.pqTransparentIn))
  else some sumPseudoOuts

/-- The sum check of `verRctSemanticsSimple`: the pseudo outputs and the revealed amount of the
post-quantum inputs balance the outputs and the fee. -/
def sumCheck (rv : RctSig) : Bool :=
  ((do
    let sumOutpks ← c.addKeysV (rv.outPk.map CtKey.mask)
    let sumOutpks ← c.addKeys? sumOutpks (c.scalarmultH (d2h rv.txnFee))
    let sumPseudoOuts ← c.addKeysV (simplePseudoOuts rv)
    let sumPseudoOuts ← addTransparentIn c rv sumPseudoOuts
    pure (decide (sumPseudoOuts = sumOutpks)) : Option Bool)).getD false

/-- The Borromean range proofs of a signature. -/
def verRanges (rv : RctSig) : Bool :=
  (rv.outPk.zip rv.p.rangeSigs).all fun p => c.verRange p.1.mask p.2

/-- `verRctSemanticsSimple` of a batch. -/
def verRctSemanticsSimple (rvv : List RctSig) : Bool :=
  let bppProofs := (rvv.filter fun rv => isRctBulletproofPlus rv.type).flatMap
    fun rv => rv.p.bulletproofsPlus
  let bpProofs := (rvv.filter fun rv => !isRctBulletproofPlus rv.type &&
    isRctBulletproof rv.type).flatMap fun rv => rv.p.bulletproofs
  rvv.all semanticsSizesOk && rvv.all (sumCheck c) &&
    (bppProofs.isEmpty || c.verBulletproofPlus bppProofs) &&
    (bpProofs.isEmpty || c.verBulletproof bpProofs) &&
    rvv.all fun rv => isRctBulletproof rv.type || isRctBulletproofPlus rv.type || verRanges c rv

/-- `verRct(rv, semantics = true)`. -/
def verRctSemantics (rv : RctSig) : Bool :=
  rv.type == rctTypeFull && rv.outPk.length == rv.p.rangeSigs.length &&
    rv.outPk.length == rv.ecdhInfo.length && rv.p.mgs.length == 1 && verRanges c rv

/-- `verRct(rv, semantics = false)`. -/
def verRct (rv : RctSig) : Bool :=
  rv.type == rctTypeFull &&
    match rv.p.mgs with
    | mg :: _ =>
      c.verRctMG mg rv.mixRing rv.outPk (c.scalarmultH (d2h rv.txnFee)) (c.getPreMlsagHash rv)
    | [] => false

/-- `is_canonical_bulletproof_layout`. -/
def isCanonicalBulletproofLayout (proofs : List Bulletproof) : Bool :=
  match proofs with
  | [p] => decide (0 < p.v.length ∧ p.v.length ≤ bulletproofMaxOutputs)
  | _ => false

/-- `is_canonical_bulletproof_plus_layout`. -/
def isCanonicalBulletproofPlusLayout (proofs : List BulletproofPlus) : Bool :=
  match proofs with
  | [p] => decide (0 < p.v.length ∧ p.v.length ≤ bulletproofMaxOutputs)
  | _ => false

/-- A signature whose semantics are verified in a batch with others. -/
def isBatchable (rv : RctSig) : Bool := isRctBulletproof rv.type || isRctBulletproofPlus rv.type

/-- The test that `ver_mixed_rct_semantics` makes on each signature by itself. -/
def mixedSemanticsOk (rv : RctSig) : Bool :=
  if rv.type = rctTypeSimple then verRctSemanticsSimple c [rv]
  else if rv.type = rctTypeFull then verRctSemantics c rv
  else if isRctBulletproof rv.type then isCanonicalBulletproofLayout rv.p.bulletproofs
  else if isRctBulletproofPlus rv.type then isCanonicalBulletproofPlusLayout rv.p.bulletproofsPlus
  else false

/-- `ver_mixed_rct_semantics`. -/
def verMixedRctSemantics (rvv : List RctSig) : Bool :=
  rvv.all (mixedSemanticsOk c) &&
    (let batch := rvv.filter isBatchable
     batch.isEmpty || verRctSemanticsSimple c batch)

/-! ### Signatures -/

/-- The signature of ring input `i` in `verRctNonSemanticsSimple`. -/
def verInputSignature (rv : RctSig) (message : Key) (i : ℕ) : Bool :=
  match rv.mixRing[i]?, (simplePseudoOuts rv)[i]? with
  | some ring, some pseudoOut =>
    if isRctClsag rv.type then
      match rv.p.clsags[i]? with
      | some sig => c.verRctCLSAGSimple message sig ring pseudoOut
      | none => false
    else
      match rv.p.mgs[i]? with
      | some mg => c.verRctMGSimple message mg ring pseudoOut
      | none => false
  | _, _ => false

/-- `verRctNonSemanticsSimple`. -/
def verRctNonSemanticsSimple (rv : RctSig) : Bool :=
  isRctSimple rv.type && (simplePseudoOuts rv).length == rv.mixRing.length &&
    (List.range rv.mixRing.length).all (verInputSignature c rv (c.getPreMlsagHash rv))

/-! ### Expansion -/

/-- The rings of a signature, as the two families of types store them. -/
def expandMixRing (type : UInt8) (pubkeys : List (List CtKey)) : Option (List (List CtKey)) :=
  match pubkeys with
  | [] => none
  | row :: _ =>
    if row.isEmpty then none
    else if type = rctTypeFull then
      if pubkeys.all fun r => decide (r.length ≤ row.length) then
        some ((List.range row.length).map fun m => pubkeys.filterMap fun r => r[m]?)
      else none
    else if isRctSimple type then some pubkeys
    else none

/-- The key images of the ring inputs. -/
def ringImages (tx : TransactionPrefix) : List KeyImage :=
  ((tx.vin.take (nRing tx)).filterMap Txin.toKey?).map TxinToKey.kImage

/-- The key images that a ring signature does not carry on the wire are copied from the inputs. -/
def expandKeyImages (tx : Transaction) : Option RctSigPrunable :=
  let rv := tx.rctSignatures
  let images := ringImages tx
  if tx.pruned then some rv.p
  else if rv.type = rctTypeFull then
    if tx.vin.all Txin.isToKey then
      some { rv.p with mgs := [{ (rv.p.mgs.headD default) with ii := images }] }
    else none
  else if isRctClsag rv.type then
    if rv.p.clsags.length = nRing tx then
      some { rv.p with
        clsags := List.zipWith (fun s image => { s with i := image }) rv.p.clsags images }
    else none
  else if rv.p.mgs.length = nRing tx then
    some { rv.p with
      mgs := List.zipWith (fun mg image => { mg with ii := [image] }) rv.p.mgs images }
  else none

/-- `expand_transaction_2`. -/
def expandTransaction2 (tx : Transaction) (txPrefixHash : Hash) (pubkeys : List (List CtKey)) :
    Option Transaction := do
  let rv := tx.rctSignatures
  guard (tx.version = 2)
  guard ((tx.vin.take (nRing tx)).all Txin.isToKey)
  let pqIn ← getPqTransparentInputSum tx
  let mixRing ← expandMixRing rv.type pubkeys
  let p ← expandKeyImages tx
  pure { tx with rctSignatures := { rv with
    message := txPrefixHash, pqTransparentIn := pqIn, mixRing := mixRing, p := p } }

/-- Signature `n` carries the key image of input `n`. -/
def keyImageMatches (tx : Transaction) (n : ℕ) : Bool :=
  let rv := tx.rctSignatures
  match tx.vin[n]? with
  | some (.toKey i) =>
    if isRctClsag rv.type then (rv.p.clsags[n]?).any fun s => decide (i.kImage = s.i)
    else (rv.p.mgs[n]?).any fun mg => decide (mg.ii.head? = some i.kImage)
  | _ => false

/-- `expand_tx_and_ver_rct_non_sem`. -/
def expandTxAndVerRctNonSem (tx : Transaction) (mixRing : List (List CtKey)) : Bool :=
  !tx.pruned &&
    match expandTransaction2 tx (c.getTransactionPrefixHash tx) mixRing with
    | none => false
    | some tx' =>
      let rv := tx'.rctSignatures
      let nSigs := if isRctClsag rv.type then rv.p.clsags.length else rv.p.mgs.length
      decide (rv.mixRing = mixRing) && nSigs == nRing tx' &&
        (List.range nSigs).all (keyImageMatches tx') && verRctNonSemanticsSimple c rv

/-! ### The cache of verified signatures -/

/-- The domain string `txhash_and_mixring`. -/
def hashKeyTxhashAndMixring : Bytes :=
  asciiBytes ['t', 'x', 'h', 'a', 's', 'h', '_', 'a', 'n', 'd', '_', 'm', 'i', 'x', 'r', 'i',
    'n', 'g']

/-- The serialized rings. -/
def mixRingBytes (mixRing : List (List CtKey)) : Bytes :=
  writeVarint 9 mixRing.length ++ mixRing.flatMap fun row =>
    writeVarint 9 row.length ++ row.flatMap fun k => k.dest.bytes ++ k.mask.bytes

/-- `calc_tx_mixring_hash`. -/
def calcTxMixringHash (tx : Transaction) (mixRing : List (List CtKey)) : Hash :=
  c.cnFastHash (hashKeyTxhashAndMixring ++ (c.getTransactionHash tx).bytes ++ mixRingBytes mixRing)

/-- `rct_ver_cache_t`: the hashes of pairs of a transaction and its rings that have been verified.
The pairs are kept instead of their hashes, and they are only ever entered after they have been
verified. -/
structure RctVerCache where
  entries : List (Transaction × List (List CtKey))
  verified : ∀ e ∈ entries, expandTxAndVerRctNonSem c e.1 e.2 = true

namespace RctVerCache

variable {c}

/-- The cache of a node that has just started. -/
def empty : RctVerCache c := ⟨[], fun _ h => nomatch h⟩

/-- `cache.has(hash)`. -/
def has (cache : RctVerCache c) (h : Hash) : Bool :=
  cache.entries.any fun e => decide (calcTxMixringHash c e.1 e.2 = h)

/-- `cache.add(hash)`. -/
def add (cache : RctVerCache c) (tx : Transaction) (mixRing : List (List CtKey))
    (h : expandTxAndVerRctNonSem c tx mixRing = true) : RctVerCache c :=
  ⟨(tx, mixRing) :: cache.entries, List.forall_mem_cons.mpr ⟨h, cache.verified⟩⟩

end RctVerCache

/-- `ver_rct_non_semantics_simple_cached`, with signatures of type `RCTTypeBulletproofPlus` cached:
returns the cache afterwards, or `none` if the signature is refused. -/
def verRctNonSemanticsSimpleCached (cache : RctVerCache c) (tx : Transaction)
    (mixRing : List (List CtKey)) : Option (RctVerCache c) :=
  if 2 < tx.version ∨ rctTypeBulletproofPlus < tx.rctSignatures.type then none
  else if tx.rctSignatures.type ≠ rctTypeBulletproofPlus then
    if expandTxAndVerRctNonSem c tx mixRing then some cache else none
  else if cache.has (calcTxMixringHash c tx mixRing) then some cache
  else if h : expandTxAndVerRctNonSem c tx mixRing = true then some (cache.add tx mixRing h)
  else none

end Hidering
