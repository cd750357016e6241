import Hidering.Wire.Format

/-!
# Transactions and blocks

The data types of `cryptonote_basic.h` and `rctTypes.h`: inputs and outputs, the RingCT signature
with its base and prunable parts, transactions, and blocks. Every fixed-size object (keys, key
images, hashes, signatures, the ML-DSA key and signature of a post-quantum input) is the string of
its bytes, so the casts between key types of the source are the identity here.

`rctSigBase` keeps the fields that are not serialized (`message`, `mixRing`, `pqTransparentIn`):
they are reconstructed by the verifier, and the checks read them from there.

## Main definitions

* `Hidering.Txin`, `Hidering.TxOut` — inputs (ring and post-quantum) and outputs
* `Hidering.RctSig` — the RingCT signature
* `Hidering.Transaction`, `Hidering.Block`
-/

namespace Hidering

open Wire

/-! ### Fixed-size objects -/

/-- `crypto::hash`. -/
abbrev Hash := Blob 32
/-- `crypto::public_key`. -/
abbrev PublicKey := Blob 32
/-- `crypto::key_image`. -/
abbrev KeyImage := Blob 32
/-- `rct::key`. -/
abbrev Key := Blob 32
/-- `crypto::signature`. -/
abbrev Signature := Blob 64
/-- `rct::xmr_amount`, an amount in atomic units. -/
abbrev Amount := UInt64

/-- `ML_DSA_65_PUBLIC_KEY_BYTES`. -/
abbrev mlDsa65PublicKeyBytes : ℕ := 1952
/-- `ML_DSA_65_SIGNATURE_BYTES`. -/
abbrev mlDsa65SignatureBytes : ℕ := 3309

/-- `crypto::pqc::pq_tx_sig`: an ML-DSA-65 verification key and a signature under it. -/
structure PqTxSig where
  pk : Blob mlDsa65PublicKeyBytes
  sig : Blob mlDsa65SignatureBytes
deriving DecidableEq, Inhabited

/-! ### Outputs -/

/-- `txout_to_script`. -/
structure TxoutToScript where
  keys : List PublicKey
  script : Bytes
deriving DecidableEq, Inhabited

/-- `txout_to_tagged_key`: outputs from the view-tag fork on. -/
structure TxoutToTaggedKey where
  key : PublicKey
  viewTag : UInt8
deriving DecidableEq, Inhabited

/-- `txout_target_v`. -/
inductive TxoutTarget where
  | toScript (t : TxoutToScript)
  | toScripthash (hash : Hash)
  | toKey (key : PublicKey)
  | toTaggedKey (t : TxoutToTaggedKey)
deriving DecidableEq, Inhabited

/-- `tx_out`. -/
structure TxOut where
  amount : Amount
  target : TxoutTarget
deriving DecidableEq, Inhabited

/-! ### Inputs -/

/-- `txin_to_script`. -/
structure TxinToScript where
  prev : Hash
  prevout : UInt64
  sigset : Bytes
deriving DecidableEq, Inhabited

/-- `txin_to_scripthash`. -/
structure TxinToScripthash where
  prev : Hash
  prevout : UInt64
  script : TxoutToScript
  sigset : Bytes
deriving DecidableEq, Inhabited

/-- `txin_to_key`: an input that hides the output it spends among the members of a ring. -/
structure TxinToKey where
  amount : Amount
  keyOffsets : List UInt64
  kImage : KeyImage
deriving DecidableEq, Inhabited

/-- `PQ_AUTH_TYPE_MLDSA65`. -/
abbrev pqAuthTypeMldsa65 : UInt8 := 1

/-- `txin_to_key_pq`: a transparent post-quantum input. It names the output it spends and opens its
commitment; it has no key image of its own. -/
structure TxinToKeyPq where
  amount : Amount
  /-- global index of the spent output in the bucket of amount 0 -/
  spentOutputIndex : UInt64
  realOutputKey : PublicKey
  /-- blinding factor of the spent output's commitment -/
  mask : Key
  /-- signature by the one-time key of the spent output -/
  ownerSig : Signature
  authType : UInt8
  authBlind : Hash
  auth : PqTxSig
deriving DecidableEq, Inhabited

/-- `txin_v`. -/
inductive Txin where
  | gen (height : UInt64)
  | toScript (i : TxinToScript)
  | toScripthash (i : TxinToScripthash)
  | toKey (i : TxinToKey)
  | toKeyPq (i : TxinToKeyPq)
deriving DecidableEq, Inhabited

namespace Txin

/-- The ring input an input is, if it is one. -/
def toKey? : Txin → Option TxinToKey
  | toKey i => some i
  | _ => none

/-- The post-quantum input an input is, if it is one. -/
def toKeyPq? : Txin → Option TxinToKeyPq
  | toKeyPq i => some i
  | _ => none

/-- `in.type() == typeid(txin_to_key_pq)`. -/
def isToKeyPq (i : Txin) : Bool := i.toKeyPq?.isSome

/-- `in.type() == typeid(txin_to_key)`. -/
def isToKey (i : Txin) : Bool := i.toKey?.isSome

@[simp] theorem isToKeyPq_toKeyPq (i : TxinToKeyPq) : (toKeyPq i).isToKeyPq = true := rfl
@[simp] theorem isToKeyPq_toKey (i : TxinToKey) : (toKey i).isToKeyPq = false := rfl
@[simp] theorem isToKey_toKey (i : TxinToKey) : (toKey i).isToKey = true := rfl
@[simp] theorem isToKey_toKeyPq (i : TxinToKeyPq) : (toKeyPq i).isToKey = false := rfl

end Txin

/-! ### RingCT signatures -/

/-- `ctkey`: a destination and a commitment. -/
structure CtKey where
  dest : Key
  mask : Key
deriving DecidableEq, Inhabited

/-- `ecdhTuple`. -/
structure EcdhTuple where
  mask : Key
  amount : Key
deriving DecidableEq, Inhabited

/-- `rangeSig`: a Borromean signature (two vectors of 64 keys and one key) and 64 commitments. -/
structure RangeSig where
  asig : Blob (64 * 32 + 64 * 32 + 32)
  ci : Blob (64 * 32)
deriving DecidableEq, Inhabited

/-- `mgSig`; `ii` is not serialized. -/
structure MgSig where
  ss : List (List Key)
  cc : Key
  ii : List Key
deriving DecidableEq, Inhabited

/-- `clsag`; the key image `i` is not serialized. -/
structure Clsag where
  s : List Key
  c1 : Key
  i : Key
  d : Key
deriving DecidableEq, Inhabited

/-- `Bulletproof`; the commitments `v` are not serialized. -/
structure Bulletproof where
  v : List Key
  a : Key
  s : Key
  t1 : Key
  t2 : Key
  taux : Key
  mu : Key
  l : List Key
  r : List Key
  aa : Key
  b : Key
  t : Key
deriving DecidableEq, Inhabited

/-- `BulletproofPlus`; the commitments `v` are not serialized. -/
structure BulletproofPlus where
  v : List Key
  a : Key
  a1 : Key
  b : Key
  r1 : Key
  s1 : Key
  d1 : Key
  l : List Key
  r : List Key
deriving DecidableEq, Inhabited

/-- `RCTTypeNull`. The type of a RingCT signature is a byte; unknown values can be held in memory
and are refused by the code that looks at them. -/
abbrev rctTypeNull : UInt8 := 0
/-- `RCTTypeFull`. -/
abbrev rctTypeFull : UInt8 := 1
/-- `RCTTypeSimple`. -/
abbrev rctTypeSimple : UInt8 := 2
/-- `RCTTypeBulletproof`. -/
abbrev rctTypeBulletproof : UInt8 := 3
/-- `RCTTypeBulletproof2`. -/
abbrev rctTypeBulletproof2 : UInt8 := 4
/-- `RCTTypeCLSAG`. -/
abbrev rctTypeClsag : UInt8 := 5
/-- `RCTTypeBulletproofPlus`. -/
abbrev rctTypeBulletproofPlus : UInt8 := 6

/-- `is_rct_simple`. -/
def isRctSimple (type : UInt8) : Bool :=
  type == rctTypeSimple || type == rctTypeBulletproof || type == rctTypeBulletproof2 ||
    type == rctTypeClsag || type == rctTypeBulletproofPlus

/-- `is_rct_bulletproof`. -/
def isRctBulletproof (type : UInt8) : Bool :=
  type == rctTypeBulletproof || type == rctTypeBulletproof2 || type == rctTypeClsag

/-- `is_rct_bulletproof_plus`. -/
def isRctBulletproofPlus (type : UInt8) : Bool := type == rctTypeBulletproofPlus

/-- `is_rct_borromean`. -/
def isRctBorromean (type : UInt8) : Bool := type == rctTypeSimple || type == rctTypeFull

/-- `is_rct_clsag`. -/
def isRctClsag (type : UInt8) : Bool := type == rctTypeClsag || type == rctTypeBulletproofPlus

/-- `rctSigBase`. -/
structure RctSigBase where
  type : UInt8 := rctTypeNull
  /-- not serialized: the message that is signed -/
  message : Key := default
  /-- not serialized: the rings, one row of public keys and commitments per ring input -/
  mixRing : List (List CtKey) := []
  pseudoOuts : List Key := []
  ecdhInfo : List EcdhTuple := []
  outPk : List CtKey := []
  txnFee : Amount := 0
  /-- not serialized: sum of the revealed amounts of the post-quantum inputs -/
  pqTransparentIn : Amount := 0
deriving DecidableEq, Inhabited

/-- `rctSigPrunable`. -/
structure RctSigPrunable where
  rangeSigs : List RangeSig := []
  bulletproofs : List Bulletproof := []
  bulletproofsPlus : List BulletproofPlus := []
  mgs : List MgSig := []
  clsags : List Clsag := []
  pseudoOuts : List Key := []
deriving DecidableEq, Inhabited

/-- `rctSig`. -/
structure RctSig extends RctSigBase where
  p : RctSigPrunable := {}
deriving DecidableEq, Inhabited

/-! ### Transactions and blocks -/

/-- `transaction_prefix`. -/
structure TransactionPrefix where
  version : UInt64 := 1
  unlockTime : UInt64 := 0
  vin : List Txin := []
  vout : List TxOut := []
  extra : Bytes := []
deriving DecidableEq, Inhabited

/-- `transaction`. The caches of its hash and size are not part of the model: they hold what is
recomputed from the other fields. -/
structure Transaction extends TransactionPrefix where
  signatures : List (List Signature) := []
  rctSignatures : RctSig := {}
  /-- the prunable part is absent and must not be looked at -/
  pruned : Bool := false
deriving DecidableEq, Inhabited

/-- `const transaction_prefix&` binds to a `transaction`. -/
instance : Coe Transaction TransactionPrefix := ⟨Transaction.toTransactionPrefix⟩

/-- `block_header`. -/
structure BlockHeader where
  majorVersion : UInt8
  minorVersion : UInt8
  timestamp : UInt64
  prevId : Hash
  nonce : UInt32
deriving DecidableEq, Inhabited

/-- `block`. -/
structure Block extends BlockHeader where
  minerTx : Transaction
  txHashes : List Hash
deriving DecidableEq, Inhabited

/-- `is_coinbase`. -/
def isCoinbase (tx : TransactionPrefix) : Bool :=
  match tx.vin with
  | [.gen _] => true
  | _ => false

/-- The number of inputs of a transaction that are not post-quantum; the RingCT parts of a
transaction cover these inputs only. -/
def nRing (tx : TransactionPrefix) : ℕ := (tx.vin.filter fun i => !i.isToKeyPq).length

end Hidering
