import Hidering.Basic.TransactionCodec

/-!
# Cryptographic primitives

The primitives of `crypto/`, `ringct/rctOps` and the verification equations of `ringct/rctSigs`
are parameters, collected in the structure `Crypto`; nothing in the structure says what they
compute. A result that needs a property of a primitive (that commitments are binding, that a proof
system is sound) takes it as a hypothesis.

What the program builds out of them is defined here as the program builds it: commitments, the
synthetic key image of a post-quantum input, the authorisation commitment and the binding tag.

## Main definitions

* `Hidering.Crypto`
* `Hidering.Crypto.commit`, `zeroCommit`, `getPqInputKeyImage`, `pqcComputeBindTagV2`
-/

namespace Hidering

open Wire

/-- The cryptographic primitives that the program calls. -/
structure Crypto where
  /-- `cn_fast_hash`, the Keccak hash -/
  cnFastHash : Bytes → Hash
  /-- `get_transaction_hash` -/
  getTransactionHash : Transaction → Hash
  /-- `get_transaction_prunable_hash` of a transaction and its blob -/
  getTransactionPrunableHash : Transaction → Bytes → Hash
  /-- `get_block_hash` -/
  getBlockHash : Block → Hash
  /-- `check_key`: the bytes are a point of the curve -/
  checkKey : PublicKey → Bool
  /-- `check_signature` -/
  checkSignature : Hash → PublicKey → Signature → Bool
  /-- `check_ring_signature`, version-1 ring signatures -/
  checkRingSignature : Hash → KeyImage → List PublicKey → List Signature → Bool
  /-- `pqc_tx_verify`, ML-DSA-65 verification of a message under the key the signature carries -/
  pqcTxVerify : Hash → PqTxSig → Bool
  /-- `addKeys`, point addition -/
  addKeys : Key → Key → Key
  /-- `addKeys2(aG, a, b, B) = aG + bB` -/
  addKeys2 : Key → Key → Key → Key
  /-- `scalarmultKey(P, a) = aP` -/
  scalarmultKey : Key → Key → Key
  /-- `scalarmultH(a) = aH` -/
  scalarmultH : Key → Key
  /-- the precomputed table `zero_commitments` -/
  zeroCommitments : Amount → Option Key
  /-- the base point `rct::G` -/
  g : Key
  /-- the second base point `rct::H` -/
  h : Key
  /-- the scalar `rct::INV_EIGHT` -/
  invEight : Key
  /-- the group order as a scalar, `rct::curveOrder()` -/
  curveOrder : Key
  /-- `get_pre_mlsag_hash`, the message a ring signature signs -/
  getPreMlsagHash : RctSig → Key
  /-- `verRctCLSAGSimple(message, sig, pubs, C_offset)` -/
  verRctCLSAGSimple : Key → Clsag → List CtKey → Key → Bool
  /-- `verRctMGSimple(message, mg, pubs, C)` -/
  verRctMGSimple : Key → MgSig → List CtKey → Key → Bool
  /-- `verRctMG(mg, pubs, outPk, txnFee, message)` -/
  verRctMG : MgSig → List (List CtKey) → List CtKey → Key → Key → Bool
  /-- `verBulletproofPlus` of a batch -/
  verBulletproofPlus : List BulletproofPlus → Bool
  /-- `verBulletproof` of a batch -/
  verBulletproof : List Bulletproof → Bool
  /-- `verRange` -/
  verRange : Key → RangeSig → Bool

namespace Crypto

variable (c : Crypto)

/-! ### Scalars and commitments -/

/-- `rct::identity()`: as a scalar the number 1, as a point the neutral element. -/
def identity : Key := ⟨1 :: List.replicate 31 0, rfl⟩

/-- `d2h`: an amount as a scalar, in little-endian bytes. -/
def d2h (amount : Amount) : Key :=
  ⟨((List.range 8).map fun i => UInt8.ofNat (amount.toNat / 256 ^ i)) ++ List.replicate 24 0, by
    simp⟩

/-- `commit(amount, mask) = mask * G + amount * H`. -/
def commit (amount : Amount) (mask : Key) : Key := c.addKeys2 mask (d2h amount) c.h

/-- `zeroCommit(amount)`: the commitment to `amount` with mask 1, from a table if it is there. -/
def zeroCommit (amount : Amount) : Key :=
  match c.zeroCommitments amount with
  | some k => k
  | none => c.addKeys c.g (c.scalarmultH (d2h amount))

/-! ### Hashes of the post-quantum spend path -/

/-- `get_transaction_prefix_hash`. -/
def getTransactionPrefixHash (p : TransactionPrefix) : Hash :=
  c.cnFastHash ((prefixFormat.write p).getD [])

/-- The bytes of an ASCII string. -/
def asciiBytes (s : List Char) : Bytes := s.map fun ch => UInt8.ofNat ch.toNat

/-- The domain string `HRG_PQ_KI_v1`. -/
def pqKiDomain : Bytes := asciiBytes ['H', 'R', 'G', '_', 'P', 'Q', '_', 'K', 'I', '_', 'v', '1']

/-- The domain string `HRG_BQ_ADDR_AUTH_v1`. -/
def bqAddrAuthDomain : Bytes :=
  asciiBytes ['H', 'R', 'G', '_', 'B', 'Q', '_', 'A', 'D', 'D', 'R', '_', 'A', 'U', 'T', 'H', '_',
    'v', '1']

/-- The domain string `HRG_PQ_BIND_v2`. -/
def pqBindDomain : Bytes :=
  asciiBytes ['H', 'R', 'G', '_', 'P', 'Q', '_', 'B', 'I', 'N', 'D', '_', 'v', '2']

/-- `get_pq_input_key_image`: the synthetic key image of the output with the given key. -/
def getPqInputKeyImage (realOutputKey : PublicKey) : KeyImage :=
  c.cnFastHash (pqKiDomain ++ realOutputKey.bytes)

/-- `pqc_compute_auth_commit`. -/
def pqcComputeAuthCommit (authType : UInt8) (pk : Blob mlDsa65PublicKeyBytes) : Hash :=
  c.cnFastHash (bqAddrAuthDomain ++ [authType] ++ pk.bytes)

/-- `pqc_compute_bind_tag_v2`. -/
def pqcComputeBindTagV2 (authType : UInt8) (realOutputKey : PublicKey)
    (authCommit authBlind : Hash) : Hash :=
  c.cnFastHash (pqBindDomain ++ [authType] ++ realOutputKey.bytes ++ authCommit.bytes ++
    authBlind.bytes)

/-! ### A transparent instance

The primitives with everything secret left out, for concrete runs: a point is a number modulo the
group order, `G` is the neutral element and `H` is 1, so that a commitment shows its amount; the key
image of a key has all its bits flipped; a hash is the end of what is hashed; signatures of one key
always verify, and ring signatures and range proofs check what they are meant to show. -/

/-- The number with the given little-endian bytes. -/
def leNat (l : Bytes) : ℕ := l.foldr (fun b n => b.toNat + 256 * n) 0

/-- The 32 low bytes of a number. -/
def natLe (n : ℕ) : Key := ⟨(List.range 32).map fun i => UInt8.ofNat (n / 256 ^ i), by simp⟩

/-- The order of the group. -/
def groupOrder : ℕ := 2 ^ 252 + 27742317777372353535851937790883648493

/-- The number that a point stands for; `identity` stands for 0. -/
def pointVal (k : Key) : ℕ := (leNat k.bytes + (groupOrder - 1)) % groupOrder

/-- The point that stands for a number. -/
def pointOf (n : ℕ) : Key := natLe (n % groupOrder + 1)

/-- The key of the first output. -/
def firstOutputKey (tx : Transaction) : Hash :=
  match tx.vout with
  | ⟨_, .toKey k⟩ :: _ => k
  | ⟨_, .toTaggedKey t⟩ :: _ => t.key
  | _ => default

/-- The key image of a key in the transparent instance. -/
def flipBits (k : Key) : KeyImage := ⟨k.bytes.map fun b => ~~~b, by simp [k.length_bytes]⟩

theorem flipBits_injective : Function.Injective flipBits := by
  intro k k' h
  have hbytes : k.bytes.map (fun b => ~~~b) = k'.bytes.map fun b => ~~~b := congrArg Blob.bytes h
  rw [Blob.mk.injEq]
  exact List.map_injective_iff.mpr (fun a b hab => UInt8.not_inj.mp hab) hbytes

/-- The transparent instance. -/
def transparent : Crypto where
  cnFastHash b := Blob.ofList 32 (b.drop (b.length - 32))
  getTransactionHash := firstOutputKey
  getTransactionPrunableHash _ _ := default
  getBlockHash b := firstOutputKey b.minerTx
  checkKey _ := true
  checkSignature _ _ _ := true
  checkRingSignature _ _ _ _ := true
  pqcTxVerify _ _ := true
  addKeys p q := pointOf (pointVal p + pointVal q)
  addKeys2 _ b p := pointOf (leNat b.bytes * pointVal p)
  scalarmultKey p a := pointOf (leNat a.bytes * pointVal p)
  scalarmultH a := pointOf (leNat a.bytes)
  zeroCommitments _ := none
  g := pointOf 0
  h := pointOf 1
  invEight := natLe ((3 * groupOrder + 1) / 8)
  curveOrder := natLe groupOrder
  getPreMlsagHash _ := default
  verRctCLSAGSimple _ sig pubs cOffset :=
    pubs.any fun p => decide (flipBits p.dest = sig.i ∧ p.mask = cOffset)
  verRctMGSimple _ _ pubs cOffset := pubs.any fun p => decide (p.mask = cOffset)
  verRctMG _ _ _ _ _ := false
  verBulletproofPlus ps := ps.all fun p => p.v.all fun v =>
    decide (8 * pointVal v % groupOrder < 2 ^ 64)
  verBulletproof ps := ps.all fun p => p.v.all fun v =>
    decide (8 * pointVal v % groupOrder < 2 ^ 64)
  verRange k _ := decide (pointVal k < 2 ^ 64)

end Crypto

end Hidering
