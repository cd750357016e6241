import Hidering.Wallet.Types

/-!
# One-time keys and subaddresses

How an account recognises an output that is meant for it, and how it gets at the secret of the
output: the derivation that sender and recipient share, the table of subaddress spend keys, the key
image helpers, and the post-quantum keys of a subaddress. As in `Crypto`, the primitives are
parameters and nothing is said about what they compute; `StealthCrypto.Lawful` collects the group
laws for the results that need them.

The hardware-device layer is that of a software wallet.

## Main definitions

* `Hidering.StealthCrypto`, `Hidering.StealthCrypto.Lawful`
* `Hidering.isOutToAccPrecomp` — which subaddress an output belongs to
* `Hidering.generateKeyImageHelperPrecomp`, `generateKeyImageHelper`
* `Hidering.deriveBqOutputTweak`, `generatePqSubaddressKeys`, `getPqAuthCommit`
-/

namespace Hidering

open Wire

/-- `crypto::key_derivation`. -/
abbrev KeyDerivation := Blob 32
/-- `crypto::view_tag`. -/
abbrev ViewTag := UInt8
/-- `bq_sel_tag`. -/
abbrev BqSelTag := Blob 8

/-- The primitives of a wallet, besides those of the node. -/
structure StealthCrypto extends Crypto where
  /-- `sc_check`: the bytes are a reduced scalar -/
  scCheck : SecretKey → Bool
  /-- `scalarmultBase(a) = aG` -/
  scalarmultBase : SecretKey → PublicKey
  /-- `subKeys`, point subtraction -/
  subKeys : Key → Key → Key
  /-- `sc_add` -/
  scAdd : SecretKey → SecretKey → SecretKey
  /-- the point `8aP` -/
  sharedPoint : PublicKey → SecretKey → KeyDerivation
  /-- `derivation_to_scalar` -/
  derivationToScalar : KeyDerivation → ℕ → SecretKey
  /-- `derive_view_tag` -/
  deriveViewTag : KeyDerivation → ℕ → ViewTag
  /-- `get_subaddress_secret_key` -/
  getSubaddressSecretKey : SecretKey → SubaddressIndex → SecretKey
  /-- `generate_key_image` -/
  generateKeyImage : PublicKey → SecretKey → KeyImage
  /-- the scalar that `derive_bq_output_tweak` hashes to -/
  bqTweakScalar : KyberSharedSecret → ℕ → SecretKey
  /-- `pqc_stealth_encaps` to a key, with the random coins it draws -/
  pqcStealthEncaps : Blob mlKem768PublicKeyBytes → Blob 32 →
    Option (KyberCiphertext × KyberSharedSecret)
  /-- `pqc_stealth_decaps` -/
  pqcStealthDecaps : PqStealthKeys → KyberCiphertext → Option KyberSharedSecret
  /-- `pqc_kem_keygen_subaddress` -/
  pqcKemKeygenSubaddress : SecretKey → SubaddressIndex → Option PqStealthKeys
  /-- `pqc_dsa_keygen_subaddress` -/
  pqcDsaKeygenSubaddress : SecretKey → SubaddressIndex → Option PqDilithiumKeys
  /-- `pqc_sel_pad` -/
  pqcSelPad : KeyDerivation → ℕ → BqSelTag
  /-- `pqc_kem_pk_fingerprint` -/
  pqcKemPkFingerprint : Blob mlKem768PublicKeyBytes → BqSelTag
  /-- `pqc_compute_auth_blind` -/
  pqcComputeAuthBlind : KyberSharedSecret → ℕ → Hash
  /-- `pqc_tx_sign` of a message with an ML-DSA-65 pair, and the random coins it draws -/
  pqcTxSign : Hash → PqDilithiumKeys → Blob 32 → Option (Blob mlDsa65SignatureBytes)
  /-- `generate_signature` of a message with a key pair, and the random coins it draws -/
  generateSignature : Hash → PublicKey → SecretKey → Blob 32 → Signature

/-- The laws of the group, for the results that need them: points are closed under the operations,
`addKeys` and `subKeys` are inverse to each other, a sum of scalars is the sum of points, and both
ends of a key exchange come to the same point. -/
structure StealthCrypto.Lawful (c : StealthCrypto) : Prop where
  checkKey_base : ∀ a, c.checkKey (c.scalarmultBase a) = true
  checkKey_mul : ∀ {p} a, c.checkKey p = true → c.checkKey (c.scalarmultKey p a) = true
  checkKey_add : ∀ {p q}, c.checkKey p = true → c.checkKey q = true →
    c.checkKey (c.addKeys p q) = true
  checkKey_sub : ∀ {p q}, c.checkKey p = true → c.checkKey q = true →
    c.checkKey (c.subKeys p q) = true
  add_comm : ∀ p q, c.addKeys p q = c.addKeys q p
  add_assoc : ∀ p q r, c.addKeys (c.addKeys p q) r = c.addKeys p (c.addKeys q r)
  sub_add : ∀ {p q}, c.checkKey p = true → c.checkKey q = true → c.addKeys (c.subKeys p q) q = p
  add_sub : ∀ {p q}, c.checkKey p = true → c.checkKey q = true → c.subKeys (c.addKeys p q) q = p
  scCheck_add : ∀ a b, c.scCheck (c.scAdd a b) = true
  base_add : ∀ a b, c.scalarmultBase (c.scAdd a b) =
    c.addKeys (c.scalarmultBase a) (c.scalarmultBase b)
  shared_base : ∀ a r, c.sharedPoint (c.scalarmultBase r) a = c.sharedPoint (c.scalarmultBase a) r
  shared_mul : ∀ {p} a r, c.checkKey p = true →
    c.sharedPoint (c.scalarmultKey p r) a = c.sharedPoint (c.scalarmultKey p a) r

/-! ### Derivations -/

section Derivation

variable (c : StealthCrypto)

/-- `secret_key_to_public_key`. -/
def secretKeyToPublicKey (sec : SecretKey) : Option PublicKey :=
  if c.scCheck sec then some (c.scalarmultBase sec) else none

/-- `generate_key_derivation`, which fails on bytes that are no point. -/
def generateKeyDerivation (pub : PublicKey) (sec : SecretKey) : Option KeyDerivation :=
  if c.checkKey pub then some (c.sharedPoint pub sec) else none

/-- The derivation of a key, or the neutral element if there is none. -/
def keyDerivationOrIdentity (pub : PublicKey) (sec : SecretKey) : KeyDerivation :=
  (generateKeyDerivation c pub sec).getD Crypto.identity

/-- `derive_public_key`. -/
def derivePublicKey (d : KeyDerivation) (outputIndex : ℕ) (base : PublicKey) : Option PublicKey :=
  if c.checkKey base then
    some (c.addKeys base (c.scalarmultBase (c.derivationToScalar d outputIndex)))
  else none

/-- `derive_secret_key`. -/
def deriveSecretKey (d : KeyDerivation) (outputIndex : ℕ) (base : SecretKey) : SecretKey :=
  c.scAdd base (c.derivationToScalar d outputIndex)

/-- `derive_subaddress_public_key`. -/
def deriveSubaddressPublicKey (outKey : PublicKey) (d : KeyDerivation) (outputIndex : ℕ) :
    Option PublicKey :=
  if c.checkKey outKey then
    some (c.subKeys outKey (c.scalarmultBase (c.derivationToScalar d outputIndex)))
  else none

/-- `get_subaddress_spend_public_key`. -/
def getSubaddressSpendPublicKey (keys : AccountKeys) (index : SubaddressIndex) : PublicKey :=
  if index.isZero then keys.accountAddress.spendPublicKey
  else c.addKeys keys.accountAddress.spendPublicKey
    (c.scalarmultBase (c.getSubaddressSecretKey keys.viewSecretKey index))

end Derivation

/-! ### Recognising an output -/

/-- `m_subaddresses`: the indices of the spend keys of the wallet. -/
abbrev SubaddressTable := List (PublicKey × SubaddressIndex)

/-- `find`. -/
def SubaddressTable.find (t : SubaddressTable) (key : PublicKey) : Option SubaddressIndex :=
  List.lookup key t

/-- `subaddress_receive_info`. -/
structure SubaddressReceiveInfo where
  index : SubaddressIndex
  derivation : KeyDerivation
deriving DecidableEq

/-- `get_output_view_tag`. -/
def getOutputViewTag (out : TxOut) : Option ViewTag :=
  match out.target with
  | .toTaggedKey t => some t.viewTag
  | _ => none

section Recognise

variable (c : StealthCrypto) (subaddresses : SubaddressTable)

/-- `out_can_be_to_acc`. -/
def outCanBeToAcc (viewTag : Option ViewTag) (d : KeyDerivation) (outputIndex : ℕ) : Bool :=
  viewTag.all fun t => c.deriveViewTag d outputIndex == t

/-- What one derivation makes of an output. -/
inductive Lookup where
  /-- the output key is no point -/
  | failed
  /-- the view tag or the table rules the derivation out -/
  | missed
  | found (info : SubaddressReceiveInfo)
deriving DecidableEq

/-- Try one derivation. -/
def lookupDerivation (outKey : PublicKey) (d : KeyDerivation) (outputIndex : ℕ)
    (viewTag : Option ViewTag) : Lookup :=
  if outCanBeToAcc c viewTag d outputIndex then
    match deriveSubaddressPublicKey c outKey d outputIndex with
    | none => .failed
    | some spend =>
      match subaddresses.find spend with
      | some index => .found ⟨index, d⟩
      | none => .missed
  else .missed

/-- `is_out_to_acc_precomp`: the derivation of the transaction key, then the one of the output's
additional key. -/
def isOutToAccPrecomp (outKey : PublicKey) (d : KeyDerivation)
    (additionalDerivations : List KeyDerivation) (outputIndex : ℕ) (viewTag : Option ViewTag) :
    Option SubaddressReceiveInfo :=
  match lookupDerivation c subaddresses outKey d outputIndex viewTag with
  | .failed => none
  | .found info => some info
  | .missed =>
    match additionalDerivations[outputIndex]? with
    | none => none
    | some d' =>
      match lookupDerivation c subaddresses outKey d' outputIndex viewTag with
      | .found info => some info
      | _ => none

variable {c subaddresses} {outKey : PublicKey} {d : KeyDerivation} {ds : List KeyDerivation}
  {outputIndex : ℕ} {viewTag : Option ViewTag} {info : SubaddressReceiveInfo}

/-- The spend key of the subaddress that an output belongs to under a derivation. -/
def spendKeyUnder (c : StealthCrypto) (outKey : PublicKey) (d : KeyDerivation)
    (outputIndex : ℕ) : PublicKey :=
  c.subKeys outKey (c.scalarmultBase (c.derivationToScalar d outputIndex))

theorem lookupDerivation_eq_found :
    lookupDerivation c subaddresses outKey d outputIndex viewTag = .found info ↔
      outCanBeToAcc c viewTag d outputIndex = true ∧ c.checkKey outKey = true ∧
        subaddresses.find (spendKeyUnder c outKey d outputIndex) = some info.index ∧
        info.derivation = d := by
  rw [lookupDerivation, deriveSubaddressPublicKey, spendKeyUnder]
  cases outCanBeToAcc c viewTag d outputIndex with
  | false => simp
  | true =>
    cases c.checkKey outKey with
    | false => simp
    | true =>
      simp only [if_true]
      cases subaddresses.find _ with
      | none => simp
      | some index =>
        obtain ⟨index', d'⟩ := info
        simp [eq_comm]

/-- What a derivation finds, as far as the view tag lets it. -/
def findUnder (c : StealthCrypto) (subaddresses : SubaddressTable) (outKey : PublicKey)
    (outputIndex : ℕ) (viewTag : Option ViewTag) (d : KeyDerivation) :
    Option SubaddressReceiveInfo :=
  if outCanBeToAcc c viewTag d outputIndex then
    (subaddresses.find (spendKeyUnder c outKey d outputIndex)).map fun index => ⟨index, d⟩
  else none

theorem findUnder_eq_some :
    findUnder c subaddresses outKey outputIndex viewTag d = some info ↔
      outCanBeToAcc c viewTag d outputIndex = true ∧
        subaddresses.find (spendKeyUnder c outKey d outputIndex) = some info.index ∧
        d = info.derivation := by
  obtain ⟨index, d'⟩ := info
  simp [findUnder]

theorem findUnder_none_tag :
    findUnder c subaddresses outKey outputIndex none d =
      (subaddresses.find (spendKeyUnder c outKey d outputIndex)).map fun index => ⟨index, d⟩ :=
  if_pos rfl

theorem lookupDerivation_eq (hkey : c.checkKey outKey = true) :
    lookupDerivation c subaddresses outKey d outputIndex viewTag =
      (findUnder c subaddresses outKey outputIndex viewTag d).elim .missed .found := by
  rw [lookupDerivation, findUnder, deriveSubaddressPublicKey, if_pos hkey, spendKeyUnder]
  cases outCanBeToAcc c viewTag d outputIndex with
  | false => rfl
  | true =>
    dsimp only [if_true]
    cases subaddresses.find _ <;> rfl

/-- **Recognising an output.** The derivation of the transaction key comes first, then the one of
the output's additional key. -/
theorem isOutToAccPrecomp_eq (hkey : c.checkKey outKey = true) :
    isOutToAccPrecomp c subaddresses outKey d ds outputIndex viewTag =
      (findUnder c subaddresses outKey outputIndex viewTag d).or
        (ds[outputIndex]?.bind (findUnder c subaddresses outKey outputIndex viewTag)) := by
  rw [isOutToAccPrecomp, lookupDerivation_eq hkey]
  cases findUnder c subaddresses outKey outputIndex viewTag d with
  | some info => rfl
  | none =>
    cases ds[outputIndex]? with
    | none => rfl
    | some d' =>
      simp only [Option.elim_none, Option.none_or, Option.bind_some, lookupDerivation_eq hkey]
      cases findUnder c subaddresses outKey outputIndex viewTag d' <;> rfl

/-- Only a point is recognised. -/
theorem checkKey_of_isOutToAccPrecomp
    (h : isOutToAccPrecomp c subaddresses outKey d ds outputIndex viewTag = some info) :
    c.checkKey outKey = true := by
  rw [isOutToAccPrecomp] at h
  split at h
  case h_1 => cases h
  case h_2 info' hfound => exact (lookupDerivation_eq_found.mp hfound).2.1
  case h_3 =>
    split at h
    case h_1 => cases h
    case h_2 d' hd' =>
      split at h
      case h_1 info' hfound => exact (lookupDerivation_eq_found.mp hfound).2.1
      case h_2 => cases h

end Recognise

/-- The table has the spend keys of the account, and no others. -/
def SubaddressTable.IsOf (t : SubaddressTable) (c : StealthCrypto) (keys : AccountKeys) : Prop :=
  ∀ key index, t.find key = some index → key = getSubaddressSpendPublicKey c keys index

/-! ### Key images -/

/-- `keypair`. -/
structure Keypair where
  pub : PublicKey
  sec : SecretKey
deriving DecidableEq

section KeyImage

variable (c : StealthCrypto) (ack : AccountKeys)

/-- The spend key that is used: the account's, or the sum of its multisig keys. -/
def effectiveSpendKey : SecretKey :=
  if ack.multisigKeys = [] then ack.spendSecretKey
  else ack.multisigKeys.foldl (fun acc k => c.scAdd k acc) nullSkey

/-- The one-time secret of an output to a subaddress. -/
def oneTimeSecret (d : KeyDerivation) (outputIndex : ℕ) (index : SubaddressIndex) : SecretKey :=
  let step1 := deriveSecretKey c d outputIndex (effectiveSpendKey c ack)
  if index.isZero then step1
  else c.scAdd step1 (c.getSubaddressSecretKey ack.viewSecretKey index)

/-- The public key that belongs to it. A multisig account only has a part of the secret and takes
the way over the public keys. -/
def oneTimePublic (d : KeyDerivation) (outputIndex : ℕ) (index : SubaddressIndex) :
    Option PublicKey :=
  if ack.multisigKeys = [] then secretKeyToPublicKey c (oneTimeSecret c ack d outputIndex index)
  else
    (derivePublicKey c d outputIndex ack.accountAddress.spendPublicKey).bind fun pub =>
      if index.isZero then some pub
      else (secretKeyToPublicKey c (c.getSubaddressSecretKey ack.viewSecretKey index)).map
        fun sub => c.addKeys pub sub

/-- `generate_key_image_helper_precomp`: the one-time key pair and the key image of an output, if
the pair has the key of the output. -/
def generateKeyImageHelperPrecomp (outKey : PublicKey) (d : KeyDerivation) (outputIndex : ℕ)
    (index : SubaddressIndex) : Option (Keypair × KeyImage) :=
  if ack.spendSecretKey = nullSkey then
    some (⟨outKey, nullSkey⟩, c.generateKeyImage outKey nullSkey)
  else
    let sec := oneTimeSecret c ack d outputIndex index
    (oneTimePublic c ack d outputIndex index).bind fun pub =>
      if pub = outKey then some (⟨pub, sec⟩, c.generateKeyImage pub sec) else none

/-- `generate_key_image_helper`. An additional key without a derivation is left out, so the later
ones move up. -/
def generateKeyImageHelper (subaddresses : SubaddressTable) (outKey txPublicKey : PublicKey)
    (additionalTxPublicKeys : List PublicKey) (realOutputIndex : ℕ) :
    Option (Keypair × KeyImage) :=
  let d := keyDerivationOrIdentity c txPublicKey ack.viewSecretKey
  let ds := additionalTxPublicKeys.filterMap fun pk => generateKeyDerivation c pk ack.viewSecretKey
  (isOutToAccPrecomp c subaddresses outKey d ds realOutputIndex none).bind fun info =>
    generateKeyImageHelperPrecomp c ack outKey info.derivation realOutputIndex info.index

end KeyImage

/-! ### Post-quantum keys of a subaddress -/

section Pq

variable (c : StealthCrypto) (keys : AccountKeys)

/-- `derive_bq_output_tweak`, which refuses the scalar zero. -/
def deriveBqOutputTweak (ss : KyberSharedSecret) (outputIndex : ℕ) : Option SecretKey :=
  if c.bqTweakScalar ss outputIndex = nullSkey then none else some (c.bqTweakScalar ss outputIndex)

/-- `generate_pq_subaddress_keys`. -/
def generatePqSubaddressKeys (index : SubaddressIndex) : Option PqStealthKeys :=
  keys.pqKeys.bind fun own =>
    if index.isZero then some own
    else keys.pqRoot.bind fun root => c.pqcKemKeygenSubaddress root index

/-- `generate_pq_identity_keys`. -/
def generatePqIdentityKeys (index : SubaddressIndex) : Option PqDilithiumKeys :=
  keys.pqDilithium.bind fun own =>
    if index.isZero then some own
    else keys.pqRoot.bind fun root => c.pqcDsaKeygenSubaddress root index

/-- `get_pq_auth_commit`. -/
def getPqAuthCommit (index : SubaddressIndex) : Option Hash :=
  (generatePqIdentityKeys c keys index).map fun id =>
    c.pqcComputeAuthCommit cryptonotePqAddressAuthVer id.dilithiumPk

end Pq

/-! ### A transparent instance

Scalars and points are strings of bytes, added with exclusive or and multiplied bit by bit; the
points are those whose first byte is below 128. A shared secret lies open in its ciphertext. -/

namespace StealthCrypto

open Cipher

/-- The string without the first bit. -/
def clearTop (k : Key) : Key := zipBlob (· &&& ·) k ⟨0x7f :: List.replicate 31 0xff, rfl⟩

/-- The string is a point. -/
def isPoint (k : Key) : Bool := clearTop k == k

/-- The transparent instance. -/
def transparent : StealthCrypto where
  toCrypto := { Crypto.transparent with
    checkKey := isPoint
    addKeys := zipBlob (· ^^^ ·)
    g := default
    scalarmultKey := zipBlob (· &&& ·) }
  scCheck _ := true
  scalarmultBase := clearTop
  subKeys := zipBlob (· ^^^ ·)
  scAdd := zipBlob (· ^^^ ·)
  sharedPoint := zipBlob (· &&& ·)
  derivationToScalar d _ := d
  deriveViewTag d _ := d.bytes.headD 0
  getSubaddressSecretKey _ index :=
    Blob.ofList 32 [0, UInt8.ofNat index.major.toNat, UInt8.ofNat index.minor.toNat]
  generateKeyImage pub _ := Crypto.flipBits pub
  bqTweakScalar ss _ := ss
  pqcStealthEncaps _ coins := some (Blob.ofList _ coins.bytes, coins)
  pqcStealthDecaps _ ct := some (Blob.ofList _ ct.bytes)
  pqcKemKeygenSubaddress root index :=
    some ⟨Blob.ofList _ [UInt8.ofNat index.minor.toNat], Blob.ofList _ root.bytes⟩
  pqcDsaKeygenSubaddress root index :=
    some ⟨Blob.ofList _ [UInt8.ofNat index.minor.toNat], Blob.ofList _ root.bytes⟩
  pqcSelPad d _ := Blob.ofList 8 d.bytes
  pqcKemPkFingerprint pk := Blob.ofList 8 pk.bytes
  pqcComputeAuthBlind ss _ := ss
  pqcTxSign _ _ _ := some default
  generateSignature _ _ _ _ := default

theorem xor_and (x y z : UInt8) : (x ^^^ y) &&& z = (x &&& z) ^^^ (y &&& z) := by
  rw [← UInt8.toBitVec_inj]
  ext i hi
  simp [Bool.and_xor_distrib_right]

theorem zipWith_xor_and (k l r : Bytes) :
    List.zipWith (· &&& ·) (List.zipWith (· ^^^ ·) k l) r =
      List.zipWith (· ^^^ ·) (List.zipWith (· &&& ·) k r) (List.zipWith (· &&& ·) l r) := by
  induction k generalizing l r with
  | nil => simp
  | cons x k ih =>
    cases l with
    | nil => simp
    | cons y l =>
      cases r with
      | nil => simp
      | cons z r => simp [ih, xor_and]

theorem clearTop_xor (a b : Key) :
    clearTop (zipBlob (· ^^^ ·) a b) = zipBlob (· ^^^ ·) (clearTop a) (clearTop b) :=
  Blob.ext_bytes (zipWith_xor_and ..)

theorem clearTop_and (a b : Key) :
    clearTop (zipBlob (· &&& ·) a b) = zipBlob (· &&& ·) (clearTop a) b := by
  rw [clearTop, clearTop, zipBlob_assoc UInt8.and_assoc, zipBlob_comm UInt8.and_comm b,
    zipBlob_assoc UInt8.and_assoc]

theorem clearTop_clearTop (a : Key) : clearTop (clearTop a) = clearTop a := by
  rw [clearTop, clearTop, zipBlob_assoc UInt8.and_assoc]
  rfl

theorem isPoint_iff {k : Key} : isPoint k = true ↔ clearTop k = k := beq_iff_eq

theorem xor_xor_cancel (x y : UInt8) : x ^^^ y ^^^ y = x := by
  rw [UInt8.xor_assoc, UInt8.xor_self, UInt8.xor_zero]

theorem transparent_lawful : transparent.Lawful where
  checkKey_base a := isPoint_iff.mpr (clearTop_clearTop a)
  checkKey_mul a hp := by
    refine isPoint_iff.mpr ?_
    change clearTop (zipBlob _ _ a) = _
    rw [clearTop_and, isPoint_iff.mp hp]
    rfl
  checkKey_add hp hq := by
    refine isPoint_iff.mpr ?_
    change clearTop (zipBlob _ _ _) = _
    rw [clearTop_xor, isPoint_iff.mp hp, isPoint_iff.mp hq]
    rfl
  checkKey_sub hp hq := by
    refine isPoint_iff.mpr ?_
    change clearTop (zipBlob _ _ _) = _
    rw [clearTop_xor, isPoint_iff.mp hp, isPoint_iff.mp hq]
    rfl
  add_comm := zipBlob_comm UInt8.xor_comm
  add_assoc := zipBlob_assoc UInt8.xor_assoc
  sub_add _ _ := zipBlob_cancel xor_xor_cancel _ _
  add_sub _ _ := zipBlob_cancel xor_xor_cancel _ _
  scCheck_add _ _ := rfl
  base_add := clearTop_xor
  shared_base a r := by
    change zipBlob _ (clearTop r) a = zipBlob _ (clearTop a) r
    rw [← clearTop_and, ← clearTop_and, zipBlob_comm UInt8.and_comm]
  shared_mul a r _ := by
    change zipBlob _ (zipBlob _ _ r) a = zipBlob _ (zipBlob _ _ a) r
    rw [zipBlob_assoc UInt8.and_assoc, zipBlob_comm UInt8.and_comm r, zipBlob_assoc UInt8.and_assoc]

end StealthCrypto

end Hidering
