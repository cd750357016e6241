import Hidering.Basic.Crypto
import Hidering.Cipher.Stream

/-!
# The keys of an account

`account_keys` with its post-quantum components, and the ways in which the program masks them. The
secrets of an account are masked one after the other with one key stream: spend key, view key, the
multisig keys, then whichever of the ML-KEM decapsulation key, the ML-DSA key and the post-quantum
root the account has. Where a component lies in the stream therefore depends on the components that
the account has before it.

The device of an account is left out: the model is that of a software wallet.

## Main definitions

* `Hidering.AccountPublicAddress`, `Hidering.AccountKeys`, `Hidering.AccountBase`
* `Hidering.KeyCrypto` — the key stream, and the public key of a secret key
* `Hidering.AccountKeys.xorWithKeyStream`, `encrypt`, `decrypt`, `encryptViewkey`
* `Hidering.AccountBase.forgetSpendKey`
-/

namespace Hidering

open Wire Cipher

/-! ### Types -/

/-- `crypto::secret_key`. -/
abbrev SecretKey := Blob 32
/-- `crypto::chacha_key`. -/
abbrev ChachaKey := Blob 32
/-- `crypto::chacha_iv`. -/
abbrev ChachaIv := Blob 8
/-- `crypto::null_skey`. -/
def nullSkey : SecretKey := ⟨List.replicate 32 0, by simp⟩

/-- `ML_KEM_768_PUBLIC_KEY_BYTES`. -/
abbrev mlKem768PublicKeyBytes : ℕ := 1184
/-- `ML_KEM_768_SECRET_KEY_BYTES`. -/
abbrev mlKem768SecretKeyBytes : ℕ := 2400
/-- `ML_DSA_65_SECRET_KEY_BYTES`. -/
abbrev mlDsa65SecretKeyBytes : ℕ := 4032
/-- `CRYPTONOTE_PQ_ADDRESS_AUTH_VER`. -/
abbrev cryptonotePqAddressAuthVer : UInt8 := 1

/-- `crypto::pqc::pq_stealth_keys`, the ML-KEM-768 pair of an account. -/
structure PqStealthKeys where
  kyberPk : Blob mlKem768PublicKeyBytes
  kyberSk : Blob mlKem768SecretKeyBytes
deriving DecidableEq

/-- `crypto::pqc::pq_dilithium_keys`, the ML-DSA-65 pair of an account. -/
structure PqDilithiumKeys where
  dilithiumPk : Blob mlDsa65PublicKeyBytes
  dilithiumSk : Blob mlDsa65SecretKeyBytes
deriving DecidableEq

/-- `account_public_address`. -/
structure AccountPublicAddress where
  spendPublicKey : PublicKey
  viewPublicKey : PublicKey
  pqKyberPk : Option (Blob mlKem768PublicKeyBytes) := none
  pqAuthCommit : Option Hash := none
  pqAuthVer : UInt8 := 0
deriving DecidableEq

/-- `is_pq`. -/
def AccountPublicAddress.isPq (a : AccountPublicAddress) : Bool := a.pqKyberPk.isSome

/-- `account_keys`. -/
@[ext] structure AccountKeys where
  accountAddress : AccountPublicAddress
  spendSecretKey : SecretKey
  viewSecretKey : SecretKey
  multisigKeys : List SecretKey := []
  encryptionIv : ChachaIv
  pqKeys : Option PqStealthKeys := none
  pqDilithium : Option PqDilithiumKeys := none
  pqRoot : Option SecretKey := none
deriving DecidableEq

/-- `account_base`. -/
structure AccountBase where
  keys : AccountKeys
  creationTimestamp : UInt64
deriving DecidableEq

/-- The primitives that the account uses. -/
structure KeyCrypto where
  /-- `get_key_stream`: what ChaCha20 makes of zeros, under a key derived from the given one -/
  keyStream : ChachaKey → ChachaIv → KeyStream
  /-- `secret_key_to_public_key`, which fails on bytes that are no scalar -/
  secretKeyToPublicKey : SecretKey → Option PublicKey

/-! ### Masks -/

namespace AccountKeys

variable (kc : KeyCrypto)

/-- Where the ML-KEM key starts in the key stream. -/
def kyberAt (a : AccountKeys) : ℕ := 32 * (2 + a.multisigKeys.length)

/-- Where the ML-DSA key starts in the key stream. -/
def dilithiumAt (a : AccountKeys) : ℕ :=
  a.kyberAt + bif a.pqKeys.isSome then mlKem768SecretKeyBytes else 0

/-- Where the post-quantum root starts in the key stream. -/
def rootAt (a : AccountKeys) : ℕ :=
  a.dilithiumAt + bif a.pqDilithium.isSome then mlDsa65SecretKeyBytes else 0

/-- `xor_with_key_stream`. -/
def xorWithKeyStream (key : ChachaKey) (a : AccountKeys) : AccountKeys :=
  let ks := kc.keyStream key a.encryptionIv
  { a with
    spendSecretKey := maskBlob ks 0 a.spendSecretKey
    viewSecretKey := maskBlob ks 32 a.viewSecretKey
    multisigKeys := maskBlobs ks 64 a.multisigKeys
    pqKeys := a.pqKeys.map fun k => { k with kyberSk := maskBlob ks a.kyberAt k.kyberSk }
    pqDilithium := a.pqDilithium.map fun k =>
      { k with dilithiumSk := maskBlob ks a.dilithiumAt k.dilithiumSk }
    pqRoot := a.pqRoot.map (maskBlob ks a.rootAt) }

/-- `encrypt`, with the IV that it draws. -/
def encrypt (key : ChachaKey) (iv : ChachaIv) (a : AccountKeys) : AccountKeys :=
  xorWithKeyStream kc key { a with encryptionIv := iv }

/-- `decrypt`. -/
def decrypt (key : ChachaKey) (a : AccountKeys) : AccountKeys := xorWithKeyStream kc key a

/-- `encrypt_viewkey`. -/
def encryptViewkey (key : ChachaKey) (a : AccountKeys) : AccountKeys :=
  { a with viewSecretKey := maskBlob (kc.keyStream key a.encryptionIv) 32 a.viewSecretKey }

variable {kc}

end AccountKeys

/-! ### The spend key -/

namespace AccountBase

/-- `forget_spend_key`. -/
def forgetSpendKey (a : AccountBase) : AccountBase :=
  { a with keys := { a.keys with spendSecretKey := nullSkey, multisigKeys := [] } }

end AccountBase

end Hidering
