import Hidering.Account.Keys

/-!
# Key files

The account data of a key file: `get_keys_file_data` takes the lock off a copy of the account,
erases what the file shall not hold, masks the rest with the file key and stores it. A watch-only
file and the file of a background wallet are written without the spend key.

What is erased for them is the classic spend authority: the spend key and the multisig keys. The
ML-DSA key, which authorises post-quantum spends, and the post-quantum root, from which the keys of
all subaddresses are derived, are masked and stored like in a full file. So such a file depends on
them (`getKeysFileData_secretFree_iff`), and whoever opens it has them.

The JSON fields around the account data are settings of the wallet and are left out, as is the
second layer of encryption of the whole file, a function of these bytes, the key and a further IV.

## Main definitions

* `Hidering.KeyData`, `Hidering.AccountBase.store`
* `Hidering.getKeysFileData`
* `Hidering.AccountBase.AgreeButSpend` — accounts that differ in their spend secrets only

## Main results

* `Hidering.getKeysFileData_congr` — what a file without spend key depends on
* `Hidering.getKeysFileData_secretFree_iff` — when such a file is free of spend secrets
-/

namespace Hidering

open Wire Cipher Crypto

/-! ### Storing accounts -/

/-- The fields of an account that its serialization maps name. The post-quantum parts of the address
are not among them. A list of multisig keys without elements and an absent component have no field
of their own. -/
structure KeyData where
  spendPublicKey : PublicKey
  viewPublicKey : PublicKey
  spendSecretKey : SecretKey
  viewSecretKey : SecretKey
  multisigKeys : List SecretKey
  encryptionIv : ChachaIv
  pqKeys : Option PqStealthKeys
  pqDilithium : Option PqDilithiumKeys
  pqRoot : Option SecretKey
  creationTimestamp : UInt64
deriving DecidableEq

namespace AccountBase

/-- `store_t_to_binary` of an account. -/
def store (a : AccountBase) : KeyData where
  spendPublicKey := a.keys.accountAddress.spendPublicKey
  viewPublicKey := a.keys.accountAddress.viewPublicKey
  spendSecretKey := a.keys.spendSecretKey
  viewSecretKey := a.keys.viewSecretKey
  multisigKeys := a.keys.multisigKeys
  encryptionIv := a.keys.encryptionIv
  pqKeys := a.keys.pqKeys
  pqDilithium := a.keys.pqDilithium
  pqRoot := a.keys.pqRoot
  creationTimestamp := a.creationTimestamp

end AccountBase

/-! ### Key files -/

/-- `AskPasswordType`. -/
inductive AskPasswordType
  | never
  | onAction
  | toDecrypt
deriving DecidableEq

/-- The settings of a wallet that decide whether its keys are masked in memory. -/
structure KeySettings where
  askPassword : AskPasswordType
  unattended : Bool
  watchOnly : Bool
deriving DecidableEq

/-- The keys of the wallet are masked in memory while they are not in use. -/
def KeySettings.locksKeys (w : KeySettings) : Bool :=
  w.askPassword == .toDecrypt && !w.unattended && !w.watchOnly

variable (kc : KeyCrypto)

/-- Take the lock off the keys: the view key, which stays in the clear, is masked first, and then
everything is unmasked. -/
def AccountKeys.unlock (key : ChachaKey) (a : AccountKeys) : AccountKeys :=
  (a.encryptViewkey kc key).decrypt kc key

/-- The account data of `get_keys_file_data`, with the IV that it draws. -/
def getKeysFileData (w : KeySettings) (key : ChachaKey) (iv : ChachaIv)
    (watchOnly backgroundKeysFile : Bool) (account : AccountBase) : KeyData :=
  let account :=
    if w.locksKeys then { account with keys := account.keys.unlock kc key } else account
  let account := if watchOnly || backgroundKeysFile then account.forgetSpendKey else account
  AccountBase.store { account with keys := account.keys.encrypt kc key iv }

variable {kc}

/-! ### Two accounts -/

/-- The accounts have the same public keys, view key and ML-KEM key, and the same components. They
may differ in the spend key, the multisig keys, the secret part of the ML-DSA key and the root. -/
structure AccountBase.AgreeButSpend (a b : AccountBase) : Prop where
  address : a.keys.accountAddress = b.keys.accountAddress
  view : a.keys.viewSecretKey = b.keys.viewSecretKey
  multisig : a.keys.multisigKeys.length = b.keys.multisigKeys.length
  iv : a.keys.encryptionIv = b.keys.encryptionIv
  kyber : a.keys.pqKeys = b.keys.pqKeys
  dilithium : a.keys.pqDilithium.map PqDilithiumKeys.dilithiumPk =
    b.keys.pqDilithium.map PqDilithiumKeys.dilithiumPk
  root : a.keys.pqRoot.isSome = b.keys.pqRoot.isSome
  created : a.creationTimestamp = b.creationTimestamp

/-- The parts of an account that reach a file without spend key. -/
structure AccountBase.SameFileKeys (a b : AccountBase) : Prop where
  address : a.keys.accountAddress = b.keys.accountAddress
  view : a.keys.viewSecretKey = b.keys.viewSecretKey
  multisig : a.keys.multisigKeys.length = b.keys.multisigKeys.length
  iv : a.keys.encryptionIv = b.keys.encryptionIv
  kyber : a.keys.pqKeys = b.keys.pqKeys
  dilithium : a.keys.pqDilithium = b.keys.pqDilithium
  root : a.keys.pqRoot = b.keys.pqRoot
  created : a.creationTimestamp = b.creationTimestamp

theorem AccountBase.SameFileKeys.unlock {a b : AccountBase} (h : a.SameFileKeys b)
    (key : ChachaKey) :
    AccountBase.SameFileKeys { a with keys := a.keys.unlock kc key }
      { b with keys := b.keys.unlock kc key } := by
  constructor <;>
    simp [AccountKeys.unlock, AccountKeys.decrypt, AccountKeys.xorWithKeyStream,
      AccountKeys.encryptViewkey, AccountKeys.kyberAt, AccountKeys.dilithiumAt, AccountKeys.rootAt,
      h.address, h.view, h.multisig, h.iv, h.kyber, h.dilithium, h.root, h.created]

section File

variable (w : KeySettings) (key : ChachaKey) (iv : ChachaIv) {watchOnly background : Bool}
  (hmode : (watchOnly || background) = true)

include hmode

/-- A file without spend key depends on the remaining parts only. -/
theorem getKeysFileData_congr {a b : AccountBase} (h : a.SameFileKeys b) :
    getKeysFileData kc w key iv watchOnly background a =
      getKeysFileData kc w key iv watchOnly background b := by
  have hforget : ∀ {x y : AccountBase}, x.SameFileKeys y →
      AccountBase.store { x.forgetSpendKey with keys := x.forgetSpendKey.keys.encrypt kc key iv } =
      AccountBase.store
        { y.forgetSpendKey with keys := y.forgetSpendKey.keys.encrypt kc key iv } := by
    intro x y hxy
    simp [AccountBase.store, AccountBase.forgetSpendKey, AccountKeys.encrypt,
      AccountKeys.xorWithKeyStream, AccountKeys.kyberAt, AccountKeys.dilithiumAt,
      AccountKeys.rootAt, hxy.address, hxy.view, hxy.kyber, hxy.dilithium, hxy.root, hxy.created]
  rw [getKeysFileData, getKeysFileData, hmode]
  cases w.locksKeys with
  | false => exact hforget h
  | true => exact hforget (h.unlock key)

/-- The root reaches the file through an injective function that does not depend on it. -/
theorem getKeysFileData_pqRoot (a : AccountBase) :
    ∃ f : SecretKey → SecretKey, Function.Injective f ∧ ∀ r,
      (getKeysFileData kc w key iv watchOnly background
        { a with keys := { a.keys with pqRoot := some r } }).pqRoot = some (f r) := by
  let f := maskBlob (m := 32) (kc.keyStream key iv) a.forgetSpendKey.keys.rootAt
  cases hw : w.locksKeys with
  | false =>
    refine ⟨f, maskBlob_injective, fun r => ?_⟩
    rw [getKeysFileData, hw, hmode]
    rfl
  | true =>
    refine ⟨f ∘ maskBlob (kc.keyStream key a.keys.encryptionIv) a.keys.rootAt,
      maskBlob_injective.comp maskBlob_injective, fun r => ?_⟩
    rw [getKeysFileData, hw, hmode]
    simp [f, AccountBase.store, AccountBase.forgetSpendKey, AccountKeys.encrypt,
      AccountKeys.unlock, AccountKeys.decrypt, AccountKeys.encryptViewkey,
      AccountKeys.xorWithKeyStream, AccountKeys.kyberAt, AccountKeys.dilithiumAt,
      AccountKeys.rootAt]

/-- So does the secret part of the ML-DSA key. -/
theorem getKeysFileData_pqDilithium (a : AccountBase) (pk : Blob mlDsa65PublicKeyBytes) :
    ∃ f : Blob mlDsa65SecretKeyBytes → Blob mlDsa65SecretKeyBytes, Function.Injective f ∧ ∀ sk,
      (getKeysFileData kc w key iv watchOnly background
        { a with keys := { a.keys with pqDilithium := some ⟨pk, sk⟩ } }).pqDilithium =
          some ⟨pk, f sk⟩ := by
  let f := maskBlob (m := mlDsa65SecretKeyBytes) (kc.keyStream key iv)
    a.forgetSpendKey.keys.dilithiumAt
  cases hw : w.locksKeys with
  | false =>
    refine ⟨f, maskBlob_injective, fun sk => ?_⟩
    rw [getKeysFileData, hw, hmode]
    rfl
  | true =>
    refine ⟨f ∘ maskBlob (kc.keyStream key a.keys.encryptionIv) a.keys.dilithiumAt,
      maskBlob_injective.comp maskBlob_injective, fun sk => ?_⟩
    rw [getKeysFileData, hw, hmode]
    simp [f, AccountBase.store, AccountBase.forgetSpendKey, AccountKeys.encrypt,
      AccountKeys.unlock, AccountKeys.decrypt, AccountKeys.encryptViewkey,
      AccountKeys.xorWithKeyStream, AccountKeys.kyberAt, AccountKeys.dilithiumAt]

end File

/-- There is always another secret of the same length. -/
theorem exists_blob_ne {n : ℕ} (hn : 0 < n) (k : Blob n) : ∃ k' : Blob n, k' ≠ k := by
  have hne : maskBlob (fun _ => 1) 0 k ≠ k := by
    rw [Ne, maskBlob_eq_self_iff]
    obtain ⟨m, rfl⟩ := Nat.exists_eq_add_one.mpr hn
    simp [pad, maskBlob, List.replicate_succ, xorFrom]
  exact ⟨_, hne⟩

/-- **Which files are free of spend secrets.** The watch-only and the background file of an account
are the same for all accounts that differ from it in spend secrets only, if and only if the account
has neither an ML-DSA key nor a post-quantum root. -/
theorem getKeysFileData_secretFree_iff (kc : KeyCrypto) (w : KeySettings) (key : ChachaKey)
    (iv : ChachaIv) {watchOnly background : Bool} (hmode : (watchOnly || background) = true)
    (a : AccountBase) :
    (∀ b : AccountBase, a.AgreeButSpend b →
        getKeysFileData kc w key iv watchOnly background a =
          getKeysFileData kc w key iv watchOnly background b) ↔
      a.keys.pqDilithium = none ∧ a.keys.pqRoot = none := by
  constructor
  · intro hfree
    constructor
    · by_contra hne
      obtain ⟨⟨pk, sk⟩, hsome⟩ := Option.ne_none_iff_exists'.mp hne
      obtain ⟨f, hf, hfile⟩ := @getKeysFileData_pqDilithium kc w key iv _ _ hmode a pk
      obtain ⟨sk', hsk'⟩ := exists_blob_ne (by decide) sk
      have hdata := hfree { a with keys := { a.keys with pqDilithium := some ⟨pk, sk'⟩ } }
        ⟨rfl, rfl, rfl, rfl, rfl, by rw [hsome]; rfl, rfl, rfl⟩
      have ha : a = { a with keys := { a.keys with pqDilithium := some ⟨pk, sk⟩ } } := by
        rw [← hsome]
      have hfield := congrArg KeyData.pqDilithium hdata
      rw [hfile, ha, hfile] at hfield
      simp only [Option.some_inj, PqDilithiumKeys.mk.injEq, true_and] at hfield
      exact hsk' (hf hfield.symm)
    · by_contra hne
      obtain ⟨r, hsome⟩ := Option.ne_none_iff_exists'.mp hne
      obtain ⟨f, hf, hfile⟩ := @getKeysFileData_pqRoot kc w key iv _ _ hmode a
      obtain ⟨r', hr'⟩ := exists_blob_ne (by decide) r
      have hdata := hfree { a with keys := { a.keys with pqRoot := some r' } }
        ⟨rfl, rfl, rfl, rfl, rfl, rfl, by rw [hsome]; rfl, rfl⟩
      have ha : a = { a with keys := { a.keys with pqRoot := some r } } := by rw [← hsome]
      have hfield := congrArg KeyData.pqRoot hdata
      rw [hfile, ha, hfile] at hfield
      exact hr' (hf (Option.some.inj hfield).symm)
  · rintro ⟨hdilithium, hroot⟩ b hab
    refine getKeysFileData_congr w key iv hmode ⟨hab.address, hab.view, hab.multisig, hab.iv,
      hab.kyber, ?_, ?_, hab.created⟩
    · have hb := hab.dilithium
      rw [hdilithium, Option.map_none, eq_comm, Option.map_eq_none_iff] at hb
      rw [hdilithium, hb]
    · have hb := hab.root
      rw [hroot, Option.isSome_none, eq_comm, Option.isSome_eq_false_iff, Option.isNone_iff_eq_none]
        at hb
      rw [hroot, hb]

/-- A key stream of one byte, that of the IV, in which every secret key is its own public key. -/
def KeyCrypto.transparent : KeyCrypto where
  keyStream _ iv _ := iv.bytes.headD 0
  secretKeyToPublicKey := some

/-- An account in the transparent instance whose spend key is `k`, with the given root. -/
def rootAccount (k : SecretKey) (root : Option SecretKey) : AccountBase where
  keys :=
    { accountAddress := ⟨k, default, none, none, 0⟩
      spendSecretKey := k
      viewSecretKey := default
      encryptionIv := default
      pqRoot := root }
  creationTimestamp := 0

/-- The watch-only files of two accounts that differ in their roots are different. -/
theorem watchOnly_file_of_root :
    ∃ (kc : KeyCrypto) (w : KeySettings) (key : ChachaKey) (iv : ChachaIv) (a b : AccountBase),
      a.AgreeButSpend b ∧
        getKeysFileData kc w key iv true false a ≠ getKeysFileData kc w key iv true false b := by
  refine ⟨.transparent, ⟨.toDecrypt, false, false⟩, default, default,
    rootAccount default (some (natLe 1)), rootAccount default (some (natLe 2)),
    ⟨rfl, rfl, rfl, rfl, rfl, rfl, rfl, rfl⟩, fun h => ?_⟩
  exact absurd (congrArg KeyData.pqRoot h) (by decide +kernel)

/-- The watch-only file of a classic account is free of spend secrets. -/
theorem getKeysFileData_secretFree_classic :
    (true || false) = true ∧ ∀ b : AccountBase,
      (rootAccount (natLe 1) none).AgreeButSpend b →
        getKeysFileData .transparent ⟨.toDecrypt, false, false⟩ default default true false
            (rootAccount (natLe 1) none) =
          getKeysFileData .transparent ⟨.toDecrypt, false, false⟩ default default true false b :=
  ⟨rfl, (getKeysFileData_secretFree_iff .transparent ⟨.toDecrypt, false, false⟩ default default rfl
    (rootAccount (natLe 1) none)).mpr ⟨rfl, rfl⟩⟩

end Hidering
