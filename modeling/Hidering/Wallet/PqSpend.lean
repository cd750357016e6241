import Hidering.Construct.Inputs
import Hidering.Db.Invariant
import Hidering.Verify.Accepted
import Hidering.Basic.TxExtraCodec

/-!
# Spending a detected output

A wallet credits a post-quantum output when `detect_pq_output` confirms it. To spend it, the wallet
recovers the shared secret again (`recover_pq_spend_secret`), and `construct_tx_with_tx_key` finds
the one-time secret of the un-tweaked key a third time. The three searches treat a key that is no
point differently. The scan puts the neutral element in the place of its derivation; the recovery
fails if it is the transaction key; the construction leaves the additional keys without a
derivation out, so that the later ones move up.

The validator reads the binding tag with a loop of its own. It finds the tag that the wallet has
read, whatever fields the extra has.

## Main definitions

* `Hidering.PqCredit` — the wallet credits a transfer as a post-quantum output
* `Hidering.OwnerReachable` — the later searches find the un-tweaked key as well

## Main results

* `Hidering.generateKeyImageHelperPrecomp_of_find` — whatever entry of the table the search comes
  to, the secret is that of the output
* `Hidering.pqCredit_spendable_iff` — a credited output can be spent exactly if its owner is
  reachable
-/

namespace Hidering

open Wire StealthCrypto

variable {c : StealthCrypto}

/-! ### The one-time secret -/

/-- The spend key is there and is that of the address; the account is not multisig. -/
structure Unlocked (c : StealthCrypto) (keys : AccountKeys) : Prop where
  single : keys.multisigKeys = []
  unlocked : keys.spendSecretKey ≠ nullSkey
  own : c.scalarmultBase keys.spendSecretKey = keys.accountAddress.spendPublicKey

section OneTime

variable {keys : AccountKeys} {outKey : PublicKey} {d : KeyDerivation} {i : ℕ}
  {index : SubaddressIndex}

theorem effectiveSpendKey_of_unlocked (hkeys : Unlocked c keys) :
    effectiveSpendKey c keys = keys.spendSecretKey :=
  if_pos hkeys.single

/-- The point of the one-time secret is the spend key of the subaddress, shifted by the
derivation. -/
theorem scalarmultBase_oneTimeSecret (hc : c.Lawful) (hkeys : Unlocked c keys) :
    c.scalarmultBase (oneTimeSecret c keys d i index) =
      c.addKeys (getSubaddressSpendPublicKey c keys index)
        (c.scalarmultBase (c.derivationToScalar d i)) := by
  rw [oneTimeSecret, getSubaddressSpendPublicKey, deriveSecretKey,
    effectiveSpendKey_of_unlocked hkeys]
  split
  case isTrue => rw [hc.base_add, hkeys.own]
  case isFalse =>
    rw [hc.base_add, hc.base_add, hkeys.own, hc.add_assoc, hc.add_assoc,
      hc.add_comm (c.scalarmultBase (c.derivationToScalar d i))]

theorem scCheck_oneTimeSecret (hc : c.Lawful) :
    c.scCheck (oneTimeSecret c keys d i index) = true := by
  rw [oneTimeSecret, deriveSecretKey]
  split <;> exact hc.scCheck_add _ _

/-- If the derivation leads to a spend key of the account, the one-time secret of that subaddress is
the secret of the output. -/
theorem generateKeyImageHelperPrecomp_of_spendKey (hc : c.Lawful) (hkeys : Unlocked c keys)
    (hout : c.checkKey outKey = true)
    (hspend : spendKeyUnder c outKey d i = getSubaddressSpendPublicKey c keys index) :
    c.scalarmultBase (oneTimeSecret c keys d i index) = outKey ∧
      generateKeyImageHelperPrecomp c keys outKey d i index =
        some (⟨outKey, oneTimeSecret c keys d i index⟩,
          c.generateKeyImage outKey (oneTimeSecret c keys d i index)) := by
  have hsecret : c.scalarmultBase (oneTimeSecret c keys d i index) = outKey := by
    rw [scalarmultBase_oneTimeSecret hc hkeys, ← hspend, spendKeyUnder]
    exact hc.sub_add hout (hc.checkKey_base _)
  have hpublic : oneTimePublic c keys d i index = some outKey := by
    rw [oneTimePublic, if_pos hkeys.single, secretKeyToPublicKey, if_pos (scCheck_oneTimeSecret hc),
      hsecret]
  refine ⟨hsecret, ?_⟩
  rw [generateKeyImageHelperPrecomp, if_neg hkeys.unlocked, hpublic, Option.bind_some, if_pos rfl]

/-- **The secret of a recognised output.** Whatever entry of the table the search comes to, the
secret is that of the output. -/
theorem generateKeyImageHelperPrecomp_of_find (hc : c.Lawful) (hkeys : Unlocked c keys)
    {subaddresses : SubaddressTable} (htable : subaddresses.IsOf c keys) {ds : List KeyDerivation}
    {viewTag : Option ViewTag} {r : SubaddressReceiveInfo}
    (hfound : isOutToAccPrecomp c subaddresses outKey d ds i viewTag = some r) :
    ∃ sec, generateKeyImageHelperPrecomp c keys outKey r.derivation i r.index =
        some (⟨outKey, sec⟩, c.generateKeyImage outKey sec) ∧
      c.scalarmultBase sec = outKey := by
  have hout := checkKey_of_isOutToAccPrecomp hfound
  have hfind : subaddresses.find (spendKeyUnder c outKey r.derivation i) = some r.index := by
    rw [isOutToAccPrecomp_eq hout, Option.or_eq_some_iff] at hfound
    rcases hfound with hfound | ⟨-, hfound⟩
    · obtain ⟨-, hfind, rfl⟩ := findUnder_eq_some.mp hfound
      exact hfind
    · obtain ⟨d', -, hfound⟩ := Option.bind_eq_some_iff.mp hfound
      obtain ⟨-, hfind, rfl⟩ := findUnder_eq_some.mp hfound
      exact hfind
  obtain ⟨hsecret, hhelper⟩ :=
    generateKeyImageHelperPrecomp_of_spendKey hc hkeys hout (htable _ _ hfind)
  exact ⟨_, hhelper, hsecret⟩

end OneTime

/-! ### Crediting and spending -/

section Spend

variable (c)

/-- The wallet credits `td` as a post-quantum output with the ciphertext `ct`: `detect_pq_output`
found the shared secret `ss`, and `key` is what is left of the output key without the tweak. The
scan only comes to that if a selection tag of the transaction matches, and has the additional
derivations for the first transaction key only. -/
def PqCredit (w : ScanWallet) (td : TransferDetails) (ss : KyberSharedSecret)
    (ct : KyberCiphertext) (key : PublicKey) : Prop :=
  ∃ fields field out outKey txPubKey r tweak,
    getPqOutputFields w td.tx = some fields ∧ pqTagsMatchAny c w td.tx.extra fields = true ∧
    fields[td.internalOutputIndex.toNat]?.join = some field ∧ field.ct = ct ∧
    td.tx.vout[td.internalOutputIndex.toNat]? = some out ∧
    getOutputPublicKey out = some outKey ∧
    (txPubKeys (scanTxExtra td.tx.extra))[td.pkIndex]? = some txPubKey ∧
    detectPqOutput c w outKey (keyDerivationOrIdentity c txPubKey w.keys.viewSecretKey)
      (if td.pkIndex = 0 then
        additionalDerivationsOf c w.keys (getAdditionalTxPubKeysFromExtra td.tx.extra) else [])
      td.internalOutputIndex.toNat field (getOutputViewTag out) = some (r, ss) ∧
    td.subaddrIndex = r.index ∧
    deriveBqOutputTweak c ss td.internalOutputIndex.toNat = some tweak ∧
    untweak c outKey tweak = some key

/-- The chain has the output of the transfer under its global index. -/
structure OnChainOutput (db : Db) (td : TransferDetails) (od : OutputData) : Prop where
  output : db.getOutputKey c.toCrypto 0 td.globalOutputIndex = some od
  key : td.getPublicKey = some od.pubkey
  origin : ∃ txHash blob tx,
    db.getOutputTxAndIndex 0 td.globalOutputIndex = some (txHash, td.internalOutputIndex.toNat) ∧
    db.getPrunedTxBlob txHash = some blob ∧ parseAndValidateTxBase c.toCrypto blob = some tx ∧
    tx.toTransactionPrefix = td.tx

/-- The wallet that spends is the one that credited, with more subaddresses perhaps. -/
structure Continues (w w' : ScanWallet) : Prop where
  keys : w'.keys = w.keys
  multisig : w'.multisig = false
  backgroundSyncing : w'.backgroundSyncing = false
  subaddresses : ∀ key index, w.subaddresses.find key = some index →
    w'.subaddresses.find key = some index

/-- The derivations of the additional keys that are points, as `generate_key_image_helper` lists
them. -/
def validDerivations (keys : AccountKeys) (additional : List PublicKey) : List KeyDerivation :=
  additional.filterMap fun pk => generateKeyDerivation c pk keys.viewSecretKey

/-- The transaction key is a point with the derivation `d`, which does not lead to another
subaddress than the recorded one. -/
def Recoverable (w : ScanWallet) (td : TransferDetails) (key : PublicKey) (d : KeyDerivation) :
    Prop :=
  generateKeyDerivation c (getTxPubKeyFromExtra td.tx.extra td.pkIndex)
      w.keys.viewSecretKey = some d ∧
    ∀ out r, td.tx.vout[td.internalOutputIndex.toNat]? = some out →
      findUnder c w.subaddresses key td.internalOutputIndex.toNat (getOutputViewTag out) d =
        some r → r.index = td.subaddrIndex

/-- The later searches find the un-tweaked key as well: under the derivation of the transaction
key, or under the one that has come to stand at the index of the output. -/
def OwnerReachable (w : ScanWallet) (td : TransferDetails) (key : PublicKey) : Prop :=
  ∃ d, Recoverable c w td key d ∧
    ∃ d' ∈ d :: ((validDerivations c w.keys (getAdditionalTxPubKeysFromExtra td.tx.extra))[
        td.internalOutputIndex.toNat]?).toList,
      (w.subaddresses.find (spendKeyUnder c key d' td.internalOutputIndex.toNat)).isSome

end Spend

section Recover

variable {w w' : ScanWallet} {td : TransferDetails} {ss : KyberSharedSecret}
  {ct : KyberCiphertext} {key : PublicKey} {outKey : PublicKey} {d : KeyDerivation}
  {ds : List KeyDerivation} {i : ℕ} {viewTag : Option ViewTag} {r : SubaddressReceiveInfo}

theorem findUnder_of_continues (hw : Continues w w')
    (h : findUnder c w.subaddresses outKey i viewTag d = some r) :
    findUnder c w'.subaddresses outKey i viewTag d = some r := by
  obtain ⟨htag, hfind, hd⟩ := findUnder_eq_some.mp h
  exact findUnder_eq_some.mpr ⟨htag, hw.subaddresses _ _ hfind, hd⟩

/-- A search that succeeded comes to the same subaddress again, with more derivations and more
subaddresses, exactly if the first derivation does not lead to another one. -/
theorem isOutToAccPrecomp_again (hw : Continues w w') (pkIndex : ℕ)
    (h : isOutToAccPrecomp c w.subaddresses outKey d (if pkIndex = 0 then ds else []) i viewTag =
      some r) :
    (∃ r', isOutToAccPrecomp c w'.subaddresses outKey d ds i viewTag = some r' ∧
      r'.index = r.index) ↔
    ∀ r', findUnder c w'.subaddresses outKey i viewTag d = some r' → r'.index = r.index := by
  have hkey := checkKey_of_isOutToAccPrecomp h
  rw [isOutToAccPrecomp_eq hkey, Option.or_eq_some_iff] at h
  rw [isOutToAccPrecomp_eq hkey]
  cases hfirst : findUnder c w'.subaddresses outKey i viewTag d with
  | some r' => simp
  | none =>
    refine iff_of_true ?_ (by simp)
    rcases h with h | ⟨-, h⟩
    · rw [findUnder_of_continues hw h] at hfirst
      cases hfirst
    · obtain ⟨d', hd', h⟩ := Option.bind_eq_some_iff.mp h
      split at hd'
      case isTrue => exact ⟨r, by simp [hd', findUnder_of_continues hw h], rfl⟩
      case isFalse => simp at hd'

/-- **Recovering the secret.** The wallet recovers the secret that the scan found, and does so
exactly if the transaction key is a point that does not lead to another subaddress. -/
theorem recoverPqSpendSecret_iff (hw : Continues w w') (hcredit : PqCredit c w td ss ct key)
    {ss' : KyberSharedSecret} {ct' : KyberCiphertext} :
    recoverPqSpendSecret c w' td = some (ss', ct') ↔
      (ss' = ss ∧ ct' = ct) ∧ ∃ d, Recoverable c w' td key d := by
  obtain ⟨fields, field, out, outKey, txPubKey, r, tweak, hfields, -, hfield, rfl, hout, hkey,
    hpub, hdetect, hindex, htweak, huntweak⟩ := hcredit
  have hfields' : getPqOutputFields w' td.tx = some fields := by
    obtain ⟨⟨hkeys, -⟩, hrest⟩ := getPqOutputFields_eq_some.mp hfields
    refine getPqOutputFields_eq_some.mpr ⟨⟨?_, hw.multisig, hw.backgroundSyncing⟩, hrest⟩
    rwa [hw.keys]
  have hget : getTxPubKeyFromExtra td.tx.extra td.pkIndex = txPubKey := by
    rw [getTxPubKeyFromExtra, hpub, Option.getD_some]
  obtain ⟨sk, tweak', key', hsk, hss, htweak', huntweak', hscan, -, hbind⟩ :=
    confirmPqOutput_eq_some.mp (confirmPqOutput_of_detect hdetect)
  obtain rfl := Option.some.inj (htweak.symm.trans htweak')
  obtain rfl := Option.some.inj (huntweak.symm.trans huntweak')
  -- with a derivation, the scan has used it
  have hagain : ∀ d, generateKeyDerivation c txPubKey w.keys.viewSecretKey = some d →
      ((∃ r', isOutToAccPrecomp c w'.subaddresses key d (additionalDerivationsOf c w'.keys
          (getAdditionalTxPubKeysFromExtra td.tx.extra)) td.internalOutputIndex.toNat
          (getOutputViewTag out) = some r' ∧ r'.index = r.index) ↔
        ∀ r', findUnder c w'.subaddresses key td.internalOutputIndex.toNat
          (getOutputViewTag out) d = some r' → r'.index = r.index) := by
    intro d hd
    rw [keyDerivationOrIdentity, hd, Option.getD_some] at hscan
    rw [hw.keys]
    exact isOutToAccPrecomp_again hw td.pkIndex hscan
  have hbind' : bindsToUs c w' outKey td.internalOutputIndex.toNat field td.subaddrIndex ss =
      true := by
    rw [bindsToUs_eq_true, hw.keys, hindex, ← bindsToUs_eq_true]
    simpa using hbind
  rw [recoverPqSpendSecret_eq_some]
  constructor
  · rintro ⟨fields', field', out', outKey', d, r', hf, hf', ho, hk, hd, hconfirm, hct⟩
    obtain rfl := Option.some.inj (hfields'.symm.trans hf)
    obtain rfl := Option.some.inj (hfield.symm.trans hf')
    obtain rfl := Option.some.inj (hout.symm.trans ho)
    obtain rfl := Option.some.inj (hkey.symm.trans hk)
    obtain ⟨sk', tweak', key', hsk', hss', htw, hunt, hfound, hfoundIndex, -⟩ :=
      confirmPqOutput_eq_some.mp hconfirm
    rw [hw.keys, hindex] at hsk'
    obtain rfl := Option.some.inj (hsk.symm.trans hsk')
    obtain rfl := Option.some.inj (hss.symm.trans hss')
    obtain rfl := Option.some.inj (htweak.symm.trans htw)
    obtain rfl := Option.some.inj (huntweak.symm.trans hunt)
    refine ⟨⟨rfl, hct.symm⟩, d, hd, ?_⟩
    intro out' r'' ho hr''
    obtain rfl := Option.some.inj (hout.symm.trans ho)
    rw [hget, hw.keys] at hd
    rw [hindex] at hfoundIndex ⊢
    exact (hagain d hd).mp ⟨r', hfound, hfoundIndex⟩ r'' hr''
  · rintro ⟨⟨rfl, rfl⟩, d, hd, honly⟩
    obtain ⟨r', hfound, hfoundIndex⟩ := (hagain d (by rwa [hget, hw.keys] at hd)).mpr
      fun r' hr' => by rw [← hindex]; exact honly out r' hout hr'
    refine ⟨fields, field, out, outKey, d, r', hfields', hfield, hout, hkey, hd, ?_, rfl⟩
    rw [confirmPqOutput_eq_some]
    refine ⟨sk, tweak, key, ?_, hss, htweak, huntweak, hfound, by rw [hfoundIndex, hindex],
      .inr hbind'⟩
    rw [hw.keys, hindex]
    exact hsk

end Recover

/-! ### The input -/

section Input

variable {keys : AccountKeys} {subaddresses : SubaddressTable} {src : TxSourceEntry}
  {ss : KyberSharedSecret} {outKey key : PublicKey} {tweak : SecretKey}

theorem checkKey_of_untweak (h : untweak c outKey tweak = some key) :
    c.checkKey outKey = true ∧ c.subKeys outKey (c.scalarmultBase tweak) = key := by
  simpa [untweak] using h

/-- The search of `generate_key_image_helper`, spelled out. -/
theorem isOutToAccPrecomp_untagged_isSome (hkey : c.checkKey key = true) {d : KeyDerivation}
    {ds : List KeyDerivation} {i : ℕ} :
    (isOutToAccPrecomp c subaddresses key d ds i none).isSome ↔
      ∃ d' ∈ d :: ds[i]?.toList, (subaddresses.find (spendKeyUnder c key d' i)).isSome := by
  rw [isOutToAccPrecomp_eq hkey, findUnder_none_tag]
  cases ds[i]? <;> simp [findUnder_none_tag]

/-- **The one-time secret of a tweaked output** is found exactly if the un-tweaked key is, and then
it is the secret of the output. -/
theorem ownerSecret_eq (hc : c.Lawful) (hkeys : Unlocked c keys) (htable : subaddresses.IsOf c keys)
    (htweak : deriveBqOutputTweak c ss src.realOutputInTxIndex.toNat = some tweak)
    (hkey : untweak c outKey tweak = some key) :
    ((ownerSecret c keys subaddresses src ss outKey).isSome ↔
      (isOutToAccPrecomp c subaddresses key
        (keyDerivationOrIdentity c src.realOutTxKey keys.viewSecretKey)
        (validDerivations c keys src.realOutAdditionalTxKeys)
        src.realOutputInTxIndex.toNat none).isSome) ∧
    ∀ sec, ownerSecret c keys subaddresses src ss outKey = some sec →
      c.scCheck sec = true ∧ c.scalarmultBase sec = outKey := by
  rw [ownerSecret, htweak, Option.bind_some, hkey, Option.bind_some, generateKeyImageHelper]
  cases hfound : isOutToAccPrecomp c subaddresses key
      (keyDerivationOrIdentity c src.realOutTxKey keys.viewSecretKey)
      (validDerivations c keys src.realOutAdditionalTxKeys)
      src.realOutputInTxIndex.toNat none with
  | none =>
    rw [validDerivations] at hfound
    simp [hfound]
  | some r =>
    obtain ⟨sec, hhelper, hsec⟩ := generateKeyImageHelperPrecomp_of_find hc hkeys htable hfound
    obtain ⟨hout, hsub⟩ := checkKey_of_untweak hkey
    have howner : c.scalarmultBase (c.scAdd sec tweak) = outKey := by
      rw [hc.base_add, hsec, ← hsub]
      exact hc.sub_add hout (hc.checkKey_base _)
    rw [validDerivations] at hfound
    simp only [hfound, Option.bind_some, hhelper, howner, if_true, Option.isSome_some,
      Option.some.injEq]
    refine ⟨trivial, ?_⟩
    rintro _ rfl
    exact ⟨hc.scCheck_add _ _, howner⟩

end Input

section Check

variable {w w' : ScanWallet} {td : TransferDetails} {ss : KyberSharedSecret}
  {ct : KyberCiphertext} {key : PublicKey}

/-- **The binding tag.** The tag that the validator looks up is the one that the wallet has
verified against its own authorisation key. -/
theorem storedBindTag_of_credit {db : Db} {od : OutputData} (hcredit : PqCredit c w td ss ct key)
    (hstored : OnChainOutput c db td od) :
    ∃ identity, generatePqIdentityKeys c w.keys td.subaddrIndex = some identity ∧
      storedBindTag c.toCrypto db td.globalOutputIndex =
        some (c.pqcComputeBindTagV2 cryptonotePqAddressAuthVer od.pubkey
          (c.pqcComputeAuthCommit cryptonotePqAddressAuthVer identity.dilithiumPk)
          (c.pqcComputeAuthBlind ss td.internalOutputIndex.toNat)) := by
  obtain ⟨fields, field, out, outKey, txPubKey, r, tweak, hfields, -, hfield, -, hout, hkey, -,
    hdetect, hindex, -, -⟩ := hcredit
  obtain ⟨-, -, -, -, -, -, -, -, -, hbind⟩ :=
    confirmPqOutput_eq_some.mp (confirmPqOutput_of_detect hdetect)
  obtain ⟨commit, hcommit, htag⟩ := bindsToUs_eq_true.mp (by simpa using hbind)
  obtain ⟨identity, hidentity, rfl⟩ := Option.map_eq_some_iff.mp hcommit
  obtain ⟨hlt, -⟩ := List.getElem?_eq_some_iff.mp hout
  obtain ⟨parsed, hparse, hfind⟩ := bindTag_of_getPqOutputFields hfields hlt hfield
  obtain ⟨txHash, blob, tx, hindexed, hblob, htx, hprefix⟩ := hstored.origin
  have hpub : outKey = od.pubkey := by
    have hstoredKey := hstored.key
    rw [TransferDetails.getPublicKey, hout, Option.bind_some, hkey] at hstoredKey
    exact Option.some.inj hstoredKey
  refine ⟨identity, by rw [hindex]; exact hidentity, ?_⟩
  have hextra : tx.extra = td.tx.extra := congrArg TransactionPrefix.extra hprefix
  simp only [storedBindTag, hindexed, hblob, htx, hextra, hparse, Option.bind_eq_bind,
    Option.bind_some, UInt64.ofNat_toNat, hfind, htag, hpub]

/-- Without the secret there is no post-quantum source, and no input. -/
theorem buildPqInput_of_not_recovered {keys : AccountKeys} {subaddresses : SubaddressTable}
    {fakeOutputsCount : ℕ} {row : List OutsEntry} {src : TxSourceEntry}
    (hsrc : SourceMatches ⟨c.toCrypto, w'.multisig, recoverPqSpendSecret c w'⟩ fakeOutputsCount td
      row src) (h : recoverPqSpendSecret c w' td = none) :
    buildPqInput c keys subaddresses src = none := by
  have hss : src.pqSs = (recoverPqSpendSecret c w' td).map (·.1) := hsrc.pqSs
  rw [h] at hss
  simp [buildPqInput, hss]

variable (c) in
/-- The input that spends a transfer, before it is signed. -/
def pqInputOf (td : TransferDetails) (ss : KyberSharedSecret) (outKey : PublicKey)
    (identity : PqDilithiumKeys) : TxinToKeyPq where
  amount := td.amount
  spentOutputIndex := td.globalOutputIndex
  realOutputKey := outKey
  mask := td.mask
  ownerSig := default
  authType := pqAuthTypeMldsa65
  authBlind := c.pqcComputeAuthBlind ss td.internalOutputIndex.toNat
  auth := ⟨identity.dilithiumPk, default⟩

/-- Once the one-time secret is found, the signed input passes every check. -/
theorem exists_signed_pqInputOf (hsign : c.SignatureCorrect w.keys)
    (hcredit : PqCredit c w td ss ct key) {view : ChainView} {od : OutputData}
    (hstored : OnChainOutput c view.db td od) (hopens : od.commitment = c.commit td.amount td.mask)
    (hunspent : c.getPqInputKeyImage od.pubkey ∉ view.db.spentKeys) {ownerSk : SecretKey}
    (hcheck : c.scCheck ownerSk = true) (howner : c.scalarmultBase ownerSk = od.pubkey)
    {identity : PqDilithiumKeys}
    (hidentity : generatePqIdentityKeys c w.keys td.subaddrIndex = some identity) (message : Hash)
    (coins : Blob 32 × Blob 32) :
    ∃ i, signPqInput c message coins (pqInputOf c td ss od.pubkey identity)
        ⟨od.pubkey, identity, ownerSk⟩ = some i ∧
      checkPqInput c.toCrypto view message i = .ok () := by
  obtain ⟨identity', hidentity', hbind⟩ := storedBindTag_of_credit hcredit hstored
  obtain rfl := Option.some.inj (hidentity.symm.trans hidentity')
  obtain ⟨sig, hsig, hverify⟩ := hsign.auth hidentity message coins.1
  refine ⟨_, Option.map_eq_some_iff.mpr ⟨sig, hsig, rfl⟩,
    checkPqInput_of_accepted (?_ : PqInputAccepted c.toCrypto view message _ od)⟩
  constructor
  case output => exact hstored.output
  case unspent => exact hunspent
  case key => rfl
  case commitment => exact hopens
  case bind => exact hbind
  case authType => rfl
  case auth => exact hverify
  case owner =>
    have hvalid := hsign.owner hcheck message coins.2
    rwa [howner] at hvalid

/-- **Every credited output is spendable**, provided its owner is reachable. The input that the
wallet builds and signs for a credited output passes the checks (a) to (d2) under the message that
was signed exactly if the later searches find what the scan has found. -/
theorem pqCredit_spendable_iff (hc : c.Lawful) (hkeys : Unlocked c w.keys)
    (hsign : c.SignatureCorrect w.keys) (hw : Continues w w')
    (htable : w'.subaddresses.IsOf c w.keys) (hcredit : PqCredit c w td ss ct key)
    {view : ChainView} {od : OutputData} (hstored : OnChainOutput c view.db td od)
    (hopens : od.commitment = c.commit td.amount td.mask)
    (hunspent : c.getPqInputKeyImage od.pubkey ∉ view.db.spentKeys) {fakeOutputsCount : ℕ}
    {row : List OutsEntry} {src : TxSourceEntry}
    (hsrc : SourceMatches ⟨c.toCrypto, w'.multisig, recoverPqSpendSecret c w'⟩ fakeOutputsCount td
      row src) (message : Hash) (coins : Blob 32 × Blob 32) :
    (∃ i, ((buildPqInput c w'.keys w'.subaddresses src).bind fun r =>
        signPqInput c message coins r.1 r.2) = some i ∧
      checkPqInput c.toCrypto view message i = .ok ()) ↔ OwnerReachable c w' td key := by
  obtain ⟨outKey, houtKey, hreal⟩ := hsrc.real
  obtain rfl := Option.some.inj (hstored.key.symm.trans houtKey)
  obtain ⟨identity, hidentity, -⟩ := storedBindTag_of_credit hcredit hstored
  have hss : src.pqSs = (recoverPqSpendSecret c w' td).map (·.1) := hsrc.pqSs
  have hsub : src.pqSubaddr = (recoverPqSpendSecret c w' td).map fun _ => td.subaddrIndex :=
    hsrc.pqSubaddr
  cases hrecover : recoverPqSpendSecret c w' td with
  | none =>
    refine iff_of_false ?_ ?_
    · simp [buildPqInput_of_not_recovered hsrc hrecover]
    · rintro ⟨d, hd, -⟩
      have hsome := (recoverPqSpendSecret_iff hw hcredit).mpr ⟨⟨rfl, rfl⟩, d, hd⟩
      rw [hrecover] at hsome
      cases hsome
  | some recovered =>
    obtain ⟨⟨rfl, rfl⟩, d, hd⟩ := (recoverPqSpendSecret_iff hw hcredit).mp hrecover
    rw [hrecover, Option.map_some] at hss hsub
    obtain ⟨tweak, htweak, huntweak⟩ : ∃ tweak,
        deriveBqOutputTweak c recovered.1 src.realOutputInTxIndex.toNat = some tweak ∧
        untweak c od.pubkey tweak = some key := by
      rw [hsrc.realOutputInTxIndex]
      obtain ⟨-, -, out, outKey, -, -, tweak, -, -, -, -, hout, hkey, -, -, -, htweak,
        huntweak⟩ := hcredit
      rw [TransferDetails.getPublicKey, hout, Option.bind_some, hkey] at houtKey
      obtain rfl := Option.some.inj houtKey
      exact ⟨tweak, htweak, huntweak⟩
    have hpoint : c.checkKey key = true := by
      obtain ⟨hout, rfl⟩ := checkKey_of_untweak huntweak
      exact hc.checkKey_sub hout (hc.checkKey_base _)
    obtain ⟨hfound, hsecret⟩ := ownerSecret_eq hc hkeys htable htweak huntweak
    rw [isOutToAccPrecomp_untagged_isSome hpoint, hsrc.realOutTxKey,
      hsrc.realOutAdditionalTxKeys, hsrc.realOutputInTxIndex, keyDerivationOrIdentity, ← hw.keys,
      hd.1, Option.getD_some] at hfound
    have hreach : OwnerReachable c w' td key ↔
        (ownerSecret c w'.keys w'.subaddresses src recovered.1 od.pubkey).isSome := by
      rw [hfound]
      refine ⟨?_, fun h => ⟨d, hd, h⟩⟩
      rintro ⟨d', hd', h⟩
      obtain rfl := Option.some.inj (hd.1.symm.trans hd'.1)
      exact h
    have hbuild : buildPqInput c w'.keys w'.subaddresses src =
        (ownerSecret c w'.keys w'.subaddresses src recovered.1 od.pubkey).map fun ownerSk =>
          (pqInputOf c td recovered.1 od.pubkey identity, ⟨od.pubkey, identity, ownerSk⟩) := by
      rw [← hw.keys] at hidentity
      cases howner : ownerSecret c w'.keys w'.subaddresses src recovered.1 od.pubkey <;>
        simp [buildPqInput, hreal, realOutputEntry, hss, hsub, howner, hidentity, pqInputOf,
          hsrc.amount, hsrc.mask, hsrc.realOutputInTxIndex]
    rw [hreach, hbuild]
    cases howner : ownerSecret c w'.keys w'.subaddresses src recovered.1 od.pubkey with
    | none => simp
    | some ownerSk =>
      refine iff_of_true ?_ rfl
      rw [hw.keys] at howner
      obtain ⟨hcheck, hbase⟩ := hsecret ownerSk howner
      exact exists_signed_pqInputOf hsign hcredit hstored hopens hunspent hcheck hbase hidentity
        message coins

end Check

/-! ### A transaction key that is no point -/

/-- A miner transaction with one post-quantum output, of shared secret 1, and an additional key. -/
def toyTx (txPubKey : PublicKey) : Transaction where
  version := 2
  vin := [.gen 0]
  vout := [⟨7, .toKey (Blob.ofList 32 [4])⟩]
  extra := (writeTxExtra [.pubKey txPubKey, .additionalPubKeys [default],
    .kyberCt 0 default (Blob.ofList _ [1]), .pqBind 0 (Blob.ofList 32 [1])]).getD []

/-- The transfer that the wallet makes of it. -/
def toyTransfer (tx : Transaction) : TransferDetails :=
  { lostTransfer 0 with blockHeight := 0, tx := tx, mask := Crypto.identity }

/-- The call of `add_block` for a first block with the transaction. -/
def toyChain (tx : Transaction) : List (Block × BlockMeta × List (Transaction × Bytes)) :=
  [({ soloBlock 1 0 with minerTx := tx }, ⟨0, 0, 0, 0⟩, [])]

/-- The output as it is stored. -/
def toyOutput : OutputData :=
  ⟨Blob.ofList 32 [4], 0, 0, transparent.zeroCommit 7⟩

/-- The source of the transfer. -/
def toySource (tx : Transaction) : TxSourceEntry :=
  fullSource ⟨transparent.toCrypto, false,
    recoverPqSpendSecret transparent toyWallet⟩ 0 (toyTransfer tx) (lostRow 0) 0
    (Blob.ofList 32 [4])

/-- The key of the good transaction is the neutral element. -/
def goodTx : Transaction := toyTx default

/-- The key of the bad transaction is no point. The wallet scans with the neutral element in the
place of its derivation and finds the output through the additional key. -/
def badTx : Transaction := toyTx (Blob.ofList 32 [0x80])

theorem toyKeys_unlocked : Unlocked transparent toyKeys where
  single := rfl
  unlocked := by decide
  own := by decide

theorem transparent_signatureCorrect (keys : AccountKeys) : transparent.SignatureCorrect keys where
  auth _ _ _ := ⟨default, rfl, rfl⟩
  owner _ _ _ := rfl

theorem toyWallet_continues : Continues toyWallet toyWallet where
  keys := rfl
  multisig := rfl
  backgroundSyncing := rfl
  subaddresses _ _ h := h

/-- The wallet credits the outputs of both. -/
theorem toyTx_credited {txPubKey : PublicKey}
    (h : txPubKey = default ∨ txPubKey = Blob.ofList 32 [0x80]) :
    PqCredit transparent toyWallet (toyTransfer (toyTx txPubKey)) (Blob.ofList 32 [1])
      (Blob.ofList _ [1]) (Blob.ofList 32 [5]) := by
  refine ⟨[some ⟨default, Blob.ofList _ [1], some (Blob.ofList 32 [1])⟩], _, _,
    Blob.ofList 32 [4], txPubKey, ⟨⟨0, 0⟩, default⟩, Blob.ofList 32 [1], ?_, ?_, rfl, rfl, rfl, rfl,
    ?_, ?_, rfl, ?_, ?_⟩
  all_goals rcases h with rfl | rfl <;> decide +kernel

/-- What is evaluated about the chain: the output is stored, with the transaction it came from. -/
def storesToy (tx : Transaction) (db : Db) : Bool :=
  decide (db.getOutputKey transparent.toCrypto 0 0 = some toyOutput) &&
    decide (((db.getOutputTxAndIndex 0 0).bind fun toi => (db.getPrunedTxBlob toi.1).bind fun blob =>
      (parseAndValidateTxBase transparent.toCrypto blob).map fun tx' =>
        (toi.2, tx'.toTransactionPrefix)) = some (0, tx.toTransactionPrefix)) &&
    decide (db.spentKeys = ∅)

theorem exists_stored {tx : Transaction}
    (h : Store.okAnd (addBlocks transparent.toCrypto (toyChain tx) (Db.empty 0))
      (fun _ => storesToy tx) = true)
    (hkey : (toyTransfer tx).getPublicKey = some (Blob.ofList 32 [4])) :
    ∃ db, addBlocks transparent.toCrypto (toyChain tx) (Db.empty 0) = .ok () db ∧
      OnChainOutput transparent db (toyTransfer tx) toyOutput ∧ db.spentKeys = ∅ := by
  obtain ⟨⟨⟩, db, hchain, hdb⟩ := Store.exists_of_okAnd h
  simp only [storesToy, Bool.and_eq_true, decide_eq_true_eq, Option.bind_eq_some_iff,
    Option.map_eq_some_iff, Prod.mk.injEq] at hdb
  obtain ⟨⟨hout, ⟨txHash, k⟩, hindex, blob, hblob, tx', htx', rfl, hsame⟩, hspent⟩ := hdb
  exact ⟨db, hchain, ⟨hout, hkey, txHash, blob, tx', hindex, hblob, htx', hsame⟩, hspent⟩

theorem toySource_matches {tx : Transaction}
    (hkey : (toyTransfer tx).getPublicKey = some (Blob.ofList 32 [4])) :
    SourceMatches ⟨transparent.toCrypto, toyWallet.multisig,
      recoverPqSpendSecret transparent toyWallet⟩ 0 (toyTransfer tx) (lostRow 0)
      (toySource tx) := by
  rw [toySource]
  exact fullSource_matches (by decide) rfl hkey

/-- The wallet credits the output of the bad transaction, which is on the chain and unspent, but
builds no input for it. -/
theorem pqCredit_unspendable :
    PqCredit transparent toyWallet (toyTransfer badTx) (Blob.ofList 32 [1])
      (Blob.ofList _ [1]) (Blob.ofList 32 [5]) ∧
    (∃ db, addBlocks transparent.toCrypto (toyChain badTx) (Db.empty 0) = .ok () db ∧
      OnChainOutput transparent db (toyTransfer badTx) toyOutput ∧
      db.spentKeys = ∅) ∧
    SourceMatches ⟨transparent.toCrypto, toyWallet.multisig,
      recoverPqSpendSecret transparent toyWallet⟩ 0 (toyTransfer badTx) (lostRow 0)
      (toySource badTx) ∧
    ∀ db, ¬ ∃ i, ((buildPqInput transparent toyWallet.keys toyWallet.subaddresses
        (toySource badTx)).bind fun r =>
          signPqInput transparent default default r.1 r.2) = some i ∧
      checkPqInput transparent.toCrypto ⟨db, 16, 0⟩ default i = .ok () := by
  have hmatch := @toySource_matches badTx rfl
  refine ⟨toyTx_credited (.inr rfl), exists_stored (by decide +kernel) rfl, hmatch, fun db => ?_⟩
  have hrecover : recoverPqSpendSecret transparent toyWallet (toyTransfer badTx) =
      none := by decide +kernel
  rw [buildPqInput_of_not_recovered hmatch hrecover]
  simp

/-- The output of the good transaction can be spent. -/
theorem goodTx_spendable :
    ∃ db, addBlocks transparent.toCrypto (toyChain goodTx) (Db.empty 0) = .ok () db ∧
      ∃ i, ((buildPqInput transparent toyWallet.keys toyWallet.subaddresses
          (toySource goodTx)).bind fun r =>
            signPqInput transparent default default r.1 r.2) = some i ∧
        checkPqInput transparent.toCrypto ⟨db, 16, 0⟩ default i = .ok () := by
  obtain ⟨db, hchain, hstored, hspent⟩ := @exists_stored goodTx (by decide +kernel) rfl
  refine ⟨db, hchain, (pqCredit_spendable_iff transparent_lawful toyKeys_unlocked
    (transparent_signatureCorrect _) toyWallet_continues toyWallet_isOf (toyTx_credited (.inl rfl))
    hstored rfl (hspent ▸ Finset.notMem_empty _) (toySource_matches rfl) default default).mpr ?_⟩
  refine ⟨default, ⟨by decide +kernel, ?_⟩, default, List.mem_cons_self, by decide +kernel⟩
  intro out r hout hr
  obtain ⟨-, hfind, -⟩ := findUnder_eq_some.mp hr
  exact (toyWallet_find hfind).1

end Hidering
