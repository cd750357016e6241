import Hidering.Account.Stealth
import Hidering.Wallet.Sources

/-!
# Detecting a post-quantum output

A transaction carries, for each of its post-quantum outputs, an ML-KEM ciphertext with a selection
tag and a binding tag. The wallet collects them by output (`getPqOutputFields`), finds out from the
selection tag which of its subaddresses an output may belong to (`detectPqOutput`), and makes sure
of it by decapsulating, taking the tweak off the output key and checking the binding tag
(`confirmPqOutput`). When the output is spent the shared secret is recovered in the same way
(`recoverPqSpendSecret`).

## Main definitions

* `Hidering.ScanWallet`, `Hidering.PqOutputField`
* `Hidering.getPqOutputFields`, `confirmPqOutput`, `detectPqOutput`, `recoverPqSpendSecret`

## Main results

* `Hidering.collectPqFields_get` — the fields of an output are the first ones that name it
-/

namespace Hidering

open Wire List

/-- The parts of a wallet that the scan reads. -/
structure ScanWallet where
  keys : AccountKeys
  multisig : Bool := false
  backgroundSyncing : Bool := false
  /-- `m_subaddresses` -/
  subaddresses : SubaddressTable
  /-- `m_pq_subaddresses`: the indices by the fingerprint of their ML-KEM key -/
  pqSubaddresses : List (BqSelTag × SubaddressIndex) := []

/-- `pq_output_field`, with `has_bind` and `bind_tag` as one. -/
structure PqOutputField where
  selTag : BqSelTag
  ct : KyberCiphertext
  bindTag : Option Hash := none
deriving DecidableEq

/-! ### The fields of a transaction -/

/-- A round of the loop over the ciphertexts: the first that names an output of the transaction is
kept. -/
def addKyberCt (nOutputs : ℕ) (out : List (Option PqOutputField)) :
    TxExtraField → List (Option PqOutputField)
  | .kyberCt outputIndex selTag ct =>
    if nOutputs ≤ outputIndex.toNat then out
    else
      let sized := if out = [] then replicate nOutputs none else out
      match sized[outputIndex.toNat]? with
      | some none => sized.set outputIndex.toNat (some { selTag, ct })
      | _ => sized
  | _ => out

/-- A round of the loop over the binding tags: the first that names an output with a ciphertext is
kept. -/
def addPqBind (out : List (Option PqOutputField)) : TxExtraField → List (Option PqOutputField)
  | .pqBind outputIndex tag =>
    match out[outputIndex.toNat]? with
    | some (some field) =>
      if field.bindTag.isSome then out
      else out.set outputIndex.toNat (some { field with bindTag := some tag })
    | _ => out
  | _ => out

/-- The two loops of `get_pq_output_fields`. -/
def collectPqFields (fields : List TxExtraField) (nOutputs : ℕ) : List (Option PqOutputField) :=
  fields.foldl addPqBind (fields.foldl (addKyberCt nOutputs) [])

/-- `get_pq_output_fields`. -/
def getPqOutputFields (w : ScanWallet) (tx : TransactionPrefix) :
    Option (List (Option PqOutputField)) :=
  if w.keys.pqKeys = none ∨ w.multisig ∨ w.backgroundSyncing then none
  else
    (parseTxExtra tx.extra).bind fun fields =>
      let out := collectPqFields fields tx.vout.length
      if out = [] then none else some out

/-- The first ciphertext that names an output. -/
def findKyberCt (fields : List TxExtraField) (outputIndex : UInt64) : Option PqOutputField :=
  fields.findSome? fun
    | .kyberCt i selTag ct => if i = outputIndex then some { selTag, ct } else none
    | _ => none

variable {out : List (Option PqOutputField)} {u : UInt64} {nOutputs : ℕ}

/-- What a round of the first loop does to the entry of an output. -/
theorem addKyberCt_get (hout : out = [] ∨ out.length = nOutputs) (f : TxExtraField)
    (hu : u.toNat < nOutputs) :
    (addKyberCt nOutputs out f = [] ∨ (addKyberCt nOutputs out f).length = nOutputs) ∧
      (addKyberCt nOutputs out f)[u.toNat]?.join = out[u.toNat]?.join.or (findKyberCt [f] u) := by
  cases f with
  | kyberCt i selTag ct =>
    rw [addKyberCt]
    split
    case isTrue hlong =>
      have hne : i ≠ u := by
        rintro rfl
        omega
      exact ⟨hout, by simp [findKyberCt, hne]⟩
    case isFalse hshort =>
      -- after the resize there is an entry for every output
      obtain ⟨sized, hsized, hlen, hget⟩ : ∃ sized, sized = (if out = [] then
          replicate nOutputs none else out) ∧ sized.length = nOutputs ∧
          ∀ v : ℕ, sized[v]?.join = out[v]?.join := by
        refine ⟨_, rfl, ?_, ?_⟩
        · split <;> rename_i h
          · simp
          · exact hout.resolve_left h
        · intro v
          split <;> rename_i h
          · subst h
            by_cases hv : v < nOutputs
            · simp [hv]
            · simp [hv]
          · rfl
      simp only [← hsized, ← hget]
      by_cases hiu : i = u
      · subst hiu
        split
        case h_1 hentry =>
          refine ⟨.inr (by simpa using hlen), ?_⟩
          rw [getElem?_set_self (by omega), hentry]
          simp [findKyberCt]
        case h_2 hentry =>
          refine ⟨.inr hlen, ?_⟩
          cases hval : sized[i.toNat]? with
          | none =>
            rw [List.getElem?_eq_none_iff] at hval
            omega
          | some entry =>
            cases entry with
            | none => exact absurd hval hentry
            | some field => simp
      · have hne : i.toNat ≠ u.toNat := fun h => hiu (UInt64.toNat_inj.mp h)
        have hnone : findKyberCt [.kyberCt i selTag ct] u = none := by simp [findKyberCt, hiu]
        rw [hnone, Option.or_none]
        split
        · exact ⟨.inr (by simpa using hlen), by rw [getElem?_set_ne hne]⟩
        · exact ⟨.inr hlen, rfl⟩
  | _ => exact ⟨hout, by simp [addKyberCt, findKyberCt]⟩

theorem findKyberCt_cons (f : TxExtraField) (fields : List TxExtraField) (u : UInt64) :
    findKyberCt (f :: fields) u = (findKyberCt [f] u).or (findKyberCt fields u) := by
  rw [findKyberCt, findKyberCt, findKyberCt, findSome?_cons, findSome?_cons,
    findSome?_nil]
  split <;> simp_all

theorem foldl_addKyberCt_get (fields : List TxExtraField) (hout : out = [] ∨ out.length = nOutputs)
    (hu : u.toNat < nOutputs) :
    (fields.foldl (addKyberCt nOutputs) out)[u.toNat]?.join =
      out[u.toNat]?.join.or (findKyberCt fields u) := by
  induction fields generalizing out with
  | nil => simp [findKyberCt]
  | cons f fields ih =>
    obtain ⟨hout', hget⟩ := addKyberCt_get hout f hu
    rw [foldl_cons, ih hout', hget, findKyberCt_cons f fields, Option.or_assoc]

theorem findPqBind_cons (f : TxExtraField) (fields : List TxExtraField) (u : UInt64) :
    findPqBind (f :: fields) u = (findPqBind [f] u).or (findPqBind fields u) := by
  rw [findPqBind, findPqBind, findPqBind, findSome?_cons, findSome?_cons,
    findSome?_nil]
  split <;> simp_all

/-- What a round of the second loop does to the entry of an output. -/
theorem addPqBind_get (out : List (Option PqOutputField)) (f : TxExtraField) (u : UInt64) :
    (addPqBind out f)[u.toNat]?.join = out[u.toNat]?.join.map fun field =>
      { field with bindTag := field.bindTag.or (findPqBind [f] u) } := by
  cases f with
  | pqBind i tag =>
    rw [addPqBind]
    by_cases hiu : i = u
    · subst hiu
      split
      case h_1 field hfield =>
        obtain ⟨hlt, -⟩ := List.getElem?_eq_some_iff.mp hfield
        split
        case isTrue hbound =>
          obtain ⟨t, ht⟩ := Option.isSome_iff_exists.mp hbound
          obtain ⟨selTag, ct, bindTag⟩ := field
          simp_all
        case isFalse hfree =>
          have hnone : field.bindTag = none := by simpa using hfree
          rw [getElem?_set_self hlt, hfield]
          simp [hnone, findPqBind]
      case h_2 hentry =>
        cases hval : out[i.toNat]? with
        | none => rfl
        | some entry =>
          cases entry with
          | none => rfl
          | some field => exact absurd hval (hentry field)
    · have hne : i.toNat ≠ u.toNat := fun h => hiu (UInt64.toNat_inj.mp h)
      have hnone : findPqBind [.pqBind i tag] u = none := by simp [findPqBind, hiu]
      simp only [hnone, Option.or_none, Option.map_id']
      split
      · split
        · rfl
        · rw [getElem?_set_ne hne]
      · rfl
  | _ => simp [addPqBind, findPqBind]

theorem foldl_addPqBind_get (fields : List TxExtraField) (out : List (Option PqOutputField))
    (u : UInt64) :
    (fields.foldl addPqBind out)[u.toNat]?.join = out[u.toNat]?.join.map fun field =>
      { field with bindTag := field.bindTag.or (findPqBind fields u) } := by
  induction fields generalizing out with
  | nil => simp [findPqBind]
  | cons f fields ih =>
    rw [foldl_cons, ih, addPqBind_get, Option.map_map, findPqBind_cons f fields]
    simp only [Function.comp_def, Option.or_assoc]

/-- **The fields of an output** are the first ciphertext and the first binding tag that name it,
whatever else the extra has. -/
theorem collectPqFields_get {fields : List TxExtraField} (hu : u.toNat < nOutputs) :
    (collectPqFields fields nOutputs)[u.toNat]?.join = (findKyberCt fields u).map fun field =>
      { field with bindTag := field.bindTag.or (findPqBind fields u) } := by
  rw [collectPqFields, foldl_addPqBind_get, foldl_addKyberCt_get fields (.inl rfl) hu]
  simp

theorem bindTag_of_findKyberCt {fields : List TxExtraField} {field : PqOutputField}
    (h : findKyberCt fields u = some field) : field.bindTag = none := by
  obtain ⟨f, -, hf⟩ := exists_of_findSome?_eq_some h
  cases f <;> simp at hf
  rw [← hf.2]

theorem getPqOutputFields_eq_some {w : ScanWallet} {tx : TransactionPrefix} :
    getPqOutputFields w tx = some out ↔
      (w.keys.pqKeys ≠ none ∧ w.multisig = false ∧ w.backgroundSyncing = false) ∧
        ∃ fields, parseTxExtra tx.extra = some fields ∧
          collectPqFields fields tx.vout.length = out ∧ out ≠ [] := by
  rw [getPqOutputFields]
  split
  case isTrue h =>
    refine iff_of_false (by simp) ?_
    rintro ⟨⟨hkeys, hmultisig, hbackground⟩, -⟩
    simp [hkeys, hmultisig, hbackground] at h
  case isFalse h =>
    have hopen : w.keys.pqKeys ≠ none ∧ w.multisig = false ∧ w.backgroundSyncing = false := by
      simpa using h
    simp only [hopen, Option.bind_eq_some_iff, Option.ite_none_left_eq_some, Option.some.injEq,
      ne_eq, not_false_eq_true, and_self, true_and]
    refine exists_congr fun fields => and_congr_right fun _ => ?_
    constructor
    · rintro ⟨hne, rfl⟩
      exact ⟨rfl, hne⟩
    · rintro ⟨rfl, hne⟩
      exact ⟨hne, rfl⟩

/-- The binding tag that the wallet reads is the one that the validator looks up. -/
theorem bindTag_of_getPqOutputFields {w : ScanWallet} {tx : TransactionPrefix}
    {field : PqOutputField} (h : getPqOutputFields w tx = some out) (hu : u.toNat < tx.vout.length)
    (hfield : out[u.toNat]?.join = some field) :
    ∃ fields, parseTxExtra tx.extra = some fields ∧ findPqBind fields u = field.bindTag := by
  obtain ⟨-, fields, hparse, rfl, -⟩ := getPqOutputFields_eq_some.mp h
  rw [collectPqFields_get hu, Option.map_eq_some_iff] at hfield
  obtain ⟨f, hf, rfl⟩ := hfield
  exact ⟨fields, hparse, by simp [bindTag_of_findKyberCt hf]⟩

/-! ### Confirming an output -/

section Confirm

variable (c : StealthCrypto) (w : ScanWallet)

/-- The binding tag of the field is the one of the wallet's own authorisation commitment. -/
def bindsToUs (outKey : PublicKey) (outputIndex : ℕ) (field : PqOutputField)
    (claimed : SubaddressIndex) (ss : KyberSharedSecret) : Bool :=
  match field.bindTag, getPqAuthCommit c w.keys claimed with
  | some tag, some commit =>
    c.pqcComputeBindTagV2 cryptonotePqAddressAuthVer outKey commit
      (c.pqcComputeAuthBlind ss outputIndex) == tag
  | _, _ => false

/-- The key that is left of an output key when the tweak is taken off; `subKeys` throws on bytes
that are no point. -/
def untweak (outKey : PublicKey) (tweak : SecretKey) : Option PublicKey :=
  if c.checkKey outKey then some (c.subKeys outKey (c.scalarmultBase tweak)) else none

/-- `confirm_pq_output`. -/
def confirmPqOutput (outKey : PublicKey) (d : KeyDerivation)
    (additionalDerivations : List KeyDerivation) (outputIndex : ℕ) (field : PqOutputField)
    (claimed : SubaddressIndex) (viewTag : Option ViewTag) (requireBinding : Bool) :
    Option (SubaddressReceiveInfo × KyberSharedSecret) :=
  (generatePqSubaddressKeys c w.keys claimed).bind fun sk =>
    (c.pqcStealthDecaps sk field.ct).bind fun cand =>
      (deriveBqOutputTweak c cand outputIndex).bind fun tweak =>
        (untweak c outKey tweak).bind fun key =>
          (isOutToAccPrecomp c w.subaddresses key d additionalDerivations outputIndex
            viewTag).bind fun r =>
            if r.index = claimed ∧
                (requireBinding = false ∨ bindsToUs c w outKey outputIndex field claimed cand) then
              some (r, cand)
            else none

/-- `bq_sel_tag_xor`. -/
def bqSelTagXor (a b : BqSelTag) : BqSelTag :=
  ⟨zipWith (· ^^^ ·) a.bytes b.bytes, by
    rw [length_zipWith, a.length_bytes, b.length_bytes, Nat.min_self]⟩

/-- The subaddresses whose fingerprint the selection tag has under a derivation. -/
def taggedSubaddresses (field : PqOutputField) (d : KeyDerivation) (outputIndex : ℕ) :
    List SubaddressIndex :=
  let fp := bqSelTagXor field.selTag (c.pqcSelPad d outputIndex)
  (w.pqSubaddresses.filter fun e => e.1 == fp).map (·.2)

/-- `detect_pq_output`. -/
def detectPqOutput (outKey : PublicKey) (d : KeyDerivation)
    (additionalDerivations : List KeyDerivation) (outputIndex : ℕ) (field : PqOutputField)
    (viewTag : Option ViewTag) : Option (SubaddressReceiveInfo × KyberSharedSecret) :=
  (d :: additionalDerivations[outputIndex]?.toList).findSome? fun d' =>
    (taggedSubaddresses c w field d' outputIndex).findSome? fun claimed =>
      confirmPqOutput c w outKey d additionalDerivations outputIndex field claimed viewTag true

/-- The derivations of the additional keys; the neutral element stands in where there is none. -/
def additionalDerivationsOf (keys : AccountKeys) (additional : List PublicKey) :
    List KeyDerivation :=
  additional.map fun pk => keyDerivationOrIdentity c pk keys.viewSecretKey

/-- `pq_tags_match_any`: a selection tag of the transaction names a subaddress of the wallet. Here a
transaction key that is no point is left out. -/
def pqTagsMatchAny (extra : Bytes) (fields : List (Option PqOutputField)) : Bool :=
  let mainDerivations := (txPubKeys (scanTxExtra extra)).filterMap fun pk =>
    generateKeyDerivation c pk w.keys.viewSecretKey
  let ds := additionalDerivationsOf c w.keys (getAdditionalTxPubKeysFromExtra extra)
  fields.zipIdx.any fun e => e.1.any fun field =>
    (mainDerivations ++ ds[e.2]?.toList).any fun d =>
      !(taggedSubaddresses c w field d e.2).isEmpty

/-- `recover_pq_spend_secret`. -/
def recoverPqSpendSecret (td : TransferDetails) : Option (KyberSharedSecret × KyberCiphertext) :=
  (getPqOutputFields w td.tx).bind fun fields =>
    (fields[td.internalOutputIndex.toNat]?.join).bind fun field =>
      (td.tx.vout[td.internalOutputIndex.toNat]?).bind fun out =>
        (getOutputPublicKey out).bind fun outKey =>
          (generateKeyDerivation c (getTxPubKeyFromExtra td.tx.extra td.pkIndex)
            w.keys.viewSecretKey).bind fun d =>
            (confirmPqOutput c w outKey d
              (additionalDerivationsOf c w.keys (getAdditionalTxPubKeysFromExtra td.tx.extra))
              td.internalOutputIndex.toNat field td.subaddrIndex (getOutputViewTag out) true).map
              fun r => (r.2, field.ct)

variable {c w} {outKey : PublicKey} {d : KeyDerivation} {ds : List KeyDerivation} {i : ℕ}
  {field : PqOutputField} {claimed : SubaddressIndex} {viewTag : Option ViewTag}
  {requireBinding : Bool} {r : SubaddressReceiveInfo} {ss : KyberSharedSecret}

theorem confirmPqOutput_eq_some :
    confirmPqOutput c w outKey d ds i field claimed viewTag requireBinding = some (r, ss) ↔
      ∃ sk tweak key, generatePqSubaddressKeys c w.keys claimed = some sk ∧
        c.pqcStealthDecaps sk field.ct = some ss ∧ deriveBqOutputTweak c ss i = some tweak ∧
        untweak c outKey tweak = some key ∧
        isOutToAccPrecomp c w.subaddresses key d ds i viewTag = some r ∧ r.index = claimed ∧
        (requireBinding = false ∨ bindsToUs c w outKey i field claimed ss = true) := by
  simp only [confirmPqOutput, Option.bind_eq_some_iff, Option.ite_none_right_eq_some,
    Option.some.injEq, Prod.mk.injEq]
  constructor
  · rintro ⟨sk, hsk, cand, hcand, tweak, htweak, key, hkey, r', hr', ⟨hindex, hbind⟩, rfl, rfl⟩
    exact ⟨sk, tweak, key, hsk, hcand, htweak, hkey, hr', hindex, hbind⟩
  · rintro ⟨sk, tweak, key, hsk, hcand, htweak, hkey, hr', hindex, hbind⟩
    exact ⟨sk, hsk, ss, hcand, tweak, htweak, key, hkey, r, hr', ⟨hindex, hbind⟩, rfl, rfl⟩

/-- A detected output is one that is confirmed for a subaddress of the wallet. -/
theorem confirmPqOutput_of_detect
    (h : detectPqOutput c w outKey d ds i field viewTag = some (r, ss)) :
    confirmPqOutput c w outKey d ds i field r.index viewTag true = some (r, ss) := by
  rw [detectPqOutput] at h
  obtain ⟨d', -, h⟩ := exists_of_findSome?_eq_some h
  obtain ⟨claimed, -, h⟩ := exists_of_findSome?_eq_some h
  obtain ⟨-, -, -, -, -, -, -, -, hindex, -⟩ := confirmPqOutput_eq_some.mp h
  rwa [hindex]

theorem bindsToUs_eq_true :
    bindsToUs c w outKey i field claimed ss = true ↔
      ∃ commit, getPqAuthCommit c w.keys claimed = some commit ∧
        field.bindTag = some (c.pqcComputeBindTagV2 cryptonotePqAddressAuthVer outKey commit
          (c.pqcComputeAuthBlind ss i)) := by
  rw [bindsToUs]
  split
  case h_1 tag commit htag hcommit =>
    simp only [htag, hcommit, beq_iff_eq, Option.some.injEq, exists_eq_left']
    exact eq_comm
  case h_2 hnone =>
    refine iff_of_false (by simp) ?_
    rintro ⟨commit, hcommit, htag⟩
    exact hnone _ _ htag hcommit

/-- What a recovered secret rests on. -/
theorem recoverPqSpendSecret_eq_some {td : TransferDetails} {ct : KyberCiphertext} :
    recoverPqSpendSecret c w td = some (ss, ct) ↔
      ∃ fields field out outKey d r, getPqOutputFields w td.tx = some fields ∧
        fields[td.internalOutputIndex.toNat]?.join = some field ∧
        td.tx.vout[td.internalOutputIndex.toNat]? = some out ∧
        getOutputPublicKey out = some outKey ∧
        generateKeyDerivation c (getTxPubKeyFromExtra td.tx.extra td.pkIndex)
          w.keys.viewSecretKey = some d ∧
        confirmPqOutput c w outKey d
          (additionalDerivationsOf c w.keys (getAdditionalTxPubKeysFromExtra td.tx.extra))
          td.internalOutputIndex.toNat field td.subaddrIndex (getOutputViewTag out) true =
            some (r, ss) ∧ field.ct = ct := by
  simp only [recoverPqSpendSecret, Option.bind_eq_some_iff, Option.map_eq_some_iff,
    Prod.mk.injEq]
  constructor
  · rintro ⟨fields, hfields, field, hfield, out, hout, outKey, hkey, d, hd, ⟨r, ss'⟩, hr, rfl, hct⟩
    exact ⟨fields, field, out, outKey, d, r, hfields, hfield, hout, hkey, hd, hr, hct⟩
  · rintro ⟨fields, field, out, outKey, d, r, hfields, hfield, hout, hkey, hd, hr, hct⟩
    exact ⟨fields, hfields, field, hfield, out, hout, outKey, hkey, d, hd, (r, ss), hr, rfl, hct⟩

end Confirm

/-! ### A wallet -/

/-- The keys of an account. -/
def toyKeys : AccountKeys where
  accountAddress :=
    { spendPublicKey := Blob.ofList 32 [5], viewPublicKey := Blob.ofList 32 [6]
      pqKyberPk := some default, pqAuthCommit := some default
      pqAuthVer := cryptonotePqAddressAuthVer }
  spendSecretKey := Blob.ofList 32 [5]
  viewSecretKey := Blob.ofList 32 [6]
  encryptionIv := default
  pqKeys := some ⟨default, default⟩
  pqDilithium := some ⟨default, default⟩

/-- A wallet of the account with its primary address. -/
def toyWallet : ScanWallet where
  keys := toyKeys
  subaddresses := [(toyKeys.accountAddress.spendPublicKey, ⟨0, 0⟩)]
  pqSubaddresses := [(default, ⟨0, 0⟩)]

theorem toyWallet_find {key : PublicKey} {index : SubaddressIndex}
    (h : toyWallet.subaddresses.find key = some index) :
    index = ⟨0, 0⟩ ∧ key = toyKeys.accountAddress.spendPublicKey := by
  simp only [SubaddressTable.find, toyWallet, lookup_cons, lookup_nil] at h
  split at h
  case h_1 heq => exact ⟨(Option.some.inj h).symm, beq_iff_eq.mp heq⟩
  case h_2 => cases h

theorem toyWallet_isOf : toyWallet.subaddresses.IsOf StealthCrypto.transparent toyKeys := by
  intro key index h
  obtain ⟨rfl, rfl⟩ := toyWallet_find h
  rfl

end Hidering
