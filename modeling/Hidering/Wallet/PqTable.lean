import Hidering.Basic.TxExtraCodec
import Hidering.Wallet.Subaddresses
import Mathlib.Data.List.Perm.Subperm
import Mathlib.Logic.Relation

/-!
# The table of fingerprints

The fingerprint table of a wallet is derived from the table of its subaddresses, whenever the secret
keys are not encrypted in memory. Whether it is complete is decided by comparing two sizes. The
tables are filled by `expand_subaddresses`, `create_one_off_subaddress` and
`update_pq_subaddresses`, with the keys locked or unlocked, and a call that throws leaves what it
has done so far.

As long as different subaddresses have different spend keys, equal sizes mean that every subaddress
has a fingerprint (`TableOk.complete`). The selection tags of a transaction are tried under all
transaction keys before any output is looked at; an output that is detected under one of them has
been among those tags (`detectPqOutput_eq_none`).

## Main definitions

* `Hidering.fillFingerprints`, `updatePqTable` — with what is left behind by an exception
* `Hidering.TableStep` — the calls that change the tables
* `Hidering.TableOk` — what holds of the tables at any time
* `Hidering.preparePqDetectionUnlocking`

## Main results

* `Hidering.TableOk.of_run`, `TableOk.complete`
* `Hidering.pqDetection_gate`
-/

namespace Hidering

open Wire StealthCrypto List

variable (c : StealthCrypto)

/-! ### The source functions -/

/-- The loop of `update_pq_subaddresses`: the table afterwards, and whether it ran to its end. -/
def fillFingerprints (keys : AccountKeys) :
    SubaddressTable → List (BqSelTag × SubaddressIndex) → List (BqSelTag × SubaddressIndex) × Bool
  | [], t => (t, true)
  | e :: es, t =>
    if t.any fun p => p.2 == e.2 then fillFingerprints keys es t
    else
      match generatePqSubaddressKeys c keys e.2 with
      | none => (t, false)
      | some sk => fillFingerprints keys es (t ++ [(c.pqcKemPkFingerprint sk.kyberPk, e.2)])

/-- `update_pq_subaddresses`, and whether it returns. -/
def updatePqTable (w : ScanWallet) : ScanWallet × Bool :=
  if w.keys.pqKeys = none ∨ w.multisig ∨ w.pqSubaddresses.length = w.subaddresses.length ∨
      pqSecretsUsable c w.keys = false then (w, true)
  else
    let r := fillFingerprints c w.keys w.subaddresses w.pqSubaddresses
    ({ w with pqSubaddresses := r.1 }, r.2)

/-- `expand_subaddresses` before the fingerprints are updated. -/
def SubaddressBook.expandTables (b : SubaddressBook) (index : SubaddressIndex) : SubaddressBook :=
  let labelled := { b with labels := resizeLabels b.labels index }
  let majorEnd := getSubaddressClampedSum (max labelled.labels.length 1 - 1) b.lookaheadMajor
  let entries := (List.range majorEnd).flatMap (accountEntries c labelled)
  { labelled with subaddresses := b.subaddresses.insertAll entries }

/-- `create_one_off_subaddress` before the fingerprints are updated. -/
def SubaddressBook.insertOneOff (b : SubaddressBook) (index : SubaddressIndex) : SubaddressBook :=
  { b with subaddresses :=
      b.subaddresses.insert (getSubaddressSpendPublicKey c b.keys index) index }

/-- The same account, with its secrets encrypted in memory or not: the view key and the address are
readable at any time. -/
structure SameAccount (keys keys' : AccountKeys) : Prop where
  address : keys'.accountAddress = keys.accountAddress
  viewSecretKey : keys'.viewSecretKey = keys.viewSecretKey
  isPq : keys'.pqKeys.isSome = keys.pqKeys.isSome

/-- The call of `update_pq_subaddresses` at the end of a step. The table of subaddresses is read in
an arbitrary order, and what it has done before an exception stays. -/
def Updates (b b' : SubaddressBook) : Prop :=
  ∃ order : SubaddressTable, order.Perm b.subaddresses ∧
    b' = { b with
      toScanWallet := (updatePqTable c { b.toScanWallet with subaddresses := order }).1 }

/-- What can happen to the tables. -/
inductive TableStep : SubaddressBook → SubaddressBook → Prop where
  | rekey {b : SubaddressBook} {keys : AccountKeys} : SameAccount b.keys keys →
      TableStep b { b with keys := keys }
  | expand {b b' : SubaddressBook} (index : SubaddressIndex) :
      Updates c (b.expandTables c index) b' → TableStep b b'
  | oneOff {b b' : SubaddressBook} (index : SubaddressIndex) :
      Updates c (b.insertOneOff c index) b' → TableStep b b'
  | update {b b' : SubaddressBook} : Updates c b b' → TableStep b b'

/-! ### The invariant of the tables -/

/-- The spend keys are those of the subaddresses, and fingerprints are there once, for subaddresses
of the table only. -/
structure TableOk (w : ScanWallet) : Prop where
  keyed : ∀ e ∈ w.subaddresses, e.1 = getSubaddressSpendPublicKey c w.keys e.2
  nodup : (w.subaddresses.map Prod.snd).Nodup
  fpNodup : (w.pqSubaddresses.map Prod.snd).Nodup
  fpSubset : w.pqSubaddresses.map Prod.snd ⊆ w.subaddresses.map Prod.snd

variable {c}

variable {w : ScanWallet}

/-- **Equal sizes mean a complete table.** -/
theorem TableOk.complete (h : TableOk c w) (hlen : w.pqSubaddresses.length = w.subaddresses.length)
    {e : PublicKey × SubaddressIndex}
    (he : e ∈ w.subaddresses) : ∃ p ∈ w.pqSubaddresses, p.2 = e.2 := by
  have hperm : (w.pqSubaddresses.map Prod.snd).Perm (w.subaddresses.map Prod.snd) := by
    refine (subperm_of_subset h.fpNodup h.fpSubset).perm_of_length_le ?_
    rw [length_map, length_map, hlen]
  exact mem_map.mp (hperm.mem_iff.mpr (mem_map_of_mem he))

theorem fillFingerprints_spec {keys : AccountKeys} {es : SubaddressTable}
    {t : List (BqSelTag × SubaddressIndex)} (h : (t.map Prod.snd).Nodup) :
    ((fillFingerprints c keys es t).1.map Prod.snd).Nodup ∧
      (fillFingerprints c keys es t).1.map Prod.snd ⊆ t.map Prod.snd ++ es.map Prod.snd := by
  induction es generalizing t with
  | nil => exact ⟨h, by simp [fillFingerprints]⟩
  | cons e es ih =>
    rw [fillFingerprints]
    split
    · obtain ⟨hnodup, hsub⟩ := ih h
      refine ⟨hnodup, List.Subset.trans hsub ?_⟩
      rw [map_cons, append_cons]
      exact append_subset.mpr ⟨subset_append_of_subset_left _
        (subset_append_left _ _), subset_append_right _ _⟩
    · next hnot =>
      split
      · exact ⟨h, subset_append_left _ _⟩
      · next sk hsk =>
        have hnew : ((t ++ [(c.pqcKemPkFingerprint sk.kyberPk, e.2)]).map Prod.snd).Nodup := by
          rw [map_append, map_singleton, nodup_append]
          refine ⟨h, by simp, ?_⟩
          rintro i hi j hj rfl
          obtain ⟨p, hp, rfl⟩ := mem_map.mp hi
          rw [mem_singleton] at hj
          exact hnot (any_eq_true.mpr ⟨p, hp, beq_iff_eq.mpr hj⟩)
        obtain ⟨hnodup, hsub⟩ := ih hnew
        refine ⟨hnodup, List.Subset.trans hsub ?_⟩
        rw [map_append, append_assoc]
        exact List.Subset.refl _

theorem getSubaddressSpendPublicKey_sameAccount {keys keys' : AccountKeys}
    (h : SameAccount keys keys') (index : SubaddressIndex) :
    getSubaddressSpendPublicKey c keys' index = getSubaddressSpendPublicKey c keys index := by
  rw [getSubaddressSpendPublicKey, getSubaddressSpendPublicKey, h.address, h.viewSecretKey]

/-- An entry is put in without an effect on the others, as no other subaddress has its key. -/
theorem TableOk.insert (h : TableOk c w)
    (hinj : Function.Injective (getSubaddressSpendPublicKey c w.keys)) (index : SubaddressIndex) :
    TableOk c { w with
        subaddresses := w.subaddresses.insert (getSubaddressSpendPublicKey c w.keys index) index } ∧
      w.subaddresses ⊆
        w.subaddresses.insert (getSubaddressSpendPublicKey c w.keys index) index := by
  rw [SubaddressTable.insert]
  split
  · -- the entry is there already
    have hsame : (w.subaddresses.map fun e =>
        if e.1 = getSubaddressSpendPublicKey c w.keys index then
          (getSubaddressSpendPublicKey c w.keys index, index) else e) = w.subaddresses := by
      refine (map_congr_left fun e he => ?_).trans (map_id _)
      split
      · next heq =>
        have hindex : e.2 = index := hinj ((h.keyed e he).symm.trans heq)
        exact Prod.ext heq.symm hindex.symm
      · rfl
    rw [hsame]
    exact ⟨h, List.Subset.refl _⟩
  · next hnone =>
    refine ⟨⟨?_, ?_, h.fpNodup, ?_⟩, subset_append_left _ _⟩
    · intro e he
      rcases mem_append.mp he with he | he
      · exact h.keyed e he
      · rw [mem_singleton.mp he]
    · rw [map_append, map_singleton, nodup_append]
      refine ⟨h.nodup, by simp, ?_⟩
      rintro i hi j hj rfl
      obtain ⟨e, he, rfl⟩ := mem_map.mp hi
      rw [mem_singleton] at hj
      refine hnone ?_
      rw [SubaddressTable.find, lookup_isSome_iff]
      have hindex : e.2 = index := hj
      exact ⟨e, he, by rw [beq_iff_eq, ← hindex, h.keyed e he]⟩
    · refine List.Subset.trans h.fpSubset ?_
      rw [map_append]
      exact subset_append_left _ _

theorem TableOk.insertAll (h : TableOk c w)
    (hinj : Function.Injective (getSubaddressSpendPublicKey c w.keys))
    {entries : List (PublicKey × SubaddressIndex)}
    (hentries : ∀ e ∈ entries, e.1 = getSubaddressSpendPublicKey c w.keys e.2) :
    TableOk c { w with subaddresses := w.subaddresses.insertAll entries } := by
  rw [SubaddressTable.insertAll]
  refine foldlRecOn entries (fun t e => SubaddressTable.insert t e.1 e.2)
    (motive := fun t => TableOk c { w with subaddresses := t }) h fun t ht e he => ?_
  rw [hentries e he]
  exact (ht.insert hinj e.2).1

theorem TableOk.perm (h : TableOk c w) {order : SubaddressTable}
    (horder : order.Perm w.subaddresses) : TableOk c { w with subaddresses := order } where
  keyed e he := h.keyed e (horder.mem_iff.mp he)
  nodup := (horder.map Prod.snd).nodup_iff.mpr h.nodup
  fpNodup := h.fpNodup
  fpSubset := fun _ hi => (horder.map Prod.snd).mem_iff.mpr (h.fpSubset hi)

theorem updatePqTable_same (w : ScanWallet) :
    (updatePqTable c w).1.keys = w.keys ∧ (updatePqTable c w).1.subaddresses = w.subaddresses := by
  rw [updatePqTable]
  split <;> exact ⟨rfl, rfl⟩

theorem TableOk.updatePqTable (h : TableOk c w) : TableOk c (updatePqTable c w).1 := by
  rw [Hidering.updatePqTable]
  split
  · exact h
  · obtain ⟨hnodup, hsub⟩ := @fillFingerprints_spec c w.keys w.subaddresses _ h.fpNodup
    exact ⟨h.keyed, h.nodup, hnodup,
      List.Subset.trans hsub (append_subset.mpr ⟨h.fpSubset, List.Subset.refl _⟩)⟩

variable {b b' : SubaddressBook}

theorem TableOk.updates (h : TableOk c b.toScanWallet)
    (hupdates : Updates c b b') : TableOk c b'.toScanWallet := by
  obtain ⟨order, horder, rfl⟩ := hupdates
  exact (h.perm horder).updatePqTable

/-- Different subaddresses of the account have different spend keys. -/
def DistinctKeys (c : StealthCrypto) (keys : AccountKeys) : Prop :=
  Function.Injective (getSubaddressSpendPublicKey c keys)

theorem SameAccount.refl (keys : AccountKeys) : SameAccount keys keys := ⟨rfl, rfl, rfl⟩

theorem SameAccount.trans {keys keys' keys'' : AccountKeys} (h : SameAccount keys keys')
    (h' : SameAccount keys' keys'') : SameAccount keys keys'' :=
  ⟨h'.address.trans h.address, h'.viewSecretKey.trans h.viewSecretKey, h'.isPq.trans h.isPq⟩

theorem SameAccount.distinctKeys {keys keys' : AccountKeys} (h : SameAccount keys keys')
    (hinj : DistinctKeys c keys) : DistinctKeys c keys' := by
  intro i j hij
  rw [getSubaddressSpendPublicKey_sameAccount h, getSubaddressSpendPublicKey_sameAccount h] at hij
  exact hinj hij

theorem Updates.keys_eq (h : Updates c b b') : b'.keys = b.keys := by
  obtain ⟨order, -, rfl⟩ := h
  exact (updatePqTable_same _).1

/-- **Steps.** Whatever call is made, and whether it returns or throws, the tables stay in order. -/
theorem TableOk.step (h : TableOk c b.toScanWallet) (hinj : DistinctKeys c b.keys)
    (hstep : TableStep c b b') : TableOk c b'.toScanWallet ∧ SameAccount b.keys b'.keys := by
  cases hstep with
  | rekey hsame =>
    refine ⟨⟨fun e he => ?_, h.nodup, h.fpNodup, h.fpSubset⟩, hsame⟩
    exact (h.keyed e he).trans (getSubaddressSpendPublicKey_sameAccount hsame e.2).symm
  | expand index hupdates =>
    have hentries : ∀ e ∈ (List.range (getSubaddressClampedSum
        (max (resizeLabels b.labels index).length 1 - 1) b.lookaheadMajor)).flatMap
          (accountEntries c { b with labels := resizeLabels b.labels index }),
        e.1 = getSubaddressSpendPublicKey c b.keys e.2 := by
      intro e he
      obtain ⟨major, -, he⟩ := mem_flatMap.mp he
      obtain ⟨minor, -, rfl⟩ := mem_map.mp he
      rfl
    refine ⟨TableOk.updates (h.insertAll hinj hentries) hupdates, ?_⟩
    rw [hupdates.keys_eq]
    exact .refl b.keys
  | oneOff index hupdates =>
    refine ⟨TableOk.updates (h.insert hinj index).1 hupdates, ?_⟩
    rw [hupdates.keys_eq]
    exact .refl b.keys
  | update hupdates =>
    refine ⟨h.updates hupdates, ?_⟩
    rw [hupdates.keys_eq]
    exact .refl b.keys

/-- **Runs.** -/
theorem TableOk.of_run (h : TableOk c b.toScanWallet) (hinj : DistinctKeys c b.keys)
    (hrun : Relation.ReflTransGen (TableStep c) b b') :
    TableOk c b'.toScanWallet ∧ SameAccount b.keys b'.keys := by
  induction hrun with
  | refl => exact ⟨h, .refl _⟩
  | tail _ hstep ih =>
    obtain ⟨hok, hsame⟩ := ih
    obtain ⟨hok', hsame'⟩ := hok.step (hsame.distinctKeys hinj) hstep
    exact ⟨hok', hsame.trans hsame'⟩

/-! ### The gate -/

section Gate

variable {w : ScanWallet} {extra : Bytes} {fields : List (Option PqOutputField)}

/-- The derivation under a transaction key. -/
def passDerivation (c : StealthCrypto) (keys : AccountKeys) (pk : PublicKey) : KeyDerivation :=
  keyDerivationOrIdentity c pk keys.viewSecretKey

/-- The additional derivations of a pass, which only the first one has. -/
def passAdditional (c : StealthCrypto) (keys : AccountKeys) (extra : Bytes) (pkIndex : ℕ) :
    List KeyDerivation :=
  if pkIndex = 0 then additionalDerivationsOf c keys (getAdditionalTxPubKeysFromExtra extra)
  else []

/-- If no selection tag names a subaddress, no output is detected on any pass. -/
theorem detectPqOutput_eq_none (hnone : pqTagsMatchAny c w extra fields = false)
    (hvalid : ∀ pk ∈ txPubKeys (scanTxExtra extra), c.checkKey pk = true) {pkIndex : ℕ}
    {pk : PublicKey} (hpk : (txPubKeys (scanTxExtra extra))[pkIndex]? = some pk) {i : ℕ}
    {field : PqOutputField} (hfield : fields[i]? = some (some field)) (outKey : PublicKey)
    (viewTag : Option ViewTag) :
    detectPqOutput c w outKey (passDerivation c w.keys pk) (passAdditional c w.keys extra pkIndex) i
      field viewTag = none := by
  rw [detectPqOutput, findSome?_eq_none_iff]
  intro d hd
  -- the derivation is one of those that the tags have been tried under
  have hmem : d ∈ (txPubKeys (scanTxExtra extra)).filterMap (fun pk =>
        generateKeyDerivation c pk w.keys.viewSecretKey) ++
      (additionalDerivationsOf c w.keys (getAdditionalTxPubKeysFromExtra extra))[i]?.toList := by
    rcases mem_cons.mp hd with rfl | hd
    · refine mem_append_left _ (mem_filterMap.mpr ⟨pk, mem_of_getElem? hpk, ?_⟩)
      rw [passDerivation, keyDerivationOrIdentity, generateKeyDerivation,
        if_pos (hvalid pk (mem_of_getElem? hpk)), Option.getD_some]
    · rw [passAdditional] at hd
      split at hd
      · exact mem_append_right _ hd
      · cases hd
  have hempty : taggedSubaddresses c w field d i = [] := by
    rw [pqTagsMatchAny, any_eq_false] at hnone
    have hfield' := hnone (some field, i) (mem_zipIdx_iff_getElem?.mpr hfield)
    simp only [Option.any_some, any_eq_true, not_exists, not_and] at hfield'
    simpa using hfield' d hmem
  rw [hempty]
  rfl

/-- `prepare_pq_detection` of a wallet whose keys can be unlocked, with the keys that
`unlock_keys_for_pq_scan` leaves; `none` where it throws. -/
def preparePqDetectionUnlocking (c : StealthCrypto) (w : ScanWallet) (unlocked : AccountKeys)
    (extra : Bytes) (fields : List (Option PqOutputField)) : Option (ScanWallet × Bool) :=
  let complete := w.pqSubaddresses.length == w.subaddresses.length
  if complete && !pqTagsMatchAny c w extra fields then some (w, false)
  else
    let w := { w with keys := unlocked }
    if complete then some (w, true)
    else
      let r := updatePqTable c w
      if r.2 then some (r.1, pqTagsMatchAny c r.1 extra fields) else none

/-- The wallet with unlocked keys and a completed table. -/
def completed (c : StealthCrypto) (w : ScanWallet) (unlocked : AccountKeys) : ScanWallet :=
  (updatePqTable c { w with keys := unlocked }).1

/-- A transaction that the gate turns away has no tag of the completed table. -/
theorem pqTagsMatchAny_completed {unlocked : AccountKeys} (hsame : SameAccount w.keys unlocked)
    {w' : ScanWallet}
    (h : preparePqDetectionUnlocking c w unlocked extra fields = some (w', false)) :
    pqTagsMatchAny c (completed c w unlocked) extra fields = false := by
  rw [preparePqDetectionUnlocking] at h
  simp only at h
  split at h
  · next hgate =>
    rw [Bool.and_eq_true, beq_iff_eq, Bool.not_eq_true'] at hgate
    have hkeep : completed c w unlocked = { w with keys := unlocked } := by
      rw [completed, updatePqTable, if_pos (.inr (.inr (.inl hgate.1)))]
    have hview := hsame.viewSecretKey
    rw [hkeep, ← hgate.2]
    simp only [pqTagsMatchAny, additionalDerivationsOf, hview, taggedSubaddresses]
  · split at h
    · cases h
    · split at h
      · exact (Prod.mk.inj (Option.some.inj h)).2
      · cases h

end Gate

/-- **The detection gate loses nothing.** From empty tables, over any calls with the keys locked or
unlocked: if the two sizes agree then every subaddress has a fingerprint. And if the gate turns a
transaction away, the keys being unlocked or not, then no output of it is detected on any pass with
the completed table. -/
theorem pqDetection_gate {b₀ b : SubaddressBook} (htable : b₀.subaddresses = [])
    (hfp : b₀.pqSubaddresses = []) (hinj : DistinctKeys c b₀.keys)
    (hrun : Relation.ReflTransGen (TableStep c) b₀ b) :
    (b.pqSubaddresses.length = b.subaddresses.length →
      ∀ e ∈ b.subaddresses, ∃ p ∈ b.pqSubaddresses, p.2 = e.2) ∧
    ∀ unlocked, SameAccount b.keys unlocked → pqSecretsUsable c unlocked = true →
      ∀ (tx : TransactionPrefix) (fields : List (Option PqOutputField)) (w' : ScanWallet),
        getPqOutputFields b.toScanWallet tx = some fields →
        (∀ pk ∈ txPubKeys (scanTxExtra tx.extra), c.checkKey pk = true) →
        preparePqDetectionUnlocking c b.toScanWallet unlocked tx.extra fields = some (w', false) →
        ∀ (pkIndex : ℕ) (pk : PublicKey), (txPubKeys (scanTxExtra tx.extra))[pkIndex]? = some pk →
          ∀ (i : ℕ) (field : PqOutputField), fields[i]? = some (some field) →
            ∀ (outKey : PublicKey) (viewTag : Option ViewTag),
              detectPqOutput c (completed c b.toScanWallet unlocked) outKey
                (passDerivation c unlocked pk) (passAdditional c unlocked tx.extra pkIndex) i field
                viewTag = none := by
  have hempty : TableOk c b₀.toScanWallet := by
    constructor <;> simp [htable, hfp]
  obtain ⟨hok, -⟩ := hempty.of_run hinj hrun
  refine ⟨fun hlen e he => hok.complete hlen he, ?_⟩
  intro unlocked hsame _ tx fields w' _ hvalid hprepare pkIndex pk hpk i field hfield outKey viewTag
  have hnone := pqTagsMatchAny_completed hsame hprepare
  have hkeys : (completed c b.toScanWallet unlocked).keys = unlocked := (updatePqTable_same _).1
  have hdetect := detectPqOutput_eq_none hnone hvalid hpk hfield outKey viewTag
  rwa [hkeys] at hdetect

/-! ### A wallet with different keys -/

/-- The bytes of an index. -/
def indexBytes (index : SubaddressIndex) : Bytes :=
  ((Format.le32.seq Format.le32).write (index.major, index.minor)).getD []

theorem indexBytes_injective : Function.Injective indexBytes := by
  intro i j hij
  have hwrite : ∀ index : SubaddressIndex,
      (Format.le32.seq Format.le32).write (index.major, index.minor) = some (indexBytes index) :=
    fun _ => rfl
  have hpair := (Format.seq_faithful Format.le32_faithful Format.le32_faithful).write_injective
    (hwrite i) (hij ▸ hwrite j)
  obtain ⟨hmajor, hminor⟩ := Prod.mk.inj hpair
  cases i
  cases j
  rw [SubaddressIndex.mk.injEq]
  exact ⟨hmajor, hminor⟩

/-- The transparent instance with the index as the spend key of a subaddress. -/
def StealthCrypto.indexed : StealthCrypto :=
  { transparent with
    toCrypto := { transparent.toCrypto with addKeys := fun _ b => b }
    scalarmultBase := id
    getSubaddressSecretKey := fun _ index => Blob.ofList 32 (1 :: indexBytes index) }

/-- An account with post-quantum keys. -/
def indexedKeys : AccountKeys where
  accountAddress := ⟨default, default, none, none, 0⟩
  spendSecretKey := default
  viewSecretKey := default
  encryptionIv := default
  pqKeys := some ⟨default, default⟩
  pqRoot := some default

theorem indexedKeys_distinct : DistinctKeys indexed indexedKeys := by
  have hkey : ∀ index : SubaddressIndex, index.isZero = false →
      (getSubaddressSpendPublicKey indexed indexedKeys index).bytes =
        1 :: indexBytes index ++ replicate 23 0 := by
    intro index hindex
    rw [getSubaddressSpendPublicKey, if_neg (by rw [hindex]; decide)]
    change (1 :: indexBytes index ++ replicate 32 0).take 32 = _
    rfl
  have hzero : ∀ index : SubaddressIndex, index.isZero = true →
      (getSubaddressSpendPublicKey indexed indexedKeys index).bytes = replicate 32 0 := by
    intro index hindex
    rw [getSubaddressSpendPublicKey, if_pos hindex]
    rfl
  intro i j hij
  have hbytes := congrArg Blob.bytes hij
  cases hi : i.isZero <;> cases hj : j.isZero
  · rw [hkey i hi, hkey j hj] at hbytes
    have hlen : (1 :: indexBytes i).length = (1 :: indexBytes j).length := rfl
    exact indexBytes_injective (List.cons.inj (append_inj_left hbytes hlen)).2
  · rw [hkey i hi, hzero j hj] at hbytes
    exact absurd (List.cons.inj hbytes).1 (by decide)
  · rw [hzero i hi, hkey j hj] at hbytes
    exact absurd (List.cons.inj hbytes).1 (by decide)
  · rw [SubaddressIndex.isZero, Bool.and_eq_true, beq_iff_eq, beq_iff_eq] at hi hj
    cases i
    cases j
    rw [SubaddressIndex.mk.injEq]
    exact ⟨hi.1.trans hj.1.symm, hi.2.trans hj.2.symm⟩

/-- A book with empty tables. -/
def emptyBook : SubaddressBook where
  keys := indexedKeys
  subaddresses := []
  labels := []
  lookaheadMajor := 1
  lookaheadMinor := 2

/-- The book after `expand_subaddresses` for the first account. -/
def firstBook : SubaddressBook :=
  let b := emptyBook.expandTables indexed ⟨0, 0⟩
  { b with toScanWallet := (updatePqTable indexed b.toScanWallet).1 }

/-- The ciphertext for a fingerprint that the wallet does not have. -/
def foreignField : PqOutputField := ⟨Blob.ofList _ [9], default, none⟩

/-- A transaction with an output for it. -/
def foreignTx : TransactionPrefix where
  version := 2
  vin := []
  vout := [⟨7, .toKey default⟩]
  extra := (writeTxExtra [.pubKey default,
    .kyberCt 0 foreignField.selTag foreignField.ct]).getD []

/-- The table of the first account is complete. The gate turns the transaction away, and its output
is not detected. -/
theorem pqDetection_gate_first :
    Relation.ReflTransGen (TableStep indexed) emptyBook firstBook ∧
      firstBook.subaddresses.length = 2 ∧ firstBook.pqSubaddresses.length = 2 ∧
      (∀ e ∈ firstBook.subaddresses, ∃ p ∈ firstBook.pqSubaddresses, p.2 = e.2) ∧
      getPqOutputFields firstBook.toScanWallet foreignTx = some [some foreignField] ∧
      preparePqDetectionUnlocking indexed firstBook.toScanWallet indexedKeys foreignTx.extra
        [some foreignField] = some (firstBook.toScanWallet, false) ∧
      ∀ outKey viewTag, detectPqOutput indexed
        (completed indexed firstBook.toScanWallet indexedKeys) outKey
        (passDerivation indexed indexedKeys default)
        (passAdditional indexed indexedKeys foreignTx.extra 0) 0 foreignField viewTag = none := by
  have hrun : Relation.ReflTransGen (TableStep indexed) emptyBook firstBook :=
    .single (.expand ⟨0, 0⟩ ⟨_, .refl _, rfl⟩)
  have hfields : getPqOutputFields firstBook.toScanWallet foreignTx =
      some [some foreignField] := by decide +kernel
  have haway : preparePqDetectionUnlocking indexed firstBook.toScanWallet indexedKeys
      foreignTx.extra [some foreignField] = some (firstBook.toScanWallet, false) := by
    rw [preparePqDetectionUnlocking]
    exact if_pos (by decide +kernel)
  obtain ⟨hcomplete, hnone⟩ := pqDetection_gate rfl rfl indexedKeys_distinct hrun
  exact ⟨hrun, by decide +kernel, by decide +kernel, hcomplete (by decide +kernel), hfields, haway,
    hnone indexedKeys ⟨rfl, rfl, rfl⟩ (by decide +kernel) foreignTx _ _ hfields
      (by decide +kernel) haway 0 default (by decide +kernel) 0 foreignField rfl⟩

end Hidering
