import Hidering.Store.SideTable
import Hidering.Wallet.Detect
import Hidering.Basic.TxExtraCodec

/-!
# Cold signing

An online wallet writes the data of its pending transactions to a file (`dumpTxToStr`), an offline
wallet with the same account reads it (`parseUnsignedTxFromStr`) and constructs the transactions.
The serializers of sources and addresses leave the post-quantum fields out. A side table, one entry
for each transaction, carries the ML-KEM ciphertexts of the sources and the ML-KEM keys of the
addresses by position, and `restorePqConstructionData` puts them back: it decapsulates the
ciphertexts itself and checks that each source belongs to the subaddress that the table names.

The table has no place for the authorisation commitments of the addresses and their versions, so
they are lost.

The binary archive is represented by what is left of a value that is written and read back.

## Main definitions

* `Hidering.UnsignedTxSet`, `Hidering.UnsignedTxSet.archive`
* `Hidering.dumpTxToStr`, `parseUnsignedTxFromStr`, `restorePqConstructionData`
* `Hidering.TxConstructionData.input` — what the construction of a transaction reads

## Main results

* `Hidering.coldSigning_restores_iff` — the offline wallet gets the construction data of the online
  one back exactly if no address has authorisation data and no source is claimed by another
  subaddress first
-/

namespace Hidering

open Wire Store StealthCrypto List

/-! ### Construction data -/

/-- `tx_construction_data`, without the bookkeeping of the wallet. -/
structure TxConstructionData where
  sources : List TxSourceEntry
  changeDts : TxDestinationEntry
  splittedDsts : List TxDestinationEntry
  extra : Bytes
  unlockTime : UInt64
  useRct : Bool
  /-- `rct_config` -/
  rangeProofType : ℕ
  bpVersion : ℕ
  useViewTags : Bool
  dests : List TxDestinationEntry

/-- What is left of an address that is written and read back. -/
def AccountPublicAddress.readBack (a : AccountPublicAddress) : AccountPublicAddress :=
  { spendPublicKey := a.spendPublicKey, viewPublicKey := a.viewPublicKey }

/-- What is left of a source. -/
def TxSourceEntry.readBack (s : TxSourceEntry) : TxSourceEntry :=
  { s with isPq := false, pqSs := none, pqCt := none, pqSubaddr := none }

/-- What is left of a destination. -/
def TxDestinationEntry.readBack (d : TxDestinationEntry) : TxDestinationEntry :=
  { d with addr := d.addr.readBack, isPq := false }

/-- What is left of the data of a transaction. -/
def TxConstructionData.readBack (sd : TxConstructionData) : TxConstructionData :=
  { sd with
    sources := sd.sources.map TxSourceEntry.readBack
    changeDts := sd.changeDts.readBack
    splittedDsts := sd.splittedDsts.map TxDestinationEntry.readBack
    dests := sd.dests.map TxDestinationEntry.readBack }

/-- `construct_tx` does not read the ciphertext of a source. -/
def TxSourceEntry.input (s : TxSourceEntry) : TxSourceEntry := { s with pqCt := none }

/-- `construct_tx` sets the flag of a destination from its address. -/
def TxDestinationEntry.input (d : TxDestinationEntry) : TxDestinationEntry :=
  { d with isPq := d.addr.isPq }

/-- What the construction of the transaction reads. -/
def TxConstructionData.input (sd : TxConstructionData) : TxConstructionData :=
  { sd with
    sources := sd.sources.map TxSourceEntry.input
    changeDts := sd.changeDts.input
    splittedDsts := sd.splittedDsts.map TxDestinationEntry.input
    dests := sd.dests.map TxDestinationEntry.input }

/-! ### The side table -/

/-- The data of a `pq_source_ct` beside its index. -/
structure PqSourceCt where
  ct : KyberCiphertext
  subaddr : SubaddressIndex

/-- `tx_pq_data`. -/
structure TxPqData where
  sourceCts : List (ℕ × PqSourceCt)
  destKemPks : List (ℕ × Bytes)
  origDestKemPks : List (ℕ × Bytes)
  changeKemPk : Bytes

/-- `empty`. -/
def TxPqData.isEmpty (pd : TxPqData) : Bool :=
  pd.sourceCts.isEmpty && pd.destKemPks.isEmpty && pd.origDestKemPks.isEmpty &&
    pd.changeKemPk.isEmpty

/-- `unsigned_tx_set`, without the exported outputs. -/
structure UnsignedTxSet where
  txes : List TxConstructionData
  pqHfVersion : UInt8
  pqData : List TxPqData

/-- `has_pq_data`. -/
def UnsignedTxSet.hasPqData (txs : UnsignedTxSet) : Bool := txs.pqData.any fun d => !d.isEmpty

/-- What a reader of the binary archive gets. Only version 4 has the side table, and a source
without a real output makes the archive fail. -/
def UnsignedTxSet.archive (txs : UnsignedTxSet) : Option UnsignedTxSet :=
  if txs.txes.all fun sd => sd.sources.all fun s => s.realOutput < s.outputs.length then
    some
      { txes := txs.txes.map TxConstructionData.readBack
        pqHfVersion := txs.pqHfVersion
        pqData := if txs.hasPqData then txs.pqData else [] }
  else none

/-- The entry of a post-quantum source. -/
def sourceEntry (s : TxSourceEntry) : Option PqSourceCt :=
  if s.isPq then s.pqCt.bind fun ct => s.pqSubaddr.map fun subaddr => ⟨ct, subaddr⟩ else none

/-- A post-quantum source that cannot be described makes the export throw. -/
def sourceExportable (s : TxSourceEntry) : Bool :=
  !s.isPq || (s.pqCt.isSome && s.pqSubaddr.isSome)

/-- The bytes of the ML-KEM key of a destination. -/
def destEntry (d : TxDestinationEntry) : Option Bytes := d.addr.pqKyberPk.map Blob.bytes

/-- The side table of a transaction. -/
def pqDataOf (sd : TxConstructionData) : TxPqData :=
  { sourceCts := sideEntries sourceEntry sd.sources
    destKemPks := sideEntries destEntry sd.splittedDsts
    origDestKemPks := sideEntries destEntry sd.dests
    changeKemPk := (destEntry sd.changeDts).getD [] }

/-! ### The file -/

/-- `encrypt_with_view_secret_key` and its inverse, over the archive. -/
structure ViewCipher where
  Sealed : Type
  encrypt : ChachaIv → SecretKey → UnsignedTxSet → Sealed
  decrypt : SecretKey → Sealed → Option UnsignedTxSet
  decrypt_encrypt : ∀ iv key txs, decrypt key (encrypt iv key txs) = some txs

/-- The contents of the file behind the magic string. -/
structure UnsignedTxFile (vc : ViewCipher) where
  version : UInt8
  ciphertext : vc.Sealed

/-- `dump_tx_to_str`; nothing if it throws or returns the empty string. -/
def dumpTxToStr (vc : ViewCipher) (iv : ChachaIv) (keys : AccountKeys) (pqHfVersion : UInt8)
    (txes : List TxConstructionData) : Option (UnsignedTxFile vc) :=
  if txes.all fun sd => sd.sources.all sourceExportable then
    let txs : UnsignedTxSet := { txes, pqHfVersion, pqData := txes.map pqDataOf }
    txs.archive.map fun archive =>
      { version := if txs.hasPqData then 6 else 5
        ciphertext := vc.encrypt iv keys.viewSecretKey archive }
  else none

/-- `parse_unsigned_tx_from_str`. -/
def parseUnsignedTxFromStr (vc : ViewCipher) (keys : AccountKeys) (file : UnsignedTxFile vc) :
    Option UnsignedTxSet :=
  if file.version = 5 ∨ file.version = 6 then vc.decrypt keys.viewSecretKey file.ciphertext
  else none

/-! ### Putting the fields back -/

/-- `restore_dsts` for one entry. -/
def fillDest (kemPk : Bytes) (d : TxDestinationEntry) : Option TxDestinationEntry :=
  if h : kemPk.length = mlKem768PublicKeyBytes then
    some { d with addr := { d.addr with pqKyberPk := some ⟨kemPk, h⟩ }, isPq := true }
  else none

section Restore

variable (c : StealthCrypto) (w : ScanWallet)

/-- The loop over the sources for one entry: decapsulate and make sure that the output belongs to
the named subaddress. The binding tag is not at hand and is not checked. -/
def fillSource (e : PqSourceCt) (src : TxSourceEntry) : Option TxSourceEntry :=
  src.outputs[src.realOutput]?.bind fun out =>
    (generateKeyDerivation c src.realOutTxKey w.keys.viewSecretKey).bind fun d =>
      (confirmPqOutput c w out.2.dest d
        (additionalDerivationsOf c w.keys src.realOutAdditionalTxKeys)
        src.realOutputInTxIndex.toNat { selTag := default, ct := e.ct } e.subaddr none false).map
        fun r => { src with isPq := true, pqSs := some r.2, pqCt := some e.ct
                            pqSubaddr := some e.subaddr }

/-- The change: an empty key stands for a classic address. -/
def restoreChange (kemPk : Bytes) (d : TxDestinationEntry) : Option TxDestinationEntry :=
  if kemPk = [] then some d else fillDest kemPk d

/-- The body of the loop over the transactions. -/
def restoreTx (sd : TxConstructionData) (pd : TxPqData) : Option TxConstructionData :=
  if pd.sourceCts ≠ [] ∧ w.keys.pqKeys = none then none
  else
    (patch (fillSource c w) pd.sourceCts sd.sources).bind fun sources =>
      (patch fillDest pd.destKemPks sd.splittedDsts).bind fun splittedDsts =>
        (patch fillDest pd.origDestKemPks sd.dests).bind fun dests =>
          (restoreChange pd.changeKemPk sd.changeDts).map fun changeDts =>
            { sd with sources, splittedDsts, dests, changeDts }

/-- `restore_pq_construction_data`; nothing if it throws. -/
def restorePqConstructionData (txs : UnsignedTxSet) : Option UnsignedTxSet :=
  if txs.pqData = [] then some txs
  else if txs.pqData.length ≠ txs.txes.length then none
  else
    ((txs.txes.zip txs.pqData).mapM fun p => restoreTx c w p.1 p.2).map fun txes =>
      { txs with txes }

/-! ### Destinations -/

/-- The address has neither an authorisation commitment nor a version for it. -/
def AccountPublicAddress.NoAuth (a : AccountPublicAddress) : Prop :=
  a.pqAuthCommit = none ∧ a.pqAuthVer = 0

/-- A destination comes back with its ML-KEM key. -/
theorem patchOne_dest (d : TxDestinationEntry) :
    patchOne destEntry fillDest TxDestinationEntry.readBack d =
      some { d with
        addr := { d.addr.readBack with pqKyberPk := d.addr.pqKyberPk }, isPq := d.addr.isPq } := by
  rw [patchOne, destEntry, AccountPublicAddress.isPq]
  cases d.addr.pqKyberPk with
  | none => rfl
  | some pk =>
    have hlen : pk.bytes.length = mlKem768PublicKeyBytes := pk.length_bytes
    simp only [Option.map_some, Option.elim_some, fillDest, dif_pos hlen]
    rfl

theorem patchOne_dest_iff (d : TxDestinationEntry) :
    (∃ d', patchOne destEntry fillDest TxDestinationEntry.readBack d = some d' ∧
      d'.input = d.input) ↔ d.addr.NoAuth := by
  obtain ⟨amount, ⟨spend, view, pk, commit, ver⟩, sub, int, pq⟩ := d
  rw [patchOne_dest]
  simp only [Option.some.injEq, exists_eq_left', TxDestinationEntry.input,
    AccountPublicAddress.readBack, AccountPublicAddress.NoAuth, AccountPublicAddress.isPq]
  simp [eq_comm]

theorem restoreChange_eq (d : TxDestinationEntry) :
    restoreChange ((destEntry d).getD []) d.readBack =
      patchOne destEntry fillDest TxDestinationEntry.readBack d := by
  rw [restoreChange, patchOne]
  cases hentry : destEntry d with
  | none => rfl
  | some bytes =>
    obtain ⟨pk, -, rfl⟩ := Option.map_eq_some_iff.mp hentry
    have hne : pk.bytes ≠ [] := by
      rw [← length_pos_iff, pk.length_bytes]
      decide
    simp only [Option.getD_some, if_neg hne, Option.elim_some]

/-! ### Sources -/

variable {c w}

/-- The source is the one that the source loop of the wallet makes of one of its transfers. -/
def FromWallet (c : StealthCrypto) (w : ScanWallet) (src : TxSourceEntry) : Prop :=
  ∃ fakeOutputsCount td row,
    SourceMatches ⟨c.toCrypto, w.multisig, recoverPqSpendSecret c w⟩ fakeOutputsCount td row src

/-- Keys of one account, as far as cold signing reads them: spend secrets are not among them. -/
structure AccountKeys.SameView (off on : AccountKeys) : Prop where
  view : off.viewSecretKey = on.viewSecretKey
  kem : off.pqKeys = on.pqKeys
  root : off.pqRoot = on.pqRoot

theorem AccountKeys.SameView.generatePqSubaddressKeys_eq {off on : AccountKeys}
    (h : off.SameView on) (index : SubaddressIndex) :
    generatePqSubaddressKeys c off index = generatePqSubaddressKeys c on index := by
  rw [generatePqSubaddressKeys, h.kem, h.root, generatePqSubaddressKeys]

/-- Under the derivation of the transaction key, the table has no other subaddress for the output
than the one that the source names. -/
def ClaimedFirst (c : StealthCrypto) (w : ScanWallet) (src : TxSourceEntry) : Prop :=
  ∀ ss tweak out key d index, src.pqSs = some ss →
    deriveBqOutputTweak c ss src.realOutputInTxIndex.toNat = some tweak →
    src.outputs[src.realOutput]? = some out → untweak c out.2.dest tweak = some key →
    generateKeyDerivation c src.realOutTxKey w.keys.viewSecretKey = some d →
    w.subaddresses.find (spendKeyUnder c key d src.realOutputInTxIndex.toNat) = some index →
    src.pqSubaddr = some index

/-- The offline table finds the subaddress that the online one has found, unless the transaction
key leads it to another one first. -/
theorem isOutToAccPrecomp_other_table {on off : SubaddressTable} {keys : AccountKeys}
    {outKey : PublicKey} {d : KeyDerivation} {ds : List KeyDerivation} {i : ℕ}
    {viewTag : Option ViewTag} {r : SubaddressReceiveInfo} (htable : on.IsOf c keys)
    (hon : isOutToAccPrecomp c on outKey d ds i viewTag = some r)
    (hnamed : off.find (getSubaddressSpendPublicKey c keys r.index) = some r.index) :
    (∃ r', isOutToAccPrecomp c off outKey d ds i none = some r' ∧ r'.index = r.index) ↔
      ∀ index, off.find (spendKeyUnder c outKey d i) = some index → index = r.index := by
  have hkey := checkKey_of_isOutToAccPrecomp hon
  rw [isOutToAccPrecomp_eq hkey, Option.or_eq_some_iff] at hon
  rw [isOutToAccPrecomp_eq hkey, findUnder_none_tag]
  cases hmain : off.find (spendKeyUnder c outKey d i) with
  | some index => simp
  | none =>
    refine iff_of_true ?_ (by simp)
    rcases hon with hfound | ⟨-, hfound⟩
    · obtain ⟨-, hfind, -⟩ := findUnder_eq_some.mp hfound
      rw [htable _ _ hfind, hnamed] at hmain
      cases hmain
    · obtain ⟨d', hd', hfound⟩ := Option.bind_eq_some_iff.mp hfound
      obtain ⟨-, hfind, -⟩ := findUnder_eq_some.mp hfound
      have hoff : off.find (spendKeyUnder c outKey d' i) = some r.index := by
        rw [htable _ _ hfind, hnamed]
      simp [hd', findUnder_none_tag, hoff]

/-- The source as `construct_tx` reads it comes back exactly if its subaddress is found first. -/
theorem patchOne_source_iff {on off : ScanWallet} (hkeys : off.keys.SameView on.keys)
    (htable : on.subaddresses.IsOf c on.keys) {src : TxSourceEntry} (hsrc : FromWallet c on src)
    (hnamed : ∀ index, src.pqSubaddr = some index →
      off.subaddresses.find (getSubaddressSpendPublicKey c on.keys index) = some index) :
    (∃ src', patchOne sourceEntry (fillSource c off) TxSourceEntry.readBack src = some src' ∧
      src'.input = src.input) ↔ ClaimedFirst c off src := by
  obtain ⟨fakeOutputsCount, td, row, hmatch⟩ := hsrc
  have hpq := hmatch.isPq
  have hss := hmatch.pqSs
  have hct := hmatch.pqCt
  have hsub := hmatch.pqSubaddr
  cases hrecover : recoverPqSpendSecret c on td with
  | none =>
    -- a classic source has nothing to lose
    simp only [hrecover, Option.isSome_none, Option.map_none] at hpq hss hct hsub
    refine iff_of_true ⟨src.readBack, ?_, ?_⟩ ?_
    · rw [patchOne, sourceEntry, hpq]
      rfl
    · simp [TxSourceEntry.input, TxSourceEntry.readBack, hpq, hss, hsub]
    · intro ss tweak out key d index hss'
      rw [hss] at hss'
      cases hss'
  | some rec =>
    obtain ⟨ss, ct⟩ := rec
    simp only [hrecover, Option.isSome_some, Option.map_some] at hpq hss hct hsub
    obtain ⟨fields, field, out, outKey, d, r, -, -, hout, hkey, hd, hconfirm, rfl⟩ :=
      recoverPqSpendSecret_eq_some.mp hrecover
    obtain ⟨sk, tweak, plain, hsk, hdecaps, htweak, hplain, hon, hindex, -⟩ :=
      confirmPqOutput_eq_some.mp hconfirm
    obtain ⟨key, hgetkey, hreal⟩ := hmatch.real
    obtain rfl : outKey = key := by
      rw [TransferDetails.getPublicKey, hout, Option.bind_some, hkey] at hgetkey
      exact Option.some.inj hgetkey
    rw [← hmatch.realOutAdditionalTxKeys, ← hmatch.realOutputInTxIndex] at hon
    rw [← hmatch.realOutputInTxIndex] at htweak
    rw [← hmatch.realOutTxKey] at hd
    have hfirst : ClaimedFirst c off src ↔ ∀ index, off.subaddresses.find
        (spendKeyUnder c plain d src.realOutputInTxIndex.toNat) = some index → index = r.index := by
      rw [hindex]
      constructor
      · intro h index hfind
        have hsome := h ss tweak _ plain d index hss htweak hreal hplain
          (by rw [hkeys.view]; exact hd) hfind
        rw [hsub, Option.some.injEq] at hsome
        exact hsome.symm
      · intro h ss' tweak' out' plain' d' index hss' htweak' hout' hplain' hd' hfind
        obtain rfl : ss = ss' := Option.some.inj (hss.symm.trans hss')
        obtain rfl : tweak = tweak' := Option.some.inj (htweak.symm.trans htweak')
        obtain rfl := Option.some.inj (hreal.symm.trans hout')
        obtain rfl : plain = plain' := Option.some.inj (hplain.symm.trans hplain')
        rw [hkeys.view, hd, Option.some.injEq] at hd'
        subst hd'
        rw [hsub, h index hfind]
    have hentry : sourceEntry src = some ⟨field.ct, td.subaddrIndex⟩ := by
      rw [sourceEntry, hpq, if_pos rfl, hct, hsub]
      rfl
    have hnamed' := hnamed r.index (by rw [hsub, hindex])
    rw [hfirst, ← isOutToAccPrecomp_other_table htable hon hnamed', patchOne, hentry,
      Option.elim_some]
    -- both sides ask whether the offline wallet confirms the output
    have hfill : fillSource c off ⟨field.ct, td.subaddrIndex⟩ src.readBack =
        (confirmPqOutput c off outKey d
          (additionalDerivationsOf c on.keys src.realOutAdditionalTxKeys)
          src.realOutputInTxIndex.toNat { selTag := default, ct := field.ct } td.subaddrIndex none
          false).map fun r => { src with isPq := true, pqSs := some r.2, pqCt := some field.ct
                                         pqSubaddr := some td.subaddrIndex } := by
      have hreal' : src.readBack.outputs[src.readBack.realOutput]? =
          some (realOutputEntry _ td outKey) := hreal
      have hd' : generateKeyDerivation c src.readBack.realOutTxKey off.keys.viewSecretKey =
          some d := by
        rw [hkeys.view]
        exact hd
      rw [fillSource, hreal', Option.bind_some, hd', Option.bind_some, additionalDerivationsOf,
        hkeys.view]
      rfl
    rw [hfill]
    constructor
    · rintro ⟨src', hsome, -⟩
      obtain ⟨⟨r', ss'⟩, hr', -⟩ := Option.map_eq_some_iff.mp hsome
      obtain ⟨sk', tweak', plain', hsk', hdecaps', htweak', hplain', hoff, hindex', -⟩ :=
        confirmPqOutput_eq_some.mp hr'
      rw [hkeys.generatePqSubaddressKeys_eq, hsk, Option.some.injEq] at hsk'
      subst hsk'
      obtain rfl : ss = ss' := Option.some.inj (hdecaps.symm.trans hdecaps')
      obtain rfl : tweak = tweak' := Option.some.inj (htweak.symm.trans htweak')
      obtain rfl : plain = plain' := Option.some.inj (hplain.symm.trans hplain')
      exact ⟨r', hoff, hindex'.trans hindex.symm⟩
    · rintro ⟨r', hoff, hindex'⟩
      have hconfirm' : confirmPqOutput c off outKey d
          (additionalDerivationsOf c on.keys src.realOutAdditionalTxKeys)
          src.realOutputInTxIndex.toNat { selTag := default, ct := field.ct } td.subaddrIndex none
          false = some (r', ss) :=
        confirmPqOutput_eq_some.mpr ⟨sk, tweak, plain,
          by rw [hkeys.generatePqSubaddressKeys_eq]; exact hsk, hdecaps, htweak, hplain, hoff, hindex'.trans hindex, .inl rfl⟩
      refine ⟨_, by rw [hconfirm', Option.map_some], ?_⟩
      simp [TxSourceEntry.input, hpq, hss, hsub]

/-- The ML-KEM keys that made a source are there. -/
theorem FromWallet.pqKeys_ne_none {on : ScanWallet} {src : TxSourceEntry}
    (hsrc : FromWallet c on src) {e : PqSourceCt} (he : sourceEntry src = some e) :
    on.keys.pqKeys ≠ none := by
  obtain ⟨fakeOutputsCount, td, row, hmatch⟩ := hsrc
  intro hnone
  have hrecover : recoverPqSpendSecret c on td = none := by
    rw [recoverPqSpendSecret, getPqOutputFields, if_pos (.inl hnone)]
    rfl
  have hpq := hmatch.isPq
  simp only [hrecover, Option.isSome_none] at hpq
  rw [sourceEntry, hpq] at he
  cases he

/-! ### Transactions -/

/-- No address of the transaction has authorisation data. -/
def TxConstructionData.NoAuth (sd : TxConstructionData) : Prop :=
  (∀ d ∈ sd.splittedDsts, d.addr.NoAuth) ∧ (∀ d ∈ sd.dests, d.addr.NoAuth) ∧
    sd.changeDts.addr.NoAuth

/-- What the construction reads of the parts. -/
theorem input_eq_iff (sd : TxConstructionData) (sources : List TxSourceEntry)
    (splittedDsts dests : List TxDestinationEntry) (changeDts : TxDestinationEntry) :
    TxConstructionData.input { sd.readBack with sources, splittedDsts, dests, changeDts } =
        sd.input ↔
      sources.map TxSourceEntry.input = sd.sources.map TxSourceEntry.input ∧
      splittedDsts.map TxDestinationEntry.input = sd.splittedDsts.map TxDestinationEntry.input ∧
      dests.map TxDestinationEntry.input = sd.dests.map TxDestinationEntry.input ∧
      changeDts.input = sd.changeDts.input := by
  simp only [TxConstructionData.input, TxConstructionData.readBack, TxConstructionData.mk.injEq,
    true_and]
  tauto

theorem restoreTx_iff {on off : ScanWallet} (hkeys : off.keys.SameView on.keys)
    (htable : on.subaddresses.IsOf c on.keys) {sd : TxConstructionData}
    (hsources : ∀ src ∈ sd.sources, FromWallet c on src)
    (hnamed : ∀ src ∈ sd.sources, ∀ index, src.pqSubaddr = some index →
      off.subaddresses.find (getSubaddressSpendPublicKey c on.keys index) = some index) :
    (∃ sd', restoreTx c off sd.readBack (pqDataOf sd) = some sd' ∧ sd'.input = sd.input) ↔
      sd.NoAuth ∧ ∀ src ∈ sd.sources, ClaimedFirst c off src := by
  have hown : ¬ ((pqDataOf sd).sourceCts ≠ [] ∧ off.keys.pqKeys = none) := by
    rintro ⟨hne, hnone⟩
    refine hne (sideEntries_eq_nil.mpr fun src hsrc => ?_)
    by_contra hsome
    obtain ⟨e, he⟩ := Option.ne_none_iff_exists'.mp hsome
    exact (hsources src hsrc).pqKeys_ne_none he (hkeys.kem ▸ hnone)
  have hparts : restoreTx c off sd.readBack (pqDataOf sd) =
      (sd.sources.mapM (patchOne sourceEntry (fillSource c off) TxSourceEntry.readBack)).bind
        fun sources => (sd.splittedDsts.mapM
          (patchOne destEntry fillDest TxDestinationEntry.readBack)).bind fun splittedDsts =>
          (sd.dests.mapM (patchOne destEntry fillDest TxDestinationEntry.readBack)).bind
            fun dests => (patchOne destEntry fillDest TxDestinationEntry.readBack
              sd.changeDts).map fun changeDts =>
                { sd.readBack with sources, splittedDsts, dests, changeDts } := by
    rw [restoreTx, if_neg hown, ← patch_sideEntries, ← patch_sideEntries, ← patch_sideEntries,
      ← restoreChange_eq]
    rfl
  have hsrcs : (∃ l, sd.sources.mapM (patchOne sourceEntry (fillSource c off)
      TxSourceEntry.readBack) = some l ∧ l.map TxSourceEntry.input =
        sd.sources.map TxSourceEntry.input) ↔ ∀ src ∈ sd.sources, ClaimedFirst c off src := by
    rw [exists_mapM_map_iff]
    exact forall₂_congr fun src hsrc =>
      patchOne_source_iff hkeys htable (hsources src hsrc) (hnamed src hsrc)
  have hdsts : ∀ dsts : List TxDestinationEntry, (∃ l, dsts.mapM (patchOne destEntry fillDest
      TxDestinationEntry.readBack) = some l ∧ l.map TxDestinationEntry.input =
        dsts.map TxDestinationEntry.input) ↔ ∀ d ∈ dsts, d.addr.NoAuth := by
    intro dsts
    rw [exists_mapM_map_iff]
    exact forall₂_congr fun d _ => patchOne_dest_iff d
  rw [TxConstructionData.NoAuth, ← hdsts, ← hdsts, ← patchOne_dest_iff, ← hsrcs, hparts]
  constructor
  · rintro ⟨sd', hsome, hinput⟩
    obtain ⟨sources, hs, hsome⟩ := Option.bind_eq_some_iff.mp hsome
    obtain ⟨splittedDsts, hsp, hsome⟩ := Option.bind_eq_some_iff.mp hsome
    obtain ⟨dests, hde, hsome⟩ := Option.bind_eq_some_iff.mp hsome
    obtain ⟨changeDts, hch, rfl⟩ := Option.map_eq_some_iff.mp hsome
    obtain ⟨h₁, h₂, h₃, h₄⟩ := (input_eq_iff ..).mp hinput
    exact ⟨⟨⟨splittedDsts, hsp, h₂⟩, ⟨dests, hde, h₃⟩, changeDts, hch, h₄⟩, sources, hs, h₁⟩
  · rintro ⟨⟨⟨splittedDsts, hsp, h₂⟩, ⟨dests, hde, h₃⟩, changeDts, hch, h₄⟩, sources, hs, h₁⟩
    refine ⟨_, ?_, (input_eq_iff sd sources splittedDsts dests changeDts).mpr ⟨h₁, h₂, h₃, h₄⟩⟩
    rw [hs, hsp, hde, hch]
    rfl

/-- A side table without entries changes nothing. -/
theorem restoreTx_of_isEmpty {sd : TxConstructionData} {pd : TxPqData} (h : pd.isEmpty = true) :
    restoreTx c w sd pd = some sd := by
  simp only [TxPqData.isEmpty, Bool.and_eq_true, List.isEmpty_iff] at h
  obtain ⟨⟨⟨hs, hd⟩, ho⟩, hc⟩ := h
  rw [restoreTx, hs, hd, ho, hc]
  simp [patch, restoreChange]

/-- Reading the file back and restoring goes transaction by transaction. -/
theorem restore_archive {txs archive : UnsignedTxSet} (hdata : txs.pqData = txs.txes.map pqDataOf)
    (harchive : txs.archive = some archive) :
    (restorePqConstructionData c w archive).map UnsignedTxSet.txes =
      txs.txes.mapM fun sd => restoreTx c w sd.readBack (pqDataOf sd) := by
  rw [UnsignedTxSet.archive, Option.ite_none_right_eq_some, Option.some.injEq] at harchive
  obtain ⟨-, rfl⟩ := harchive
  cases hpq : txs.hasPqData with
  | false =>
    have hempty : ∀ sd ∈ txs.txes, restoreTx c w sd.readBack (pqDataOf sd) = some sd.readBack := by
      intro sd hsd
      simp only [UnsignedTxSet.hasPqData, hdata, any_map, any_eq_false] at hpq
      exact restoreTx_of_isEmpty (by simpa using hpq sd hsd)
    simp [restorePqConstructionData, mapM_eq_some_map hempty]
  | true =>
    have hne : txs.txes.map pqDataOf ≠ [] := by
      intro hnil
      simp [UnsignedTxSet.hasPqData, hdata, hnil] at hpq
    simp only [restorePqConstructionData, hdata, if_true, if_neg hne, length_map, ne_eq,
      not_true_eq_false, if_false, mapM_zip_map, Option.map_map]
    cases txs.txes.mapM fun sd => restoreTx c w sd.readBack (pqDataOf sd) <;> rfl

end Restore

/-! ### The round trip -/

/-- The offline wallet reads the file and gets what the construction of the transactions needs. -/
def Restores (c : StealthCrypto) (vc : ViewCipher) (off : ScanWallet) (file : UnsignedTxFile vc)
    (pqHfVersion : UInt8) (txes : List TxConstructionData) : Prop :=
  ∃ txs txs', parseUnsignedTxFromStr vc off.keys file = some txs ∧
    restorePqConstructionData c off txs = some txs' ∧
    txs'.txes.map TxConstructionData.input = txes.map TxConstructionData.input ∧
    txs'.pqHfVersion = pqHfVersion

section RoundTrip

variable {c : StealthCrypto} {vc : ViewCipher} {iv : ChachaIv} {on off : ScanWallet}
  {pqHfVersion : UInt8} {txes : List TxConstructionData} {file : UnsignedTxFile vc}

theorem restorePqConstructionData_pqHfVersion {w : ScanWallet} {txs txs' : UnsignedTxSet}
    (h : restorePqConstructionData c w txs = some txs') : txs'.pqHfVersion = txs.pqHfVersion := by
  rw [restorePqConstructionData] at h
  split at h
  case isTrue => rw [← Option.some.inj h]
  case isFalse =>
    split at h
    case isTrue => cases h
    case isFalse =>
      obtain ⟨l, -, rfl⟩ := Option.map_eq_some_iff.mp h
      rfl

/-- The round trip goes transaction by transaction. -/
theorem restores_iff (hkeys : off.keys.SameView on.keys)
    (hdump : dumpTxToStr vc iv on.keys pqHfVersion txes = some file) :
    Restores c vc off file pqHfVersion txes ↔
      ∀ sd ∈ txes, ∃ sd', restoreTx c off sd.readBack (pqDataOf sd) = some sd' ∧
        sd'.input = sd.input := by
  rw [dumpTxToStr, Option.ite_none_right_eq_some] at hdump
  obtain ⟨-, hdump⟩ := hdump
  obtain ⟨archive, harchive, rfl⟩ := Option.map_eq_some_iff.mp hdump
  have hversion : archive.pqHfVersion = pqHfVersion := by
    rw [UnsignedTxSet.archive, Option.ite_none_right_eq_some, Option.some.injEq] at harchive
    rw [← harchive.2]
  have hparse : ∀ version, version = 5 ∨ version = 6 → parseUnsignedTxFromStr vc off.keys
      ⟨version, vc.encrypt iv on.keys.viewSecretKey archive⟩ = some archive := by
    intro version h
    rw [parseUnsignedTxFromStr, if_pos h, hkeys.view, vc.decrypt_encrypt]
  have hloop := restore_archive (c := c) (w := off) rfl harchive
  rw [Restores, ← exists_mapM_map_iff, ← hloop, hparse _ (by split <;> simp)]
  constructor
  · rintro ⟨txs, txs', htxs, hrestore, hinput, -⟩
    obtain rfl := Option.some.inj htxs
    exact ⟨txs'.txes, by rw [hrestore]; rfl, hinput⟩
  · rintro ⟨l, hl, hinput⟩
    obtain ⟨txs', hrestore, rfl⟩ := Option.map_eq_some_iff.mp hl
    exact ⟨archive, txs', rfl, hrestore, hinput,
      (restorePqConstructionData_pqHfVersion hrestore).trans hversion⟩

/-- A wallet can export transactions with its own sources. -/
theorem exists_dump (hsources : ∀ sd ∈ txes, ∀ src ∈ sd.sources, FromWallet c on src) :
    ∃ file, dumpTxToStr vc iv on.keys pqHfVersion txes = some file := by
  have hexport : (txes.all fun sd => sd.sources.all sourceExportable) = true := by
    simp only [all_eq_true]
    intro sd hsd src hsrc
    obtain ⟨fakeOutputsCount, td, row, hmatch⟩ := hsources sd hsd src hsrc
    rw [sourceExportable, hmatch.isPq, hmatch.pqCt, hmatch.pqSubaddr]
    dsimp only
    cases recoverPqSpendSecret c on td <;> rfl
  have hreal : (txes.all fun sd => sd.sources.all fun s => s.realOutput < s.outputs.length) =
      true := by
    simp only [all_eq_true, decide_eq_true_eq]
    intro sd hsd src hsrc
    obtain ⟨fakeOutputsCount, td, row, hmatch⟩ := hsources sd hsd src hsrc
    obtain ⟨key, -, hreal⟩ := hmatch.real
    exact (List.getElem?_eq_some_iff.mp hreal).1
  simp only [dumpTxToStr, hexport, if_true, UnsignedTxSet.archive, hreal, Option.map_some,
    Option.some.injEq, exists_eq']

end RoundTrip

/-- **Cold signing.** For a wallet with the same account, of which the online one may lack the spend
secrets, and with the named subaddresses in its table, the file gives back what the construction reads exactly if no address of the transactions has
authorisation data and the transaction key of no source leads to another subaddress. -/
theorem coldSigning_restores_iff (c : StealthCrypto) (vc : ViewCipher) (iv : ChachaIv)
    (on off : ScanWallet) (hkeys : off.keys.SameView on.keys) (htable : on.subaddresses.IsOf c on.keys)
    (pqHfVersion : UInt8) (txes : List TxConstructionData)
    (hsources : ∀ sd ∈ txes, ∀ src ∈ sd.sources, FromWallet c on src)
    (hnamed : ∀ sd ∈ txes, ∀ src ∈ sd.sources, ∀ index, src.pqSubaddr = some index →
      off.subaddresses.find (getSubaddressSpendPublicKey c on.keys index) = some index)
    (file : UnsignedTxFile vc) (hdump : dumpTxToStr vc iv on.keys pqHfVersion txes = some file) :
    Restores c vc off file pqHfVersion txes ↔
      ∀ sd ∈ txes, sd.NoAuth ∧ ∀ src ∈ sd.sources, ClaimedFirst c off src := by
  rw [restores_iff hkeys hdump]
  exact forall₂_congr fun sd hsd => restoreTx_iff hkeys htable (hsources sd hsd) (hnamed sd hsd)

/-! ### A wallet that pays to a post-quantum address -/

section Example

/-- The cipher that leaves the archive as it is. -/
def openCipher : ViewCipher := ⟨UnsignedTxSet, fun _ _ txs => txs, fun _ txs => some txs,
  fun _ _ _ => rfl⟩

/-- The shared secret of the output that is spent. -/
def coldSecret : KyberSharedSecret := Blob.ofList 32 [1]

/-- The online wallet has no spend key. -/
def coldWallet : ScanWallet :=
  { toyWallet with keys := { toyKeys with spendSecretKey := default } }

/-- A post-quantum output to the address: the spend key, tweaked. -/
def coldTransfer : TransferDetails :=
  { lostTransfer 5 with
    tx :=
      { version := 2, unlockTime := 0, vin := [], vout := [⟨0, .toKey (Blob.ofList 32 [4])⟩]
        extra := (writeTxExtra [.pubKey default, .kyberCt 0 default (Blob.ofList _ [1]),
          .pqBind 0 coldSecret]).getD [] } }

/-- The source that the wallet makes of it. -/
def coldSource : TxSourceEntry :=
  fullSource ⟨transparent.toCrypto, false,
    recoverPqSpendSecret transparent coldWallet⟩ 0 coldTransfer (lostRow 5) 0
    (Blob.ofList 32 [4])

/-- A payment of everything to two destinations. Without change there is no post-quantum change
address either. -/
def coldPayment (addr : AccountPublicAddress) : TxConstructionData where
  sources := [coldSource]
  changeDts := { amount := 0, addr := { spendPublicKey := default, viewPublicKey := default } }
  splittedDsts := [{ amount := 4, addr }, { amount := 2, addr }]
  extra := []
  unlockTime := 0
  useRct := true
  rangeProofType := 3
  bpVersion := 4
  useViewTags := true
  dests := [{ amount := 4, addr }, { amount := 2, addr }]

theorem coldSource_matches :
    SourceMatches ⟨transparent.toCrypto, false,
      recoverPqSpendSecret transparent coldWallet⟩ 0 coldTransfer (lostRow 5)
      coldSource := by
  have hpos : realPosition 0 coldTransfer (lostRow 5) = some 0 := by decide +kernel
  have hkey : coldTransfer.getPublicKey = some (Blob.ofList 32 [4]) := rfl
  rw [coldSource]
  exact fullSource_matches (by decide) hpos hkey

theorem coldWallet_sameView : toyWallet.keys.SameView coldWallet.keys := ⟨rfl, rfl, rfl⟩

theorem coldWallet_isOf : coldWallet.subaddresses.IsOf transparent coldWallet.keys := by
  intro key index h
  obtain ⟨rfl, rfl⟩ := toyWallet_find h
  rfl

section Payment

variable {addr : AccountPublicAddress} {sd : TxConstructionData} {src : TxSourceEntry}
  (hsd : sd ∈ [coldPayment addr]) (hsrc : src ∈ sd.sources)

include hsd hsrc

theorem coldPayment_source : src = coldSource := by
  obtain rfl := mem_singleton.mp hsd
  exact mem_singleton.mp hsrc

theorem coldPayment_fromWallet : FromWallet transparent coldWallet src := by
  rw [coldPayment_source hsd hsrc]
  exact ⟨0, coldTransfer, lostRow 5, coldSource_matches⟩

theorem coldPayment_named {index : SubaddressIndex} (h : src.pqSubaddr = some index) :
    toyWallet.subaddresses.find (getSubaddressSpendPublicKey transparent
      coldWallet.keys index) = some index := by
  rw [coldPayment_source hsd hsrc, coldSource_matches.pqSubaddr] at h
  obtain ⟨rec, -, rfl⟩ := Option.map_eq_some_iff.mp h
  decide +kernel

end Payment

/-- A payment to the wallet's own post-quantum address: the authorisation commitment, without which
`construct_tx` refuses the destination, does not come back. -/
theorem coldSigning_loses_commitment :
    ∃ file, dumpTxToStr openCipher default coldWallet.keys 16
        [coldPayment toyKeys.accountAddress] = some file ∧
      ¬ Restores transparent openCipher toyWallet file 16 [coldPayment toyKeys.accountAddress] := by
  obtain ⟨file, hfile⟩ := exists_dump fun _ hsd _ hsrc => coldPayment_fromWallet hsd hsrc
  refine ⟨file, hfile, ?_⟩
  rw [restores_iff coldWallet_sameView hfile]
  intro h
  have hmem := mem_singleton_self (coldPayment toyKeys.accountAddress)
  obtain ⟨⟨hdsts, -⟩, -⟩ := (restoreTx_iff coldWallet_sameView coldWallet_isOf
    (fun _ => coldPayment_fromWallet hmem) fun _ hsrc _ => coldPayment_named hmem hsrc).mp
      (h _ hmem)
  have hauth := (hdsts { amount := 4, addr := toyKeys.accountAddress } (by simp [coldPayment])).1
  cases hauth

/-- The same payment to the classic address comes back, with its post-quantum source. -/
theorem coldSigning_restores_classic :
    coldSource.isPq = true ∧
    ∃ file, dumpTxToStr openCipher default coldWallet.keys 16
        [coldPayment toyKeys.accountAddress.readBack] = some file ∧
      Restores transparent openCipher toyWallet file 16
        [coldPayment toyKeys.accountAddress.readBack] := by
  obtain ⟨file, hfile⟩ := exists_dump fun _ hsd _ hsrc => coldPayment_fromWallet hsd hsrc
  refine ⟨by decide +kernel, file, hfile, ?_⟩
  refine (coldSigning_restores_iff transparent openCipher default coldWallet
    toyWallet coldWallet_sameView coldWallet_isOf 16 _
    (fun _ hsd _ hsrc => coldPayment_fromWallet hsd hsrc)
    (fun _ hsd _ hsrc _ => coldPayment_named hsd hsrc) file hfile).mpr fun sd hsd => ?_
  refine ⟨?_, fun src hsrc ss tweak out key d index hss htweak hout hkey hd hfind => ?_⟩
  · obtain rfl := mem_singleton.mp hsd
    simp [TxConstructionData.NoAuth, coldPayment, AccountPublicAddress.NoAuth,
      AccountPublicAddress.readBack]
  · rw [coldPayment_source hsd hsrc] at hss ⊢
    rw [coldSource_matches.pqSs] at hss
    obtain ⟨rec, hrec, -⟩ := Option.map_eq_some_iff.mp hss
    rw [(toyWallet_find hfind).1, coldSource_matches.pqSubaddr]
    exact Option.map_eq_some_iff.mpr ⟨rec, hrec, rfl⟩

end Example

end Hidering
