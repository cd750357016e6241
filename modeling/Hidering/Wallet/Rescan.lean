import Hidering.Verify.DoubleSpend
import Hidering.Wallet.Detect

/-!
# Asking the daemon which transfers are spent

`rescan_spent` asks the daemon for the spent status of the key image of every transfer, a thousand
at a time, and corrects the marks of the wallet by the answers. The key image of a transfer is the
curve image `x * Hp(P)` of its one-time key `P`, for a post-quantum output just as for a classic
one: `apply_pq_output_tweak` computes it from the tweaked pair. The daemon answers from the table of
spent keys, and there a post-quantum input has left a hash of `P` instead. So a transfer that was
consumed by such an input comes back as unspent, and a mark that the wallet had made itself is
removed.

## Main definitions

* `Hidering.onIsKeyImageSpent`, `Hidering.rescanSpent`
* `Hidering.ChainRun` — runs of accepted blocks with the inputs they spend
* `Hidering.HeldOnChain`, `Hidering.ConsumesTransfer`

## Main results

* `Hidering.rescanSpent_iff` — when the marks are right
* `Hidering.rescanSpent_hybrid` — a spent transfer that is marked as unspent
-/

namespace Hidering

open Wire Machine Check Crypto Store List

/-! ### The query -/

/-- The status of a key image in the answer to `is_key_image_spent`. -/
inductive SpentStatus
  | unspent
  | spentInBlockchain
  | spentInPool
deriving DecidableEq

/-- `RESTRICTED_SPENT_KEY_IMAGES_COUNT`. -/
def restrictedSpentKeyImagesCount : ℕ := 5000

/-- The status of one key image: the chain comes first, then the pool. -/
def spentStatus (db : Db) (pool : List KeyImage) (k : KeyImage) : SpentStatus :=
  if db.hasKeyImage k then .spentInBlockchain
  else if k ∈ pool then .spentInPool
  else .unspent

/-- `on_is_key_image_spent`, with the key images that the pool holds; `none` is an answer with an
error as its status. -/
def onIsKeyImageSpent (restricted : Bool) (db : Db) (pool : List KeyImage)
    (keyImages : List KeyImage) : Option (List SpentStatus) :=
  if restricted && decide (restrictedSpentKeyImagesCount < keyImages.length) then none
  else some (keyImages.map (spentStatus db pool))

/-! ### The wallet -/

/-- `set_spent`. -/
def setSpent (height : ℕ) (td : TransferDetails) : TransferDetails :=
  { td with spent := true, spentHeight := height }

/-- `set_unspent`. -/
def setUnspent (td : TransferDetails) : TransferDetails :=
  { td with spent := false, spentHeight := 0 }

/-- The `chunk_size` of `rescan_spent`. -/
def rescanChunkSize : ℕ := 1000

/-- The first loop of `rescan_spent`: one query for each chunk of key images. An answer of another
size than the question makes the wallet throw. -/
def queryChunks (ask : List KeyImage → Option (List SpentStatus)) (images : List KeyImage) :
    Option (List SpentStatus) :=
  if _h : images = [] then some []
  else
    (ask (images.take rescanChunkSize)).bind fun status =>
      if status.length = (images.take rescanChunkSize).length then
        (queryChunks ask (images.drop rescanChunkSize)).map fun rest => status ++ rest
      else none
termination_by images.length
decreasing_by
  have hpos := length_pos_of_ne_nil _h
  rw [length_drop, rescanChunkSize]
  omega

/-- What the second loop does with one transfer. -/
def rescanOne (td : TransferDetails) (status : SpentStatus) : TransferDetails :=
  if !td.keyImageKnown || td.keyImagePartial then td
  else if td.spent = decide (status ≠ .unspent) then td
  else if td.spent then { setUnspent td with spentHeight := 0 }
  -- the height at which it was spent is not known
  else setSpent td.spentHeight td

/-- `rescan_spent`. -/
def rescanSpent (ask : List KeyImage → Option (List SpentStatus))
    (transfers : List TransferDetails) : Option (List TransferDetails) :=
  (queryChunks ask (transfers.map TransferDetails.keyImage)).map fun status =>
    zipWith rescanOne transfers status

/-- A daemon that answers every chunk answers the whole question. -/
theorem queryChunks_eq {ask : List KeyImage → Option (List SpentStatus)}
    {status : KeyImage → SpentStatus}
    (hask : ∀ l, l.length ≤ rescanChunkSize → ask l = some (l.map status))
    (images : List KeyImage) : queryChunks ask images = some (images.map status) := by
  fun_induction queryChunks ask images with
  | case1 => rfl
  | case2 images hne ih =>
    have hanswer := hask (images.take rescanChunkSize) (length_take_le ..)
    rw [hanswer, Option.bind_some, if_pos (length_map ..), ih [], Option.map_some,
      ← map_append, take_append_drop]

/-- The chunks are never too large for the daemon. -/
theorem rescanSpent_eq (restricted : Bool) (db : Db) (pool : List KeyImage)
    (transfers : List TransferDetails) :
    rescanSpent (onIsKeyImageSpent restricted db pool) transfers =
      some (transfers.map fun td => rescanOne td (spentStatus db pool td.keyImage)) := by
  have hask : ∀ l : List KeyImage, l.length ≤ rescanChunkSize →
      onIsKeyImageSpent restricted db pool l = some (l.map (spentStatus db pool)) := by
    intro l hl
    have hsmall : ¬ restrictedSpentKeyImagesCount < l.length := by
      rw [rescanChunkSize] at hl
      rw [restrictedSpentKeyImagesCount]
      omega
    rw [onIsKeyImageSpent, decide_eq_false hsmall, Bool.and_false, if_neg Bool.false_ne_true]
  rw [rescanSpent, queryChunks_eq hask, Option.map_some, map_map, zipWith_map_right,
    zipWith_self]
  rfl

/-- A transfer whose key image is known is marked by the answer, and nothing else but its spent
height changes. -/
theorem rescanOne_eq {td : TransferDetails} (hknown : td.keyImageKnown = true)
    (hwhole : td.keyImagePartial = false) (status : SpentStatus) :
    ∃ height, rescanOne td status =
      { td with spent := decide (status ≠ .unspent), spentHeight := height } := by
  have hasked : ¬ (!td.keyImageKnown || td.keyImagePartial) = true := by simp [hknown, hwhole]
  rw [rescanOne, if_neg hasked]
  by_cases hsame : td.spent = decide (status ≠ .unspent)
  · rw [if_pos hsame, ← hsame]
    exact ⟨td.spentHeight, rfl⟩
  rw [if_neg hsame]
  cases hspent : td.spent with
  | true =>
    have hstatus : decide (status ≠ .unspent) = false := by simpa [hspent] using hsame
    rw [if_pos rfl, hstatus]
    exact ⟨0, rfl⟩
  | false =>
    have hstatus : decide (status ≠ .unspent) = true := by simpa [hspent] using hsame
    rw [if_neg Bool.false_ne_true, hstatus]
    exact ⟨td.spentHeight, rfl⟩

/-! ### Runs of accepted blocks -/

section Run

variable {c : Crypto}

/-- A transaction is accepted at a state of the chain, under any version of the rules. -/
def TxAccepted (c : Crypto) (view : ChainView) (tx : Transaction) : Prop :=
  (∃ txs, tx ∈ txs ∧ verNonInputConsensus c view.hfVersion txs = .ok ()) ∧
    ∃ cache r, checkTxInputs c view cache tx = .ok r

/-- Runs of blocks whose transactions are accepted, with the inputs of these transactions. -/
inductive ChainRun (c : Crypto) : List Txin → Db → Prop
  | empty (seed : UInt32) : ChainRun c [] (Db.empty seed)
  | block {hist : List Txin} {db db' : Db} {blk : Block} {info : BlockMeta}
      {txs : List (Transaction × Bytes)} {n : ℕ} {hfVersion : UInt8} {now height : UInt64}
      (hrun : ChainRun c hist db) (hminer : blk.minerTx.vin = [.gen height])
      (haccepted : ∀ p ∈ txs, TxAccepted c ⟨db, hfVersion, now⟩ p.1)
      (hadd : addBlock c blk info txs db = .ok n db') : ChainRun c (hist ++ inputsOf txs) db'

theorem SpendRun.chainRun {cond : Db → List Txin → Prop} {hist : List (Db × Txin)} {db : Db}
    (h : SpendRun c cond hist db) : ChainRun c (hist.map Prod.snd) db := by
  induction h with
  | empty seed => exact .empty seed
  | block hrun hminer haccepted hcond hadd ih =>
    rw [map_append, map_map]
    simpa using ChainRun.block ih hminer (fun p hp => (haccepted p hp).2) hadd

/-- The key that a post-quantum input shows is that of the output that it names. -/
theorem TxAccepted.pqKey {view : ChainView} {tx : Transaction} (h : TxAccepted c view tx)
    {i : TxinToKeyPq} (hi : .toKeyPq i ∈ tx.vin) :
    ∃ ok, (view.db.outputAmounts 0).get? i.spentOutputIndex.toNat = some ok ∧
      ok.pubkey = i.realOutputKey := by
  obtain ⟨⟨txs, htx, hnic⟩, cache, r, hr⟩ := h
  have hmem : i ∈ pqInputs tx := mem_filterMap.mpr ⟨_, hi, rfl⟩
  have hf : hfVersionPq ≤ view.hfVersion :=
    hfVersionPq_le_of_pqInputs (ne_nil_of_mem hmem)
      (verNonInputConsensus_ok hnic htx).semantic.types
  obtain ⟨rings, haccepted⟩ := checkTxInputs_ok hf hr
  obtain ⟨od, hod⟩ := checkPqPass_ok haccepted.pqPass hmem
  obtain ⟨ok, hok, rfl⟩ := Option.map_eq_some_iff.mp hod.output
  exact ⟨ok, hok, hod.key⟩

/-- The table of spent keys holds the images of the inputs of the run. -/
theorem ChainRun.mem_spentKeys {hist : List Txin} {db : Db} (h : ChainRun c hist db)
    (k : KeyImage) : k ∈ db.spentKeys ↔ ∃ i ∈ hist, spentImage c i = some k := by
  rw [← mem_filterMap]
  change k ∈ db.spentKeys ↔ k ∈ spentImages c hist
  induction h with
  | empty seed => simp [spentImages, Db.empty]
  | block hrun hminer haccepted hadd ih =>
    obtain ⟨-, -, hspent⟩ := addBlock_images hminer hadd
    rw [hspent, Finset.mem_union, ih, mem_toFinset, spentImages_append, mem_append]

theorem ChainRun.pqKey {hist : List Txin} {db : Db} (h : ChainRun c hist db) {i : TxinToKeyPq}
    (hi : .toKeyPq i ∈ hist) :
    ∃ ok, (db.outputAmounts 0).get? i.spentOutputIndex.toNat = some ok ∧
      ok.pubkey = i.realOutputKey := by
  induction h with
  | empty seed => exact absurd hi not_mem_nil
  | @block hist db db' blk info txs n hf now height hrun hminer haccepted hadd ih =>
    have hold : ∃ ok, (db.outputAmounts 0).get? i.spentOutputIndex.toNat = some ok ∧
        ok.pubkey = i.realOutputKey := by
      rcases mem_append.mp hi with hi | hi
      · exact ih hi
      · obtain ⟨p, hp, hi⟩ := mem_flatMap.mp hi
        exact (haccepted p hp).pqKey hi
    obtain ⟨ok, hok, hkey⟩ := hold
    obtain ⟨new, hnew, -⟩ := addBlock_bucket hadd
    refine ⟨ok, ?_, hkey⟩
    rw [hnew]
    exact Table.get?_mono (prefix_append ..) hok

end Run

/-! ### Transfers on the chain -/

/-- The curve image of a key: what `generate_key_image` gives for the key and its secret, since
`x * G` determines `x * Hp(x * G)`. -/
structure CurveImage (c : StealthCrypto) where
  image : PublicKey → KeyImage
  generate : ∀ sec, c.generateKeyImage (c.scalarmultBase sec) sec = image (c.scalarmultBase sec)

/-- The amount under which the chain indexes the output of a transfer. -/
def TransferDetails.bucket (td : TransferDetails) : Amount := if td.rct then 0 else td.amount

variable {c : StealthCrypto}

/-- The transfer is an output of the chain, and its key image is known: it is the one that
`generate_key_image` gives for the output key and its secret. -/
structure HeldOnChain (c : StealthCrypto) (db : Db) (td : TransferDetails) : Prop where
  known : td.keyImageKnown = true
  whole : td.keyImagePartial = false
  stored : ∃ ok sec, (db.outputAmounts td.bucket).get? td.globalOutputIndex.toNat = some ok ∧
    td.getPublicKey = some ok.pubkey ∧ ok.pubkey = c.scalarmultBase sec ∧
    td.keyImage = c.generateKeyImage ok.pubkey sec

/-- The input consumes the output of the transfer. A ring input consumes the output whose curve
image it shows, a post-quantum input the output of amount 0 that it names. -/
def ConsumesTransfer (I : CurveImage c) (td : TransferDetails) : Txin → Prop
  | .toKey i => ∃ key, td.getPublicKey = some key ∧ I.image key = i.kImage
  | .toKeyPq i => td.bucket = 0 ∧ i.spentOutputIndex = td.globalOutputIndex
  | _ => False

/-- The images of an output key, one for each way of spending it. -/
def imagesOf (I : CurveImage c) (key : PublicKey) : List KeyImage :=
  [I.image key, c.getPqInputKeyImage key]

/-- The key images of the transfer's output differ from those of the other outputs that post-quantum
inputs can name. -/
def ImagesDiffer (I : CurveImage c) (db : Db) (td : TransferDetails) : Prop :=
  ∀ index ok, (db.outputAmounts 0).get? index = some ok →
    (0, index) ≠ (td.bucket, td.globalOutputIndex.toNat) →
    ∀ key, td.getPublicKey = some key → (imagesOf I key).Disjoint (imagesOf I ok.pubkey)

/-- The marks are right: a transfer is spent exactly if an input of the run consumes it. -/
def SpentRight (I : CurveImage c) (hist : List Txin) (transfers : List TransferDetails) : Prop :=
  ∀ td ∈ transfers, td.spent = true ↔ ∃ i ∈ hist, ConsumesTransfer I td i

/-- If a post-quantum input has consumed the transfer, its curve image is on the chain all the same:
a ring input has consumed it too, or the two images of its key coincide. -/
def PqSpendShows (I : CurveImage c) (hist : List Txin) (td : TransferDetails) : Prop :=
  (∃ i, .toKeyPq i ∈ hist ∧ ConsumesTransfer I td (.toKeyPq i)) →
    (∃ i, .toKey i ∈ hist ∧ ConsumesTransfer I td (.toKey i)) ∨
      ∃ key, td.getPublicKey = some key ∧ c.getPqInputKeyImage key = I.image key

section Held

variable {I : CurveImage c} {hist : List Txin} {db : Db} {td : TransferDetails}

theorem HeldOnChain.keyImage_eq (I : CurveImage c) (h : HeldOnChain c db td) :
    ∃ ok, (db.outputAmounts td.bucket).get? td.globalOutputIndex.toNat = some ok ∧
      td.getPublicKey = some ok.pubkey ∧ td.keyImage = I.image ok.pubkey := by
  obtain ⟨ok, sec, hok, hkey, hpub, himage⟩ := h.stored
  refine ⟨ok, hok, hkey, ?_⟩
  rw [himage, hpub, I.generate]

/-- The key image of a transfer is on the chain if a ring input has consumed the transfer, or a
post-quantum input whose image is the same. -/
theorem keyImage_mem_spentKeys (hrun : ChainRun c.toCrypto hist db) (hheld : HeldOnChain c db td)
    (hdiff : ImagesDiffer I db td) :
    td.keyImage ∈ db.spentKeys ↔
      (∃ i, .toKey i ∈ hist ∧ ConsumesTransfer I td (.toKey i)) ∨
        (∃ i, .toKeyPq i ∈ hist ∧ ConsumesTransfer I td (.toKeyPq i)) ∧
          ∃ key, td.getPublicKey = some key ∧ c.getPqInputKeyImage key = I.image key := by
  obtain ⟨ok, hok, hkey, himage⟩ := hheld.keyImage_eq I
  rw [hrun.mem_spentKeys]
  constructor
  · rintro ⟨i, hi, hspent⟩
    cases i with
    | toKey i =>
      have hshown : i.kImage = td.keyImage := Option.some.inj hspent
      exact .inl ⟨i, hi, ok.pubkey, hkey, by rw [hshown, himage]⟩
    | toKeyPq i =>
      have hpq : c.getPqInputKeyImage i.realOutputKey = I.image ok.pubkey :=
        (Option.some.inj hspent).trans himage
      obtain ⟨ok', hok', hreal⟩ := hrun.pqKey hi
      by_cases hsame : ((0 : Amount), i.spentOutputIndex.toNat) =
          (td.bucket, td.globalOutputIndex.toNat)
      · obtain ⟨hbucket, hindex⟩ := Prod.mk.inj hsame
        rw [← hbucket, ← hindex, hok'] at hok
        obtain rfl := Option.some.inj hok
        exact .inr ⟨⟨i, hi, hbucket.symm, UInt64.toNat_inj.mp hindex⟩, ok'.pubkey, hkey,
          by rw [hreal, hpq, hreal]⟩
      · -- the image of another output cannot be that of the transfer
        have hshared : I.image ok.pubkey ∈ imagesOf I ok'.pubkey := by
          rw [imagesOf, hreal, hpq]
          exact mem_cons_of_mem _ mem_cons_self
        exact absurd hshared (hdiff _ ok' hok' hsame _ hkey mem_cons_self)
    | gen _ => cases hspent
    | toScript _ => cases hspent
    | toScripthash _ => cases hspent
  · rintro (⟨i, hi, key, hkey', hshows⟩ | ⟨⟨i, hi, hbucket, hindex⟩, key, hkey', hpq⟩)
    · obtain rfl := Option.some.inj (hkey'.symm.trans hkey)
      exact ⟨.toKey i, hi, by rw [himage, hshows]; rfl⟩
    · obtain rfl := Option.some.inj (hkey'.symm.trans hkey)
      obtain ⟨ok', hok', hreal⟩ := hrun.pqKey hi
      rw [← hbucket, hindex, hok] at hok'
      obtain rfl := Option.some.inj hok'
      refine ⟨.toKeyPq i, hi, ?_⟩
      rw [himage, ← hpq, hreal]
      rfl

/-- A consumed transfer was consumed in one of the two ways. -/
theorem exists_consumes_iff :
    (∃ i ∈ hist, ConsumesTransfer I td i) ↔
      (∃ i, .toKey i ∈ hist ∧ ConsumesTransfer I td (.toKey i)) ∨
        ∃ i, .toKeyPq i ∈ hist ∧ ConsumesTransfer I td (.toKeyPq i) := by
  constructor
  · rintro ⟨i, hi, hconsumes⟩
    cases i with
    | toKey i => exact .inl ⟨i, hi, hconsumes⟩
    | toKeyPq i => exact .inr ⟨i, hi, hconsumes⟩
    | gen _ => exact hconsumes.elim
    | toScript _ => exact hconsumes.elim
    | toScripthash _ => exact hconsumes.elim
  · rintro (⟨i, hi, hconsumes⟩ | ⟨i, hi, hconsumes⟩)
    · exact ⟨_, hi, hconsumes⟩
    · exact ⟨_, hi, hconsumes⟩

private theorem seen_iff {ring pq same : Prop} :
    ((ring ∨ pq ∧ same) ↔ ring ∨ pq) ↔ (pq → ring ∨ same) := by
  tauto

/-- The mark of one transfer. -/
theorem rescanOne_right_iff (hrun : ChainRun c.toCrypto hist db) (hheld : HeldOnChain c db td)
    (hdiff : ImagesDiffer I db td) :
    let td' := rescanOne td (spentStatus db [] td.keyImage)
    (td'.spent = true ↔ ∃ i ∈ hist, ConsumesTransfer I td' i) ↔ PqSpendShows I hist td := by
  intro td'
  obtain ⟨height, heq⟩ := rescanOne_eq hheld.known hheld.whole (spentStatus db [] td.keyImage)
  have hspent : td'.spent = true ↔ td.keyImage ∈ db.spentKeys := by
    rw [show td' = _ from heq, decide_eq_true_eq, spentStatus, Db.hasKeyImage]
    by_cases hmem : td.keyImage ∈ db.spentKeys
    · simp [hmem]
    · simp [hmem]
  have hconsumes : ∀ i, ConsumesTransfer I td' i ↔ ConsumesTransfer I td i := by
    intro i
    rw [show td' = _ from heq]
    cases i <;> rfl
  simp only [hconsumes]
  rw [hspent, keyImage_mem_spentKeys hrun hheld hdiff, exists_consumes_iff, PqSpendShows]
  exact seen_iff

end Held

/-- **Rescanning the spent status.** On a chain reached by accepted transactions, and with an empty
pool, `rescan_spent` marks exactly the transfers that were consumed if and only if no transfer was
consumed by a post-quantum input without its curve image being on the chain. -/
theorem rescanSpent_iff (I : CurveImage c) {hist : List Txin} {db : Db}
    (hrun : ChainRun c.toCrypto hist db) {transfers : List TransferDetails}
    (hheld : ∀ td ∈ transfers, HeldOnChain c db td) (hdiff : ∀ td ∈ transfers, ImagesDiffer I db td)
    (restricted : Bool) :
    (∃ transfers', rescanSpent (onIsKeyImageSpent restricted db []) transfers = some transfers' ∧
      SpentRight I hist transfers') ↔ ∀ td ∈ transfers, PqSpendShows I hist td := by
  rw [rescanSpent_eq]
  constructor
  · rintro ⟨transfers', htransfers, hright⟩ td htd
    obtain rfl := Option.some.inj htransfers
    exact (rescanOne_right_iff hrun (hheld td htd) (hdiff td htd)).mp
      (hright _ (mem_map.mpr ⟨td, htd, rfl⟩))
  · intro hshows
    refine ⟨_, rfl, fun td' htd' => ?_⟩
    obtain ⟨td, htd, rfl⟩ := mem_map.mp htd'
    exact (rescanOne_right_iff hrun (hheld td htd) (hdiff td htd)).mpr (hshows td htd)

/-! ### A chain with both kinds of spends -/

/-- The transparent primitives of the chain, with those of a wallet. -/
def StealthCrypto.onChain : StealthCrypto :=
  { StealthCrypto.transparent with toCrypto := Crypto.transparent, scalarmultBase := id }

/-- In the transparent instance a curve image is a flipped key. -/
def CurveImage.flipped : CurveImage StealthCrypto.onChain := ⟨flipBits, fun _ => rfl⟩

/-- The key of an output of the first block of the wide chain. -/
def wideKey (k : ℕ) : PublicKey := natLe (if k = 0 then 1 else 1000 + k)

/-- The transfer of an output of the first block of the wide chain. -/
def wideTransfer (k : ℕ) (spent : Bool) : TransferDetails where
  blockHeight := 0
  tx := wideBlock.minerTx.toTransactionPrefix
  txid := default
  internalOutputIndex := UInt64.ofNat k
  globalOutputIndex := UInt64.ofNat k
  spent := spent
  spentHeight := if spent then 11 else 0
  keyImage := flipBits (wideKey k)
  mask := identity
  amount := 1000
  rct := true
  subaddrIndex := ⟨0, 0⟩

/-- What is evaluated about a transfer: its output is stored, and no other output has one of its
images. -/
def wideHeld (db : Db) (k : ℕ) : Bool :=
  (((db.outputAmounts 0).get? k).map OutKey.pubkey == some (wideKey k)) &&
    ((wideTransfer k true).getPublicKey == some (wideKey k)) &&
    (db.outputAmounts 0).all fun e => e.1 == k ||
      decide (∀ x ∈ imagesOf .flipped (wideKey k), x ∉ imagesOf .flipped e.2.pubkey)

theorem held_of_wideHeld {db : Db} {k : ℕ} (hk : k < 2 ^ 64) (h : wideHeld db k = true)
    (spent : Bool) :
    HeldOnChain .onChain db (wideTransfer k spent) ∧
      ImagesDiffer .flipped db (wideTransfer k spent) := by
  simp only [wideHeld, Bool.and_eq_true, beq_iff_eq, all_eq_true, Bool.or_eq_true,
    decide_eq_true_eq] at h
  obtain ⟨⟨hstored, hkey⟩, hdiff⟩ := h
  obtain ⟨ok, hok, hpub⟩ := Option.map_eq_some_iff.mp hstored
  have hindex : (UInt64.ofNat k).toNat = k := UInt64.toNat_ofNat_of_lt hk
  refine ⟨⟨rfl, rfl, ok, wideKey k, ?_, ?_, hpub, ?_⟩, ?_⟩
  · change (db.outputAmounts 0).get? (UInt64.ofNat k).toNat = some ok
    rw [hindex, hok]
  · rw [hpub]
    exact hkey
  · rw [hpub]
    rfl
  · intro index ok' hok' hne key hkey'
    obtain rfl := Option.some.inj (hkey'.symm.trans hkey)
    rcases hdiff _ (Table.mem_of_get? hok') with rfl | hdisjoint
    · exact absurd (congrArg (Prod.mk (0 : Amount)) hindex.symm) hne
    · exact fun x hx hx' => hdisjoint x hx hx'

/-- The hybrid spend on the wide chain: a ring input consumes output 5, a post-quantum input
output 0. -/
theorem exists_hybrid_chain :
    ∃ db, ChainRun transparent hybridSpend.vin db ∧ wideHeld db 0 = true ∧
      wideHeld db 5 = true ∧ flipBits (wideKey 0) ∉ db.spentKeys := by
  obtain ⟨⟨⟩, db, hchain, hdb⟩ := exists_of_okAnd
    (r := addBlocks transparent wideChain (Db.empty 0))
    (p := fun _ db => passes (checkTxInputs transparent ⟨db, 16, 0⟩ .empty hybridSpend) &&
      okAnd (addBlock transparent (spendBlock hybridSpend) ⟨0, 0, 0, 0⟩
        [(hybridSpend, (serializeTransaction hybridSpend).getD [])] db) fun _ db' =>
          wideHeld db' 0 && wideHeld db' 5 &&
            decide (flipBits (wideKey 0) ∉ db'.spentKeys))
    (by decide +kernel)
  obtain ⟨hpass, hadd⟩ := Bool.and_eq_true_iff.mp hdb
  obtain ⟨n, db', hadd, hheld⟩ := exists_of_okAnd hadd
  simp only [Bool.and_eq_true, decide_eq_true_eq] at hheld
  have hrun : SpendRun transparent (fun _ _ => True) (hybridSpend.vin.map fun i => (db, i)) db' :=
    spendRun_spendBlock (fun _ => trivial) hybridSpend_nonInput hchain hpass trivial hadd
  exact ⟨db', hrun.chainRun, hheld.1.1, hheld.1.2, hheld.2⟩

/-- The transfer that the ring input has consumed is marked as spent. -/
theorem rescanSpent_ring :
    ∃ db, ChainRun transparent hybridSpend.vin db ∧
      (∃ i ∈ hybridSpend.vin, ConsumesTransfer .flipped (wideTransfer 5 false) i) ∧
      ∃ transfers, rescanSpent (onIsKeyImageSpent true db []) [wideTransfer 5 false] =
        some transfers ∧ SpentRight .flipped hybridSpend.vin transfers := by
  obtain ⟨db, hrun, -, hheld, -⟩ := exists_hybrid_chain
  obtain ⟨hon, hdiff⟩ := held_of_wideHeld (by decide) hheld false
  refine ⟨db, hrun, ⟨_, mem_cons_self, wideKey 5, by decide +kernel, rfl⟩, ?_⟩
  refine (rescanSpent_iff .flipped hrun (forall_mem_singleton.mpr hon)
    (forall_mem_singleton.mpr hdiff) true).mpr (forall_mem_singleton.mpr ?_)
  intro _
  exact .inl ⟨_, mem_cons_self, wideKey 5, by decide +kernel, rfl⟩

/-- **A spent transfer is marked as unspent.** Output 0 of the chain was consumed by a post-quantum
input, and the wallet has marked its transfer. No other output of the chain has one of its images,
and the rescan removes the mark. -/
theorem rescanSpent_hybrid :
    ∃ db, ChainRun transparent hybridSpend.vin db ∧
      HeldOnChain .onChain db (wideTransfer 0 true) ∧
      ImagesDiffer .flipped db (wideTransfer 0 true) ∧
      (∃ i ∈ hybridSpend.vin, ConsumesTransfer .flipped (wideTransfer 0 true) i) ∧
      (wideTransfer 0 true).spent = true ∧
      rescanSpent (onIsKeyImageSpent true db []) [wideTransfer 0 true] =
        some [wideTransfer 0 false] ∧ (wideTransfer 0 false).spent = false := by
  obtain ⟨db, hrun, hheld, -, himage⟩ := exists_hybrid_chain
  obtain ⟨hon, hdiff⟩ := held_of_wideHeld (by decide) hheld true
  refine ⟨db, hrun, hon, hdiff, ⟨_, mem_cons_of_mem _ mem_cons_self, rfl, rfl⟩, rfl, ?_,
    rfl⟩
  have hstatus : spentStatus db [] (wideTransfer 0 true).keyImage = .unspent := by
    have hnot : ¬ db.hasKeyImage (wideTransfer 0 true).keyImage = true := by
      rw [Db.hasKeyImage, decide_eq_true_eq]
      exact himage
    rw [spentStatus, if_neg hnot, if_neg not_mem_nil]
  rw [rescanSpent_eq, map_singleton, hstatus]
  rfl

end Hidering
