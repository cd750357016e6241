import Hidering.Pool.Template
import Hidering.Verify.Accepted
import Mathlib.Algebra.BigOperators.Group.List.Basic

/-!
# The indexes of the pool agree

The pool keeps the same transactions in several places: the table of entries, the sets of
transactions by key image, the order by fee, and the total weight. `TxPool.Index` says that the
tables agree, and `TxPool.Sound` by how much the total weight is too large. Taking and adding
transactions keep the index; the weight becomes wrong where a transaction from a block with bad
inputs is added while the pool already holds it as a private one (`TxPool.Recounts`): the entry is
then replaced and counted a second time.

Transaction ids are taken to determine the key images and the weight of a transaction
(`TxFacts`): a collision of hashes would make two transactions one.

## Main definitions

* `Hidering.TxFacts`, `TxPool.Index`, `TxPool.Sound`, `TxPool.Recounts`

## Main results

* `Hidering.TxPool.Sound.takeTx`, `Sound.prune`, `Sound.addTx`
-/

namespace Hidering

open Wire Machine Store List

variable {c : Crypto}

/-! ### Transactions and their ids -/

/-- What a transaction id stands for: the key images of the inputs, and the weight. -/
structure TxFacts where
  images : Hash → List KeyImage
  weight : Hash → ℕ

variable (c) in
/-- The inputs are ring or post-quantum inputs with the given, distinct key images. -/
def Spends (vin : List Txin) (images : List KeyImage) : Prop :=
  vin.map (spentImage c) = images.map some ∧ images.Nodup

theorem Spends.filterMap {vin : List Txin} {images : List KeyImage} (h : Spends c vin images) :
    vin.filterMap (spentImage c) = images := by
  have := congrArg (List.filterMap id) h.1
  simpa using this

/-- Induction over the inputs together with their key images. -/
theorem Spends.induction {motive : ∀ vin images, Spends c vin images → Prop}
    (nil : ∀ h, motive [] [] h)
    (cons : ∀ i vin image images, spentImage c i = some image → image ∉ images →
      ∀ h h', motive vin images h → motive (i :: vin) (image :: images) h') (vin : List Txin)
    (images : List KeyImage) (h : Spends c vin images) : motive vin images h := by
  induction images generalizing vin with
  | nil =>
    obtain rfl : vin = [] := by simpa using h.1
    exact nil h
  | cons image images ih =>
    cases vin with
    | nil => cases h.1
    | cons i vin =>
      obtain ⟨hi, hmap⟩ := List.cons.inj h.1
      obtain ⟨hnotin, hnodup⟩ := nodup_cons.mp h.2
      exact cons i vin image images hi hnotin ⟨hmap, hnodup⟩ h (ih vin _)

variable (c) in
/-- The key images of an entry, read off its blob. -/
def TxpoolEntry.images (e : TxpoolEntry) : List KeyImage :=
  match prefixFormat.read .lenient e.blob with
  | none => []
  | some (tx, _) => tx.vin.filterMap (spentImage c)

variable (c) in
/-- The transaction of an entry, as it is parsed for the given kind of entry. -/
def parseFor (pruned : Bool) (blob : Bytes) : Option Transaction :=
  if pruned then parseAndValidateTxBase c blob else parseAndValidateTx c blob

/-- However a blob is parsed, the prefix comes first. -/
theorem prefix_of_parseFor {pruned : Bool} {blob : Bytes} {tx : Transaction}
    (h : parseFor c pruned blob = some tx) :
    ∃ rest, prefixFormat.read .lenient blob = some (tx.toTransactionPrefix, rest) := by
  rw [parseFor] at h
  split at h
  · obtain ⟨⟨tx', rest⟩, hread, hexp⟩ := Option.bind_eq_some_iff.mp h
    rw [(expandTransaction1_frame hexp).1]
    simp only [transactionBaseFormat, Format.imap, Format.bind, Option.map_eq_some_iff,
      Option.bind_eq_some_iff] at hread
    obtain ⟨_, ⟨⟨pre, rest'⟩, hpre, _, -, rfl⟩, heq⟩ := hread
    obtain ⟨rfl, -⟩ := Prod.mk.inj heq
    exact ⟨rest', hpre⟩
  · obtain ⟨tx', hparse, hexp⟩ := Option.bind_eq_some_iff.mp h
    rw [(expandTransaction1_frame hexp).1]
    have hread := Format.parse_eq_some.mp hparse
    simp only [transactionFormat, Format.imap, Format.bind, Option.map_eq_some_iff,
      Option.bind_eq_some_iff] at hread
    obtain ⟨_, ⟨⟨pre, rest'⟩, hpre, _, -, rfl⟩, heq⟩ := hread
    obtain ⟨rfl, -⟩ := Prod.mk.inj heq
    exact ⟨rest', hpre⟩

variable (c) in
/-- An entry has the inputs and the weight that its id stands for. -/
structure EntryOk (facts : TxFacts) (e : TxpoolEntry) : Prop where
  prefixed : ∃ tx rest, prefixFormat.read .lenient e.blob = some (tx, rest) ∧
    Spends c tx.vin (facts.images e.txid)
  weight : e.info.weight = facts.weight e.txid

theorem EntryOk.parsed {facts : TxFacts} {e : TxpoolEntry} {pruned : Bool} {tx : Transaction}
    (h : EntryOk c facts e) (htx : parseFor c pruned e.blob = some tx) :
    Spends c tx.vin (facts.images e.txid) := by
  obtain ⟨tx', rest, hread, hspends⟩ := h.prefixed
  obtain ⟨rest', hread'⟩ := prefix_of_parseFor htx
  obtain ⟨rfl, -⟩ : tx' = tx.toTransactionPrefix ∧ rest = rest' := by simpa [hread] using hread'
  exact hspends

theorem EntryOk.images {facts : TxFacts} {e : TxpoolEntry} (h : EntryOk c facts e) :
    e.images c = facts.images e.txid := by
  obtain ⟨tx, rest, hread, hspends⟩ := h.prefixed
  rw [TxpoolEntry.images, hread]
  exact hspends.filterMap

namespace TxPool

variable {e : TxpoolEntry} {txid : Hash} {vin : List Txin} {images : List KeyImage}

/-- The transactions that spend a key image. -/
def spentBy (pool : TxPool) (image : KeyImage) : Finset Hash :=
  (pool.spentKeyImages image).getD ∅

theorem spentBy_setKeyImage (pool : TxPool) (image image' : KeyImage) (s : Option (Finset Hash)) :
    (pool.setKeyImage image s).spentBy image' =
      if image' = image then s.getD ∅ else pool.spentBy image' := by
  rw [spentBy, setKeyImage]
  by_cases h : image' = image
  · subst h; simp
  · simp [h, spentBy]

/-- The sets of other key images are not touched. -/
theorem spentBy_setKeyImage_of_mem {pool : TxPool} {image image' : KeyImage}
    (hnotin : image ∉ images) (hmem : image' ∈ images) (s : Option (Finset Hash)) :
    (pool.setKeyImage image s).spentBy image' = pool.spentBy image' := by
  rw [spentBy_setKeyImage, if_neg (ne_of_mem_of_not_mem hmem hnotin)]

/-- No key image is kept with an empty set. -/
def NoEmptySets (pool : TxPool) : Prop := ∀ image, pool.spentKeyImages image ≠ some ∅

theorem NoEmptySets.setKeyImage {pool : TxPool} (h : pool.NoEmptySets) (image : KeyImage)
    {s : Option (Finset Hash)} (hs : s ≠ some ∅) : (pool.setKeyImage image s).NoEmptySets := by
  intro image'
  rw [TxPool.setKeyImage]
  by_cases h' : image' = image
  · subst h'; simpa using hs
  · simpa [Function.update_of_ne h'] using h image'

/-! ### Inserting and removing key images -/

/-- Inserting key images changes nothing but the sets. -/
theorem insertKeyImages_frame (txid : Hash) (relay : RelayMethod) (vin : List Txin)
    (pool : TxPool) :
    ∃ f, (insertKeyImages c txid relay vin pool).2 = { pool with spentKeyImages := f } := by
  induction vin generalizing pool with
  | nil => exact ⟨_, rfl⟩
  | cons i vin ih =>
    rw [insertKeyImages]
    split
    · exact ⟨_, rfl⟩
    · next image _ =>
      obtain ⟨g, hg⟩ : ∃ g, (pool.insertKeyImage image txid relay).2 =
          { pool with spentKeyImages := g } := by
        rw [insertKeyImage]
        split <;> exact ⟨_, rfl⟩
      dsimp only
      rw [hg]
      split
      · obtain ⟨f, hf⟩ := ih { pool with spentKeyImages := g }
        exact ⟨f, hf⟩
      · exact ⟨g, rfl⟩

/-- A transaction that is not in any set yet is inserted into the sets of all its images, if nobody
else is in them or it comes from a block. -/
theorem insertKeyImages_new (relay : RelayMethod) {pool : TxPool} (hvin : Spends c vin images)
    (hnew : ∀ image ∈ images, txid ∉ pool.spentBy image)
    (hfree : relay ≠ .block → ∀ image ∈ images, pool.spentBy image = ∅)
    (hempty : pool.NoEmptySets) :
    (insertKeyImages c txid relay vin pool).1 = true ∧
      (insertKeyImages c txid relay vin pool).2.NoEmptySets ∧
      ∀ image, (insertKeyImages c txid relay vin pool).2.spentBy image =
        if image ∈ images then insert txid (pool.spentBy image) else pool.spentBy image := by
  induction vin, images, hvin using Spends.induction generalizing pool with
  | nil => exact ⟨rfl, hempty, fun image => by simp [insertKeyImages]⟩
  | cons i vin image images hi hnotin _ _ ih =>
    have hnot : txid ∉ pool.spentBy image := hnew image (mem_cons_self ..)
    have hone : pool.insertKeyImage image txid relay =
        (true, pool.setKeyImage image (some (insert txid (pool.spentBy image)))) := by
      rw [insertKeyImage, if_neg]
      · have : decide (txid ∉ pool.spentBy image) = true := decide_eq_true hnot
        rw [spentBy] at this
        simp only [this, Bool.true_or]
        rfl
      · rintro ⟨hrelay, hne⟩
        exact hne (.inl (hfree hrelay image (mem_cons_self ..)))
    have hrest := @ih (pool.setKeyImage image (some (insert txid (pool.spentBy image))))
      (fun image' hm => by
        rw [spentBy_setKeyImage_of_mem hnotin hm]; exact hnew image' (mem_cons_of_mem _ hm))
      (fun hrelay image' hm => by
        rw [spentBy_setKeyImage_of_mem hnotin hm]
        exact hfree hrelay image' (mem_cons_of_mem _ hm))
      (hempty.setKeyImage image (by simp))
    simp only [insertKeyImages, hi, hone, if_true]
    refine ⟨hrest.1, hrest.2.1, fun image' => ?_⟩
    rw [hrest.2.2 image']
    by_cases heq : image' = image
    · subst heq; simp [hnotin, spentBy_setKeyImage]
    · simp [heq, spentBy_setKeyImage]

/-- A transaction that is in the sets of all its images already leaves them as they are. -/
theorem insertKeyImages_old (relay : RelayMethod) {pool : TxPool} (hvin : Spends c vin images)
    (hold : ∀ image ∈ images, txid ∈ pool.spentBy image) (hempty : pool.NoEmptySets) :
    (insertKeyImages c txid relay vin pool).2.NoEmptySets ∧
      ∀ image, (insertKeyImages c txid relay vin pool).2.spentBy image = pool.spentBy image := by
  induction vin, images, hvin using Spends.induction generalizing pool with
  | nil => exact ⟨hempty, fun image => rfl⟩
  | cons i vin image images hi _ _ _ ih =>
    have hin : txid ∈ pool.spentBy image := hold image (mem_cons_self ..)
    have hne : pool.spentBy image ≠ ∅ := Finset.ne_empty_of_mem hin
    -- whatever the body of the loop does, the set of the image stays as it was
    obtain ⟨b, hb⟩ : ∃ b, pool.insertKeyImage image txid relay =
        (b, pool.setKeyImage image (some (pool.spentBy image))) := by
      rw [insertKeyImage]
      split
      · exact ⟨_, rfl⟩
      · refine ⟨_, Prod.ext rfl ?_⟩
        change pool.setKeyImage image (some (insert txid (pool.spentBy image))) = _
        rw [Finset.insert_eq_of_mem hin]
    have hsame : ∀ image', (pool.setKeyImage image (some (pool.spentBy image))).spentBy image' =
        pool.spentBy image' := by
      intro image'
      rw [spentBy_setKeyImage]
      split
      · next h => subst h; rfl
      · rfl
    have hset : (pool.setKeyImage image (some (pool.spentBy image))).NoEmptySets :=
      hempty.setKeyImage image (by simpa using hne)
    simp only [insertKeyImages, hi, hb]
    cases b with
    | false => exact ⟨hset, hsame⟩
    | true =>
      have hrest := @ih (pool.setKeyImage image (some (pool.spentBy image)))
        (fun image' hm => by rw [hsame]; exact hold image' (mem_cons_of_mem _ hm)) hset
      refine ⟨hrest.1, fun image' => ?_⟩
      rw [← hsame image']
      exact hrest.2 image'

/-- Removing key images changes nothing but the sets. -/
theorem removeTransactionKeyimages_frame (txid : Hash) (vin : List Txin) (pool : TxPool) :
    ∃ f, removeTransactionKeyimages c txid vin pool = { pool with spentKeyImages := f } := by
  induction vin generalizing pool with
  | nil => exact ⟨_, rfl⟩
  | cons i vin ih =>
    rw [removeTransactionKeyimages]
    split
    · exact ⟨_, rfl⟩
    · split
      · next image txids _ _ =>
        obtain ⟨f, hf⟩ := ih (pool.setKeyImage image
          (if txids.erase txid = ∅ then none else some (txids.erase txid)))
        exact ⟨f, hf⟩
      · exact ⟨_, rfl⟩

/-- A transaction that is in the sets of all its images is removed from them, and a set that
becomes empty goes away. -/
theorem removeTransactionKeyimages_spec {pool : TxPool} (hvin : Spends c vin images)
    (hin : ∀ image ∈ images, txid ∈ pool.spentBy image) (hempty : pool.NoEmptySets) :
    (removeTransactionKeyimages c txid vin pool).NoEmptySets ∧
      ∀ image, (removeTransactionKeyimages c txid vin pool).spentBy image =
        if image ∈ images then (pool.spentBy image).erase txid else pool.spentBy image := by
  induction vin, images, hvin using Spends.induction generalizing pool with
  | nil => exact ⟨hempty, fun image => by simp [removeTransactionKeyimages]⟩
  | cons i vin image images hi hnotin _ _ ih =>
    obtain ⟨txids, htxids⟩ : ∃ txids, pool.spentKeyImages image = some txids := by
      have h := hin image (mem_cons_self ..)
      cases hs : pool.spentKeyImages image with
      | none => simp [spentBy, hs] at h
      | some txids => exact ⟨txids, rfl⟩
    have hspent : pool.spentBy image = txids := by rw [spentBy, htxids]; rfl
    have hmem : txid ∈ txids := hspent ▸ hin image (mem_cons_self ..)
    generalize hleft : (if txids.erase txid = ∅ then none else some (txids.erase txid)) = left
    have hgetD : left.getD ∅ = txids.erase txid := by
      rw [← hleft]
      split
      · next h => rw [h]; rfl
      · rfl
    have hleft' : left ≠ some ∅ := by
      rw [← hleft]
      split
      · simp
      · next h => simpa using h
    have hrest := @ih (pool.setKeyImage image left) (fun image' hm => by
        rw [spentBy_setKeyImage_of_mem hnotin hm]; exact hin image' (mem_cons_of_mem _ hm))
      (hempty.setKeyImage image hleft')
    simp only [removeTransactionKeyimages, hi, Option.bind_some, htxids, Option.map_some,
      if_pos hmem, hleft]
    refine ⟨hrest.1, fun image' => ?_⟩
    rw [hrest.2 image']
    by_cases heq : image' = image
    · subst heq; simp [hnotin, spentBy_setKeyImage, hgetD, hspent]
    · simp [heq, spentBy_setKeyImage]

/-! ### The index -/

variable (c) in
/-- The entries are what their ids stand for, and so are the parsed transactions and the sets by key
image. -/
structure Core (facts : TxFacts) (pool : TxPool) : Prop where
  entry : ∀ e ∈ pool.txes.entries, EntryOk c facts e
  parsedCache : ∀ txid tx, pool.parsedTxCache txid = some tx → Spends c tx.vin (facts.images txid)
  spent : ∀ image txid, txid ∈ pool.spentBy image ↔ pool.txes.has txid ∧ image ∈ facts.images txid
  noEmptySets : pool.NoEmptySets

variable (c) in
/-- The tables of the pool agree with each other and with what the ids stand for. -/
structure Index (facts : TxFacts) (pool : TxPool) : Prop extends pool.Core c facts where
  sorted : ∀ txid, pool.sorted.has txid ↔ pool.txes.has txid

/-- The sum of the weights of the entries. -/
def totalWeight (pool : TxPool) : ℕ := (pool.txes.entries.map fun e => e.info.weight).sum

variable {facts : TxFacts} {pool : TxPool} {x : ℕ}

theorem totalWeight_erase (h : pool.txes.find? e.txid = some e) :
    pool.totalWeight =
      e.info.weight + ((pool.txes.erase e.txid).entries.map fun e => e.info.weight).sum := by
  rw [totalWeight, ((Keyed.perm_erase h).map _).sum_eq]
  rfl

/-! ### Taking transactions out -/

/-- Taking a transaction out leaves the caches as they are. -/
theorem removeTx_frame (pool : TxPool) (e : TxpoolEntry) (vin : List Txin) :
    ∃ f, pool.removeTx c e vin = ({ pool with
      txes := pool.txes.erase e.txid
      txpoolWeight := pool.txpoolWeight - e.info.weight
      spentKeyImages := f } : TxPool).removeTxFromTransientLists e.txid := by
  obtain ⟨f, hf⟩ := @removeTransactionKeyimages_frame c e.txid vin
    ((pool.removeTxpoolTx e.txid).reduceTxpoolWeight e.info.weight)
  exact ⟨f, congrArg (·.removeTxFromTransientLists e.txid) hf⟩

theorem removeTx_txes (pool : TxPool) (e : TxpoolEntry) (vin : List Txin) :
    (pool.removeTx c e vin).txes = pool.txes.erase e.txid := by
  obtain ⟨f, hf⟩ := removeTx_frame (c := c) pool e vin
  rw [hf]
  rfl

theorem has_of_find? (h : pool.txes.find? txid = some e) :
    pool.txes.has txid := Keyed.has_iff_find?.mpr ⟨e, h⟩

theorem txid_of_find? (h : pool.txes.find? txid = some e) :
    e.txid = txid := (Keyed.find?_eq_some.mp h).2

/-- The pool without an entry and its key images. -/
theorem Core.removeImages (h : pool.Core c facts) (he : pool.txes.find? e.txid = some e)
    (hvin : Spends c vin (facts.images e.txid)) :
    (removeTransactionKeyimages c e.txid vin
      ((pool.removeTxpoolTx e.txid).reduceTxpoolWeight e.info.weight)).Core c facts := by
  let pool' := (pool.removeTxpoolTx e.txid).reduceTxpoolWeight e.info.weight
  have hin : ∀ image ∈ facts.images e.txid, e.txid ∈ pool'.spentBy image :=
    fun image hm => (h.spent image e.txid).mpr ⟨has_of_find? he, hm⟩
  obtain ⟨f, hf⟩ := @removeTransactionKeyimages_frame c e.txid vin pool'
  obtain ⟨hempty, hspent⟩ := removeTransactionKeyimages_spec hvin hin h.noEmptySets
  rw [hf] at hempty hspent
  rw [hf]
  refine ⟨fun a ha => h.entry a (Keyed.mem_erase.mp ha).1, h.parsedCache, ?_, hempty⟩
  intro image txid
  change txid ∈ ({ pool' with spentKeyImages := f } : TxPool).spentBy image ↔
    (pool.txes.erase e.txid).has txid ∧ _
  have hold := h.spent image txid
  rw [hspent image, Keyed.has_erase]
  by_cases hm : image ∈ facts.images e.txid
  · rw [if_pos hm, Finset.mem_erase]
    change _ ∧ txid ∈ pool.spentBy image ↔ _
    rw [hold]
    tauto
  · rw [if_neg hm]
    change txid ∈ pool.spentBy image ↔ _
    rw [hold]
    constructor
    · rintro ⟨hhas, himage⟩
      refine ⟨⟨hhas, ?_⟩, himage⟩
      rintro rfl
      exact hm himage
    · rintro ⟨⟨hhas, -⟩, himage⟩
      exact ⟨hhas, himage⟩

/-- A transaction that is taken out with the right inputs leaves all tables. -/
theorem Index.removeTx (h : pool.Index c facts) (he : pool.txes.find? e.txid = some e)
    (hvin : Spends c vin (facts.images e.txid)) : (pool.removeTx c e vin).Index c facts := by
  have hcore := h.toCore.removeImages he hvin
  refine ⟨⟨hcore.entry, hcore.parsedCache, hcore.spent, hcore.noEmptySets⟩, fun txid => ?_⟩
  have hsorted : (pool.removeTx c e vin).sorted = pool.sorted.erase e.txid := by
    obtain ⟨f, hf⟩ := removeTx_frame (c := c) pool e vin
    rw [hf]
    rfl
  rw [hsorted, removeTx_txes, Keyed.has_erase, Keyed.has_erase, h.sorted]

theorem weight_removeTx (he : pool.txes.find? e.txid = some e)
    (hw : pool.txpoolWeight = pool.totalWeight + x) :
    (pool.removeTx c e vin).txpoolWeight = (pool.removeTx c e vin).totalWeight + x := by
  have hweight : (pool.removeTx c e vin).txpoolWeight = pool.txpoolWeight - e.info.weight := by
    obtain ⟨f, hf⟩ := removeTx_frame (c := c) pool e vin
    rw [hf]
    rfl
  rw [hweight, totalWeight, removeTx_txes, hw, totalWeight_erase he]
  omega

variable (c) in
/-- The index, and the total weight, which is too large by `x`. -/
structure Sound (facts : TxFacts) (x : ℕ) (pool : TxPool) : Prop extends pool.Index c facts where
  weight : pool.txpoolWeight = pool.totalWeight + x

/-- The ids in `pool'` are ids in `pool`. -/
def Shrinks (pool pool' : TxPool) : Prop := ∀ txid, pool'.txes.has txid → pool.txes.has txid

theorem Shrinks.refl (pool : TxPool) : pool.Shrinks pool := fun _ h => h

theorem Shrinks.trans {pool pool' pool'' : TxPool} (h : pool.Shrinks pool')
    (h' : pool'.Shrinks pool'') : pool.Shrinks pool'' := fun txid ht => h txid (h' txid ht)

theorem shrinks_removeTx (pool : TxPool) (e : TxpoolEntry) (vin : List Txin) :
    pool.Shrinks (pool.removeTx c e vin) := by
  intro txid h
  rw [removeTx_txes, Keyed.has_erase] at h
  exact h.1

theorem Sound.removeTx (h : pool.Sound c facts x) (he : pool.txes.find? e.txid = some e)
    (hvin : Spends c vin (facts.images e.txid)) : (pool.removeTx c e vin).Sound c facts x :=
  ⟨h.toIndex.removeTx he hvin, weight_removeTx he h.weight⟩

theorem Core.entryOk (h : pool.Core c facts)
    (he : pool.txes.find? txid = some e) : EntryOk c facts e :=
  h.entry e (Keyed.find?_eq_some.mp he).1

/-- What `take_tx` returns, from the cache or from the blob, has the right inputs. -/
theorem Core.parsedTx (h : pool.Core c facts) {tx : Transaction}
    (he : pool.txes.find? txid = some e) (htx : pool.parsedTx c e = some tx) :
    Spends c tx.vin (facts.images e.txid) := by
  rw [TxPool.parsedTx] at htx
  split at htx
  · next tx' hcache =>
    obtain rfl := Option.some.inj htx
    exact h.parsedCache e.txid tx' hcache
  · exact (h.entryOk he).parsed htx

/-- **Taking a transaction** keeps the pool sound. -/
theorem Sound.takeTx (h : pool.Sound c facts x) {tx : Transaction} {pool' : TxPool}
    (ht : pool.takeTx c txid = some (tx, e, pool')) :
    pool'.Sound c facts x ∧ pool.Shrinks pool' ∧ pool.txes.find? txid = some e ∧
      Spends c tx.vin (facts.images txid) ∧ ¬ pool'.txes.has txid := by
  simp only [TxPool.takeTx, Option.bind_eq_bind, Option.bind_eq_some_iff, Option.some.injEq,
    Prod.mk.injEq] at ht
  obtain ⟨e', he, tx', htx, rfl, rfl, rfl⟩ := ht
  obtain rfl := txid_of_find? he
  have hvin := h.toCore.parsedTx he htx
  refine ⟨h.removeTx he hvin, shrinks_removeTx _ _ _, he, hvin, ?_⟩
  rw [removeTx_txes, Keyed.has_erase]
  exact fun hn => hn.2 rfl

/-- **Pruning** keeps the pool sound: one step takes a whole transaction out. -/
theorem Sound.pruneLoop (h : pool.Sound c facts x) (bytes : ℕ) (txids : List Hash) :
    (TxPool.pruneLoop c bytes txids pool).Sound c facts x ∧
      pool.Shrinks (TxPool.pruneLoop c bytes txids pool) := by
  induction txids generalizing pool with
  | nil => exact ⟨h, .refl pool⟩
  | cons txid txids ih =>
    rw [TxPool.pruneLoop]
    split
    · exact ⟨h, .refl pool⟩
    · split
      · exact ih h
      · next e he =>
        split
        · exact ih h
        · split
          · exact ⟨h, .refl pool⟩
          · next tx rest hread =>
            obtain ⟨tx', rest', hread', hvin⟩ := (h.entryOk he).prefixed
            obtain ⟨rfl, rfl⟩ : tx = tx' ∧ rest = rest' := by simpa [hread] using hread'
            obtain rfl := txid_of_find? he
            obtain ⟨hs, hsub⟩ := ih (h.removeTx he hvin)
            exact ⟨hs, (shrinks_removeTx pool e tx.vin).trans hsub⟩

theorem Sound.prune (h : pool.Sound c facts x) (bytes : ℕ) :
    (pool.prune c bytes).Sound c facts x ∧ pool.Shrinks (pool.prune c bytes) := by
  rw [TxPool.prune]
  exact h.pruneLoop ..

/-! ### Storing transactions -/

variable (c) in
/-- The transaction that is added has the inputs and the weight that its id stands for, and its
blob is its own. -/
structure NewTx.Ok (facts : TxFacts) (t : NewTx) : Prop where
  spends : Spends c t.tx.vin (facts.images t.txid)
  nonempty : facts.images t.txid ≠ []
  weight : t.weight = facts.weight t.txid
  prefixed : ∃ tx rest, prefixFormat.read .lenient t.blob = some (tx, rest) ∧
    Spends c tx.vin (facts.images t.txid)

variable {p : NodeParams} {now : UInt64} {t : NewTx} {relay stored : RelayMethod}

theorem NewTx.Ok.entryOk (ht : t.Ok c facts) :
    EntryOk c facts ⟨t.txid, t.info now stored, t.blob⟩ := ⟨ht.prefixed, ht.weight⟩

theorem Sound.cacheParsed (h : pool.Sound c facts x) (ht : t.Ok c facts) (kept : Bool) :
    (pool.cacheParsed t kept).Sound c facts x := by
  rw [TxPool.cacheParsed]
  split
  · refine ⟨⟨⟨h.entry, fun txid tx htx => ?_, h.spent, h.noEmptySets⟩, h.sorted⟩, h.weight⟩
    by_cases heq : txid = t.txid
    · subst heq
      obtain rfl : t.tx = tx := by simpa using htx
      exact ht.spends
    · refine h.parsedCache txid tx ?_
      simpa [Function.update_of_ne heq] using htx
  · exact h

theorem cacheParsed_txes (pool : TxPool) (t : NewTx) (kept : Bool) :
    (pool.cacheParsed t kept).txes = pool.txes := by
  rw [cacheParsed]
  split <;> rfl

theorem cacheParsed_spentBy (pool : TxPool) (t : NewTx) (kept : Bool) (image : KeyImage) :
    (pool.cacheParsed t kept).spentBy image = pool.spentBy image := by
  rw [cacheParsed]
  split <;> rfl

/-- The sets after the key images of an admissible transaction have been inserted. -/
theorem Index.insertKeyImages (h : pool.Index c facts) (ht : t.Ok c facts)
    (hfree : relay ≠ .block → ∀ image ∈ facts.images t.txid, pool.spentBy image ⊆ {t.txid}) :
    ∃ b f, TxPool.insertKeyImages c t.txid relay t.tx.vin pool =
        (b, { pool with spentKeyImages := f }) ∧
      ({ pool with spentKeyImages := f } : TxPool).NoEmptySets ∧
      (b = false → pool.txes.has t.txid) ∧
      ∀ image txid, txid ∈ ({ pool with spentKeyImages := f } : TxPool).spentBy image ↔
        (pool.txes.has txid ∨ b = true ∧ txid = t.txid) ∧ image ∈ facts.images txid := by
  obtain ⟨f, hf⟩ := @insertKeyImages_frame c t.txid relay t.tx.vin pool
  generalize hr : TxPool.insertKeyImages c t.txid relay t.tx.vin pool = r at hf ⊢
  obtain ⟨b, pool'⟩ := r
  obtain rfl : pool' = _ := hf
  refine ⟨b, f, rfl, ?_⟩
  by_cases hhas : pool.txes.has t.txid
  · obtain ⟨hempty, hsame⟩ := insertKeyImages_old relay ht.spends
      (fun image hm => (h.spent image t.txid).mpr ⟨hhas, hm⟩) h.noEmptySets
    rw [hr] at hempty hsame
    refine ⟨hempty, fun _ => hhas, fun image txid => ?_⟩
    rw [hsame image, h.spent]
    constructor
    · rintro ⟨hx, hm⟩; exact ⟨.inl hx, hm⟩
    · rintro ⟨hx | ⟨-, rfl⟩, hm⟩
      · exact ⟨hx, hm⟩
      · exact ⟨hhas, hm⟩
  · have hnew : ∀ image ∈ facts.images t.txid, t.txid ∉ pool.spentBy image :=
      fun image _ hm => hhas ((h.spent image t.txid).mp hm).1
    obtain ⟨hok, hempty, hins⟩ := insertKeyImages_new relay ht.spends hnew
      (fun hrelay image hm => Finset.eq_empty_of_forall_notMem fun txid hx => by
        obtain rfl := Finset.mem_singleton.mp (hfree hrelay image hm hx)
        exact hnew image hm hx) h.noEmptySets
    rw [hr] at hok hempty hins
    obtain rfl : b = true := hok
    refine ⟨hempty, fun hb => (Bool.noConfusion hb), fun image txid => ?_⟩
    rw [hins image]
    by_cases hm : image ∈ facts.images t.txid
    · rw [if_pos hm, Finset.mem_insert, h.spent]
      constructor
      · rintro (rfl | ⟨hx, hm'⟩)
        · exact ⟨.inr ⟨rfl, rfl⟩, hm⟩
        · exact ⟨.inl hx, hm'⟩
      · rintro ⟨hx | ⟨-, rfl⟩, hm'⟩
        · exact .inr ⟨hx, hm'⟩
        · exact .inl rfl
    · rw [if_neg hm, h.spent]
      constructor
      · rintro ⟨hx, hm'⟩; exact ⟨.inl hx, hm'⟩
      · rintro ⟨hx | ⟨-, rfl⟩, hm'⟩
        · exact ⟨hx, hm'⟩
        · exact absurd hm' hm

/-- A transaction that the pool holds in the open cannot be inserted again. -/
theorem insertKeyImages_legacy (hvin : Spends c vin images) (hne : images ≠ [])
    (hold : ∀ image ∈ images, txid ∈ pool.spentBy image)
    (hlegacy : pool.txpoolTxMatchesCategory txid .legacy = true) :
    (TxPool.insertKeyImages c txid relay vin pool).1 = false := by
  cases vin, images, hvin using Spends.induction with
  | nil => exact absurd rfl hne
  | cons i vin image images hi =>
    have hin : txid ∈ pool.spentBy image := hold image (mem_cons_self ..)
    have hfail : (pool.insertKeyImage image txid relay).1 = false := by
      rw [insertKeyImage]
      split
      · rfl
      · rw [spentBy] at hin
        simp [hin, hlegacy]
    simp [TxPool.insertKeyImages, hi, hfail]

theorem has_addTxToTransientLists (pool : TxPool) (s : SortedEntry) (txid : Hash) :
    (pool.addTxToTransientLists s).sorted.has txid ↔ txid = s.txid ∨ pool.sorted.has txid := by
  rw [addTxToTransientLists, Keyed.has_insertBy]
  split
  · rw [Keyed.has_erase]
    by_cases heq : txid = s.txid <;> simp [heq]
  · rfl

/-- The sum of the weights after an entry has been stored in place of the one with its id. -/
theorem sum_weight_put (txes : Keyed TxpoolEntry.txid) (e : TxpoolEntry) :
    ((txes.put entryBefore e).entries.map fun e => e.info.weight).sum =
      e.info.weight + ((txes.erase e.txid).entries.map fun e => e.info.weight).sum := by
  rw [((Keyed.perm_put e).map _).sum_eq]
  rfl

/-- What storing a transaction does: it fails only for one that is already there, and then changes
nothing but empty steps; otherwise the entry is there afterwards. The total is not touched. -/
theorem Index.store (h : pool.Index c facts) (p : NodeParams) (now : UInt64) (stored : RelayMethod)
    (ht : t.Ok c facts)
    (hfree : relay ≠ .block → ∀ image ∈ facts.images t.txid, pool.spentBy image ⊆ {t.txid}) :
    ∃ b pool', pool.store c p now t relay stored = (b, pool') ∧ pool'.Index c facts ∧
      pool'.txpoolWeight = pool.txpoolWeight ∧
      (b = false → pool'.txes = pool.txes ∧ pool.txes.has t.txid) ∧
      (b = true → (∀ txid, pool'.txes.has txid ↔ txid = t.txid ∨ pool.txes.has txid) ∧
        (pool.txes.has t.txid → pool'.totalWeight = pool.totalWeight ∧
          pool.txpoolTxMatchesCategory t.txid .legacy = false) ∧
        (¬ pool.txes.has t.txid → pool'.totalWeight = pool.totalWeight + t.weight)) := by
  obtain ⟨b, f, hr, hempty, hfalse, hspent⟩ := h.insertKeyImages ht hfree
  rw [TxPool.store, hr]
  cases b with
  | false =>
    refine ⟨false, _, rfl, ⟨⟨h.entry, h.parsedCache, fun image txid => ?_, hempty⟩, h.sorted⟩, rfl,
      fun _ => ⟨rfl, hfalse rfl⟩, fun hb => Bool.noConfusion hb⟩
    rw [hspent]
    simp
  | true =>
    have hhas : ∀ txid, ((pool.txes.erase t.txid).put entryBefore
        ⟨t.txid, t.info now stored, t.blob⟩).has txid ↔ txid = t.txid ∨ pool.txes.has txid := by
      intro txid
      rw [Keyed.has_put, Keyed.has_erase]
      by_cases heq : txid = t.txid <;> simp [heq]
    have htotal : (((pool.txes.erase t.txid).put entryBefore
        ⟨t.txid, t.info now stored, t.blob⟩).entries.map fun e => e.info.weight).sum =
          t.weight + ((pool.txes.erase t.txid).entries.map fun e => e.info.weight).sum := by
      rw [sum_weight_put, Keyed.erase_eq_self]
      · rfl
      · rw [Keyed.has_erase]
        exact fun hn => hn.2 rfl
    refine ⟨true, _, rfl, ⟨⟨?_, h.parsedCache, fun image txid => ?_, hempty⟩, fun txid => ?_⟩, rfl,
      fun hb => Bool.noConfusion hb, fun _ => ⟨hhas, fun hold => ⟨?_, ?_⟩, fun hnew => ?_⟩⟩
    · intro e he
      rcases Keyed.mem_put.mp he with rfl | ⟨hm, -⟩
      · exact ht.entryOk
      · exact h.entry e (Keyed.mem_erase.mp hm).1
    · have hset := hspent image txid
      refine hset.trans (and_congr_left' ?_)
      refine Iff.trans ?_ (hhas txid).symm
      tauto
    · refine Iff.trans (has_addTxToTransientLists _ _ txid) (Iff.trans ?_ (hhas txid).symm)
      exact or_congr_right (h.sorted txid)
    · obtain ⟨e, he⟩ := Keyed.has_iff_find?.mp hold
      have hid := txid_of_find? he
      have hfind : pool.txes.find? e.txid = some e := hid ▸ he
      refine htotal.trans ?_
      rw [totalWeight_erase hfind, (h.entryOk he).weight, hid, ht.weight]
    · by_contra hlegacy
      have hfail := @insertKeyImages_legacy c _ _ _ pool relay ht.spends ht.nonempty
        (fun image hm => (h.spent image t.txid).mpr ⟨hold, hm⟩) (Bool.not_eq_false _ ▸ hlegacy)
      rw [hr] at hfail
      cases hfail
    · refine htotal.trans ?_
      rw [Keyed.erase_eq_self hnew, Nat.add_comm]
      rfl

/-! ### Adding transactions -/

/-- The transaction that is added comes to the pool, or not, and others may be pruned. -/
def Grows (txid : Hash) (added : Prop) (pool pool' : TxPool) : Prop :=
  ∀ txid', pool'.txes.has txid' → pool.txes.has txid' ∨ added ∧ txid' = txid

/-- The end of `add_tx` keeps the pool sound if the weight that is added is the one missing. -/
theorem Index.finishAdd (h : pool.Index c facts) {added : Bool}
    (hw : pool.txpoolWeight + (if added then t.weight else 0) = pool.totalWeight + x) :
    (pool.finishAdd c t added).Sound c facts x ∧ pool.Shrinks (pool.finishAdd c t added) := by
  rw [TxPool.finishAdd]
  cases added with
  | false => exact Sound.prune ⟨h, hw⟩ _
  | true =>
    have hsound : ({ pool with txpoolWeight := pool.txpoolWeight + t.weight } : TxPool).Sound c
        facts x := ⟨⟨⟨h.entry, h.parsedCache, h.spent, h.noEmptySets⟩, h.sorted⟩, hw⟩
    exact hsound.prune _

theorem getTxpoolTxMeta_eq_none : pool.getTxpoolTxMeta txid = none ↔ ¬ pool.txes.has txid := by
  rw [getTxpoolTxMeta, Option.map_eq_none_iff, Keyed.not_has_iff]

theorem txpoolHasTx_iff : pool.txpoolHasTx txid = true ↔ pool.txes.has txid := by
  rw [txpoolHasTx, Option.isSome_iff_ne_none, ne_eq, getTxpoolTxMeta_eq_none, not_not]

/-- `add_tx` from the point where the transaction is stored: an entry that was there before and is
counted again makes the total too large. -/
theorem Sound.storeAdd (h : pool.Sound c facts x) (p : NodeParams) (now : UInt64)
    (stored : RelayMethod) (ht : t.Ok c facts) {added : Bool}
    (hfree : relay ≠ .block → ∀ image ∈ facts.images t.txid, pool.spentBy image ⊆ {t.txid})
    (hadded : ¬ pool.txes.has t.txid → added = true) {out : Verdict Unit × TxPool}
    (hout : out = if (pool.store c p now t relay stored).1
      then (pure (), (pool.store c p now t relay stored).2.finishAdd c t added)
      else (throw [.verifivationFailed], (pool.store c p now t relay stored).2)) :
    out.2.Sound c facts (x + if (pool.store c p now t relay stored).1 && added &&
        pool.txpoolHasTx t.txid then t.weight else 0) ∧
      pool.Grows t.txid (out.1 = .ok ()) out.2 := by
  obtain ⟨b, pool', hstore, hindex, hweight, hfalse, htrue⟩ := h.toIndex.store p now stored ht hfree
  rw [hstore] at hout ⊢
  subst hout
  cases b with
  | false =>
    obtain ⟨htxes, -⟩ := hfalse rfl
    refine ⟨⟨hindex, ?_⟩, fun txid hx => .inl (htxes ▸ hx)⟩
    exact hweight.trans (h.weight.trans (by rw [totalWeight, totalWeight, ← htxes]; rfl))
  | true =>
    obtain ⟨hhas, hold, hnew⟩ := htrue rfl
    have hw : pool'.txpoolWeight + (if added then t.weight else 0) =
        pool'.totalWeight + (x + if true && added && pool.txpoolHasTx t.txid then t.weight
          else 0) := by
      rw [hweight, h.weight]
      by_cases hin : pool.txes.has t.txid
      · rw [(hold hin).1, txpoolHasTx_iff.mpr hin]
        simp only [Bool.true_and, Bool.and_true]
        omega
      · have hno : pool.txpoolHasTx t.txid = false :=
          Bool.eq_false_iff.mpr fun hn => hin (txpoolHasTx_iff.mp hn)
        rw [hadded hin, hno, hnew hin]
        simp only [Bool.and_false, if_true, Bool.false_eq_true, if_false]
        omega
    obtain ⟨hsound, hshrinks⟩ := hindex.finishAdd hw
    refine ⟨hsound, fun txid hx => ?_⟩
    rcases (hhas txid).mp (hshrinks txid hx) with rfl | hx
    · exact .inr ⟨rfl, rfl⟩
    · exact .inl hx

/-- A transaction that the pool holds, but not in the open, is stored again if it comes from a
block. -/
theorem insertKeyImages_private (hvin : Spends c vin images)
    (hpriv : pool.txpoolTxMatchesCategory txid .legacy = false) :
    (TxPool.insertKeyImages c txid .block vin pool).1 = true := by
  induction vin, images, hvin using Spends.induction generalizing pool with
  | nil => rfl
  | cons i vin image images hi _ _ _ ih =>
    have hone : pool.insertKeyImage image txid .block = (true,
        pool.setKeyImage image (some (insert txid ((pool.spentKeyImages image).getD ∅)))) := by
      simp [insertKeyImage, hpriv]
    simp only [TxPool.insertKeyImages, hi, hone, if_true]
    exact ih hpriv

theorem Sound.addFailed (h : pool.Sound c facts x) (ht : t.Ok c facts) :
    (pool.addFailed c p now t relay).2.Sound c facts (x + if relay = .block ∧
        pool.txpoolHasTx t.txid = true ∧ pool.txpoolTxMatchesCategory t.txid .legacy = false
      then t.weight else 0) ∧
      pool.Grows t.txid ((pool.addFailed c p now t relay).1 = .ok ())
        (pool.addFailed c p now t relay).2 := by
  by_cases hrelay : relay = .block
  · have hsame := cacheParsed_txes pool t true
    have hcached := h.cacheParsed ht true
    have hlegacy : (pool.cacheParsed t true).txpoolTxMatchesCategory t.txid .legacy =
        pool.txpoolTxMatchesCategory t.txid .legacy := by
      rw [txpoolTxMatchesCategory, txpoolTxMatchesCategory, getTxpoolTxMeta, getTxpoolTxMeta, hsame]
    have hhas : (pool.cacheParsed t true).txpoolHasTx t.txid = pool.txpoolHasTx t.txid := by
      rw [txpoolHasTx, txpoolHasTx, getTxpoolTxMeta, getTxpoolTxMeta, hsame]
    obtain ⟨hsound, hgrows⟩ := hcached.storeAdd p now relay ht (fun hne => absurd hrelay hne)
      (fun _ => rfl) (show pool.addFailed c p now t relay = _ by
        rw [TxPool.addFailed, if_pos hrelay])
    refine ⟨?_, fun txid hx => hsame ▸ hgrows txid hx⟩
    -- the entry is stored again exactly if it was a private one
    have hstored : pool.txpoolHasTx t.txid = true →
        ((pool.cacheParsed t true).store c p now t relay relay).1 =
          !pool.txpoolTxMatchesCategory t.txid .legacy := by
      intro hin
      cases hl : pool.txpoolTxMatchesCategory t.txid .legacy with
      | true =>
        have hold : ∀ image ∈ facts.images t.txid,
            t.txid ∈ (pool.cacheParsed t true).spentBy image := fun image hm =>
          (hcached.spent image t.txid).mpr ⟨txpoolHasTx_iff.mp (hhas ▸ hin), hm⟩
        have := @insertKeyImages_legacy c _ _ _ _ relay ht.spends ht.nonempty hold
          (hlegacy.trans hl)
        simp [TxPool.store, this]
      | false =>
        have := insertKeyImages_private ht.spends (hlegacy.trans hl)
        simp [TxPool.store, hrelay, this]
    convert hsound using 2
    rw [hhas]
    cases hin : pool.txpoolHasTx t.txid with
    | false => simp
    | true =>
      rw [hstored hin]
      simp [hrelay]
  · rw [TxPool.addFailed, if_neg hrelay, if_neg fun hn => hrelay hn.1]
    exact ⟨h, fun txid hx => .inl hx⟩

theorem upgraded_ne_block {m : Option TxpoolTxMeta} (h : upgraded relay m ≠ .block) :
    relay ≠ .block := by
  rintro rfl
  cases m <;> simp [upgraded] at h

theorem Sound.addPassed (h : pool.Sound c facts x) (ht : t.Ok c facts)
    (hfree : relay ≠ .block → ∀ image ∈ facts.images t.txid, pool.spentBy image ⊆ {t.txid}) :
    (pool.addPassed c p now t relay).2.Sound c facts x ∧
      pool.Grows t.txid ((pool.addPassed c p now t relay).1 = .ok ())
        (pool.addPassed c p now t relay).2 := by
  rw [TxPool.addPassed]
  have hsame := cacheParsed_txes pool t (decide (relay = .block))
  have hcached := h.cacheParsed ht (decide (relay = .block))
  have hfree' : relay ≠ .block → ∀ image ∈ facts.images t.txid,
      (pool.cacheParsed t (decide (relay = .block))).spentBy image ⊆ {t.txid} :=
    fun hne image hm => cacheParsed_spentBy pool t _ image ▸ hfree hne image hm
  generalize pool.cacheParsed t (decide (relay = .block)) = pool₁ at hsame hcached hfree'
  dsimp only
  split
  · obtain ⟨hsound, hgrows⟩ := hcached.storeAdd p now _ ht
      (fun hne => hfree' (upgraded_ne_block hne))
      (fun hnew => Option.isNone_iff_eq_none.mpr (getTxpoolTxMeta_eq_none.mpr hnew)) rfl
    refine ⟨?_, fun txid hx => hsame ▸ hgrows txid hx⟩
    -- the weight is added only if there was no entry
    convert hsound using 2
    rw [txpoolHasTx]
    cases pool₁.getTxpoolTxMeta t.txid <;> simp
  · obtain ⟨hsound, hshrinks⟩ :=
      @Index.finishAdd c facts pool₁ x t hcached.toIndex false hcached.weight
    exact ⟨hsound, fun txid hx => .inl (hsame ▸ hshrinks txid hx)⟩

/-- The inputs of a transaction that has passed the checks without inputs have distinct images. -/
theorem spends_of_semantic {tx : Transaction} {version : UInt8}
    (h : SemanticAccepted c tx version) : Spends c tx.vin (tx.vin.filterMap (spentImage c)) := by
  have hall : ∀ i ∈ tx.vin, ∃ image, spentImage c i = some image := by
    intro i hi
    have := all_eq_true.mp h.types i hi
    cases i <;> simp_all [spentImage]
  have hmap : tx.vin.map (spentImage c) = (tx.vin.filterMap (spentImage c)).map some := by
    clear h
    generalize tx.vin = vin at hall
    induction vin with
    | nil => rfl
    | cons i vin ih =>
      obtain ⟨image, himage⟩ := hall i (mem_cons_self ..)
      simp only [map_cons, filterMap_cons, himage]
      rw [ih fun j hj => hall j (mem_cons_of_mem _ hj)]
  exact ⟨hmap, h.images⟩

variable (c) in
/-- What the caller of `add_tx` vouches for: the id, the weight and the blob belong to the
transaction, and the rules without inputs have been checked at some version if the call skips
them. -/
structure NewTx.Admissible (facts : TxFacts) (t : NewTx) (version nicVerifiedHfVersion : UInt8) :
    Prop where
  images : t.tx.vin.filterMap (spentImage c) = facts.images t.txid
  weight : t.weight = facts.weight t.txid
  blob : parseFor c t.tx.pruned t.blob = some t.tx
  verified : version = nicVerifiedHfVersion → ∃ v, verNonInputConsensus c v [t.tx] = .ok ()

theorem images_ne_nil_of_verified {tx : Transaction} {v : UInt8}
    (hv : verNonInputConsensus c v [tx] = .ok ()) (hspends : Spends c tx.vin images) :
    images ≠ [] := by
  have hne := (verNonInputConsensus_ok hv (mem_singleton_self _)).semantic.nonempty
  rintro rfl
  exact hne (by simpa using hspends.1)

variable {chain : Blockchain} {version nic : UInt8}

/-- What has been tested before the inputs are checked. -/
theorem checkNew_ok (h : pool.checkNew c chain t relay version nic = .ok ()) :
    (version ≠ nic → verNonInputConsensus c version [t.tx] = .ok ()) ∧
      (relay ≠ .block → pool.haveTxKeyimgesAsSpent c t.tx t.txid = false) := by
  have hrelayed : ((if relay ≠ .block then pool.checkRelayed c chain t else pure ()) :
      Verdict Unit) = .ok () →
      relay ≠ .block → pool.haveTxKeyimgesAsSpent c t.tx t.txid = false := by
    intro hr hne
    rw [if_pos hne] at hr
    simp only [checkRelayed, Check.ensure_bind_ok, Check.ensure_ok] at hr
    simpa using hr.2.2.2
  obtain ⟨-, h⟩ := Check.ensure_bind_ok.mp h
  dsimp only at h
  split at h
  · obtain ⟨hnic, h⟩ := Check.unit_bind_ok.mp h
    exact ⟨fun _ => hnic, hrelayed h⟩
  · next heq => exact ⟨fun hne => absurd hne heq, hrelayed h⟩

/-- An admissible transaction that passes the first checks has the inputs of its id. -/
theorem NewTx.Admissible.ok (ht : t.Admissible c facts version nic)
    (hnew : pool.checkNew c chain t relay version nic = .ok ()) : t.Ok c facts := by
  obtain ⟨v, hv⟩ : ∃ v, verNonInputConsensus c v [t.tx] = .ok () := by
    by_cases heq : version = nic
    · exact ht.verified heq
    · exact ⟨version, (checkNew_ok hnew).1 heq⟩
  have hsem := (verNonInputConsensus_ok hv (mem_singleton_self _)).semantic
  have hspends := spends_of_semantic hsem
  rw [ht.images] at hspends
  obtain ⟨rest, hread⟩ := prefix_of_parseFor ht.blob
  exact ⟨hspends, images_ne_nil_of_verified hv hspends, ht.weight,
    ⟨_, rest, hread, hspends⟩⟩

/-- If nobody else is seen to spend an image, nobody else does. -/
theorem spentBy_subset_of_not_spent {vin : TransactionPrefix} (hvin : Spends c vin.vin images)
    (h : pool.haveTxKeyimgesAsSpent c vin txid = false) :
    ∀ image ∈ images, pool.spentBy image ⊆ {txid} := by
  intro image hm
  obtain ⟨i, hi, himage⟩ : ∃ i ∈ vin.vin, spentImage c i = some image :=
    mem_map.mp (hvin.1 ▸ mem_map_of_mem hm)
  have := any_eq_false.mp h i hi
  simp only [himage, haveTxKeyimgAsSpent, Bool.and_eq_true, decide_eq_true_eq, Bool.or_eq_true,
    not_and_or, not_or, not_not] at this
  rw [spentBy]
  rcases this with hnone | ⟨hself, -⟩
  · rw [hnone]; exact Finset.empty_subset _
  · rw [hself]

theorem checkTxInputs_frame (pool : TxPool) (p : NodeParams) (chain : Blockchain) (now : UInt64)
    (tx : Option Transaction) (txid : Hash) (kept : Bool) :
    ∃ f, (pool.checkTxInputs c p chain now tx txid kept).2 = { pool with inputCache := f } := by
  unfold checkTxInputs
  split
  · exact ⟨_, rfl⟩
  · cases tx with
    | none => exact ⟨_, rfl⟩
    | some tx => cases kept <;> exact ⟨_, rfl⟩

theorem Sound.setCache (h : pool.Sound c facts x) (f : Hash → Option (Verdict Unit)) :
    ({ pool with inputCache := f } : TxPool).Sound c facts x :=
  ⟨⟨⟨h.entry, h.parsedCache, h.spent, h.noEmptySets⟩, h.sorted⟩, h.weight⟩

variable (c) in
/-- A transaction is counted a second time: it comes from a block, its inputs do not pass, and the
pool holds it already, but not in the open. -/
def Recounts (pool : TxPool) (p : NodeParams) (chain : Blockchain) (now : UInt64) (t : NewTx)
    (relay : RelayMethod) (version nic : UInt8) : Prop :=
  relay = .block ∧ Check.passes (pool.checkNew c chain t relay version nic) = true ∧
    Check.passes (chain.checkTxInputs p c now t.tx true) = false ∧
    pool.txpoolHasTx t.txid = true ∧ pool.txpoolTxMatchesCategory t.txid .legacy = false

instance : Decidable (pool.Recounts c p chain now t relay version nic) :=
  inferInstanceAs (Decidable (_ ∧ _))

/-- **Adding a transaction** keeps the tables in agreement, and the total as it was unless the
transaction is counted twice. A transaction that was not in a block shares no key image with another
one of the pool. -/
theorem Sound.addTx (h : pool.Sound c facts x)
    (hok : pool.checkNew c chain t relay version nic = .ok () → t.Ok c facts) :
    (pool.addTx c p chain now t relay version nic).2.Sound c facts
        (x + if pool.Recounts c p chain now t relay version nic then t.weight else 0) ∧
      pool.Grows t.txid ((pool.addTx c p chain now t relay version nic).1 = .ok ())
        (pool.addTx c p chain now t relay version nic).2 ∧
      ((pool.addTx c p chain now t relay version nic).1 = .ok () → relay ≠ .block →
        ∀ image ∈ facts.images t.txid, pool.spentBy image ⊆ {t.txid}) := by
  rw [TxPool.addTx]
  cases hnew : pool.checkNew c chain t relay version nic with
  | error e =>
    have hno : ¬ pool.Recounts c p chain now t relay version nic := by
      simp [Recounts, hnew, Check.passes]
    rw [if_neg hno]
    exact ⟨h, fun txid hx => .inl hx, fun he => by cases he⟩
  | ok u =>
    have ht := hok hnew
    have hfree : relay ≠ .block → ∀ image ∈ facts.images t.txid, pool.spentBy image ⊆ {t.txid} :=
      fun hne => spentBy_subset_of_not_spent ht.spends ((checkNew_ok hnew).2 hne)
    obtain ⟨f, hf⟩ := @checkTxInputs_frame c pool p chain now (some t.tx) t.txid
      (decide (relay = .block))
    have hsound := h.setCache f
    have hinputs : relay = .block → (pool.checkTxInputs c p chain now (some t.tx) t.txid
        (decide (relay = .block))).1 = chain.checkTxInputs p c now t.tx true := by
      rintro rfl
      simp [TxPool.checkTxInputs]
    dsimp only
    rw [hf]
    cases hres : (pool.checkTxInputs c p chain now (some t.tx) t.txid
        (decide (relay = .block))).1 with
    | error e =>
      obtain ⟨hs, hg⟩ := @Sound.addFailed c facts _ x p now t relay hsound ht
      refine ⟨?_, hg, fun _ => hfree⟩
      convert hs using 3
      rw [Recounts, hnew]
      refine and_congr_right fun hrelay => ?_
      rw [← hinputs hrelay, hres]
      simp only [Check.passes, true_and]
      rfl
    | ok u =>
      obtain ⟨hs, hg⟩ := @Sound.addPassed c facts _ x p now t relay hsound ht hfree
      refine ⟨?_, hg, fun _ => hfree⟩
      rw [if_neg]
      · exact hs
      · rintro ⟨hrelay, -, hfail, -⟩
        rw [← hinputs hrelay, hres] at hfail
        cases hfail

end TxPool

end Hidering
