import Hidering.Machine.Run
import Hidering.Pool.Bookkeeping
import Hidering.Verify.Balance

/-!
# Runs of the pool

A pool is initialised from the entries in the database and then receives calls in any order, each
with a chain of its own (`PoolCall`, `PoolState.step`). The state of a run also remembers which
transactions were last added with `relay_method::block`; only these may share a key image with
another one.

`TxPool.Sound` is kept by every call; the total weight grows by a transaction that is counted twice
(`TxPool.Recounts`) and is right otherwise.

## Main definitions

* `Hidering.PoolCall`, `Hidering.PoolState`
* `Hidering.PoolState.Bookkeeping` — the indexes as they are seen from outside

## Main results

* `Hidering.TxPool.Sound.validate`, `Sound.removeStuckTransactions`, `Sound.setRelayed`,
  `Sound.fillLoop`, `sound_of_init` — one call
* `Hidering.PoolState.bookkeeping_iff_of_run` — whole runs
-/

namespace Hidering

open Wire Machine Store Crypto List

variable {c : Crypto} {facts : TxFacts} {pool : TxPool} {p : NodeParams} {chain : Blockchain}
  {now : UInt64} {version : UInt8} {x : ℕ}

variable {relay : RelayMethod} {nic : UInt8}

namespace TxPool

/-! ### Changing the metadata -/

variable {txid : Hash}

/-- Metadata with the same weight keep the pool sound. -/
theorem Sound.updateTxpoolTx (h : pool.Sound c facts x) {info : TxpoolTxMeta}
    (hw : info.weight = facts.weight txid) :
    (pool.updateTxpoolTx txid info).Sound c facts x ∧
      ∀ txid', (pool.updateTxpoolTx txid info).txes.has txid' ↔ pool.txes.has txid' := by
  rw [TxPool.updateTxpoolTx]
  split
  · exact ⟨h, fun _ => Iff.rfl⟩
  · next e he =>
    obtain rfl := txid_of_find? he
    have hhas : ∀ txid', (pool.txes.put entryBefore { e with info := info }).has txid' ↔
        pool.txes.has txid' := by
      intro txid'
      rw [Keyed.has_put]
      exact ⟨fun hx => hx.elim (fun heq => heq ▸ has_of_find? he) id, .inr⟩
    refine ⟨⟨⟨⟨?_, h.parsedCache, ?_, h.noEmptySets⟩, ?_⟩, ?_⟩, hhas⟩
    · intro a ha
      rcases Keyed.mem_put.mp ha with rfl | ⟨hm, -⟩
      · exact ⟨(h.entryOk he).prefixed, hw⟩
      · exact h.entry a hm
    · exact fun image txid' => (h.spent image txid').trans (and_congr_left' (hhas txid').symm)
    · exact fun txid' => (h.sorted txid').trans (hhas txid').symm
    · have hsum : (pool.addTxpoolTx { e with info := info }).totalWeight = pool.totalWeight := by
        refine (sum_weight_put pool.txes { e with info := info }).trans ?_
        rw [totalWeight_erase he, (h.entryOk he).weight, hw]
      rw [hsum]
      exact h.weight

/-- A pool with another input cache and metadata of the same weight. -/
theorem Sound.onBlockchainChange (h : pool.Sound c facts x) :
    pool.onBlockchainChange.Sound c facts x :=
  ⟨⟨⟨h.entry, fun _ _ hn => (by cases hn), h.spent, h.noEmptySets⟩, h.sorted⟩, h.weight⟩

/-! ### Revalidation -/

theorem not_verified_default : verNonInputConsensus c version [default] ≠ .ok () := by
  intro h
  exact (verNonInputConsensus_ok h (mem_singleton_self _)).semantic.nonempty rfl

theorem addTx_of_error {t : NewTx} {e : List TvcFlag}
    (h : pool.checkNew c chain t relay version nic = .error e) :
    pool.addTx c p chain now t relay version nic = (.error e, pool) := by
  rw [TxPool.addTx, h]

variable {e : TxpoolEntry}

/-- A transaction that is taken out and added again is there afterwards, or it is not. -/
theorem Sound.revalidate (h : pool.Sound c facts x) (he : EntryOk c facts e) (hv : version ≠ 0) :
    (pool.revalidate c p chain now version e).Sound c facts x ∧
      pool.Shrinks (pool.revalidate c p chain now version e) := by
  rw [TxPool.revalidate]
  cases htake : pool.takeTx c e.txid with
  | none =>
    -- the empty transaction is refused
    have hnew : ∃ err, pool.checkNew c chain ⟨default, e.txid, [], e.info.weight⟩
        e.info.relayMethod version 0 = .error err := by
      cases hc : pool.checkNew c chain ⟨default, e.txid, [], e.info.weight⟩
          e.info.relayMethod version 0 with
      | error err => exact ⟨err, rfl⟩
      | ok u => exact absurd ((checkNew_ok hc).1 hv) not_verified_default
    obtain ⟨err, hnew⟩ := hnew
    simp only [Option.getD_none]
    rw [addTx_of_error hnew]
    exact ⟨h, .refl pool⟩
  | some r =>
    obtain ⟨tx, e', pool'⟩ := r
    obtain ⟨hsound, hshrinks, hfind, hspends, hgone⟩ := h.takeTx htake
    have hid := txid_of_find? hfind
    obtain ⟨hs, hgrows, -⟩ := @Sound.addTx c facts pool' x p now
      ⟨tx, e.txid, e'.blob, e.info.weight⟩ e.info.relayMethod chain version 0 hsound (fun hnew => by
        have hverified := (checkNew_ok hnew).1 hv
        exact ⟨hspends, images_ne_nil_of_verified hverified hspends, he.weight,
          hid ▸ (h.entryOk hfind).prefixed⟩)
    -- it is not in the pool any more, so that it is not counted twice
    rw [if_neg fun hcount => hgone (txpoolHasTx_iff.mp hcount.2.2.2.1)] at hs
    have hsub : pool.Shrinks (pool'.addTx c p chain now ⟨tx, e.txid, e'.blob, e.info.weight⟩
        e.info.relayMethod version 0).2 := by
      intro txid hx
      rcases hgrows txid hx with hx | ⟨-, rfl⟩
      · exact hshrinks txid hx
      · exact has_of_find? hfind
    simp only [Option.getD_some]
    split
    · exact ⟨hs, hsub⟩
    · obtain ⟨hs', hhas⟩ := hs.updateTxpoolTx he.weight
      exact ⟨hs', fun txid hx => hsub txid ((hhas txid).mp hx)⟩

/-- **Revalidation** keeps the pool sound. -/
theorem Sound.validate (h : pool.Sound c facts x) (hv : version ≠ 0) :
    (pool.validate c p chain now version).Sound c facts x ∧
      pool.Shrinks (pool.validate c p chain now version) := by
  have hok : ∀ e ∈ pool.txes.entries.filter fun e => !e.info.pruned, EntryOk c facts e :=
    fun e he => h.entry e (mem_filter.mp he).1
  have hstart : ({ pool with addedTxsById := ∅ } : TxPool).Sound c facts x ∧
      pool.Shrinks { pool with addedTxsById := ∅ } :=
    ⟨⟨⟨⟨h.entry, h.parsedCache, h.spent, h.noEmptySets⟩, h.sorted⟩, h.weight⟩, fun _ hx => hx⟩
  rw [TxPool.validate]
  generalize ({ pool with addedTxsById := ∅ } : TxPool) = pool₁ at hstart ⊢
  generalize pool.txes.entries.filter (fun e => !e.info.pruned) = es at hok ⊢
  induction es generalizing pool₁ with
  | nil => exact hstart
  | cons e es ih =>
    obtain ⟨hs, hsub⟩ := hstart.1.revalidate (hok e (mem_cons_self ..)) hv
    exact ih _ ⟨hs, hstart.2.trans hsub⟩ fun e' he' => hok e' (mem_cons_of_mem _ he')

/-! ### Stuck transactions -/

theorem foldl_timeOut (es : List TxpoolEntry) (pool : TxPool) :
    ∃ sorted added timedOut, es.foldl timeOut pool =
        { pool with sorted := sorted, addedTxsById := added, timedOut := timedOut } ∧
      ∀ txid, sorted.has txid ↔ pool.sorted.has txid ∧ ∀ e ∈ es, e.txid ≠ txid := by
  induction es generalizing pool with
  | nil => exact ⟨_, _, _, rfl, by simp⟩
  | cons e es ih =>
    obtain ⟨sorted, added, timedOut, heq, hhas⟩ := ih (timeOut pool e)
    refine ⟨sorted, added, timedOut, heq, fun txid => (hhas txid).trans ?_⟩
    change (pool.sorted.erase e.txid).has txid ∧ _ ↔ _
    rw [Keyed.has_erase, forall_mem_cons, and_assoc, ne_comm]

variable {es : List TxpoolEntry}

/-- What the second loop keeps: the entries and the sets, and the total weight. -/
theorem foldl_removeStuck {pool : TxPool} (h : pool.Core c facts)
    (hw : pool.txpoolWeight = pool.totalWeight + x)
    (hes : ∀ e ∈ es, pool.txes.find? e.txid = some e) (hnodup : (es.map TxpoolEntry.txid).Nodup) :
    (es.foldl (removeStuck c) pool).Core c facts ∧
      (es.foldl (removeStuck c) pool).txpoolWeight =
        (es.foldl (removeStuck c) pool).totalWeight + x ∧
      (es.foldl (removeStuck c) pool).sorted = pool.sorted ∧
      ∀ txid, (es.foldl (removeStuck c) pool).txes.has txid ↔
        pool.txes.has txid ∧ ∀ e ∈ es, e.txid ≠ txid := by
  induction es generalizing pool with
  | nil => exact ⟨h, hw, rfl, by simp⟩
  | cons e es ih =>
    obtain ⟨hnotin, hnodup⟩ := nodup_cons.mp hnodup
    have he := hes e (mem_cons_self ..)
    obtain ⟨tx, rest, hread, hvin⟩ := (h.entryOk he).prefixed
    obtain ⟨f, hf⟩ := @removeTransactionKeyimages_frame c e.txid tx.vin
      ((pool.removeTxpoolTx e.txid).reduceTxpoolWeight e.info.weight)
    have hcore := h.removeImages he hvin
    have hstep : removeStuck c pool e = { pool with
        txes := pool.txes.erase e.txid, txpoolWeight := pool.txpoolWeight - e.info.weight,
        spentKeyImages := f } := by
      rw [removeStuck, hread]
      exact hf
    rw [hf] at hcore
    simp only [foldl_cons, hstep]
    obtain ⟨hcore', hw', hsorted, hhas⟩ := @ih
      { pool with
        txes := pool.txes.erase e.txid, txpoolWeight := pool.txpoolWeight - e.info.weight,
        spentKeyImages := f } hcore (by
          change pool.txpoolWeight - e.info.weight =
            ((pool.txes.erase e.txid).entries.map fun e => e.info.weight).sum + x
          rw [hw, totalWeight_erase he]
          omega)
        (fun a ha => by
          have hne : a.txid ≠ e.txid := fun heq => hnotin (heq ▸ mem_map_of_mem ha)
          exact (Keyed.find?_erase_of_ne hne).trans (hes a (mem_cons_of_mem _ ha)))
        hnodup
    refine ⟨hcore', hw', hsorted, fun txid => (hhas txid).trans ?_⟩
    change (pool.txes.erase e.txid).has txid ∧ _ ↔ _
    rw [Keyed.has_erase, forall_mem_cons, and_assoc, ne_comm]

/-- **Removing stuck transactions** keeps the pool sound: both loops run over the same entries. -/
theorem Sound.removeStuckTransactions (h : pool.Sound c facts x) :
    (pool.removeStuckTransactions c now).Sound c facts x ∧
      pool.Shrinks (pool.removeStuckTransactions c now) := by
  rw [TxPool.removeStuckTransactions]
  have hes : ∀ e ∈ pool.txes.entries.filter (isStuck now), pool.txes.find? e.txid = some e :=
    fun e he => Keyed.find?_eq_some.mpr ⟨(mem_filter.mp he).1, rfl⟩
  have hnodup : ((pool.txes.entries.filter (isStuck now)).map TxpoolEntry.txid).Nodup :=
    pool.txes.nodup.sublist (filter_sublist.map _)
  generalize pool.txes.entries.filter (isStuck now) = es at hes hnodup ⊢
  obtain ⟨sorted, added, timedOut, heq, hsorted⟩ := foldl_timeOut es pool
  obtain ⟨hcore, hw, hsame, hhas⟩ := @foldl_removeStuck c facts x es (es.foldl timeOut pool)
    (by rw [heq]; exact ⟨h.entry, h.parsedCache, h.spent, h.noEmptySets⟩)
    (by rw [heq]; exact h.weight) (by rw [heq]; exact hes) hnodup
  have hhas' : ∀ txid, (es.foldl (removeStuck c) (es.foldl timeOut pool)).txes.has txid ↔
      pool.txes.has txid ∧ ∀ e ∈ es, e.txid ≠ txid := by
    intro txid
    rw [hhas txid, heq]
  refine ⟨⟨⟨hcore, fun txid => ?_⟩, hw⟩, fun txid hx => ((hhas' txid).mp hx).1⟩
  rw [hsame, hhas' txid, heq]
  exact (hsorted txid).trans (and_congr_left' (h.sorted txid))

/-! ### Relayed transactions -/

theorem Sound.setRelayed1 (h : pool.Sound c facts x) (method : RelayMethod) (txid : Hash) :
    (pool.setRelayed1 p now method txid).Sound c facts x ∧
      pool.Shrinks (pool.setRelayed1 p now method txid) := by
  rw [TxPool.setRelayed1]
  split
  · exact ⟨h, .refl pool⟩
  · next m hm =>
    obtain ⟨e, he, rfl⟩ := Option.map_eq_some_iff.mp hm
    have hid := txid_of_find? he
    dsimp only
    generalize (if e.info.relayMethod.value < method.value then method
      else e.info.relayMethod) = after
    obtain ⟨hs, hhas⟩ := @Sound.updateTxpoolTx c facts pool x txid h
      { e.info with relayMethod := after } (hid ▸ (h.entryOk he).weight)
    have hin := (hhas txid).mpr (has_of_find? he)
    generalize pool.updateTxpoolTx txid _ = pool' at hs hhas hin ⊢
    split
    · refine ⟨⟨⟨⟨hs.entry, hs.parsedCache, hs.spent, hs.noEmptySets⟩, fun txid' => ?_⟩,
        hs.weight⟩, fun txid' hx => (hhas txid').mp hx⟩
      rw [has_addTxToTransientLists]
      change txid' = txid ∨ _ ↔ _
      rw [hs.sorted]
      exact ⟨fun hx => hx.elim (fun heq => heq ▸ hin) id, .inr⟩
    · exact ⟨hs, fun txid' hx => (hhas txid').mp hx⟩

theorem Sound.setRelayed (h : pool.Sound c facts x) (txids : List Hash) (method : RelayMethod) :
    (pool.setRelayed p now txids method).Sound c facts x ∧
      pool.Shrinks (pool.setRelayed p now txids method) := by
  rw [TxPool.setRelayed]
  induction txids generalizing pool with
  | nil => exact ⟨h, .refl pool⟩
  | cons txid txids ih =>
    obtain ⟨hs, hsub⟩ := h.setRelayed1 method txid
    obtain ⟨hs', hsub'⟩ := ih hs
    exact ⟨hs', hsub.trans hsub'⟩

/-! ### Templates -/

/-- Looking at a transaction for a template changes the cache of input checks only, and of the
metadata only the block at which the inputs failed. -/
theorem isTransactionReadyToGo_frame (pool : TxPool) (e : TxpoolEntry) :
    (∃ f, (pool.isTransactionReadyToGo c p chain now e).pool = { pool with inputCache := f }) ∧
      ∃ id, (pool.isTransactionReadyToGo c p chain now e).info =
        { e.info with lastFailedId := id } := by
  rw [isTransactionReadyToGo]
  split
  · exact ⟨⟨_, rfl⟩, _, rfl⟩
  · dsimp only
    split
    · exact ⟨⟨_, rfl⟩, _, rfl⟩
    · exact ⟨⟨_, rfl⟩, _, rfl⟩
    · split
      · exact ⟨⟨_, rfl⟩, _, rfl⟩
      · next tx _ =>
        obtain ⟨f, hf⟩ := @checkTxInputs_frame c pool p chain now (some tx) e.txid false
        split <;> exact ⟨⟨f, hf⟩, _, rfl⟩

theorem Sound.considerTx {t : Template} (h : t.pool.Sound c facts x)
    (he : t.pool.txes.find? e.txid = some e) (coinbase : UInt64) :
    (considerTx c p chain now t e coinbase).pool.Sound c facts x ∧
      t.pool.Shrinks (considerTx c p chain now t e coinbase).pool := by
  obtain ⟨⟨f, hf⟩, id, hid⟩ := @isTransactionReadyToGo_frame c p chain now t.pool e
  have hcached := h.setCache f
  have hpool : (TxPool.considerTx c p chain now t e coinbase).pool =
      if (t.pool.isTransactionReadyToGo c p chain now e).info = e.info
        then { t.pool with inputCache := f }
        else ({ t.pool with inputCache := f } : TxPool).updateTxpoolTx e.txid
          { e.info with lastFailedId := id } := by
    rw [TxPool.considerTx, ← hid, ← hf]
    split <;> rfl
  rw [hpool]
  split
  · exact ⟨hcached, .refl t.pool⟩
  · obtain ⟨hs, hhas⟩ := @Sound.updateTxpoolTx c facts _ x e.txid hcached
      { e.info with lastFailedId := id } (h.entryOk he).weight
    exact ⟨hs, fun txid hx => (hhas txid).mp hx⟩

theorem Sound.fillLoop {t : Template} (h : t.pool.Sound c facts x) (a : TemplateArgs)
    (rest : List SortedEntry) :
    (fillLoop c p chain now a rest t).pool.Sound c facts x ∧
      t.pool.Shrinks (fillLoop c p chain now a rest t).pool := by
  induction rest generalizing t with
  | nil => exact ⟨h, .refl t.pool⟩
  | cons s rest ih =>
    rw [TxPool.fillLoop]
    split
    · exact ih h
    · next e he =>
      split
      · exact ih h
      · next coinbase _ =>
        split
        · exact ⟨h, .refl t.pool⟩
        · have hfind : t.pool.txes.find? e.txid = some e := (txid_of_find? he).symm ▸ he
          obtain ⟨hs, hsub⟩ := h.considerTx hfind coinbase
          obtain ⟨hs', hsub'⟩ := ih hs
          exact ⟨hs', hsub.trans hsub'⟩

/-! ### Start -/

theorem insertKeyImage_of_true {image : KeyImage}
    (h : (pool.insertKeyImage image txid relay).1 = true) :
    (relay ≠ .block → pool.spentBy image ⊆ {txid}) ∧
      (pool.insertKeyImage image txid relay).2 =
        pool.setKeyImage image (some (insert txid (pool.spentBy image))) := by
  rw [insertKeyImage] at h ⊢
  split at h
  · cases h
  · next hfree =>
    rw [if_neg hfree]
    refine ⟨fun hrelay => ?_, rfl⟩
    rw [← spentBy, not_and, not_not] at hfree
    rcases hfree hrelay with hnone | hself
    · rw [hnone]; exact Finset.empty_subset _
    · rw [hself]

/-- A transaction that was not in a block is inserted only where nobody else is. -/
theorem spentBy_subset_of_insertKeyImages {vin : List Txin} {images : List KeyImage} {pool : TxPool}
    (hvin : Spends c vin images) (hrelay : relay ≠ .block)
    (h : (insertKeyImages c txid relay vin pool).1 = true) :
    ∀ image ∈ images, pool.spentBy image ⊆ {txid} := by
  obtain ⟨hmap, hnodup⟩ := hvin
  induction images generalizing vin pool with
  | nil => exact fun image hm => absurd hm not_mem_nil
  | cons image images ih =>
    cases vin with
    | nil => cases hmap
    | cons i vin =>
      obtain ⟨hi, hmap⟩ := List.cons.inj hmap
      obtain ⟨hnotin, hnodup⟩ := nodup_cons.mp hnodup
      simp only [insertKeyImages, hi] at h
      split at h
      · next hone =>
        obtain ⟨hfirst, hpool⟩ := insertKeyImage_of_true hone
        rw [hpool] at h
        intro image' hm
        rcases mem_cons.mp hm with rfl | hm
        · exact hfirst hrelay
        · have hrest := ih h hmap hnodup image' hm
          have hne : image' ≠ image := fun heq => hnotin (heq ▸ hm)
          rwa [spentBy_setKeyImage, if_neg hne] at hrest
      · cases h

/-- An entry that `init` can use. -/
def readable (e : TxpoolEntry) : Bool := (prefixFormat.read .lenient e.blob).isSome

/-- The state of `init` after the entries `es` have been loaded. -/
structure Loaded (facts : TxFacts) (txes : Keyed TxpoolEntry.txid) (es : List TxpoolEntry)
    (pool : TxPool) : Prop where
  txes : pool.txes = txes
  cache : ∀ txid, pool.parsedTxCache txid = none
  spent : ∀ image txid, txid ∈ pool.spentBy image ↔
    txid ∈ es.map TxpoolEntry.txid ∧ image ∈ facts.images txid
  noEmptySets : pool.NoEmptySets
  sorted : ∀ txid, pool.sorted.has txid ↔ txid ∈ es.map TxpoolEntry.txid
  weight : pool.txpoolWeight = (es.map fun e => e.info.weight).sum
  shared : ∀ a ∈ es, ∀ b ∈ es, a.txid ≠ b.txid →
    ∀ image ∈ facts.images a.txid, image ∈ facts.images b.txid →
      a.info.relayMethod = .block ∨ b.info.relayMethod = .block

variable {txes : Keyed TxpoolEntry.txid}

theorem Loaded.initTx {pool' : TxPool} (h : pool.Loaded facts txes es)
    (he : readable e = true → EntryOk c facts e) (hnew : e.txid ∉ es.map TxpoolEntry.txid)
    (hinit : initTx c p pool e = some pool') :
    pool'.Loaded facts txes (es ++ [e].filter readable) := by
  rw [TxPool.initTx] at hinit
  split at hinit
  · next hread =>
    obtain rfl := Option.some.inj hinit
    simpa [readable, hread] using h
  · next tx rest hread =>
    have hr : readable e = true := by simp [readable, hread]
    obtain ⟨tx', rest', hread', hvin⟩ := (he hr).prefixed
    obtain ⟨rfl, rfl⟩ : tx = tx' ∧ rest = rest' := by simpa [hread] using hread'
    dsimp only at hinit
    split at hinit
    · next hins =>
      have hsets := fun hne => spentBy_subset_of_insertKeyImages hvin hne hins
      have hnotin : ∀ image ∈ facts.images e.txid, e.txid ∉ pool.spentBy image :=
        fun image _ hm => hnew ((h.spent image e.txid).mp hm).1
      obtain ⟨-, hempty, hspent⟩ := insertKeyImages_new e.info.relayMethod hvin hnotin
        (fun hne image hm => Finset.eq_empty_of_forall_notMem fun txid hx => by
          obtain rfl := Finset.mem_singleton.mp (hsets hne image hm hx)
          exact hnotin image hm hx) h.noEmptySets
      obtain ⟨f, hf⟩ := @insertKeyImages_frame c e.txid e.info.relayMethod tx.vin pool
      obtain rfl := Option.some.inj hinit
      rw [hf] at hempty hspent ⊢
      have hfilter : [e].filter readable = [e] := by simp [hr]
      rw [hfilter]
      refine ⟨h.txes, h.cache, fun image txid => ?_, hempty, fun txid => ?_, ?_, ?_⟩
      · refine Iff.trans (Finset.ext_iff.mp (hspent image) txid) ?_
        rw [map_append, mem_append, map_singleton, mem_singleton]
        by_cases hm : image ∈ facts.images e.txid
        · rw [if_pos hm, Finset.mem_insert, h.spent]
          constructor
          · rintro (rfl | ⟨hx, hi⟩)
            · exact ⟨.inr rfl, hm⟩
            · exact ⟨.inl hx, hi⟩
          · rintro ⟨hx | rfl, hi⟩
            · exact .inr ⟨hx, hi⟩
            · exact .inl rfl
        · rw [if_neg hm, h.spent]
          constructor
          · rintro ⟨hx, hi⟩; exact ⟨.inl hx, hi⟩
          · rintro ⟨hx | rfl, hi⟩
            · exact ⟨hx, hi⟩
            · exact absurd hi hm
      · refine Iff.trans (has_addTxToTransientLists _ _ txid) ?_
        rw [map_append, mem_append, map_singleton, mem_singleton]
        change txid = e.txid ∨ pool.sorted.has txid ↔ _
        rw [h.sorted, or_comm]
      · change pool.txpoolWeight + e.info.weight = _
        rw [h.weight, map_append, sum_append]
        simp
      · -- a new entry that was not in a block shares nothing with the earlier ones
        have hlast : ∀ a ∈ es, ∀ image ∈ facts.images a.txid, image ∈ facts.images e.txid →
            e.info.relayMethod = .block := by
          intro a ha image hia hie
          by_contra hne
          have hm := mem_map_of_mem (f := TxpoolEntry.txid) ha
          have := hsets hne image hie ((h.spent image a.txid).mpr ⟨hm, hia⟩)
          exact hnew (Finset.mem_singleton.mp this ▸ hm)
        intro a ha b hb hne image hia hib
        rcases mem_append.mp ha with ha' | ha' <;> rcases mem_append.mp hb with hb' | hb'
        · exact h.shared a ha' b hb' hne image hia hib
        · obtain rfl := mem_singleton.mp hb'
          exact .inr (hlast a ha' image hia hib)
        · obtain rfl := mem_singleton.mp ha'
          exact .inl (hlast b hb' image hib hia)
        · rw [mem_singleton.mp ha', mem_singleton.mp hb'] at hne
          exact absurd rfl hne
    · cases hinit

theorem Loaded.foldlM {es l : List TxpoolEntry} {pool pool' : TxPool}
    (h : pool.Loaded facts txes es) (hl : ∀ e ∈ l, readable e = true → EntryOk c facts e)
    (hnodup : ((es ++ l).map TxpoolEntry.txid).Nodup)
    (hinit : l.foldlM (TxPool.initTx c p) pool = some pool') :
    pool'.Loaded facts txes (es ++ l.filter readable) := by
  induction l generalizing es pool with
  | nil =>
    obtain rfl := Option.some.inj hinit
    simpa using h
  | cons e l ih =>
    rw [foldlM_cons] at hinit
    obtain ⟨pool₁, h₁, hinit⟩ := Option.bind_eq_some_iff.mp hinit
    have hnew : e.txid ∉ es.map TxpoolEntry.txid := by
      rw [map_append, nodup_append] at hnodup
      exact fun hm => hnodup.2.2 _ hm _ (mem_cons_self ..) rfl
    have hsub : List.Sublist ((es ++ [e].filter readable) ++ l) (es ++ e :: l) := by
      rw [append_assoc]
      exact (List.Sublist.refl es).append ((filter_sublist (l := [e])).append (.refl l))
    have := ih (h.initTx (hl e (mem_cons_self ..)) hnew h₁)
      (fun a ha => hl a (mem_cons_of_mem _ ha)) (hnodup.sublist (hsub.map _)) hinit
    rw [append_assoc] at this
    rwa [← filter_append] at this

theorem foldl_removeTxpoolTx (es : List TxpoolEntry) (pool : TxPool) :
    ∃ txes, es.foldl (fun pool e => pool.removeTxpoolTx e.txid) pool =
        { pool with txes := txes } ∧
      ∀ a, a ∈ txes.entries ↔ a ∈ pool.txes.entries ∧ ∀ e ∈ es, a.txid ≠ e.txid := by
  induction es generalizing pool with
  | nil => exact ⟨_, rfl, by simp⟩
  | cons e es ih =>
    obtain ⟨txes, heq, hmem⟩ := ih (pool.removeTxpoolTx e.txid)
    refine ⟨txes, heq, fun a => (hmem a).trans ?_⟩
    change a ∈ (pool.txes.erase e.txid).entries ∧ _ ↔ _
    rw [Keyed.mem_erase, forall_mem_cons, and_assoc]

/-- After all entries have been loaded and the others removed, the pool is sound. -/
theorem Loaded.sound (h : pool.Loaded facts txes es) (hes : es.Perm (txes.entries.filter readable))
    (hdb : ∀ e ∈ txes.entries, readable e = true → EntryOk c facts e) :
    ∃ txes', (txes.entries.filter fun e => !readable e).foldl
        (fun pool e => pool.removeTxpoolTx e.txid) pool = { pool with txes := txes' } ∧
      (∀ a, a ∈ txes'.entries ↔ a ∈ es) ∧
      ({ pool with txes := txes' } : TxPool).Sound c facts 0 := by
  obtain ⟨txes', heq, hmem⟩ := foldl_removeTxpoolTx (txes.entries.filter fun e => !readable e) pool
  have hentries : ∀ a, a ∈ txes'.entries ↔ a ∈ es := by
    intro a
    rw [hmem, h.txes, hes.mem_iff, mem_filter]
    refine and_congr_right fun ha => ⟨fun hne => ?_, fun hr e he hid => ?_⟩
    · by_contra hr
      exact hne a (mem_filter.mpr ⟨ha, by simpa using hr⟩) rfl
    · obtain ⟨he, hr'⟩ := mem_filter.mp he
      obtain rfl := Keyed.eq_of_key_eq ha he hid
      simp [hr] at hr'
  have hhas : ∀ txid, txes'.has txid ↔ txid ∈ es.map TxpoolEntry.txid := by
    intro txid
    rw [mem_map]
    exact exists_congr fun a => and_congr_left' (hentries a)
  have hperm : txes'.entries.Perm es := by
    refine (perm_ext_iff_of_nodup (.of_map _ txes'.nodup) ?_).mpr hentries
    exact hes.nodup_iff.mpr ((List.Nodup.of_map _ txes.nodup).filter _)
  refine ⟨txes', heq, hentries, ⟨⟨⟨fun e he => ?_, fun txid tx htx => ?_, fun image txid => ?_,
    h.noEmptySets⟩, fun txid => ?_⟩, ?_⟩⟩
  · obtain ⟨he, hr⟩ := mem_filter.mp (hes.mem_iff.mp ((hentries e).mp he))
    exact hdb e he hr
  · rw [h.cache txid] at htx
    cases htx
  · exact (h.spent image txid).trans (and_congr_left' (hhas txid).symm)
  · exact (h.sorted txid).trans (hhas txid).symm
  · exact h.weight.trans (hperm.map _).sum_eq.symm

/-- **Start.** The pool that `init` builds is sound, and of two transactions that share a key image
one was stored as coming from a block. -/
theorem sound_of_init {maxWeight : ℕ}
    (hdb : ∀ e ∈ txes.entries, readable e = true → EntryOk c facts e)
    (h : init c p txes maxWeight = some pool) :
    pool.Sound c facts 0 ∧
      ∀ a ∈ pool.txes.entries, ∀ b ∈ pool.txes.entries, a.txid ≠ b.txid →
        ∀ image ∈ facts.images a.txid, image ∈ facts.images b.txid →
          a.info.relayMethod = .block ∨ b.info.relayMethod = .block := by
  obtain ⟨pool₁, h₁, h⟩ := Option.bind_eq_some_iff.mp h
  obtain ⟨pool₂, h₂, h⟩ := Option.bind_eq_some_iff.mp h
  obtain rfl := Option.some.inj h
  clear h
  let isKept := fun e : TxpoolEntry => decide (e.info.relayMethod = .block)
  let start : TxPool := { TxPool.empty with
    txes := txes
    txpoolMaxWeight := if maxWeight = 0 then defaultTxpoolMaxWeight else maxWeight }
  let order := (txes.entries.filter fun e => !isKept e) ++ txes.entries.filter isKept
  have hperm : order.Perm txes.entries :=
    perm_append_comm.trans (filter_append_perm isKept txes.entries)
  have hfold : order.foldlM (TxPool.initTx c p) start = some pool₂ := by
    rw [foldlM_append]
    exact Option.bind_eq_some_iff.mpr ⟨pool₁, h₁, h₂⟩
  have hstart : start.Loaded facts txes [] := by
    refine ⟨rfl, fun _ => rfl, ?_, ?_, ?_, rfl, ?_⟩
    · simp [start, spentBy, TxPool.empty]
    · simp [start, NoEmptySets, TxPool.empty]
    · simp [start, TxPool.empty, Keyed.has, Keyed.empty]
    · simp
  have hloaded := hstart.foldlM (fun e he => hdb e (hperm.mem_iff.mp he))
    ((hperm.map TxpoolEntry.txid).nodup_iff.mpr txes.nodup) hfold
  obtain ⟨txes', heq, hmem, hsound⟩ := hloaded.sound (hperm.filter readable) hdb
  have hunread : (txes.entries.filter fun e => (prefixFormat.read .lenient e.blob).isNone) =
      txes.entries.filter fun e => !readable e := by simp [readable]
  rw [hunread, heq]
  refine ⟨hsound, fun a ha b hb => ?_⟩
  exact hloaded.shared a ((hmem a).mp ha) b ((hmem b).mp hb)

end TxPool

/-! ### Runs -/

/-- A call of a function of the pool, with the chain and the time at which it comes. -/
inductive PoolCall where
  | addTx (chain : Blockchain) (now : UInt64) (t : TxPool.NewTx) (relay : RelayMethod)
      (version nicVerifiedHfVersion : UInt8)
  | takeTx (txid : Hash)
  | prune (bytes : ℕ)
  | removeStuckTransactions (now : UInt64)
  | setRelayed (now : UInt64) (txids : List Hash) (method : RelayMethod)
  | validate (chain : Blockchain) (now : UInt64) (version : UInt8)
  | fillBlockTemplate (chain : Blockchain) (now : UInt64) (args : TemplateArgs)
  | onBlockchainChange

variable (c facts) in
/-- What the callers keep to: a transaction comes with its own id, blob and weight, and the versions
at which the pool is revalidated are those of hard forks, which are not 0. -/
def PoolCall.Admissible : PoolCall → Prop
  | .addTx _ _ t _ version nic => t.Admissible c facts version nic
  | .validate _ _ version => version ≠ 0
  | _ => True

variable (c p) in
/-- The call counts a transaction twice. -/
def PoolCall.Recounts (pool : TxPool) : PoolCall → Prop
  | .addTx chain now t relay version nic =>
    pool.Recounts c p chain now t relay version nic ∧ 0 < t.weight
  | _ => False

/-- A pool, with the transactions that were last added with `relay_method::block`, and the weight
that has been counted twice. -/
structure PoolState where
  pool : TxPool
  kept : Finset Hash
  recounted : ℕ

namespace PoolState

variable (c p) in
/-- The pool after a call. -/
def step (s : PoolState) : PoolCall → PoolState
  | .addTx chain now t relay version nic =>
    let r := s.pool.addTx c p chain now t relay version nic
    { pool := r.2
      kept := if Check.passes r.1
        then if relay = .block then insert t.txid s.kept else s.kept.erase t.txid
        else s.kept
      recounted := s.recounted +
        if s.pool.Recounts c p chain now t relay version nic then t.weight else 0 }
  | .takeTx txid => { s with pool := ((s.pool.takeTx c txid).map fun r => r.2.2).getD s.pool }
  | .prune bytes => { s with pool := s.pool.prune c bytes }
  | .removeStuckTransactions now => { s with pool := s.pool.removeStuckTransactions c now }
  | .setRelayed now txids method => { s with pool := s.pool.setRelayed p now txids method }
  | .validate chain now version => { s with pool := s.pool.validate c p chain now version }
  | .fillBlockTemplate chain now args =>
    { s with
      pool := ((s.pool.fillBlockTemplate c p chain now args).map Template.pool).getD s.pool }
  | .onBlockchainChange => { s with pool := s.pool.onBlockchainChange }

variable (c p) in
/-- The pool has just been initialised from the entries of the database. -/
def Initialised (facts : TxFacts) (s : PoolState) : Prop :=
  ∃ txes maxWeight, (∀ e ∈ txes.entries, TxPool.readable e = true → EntryOk c facts e) ∧
    TxPool.init c p txes maxWeight = some s.pool ∧
    (∀ e ∈ s.pool.txes.entries, e.info.relayMethod = .block → e.txid ∈ s.kept) ∧ s.recounted = 0

variable (c) in
/-- The indexes of the pool, as they are seen from outside: the sets by key image hold exactly the
transactions of the pool with such an input; of two transactions that share an image, one was added
with `relay_method::block`; the weight is the sum of the weights; and the order by fee holds exactly
the transactions of the pool. -/
structure Bookkeeping (s : PoolState) : Prop where
  spent : ∀ image txid, txid ∈ s.pool.spentBy image ↔
    ∃ e ∈ s.pool.txes.entries, e.txid = txid ∧ image ∈ e.images c
  noEmptySets : ∀ image, s.pool.spentKeyImages image ≠ some ∅
  shared : ∀ a ∈ s.pool.txes.entries, ∀ b ∈ s.pool.txes.entries, a.txid ≠ b.txid →
    ∀ image ∈ a.images c, image ∈ b.images c → a.txid ∈ s.kept ∨ b.txid ∈ s.kept
  weight : s.pool.txpoolWeight = (s.pool.txes.entries.map fun e => e.info.weight).sum
  sorted : ∀ txid, txid ∈ s.pool.sorted.entries.map SortedEntry.txid ↔
    txid ∈ s.pool.txes.entries.map TxpoolEntry.txid

variable (c) in
/-- What a run keeps. -/
structure Inv (facts : TxFacts) (s : PoolState) : Prop where
  sound : s.pool.Sound c facts s.recounted
  shared : ∀ a b, s.pool.txes.has a → s.pool.txes.has b → a ≠ b →
    ∀ image ∈ facts.images a, image ∈ facts.images b → a ∈ s.kept ∨ b ∈ s.kept

variable {s : PoolState}

theorem Inv.bookkeeping_iff (h : s.Inv c facts) : s.Bookkeeping c ↔ s.recounted = 0 := by
  have himages : ∀ e ∈ s.pool.txes.entries, e.images c = facts.images e.txid :=
    fun e he => (h.sound.entry e he).images
  refine ⟨fun hbook => ?_, fun hzero => ⟨fun image txid => ?_, h.sound.noEmptySets,
    fun a ha b hb hne image hia hib => ?_, ?_, fun txid => ?_⟩⟩
  · have := hbook.weight.symm.trans h.sound.weight
    exact Nat.left_eq_add.mp this
  · rw [h.sound.spent]
    constructor
    · rintro ⟨⟨e, he, rfl⟩, hm⟩
      exact ⟨e, he, rfl, (himages e he).symm ▸ hm⟩
    · rintro ⟨e, he, rfl, hm⟩
      exact ⟨⟨e, he, rfl⟩, himages e he ▸ hm⟩
  · rw [himages a ha] at hia
    rw [himages b hb] at hib
    exact h.shared a.txid b.txid ⟨a, ha, rfl⟩ ⟨b, hb, rfl⟩ hne image hia hib
  · rw [h.sound.weight, hzero]
    rfl
  · rw [mem_map, mem_map]
    exact h.sound.sorted txid

theorem Inv.of_initialised (h : s.Initialised c p facts) : s.Inv c facts := by
  obtain ⟨txes, maxWeight, hdb, hinit, hkept, hzero⟩ := h
  obtain ⟨hsound, hshared⟩ := TxPool.sound_of_init hdb hinit
  refine ⟨hzero.symm ▸ hsound, ?_⟩
  rintro _ _ ⟨a, ha, rfl⟩ ⟨b, hb, rfl⟩ hne image hia hib
  exact (hshared a ha b hb hne image hia hib).imp (hkept a ha) (hkept b hb)

/-- A call that adds nothing. -/
theorem Inv.of_shrinks (h : s.Inv c facts) {pool' : TxPool} (hs : pool'.Sound c facts s.recounted)
    (hsub : s.pool.Shrinks pool') : Inv c facts { s with pool := pool' } :=
  ⟨hs, fun a b ha hb => h.shared a b (hsub a ha) (hsub b hb)⟩

theorem Inv.addTx (h : s.Inv c facts) {t : TxPool.NewTx} (ht : t.Admissible c facts version nic) :
    (s.step c p (.addTx chain now t relay version nic)).Inv c facts := by
  obtain ⟨hs, hgrows, hfree⟩ := @TxPool.Sound.addTx c facts s.pool s.recounted p now t relay chain
    version nic h.sound ht.ok
  rw [step]
  generalize s.pool.addTx c p chain now t relay version nic = r at hs hgrows hfree ⊢
  obtain ⟨verdict, pool'⟩ := r
  refine ⟨hs, ?_⟩
  cases hv : verdict with
  | error e =>
    -- nothing is added
    have hsub : s.pool.Shrinks pool' := fun txid hx => by
      rcases hgrows txid hx with hx | ⟨hok, -⟩
      · exact hx
      · cases hv.symm.trans hok
    exact fun a b ha hb => h.shared a b (hsub a ha) (hsub b hb)
  | ok u =>
    have hgrows' : ∀ txid, pool'.txes.has txid → txid ≠ t.txid → s.pool.txes.has txid :=
      fun txid hx hne => (hgrows txid hx).resolve_right fun hn => hne hn.2
    simp only [Check.passes, if_true]
    intro a b ha hb hne image hia hib
    split
    · -- a transaction from a block may share with any other
      simp only [Finset.mem_insert]
      by_cases hat : a = t.txid
      · exact .inl (.inl hat)
      · by_cases hbt : b = t.txid
        · exact .inr (.inl hbt)
        · exact (h.shared a b (hgrows' a ha hat) (hgrows' b hb hbt) hne image hia hib).imp .inr .inr
    · next hrelay =>
      -- another one shares with none
      have halone : ∀ txid, s.pool.txes.has txid → image ∈ facts.images txid →
          image ∈ facts.images t.txid → txid = t.txid := fun txid hx hi hit =>
        Finset.mem_singleton.mp (hfree (by rw [hv]) hrelay image hit
          ((h.sound.spent image txid).mpr ⟨hx, hi⟩))
      by_cases hat : a = t.txid
      · subst hat
        exact absurd (halone b (hgrows' b hb hne.symm) hib hia) hne.symm
      · by_cases hbt : b = t.txid
        · subst hbt
          exact absurd (halone a (hgrows' a ha hne) hia hib) hne
        · rw [Finset.mem_erase, Finset.mem_erase]
          exact (h.shared a b (hgrows' a ha hat) (hgrows' b hb hbt) hne image hia hib).imp
            (⟨hat, ·⟩) (⟨hbt, ·⟩)

/-- One call keeps the invariant. -/
theorem Inv.step (h : s.Inv c facts) (call : PoolCall)
    (hcall : call.Admissible c facts) : (s.step c p call).Inv c facts := by
  cases call with
  | addTx chain now t relay version nic => exact h.addTx hcall
  | takeTx txid =>
    rw [PoolState.step]
    cases htake : s.pool.takeTx c txid with
    | none => exact h
    | some r =>
      obtain ⟨hs, hsub, -⟩ := h.sound.takeTx htake
      exact h.of_shrinks hs hsub
  | prune bytes =>
    obtain ⟨hs, hsub⟩ := h.sound.prune bytes
    exact h.of_shrinks hs hsub
  | removeStuckTransactions now =>
    obtain ⟨hs, hsub⟩ := @TxPool.Sound.removeStuckTransactions c facts s.pool now _ h.sound
    exact h.of_shrinks hs hsub
  | setRelayed now txids method =>
    obtain ⟨hs, hsub⟩ := @TxPool.Sound.setRelayed c facts s.pool p now _ h.sound txids method
    exact h.of_shrinks hs hsub
  | validate chain now version =>
    obtain ⟨hs, hsub⟩ := @TxPool.Sound.validate c facts s.pool p chain now version _ h.sound hcall
    exact h.of_shrinks hs hsub
  | fillBlockTemplate chain now args =>
    rw [PoolState.step, TxPool.fillBlockTemplate]
    split
    · exact h
    · next reward _ =>
      obtain ⟨hs, hsub⟩ := @TxPool.Sound.fillLoop c facts p chain now _
        ⟨[], 0, 0, reward, ∅, s.pool⟩ h.sound args s.pool.sorted.entries
      exact h.of_shrinks hs hsub
  | onBlockchainChange => exact h.of_shrinks h.sound.onBlockchainChange (.refl s.pool)

variable (c p) in
/-- The calls of a run are admissible. -/
def Run (facts : TxFacts) : PoolState → List PoolCall → Prop :=
  Along (PoolState.step c p) fun _ call => call.Admissible c facts

theorem Inv.run {calls : List PoolCall} (hs : s.Initialised c p facts)
    (hrun : Run c p facts s calls) : (calls.foldl (PoolState.step c p) s).Inv c facts :=
  hrun.invariant (fun _ call h hc => h.step call hc) (Inv.of_initialised hs)

theorem recounted_step (s : PoolState) (call : PoolCall) :
    s.recounted ≤ (s.step c p call).recounted ∧
      ((s.step c p call).recounted = s.recounted ↔ ¬ call.Recounts c p s.pool) := by
  cases call with
  | addTx chain now t relay version nic =>
    refine ⟨Nat.le_add_right .., ?_⟩
    rw [PoolState.step, PoolCall.Recounts, Nat.add_eq_left]
    split
    · next h => simp [h, Nat.pos_iff_ne_zero]
    · next h => simp [h]
  | _ => exact ⟨Nat.le_refl _, by simp [PoolState.step, PoolCall.Recounts]⟩

/-- The weight that has been counted twice never becomes less. -/
theorem recounted_run (s : PoolState) (calls : List PoolCall) :
    s.recounted ≤ (calls.foldl (PoolState.step c p) s).recounted ∧
      ((calls.foldl (PoolState.step c p) s).recounted = s.recounted ↔
        Along (PoolState.step c p) (fun s call => ¬ call.Recounts c p s.pool) s calls) := by
  induction calls generalizing s with
  | nil => exact ⟨Nat.le_refl _, by simp [Along]⟩
  | cons call calls ih =>
    obtain ⟨hle, hiff⟩ := @recounted_step c p s call
    obtain ⟨hle', hiff'⟩ := ih (s.step c p call)
    refine ⟨hle.trans hle', ?_⟩
    rw [Along, ← hiff, ← hiff', foldl_cons]
    omega

/-- **The bookkeeping of the pool** is right after a run if and only if no call of the run has
counted a transaction twice. -/
theorem bookkeeping_iff_of_run {s : PoolState} {calls : List PoolCall}
    (hs : s.Initialised c p facts) (hrun : Run c p facts s calls) :
    (calls.foldl (PoolState.step c p) s).Bookkeeping c ↔
      Along (PoolState.step c p) (fun s call => ¬ call.Recounts c p s.pool) s calls := by
  have hzero : s.recounted = 0 := by
    obtain ⟨_, _, _, _, _, hzero⟩ := hs
    exact hzero
  rw [(Inv.run hs hrun).bookkeeping_iff, ← (recounted_run s calls).2, hzero]

/-! ### A transaction that is counted twice -/

/-- The spend of the first output of `boundChain`, as it is added. -/
def sampleTx : TxPool.NewTx := (TxPool.NewTx.ofTransaction .transparent (boundSpend 0)).getD default

/-- Another spend of the same output, in a block of its own. -/
def rivalSpend : Transaction :=
  { boundSpend 0 with
    vout := [⟨1000, .toTaggedKey ⟨natLe 2000, 0⟩⟩,
      ⟨2000, .toTaggedKey ⟨natLe 2001, 0⟩⟩] }

def rivalBlock : Block × BlockMeta × List (Transaction × Bytes) :=
  ({ boundBlock 16 10 with txHashes := [transparent.getTransactionHash rivalSpend] },
    ⟨0, 0, 0, 0⟩, [(rivalSpend, (serializeTransaction rivalSpend).getD [])])

/-- All transactions of the samples below spend the same output and weigh the same. -/
def sampleFacts : TxFacts where
  images _ := sampleTx.tx.vin.filterMap (spentImage .transparent)
  weight _ := sampleTx.weight

theorem admissible_of_sample {t : TxPool.NewTx}
    (himages : t.tx.vin.filterMap (spentImage .transparent) = sampleFacts.images t.txid)
    (h : t.weight = sampleFacts.weight t.txid ∧
      parseFor .transparent t.tx.pruned t.blob = some t.tx ∧
      Check.passes (verNonInputConsensus .transparent 16 [t.tx]) = true) :
    t.Admissible .transparent sampleFacts 16 nic :=
  ⟨himages, h.1, h.2.1, fun _ => ⟨16, Check.ok_of_passes h.2.2⟩⟩

theorem sampleTx_admissible : sampleTx.Admissible .transparent sampleFacts 16 nic :=
  admissible_of_sample rfl (by decide +kernel)

/-- The pool of a new node. -/
def newState : PoolState := ⟨TxPool.empty, ∅, 0⟩

theorem newState_initialised {facts : TxFacts} : newState.Initialised .transparent .sample facts :=
  ⟨Keyed.empty, 0, fun _ he => absurd he not_mem_nil, rfl,
    fun _ he => absurd he not_mem_nil, rfl⟩

/-- The wallet of the node sends a transaction. Then a block spends the same output by another
transaction, and a block of an alternative chain brings the first one again: its inputs do not pass
now, the pool has it as a private one, and its weight is added a second time. -/
theorem bookkeeping_fails_of_recount :
    ∃ db db', addBlocks .transparent (boundChain 16 10) (Db.empty 0) = .ok () db ∧
      addBlocks .transparent [rivalBlock] db = .ok () db' ∧
      ∃ calls, calls = [.addTx (.sample db) 0 sampleTx .local_ 16 0,
          .addTx (.sample db') 0 sampleTx .block 16 16] ∧
        newState.Initialised .transparent .sample sampleFacts ∧
        (∀ call ∈ calls, call.Admissible .transparent sampleFacts) ∧
        ¬ (calls.foldl (PoolState.step .transparent .sample) newState).Bookkeeping
          .transparent := by
  obtain ⟨⟨⟩, db, hdb, h⟩ := Store.exists_of_okAnd
    (r := addBlocks .transparent (boundChain 16 10) (Db.empty 0))
    (p := fun _ db => Store.okAnd (addBlocks .transparent [rivalBlock] db) fun _ db' =>
      let s := PoolState.step .transparent .sample
        (PoolState.step .transparent .sample newState (.addTx (.sample db) 0 sampleTx .local_ 16 0))
        (.addTx (.sample db') 0 sampleTx .block 16 16)
      decide (s.pool.txpoolWeight ≠ (s.pool.txes.entries.map fun e => e.info.weight).sum))
    (by decide +kernel)
  obtain ⟨⟨⟩, db', hdb', h⟩ := Store.exists_of_okAnd h
  refine ⟨db, db', hdb, hdb', _, rfl, newState_initialised, ?_, fun hbook => ?_⟩
  · intro call hcall
    rcases mem_cons.mp hcall with rfl | hcall
    · exact sampleTx_admissible
    · obtain rfl := mem_singleton.mp hcall
      exact sampleTx_admissible
  · exact of_decide_eq_true h hbook.weight

/-- A run with a transaction that is added, relayed, revalidated and offered for a block. -/
theorem bookkeeping_of_sample_run :
    ∃ db, addBlocks .transparent (boundChain 16 10) (Db.empty 0) = .ok () db ∧
      PoolState.Bookkeeping .transparent
        ([.addTx (.sample db) 0 sampleTx .local_ 16 0, .setRelayed 1 [sampleTx.txid] .fluff,
          .validate (.sample db) 2 16, .fillBlockTemplate (.sample db) 3 ⟨300000, 0, 16⟩].foldl
            (PoolState.step .transparent .sample) newState) := by
  obtain ⟨⟨⟩, db, hdb, -⟩ := Store.exists_of_okAnd
    (r := addBlocks .transparent (boundChain 16 10) (Db.empty 0)) (p := fun _ _ => true)
    (by decide +kernel)
  refine ⟨db, hdb, (bookkeeping_iff_of_run (@newState_initialised sampleFacts) ?_).mpr ?_⟩
  · exact ⟨sampleTx_admissible, trivial, (by decide : (16 : UInt8) ≠ 0), trivial, trivial⟩
  · exact ⟨fun h => RelayMethod.noConfusion h.1.1, id, id, id, trivial⟩

end PoolState

end Hidering
