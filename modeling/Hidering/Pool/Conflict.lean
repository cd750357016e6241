import Hidering.Pool.Run

/-!
# Conflicts in block templates

`fill_block_template` skips a transaction that has a key image in common with one taken before. It
sees the key images of a transaction only if it has parsed it, which it does when the result of the
input check is not in the cache. A transaction with a good result in the cache is taken without a
look at its images, and so is one that conflicts with it.

Before the first request on a tip the cache holds only what `add_tx` has put there, for transactions
that were not in a block; a request adds all transactions that it has looked at. Templates are free
of conflicts as long as no transaction with a good result in the cache shares an image with another
one (`TxPool.CachedAlone`).

## Main definitions

* `Hidering.TxPool.ConflictFree`, `TxPool.Listable`, `TxPool.CachedAlone`

## Main results

* `Hidering.TxPool.Sound.conflictFree` — one request
* `Hidering.PoolState.template_conflictFree_of_run` — after any run
* `Hidering.TxPool.fillBlockTemplate_accounted` — weight, fee and reward of a template
-/

namespace Hidering

open Wire Machine Store List

variable {c : Crypto} {facts : TxFacts} {pool : TxPool} {p : NodeParams} {chain : Blockchain}
  {now : UInt64} {x : ℕ}

namespace TxPool

variable (c) in
/-- The transactions are different ones of the pool, and no two of them share a key image. -/
def ConflictFree (pool : TxPool) (txids : List Hash) : Prop :=
  txids.Nodup ∧ (∀ txid ∈ txids, ∃ e ∈ pool.txes.entries, e.txid = txid) ∧
    ∀ a ∈ pool.txes.entries, ∀ b ∈ pool.txes.entries, a.txid ∈ txids → b.txid ∈ txids →
      a.txid ≠ b.txid → List.Disjoint (a.images c) (b.images c)

/-- The relay state lets the transaction into a block, and it is there in full. -/
def Minable (p : NodeParams) (m : TxpoolTxMeta) : Prop :=
  (m.relayMethod.matchesCategory .legacy = true ∨ p.mineStemTxes = true ∧ m.relayMethod = .stem) ∧
    m.pruned = false

/-- A template may list the transaction. -/
def Listable (p : NodeParams) (pool : TxPool) (txid : Hash) : Prop :=
  txid ∈ pool.sorted.entries.map SortedEntry.txid ∧
    ∃ e, pool.txes.find? txid = some e ∧ Minable p e.info

variable (c p) in
/-- Of the transactions that may be listed, one whose inputs are known to be good shares no key
image with another one. -/
def CachedAlone (pool : TxPool) : Prop :=
  ∀ a ∈ pool.txes.entries, pool.Listable p a.txid → pool.inputCache a.txid = some (.ok ()) →
    ∀ b ∈ pool.txes.entries, pool.Listable p b.txid → a.txid ≠ b.txid →
      List.Disjoint (a.images c) (b.images c)

theorem Listable.has {txid : Hash} (h : pool.Listable p txid) : pool.txes.has txid := by
  obtain ⟨-, e, he, -⟩ := h
  exact has_of_find? he

/-! ### Key images of the template -/

theorem not_mem_of_haveKeyImages {kImages : Finset KeyImage} {vin : List Txin}
    {images : List KeyImage} (hvin : vin.map (spentImage c) = images.map some)
    (h : haveKeyImages c kImages vin = false) : ∀ image ∈ images, image ∉ kImages := by
  induction images generalizing vin with
  | nil => exact fun image hm => absurd hm not_mem_nil
  | cons image images ih =>
    cases vin with
    | nil => cases hvin
    | cons i vin =>
      obtain ⟨hi, hvin⟩ := List.cons.inj hvin
      simp only [haveKeyImages, hi, Bool.or_eq_false_iff, decide_eq_false_iff_not] at h
      exact forall_mem_cons.mpr ⟨h.1, ih hvin h.2⟩

theorem subset_appendKeyImages (vin : List Txin) (kImages : Finset KeyImage) :
    kImages ⊆ appendKeyImages c vin kImages := by
  induction vin generalizing kImages with
  | nil => exact Finset.Subset.refl _
  | cons i vin ih =>
    rw [appendKeyImages]
    split
    · exact Finset.Subset.refl _
    · split
      · exact Finset.Subset.refl _
      · exact (Finset.subset_insert _ _).trans (ih _)

/-- Images that are new and different from each other are all appended. -/
theorem mem_appendKeyImages {kImages : Finset KeyImage} {vin : List Txin} {images : List KeyImage}
    (hvin : Spends c vin images) (hnew : ∀ image ∈ images, image ∉ kImages) (image : KeyImage) :
    image ∈ appendKeyImages c vin kImages ↔ image ∈ kImages ∨ image ∈ images := by
  obtain ⟨hmap, hnodup⟩ := hvin
  induction images generalizing vin kImages with
  | nil =>
    obtain rfl : vin = [] := by simpa using hmap
    simp [appendKeyImages]
  | cons a images ih =>
    cases vin with
    | nil => cases hmap
    | cons i vin =>
      obtain ⟨hi, hmap⟩ := List.cons.inj hmap
      obtain ⟨hnotin, hnodup⟩ := nodup_cons.mp hnodup
      obtain ⟨ha, hnew⟩ := forall_mem_cons.mp hnew
      simp only [appendKeyImages, hi, if_neg ha]
      rw [ih (fun b hb hm => ?_) hmap hnodup, Finset.mem_insert, mem_cons]
      · tauto
      · rcases Finset.mem_insert.mp hm with rfl | hm
        · exact hnotin hb
        · exact hnew b hb hm

/-! ### One transaction -/

variable {a : TemplateArgs} {t : Template}

/-- A candidate may be mined and fits, and its coinbase is the reward at the new weight. -/
theorem candidateCoinbase_spec {m : TxpoolTxMeta} {coinbase : UInt64}
    (h : candidateCoinbase p a t m = some coinbase) :
    Minable p m ∧ t.totalWeight + m.weight ≤ a.maxTotalWeight.toNat ∧
      (5 ≤ a.version → (a.reward (t.totalWeight + m.weight)).map (· + (t.fee + m.fee)) =
        some coinbase) := by
  rw [candidateCoinbase] at h
  split at h
  · cases h
  next hrelay =>
  split at h
  · cases h
  next hpruned =>
  split at h
  · cases h
  next hfits =>
  refine ⟨⟨?_, Bool.not_eq_true _ ▸ hpruned⟩, not_lt.mp hfits, fun hv => ?_⟩
  · by_contra hno
    simp_all
  · rw [if_pos hv] at h
    split at h
    · cases h
    · next reward hreward =>
      dsimp only at h
      split at h
      · cases h
      · rw [hreward, ← Option.some.inj h, Option.map_some, UInt64.add_assoc]

/-- A transaction that is ready was in the cache, and then nothing is known of it, or it has been
parsed. -/
theorem ready_cases {e : TxpoolEntry}
    (h : (pool.isTransactionReadyToGo c p chain now e).ready = true) :
    pool.inputCache e.txid = some (.ok ()) ∨
      parseAndValidateTx c e.blob = some (pool.isTransactionReadyToGo c p chain now e).tx := by
  rw [isTransactionReadyToGo] at h ⊢
  split at h
  · cases h
  · next hne =>
    rw [if_neg hne]
    split at h
    · next hcache => exact .inl hcache
    · cases h
    · split at h
      · cases h
      · next tx hparse =>
        right
        simp only [hparse]
        split <;> rfl

/-- The metadata and the cached results of other transactions stay as they were. -/
theorem considerTx_of_ne (t : Template) {e : TxpoolEntry} (coinbase : UInt64) {txid : Hash}
    (hne : txid ≠ e.txid) :
    (considerTx c p chain now t e coinbase).pool.txes.find? txid = t.pool.txes.find? txid ∧
      (considerTx c p chain now t e coinbase).pool.inputCache txid = t.pool.inputCache txid := by
  have hready : (t.pool.isTransactionReadyToGo c p chain now e).pool.txes = t.pool.txes ∧
      (t.pool.isTransactionReadyToGo c p chain now e).pool.inputCache txid =
        t.pool.inputCache txid := by
    rw [isTransactionReadyToGo]
    split
    · exact ⟨rfl, rfl⟩
    · dsimp only
      split
      · exact ⟨rfl, rfl⟩
      · exact ⟨rfl, rfl⟩
      · next hcache =>
        split
        · exact ⟨rfl, rfl⟩
        · have hcheck : ∀ tx, (t.pool.checkTxInputs c p chain now (some tx) e.txid false).2.txes =
                t.pool.txes ∧
              (t.pool.checkTxInputs c p chain now (some tx) e.txid false).2.inputCache txid =
                t.pool.inputCache txid := by
            intro tx
            simp [TxPool.checkTxInputs, hcache, Function.update_of_ne hne]
          split <;> exact hcheck _
  have hupdate : ∀ (pool : TxPool) (info : TxpoolTxMeta),
      (pool.updateTxpoolTx e.txid info).txes.find? txid = pool.txes.find? txid ∧
        (pool.updateTxpoolTx e.txid info).inputCache txid = pool.inputCache txid := by
    intro pool info
    rw [updateTxpoolTx]
    split
    · exact ⟨rfl, rfl⟩
    · next e' he' =>
      obtain heq := txid_of_find? he'
      exact ⟨Keyed.find?_put_of_ne (heq ▸ hne), rfl⟩
  rw [considerTx]
  generalize t.pool.isTransactionReadyToGo c p chain now e = r at hready ⊢
  have hpool : (if r.info = e.info then r.pool else r.pool.updateTxpoolTx e.txid r.info).txes.find?
        txid = t.pool.txes.find? txid ∧
      (if r.info = e.info then r.pool else r.pool.updateTxpoolTx e.txid r.info).inputCache txid =
        t.pool.inputCache txid := by
    split
    · exact ⟨by rw [hready.1], hready.2⟩
    · exact ⟨by rw [(hupdate _ _).1, hready.1], (hupdate _ _).2.trans hready.2⟩
  split <;> exact hpool

/-! ### The loop -/

/-- The state of the loop before the transactions `rest` are considered, for a request that began
with `pool`. What it has taken is known by its images or was in the cache at the start. -/
structure Filled (p : NodeParams) (facts : TxFacts) (pool : TxPool) (rest : List Hash)
    (t : Template) : Prop where
  fresh : ∀ txid ∈ rest, t.pool.txes.find? txid = pool.txes.find? txid ∧
    t.pool.inputCache txid = pool.inputCache txid
  nodup : t.txHashes.Nodup
  taken : ∀ txid ∈ t.txHashes, pool.Listable p txid ∧ txid ∉ rest
  covered : ∀ txid ∈ t.txHashes, (∀ image ∈ facts.images txid, image ∈ t.kImages) ∨
    pool.inputCache txid = some (.ok ())
  disjoint : ∀ a ∈ t.txHashes, ∀ b ∈ t.txHashes, a ≠ b →
    List.Disjoint (facts.images a) (facts.images b)

theorem Filled.skip {rest : List Hash} {txid : Hash}
    (h : Filled p facts pool (txid :: rest) t) : Filled p facts pool rest t :=
  ⟨fun a ha => h.fresh a (mem_cons_of_mem _ ha), h.nodup,
    fun a ha => ⟨(h.taken a ha).1, fun hn => (h.taken a ha).2 (mem_cons_of_mem _ hn)⟩,
    h.covered, h.disjoint⟩

/-- One transaction more. -/
theorem Filled.considerTx {rest : List Hash} {e : TxpoolEntry} (hpool : pool.Core c facts)
    (halone : ∀ a b, pool.Listable p a → pool.Listable p b → pool.inputCache a = some (.ok ()) →
      a ≠ b → List.Disjoint (facts.images a) (facts.images b))
    (h : Filled p facts pool (e.txid :: rest) t) (hrest : e.txid ∉ rest)
    (he : pool.txes.find? e.txid = some e) (hlist : pool.Listable p e.txid) (coinbase : UInt64) :
    Filled p facts pool rest (considerTx c p chain now t e coinbase) := by
  have hfresh : ∀ txid ∈ rest,
      (TxPool.considerTx c p chain now t e coinbase).pool.txes.find? txid = pool.txes.find? txid ∧
      (TxPool.considerTx c p chain now t e coinbase).pool.inputCache txid =
        pool.inputCache txid := by
    intro txid hm
    have hne : txid ≠ e.txid := fun heq => hrest (heq ▸ hm)
    obtain ⟨hfind, hcache⟩ := @considerTx_of_ne c p chain now t e coinbase txid hne
    exact ⟨hfind.trans (h.fresh txid (mem_cons_of_mem _ hm)).1,
      hcache.trans (h.fresh txid (mem_cons_of_mem _ hm)).2⟩
  have hskip := h.skip
  rw [TxPool.considerTx] at hfresh ⊢
  have hready := @ready_cases c t.pool p chain now e
  generalize t.pool.isTransactionReadyToGo c p chain now e = r at hready hfresh ⊢
  split at hfresh
  · next hno =>
    rw [if_pos hno]
    exact ⟨hfresh, hskip.nodup, hskip.taken, hskip.covered, hskip.disjoint⟩
  · next hyes =>
    rw [if_neg hyes]
    simp only [Bool.or_eq_true, Bool.not_eq_true', not_or, Bool.not_eq_false, Bool.not_eq_true]
      at hyes
    obtain ⟨hgo, hno⟩ := hyes
    have hnotin : e.txid ∉ t.txHashes := fun hm => (h.taken _ hm).2 (mem_cons_self ..)
    -- the new one is alone, or its images are new and are put into the set
    have hnew : pool.inputCache e.txid = some (.ok ()) ∨
        (∀ image ∈ facts.images e.txid, image ∉ t.kImages) ∧
          ∀ image, image ∈ appendKeyImages c r.tx.vin t.kImages ↔
            image ∈ t.kImages ∨ image ∈ facts.images e.txid := by
      rcases hready hgo with hcache | hparse
      · exact .inl ((h.fresh _ (mem_cons_self ..)).2 ▸ hcache)
      · have hspends := @EntryOk.parsed c facts e false r.tx (hpool.entryOk he) hparse
        have hfree := not_mem_of_haveKeyImages hspends.1 hno
        exact .inr ⟨hfree, mem_appendKeyImages hspends hfree⟩
    have hlast : ∀ a ∈ t.txHashes, List.Disjoint (facts.images a) (facts.images e.txid) := by
      intro a ha
      have hne : a ≠ e.txid := fun heq => hnotin (heq ▸ ha)
      have htaken := (h.taken a ha).1
      rcases hnew with hcache | ⟨hfree, -⟩
      · exact (halone _ _ hlist htaken hcache hne.symm).symm
      · rcases h.covered a ha with hcov | hcache
        · exact fun image hia hie => hfree image hie (hcov image hia)
        · exact halone _ _ htaken hlist hcache hne
    refine ⟨hfresh, ?_, ?_, ?_, ?_⟩
    · exact nodup_append.mpr ⟨h.nodup, nodup_singleton _, fun a ha b hb =>
        mem_singleton.mp hb ▸ fun heq => hnotin (heq ▸ ha)⟩
    · intro txid hm
      rcases mem_append.mp hm with hm | hm
      · exact hskip.taken txid hm
      · obtain rfl := mem_singleton.mp hm
        exact ⟨hlist, hrest⟩
    · intro txid hm
      rcases mem_append.mp hm with hm | hm
      · exact (h.covered txid hm).imp_left fun hcov image hi =>
          subset_appendKeyImages r.tx.vin t.kImages (hcov image hi)
      · obtain rfl := mem_singleton.mp hm
        exact hnew.symm.imp_left fun hn image hi => (hn.2 image).mpr (.inr hi)
    · intro a ha b hb hne
      rcases mem_append.mp ha with ha | ha <;> rcases mem_append.mp hb with hb | hb
      · exact h.disjoint a ha b hb hne
      · exact mem_singleton.mp hb ▸ hlast a ha
      · exact (mem_singleton.mp ha ▸ hlast b hb).symm
      · exact absurd ((mem_singleton.mp ha).trans (mem_singleton.mp hb).symm) hne

theorem Filled.fillLoop (hpool : pool.Core c facts)
    (halone : ∀ a b, pool.Listable p a → pool.Listable p b → pool.inputCache a = some (.ok ()) →
      a ≠ b → List.Disjoint (facts.images a) (facts.images b)) {rest : List SortedEntry}
    (hnodup : (rest.map SortedEntry.txid).Nodup)
    (hsorted : rest.map SortedEntry.txid ⊆ pool.sorted.entries.map SortedEntry.txid)
    (h : Filled p facts pool (rest.map SortedEntry.txid) t) :
    Filled p facts pool [] (fillLoop c p chain now a rest t) := by
  induction rest generalizing t with
  | nil => exact h
  | cons s rest ih =>
    obtain ⟨hnotin, hnodup⟩ := nodup_cons.mp hnodup
    obtain ⟨hmem, hsorted⟩ := cons_subset.mp hsorted
    rw [TxPool.fillLoop]
    split
    · exact ih hnodup hsorted h.skip
    · next e he =>
      have hid := txid_of_find? he
      have hfind : pool.txes.find? e.txid = some e := by
        rw [hid, ← (h.fresh s.txid (mem_cons_self ..)).1, he]
      split
      · exact ih hnodup hsorted h.skip
      · next coinbase hc =>
        split
        · exact ⟨fun _ hm => absurd hm not_mem_nil, h.nodup,
            fun txid hm => ⟨(h.taken txid hm).1, not_mem_nil⟩, h.covered, h.disjoint⟩
        · have hlist : pool.Listable p e.txid :=
            ⟨hid ▸ hmem, e, hfind, (candidateCoinbase_spec hc).1⟩
          refine ih hnodup hsorted
            (Filled.considerTx hpool halone ?_ (hid ▸ hnotin) hfind hlist coinbase)
          exact hid ▸ h

/-- **One request.** If no transaction with a good result in the cache shares a key image with
another one, the template is free of conflicts. -/
theorem Sound.conflictFree (h : pool.Sound c facts x) (halone : pool.CachedAlone c p)
    (ht : pool.fillBlockTemplate c p chain now a = some t) :
    pool.ConflictFree c t.txHashes := by
  have himages : ∀ e ∈ pool.txes.entries, e.images c = facts.images e.txid :=
    fun e he => (h.entry e he).images
  have halone' : ∀ a b, pool.Listable p a → pool.Listable p b →
      pool.inputCache a = some (.ok ()) → a ≠ b →
      List.Disjoint (facts.images a) (facts.images b) := by
    intro a b hlist hlist' hcache hne
    obtain ⟨a, ha, rfl⟩ := hlist.has
    obtain ⟨b, hb, rfl⟩ := hlist'.has
    rw [← himages a ha, ← himages b hb]
    exact halone a ha hlist hcache b hb hlist' hne
  rw [fillBlockTemplate] at ht
  split at ht
  · cases ht
  · next reward _ =>
    obtain rfl := Option.some.inj ht
    have hfilled := @Filled.fillLoop c facts pool p chain now a
      ⟨[], 0, 0, reward, ∅, pool⟩ h.toCore halone' pool.sorted.entries pool.sorted.nodup
      (List.Subset.refl _) ⟨fun _ _ => ⟨rfl, rfl⟩, nodup_nil, fun _ hm => absurd hm not_mem_nil,
        fun _ hm => absurd hm not_mem_nil, fun _ hm => absurd hm not_mem_nil⟩
    refine ⟨hfilled.nodup, fun txid hm => (hfilled.taken txid hm).1.has,
      fun a ha b hb hat hbt hne => ?_⟩
    rw [himages a ha, himages b hb]
    exact hfilled.disjoint a.txid hat b.txid hbt hne

end TxPool

/-! ### Runs -/

namespace PoolState

/-- **Templates.** After any run, a template is free of conflicts if, of the transactions that may be
listed, none with a good result in the cache shares a key image with another one. -/
theorem template_conflictFree_of_run {s : PoolState} {calls : List PoolCall}
    (hs : s.Initialised c p facts) (hrun : Run c p facts s calls)
    (halone : (calls.foldl (PoolState.step c p) s).pool.CachedAlone c p) {a : TemplateArgs}
    {t : Template}
    (ht : (calls.foldl (PoolState.step c p) s).pool.fillBlockTemplate c p chain now a = some t) :
    (calls.foldl (PoolState.step c p) s).pool.ConflictFree c t.txHashes :=
  (Inv.run hs hrun).sound.conflictFree halone ht

/-- The rival of `sampleTx`, as it is added. -/
def rivalTx : TxPool.NewTx := (TxPool.NewTx.ofTransaction .transparent rivalSpend).getD default

theorem rivalTx_admissible {nic : UInt8} : rivalTx.Admissible .transparent sampleFacts 16 nic :=
  admissible_of_sample rfl (by decide +kernel)

/-- The calls by which two spends of one output come back to the pool when blocks are popped. -/
def popTwo (chain : Blockchain) : List PoolCall :=
  [.addTx chain 0 sampleTx .block 16 16, .addTx chain 0 rivalTx .block 16 16]

theorem popTwo_admissible {chain : Blockchain} :
    ∀ call ∈ popTwo chain, call.Admissible .transparent sampleFacts := by
  intro call hcall
  rcases mem_cons.mp hcall with rfl | hcall
  · exact sampleTx_admissible
  · obtain rfl := mem_singleton.mp hcall
    exact rivalTx_admissible

/-- The arguments of the requests below. -/
def sampleArgs : TemplateArgs := ⟨300000, 0, 16⟩

/-- Two transactions of a template share a key image. -/
def conflicts (pool : TxPool) (txids : List Hash) : Bool :=
  pool.txes.entries.any fun a => pool.txes.entries.any fun b =>
    decide (a.txid ∈ txids ∧ b.txid ∈ txids ∧ a.txid ≠ b.txid) &&
      (a.images .transparent).any fun image => decide (image ∈ b.images .transparent)

theorem not_conflictFree_of_conflicts {pool : TxPool} {txids : List Hash}
    (h : conflicts pool txids = true) : ¬ pool.ConflictFree .transparent txids := by
  rintro ⟨-, -, hdisjoint⟩
  simp only [conflicts, any_eq_true, Bool.and_eq_true, decide_eq_true_eq] at h
  obtain ⟨a, ha, b, hb, ⟨hat, hbt, hne⟩, image, hia, hib⟩ := h
  exact hdisjoint a ha b hb hat hbt hne hia hib

/-- The pool after the calls of `popTwo`, and after a template on top of them. -/
def poppedPool (chain : Blockchain) (templates : List PoolCall) : TxPool :=
  ((popTwo chain ++ templates).foldl (PoolState.step .transparent .sample) newState).pool

/-- The first and the second template, evaluated together. -/
theorem exists_templates :
    ∃ db, addBlocks .transparent (boundChain 16 10) (Db.empty 0) = .ok () db ∧
      (∀ e ∈ (poppedPool (.sample db) []).txes.entries,
        (poppedPool (.sample db) []).inputCache e.txid = none) ∧
      (∃ t, (poppedPool (.sample db) []).fillBlockTemplate .transparent .sample (.sample db) 0
        sampleArgs = some t ∧ t.txHashes ≠ []) ∧
      ∃ t, (poppedPool (.sample db) [.fillBlockTemplate (.sample db) 0
          sampleArgs]).fillBlockTemplate .transparent .sample (.sample db) 0 sampleArgs = some t ∧
        conflicts (poppedPool (.sample db) [.fillBlockTemplate (.sample db) 0 sampleArgs])
          t.txHashes = true := by
  obtain ⟨⟨⟩, db, hdb, h⟩ := Store.exists_of_okAnd
    (r := addBlocks .transparent (boundChain 16 10) (Db.empty 0))
    (p := fun _ db =>
      let pool := poppedPool (.sample db) []
      let pool' := poppedPool (.sample db) [.fillBlockTemplate (.sample db) 0 sampleArgs]
      (pool.txes.entries.all fun e => (pool.inputCache e.txid).isNone) &&
        ((pool.fillBlockTemplate .transparent .sample (.sample db) 0 sampleArgs).any
          fun t : Template => !t.txHashes.isEmpty) &&
        (pool'.fillBlockTemplate .transparent .sample (.sample db) 0 sampleArgs).any
          fun t : Template => conflicts pool' t.txHashes)
    (by decide +kernel)
  simp only [Bool.and_eq_true, all_eq_true, Option.any_eq_true, Option.isNone_iff_eq_none] at h
  obtain ⟨⟨hcache, t, ht, hne⟩, hconflict⟩ := h
  exact ⟨db, hdb, hcache, ⟨t, ht, by simpa using hne⟩, hconflict⟩

/-- Two blocks are popped and leave two spends of one output in the pool. The first template on the
new tip has one of them, but the second template has both. -/
theorem second_template_conflicts :
    ∃ db, addBlocks .transparent (boundChain 16 10) (Db.empty 0) = .ok () db ∧
      ∃ calls, calls = popTwo (.sample db) ++
          [PoolCall.fillBlockTemplate (.sample db) 0 sampleArgs] ∧
        newState.Initialised .transparent .sample sampleFacts ∧
        (∀ call ∈ calls, call.Admissible .transparent sampleFacts) ∧
        ∃ t, (calls.foldl (PoolState.step .transparent .sample) newState).pool.fillBlockTemplate
            .transparent .sample (.sample db) 0 sampleArgs = some t ∧
          ¬ (calls.foldl (PoolState.step .transparent .sample) newState).pool.ConflictFree
            .transparent t.txHashes := by
  obtain ⟨db, hdb, -, -, t, ht, hconflict⟩ := exists_templates
  refine ⟨db, hdb, _, rfl, newState_initialised, ?_, t, ht, not_conflictFree_of_conflicts hconflict⟩
  intro call hcall
  rcases mem_append.mp hcall with hcall | hcall
  · exact popTwo_admissible call hcall
  · obtain rfl := mem_singleton.mp hcall
    exact trivial

/-- The first template on the new tip. -/
theorem first_template_conflictFree :
    ∃ db, addBlocks .transparent (boundChain 16 10) (Db.empty 0) = .ok () db ∧
      ∃ t, ((popTwo (.sample db)).foldl
          (PoolState.step .transparent .sample) newState).pool.fillBlockTemplate
            .transparent .sample (.sample db) 0 sampleArgs = some t ∧ t.txHashes ≠ [] ∧
        ((popTwo (.sample db)).foldl (PoolState.step .transparent .sample)
          newState).pool.ConflictFree .transparent t.txHashes := by
  obtain ⟨db, hdb, hcache, ⟨t, ht, hne⟩, -⟩ := exists_templates
  rw [poppedPool, append_nil] at ht hcache
  refine ⟨db, hdb, t, ht, hne,
    template_conflictFree_of_run (@newState_initialised sampleFacts) ?_ ?_ ht⟩
  · exact ⟨sampleTx_admissible, rivalTx_admissible, trivial⟩
  · intro a ha _ hgood
    rw [hcache a ha] at hgood
    cases hgood

end PoolState

/-! ### The sums of a template -/

namespace TxPool

/-- The loop of a request on `pool` has come to the transactions `rest`: what it has taken may be
mined, by fee, and its sums are those of what it has taken. From version 5 on the reward is that of
a block with this weight and these fees. -/
structure Accounted (p : NodeParams) (a : TemplateArgs) (pool : TxPool) (rest : List Hash)
    (t : Template) : Prop where
  fresh : ∀ txid ∈ rest, t.pool.txes.find? txid = pool.txes.find? txid
  order : (t.txHashes ++ rest).Sublist (pool.sorted.entries.map SortedEntry.txid)
  minable : ∀ txid ∈ t.txHashes, ∃ e, pool.txes.find? txid = some e ∧ Minable p e.info
  weight : t.totalWeight = ((t.txHashes.filterMap pool.txes.find?).map (·.info.weight)).sum
  limit : t.totalWeight ≤ a.maxTotalWeight.toNat
  fee : t.fee = Machine.sum ((t.txHashes.filterMap pool.txes.find?).map (·.info.fee))
  reward : 5 ≤ a.version → (a.reward t.totalWeight).map (· + t.fee) = some t.bestCoinbase

theorem Accounted.skip {rest rest' : List Hash} (h : Accounted p a pool rest t)
    (hrest : rest'.Sublist rest) : Accounted p a pool rest' t :=
  { h with
    fresh := fun txid hm => h.fresh txid (hrest.subset hm)
    order := ((List.Sublist.refl _).append hrest).trans h.order }

theorem Accounted.considerTx {rest : List Hash} {e : TxpoolEntry} {coinbase : UInt64}
    (h : Accounted p a pool (e.txid :: rest) t) (hrest : e.txid ∉ rest)
    (he : pool.txes.find? e.txid = some e) (hc : candidateCoinbase p a t e.info = some coinbase) :
    Accounted p a pool rest (considerTx c p chain now t e coinbase) := by
  have hfresh : ∀ txid ∈ rest, (TxPool.considerTx c p chain now t e coinbase).pool.txes.find? txid =
      pool.txes.find? txid := fun txid hm =>
    (considerTx_of_ne t coinbase fun heq => hrest (heq ▸ hm)).1.trans
      (h.fresh txid (mem_cons_of_mem _ hm))
  obtain ⟨hmin, hlimit, hreward⟩ := candidateCoinbase_spec hc
  rw [TxPool.considerTx] at hfresh ⊢
  generalize t.pool.isTransactionReadyToGo c p chain now e = r at hfresh ⊢
  split at hfresh
  · next hno =>
    rw [if_pos hno]
    exact { h.skip (sublist_cons_self ..) with fresh := hfresh }
  · next hyes =>
    rw [if_neg hyes]
    refine ⟨hfresh, by simpa using h.order, fun txid hm => ?_, ?_, hlimit, ?_, hreward⟩
    · rcases mem_append.mp hm with hm | hm
      · exact h.minable txid hm
      · exact ⟨e, mem_singleton.mp hm ▸ he, hmin⟩
    · simp [he, h.weight]
    · simp [he, h.fee, Machine.sum, sumFrom]

theorem Accounted.fillLoop {rest : List SortedEntry} (hnodup : (rest.map SortedEntry.txid).Nodup)
    (h : Accounted p a pool (rest.map SortedEntry.txid) t) :
    Accounted p a pool [] (fillLoop c p chain now a rest t) := by
  induction rest generalizing t with
  | nil => exact h
  | cons s rest ih =>
    obtain ⟨hnotin, hnodup⟩ := nodup_cons.mp hnodup
    have hskip := h.skip (sublist_cons_self ..)
    rw [TxPool.fillLoop]
    split
    · exact ih hnodup hskip
    · next e he =>
      have hid := txid_of_find? he
      have hfind : pool.txes.find? e.txid = some e := by
        rw [hid, ← h.fresh s.txid (mem_cons_self ..), he]
      split
      · exact ih hnodup hskip
      · next coinbase hc =>
        split
        · exact h.skip (nil_sublist _)
        · refine ih hnodup (Accounted.considerTx ?_ (hid ▸ hnotin) hfind hc)
          exact hid ▸ h

/-- **Sums.** A template's weight, fee and announced reward are those of its transactions. -/
theorem fillBlockTemplate_accounted (ht : pool.fillBlockTemplate c p chain now a = some t) :
    Accounted p a pool [] t := by
  rw [fillBlockTemplate] at ht
  split at ht
  · cases ht
  · next reward hreward =>
    obtain rfl := Option.some.inj ht
    exact Accounted.fillLoop pool.sorted.nodup ⟨fun _ _ => rfl, .refl _,
      fun _ hm => absurd hm not_mem_nil, rfl, Nat.zero_le _, rfl, fun _ => by simp [hreward]⟩

/-- A template that is not empty. -/
theorem exists_fillBlockTemplate_accounted :
    ∃ pool t, t.txHashes ≠ [] ∧ Accounted .sample PoolState.sampleArgs pool [] t := by
  obtain ⟨db, -, -, ⟨t, ht, hne⟩, -⟩ := PoolState.exists_templates
  exact ⟨_, t, hne, fillBlockTemplate_accounted ht⟩

end TxPool

end Hidering
