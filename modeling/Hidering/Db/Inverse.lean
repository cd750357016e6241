import Hidering.Db.BlockchainDb
import Mathlib.Data.Finset.Option
import Mathlib.Data.Finset.SDiff
import Mathlib.Data.Finset.Lattice.Lemmas

/-!
# Popping a block undoes adding it

For each operation that adds to the tables there is a lemma `_ok` that says what a run without an
exception does, and one that says that the matching removal leads back. Removals happen in a
different order than additions, so the lemmas about outputs and key images are stated for any state
that agrees on the tables the operation touches.

## Main results

* `Hidering.removeTransaction_addTransaction`
* `Hidering.popBlock_addBlock` — `pop_block` after `add_block` returns the block with its
  transactions and restores all tables
-/

namespace Hidering

open Wire Store List

variable {c : Crypto} {db db' : Db}

/-! ### Key images -/

/-- The key images that a list of inputs marks as spent. -/
def spentImages (c : Crypto) (vin : List Txin) : List KeyImage := vin.filterMap (spentImage c)

theorem addSpentKey_ok {k : KeyImage} (h : addSpentKey k db = .ok () db') :
    k ∉ db.spentKeys ∧ db' = { db with spentKeys := insert k db.spentKeys } := by
  simp only [addSpentKey, get_bind, require_bind_ok, decide_eq_true_eq] at h
  obtain ⟨hk, h⟩ := h
  cases h
  exact ⟨hk, rfl⟩

variable {vin : List Txin}

theorem addSpentKeys_cons_ok {i : Txin} (h : addSpentKeys c (i :: vin) db = .ok () db') :
    (spentImage c i = none ∧ addSpentKeys c vin db = .ok () db') ∨
      ∃ k, spentImage c i = some k ∧ k ∉ db.spentKeys ∧
        addSpentKeys c vin { db with spentKeys := insert k db.spentKeys } = .ok () db' := by
  cases i with
  | toKey i =>
    obtain ⟨⟨⟩, u, hk, hrest⟩ := bind_ok.mp h
    obtain ⟨hnew, rfl⟩ := addSpentKey_ok hk
    exact .inr ⟨_, rfl, hnew, hrest⟩
  | toKeyPq i =>
    obtain ⟨⟨⟩, u, hk, hrest⟩ := bind_ok.mp h
    obtain ⟨hnew, rfl⟩ := addSpentKey_ok hk
    exact .inr ⟨_, rfl, hnew, hrest⟩
  | gen g => exact .inl ⟨rfl, h⟩
  | toScript s => exact absurd h throw_ne_ok
  | toScripthash s => exact absurd h throw_ne_ok

/-- `add_transaction` marks the images of the inputs, which must be new and pairwise distinct. -/
theorem addSpentKeys_ok (h : addSpentKeys c vin db = .ok () db') :
    (spentImages c vin).Nodup ∧ (∀ k ∈ spentImages c vin, k ∉ db.spentKeys) ∧
      db' = { db with spentKeys := db.spentKeys ∪ (spentImages c vin).toFinset } := by
  induction vin generalizing db with
  | nil =>
    obtain ⟨-, rfl⟩ := pure_ok.mp h
    exact ⟨nodup_nil, by simp [spentImages], by simp [spentImages]⟩
  | cons i vin ih =>
    obtain ⟨hi, hrest⟩ | ⟨k, hi, hnew, hrest⟩ := addSpentKeys_cons_ok h
    · rw [spentImages, filterMap_cons_none hi]
      exact ih hrest
    · obtain ⟨hnodup, hfresh, rfl⟩ := ih hrest
      rw [spentImages, filterMap_cons_some hi]
      refine ⟨nodup_cons.mpr ⟨fun hmem => ?_, hnodup⟩, ?_, ?_⟩
      · exact hfresh k hmem (Finset.mem_insert_self _ _)
      · intro j hj
        rcases mem_cons.mp hj with rfl | hj
        · exact hnew
        · exact fun hmem => hfresh j hj (Finset.mem_insert_of_mem hmem)
      · rw [toFinset_cons, Finset.union_insert, Finset.insert_union, spentImages]

theorem removeSpentKeys_cons (i : Txin) (vin : List Txin) (s : Db) :
    removeSpentKeys c (i :: vin) s = removeSpentKeys c vin
      { s with spentKeys := s.spentKeys \ (spentImage c i).toFinset } := by
  cases i <;> simp [removeSpentKeys, removeSpentKey, modify_bind, spentImage,
    Finset.sdiff_singleton_eq_erase]

theorem removeSpentKeys_eq (vin : List Txin) (s : Db) :
    removeSpentKeys c vin s =
      .ok () { s with spentKeys := s.spentKeys \ (spentImages c vin).toFinset } := by
  induction vin generalizing s with
  | nil => simp [removeSpentKeys, spentImages, pure_eq]
  | cons i vin ih =>
    rw [removeSpentKeys_cons, ih]
    simp only [spentImages]
    cases hi : spentImage c i with
    | none => simp [filterMap_cons_none hi]
    | some k =>
      rw [filterMap_cons_some hi, toFinset_cons, Option.toFinset_some,
        Finset.insert_eq, ← Finset.sup_eq_union, ← sdiff_sdiff_left]

/-- Removing the images of the inputs right after they were marked. -/
theorem union_sdiff_spentImages {keys : Finset KeyImage} (h : ∀ k ∈ spentImages c vin, k ∉ keys) :
    (keys ∪ (spentImages c vin).toFinset) \ (spentImages c vin).toFinset = keys := by
  rw [Finset.union_sdiff_right, Finset.sdiff_eq_self_iff_disjoint, Finset.disjoint_right]
  intro k hk
  exact h k (mem_toFinset.mp hk)

/-! ### Transaction data -/

variable {tx : Transaction} {blob : Bytes}

theorem addTransactionData_ok {txHash ph : Hash} {txId : ℕ}
    (h : addTransactionData tx blob txHash ph db = .ok txId db') :
    txId = db.getTxCount ∧ db.txIndices txHash = none ∧
      ∃ n pruned prunable hashes, unprunableSize tx = some n ∧ n ≤ blob.length ∧
        db.txsPruned.append db.getTxCount (blob.take n) = some pruned ∧
        db.txsPrunable.append db.getTxCount (blob.drop n) = some prunable ∧
        (if 1 < tx.version then db.txsPrunableHash.append db.getTxCount ph
          else some db.txsPrunableHash) = some hashes ∧
        db' = { db with
          txIndices := Function.update db.txIndices txHash
            (some ⟨db.getTxCount, tx.unlockTime, db.height⟩)
          txsPruned := pruned
          txsPrunable := prunable
          txsPrunableTip := if db.pruningSeed ≠ 0
            then db.txsPrunableTip.put db.getTxCount db.height else db.txsPrunableTip
          txsPrunableHash := hashes } := by
  simp only [addTransactionData, get_bind, modify_bind, require_bind_ok, ofOption_bind_ok,
    pure_ok, decide_eq_true_eq, Option.isNone_iff_eq_none] at h
  obtain ⟨hnew, n, hn, hle, pruned, hpruned, prunable, hprunable, hashes, hhashes, rfl, rfl⟩ := h
  exact ⟨rfl, hnew, n, pruned, prunable, hashes, hn, hle, hpruned, hprunable, hhashes, rfl⟩

/-! ### Outputs -/

variable {txHash : Hash} {out : TxOut}

theorem addOutput_ok {i index : ℕ} {unlockTime : UInt64} {cm : Option Key}
    (h : addOutput txHash out i unlockTime cm db = .ok index db') :
    index = db.getNumOutputs out.amount ∧
      ∃ pubkey outputTxs bucket, getOutputPublicKey out = some pubkey ∧
        (out.amount = 0 → cm.isSome) ∧
        db.outputTxs.append db.numOutputs ⟨txHash, i⟩ = some outputTxs ∧
        (db.outputAmounts out.amount).append (db.getNumOutputs out.amount)
          ⟨db.numOutputs, pubkey, unlockTime, db.height,
            if out.amount = 0 then cm else none⟩ = some bucket ∧
        db' = { db with
          outputTxs := outputTxs
          outputAmounts := Function.update db.outputAmounts out.amount bucket } := by
  simp only [addOutput, get_bind, modify_bind, require_bind_ok, ofOption_bind_ok, pure_ok] at h
  obtain ⟨pubkey, hkey, hcm, outputTxs, hots, bucket, hbucket, rfl, rfl⟩ := h
  refine ⟨rfl, pubkey, outputTxs, bucket, hkey, fun h0 => ?_, hots, hbucket, rfl⟩
  cases cm with
  | none => simp [h0] at hcm
  | some k => rfl

/-- `remove_output` undoes the `add_output` that returned its index. -/
theorem removeOutput_addOutput {i index : ℕ} {unlockTime : UInt64} {cm : Option Key}
    (h : addOutput txHash out i unlockTime cm db = .ok index db') {s : Db}
    (hots : s.outputTxs = db'.outputTxs) (hamounts : s.outputAmounts = db'.outputAmounts) :
    removeOutput out.amount index s =
      .ok () { s with outputTxs := db.outputTxs, outputAmounts := db.outputAmounts } := by
  obtain ⟨rfl, pubkey, ots, bucket, -, -, hap, hbucket, rfl⟩ := addOutput_ok h
  have hget := Table.get?_append_self hbucket
  have hsome := Table.get?_append_self hap
  rw [removeOutput, get_bind, hots, hamounts]
  simp only [Function.update_self]
  rw [bind_eq (ofOption_eq hget), bind_eq (require_eq (by rw [hsome]; rfl)), set_eq,
    Table.erase_append hap, Table.erase_append hbucket, Function.update_idem,
    Function.update_eq_self]

variable {i : ℕ}

theorem bucketOf_eq {stored : TxOut × Option Key}
    (h : storedOutput c tx i out = some stored) : bucketOf tx out = stored.1.amount := by
  rw [storedOutput] at h
  rw [bucketOf]
  split at h
  · next hp => obtain rfl := Option.some.inj h; rw [if_pos hp]
  · next hp =>
    rw [if_neg hp]
    split at h
    · obtain ⟨k, -, rfl⟩ := Option.map_eq_some_iff.mp h
      rfl
    · obtain rfl := Option.some.inj h
      rfl

variable {indices : List ℕ} {outs : List TxOut}

theorem addOutputs_cons_ok
        (h : addOutputs c txHash tx i (out :: outs) db = .ok indices db') :
    ∃ stored index mid rest, storedOutput c tx i out = some stored ∧
      addOutput txHash stored.1 i tx.unlockTime stored.2 db = .ok index mid ∧
      addOutputs c txHash tx (i + 1) outs mid = .ok rest db' ∧ indices = index :: rest := by
  obtain ⟨stored, hstored, h⟩ := ofOption_bind_ok.mp h
  obtain ⟨index, mid, hadd, h⟩ := bind_ok.mp h
  obtain ⟨rest, u, hrest, h⟩ := bind_ok.mp h
  obtain ⟨rfl, rfl⟩ := pure_ok.mp h
  exact ⟨stored, index, mid, rest, hstored, hadd, hrest, rfl⟩

/-- What `addOutputs` leaves alone: everything but the two output tables. -/
theorem addOutputs_frame (h : addOutputs c txHash tx i outs db = .ok indices db') :
    indices.length = outs.length ∧
      db' = { db with outputTxs := db'.outputTxs, outputAmounts := db'.outputAmounts } := by
  induction outs generalizing i indices db with
  | nil =>
    obtain ⟨rfl, rfl⟩ := pure_ok.mp h
    exact ⟨rfl, rfl⟩
  | cons out outs ih =>
    obtain ⟨stored, index, mid, rest, -, hadd, hrest, rfl⟩ := addOutputs_cons_ok h
    obtain ⟨-, -, ots, bucket, -, -, -, -, rfl⟩ := addOutput_ok hadd
    obtain ⟨hlen, heq⟩ := ih hrest
    exact ⟨by rw [length_cons, length_cons, hlen], heq⟩

/-- The outputs of a transaction are removed in reverse order. -/
theorem removeOutputs_addOutputs (h : addOutputs c txHash tx i outs db = .ok indices db') {s : Db}
    (hots : s.outputTxs = db'.outputTxs) (hamounts : s.outputAmounts = db'.outputAmounts) :
    removeOutputs ((outs.map (bucketOf tx)).zip indices) s =
      .ok () { s with outputTxs := db.outputTxs, outputAmounts := db.outputAmounts } := by
  induction outs generalizing i indices db with
  | nil =>
    obtain ⟨rfl, rfl⟩ := pure_ok.mp h
    rw [← hots, ← hamounts]
    rfl
  | cons out outs ih =>
    obtain ⟨stored, index, mid, rest, hstored, hadd, hrest, rfl⟩ := addOutputs_cons_ok h
    rw [map_cons, zip_cons_cons, removeOutputs, bind_eq (ih hrest),
      bucketOf_eq hstored]
    exact removeOutput_addOutput hadd rfl rfl

theorem getOutputPublicKey_storedOutput {stored : TxOut × Option Key}
    (h : storedOutput c tx i out = some stored) :
    getOutputPublicKey stored.1 = getOutputPublicKey out := by
  rw [storedOutput] at h
  split at h
  · obtain rfl := Option.some.inj h
    rfl
  · split at h
    · obtain ⟨k, -, rfl⟩ := Option.map_eq_some_iff.mp h
      rfl
    · obtain rfl := Option.some.inj h
      rfl

theorem addOutputs_keys (h : addOutputs c txHash tx i outs db = .ok indices db') :
    ∀ o ∈ outs, (getOutputPublicKey o).isSome := by
  induction outs generalizing i indices db with
  | nil => simp
  | cons out outs ih =>
    obtain ⟨stored, index, mid, rest, hstored, hadd, hrest, rfl⟩ := addOutputs_cons_ok h
    obtain ⟨-, pubkey, -, -, hkey, -⟩ := addOutput_ok hadd
    intro o ho
    rcases mem_cons.mp ho with rfl | ho
    · rw [← getOutputPublicKey_storedOutput hstored, hkey]
      rfl
    · exact ih hrest o ho

/-! ### Transactions -/

/-- What `add_transaction` has done when it did not throw. -/
structure TxAdded (c : Crypto) (tx : Transaction) (blob : Bytes) (txHash : Hash) (db db' : Db) :
    Prop where
  nodup : (spentImages c tx.vin).Nodup
  fresh : ∀ k ∈ spentImages c tx.vin, k ∉ db.spentKeys
  spentKeys : db'.spentKeys = db.spentKeys ∪ (spentImages c tx.vin).toFinset
  newTx : db.txIndices txHash = none
  txIndices : db'.txIndices = Function.update db.txIndices txHash
    (some ⟨db.getTxCount, tx.unlockTime, db.height⟩)
  split : ∃ n, unprunableSize tx = some n ∧ n ≤ blob.length ∧
    db.txsPruned.append db.getTxCount (blob.take n) = some db'.txsPruned ∧
    db.txsPrunable.append db.getTxCount (blob.drop n) = some db'.txsPrunable
  txsPrunableHash : (if 1 < tx.version
    then db.txsPrunableHash.append db.getTxCount (prunableHash c tx blob)
    else some db.txsPrunableHash) = some db'.txsPrunableHash
  txsPrunableTip : db'.txsPrunableTip = if db.pruningSeed ≠ 0
    then db.txsPrunableTip.put db.getTxCount db.height else db.txsPrunableTip
  outputs : ∃ indices mid mid', mid.outputTxs = db.outputTxs ∧
    mid.outputAmounts = db.outputAmounts ∧ mid.height = db.height ∧
    addOutputs c txHash tx 0 tx.vout mid = .ok indices mid' ∧
    db'.outputTxs = mid'.outputTxs ∧ db'.outputAmounts = mid'.outputAmounts ∧
    db.txOutputs.append db.getTxCount indices = some db'.txOutputs
  blocks : db'.blocks = db.blocks
  blockInfo : db'.blockInfo = db.blockInfo
  blockHeights : db'.blockHeights = db.blockHeights
  pruningSeed : db'.pruningSeed = db.pruningSeed

theorem addTransaction_ok
    (h : addTransaction c tx blob txHash db = .ok () db') : TxAdded c tx blob txHash db db' := by
  obtain ⟨⟨⟩, s₁, hkeys, h⟩ := bind_ok.mp h
  obtain ⟨txId, s₂, hdata, h⟩ := bind_ok.mp h
  obtain ⟨indices, s₃, houts, h⟩ := bind_ok.mp h
  simp only [addTxAmountOutputIndices, get_bind, ofOption_bind_ok] at h
  obtain ⟨txOutputs, hap, h⟩ := h
  cases h
  obtain ⟨hnodup, hfresh, rfl⟩ := addSpentKeys_ok hkeys
  obtain ⟨rfl, hnew, n, pruned, prunable, hashes, hn, hle, hpruned, hprunable, hhashes, hs₂⟩ :=
    addTransactionData_ok hdata
  have hframe := (addOutputs_frame houts).2
  rw [hs₂] at hframe
  rw [hframe] at hap ⊢
  exact ⟨hnodup, hfresh, rfl, hnew, rfl, ⟨n, hn, hle, hpruned, hprunable⟩, hhashes, rfl,
    ⟨indices, s₂, s₃, by rw [hs₂], by rw [hs₂], by rw [hs₂]; rfl, houts, rfl, rfl, hap⟩, rfl, rfl,
    rfl, rfl⟩

/-- Two transactions that the removal of outputs does not tell apart. -/
theorem bucketOf_congr {tx tx' : Transaction}
    (hpre : tx'.toTransactionPrefix = tx.toTransactionPrefix)
    (htype : tx'.rctSignatures.type = tx.rctSignatures.type) : bucketOf tx' = bucketOf tx := by
  funext out
  rw [bucketOf, bucketOf, outputsStoredAsPseudoRct, outputsStoredAsPseudoRct, hpre, htype]

theorem removeTxOutputs_addOutputs {tx tx' : Transaction} {txId : ℕ}
    (h : addOutputs c txHash tx 0 tx.vout db = .ok indices db')
    (hpre : tx'.toTransactionPrefix = tx.toTransactionPrefix)
    (htype : tx'.rctSignatures.type = tx.rctSignatures.type) {s : Db}
    (hots : s.outputTxs = db'.outputTxs) (hamounts : s.outputAmounts = db'.outputAmounts)
    (hindices : s.txOutputs.get? txId = some indices) :
    removeTxOutputs txId tx' s =
      .ok () { s with outputTxs := db.outputTxs, outputAmounts := db.outputAmounts } := by
  have hlen := (addOutputs_frame h).1
  have hguard : (!(indices.isEmpty && !tx.vout.isEmpty)) = true := by
    cases indices with
    | nil => rw [length_nil] at hlen; simp [length_eq_zero_iff.mp hlen.symm]
    | cons a as => rfl
  rw [removeTxOutputs, get_bind]
  simp only [hindices, Option.getD_some, hpre, bucketOf_congr hpre htype]
  rw [bind_eq (require_eq hguard), bind_eq (require_eq (by simp [hlen]))]
  exact removeOutputs_addOutputs h hots hamounts

/-- What `remove_transaction_data` does where nothing is missing. -/
theorem removeTransactionData_eq (s : Db) {ti : TxIndex} {outputTxs : Table OutTx}
    {outputAmounts : Amount → Table OutKey} (hti : s.txIndices txHash = some ti)
    (hpruned : (s.txsPruned.get? ti.txId).isSome)
    (hhash : 1 < tx.version → (s.txsPrunableHash.get? ti.txId).isSome)
    (houts : ∀ u : Db, u.outputTxs = s.outputTxs → u.outputAmounts = s.outputAmounts →
      u.txOutputs = s.txOutputs → removeTxOutputs ti.txId tx u =
        .ok () { u with outputTxs := outputTxs, outputAmounts := outputAmounts }) :
    removeTransactionData txHash tx s = .ok () { s with
      txsPruned := s.txsPruned.erase ti.txId
      txsPrunable := s.txsPrunable.erase ti.txId
      txsPrunableTip := s.txsPrunableTip.erase ti.txId
      txsPrunableHash := if 1 < tx.version then s.txsPrunableHash.erase ti.txId
        else s.txsPrunableHash
      outputTxs := outputTxs
      outputAmounts := outputAmounts
      txOutputs := s.txOutputs.erase ti.txId
      txIndices := Function.update s.txIndices txHash none } := by
  have hguard : (decide (tx.version ≤ 1) || (s.txsPrunableHash.get? ti.txId).isSome) = true := by
    by_cases hv : tx.version ≤ 1
    · simp [hv]
    · rw [hhash (UInt64.not_le.mp hv), Bool.or_true]
  rw [removeTransactionData, get_bind, bind_eq (ofOption_eq hti), bind_eq (require_eq hpruned),
    modify_bind, modify_bind, modify_bind, bind_eq (require_eq hguard)]
  simp only [modify_bind]
  exact bind_ok.mpr ⟨(), _, houts _ rfl rfl rfl, rfl⟩

/-- `remove_transaction` undoes `add_transaction`. -/
theorem removeTransaction_addTransaction (hw : WireTx tx blob)
    (htip : ∀ e ∈ db.txsPrunableTip, e.1 < db.getTxCount) (h : TxAdded c tx blob txHash db db') :
    removeTransaction c txHash db' = .ok () db := by
  obtain ⟨n, hn, -, hpruned, hprunable⟩ := h.split
  obtain ⟨indices, mid, mid', hmidTxs, hmidAmounts, -, houts, hots, hamounts, hindices⟩ := h.outputs
  obtain ⟨tx', hparse, -, -, hpre, htype⟩ :=
    parseAndValidateTxBase_take (c := c) hw (addOutputs_keys houts) hn
  have hti : db'.txIndices txHash = some ⟨db.getTxCount, tx.unlockTime, db.height⟩ := by
    rw [h.txIndices, Function.update_self]
  have hbase : db'.txsPruned.get? db.getTxCount = some (blob.take n) :=
    Table.get?_append_self hpruned
  have hgetBase : getPrunedTx c txHash db' = .ok tx' db' := by
    rw [getPrunedTx, get_bind, Db.getPrunedTxBlob, hti, Option.bind_some]
    rw [bind_eq (ofOption_eq hbase), ofOption_eq hparse]
  have hhash : 1 < tx'.version → (db'.txsPrunableHash.get? db.getTxCount).isSome := by
    intro hv
    have hap := h.txsPrunableHash
    rw [hpre] at hv
    rw [if_pos hv] at hap
    rw [Table.get?_append_self hap]
    rfl

  have htipErase : db'.txsPrunableTip.erase db.getTxCount = db.txsPrunableTip := by
    rw [h.txsPrunableTip]
    split
    · rw [Table.put_eq htip, Table.erase_append (Table.append_eq_some.mpr ⟨htip, rfl⟩)]
    · exact Table.erase_eq_self fun e he => (htip e he).ne
  have hhashErase : (if 1 < tx'.version then db'.txsPrunableHash.erase db.getTxCount
      else db'.txsPrunableHash) = db.txsPrunableHash := by
    have hap := h.txsPrunableHash
    rw [hpre]
    split at hap
    · next hv => rw [if_pos hv, Table.erase_append hap]
    · next hv => rw [if_neg hv, Option.some.inj hap]
  have hremove : removeSpentKeys c tx'.vin db' = .ok () { db' with spentKeys := db.spentKeys } := by
    rw [removeSpentKeys_eq, h.spentKeys, hpre, union_sdiff_spentImages h.fresh]
  rw [removeTransaction, bind_eq hgetBase, bind_eq hremove]
  refine (removeTransactionData_eq { db' with spentKeys := db.spentKeys } hti
    (by simp only [hbase, Option.isSome_some]) hhash
    fun u htxs ham hidx => removeTxOutputs_addOutputs houts hpre htype (htxs.trans hots)
      (ham.trans hamounts) (by rw [hidx]; exact Table.get?_append_self hindices)).trans ?_
  congr 1
  apply Db.ext
  · exact h.blocks
  · exact h.blockInfo
  · exact h.blockHeights
  · rw [h.txIndices, Function.update_idem, ← h.newTx, Function.update_eq_self]
  · exact Table.erase_append hpruned
  · exact Table.erase_append hprunable
  · exact hhashErase
  · exact htipErase
  · exact Table.erase_append hindices
  · exact hmidTxs
  · exact hmidAmounts
  · rfl
  · exact h.pruningSeed

/-- A transaction with the blob that it serializes to and is parsed from. -/
structure CanonicalTx (c : Crypto) (tx : Transaction) (blob : Bytes) : Prop where
  serialized : serializeTransaction tx = some blob
  parsed : parseAndValidateTx c blob = some tx

theorem CanonicalTx.wireTx (h : CanonicalTx c tx blob) :
    WireTx tx blob := .of_parseAndValidateTx h.serialized h.parsed

theorem getTxOrPruned_addTransaction (hc : CanonicalTx c tx blob)
    (h : TxAdded c tx blob txHash db db') : getTxOrPruned c txHash db' = .ok tx db' := by
  obtain ⟨n, -, -, hpruned, hprunable⟩ := h.split
  have hblob : db'.getTxBlob txHash = some blob := by
    rw [Db.getTxBlob, h.txIndices, Function.update_self, Option.bind_some]
    simp only [Table.get?_append_self hpruned, Table.get?_append_self hprunable,
      Option.bind_some, Option.map_some, take_append_drop]
  rw [getTxOrPruned, get_bind, hblob]
  exact ofOption_eq hc.parsed

/-- The table of the tips of prunable data has no entries for transactions to come. -/
def Db.TipBound (db : Db) : Prop := ∀ e ∈ db.txsPrunableTip, e.1 < db.getTxCount

theorem TxAdded.getTxCount
    (h : TxAdded c tx blob txHash db db') : db'.getTxCount = db.getTxCount + 1 := by
  obtain ⟨n, -, -, hpruned, -⟩ := h.split
  rw [Db.getTxCount, (Table.append_eq_some.mp hpruned).2, length_append]
  rfl

theorem TxAdded.tipBound (h : TxAdded c tx blob txHash db db')
    (htip : db.TipBound) : db'.TipBound := by
  intro e he
  rw [h.getTxCount]
  rw [h.txsPrunableTip] at he
  split at he
  · rw [Table.put_eq htip, mem_append, mem_singleton] at he
    rcases he with he | rfl
    · exact (htip e he).trans (Nat.lt_succ_self _)
    · exact Nat.lt_succ_self _
  · exact (htip e he).trans (Nat.lt_succ_self _)

/-! ### Blocks -/

/-- What an `add_transaction` for each entry of a list keeps, and each of them needs. -/
theorem addTransactions_induction {motive : Db → Prop}
    (hstep : ∀ {tx blob txHash db db'}, TxAdded c tx blob txHash db db' → motive db → motive db')
    {txs : List (Hash × Transaction × Bytes)} (h : addTransactions c txs db = .ok () db')
    (h0 : motive db) : motive db' := by
  induction txs generalizing db with
  | nil =>
    obtain ⟨-, rfl⟩ := pure_ok.mp h
    exact h0
  | cons x txs ih =>
    obtain ⟨⟨⟩, mid, hx, hrest⟩ := bind_ok.mp h
    exact ih hrest (hstep (addTransaction_ok hx) h0)

/-- The transactions of a block are popped in reverse order. -/
theorem popTransactions_addTransactions {txs : List (Hash × Transaction × Bytes)}
    (hc : ∀ x ∈ txs, CanonicalTx c x.2.1 x.2.2) (htip : db.TipBound)
    (h : addTransactions c txs db = .ok () db') (hashes : List Hash) :
    popTransactions c ((txs.map Prod.fst).reverse ++ hashes) db' =
      (do
        let rest ← popTransactions c hashes
        pure ((txs.map fun x => x.2.1).reverse ++ rest) : DbM _) db := by
  induction txs generalizing db hashes with
  | nil =>
    obtain ⟨-, rfl⟩ := pure_ok.mp h
    simp
  | cons x txs ih =>
    obtain ⟨txHash, tx, blob⟩ := x
    obtain ⟨⟨⟩, mid, hx, hrest⟩ := bind_ok.mp h
    have hadded := addTransaction_ok hx
    have hcx : CanonicalTx c tx blob := hc _ mem_cons_self
    have hget := getTxOrPruned_addTransaction hcx hadded
    have hremove := removeTransaction_addTransaction hcx.wireTx htip hadded
    rw [map_cons, reverse_cons, append_assoc,
      ih (fun y hy => hc y (mem_cons_of_mem _ hy)) (hadded.tipBound htip) hrest,
      singleton_append, popTransactions]
    simp only [bind_assoc, pure_bind, map_cons, reverse_cons, append_assoc,
      singleton_append]
    rw [bind_eq hget, bind_eq hremove]

/-- What `BlockchainLMDB::add_block` has done when it did not throw. -/
structure BlockDataAdded (blk : Block) (info : BlockMeta) (numRctOuts : ℕ) (blkHash : Hash)
    (db db' : Db) : Prop where
  newBlock : db.blockHeights blkHash = none
  parent : 0 < db.height → db.blockHeights blk.prevId = some (db.height - 1)
  stored : ∃ blob, blockToBlob blk = some blob ∧ db.blocks.append db.height blob = some db'.blocks
  info : ∃ cumRct, cumulativeRct db blk numRctOuts = some cumRct ∧
    db.blockInfo.append db.height ⟨blk.timestamp, info.coinsGenerated, info.weight,
      info.cumulativeDifficulty, blkHash, cumRct, info.longTermBlockWeight⟩ = some db'.blockInfo
  frame : db' = { db with
    blocks := db'.blocks
    blockInfo := db'.blockInfo
    blockHeights := Function.update db.blockHeights blkHash (some db.height) }

variable {info : BlockMeta} {blk : Block} {numRctOuts : ℕ} {blkHash : Hash}

theorem addBlockData_ok (h : addBlockData blk info numRctOuts blkHash db = .ok () db') :
    BlockDataAdded blk info numRctOuts blkHash db db' := by
  simp only [addBlockData, get_bind, modify_bind, require_bind_ok, ofOption_bind_ok,
    decide_eq_true_eq, Option.isNone_iff_eq_none] at h
  obtain ⟨hnew, parent, hparent, heq, blob, hblob, blocks, hblocks, cumRct, hcum, blockInfo, hinfo,
    h⟩ := h
  cases h
  refine ⟨hnew, fun hpos => ?_, ⟨blob, hblob, hblocks⟩, ⟨cumRct, hcum, hinfo⟩, rfl⟩
  rw [if_neg hpos.ne'] at hparent
  rw [hparent, heq]

theorem BlockDataAdded.height
    (h : BlockDataAdded blk info numRctOuts blkHash db db') : db'.height = db.height + 1 := by
  obtain ⟨blob, -, hblocks⟩ := h.stored
  rw [Db.height, (Table.append_eq_some.mp hblocks).2, length_append]
  rfl

theorem removeBlock_addBlockData
    (h : BlockDataAdded blk info numRctOuts blkHash db db') : removeBlock db' = .ok () db := by
  obtain ⟨blob, -, hblocks⟩ := h.stored
  obtain ⟨cumRct, -, hinfo⟩ := h.info
  have htop : db'.height - 1 = db.height := by rw [h.height, Nat.add_sub_cancel]
  have hheights : db'.blockHeights = Function.update db.blockHeights blkHash (some db.height) :=
    congrArg Db.blockHeights h.frame
  rw [removeBlock, get_bind, bind_eq (require_eq (by rw [h.height]; simp)), htop,
    bind_eq (ofOption_eq (Table.get?_append_self hinfo)),
    bind_eq (require_eq (by rw [hheights, Function.update_self]; rfl)), set_eq,
    Table.erase_append hblocks, Table.erase_append hinfo, hheights, Function.update_idem,
    ← h.newBlock, Function.update_eq_self]
  rw [h.frame]

theorem getTopBlock_addBlockData
    (hparse : ∀ blob, blockToBlob blk = some blob → parseBlock blob = some blk)
    (h : BlockDataAdded blk info numRctOuts blkHash db db') : getTopBlock db' = .ok blk db' := by
  obtain ⟨blob, hblob, hblocks⟩ := h.stored
  have htop : db'.height - 1 = db.height := by rw [h.height, Nat.add_sub_cancel]
  rw [getTopBlock, get_bind, if_neg (by rw [h.height]; exact Nat.succ_ne_zero _), htop,
    bind_eq (ofOption_eq (Table.get?_append_self hblocks)), ofOption_eq (hparse blob hblob)]

/-- The steps of a successful `add_block`. -/
theorem addBlock_ok {txs : List (Transaction × Bytes)} {n : ℕ}
    (h : addBlock c blk info txs db = .ok n db') :
    blk.txHashes.length = txs.length ∧ n = db.height ∧ ∃ s₁ s₂,
      TxAdded c blk.minerTx ((serializeTransaction blk.minerTx).getD [])
        (c.getTransactionHash blk.minerTx) db s₁ ∧
      addTransactions c (blk.txHashes.zip txs) s₁ = .ok () s₂ ∧
      BlockDataAdded blk info (numOutputsInRctBucket blk.minerTx +
        (txs.map fun p => numOutputsInRctBucket p.1).sum) (c.getBlockHash blk) s₂ db' := by
  simp only [addBlock, require_bind_ok, get_bind, decide_eq_true_eq] at h
  obtain ⟨hlen, h⟩ := h
  obtain ⟨⟨⟩, s₁, hminer, h⟩ := bind_ok.mp h
  obtain ⟨⟨⟩, s₂, htxs, h⟩ := bind_ok.mp h
  obtain ⟨⟨⟩, s₃, hblock, h⟩ := bind_ok.mp h
  obtain ⟨rfl, rfl⟩ := pure_ok.mp h
  exact ⟨hlen, rfl, s₁, s₂, addTransaction_ok hminer, htxs, addBlockData_ok hblock⟩

/-- **Popping a block undoes adding it.** `pop_block` right after `add_block` returns the block and
its transactions, last one first, and restores every table. -/
theorem popBlock_addBlock {txs : List (Transaction × Bytes)} {n : ℕ}
    (hparse : ∀ blob, blockToBlob blk = some blob → parseBlock blob = some blk)
    (hc : ∀ p ∈ txs, CanonicalTx c p.1 p.2) (htip : db.TipBound)
    (h : addBlock c blk info txs db = .ok n db') :
    popBlock c db' = .ok (blk, (txs.map Prod.fst).reverse) db := by
  obtain ⟨hlen, -, s₁, s₂, hminer, htxs, hblock⟩ := addBlock_ok h
  obtain ⟨b, hb, -⟩ := hblock.stored
  obtain ⟨mblob, hwire⟩ := WireTx.of_parseBlock hb (hparse b hb)
  rw [hwire.serialized, Option.getD_some] at hminer
  have hzip : (blk.txHashes.zip txs).map Prod.fst = blk.txHashes :=
    map_fst_zip hlen.le
  have hzip' : (blk.txHashes.zip txs).map (fun x => x.2.1) = txs.map Prod.fst := by
    rw [← Function.comp_def, ← map_map, map_snd_zip hlen.ge]
  have hpop := popTransactions_addTransactions (fun x hx => hc x.2 (of_mem_zip hx).2)
    (hminer.tipBound htip) htxs []
  rw [hzip, hzip', append_nil, popTransactions, pure_bind, append_nil, pure_eq] at hpop
  rw [popBlock, bind_eq (getTopBlock_addBlockData hparse hblock),
    bind_eq (removeBlock_addBlockData hblock), bind_eq hpop,
    bind_eq (removeTransaction_addTransaction hwire htip hminer), pure_eq]

end Hidering
