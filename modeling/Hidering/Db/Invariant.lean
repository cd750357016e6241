import Hidering.Db.Inverse
import Mathlib.Logic.Relation

/-!
# The invariant of the block database

A database is reachable if it comes from an empty one by successful calls of `add_block` and
`pop_block`. Since a pop undoes the add before it, a reachable database is one that adds alone
build (`Built`), so the invariant has to be kept by additions only; and additions only ever put
entries behind those that are there (`Db.Extends`).

## Main definitions

* `Hidering.Reachable`, `Hidering.Built`
* `Hidering.OwnOutput` — an entry of an index list points at the output it stands for
* `Hidering.rctOutputs` — the number of RingCT outputs in a range of heights

## Main results

* `Hidering.Reachable.built`
* `Hidering.Built.wf` — the invariant `Db.Wf`
* `Hidering.addPop_correct` — pops undo adds, buckets are dense, index lists point at the outputs of
  their transactions, and what the stored count of RingCT outputs counts
-/

namespace Hidering

open Wire Store Crypto List

variable {c : Crypto} {db db' : Db}

/-! ### Additions extend the tables -/

/-- `db'` has the entries of `db`, with others behind them. -/
structure Db.Extends (db db' : Db) : Prop where
  txIndices : ∀ {h ti}, db.txIndices h = some ti → db'.txIndices h = some ti
  txsPruned : db.txsPruned <+: db'.txsPruned
  txOutputs : db.txOutputs <+: db'.txOutputs
  outputTxs : db.outputTxs <+: db'.outputTxs
  outputAmounts : ∀ a, db.outputAmounts a <+: db'.outputAmounts a

/-! ### What the outputs of a transaction become -/

/-- Entry `index` of its bucket is output `i` of the transaction with hash `txHash`, with the key,
the lock time, the height and the commitment that `add_transaction` gave it. -/
def StoredOutput (c : Crypto) (db : Db) (txHash : Hash) (tx : Transaction) (height i : ℕ)
    (out : TxOut) (index : ℕ) : Prop :=
  ∃ ok stored, storedOutput c tx i out = some stored ∧
    (db.outputAmounts (bucketOf tx out)).get? index = some ok ∧
    db.outputTxs.get? ok.outputId = some ⟨txHash, i⟩ ∧
    getOutputPublicKey out = some ok.pubkey ∧ ok.unlockTime = tx.unlockTime ∧
    ok.height = height ∧ ok.commitment = if bucketOf tx out = 0 then stored.2 else none

variable {out : TxOut}

variable {txHash : Hash} {tx : Transaction}

theorem StoredOutput.mono {height i index : ℕ} (h : StoredOutput c db txHash tx height i out index)
    (htxs : db.outputTxs <+: db'.outputTxs)
    (hamounts : ∀ a, db.outputAmounts a <+: db'.outputAmounts a) :
    StoredOutput c db' txHash tx height i out index := by
  obtain ⟨ok, stored, hstored, hget, hid, hrest⟩ := h
  exact ⟨ok, stored, hstored, Table.get?_mono (hamounts _) hget, Table.get?_mono htxs hid, hrest⟩

/-- From `db` to `db'` the bucket of an amount grows by `n` outputs, all at the height of `db`. -/
def BucketAdds (db db' : Db) (a : Amount) (n : ℕ) : Prop :=
  ∃ new, db'.outputAmounts a = db.outputAmounts a ++ new ∧ (∀ e ∈ new, e.2.height = db.height) ∧
    new.length = n

theorem BucketAdds.nil (db : Db) (a : Amount) : BucketAdds db db a 0 :=
  ⟨[], (append_nil _).symm, by simp, rfl⟩

theorem BucketAdds.trans {mid : Db} {a : Amount} {m n : ℕ} (h : BucketAdds db mid a m)
    (h' : BucketAdds mid db' a n) (hheight : mid.height = db.height) :
    BucketAdds db db' a (m + n) := by
  obtain ⟨new, hnew, hnewh, rfl⟩ := h
  obtain ⟨new', hnew', hnewh', rfl⟩ := h'
  refine ⟨new ++ new', by rw [hnew', hnew, append_assoc], fun e he => ?_, length_append⟩
  rcases mem_append.mp he with he | he
  · exact hnewh e he
  · rw [hnewh' e he, hheight]

/-- What one `add_output` adds to the buckets. -/
theorem addOutput_bucket {i index : ℕ} {unlockTime : UInt64} {cm : Option Key}
    (h : addOutput txHash out i unlockTime cm db = .ok index db') (a : Amount) :
    BucketAdds db db' a (if out.amount = a then 1 else 0) := by
  obtain ⟨-, pubkey, ots, bucket, -, -, -, hbucket, rfl⟩ := addOutput_ok h
  obtain ⟨-, rfl⟩ := Table.append_eq_some.mp hbucket
  by_cases ha : out.amount = a
  · subst ha
    refine ⟨[_], Function.update_self .., ?_, by rw [if_pos rfl]; rfl⟩
    intro e he
    rw [mem_singleton.mp he]
  · exact ⟨[], by rw [append_nil]; exact Function.update_of_ne (Ne.symm ha) .., by simp,
      by rw [if_neg ha]; rfl⟩

theorem addOutput_height {i index : ℕ} {unlockTime : UInt64} {cm : Option Key}
    (h : addOutput txHash out i unlockTime cm db = .ok index db') : db'.height = db.height := by
  obtain ⟨-, pubkey, ots, bucket, -, -, -, -, rfl⟩ := addOutput_ok h
  rfl

variable {outs : List TxOut} {indices : List ℕ} {i : ℕ}

/-- What the outputs of a transaction add to the buckets. -/
theorem addOutputs_bucket (h : addOutputs c txHash tx i outs db = .ok indices db') (a : Amount) :
    BucketAdds db db' a (outs.countP fun out => bucketOf tx out == a) := by
  induction outs generalizing i indices db with
  | nil =>
    obtain ⟨rfl, rfl⟩ := pure_ok.mp h
    exact .nil db a
  | cons out outs ih =>
    obtain ⟨stored, index, mid, rest, hstored, hadd, hrest, rfl⟩ := addOutputs_cons_ok h
    rw [countP_cons, Nat.add_comm, bucketOf_eq hstored]
    simp only [beq_iff_eq]
    exact (addOutput_bucket hadd a).trans (ih hrest) (addOutput_height hadd)

theorem addOutputs_extends (h : addOutputs c txHash tx i outs db = .ok indices db') :
    db.outputTxs <+: db'.outputTxs ∧ ∀ a, db.outputAmounts a <+: db'.outputAmounts a := by
  refine ⟨?_, fun a => ?_⟩
  · induction outs generalizing i indices db with
    | nil =>
      obtain ⟨rfl, rfl⟩ := pure_ok.mp h
      exact prefix_refl _
    | cons out outs ih =>
      obtain ⟨stored, index, mid, rest, -, hadd, hrest, rfl⟩ := addOutputs_cons_ok h
      obtain ⟨-, pubkey, ots, bucket, -, -, hots, -, rfl⟩ := addOutput_ok hadd
      exact (Table.append_extends hots).trans (ih hrest)
  · obtain ⟨new, hnew, -⟩ := addOutputs_bucket h a
    exact ⟨new, hnew.symm⟩

/-- The indices that `add_transaction` collects point at the outputs of the transaction. -/
theorem addOutputs_stored (h : addOutputs c txHash tx i outs db = .ok indices db') {j index : ℕ}
    (hout : outs[j]? = some out) (hindex : indices[j]? = some index) :
    StoredOutput c db' txHash tx db.height (i + j) out index := by
  induction outs generalizing i indices db j with
  | nil => simp at hout
  | cons o outs ih =>
    obtain ⟨stored, index', mid, rest, hstored, hadd, hrest, rfl⟩ := addOutputs_cons_ok h
    cases j with
    | zero =>
      obtain rfl : o = out := by simpa using hout
      obtain rfl : index' = index := by simpa using hindex
      obtain ⟨htxs, hamounts⟩ := addOutputs_extends hrest
      obtain ⟨rfl, pubkey, ots, bucket, hkey, -, hots, hbucket, rfl⟩ := addOutput_ok hadd
      rw [getOutputPublicKey_storedOutput hstored] at hkey
      have hb := bucketOf_eq hstored
      refine StoredOutput.mono ?_ htxs hamounts
      refine ⟨⟨db.numOutputs, pubkey, tx.unlockTime, db.height,
        if stored.1.amount = 0 then stored.2 else none⟩, stored, hstored, ?_,
        Table.get?_append_self hots, hkey, rfl, rfl, by rw [hb]⟩
      rw [hb]
      simp only [Function.update_self]
      exact Table.get?_append_self hbucket
    | succ j =>
      have hih := ih hrest (by simpa using hout) (by simpa using hindex)
      rwa [addOutput_height hadd, Nat.add_assoc, Nat.add_comm 1 j] at hih

/-! ### What a transaction adds -/

section TxAdded

variable {tx : Transaction} {blob : Bytes} {txHash : Hash}

theorem TxAdded.height (h : TxAdded c tx blob txHash db db') : db'.height = db.height := by
  rw [Db.height, h.blocks, Db.height]

theorem TxAdded.bucket (h : TxAdded c tx blob txHash db db') (a : Amount) :
    BucketAdds db db' a (tx.vout.countP fun out => bucketOf tx out == a) := by
  obtain ⟨indices, mid, mid', -, hmid, hheight, houts, -, hamounts, -⟩ := h.outputs
  rw [BucketAdds, hamounts, ← hmid, ← hheight]
  exact addOutputs_bucket houts a

/-- The index list of a new transaction points at its outputs. -/
theorem TxAdded.stored (h : TxAdded c tx blob txHash db db') :
    ∃ indices, db'.txOutputs.get? db.getTxCount = some indices ∧
      indices.length = tx.vout.length ∧ ∀ {i index out}, tx.vout[i]? = some out →
        indices[i]? = some index → StoredOutput c db' txHash tx db.height i out index := by
  obtain ⟨indices, mid, mid', -, -, hheight, houts, htxs, hamounts, hap⟩ := h.outputs
  refine ⟨indices, Table.get?_append_self hap, (addOutputs_frame houts).1, ?_⟩
  intro i index out hout hindex
  have hstored := addOutputs_stored houts hout hindex
  rw [Nat.zero_add, hheight] at hstored
  exact hstored.mono (by rw [htxs]) (by simp [hamounts])

theorem TxAdded.extends (h : TxAdded c tx blob txHash db db') : db.Extends db' := by
  obtain ⟨n, -, -, hpruned, -⟩ := h.split
  obtain ⟨indices, mid, mid', hmid, -, -, houts, htxs, -, hap⟩ := h.outputs
  refine ⟨?_, Table.append_extends hpruned, Table.append_extends hap, ?_, fun a => ?_⟩
  · intro t ti hti
    have hne : t ≠ txHash := by
      rintro rfl
      rw [h.newTx] at hti
      cases hti
    rw [h.txIndices, Function.update_of_ne hne, hti]
  · rw [htxs, ← hmid]
    exact (addOutputs_extends houts).1
  · obtain ⟨new, hnew, -⟩ := h.bucket a
    exact ⟨new, hnew.symm⟩

end TxAdded

/-! ### The invariant -/

/-- Entry `index` of its bucket is output `i` of the transaction with hash `txHash`. -/
def OwnOutput (db : Db) (txHash : Hash) (tx : Transaction) (i : ℕ) (out : TxOut) (index : ℕ) :
    Prop :=
  ∃ ok, (db.outputAmounts (bucketOf tx out)).get? index = some ok ∧
    db.outputTxs.get? ok.outputId = some ⟨txHash, i⟩ ∧
    getOutputPublicKey out = some ok.pubkey ∧ ok.unlockTime = tx.unlockTime

/-- The index list of the transaction with hash `txHash` has one entry for each output of the
transaction stored under that hash, and points at these outputs. -/
def OwnOutputs (c : Crypto) (db : Db) (txHash : Hash) (ti : TxIndex) : Prop :=
  ∃ base tx indices, db.txsPruned.get? ti.txId = some base ∧
    parseAndValidateTxBase c base = some tx ∧ db.txOutputs.get? ti.txId = some indices ∧
    indices.length = tx.vout.length ∧ ∀ {i index out}, tx.vout[i]? = some out →
      indices[i]? = some index → OwnOutput db txHash tx i out index

theorem OwnOutputs.mono {ti : TxIndex} (h : OwnOutputs c db txHash ti)
    (hext : db.Extends db') : OwnOutputs c db' txHash ti := by
  obtain ⟨base, tx, indices, hbase, hparse, hindices, hlen, hown⟩ := h
  refine ⟨base, tx, indices, Table.get?_mono hext.txsPruned hbase, hparse,
    Table.get?_mono hext.txOutputs hindices, hlen, ?_⟩
  intro i index out hout hindex
  obtain ⟨ok, hok, hid, hrest⟩ := hown hout hindex
  exact ⟨ok, Table.get?_mono (hext.outputAmounts _) hok, Table.get?_mono hext.outputTxs hid, hrest⟩

/-- The invariant of the tables of transactions and outputs. -/
structure Db.Wf (c : Crypto) (db : Db) : Prop where
  tip : db.TipBound
  dense : ∀ a, (db.outputAmounts a).Dense
  sorted : ∀ a, (db.outputAmounts a).Pairwise fun e f => e.2.height ≤ f.2.height
  height_le : ∀ {a e}, e ∈ db.outputAmounts a → e.2.height ≤ db.height
  ownOutputs : ∀ {h ti}, db.txIndices h = some ti → OwnOutputs c db h ti

theorem addOutputs_dense (h : addOutputs c txHash tx i outs db = .ok indices db')
    (hdense : ∀ a, (db.outputAmounts a).Dense) (a : Amount) : (db'.outputAmounts a).Dense := by
  induction outs generalizing i indices db with
  | nil =>
    obtain ⟨rfl, rfl⟩ := pure_ok.mp h
    exact hdense a
  | cons out outs ih =>
    obtain ⟨stored, index, mid, rest, -, hadd, hrest, rfl⟩ := addOutputs_cons_ok h
    refine ih hrest fun b => ?_
    obtain ⟨-, pubkey, ots, bucket, -, -, -, hbucket, rfl⟩ := addOutput_ok hadd
    by_cases hb : b = stored.1.amount
    · subst hb
      simp only [Function.update_self]
      exact (hdense _).append hbucket
    · simp only [Function.update_of_ne hb]
      exact hdense b

variable {blob : Bytes}

/-- `add_transaction` keeps the invariant. -/
theorem TxAdded.wf (h : TxAdded c tx blob txHash db db') (hw : WireTx tx blob)
    (hwf : db.Wf c) : db'.Wf c := by
  obtain ⟨n, hn, -, hpruned, -⟩ := h.split
  obtain ⟨_, mid, mid', -, hmid, -, houts, -, hamounts, -⟩ := h.outputs
  refine ⟨h.tipBound hwf.tip, fun a => ?_, fun a => ?_, ?_, ?_⟩
  · rw [hamounts]
    exact addOutputs_dense houts (by rw [hmid]; exact hwf.dense) a
  · obtain ⟨new, hnew, hheight, -⟩ := h.bucket a
    rw [hnew, pairwise_append]
    refine ⟨hwf.sorted a, ?_, fun e he f hf => (hwf.height_le he).trans (hheight f hf).ge⟩
    exact pairwise_of_forall_mem_list fun e he f hf =>
      (hheight e he).le.trans (hheight f hf).ge
  · intro a e he
    obtain ⟨new, hnew, hheight, -⟩ := h.bucket a
    rw [h.height]
    rcases mem_append.mp (hnew ▸ he) with he | he
    · exact hwf.height_le he
    · exact (hheight e he).le
  · intro t ti hti
    by_cases ht : t = txHash
    · -- the new transaction: its stored base part has the outputs that were added
      subst ht
      rw [h.txIndices, Function.update_self, Option.some_inj] at hti
      subst hti
      obtain ⟨tx', hparse, -, -, hpre, htype⟩ :=
        parseAndValidateTxBase_take (c := c) hw (addOutputs_keys houts) hn
      obtain ⟨indices, hindices, hlen, hstored⟩ := h.stored
      refine ⟨blob.take n, tx', indices, Table.get?_append_self hpruned, hparse, hindices,
        by rw [hpre, hlen], ?_⟩
      intro i index out hout hindex
      rw [hpre] at hout
      obtain ⟨ok, stored, -, hok, hid, hkey, htime, -⟩ := hstored hout hindex
      exact ⟨ok, by rw [bucketOf_congr hpre htype]; exact hok, hid, hkey,
        by rw [hpre, htime]⟩
    · rw [h.txIndices, Function.update_of_ne ht] at hti
      exact (hwf.ownOutputs hti).mono h.extends

/-! ### What a block adds -/

theorem numOutputsInRctBucket_eq (tx : Transaction) :
    numOutputsInRctBucket tx = tx.vout.countP fun out => bucketOf tx out == 0 := by
  rw [numOutputsInRctBucket]
  by_cases hp : outputsStoredAsPseudoRct tx
  · simp [hp, bucketOf]
  · simp [hp, bucketOf]

theorem addTransactions_bucket {txs : List (Hash × Transaction × Bytes)}
    (h : addTransactions c txs db = .ok () db') (a : Amount) :
    BucketAdds db db' a
      (txs.map fun x => x.2.1.vout.countP fun out => bucketOf x.2.1 out == a).sum := by
  induction txs generalizing db with
  | nil =>
    obtain ⟨-, rfl⟩ := pure_ok.mp h
    exact .nil db a
  | cons x txs ih =>
    obtain ⟨⟨⟩, mid, hx, hrest⟩ := bind_ok.mp h
    have hadded := addTransaction_ok hx
    rw [map_cons, sum_cons]
    exact (hadded.bucket a).trans (ih hrest) hadded.height

/-- A block with its transactions, in the form in which they are stored and read back. -/
structure CanonicalBlock (c : Crypto) (blk : Block) (txs : List (Transaction × Bytes)) : Prop where
  parsed : ∀ blob, blockToBlob blk = some blob → parseBlock blob = some blk
  txs : ∀ p ∈ txs, CanonicalTx c p.1 p.2

section AddBlock

variable {blk : Block} {info : BlockMeta} {txs : List (Transaction × Bytes)} {n : ℕ}

theorem addTransactions_wf {xs : List (Hash × Transaction × Bytes)}
    (hc : ∀ x ∈ xs, CanonicalTx c x.2.1 x.2.2) (h : addTransactions c xs db = .ok () db')
    (hwf : db.Wf c) : db'.Wf c := by
  induction xs generalizing db with
  | nil =>
    obtain ⟨-, rfl⟩ := pure_ok.mp h
    exact hwf
  | cons x xs ih =>
    obtain ⟨⟨⟩, mid, hx, hrest⟩ := bind_ok.mp h
    exact ih (fun y hy => hc y (mem_cons_of_mem _ hy)) hrest
      ((addTransaction_ok hx).wf (hc x mem_cons_self).wireTx hwf)

/-- The ring outputs of a block. -/
theorem addBlock_bucket (h : addBlock c blk info txs db = .ok n db') :
    BucketAdds db db' 0 (numOutputsInRctBucket blk.minerTx +
      (txs.map fun p => numOutputsInRctBucket p.1).sum) := by
  obtain ⟨hlen, -, s₁, s₂, hminer, htxs, hblock⟩ := addBlock_ok h
  have hadds := (hminer.bucket 0).trans (addTransactions_bucket htxs 0) hminer.height
  have hamounts : db'.outputAmounts = s₂.outputAmounts := by rw [hblock.frame]
  have hsnd : ((blk.txHashes.zip txs).map fun x =>
      x.2.1.vout.countP fun out => bucketOf x.2.1 out == 0) =
      txs.map fun p => numOutputsInRctBucket p.1 := by
    simp only [numOutputsInRctBucket_eq]
    rw [← map_snd_zip hlen.ge, map_map]
    rw [map_snd_zip hlen.ge]
    rfl
  rwa [BucketAdds, hamounts, numOutputsInRctBucket_eq, ← hsnd]

theorem addTransactions_blocks {xs : List (Hash × Transaction × Bytes)}
    (h : addTransactions c xs db = .ok () db') :
    db'.blocks = db.blocks ∧ db'.blockInfo = db.blockInfo :=
  addTransactions_induction (motive := fun s => s.blocks = db.blocks ∧ s.blockInfo = db.blockInfo)
    (fun hadded hs => ⟨hadded.blocks.trans hs.1, hadded.blockInfo.trans hs.2⟩) h ⟨rfl, rfl⟩

/-- The block tables after `add_block`. -/
theorem addBlock_blocks (h : addBlock c blk info txs db = .ok n db') :
    (∃ blob, blockToBlob blk = some blob ∧ db.blocks.append db.height blob = some db'.blocks) ∧
      ∃ cumRct, cumulativeRct db blk (numOutputsInRctBucket blk.minerTx +
          (txs.map fun p => numOutputsInRctBucket p.1).sum) = some cumRct ∧
        db.blockInfo.append db.height ⟨blk.timestamp, info.coinsGenerated, info.weight,
          info.cumulativeDifficulty, c.getBlockHash blk, cumRct, info.longTermBlockWeight⟩ =
            some db'.blockInfo := by
  obtain ⟨-, -, s₁, s₂, hminer, htxs, hblock⟩ := addBlock_ok h
  obtain ⟨hblocks, hinfo⟩ := addTransactions_blocks htxs
  rw [hminer.blocks] at hblocks
  rw [hminer.blockInfo] at hinfo
  have hstored := hblock.stored
  have hcum := hblock.info
  simp only [cumulativeRct, Db.height, hblocks, hinfo] at hstored hcum
  exact ⟨hstored, hcum⟩

theorem addBlock_height (h : addBlock c blk info txs db = .ok n db') :
    db'.height = db.height + 1 := by
  obtain ⟨⟨blob, -, hblocks⟩, -⟩ := addBlock_blocks h
  rw [Db.height, (Table.append_eq_some.mp hblocks).2, length_append]
  rfl

/-- `add_block` keeps the invariant. -/
theorem addBlock_wf (hc : CanonicalBlock c blk txs) (h : addBlock c blk info txs db = .ok n db')
    (hwf : db.Wf c) : db'.Wf c := by
  obtain ⟨-, -, s₁, s₂, hminer, htxs, hblock⟩ := addBlock_ok h
  obtain ⟨b, hb, -⟩ := hblock.stored
  obtain ⟨mblob, hwire⟩ := WireTx.of_parseBlock hb (hc.parsed b hb)
  rw [hwire.serialized, Option.getD_some] at hminer
  have hwf₂ := addTransactions_wf (fun x hx => hc.txs x.2 (of_mem_zip hx).2) htxs
    (hminer.wf hwire hwf)
  have hheight := hblock.height
  rw [hblock.frame] at hheight ⊢
  exact ⟨hwf₂.tip, hwf₂.dense, hwf₂.sorted,
    fun he => (hwf₂.height_le he).trans (by rw [hheight]; exact Nat.le_succ _),
    fun hti => hwf₂.ownOutputs hti⟩

end AddBlock

/-! ### Runs -/

/-- A successful call of `add_block` or `pop_block`. -/
inductive DbStep (c : Crypto) : Db → Db → Prop
  | add {db db' blk info txs n} (hc : CanonicalBlock c blk txs)
      (h : addBlock c blk info txs db = .ok n db') : DbStep c db db'
  | pop {db db' r} (h : popBlock c db = .ok r db') : DbStep c db db'

/-- The databases that calls of `add_block` and `pop_block` lead to. -/
def Reachable (c : Crypto) (seed : UInt32) : Db → Prop :=
  Relation.ReflTransGen (DbStep c) (Db.empty seed)

/-- The databases that calls of `add_block` alone lead to. -/
inductive Built (c : Crypto) (seed : UInt32) : Db → Prop
  | empty : Built c seed (Db.empty seed)
  | add {db db' blk info txs n} (hdb : Built c seed db) (hc : CanonicalBlock c blk txs)
      (h : addBlock c blk info txs db = .ok n db') : Built c seed db'

variable {seed : UInt32}

theorem Built.wf (h : Built c seed db) : db.Wf c := by
  induction h with
  | empty =>
    refine ⟨?_, fun _ => Table.Dense.nil, fun _ => List.Pairwise.nil, ?_, ?_⟩
    · intro e he; cases he
    · intro a e he; cases he
    · intro h ti hti; cases hti
  | add _ hc h ih => exact addBlock_wf hc h ih

theorem popBlock_empty {r : Block × List Transaction} :
    ¬ popBlock c (Db.empty seed) = .ok r db' := by
  intro h
  cases h

/-- A pop leads back to the database before the last add. -/
theorem Reachable.built (h : Reachable c seed db) : Built c seed db := by
  induction h with
  | refl => exact .empty
  | tail _ hstep ih =>
    cases hstep with
    | add hc h => exact .add ih hc h
    | pop h =>
      cases ih with
      | empty => exact absurd h popBlock_empty
      | add hdb hc hadd =>
        rw [popBlock_addBlock hc.parsed hc.txs hdb.wf.tip hadd] at h
        cases h
        exact hdb

/-! ### The stored count of RingCT outputs -/

/-- The block at height `h`. -/
def Db.blockAt (db : Db) (h : ℕ) : Option Block := (db.blocks.get? h).bind parseBlock

/-- The number of outputs in the bucket of amount 0 that were created at the heights `lo` to
`hi`. -/
def rctOutputs (db : Db) (lo hi : ℕ) : ℕ :=
  (db.outputAmounts 0).countP fun e => decide (lo ≤ e.2.height ∧ e.2.height ≤ hi)

theorem rctOutputs_succ (db : Db) {lo hi : ℕ} (h : lo ≤ hi + 1) :
    rctOutputs db lo (hi + 1) = rctOutputs db (hi + 1) (hi + 1) + rctOutputs db lo hi := by
  rw [rctOutputs, rctOutputs, rctOutputs]
  induction db.outputAmounts 0 with
  | nil => rfl
  | cons e t ih =>
    simp only [countP_cons, ih, decide_eq_true_eq]
    split_ifs <;> omega

/-- The invariant of the block tables. The count of a block starts anew below version 4, and goes
on from the block before it otherwise. -/
structure Db.CountWf (db : Db) : Prop where
  length : db.blockInfo.length = db.height
  blocks : db.blocks.Dense
  blockInfo : db.blockInfo.Dense
  parsed : ∀ {h}, h < db.height → (db.blockAt h).isSome
  created : ∀ {e}, e ∈ db.outputAmounts 0 → e.2.height < db.height
  count : ∀ {h bi blk}, db.blockInfo.get? h = some bi → db.blockAt h = some blk →
    if 4 ≤ blk.majorVersion
    then ∃ k prev, h = k + 1 ∧ db.blockInfo.get? k = some prev ∧
      bi.cumRct = rctOutputs db h h + prev.cumRct
    else bi.cumRct = rctOutputs db h h

section AddBlock

variable {blk : Block} {info : BlockMeta} {txs : List (Transaction × Bytes)} {n : ℕ}

theorem rctOutputs_addBlock (h : addBlock c blk info txs db = .ok n db') (hwf : db.CountWf) {k : ℕ}
    (hk : k ≤ db.height) :
    rctOutputs db' k k = if k = db.height
      then numOutputsInRctBucket blk.minerTx + (txs.map fun p => numOutputsInRctBucket p.1).sum
      else rctOutputs db k k := by
  obtain ⟨new, hnew, hheight, hlen⟩ := addBlock_bucket h
  rw [rctOutputs, hnew, countP_append]
  split
  · next heq =>
    have hold : (db.outputAmounts 0).countP
        (fun e => decide (k ≤ e.2.height ∧ e.2.height ≤ k)) = 0 := by
      rw [countP_eq_zero]
      intro e he
      have := hwf.created he
      simp only [decide_eq_true_eq]
      omega
    have hall : new.countP (fun e => decide (k ≤ e.2.height ∧ e.2.height ≤ k)) = new.length := by
      rw [countP_eq_length]
      intro e he
      have := hheight e he
      simp only [decide_eq_true_eq]
      omega
    rw [hold, hall, Nat.zero_add, hlen]
  · next hne =>
    have hnone : new.countP (fun e => decide (k ≤ e.2.height ∧ e.2.height ≤ k)) = 0 := by
      rw [countP_eq_zero]
      intro e he
      have := hheight e he
      simp only [decide_eq_true_eq]
      omega
    rw [hnone, rctOutputs, Nat.add_zero]

/-- `add_block` keeps the invariant of the block tables. -/
theorem addBlock_countWf (hc : CanonicalBlock c blk txs)
    (h : addBlock c blk info txs db = .ok n db') (hwf : db.CountWf) : db'.CountWf := by
  obtain ⟨⟨blob, hblob, hblocks⟩, cumRct, hcum, hinfo⟩ := addBlock_blocks h
  have hheight := addBlock_height h
  have hnewBlock : db'.blockAt db.height = some blk := by
    rw [Db.blockAt, Table.get?_append_self hblocks, Option.bind_some, hc.parsed blob hblob]
  have holdBlock : ∀ {k}, k ≠ db.height → db'.blockAt k = db.blockAt k := fun hk => by
    rw [Db.blockAt, Table.get?_append_ne hblocks hk, Db.blockAt]
  have hlength : db'.blockInfo.length = db'.height := by
    rw [(Table.append_eq_some.mp hinfo).2, length_append, hwf.length, hheight]
    rfl
  have hdense : db'.blockInfo.Dense := by
    rw [← hwf.length] at hinfo
    exact hwf.blockInfo.append hinfo
  refine ⟨hlength, hwf.blocks.append hblocks, hdense, ?_, ?_, ?_⟩
  · intro k hk
    by_cases heq : k = db.height
    · rw [heq, hnewBlock]; rfl
    · rw [holdBlock heq]
      exact hwf.parsed (by omega)
  · intro e he
    obtain ⟨new, hnew, hcreated, -⟩ := addBlock_bucket h
    rw [hheight]
    rcases mem_append.mp (hnew ▸ he) with he | he
    · exact (hwf.created he).trans (Nat.lt_succ_self _)
    · rw [hcreated e he]
      exact Nat.lt_succ_self _
  · intro k bi b hbi hb
    have hk : k ≤ db.height := by
      have := hdense.lt_of_get? hbi
      omega
    rw [rctOutputs_addBlock h hwf hk]
    by_cases heq : k = db.height
    · -- the new block
      rw [heq, Table.get?_append_self hinfo, Option.some_inj] at hbi
      rw [heq, hnewBlock, Option.some_inj] at hb
      subst hbi hb
      rw [if_pos heq]
      rw [cumulativeRct] at hcum
      split at hcum
      · next hv =>
        rw [if_pos hv]
        split at hcum
        · cases hcum
        · next hpos =>
          obtain ⟨prev, hprev, rfl⟩ := Option.map_eq_some_iff.mp hcum
          refine ⟨db.height - 1, prev, by omega, ?_, rfl⟩
          rw [Table.get?_append_ne hinfo (by omega), hprev]
      · next hv =>
        rw [if_neg hv]
        exact (Option.some.inj hcum).symm
    · rw [Table.get?_append_ne hinfo heq] at hbi
      rw [holdBlock heq] at hb
      rw [if_neg heq]
      have hcount := hwf.count hbi hb
      split at hcount
      · next hv =>
        obtain ⟨j, prev, hj, hprev, hsum⟩ := hcount
        rw [if_pos hv]
        exact ⟨j, prev, hj, by rw [Table.get?_append_ne hinfo (by omega), hprev], hsum⟩
      · next hv => rw [if_neg hv]; exact hcount

end AddBlock

theorem Built.countWf (h : Built c seed db) : db.CountWf := by
  induction h with
  | empty =>
    refine ⟨rfl, Table.Dense.nil, Table.Dense.nil, ?_, ?_, ?_⟩
    · intro h hh; exact absurd hh (Nat.not_lt_zero _)
    · intro e he; cases he
    · intro h bi blk hbi; cases hbi
  | add _ hc h ih => exact addBlock_countWf hc h ih

/-- The count stored with a block covers the outputs since the last block below version 4. -/
theorem Db.CountWf.count_since (hwf : db.CountWf) {h : ℕ} {bi : BlockInfo}
    (hbi : db.blockInfo.get? h = some bi) :
    ∃ lo ≤ h, (∃ blk, db.blockAt lo = some blk ∧ ¬ 4 ≤ blk.majorVersion) ∧
      (∀ k blk, lo < k → k ≤ h → db.blockAt k = some blk → 4 ≤ blk.majorVersion) ∧
      bi.cumRct = rctOutputs db lo h := by
  induction h generalizing bi with
  | zero =>
    obtain ⟨blk, hblk⟩ := Option.isSome_iff_exists.mp
      (hwf.parsed (by rw [← hwf.length]; exact hwf.blockInfo.lt_of_get? hbi))
    have hcount := hwf.count hbi hblk
    split at hcount
    · obtain ⟨k, -, hk, -⟩ := hcount
      cases hk
    · next hv => exact ⟨0, le_rfl, ⟨blk, hblk, hv⟩, fun k b hk hk' => by omega, hcount⟩
  | succ h ih =>
    obtain ⟨blk, hblk⟩ := Option.isSome_iff_exists.mp
      (hwf.parsed (by rw [← hwf.length]; exact hwf.blockInfo.lt_of_get? hbi))
    have hcount := hwf.count hbi hblk
    split at hcount
    · next hv =>
      obtain ⟨k, prev, hk, hprev, hsum⟩ := hcount
      obtain rfl : h = k := Nat.succ_injective hk
      obtain ⟨lo, hlo, hbelow, habove, hrest⟩ := ih hprev
      refine ⟨lo, hlo.trans (Nat.le_succ _), hbelow, ?_, ?_⟩
      · intro j b hj hj' hb
        rcases Nat.lt_or_ge h j with hlt | hge
        · obtain rfl : j = h + 1 := by omega
          rw [hblk, Option.some_inj] at hb
          rwa [← hb]
        · exact habove j b hj hge hb
      · rw [hsum, hrest, ← rctOutputs_succ db (hlo.trans (Nat.le_succ _))]
    · next hv =>
      exact ⟨h + 1, le_rfl, ⟨blk, hblk, hv⟩, fun k b hk hk' => by omega, hcount⟩

/-! ### Adding and popping -/

/-- **Adding and popping blocks.** In every database that calls of `add_block` and `pop_block` lead
to: popping a block that was just added returns it with its transactions and restores all tables;
the indices in each bucket are `0, …, n - 1`; the index list of each transaction points at its own
outputs; and the count of RingCT outputs stored with a block covers the outputs from the last block
below version 4 up to the block, hence all outputs at or below its height if only the first block
has such a version. -/
theorem addPop_correct (hr : Reachable c seed db) :
    (∀ {blk info txs n db'}, CanonicalBlock c blk txs → addBlock c blk info txs db = .ok n db' →
      popBlock c db' = .ok (blk, (txs.map Prod.fst).reverse) db) ∧
    (∀ a, (db.outputAmounts a).Dense) ∧
    (∀ {h ti}, db.txIndices h = some ti → OwnOutputs c db h ti) ∧
    (∀ {h bi}, db.blockInfo.get? h = some bi →
      (∃ lo ≤ h, (∃ blk, db.blockAt lo = some blk ∧ ¬ 4 ≤ blk.majorVersion) ∧
        (∀ k blk, lo < k → k ≤ h → db.blockAt k = some blk → 4 ≤ blk.majorVersion) ∧
        bi.cumRct = rctOutputs db lo h) ∧
      ((∀ k blk, 0 < k → k ≤ h → db.blockAt k = some blk → 4 ≤ blk.majorVersion) →
        bi.cumRct = rctOutputs db 0 h)) := by
  have hwf := hr.built.wf
  refine ⟨fun hc h => popBlock_addBlock hc.parsed hc.txs hwf.tip h, hwf.dense,
    fun hti => hwf.ownOutputs hti, fun {h bi} hbi => ?_⟩
  obtain ⟨lo, hlo, ⟨blk, hblk, hv⟩, habove, hcount⟩ := hr.built.countWf.count_since hbi
  refine ⟨⟨lo, hlo, ⟨blk, hblk, hv⟩, habove, hcount⟩, fun hall => ?_⟩
  rcases Nat.eq_zero_or_pos lo with rfl | hpos
  · exact hcount
  · exact absurd (hall lo blk hpos hlo hblk) hv

/-! ### Blocks that can be added -/

/-- The keys of the tables of transactions are below the number of transactions. -/
structure Db.KeysBound (db : Db) : Prop where
  pruned : ∀ e ∈ db.txsPruned, e.1 < db.getTxCount
  prunable : ∀ e ∈ db.txsPrunable, e.1 < db.getTxCount
  prunableHash : ∀ e ∈ db.txsPrunableHash, e.1 < db.getTxCount
  outputs : ∀ e ∈ db.txOutputs, e.1 < db.getTxCount

theorem TxAdded.keysBound (h : TxAdded c tx blob txHash db db')
    (hdb : db.KeysBound) : db'.KeysBound := by
  obtain ⟨n, -, -, hpruned, hprunable⟩ := h.split
  obtain ⟨indices, -, -, -, -, -, -, -, -, houts⟩ := h.outputs
  have hhash := h.txsPrunableHash
  constructor <;> rw [h.getTxCount]
  · exact Table.key_lt_of_append hpruned
  · exact Table.key_lt_of_append hprunable
  · split at hhash
    · exact Table.key_lt_of_append hhash
    · rw [← Option.some.inj hhash]
      exact fun e he => (hdb.prunableHash e he).trans (Nat.lt_succ_self _)
  · exact Table.key_lt_of_append houts

theorem Built.keysBound (h : Built c seed db) : db.KeysBound := by
  induction h with
  | empty => constructor <;> intro e he <;> cases he
  | add _ _ h ih =>
    obtain ⟨-, -, s₁, s₂, hminer, htxs, hblock⟩ := addBlock_ok h
    have hs := addTransactions_induction (motive := Db.KeysBound) TxAdded.keysBound htxs
      (hminer.keysBound ih)
    rw [hblock.frame]
    exact ⟨hs.pruned, hs.prunable, hs.prunableHash, hs.outputs⟩

/-- The hash of the top block leads to its height. -/
theorem Built.top (h : Built c seed db) (hpos : 0 < db.height) :
    ∃ bi, db.blockInfo.get? (db.height - 1) = some bi ∧
      db.blockHeights bi.hash = some (db.height - 1) := by
  cases h with
  | empty => exact absurd hpos (Nat.lt_irrefl 0)
  | add hdb _ h =>
    obtain ⟨-, -, s₁, s₂, hminer, htxs, hblock⟩ := addBlock_ok h
    obtain ⟨cumRct, -, hinfo⟩ := hblock.info
    rw [hblock.height, Nat.add_sub_cancel]
    refine ⟨_, Table.get?_append_self hinfo, ?_⟩
    rw [hblock.frame]
    exact Function.update_self _ _ _

/-- What is needed of a database for a block to be put on top of it. -/
structure Db.Extensible (db : Db) : Prop where
  keys : db.KeysBound
  blocks : ∀ e ∈ db.blocks, e.1 < db.height
  info : ∀ e ∈ db.blockInfo, e.1 < db.height
  top : ∃ bi, db.blockInfo.get? (db.height - 1) = some bi ∧
    db.blockHeights bi.hash = some (db.height - 1)

theorem Built.extensible (h : Built c seed db) (hpos : 0 < db.height) : db.Extensible := by
  refine ⟨h.keysBound, fun e he => h.countWf.blocks.key_lt he, fun e he => ?_, h.top hpos⟩
  exact (h.countWf.blockInfo.key_lt he).trans_eq h.countWf.length

/-- A transaction without spends and outputs can be added if its hash is new. -/
theorem addTransaction_idle (hdb : db.KeysBound) {h : Hash} {height : UInt64}
    (hvin : tx.vin = [.gen height]) (hvout : tx.vout = []) (hpruned : tx.pruned = false)
    (hblob : serializeTransaction tx = some blob)
    (hnew : db.txIndices h = none) : ∃ db', addTransaction c tx blob h db = .ok () db' := by
  obtain ⟨b, rest, hb, rfl⟩ := base_of_serialize hpruned hblob
  have hsize : unprunableSize tx = some b.length := by rw [unprunableSize, hb]; rfl
  have hhashes : ∃ t, (if 1 < tx.version
      then db.txsPrunableHash.append db.getTxCount (prunableHash c tx (b ++ rest))
      else some db.txsPrunableHash) = some t := by
    split
    · exact ⟨_, Table.append_of_lt hdb.prunableHash _⟩
    · exact ⟨_, rfl⟩
  obtain ⟨hashes, hhashes⟩ := hhashes
  simp only [addTransaction, hvin, hvout, addSpentKeys, addOutputs, pure_bind, addTransactionData,
    addTxAmountOutputIndices, bind_assoc, get_bind]
  rw [bind_eq (require_eq (by rw [hnew]; rfl)), modify_bind, bind_eq (ofOption_eq hsize),
    bind_eq (require_eq (by simp)), bind_eq (ofOption_eq (Table.append_of_lt hdb.pruned _)),
    modify_bind, bind_eq (ofOption_eq (Table.append_of_lt hdb.prunable _)), modify_bind,
    modify_bind, bind_eq (ofOption_eq hhashes), modify_bind, get_bind,
    bind_eq (ofOption_eq (Table.append_of_lt hdb.outputs _)), set_eq]
  exact ⟨_, rfl⟩

/-- A block whose miner transaction has no outputs and that has no other transactions can be added
on top of the chain, if its hashes are new. -/
theorem Db.Extensible.addBlock_idle (hdb : db.Extensible) (hpos : 0 < db.height) {blk : Block}
    {blob blkBlob : Bytes} {height : UInt64} {top : BlockInfo} (info : BlockMeta)
    (hvin : blk.minerTx.vin = [.gen height]) (hvout : blk.minerTx.vout = [])
    (hpruned : blk.minerTx.pruned = false) (hblob : serializeTransaction blk.minerTx = some blob)
    (htxs : blk.txHashes = []) (hblk : blockToBlob blk = some blkBlob)
    (htop : db.blockInfo.get? (db.height - 1) = some top) (hprev : blk.prevId = top.hash)
    (hnewTx : db.txIndices (c.getTransactionHash blk.minerTx) = none)
    (hnewBlock : db.blockHeights (c.getBlockHash blk) = none) :
    ∃ n db', addBlock c blk info [] db = .ok n db' := by
  obtain ⟨s, hs⟩ := addTransaction_idle (c := c) hdb.keys hvin hvout hpruned hblob hnewTx
  have hadded := addTransaction_ok hs
  obtain ⟨bi, hbi, hheight⟩ := hdb.top
  obtain rfl : bi = top := Option.some.inj (hbi.symm.trans htop)
  have hblocks : ∀ e ∈ s.blocks, e.1 < s.height := by
    rw [hadded.height, hadded.blocks]
    exact hdb.blocks
  have hinfo : ∀ e ∈ s.blockInfo, e.1 < s.height := by
    rw [hadded.height, hadded.blockInfo]
    exact hdb.info
  have hparent : (if s.height = 0 then some 0 else s.blockHeights blk.prevId) =
      some (s.height - 1) := by
    rw [hadded.height, if_neg hpos.ne', hadded.blockHeights, hprev, hheight]
  obtain ⟨cum, hcum⟩ : ∃ cum,
      cumulativeRct s blk (numOutputsInRctBucket blk.minerTx + 0) = some cum := by
    rw [cumulativeRct, hadded.height, hadded.blockInfo, if_neg hpos.ne', hbi]
    split <;> exact ⟨_, rfl⟩
  refine ⟨db.height, ?_⟩
  rw [addBlock, bind_eq (require_eq (by simp [htxs])), get_bind, hblob, Option.getD_some,
    bind_eq hs, htxs, zip_nil_left, addTransactions, pure_bind, map_nil, sum_nil,
    addBlockData]
  simp only [bind_assoc, get_bind]
  rw [bind_eq (require_eq (by rw [hadded.blockHeights, hnewBlock]; rfl)),
    bind_eq (ofOption_eq hparent), bind_eq (require_eq (by simp)), bind_eq (ofOption_eq hblk),
    bind_eq (ofOption_eq (Table.append_of_lt hblocks _)), modify_bind,
    bind_eq (ofOption_eq hcum), bind_eq (ofOption_eq (Table.append_of_lt hinfo _)), modify_bind,
    modify_bind]
  exact ⟨_, rfl⟩

/-- Several calls of `add_block`. -/
def addBlocks (c : Crypto) : List (Block × BlockMeta × List (Transaction × Bytes)) → DbM Unit
  | [] => pure ()
  | (blk, info, txs) :: rest => do
    let _ ← addBlock c blk info txs
    addBlocks c rest

theorem Reachable.addBlocks {l : List (Block × BlockMeta × List (Transaction × Bytes))}
    (hr : Reachable c seed db) (hc : ∀ x ∈ l, CanonicalBlock c x.1 x.2.2)
    (h : Hidering.addBlocks c l db = .ok () db') : Reachable c seed db' := by
  induction l generalizing db with
  | nil =>
    obtain ⟨-, rfl⟩ := pure_ok.mp h
    exact hr
  | cons x l ih =>
    obtain ⟨n, mid, hx, hrest⟩ := bind_ok.mp h
    exact ih (hr.tail (.add (hc x mem_cons_self) hx))
      (fun y hy => hc y (mem_cons_of_mem _ hy)) hrest

theorem CanonicalBlock.of_parse {blk : Block}
    (h : (blockToBlob blk).bind parseBlock = some blk) : CanonicalBlock c blk [] := by
  refine ⟨fun blob hblob => ?_, by simp⟩
  rwa [hblob, Option.bind_some] at h

/-- A block at height `h` with a version-2 miner transaction and no others. -/
def soloBlock (majorVersion : UInt8) (h : ℕ) : Block where
  majorVersion := majorVersion
  minorVersion := majorVersion
  timestamp := 0
  prevId := natLe h
  nonce := 0
  minerTx :=
    { version := 2
      unlockTime := 60
      vin := [.gen (UInt64.ofNat h)]
      vout := [⟨7, .toKey (natLe (h + 1))⟩] }
  txHashes := []

/-- The calls of `add_block` for a chain of such blocks with the given versions. -/
def soloChain (versions : List UInt8) : List (Block × BlockMeta × List (Transaction × Bytes)) :=
  versions.zipIdx.map fun v => (soloBlock v.1 v.2, ⟨0, 0, 0, 0⟩, [])

/-- The calls of `add_block` for `n` blocks of difficulty 1, two minutes apart. Those from height
`split` on belong to a fork: they are `fork` blocks late. -/
def forkedChain (split fork n : ℕ) : List (Block × BlockMeta × List (Transaction × Bytes)) :=
  (List.range n).map fun h =>
    let k := if h < split then h else h + fork
    ({ soloBlock 1 k with
        timestamp := UInt64.ofNat (120 * k)
        prevId := natLe (if h = split then h else k) },
      ⟨0, 0, h + 1, 0⟩, [])

/-- A chain of blocks without transactions but the miner's. -/
theorem Reachable.of_solo {l : List (Block × BlockMeta × List (Transaction × Bytes))}
    (hsolo : ∀ x ∈ l, x.2.2 = []) (hparse : ∀ x ∈ l, (blockToBlob x.1).bind parseBlock = some x.1)
    (h : Hidering.addBlocks c l (Db.empty seed) = .ok () db) : Reachable c seed db := by
  refine Reachable.addBlocks .refl (fun x hx => ?_) h
  rw [hsolo x hx]
  exact .of_parse (hparse x hx)

/-- Three blocks with one RingCT output each, of which the last has version 4: the count stored with
it is 2, since the second one did not go on from the first. -/
theorem cumRct_restarts_below_four :
    ¬ ∀ (db : Db) (h : ℕ) (bi : BlockInfo) (blk : Block), Reachable transparent 0 db →
      db.blockInfo.get? h = some bi → db.blockAt h = some blk → 4 ≤ blk.majorVersion →
      bi.cumRct = rctOutputs db 0 h := by
  intro hall
  obtain ⟨⟨⟩, db, hrun, hdb⟩ := exists_of_okAnd
    (r := addBlocks transparent (soloChain [1, 1, 4]) (Db.empty 0))
    (p := fun _ db => ((db.blockInfo.get? 2).map BlockInfo.cumRct == some 2) &&
      (db.blockAt 2 == some (soloBlock 4 2)) && (rctOutputs db 0 2 == 3)) (by decide +kernel)
  simp only [Bool.and_eq_true, beq_iff_eq] at hdb
  obtain ⟨⟨hcum, hblk⟩, hcount⟩ := hdb
  obtain ⟨bi, hbi, hbi2⟩ := Option.map_eq_some_iff.mp hcum
  have hreach : Reachable transparent 0 db :=
    Reachable.of_solo (by decide +kernel) (by decide +kernel) hrun
  have := hall db 2 bi (soloBlock 4 2) hreach hbi hblk (by decide)
  omega

/-- A chain whose first block alone is below version 4: the count stored with the third block is
that of all outputs. -/
theorem addPop_correct_three_blocks :
    ∃ db bi, Reachable transparent 0 db ∧ db.blockInfo.get? 2 = some bi ∧
      bi.cumRct = rctOutputs db 0 2 := by
  obtain ⟨⟨⟩, db, hrun, hdb⟩ := exists_of_okAnd
    (r := addBlocks transparent (soloChain [1, 15, 15]) (Db.empty 0))
    (p := fun _ db => (db.blockInfo.get? 2).isSome && (db.blockAt 1 == some (soloBlock 15 1)) &&
      (db.blockAt 2 == some (soloBlock 15 2))) (by decide +kernel)
  simp only [Bool.and_eq_true, beq_iff_eq] at hdb
  obtain ⟨⟨hsome, hblk₁⟩, hblk₂⟩ := hdb
  obtain ⟨bi, hbi⟩ := Option.isSome_iff_exists.mp hsome
  have hreach : Reachable transparent 0 db :=
    Reachable.of_solo (by decide +kernel) (by decide +kernel) hrun
  refine ⟨db, bi, hreach, hbi, ((addPop_correct hreach).2.2.2 hbi).2 ?_⟩
  intro k blk hk hk' hblk
  obtain rfl | rfl : k = 1 ∨ k = 2 := by omega
  · rw [hblk₁, Option.some_inj] at hblk; rw [← hblk]; decide
  · rw [hblk₂, Option.some_inj] at hblk; rw [← hblk]; decide

/-- A chain of two blocks. -/
theorem exists_solo : ∃ db, Reachable transparent 0 db ∧ db.height = 2 := by
  obtain ⟨⟨⟩, db, hrun, hdb⟩ := exists_of_okAnd
    (r := addBlocks transparent (soloChain [1, 15]) (Db.empty 0))
    (p := fun _ db => db.height == 2) (by decide +kernel)
  exact ⟨db, Reachable.of_solo (by decide +kernel) (by decide +kernel) hrun, beq_iff_eq.mp hdb⟩

end Hidering
