import Hidering.Basic.FormatUtils

/-!
# The unprunable part of a transaction

The database stores a transaction in two pieces, cut where the unprunable part ends, and reads the
first piece alone when it removes a transaction. A blob starts with the unprunable part of its
transaction (`base_of_serialize`), and what is read back from there is a pruned form of the
transaction (`parseAndValidateTxBase_take`).

## Main definitions

* `Hidering.Transaction.IsPrunedForm`
* `Hidering.WireTx` — a complete transaction together with its serialization

## Main results

* `Hidering.parseAndValidateTxBase_take`
* `Hidering.WireTx.of_parseAndValidateTx`, `WireTx.of_parseBlock`
-/

namespace Hidering

open Wire Wire.Format List

variable {c : Crypto} {tx tx' : Transaction} {blob : Bytes}

/-- The size of the unprunable part of a transaction. -/
def unprunableSize (tx : Transaction) : Option ℕ := (transactionBaseFormat.write tx).map List.length

/-! ### What is read from the unprunable part -/

/-- A transaction without its prunable part, as it is read back from its encoding. -/
def Transaction.baseView (tx : Transaction) : Transaction :=
  { toTransactionPrefix := tx.toTransactionPrefix
    rctSignatures :=
      if tx.version = 1 ∨ tx.vin = [] then {}
      else { toRctSigBase := tx.rctSignatures.toRctSigBase.wireView }
    pruned := true }

theorem transactionBaseFormat_write {b : Bytes} :
    transactionBaseFormat.write tx = some b ↔
      ∃ x, prefixFormat.write tx = some x ∧ ∃ y,
        (transactionBaseBody tx).write tx.rctSignatures = some y ∧
        x ++ y = b := by
  simp only [transactionBaseFormat, imap, Format.bind, Option.bind_eq_some_iff,
    Option.map_eq_some_iff]

theorem transactionBaseFormat_norm {b : Bytes} (h : transactionBaseFormat.write tx = some b) :
    transactionBaseFormat.norm tx = tx.baseView := by
  obtain ⟨x, -, y, hy, -⟩ := transactionBaseFormat_write.mp h
  simp only [transactionBaseFormat, imap, Format.bind, prefixFormat_faithful _,
    Transaction.baseView]
  rw [transactionBaseBody] at hy ⊢
  split
  · rfl
  · next hv =>
    rw [if_neg hv] at hy
    congr 1
    change ({ toRctSigBase := _ } : RctSig) = _
    rw [rctsigBaseFormat_norm hy]

/-- The layout of the prunable part behind a prefix. -/
def prunableFormat (type : UInt8) (p : TransactionPrefix) : Format RctSigPrunable :=
  if type = rctTypeNull then skip {}
  else rctsigPrunableFormat type (nRing p) p.vout.length (rctMixin p.vin)

theorem serialize_eq_some (hp : tx.pruned = false) :
    serializeTransaction tx = some blob ↔
      ∃ x, prefixFormat.write tx = some x ∧ ∃ y,
        (transactionBody tx).write (tx.signatures, tx.rctSignatures) = some y ∧
        x ++ y = blob := by
  simp only [serializeTransaction, hp, Bool.false_eq_true, if_false, transactionFormat, imap,
    Format.bind, Option.bind_eq_some_iff, Option.map_eq_some_iff]

/-- The two parts of a blob of version 2. -/
theorem parts_of_serialize (hp : tx.pruned = false) (h : serializeTransaction tx = some blob)
    (hv : ¬ (tx.version = 1 ∨ tx.vin = [])) :
    ∃ b rest, transactionBaseFormat.write tx = some b ∧
      (prunableFormat tx.rctSignatures.type tx).write tx.rctSignatures.p =
        some rest ∧ blob = b ++ rest := by
  obtain ⟨x, hx, y, hy, rfl⟩ := (serialize_eq_some hp).mp h
  rw [not_or] at hv
  rw [transactionBody, if_neg hv.1, if_neg hv.2] at hy
  obtain ⟨s, hs, t, ht, rfl⟩ := seq_eq_some.mp hy
  obtain rfl := Option.some.inj hs
  simp only [rctSigFormat, imap, Format.bind, Option.bind_eq_some_iff,
    Option.map_eq_some_iff] at ht
  obtain ⟨z, hz, rest, hrest, rfl⟩ := ht
  have hbase : (transactionBaseBody tx).write tx.rctSignatures = some z := by
    rw [transactionBaseBody, if_neg (not_or.mpr hv)]
    exact hz
  refine ⟨x ++ z, rest, transactionBaseFormat_write.mpr ⟨x, hx, z, hbase, rfl⟩, hrest, ?_⟩
  rw [nil_append, append_assoc]

/-- A blob starts with the unprunable part. -/
theorem base_of_serialize (hp : tx.pruned = false) (h : serializeTransaction tx = some blob) :
    ∃ b rest, transactionBaseFormat.write tx = some b ∧ blob = b ++ rest := by
  by_cases hv : tx.version = 1 ∨ tx.vin = []
  · obtain ⟨x, hx, y, hy, rfl⟩ := (serialize_eq_some hp).mp h
    have hbase : (transactionBaseBody tx).write tx.rctSignatures = some [] := by
      rw [transactionBaseBody, if_pos hv]
      rfl
    exact ⟨x, y, transactionBaseFormat_write.mpr ⟨x, hx, [], hbase, append_nil x⟩, rfl⟩
  · obtain ⟨b, rest, hb, -, heq⟩ := parts_of_serialize hp h hv
    exact ⟨b, rest, hb, heq⟩

theorem rctsigBaseFormat_outPk_length {inputs outputs : ℕ} {b : RctSigBase} {bs : Bytes}
    (h : (rctsigBaseFormat inputs outputs).write b = some bs) (hnull : b.type ≠ rctTypeNull) :
    b.outPk.length = outputs := by
  simp only [rctsigBaseFormat, imap, Format.bind, Option.bind_eq_some_iff,
    Option.map_eq_some_iff] at h
  obtain ⟨x, -, y, hy, -⟩ := h
  rw [rctsigBaseBody, if_neg hnull] at hy
  split at hy
  · obtain ⟨_, -, u, hu, -⟩ := seq_eq_some.mp hy
    obtain ⟨_, -, v, hv, -⟩ := seq_eq_some.mp hu
    obtain ⟨_, -, w, hw, -⟩ := seq_eq_some.mp hv
    simp only [listN] at hw
    by_contra hlen
    rw [if_neg hlen] at hw
    cases hw
  · cases hy

/-! ### Expansion -/

/-- The expansion of a parsed transaction changes the output keys and the commitments of the range
proof only. -/
theorem fillProofCommitments_frame (h : fillProofCommitments c tx = some tx') :
    tx'.toTransactionPrefix = tx.toTransactionPrefix ∧ tx'.pruned = tx.pruned ∧
      tx'.rctSignatures.toRctSigBase = tx.rctSignatures.toRctSigBase := by
  rw [fillProofCommitments] at h
  split at h
  · split at h
    · split at h
      · cases h
      · obtain rfl := Option.some.inj h
        exact ⟨rfl, rfl, rfl⟩
    · cases h
  · split at h
    · split at h
      · split at h
        · cases h
        · obtain rfl := Option.some.inj h
          exact ⟨rfl, rfl, rfl⟩
      · cases h
    · obtain rfl := Option.some.inj h
      exact ⟨rfl, rfl, rfl⟩

theorem fillDests_map_mask {outs : List TxOut} {ks ks' : List CtKey}
    (h : fillDests outs ks = some ks') :
    ks'.map (fun k => (⟨default, k.mask⟩ : CtKey)) = ks.map fun k => ⟨default, k.mask⟩ := by
  induction outs generalizing ks ks' with
  | nil => rw [Option.some.inj h]
  | cons o outs ih =>
    cases ks with
    | nil => rw [Option.some.inj h]
    | cons k ks =>
      obtain ⟨dest, -, h⟩ := Option.bind_eq_some_iff.mp h
      obtain ⟨r, hr, rfl⟩ := Option.map_eq_some_iff.mp h
      rw [map_cons, map_cons, ih hr]

theorem expandTransaction1_frame {baseOnly : Bool}
    (h : expandTransaction1 c tx baseOnly = some tx') :
    tx'.toTransactionPrefix = tx.toTransactionPrefix ∧ tx'.pruned = tx.pruned ∧
      tx'.rctSignatures.type = tx.rctSignatures.type ∧
      tx'.rctSignatures.toRctSigBase.wireView = tx.rctSignatures.toRctSigBase.wireView := by
  rw [expandTransaction1] at h
  split at h
  · simp only at h
    split at h
    · obtain rfl := Option.some.inj h
      exact ⟨rfl, rfl, rfl, rfl⟩
    · split at h
      · cases h
      · obtain ⟨outPk, hfill, h⟩ := Option.bind_eq_some_iff.mp h
        have hwire : RctSigBase.wireView { tx.rctSignatures.toRctSigBase with outPk := outPk } =
            tx.rctSignatures.toRctSigBase.wireView := by
          simp only [RctSigBase.wireView, fillDests_map_mask hfill]
        split at h
        · obtain rfl := Option.some.inj h
          exact ⟨rfl, rfl, rfl, hwire⟩
        · obtain ⟨hpre, hpruned, hbase⟩ := fillProofCommitments_frame h
          exact ⟨hpre, hpruned, by rw [hbase], by rw [hbase, hwire]⟩
  · obtain rfl := Option.some.inj h
    exact ⟨rfl, rfl, rfl, rfl⟩

theorem fillDests_isSome {outs : List TxOut} (hkeys : ∀ o ∈ outs, (getOutputPublicKey o).isSome)
    (ks : List CtKey) : (fillDests outs ks).isSome := by
  induction outs generalizing ks with
  | nil => rfl
  | cons o outs ih =>
    cases ks with
    | nil => rfl
    | cons k ks =>
      obtain ⟨dest, hdest⟩ := Option.isSome_iff_exists.mp (hkeys o mem_cons_self)
      obtain ⟨r, hr⟩ := Option.isSome_iff_exists.mp
        (ih (fun o ho => hkeys o (mem_cons_of_mem _ ho)) ks)
      rw [fillDests, hdest, Option.bind_some, hr]
      rfl

theorem expandTransaction1_baseView {b : Bytes} (h : transactionBaseFormat.write tx = some b)
    (hkeys : ∀ o ∈ tx.vout, (getOutputPublicKey o).isSome) :
    (expandTransaction1 c tx.baseView true).isSome := by
  obtain ⟨-, -, y, hy, -⟩ := transactionBaseFormat_write.mp h
  rw [transactionBaseBody] at hy
  rw [expandTransaction1]
  split
  · simp only
    split
    · rfl
    · next hnull =>
      by_cases hv : tx.version = 1 ∨ tx.vin = []
      · exact absurd (by simp only [Transaction.baseView, if_pos hv]) hnull
      · rw [if_neg hv] at hy
        simp only [Transaction.baseView, if_neg hv, RctSigBase.wireView_type] at hnull ⊢
        have hlen := rctsigBaseFormat_outPk_length hy hnull
        rw [if_neg]
        · obtain ⟨r, hr⟩ := Option.isSome_iff_exists.mp
            (fillDests_isSome hkeys tx.rctSignatures.wireView.outPk)
          rw [hr]
          rfl
        · rw [not_not, RctSigBase.wireView, if_neg hnull, length_map, hlen]
  · rfl

/-! ### Transactions with their blobs -/

/-- `blob` is the serialization of the complete transaction `tx`; the RingCT part is empty where the
serializer does not write it. -/
structure WireTx (tx : Transaction) (blob : Bytes) : Prop where
  complete : tx.pruned = false
  serialized : serializeTransaction tx = some blob
  null_of_absent : tx.version = 1 ∨ tx.vin = [] → tx.rctSignatures.type = rctTypeNull

/-- `tx'` is `tx` without its prunable part. -/
structure Transaction.IsPrunedForm (tx tx' : Transaction) : Prop where
  pruned : tx'.pruned = true
  sameBase : transactionBaseFormat.write tx' = transactionBaseFormat.write tx
  samePrefix : tx'.toTransactionPrefix = tx.toTransactionPrefix
  sameType : tx'.rctSignatures.type = tx.rctSignatures.type

/-- The unprunable part has the prefix and the wire data of the RingCT base part. -/
theorem transactionBaseFormat_write_congr
    (hpre : tx'.toTransactionPrefix = tx.toTransactionPrefix)
    (hwire : ¬ (tx.version = 1 ∨ tx.vin = []) →
      tx'.rctSignatures.toRctSigBase.wireView = tx.rctSignatures.toRctSigBase.wireView) :
    transactionBaseFormat.write tx' = transactionBaseFormat.write tx := by
  simp only [transactionBaseFormat, imap, Format.bind, transactionBaseBody, hpre]
  split
  · rfl
  · next hv =>
    dsimp only
    rw [← rctsigBaseFormat_write_wireView, hwire hv, rctsigBaseFormat_write_wireView]

/-- **Reading the unprunable part.** The stored unprunable part of a transaction is parsed to a
pruned form of it. -/
theorem parseAndValidateTxBase_take (h : WireTx tx blob)
    (hkeys : ∀ o ∈ tx.vout, (getOutputPublicKey o).isSome) {n : ℕ}
    (hn : unprunableSize tx = some n) :
    ∃ tx', parseAndValidateTxBase c (blob.take n) = some tx' ∧ tx.IsPrunedForm tx' := by
  obtain ⟨b, rest, hb, rfl⟩ := base_of_serialize h.complete h.serialized
  rw [unprunableSize, hb, Option.map_some, Option.some_inj] at hn
  have hread : transactionBaseFormat.read .lenient b = some (tx.baseView, []) := by
    have := transactionBaseFormat.read_write (m := .lenient) [] hb
    rwa [append_nil, transactionBaseFormat_norm hb] at this
  obtain ⟨tx', htx'⟩ := Option.isSome_iff_exists.mp (expandTransaction1_baseView (c := c) hb hkeys)
  obtain ⟨hpre, hpruned, htype, hwire⟩ := expandTransaction1_frame htx'
  refine ⟨tx', ?_, hpruned, transactionBaseFormat_write_congr hpre fun hv => ?_, hpre, ?_⟩
  · rw [parseAndValidateTxBase, ← hn, take_left, hread, Option.bind_some, htx']
  · rw [hwire, Transaction.baseView, if_neg hv]
    exact tx.rctSignatures.toRctSigBase.wireView_wireView
  · rw [htype, Transaction.baseView]
    split
    · next hv => exact (h.null_of_absent hv).symm
    · exact RctSigBase.wireView_type _

theorem transactionFormat_norm_type :
    (transactionFormat.norm tx).rctSignatures.type =
      if tx.version = 1 ∨ tx.vin = [] then rctTypeNull else tx.rctSignatures.type := by
  simp only [transactionFormat, imap, Format.bind]
  rw [transactionBody]
  by_cases hv : tx.version = 1
  · rw [if_pos hv, if_pos (.inl hv)]
    rfl
  · rw [if_neg hv]
    by_cases hvin : tx.vin = []
    · rw [if_pos hvin, if_pos (.inr hvin)]
      rfl
    · rw [if_neg hvin, if_neg (not_or.mpr ⟨hv, hvin⟩)]
      rfl

theorem WireTx.of_norm (hp : tx.pruned = false) (h : serializeTransaction tx = some blob)
    (htype : (transactionFormat.norm tx).rctSignatures.type = tx.rctSignatures.type) :
    WireTx tx blob := by
  refine ⟨hp, h, fun hv => ?_⟩
  rw [← htype, transactionFormat_norm_type, if_pos hv]

theorem pruned_of_parseTransaction (h : parseTransaction blob = some tx) : tx.pruned = false := by
  obtain ⟨w, -, hw⟩ := Option.map_eq_some_iff.mp (parse_eq_some.mp h)
  rw [← (Prod.mk.inj hw).1]

/-- A transaction that was parsed from its own serialization. -/
theorem WireTx.of_parseAndValidateTx (h : serializeTransaction tx = some blob)
    (hparse : parseAndValidateTx c blob = some tx) : WireTx tx blob := by
  obtain ⟨tx₀, htx₀, hexpand⟩ := Option.bind_eq_some_iff.mp hparse
  obtain ⟨-, hpruned, htype, -⟩ := expandTransaction1_frame hexpand
  have hp : tx.pruned = false := hpruned.trans (pruned_of_parseTransaction htx₀)
  refine .of_norm hp h ?_
  have hwrite := h
  simp only [serializeTransaction, hp, Bool.false_eq_true, if_false] at hwrite
  rw [parseTransaction, transactionFormat.parse_write hwrite, Option.some_inj] at htx₀
  rw [htx₀, htype]

/-- The miner transaction of a block that was parsed from its own serialization. -/
theorem WireTx.of_parseBlock {blk : Block} {b : Bytes} (h : blockToBlob blk = some b)
    (hparse : parseBlock b = some blk) : ∃ blob, WireTx blk.minerTx blob := by
  rw [parseBlock, blockFormat.parse_write h, Option.some_inj] at hparse
  have hnorm : transactionFormat.norm blk.minerTx = blk.minerTx := congrArg Block.minerTx hparse
  have hp : blk.minerTx.pruned = false := congrArg Transaction.pruned hnorm.symm
  simp only [blockToBlob, blockFormat, check, imap] at h
  split at h
  · obtain ⟨_, -, b₁, h₁, -⟩ := seq_eq_some.mp h
    obtain ⟨_, -, b₂, h₂, -⟩ := seq_eq_some.mp h₁
    obtain ⟨_, -, b₃, h₃, -⟩ := seq_eq_some.mp h₂
    obtain ⟨_, -, b₄, h₄, -⟩ := seq_eq_some.mp h₃
    obtain ⟨_, -, b₅, h₅, -⟩ := seq_eq_some.mp h₄
    obtain ⟨blob, hblob, -, -, -⟩ := seq_eq_some.mp h₅
    refine ⟨blob, .of_norm hp ?_ (by rw [hnorm])⟩
    simp only [serializeTransaction, hp, Bool.false_eq_true, if_false]
    exact hblob
  · cases h

end Hidering
