import Hidering.Verify.Inputs

/-!
# What an accepted transaction satisfies

One inversion lemma for each pass of `check_tx_inputs` and for `ver_non_input_consensus`: from "the
function accepted" to the conditions that it has tested. Later results use these lemmas and do not
unfold the checks again.

## Main definitions

* `Hidering.InputsAccepted`, `PqInputAccepted`, `RingInputAccepted`

## Main results

* `Hidering.checkTxInputs_ok`, `checkPqInput_ok`, `checkRingInputs_ok`
* `Hidering.verNonInputConsensus_ok`
-/

namespace Hidering

open Wire Machine Check List

variable {c : Crypto}

/-! ### Passes of `check_tx_inputs` -/

variable (c) in
/-- What `check_tx_inputs` has tested from `HF_VERSION_PQ` on, with the rings that it found. -/
structure InputsAccepted (view : ChainView) (cache : RctVerCache c) (tx : Transaction)
    (rings : List (List CtKey) × ℕ) : Prop where
  extra : checkPqExtra tx = .ok ()
  pqPass : checkPqPass c view tx = .ok ()
  outputs : 2 ≤ tx.version → 2 ≤ tx.vout.length
  mixins : checkMixins view tx = .ok ()
  order : ringBeforePq tx.vin = true
  ringInputs : checkRingInputs c view tx (c.getTransactionPrefixHash tx) 0 tx.vin = .ok rings
  age : rings.2 + cryptonoteDefaultTxSpendableAge ≤ view.db.height
  signature : tx.version ≠ 1 → ∃ cache', checkRctSignature c view cache tx
    (c.getTransactionPrefixHash tx) rings.1 = .ok cache'

variable {tx : Transaction} {view : ChainView}

theorem checkTxInputs_ok {cache : RctVerCache c} {r : ℕ × RctVerCache c}
    (hf : hfVersionPq ≤ view.hfVersion) (h : checkTxInputs c view cache tx = .ok r) :
    ∃ rings, InputsAccepted c view cache tx rings := by
  have hge : ∀ v : UInt8, v ≤ hfVersionPq → v ≤ view.hfVersion := fun v hv =>
    UInt8.le_trans hv hf
  have hlt : ∀ v : UInt8, v ≤ hfVersionPq → decide (view.hfVersion < v) = false := fun v hv =>
    decide_eq_false (UInt8.not_lt.mpr (hge v hv))
  simp only [checkTxInputs, if_pos hf, if_pos (hge 2 (by decide)), unit_bind_ok, ensure_ok] at h
  obtain ⟨hextra, hpq, houts, hmix, horder, -, h⟩ := h
  obtain ⟨rings, hrings, h⟩ := bind_ok.mp h
  rw [unit_bind_ok, ensure_ok, hlt hfVersionEnforceMinAge (by decide), Bool.false_or] at h
  obtain ⟨hage, hsig⟩ := h
  refine ⟨rings, hextra, hpq, ?_, hmix, horder, hrings, by simpa using hage, ?_⟩
  · intro hv
    simpa [hv, hge hfVersionMin2Outputs (by decide)] using houts
  · intro hv
    rw [if_neg hv] at hsig
    obtain ⟨cache', hsig, -⟩ := bind_ok.mp hsig
    exact ⟨cache', hsig⟩

variable (c) in
/-- What the checks (a) to (d2) have established about a post-quantum input. -/
structure PqInputAccepted (view : ChainView) (message : Hash) (i : TxinToKeyPq)
    (od : OutputData) : Prop where
  output : view.db.getOutputKey c 0 i.spentOutputIndex = some od
  unspent : c.getPqInputKeyImage i.realOutputKey ∉ view.db.spentKeys
  key : od.pubkey = i.realOutputKey
  commitment : od.commitment = c.commit i.amount i.mask
  bind : storedBindTag c view.db i.spentOutputIndex = some (expectedBindTag c i)
  authType : i.authType = pqAuthTypeMldsa65
  auth : c.pqcTxVerify message i.auth = true
  owner : c.checkSignature message i.realOutputKey i.ownerSig = true

variable {i : TxinToKeyPq}

theorem checkPqInput_ok {message : Hash} (h : checkPqInput c view message i = .ok ()) :
    ∃ od, PqInputAccepted c view message i od := by
  simp only [checkPqInput, ofOption_bind_ok, ensure_bind_ok, ensure_ok, Bool.not_eq_true',
    decide_eq_true_eq, beq_iff_eq, Db.hasKeyImage, decide_eq_false_iff_not] at h
  obtain ⟨od, hod, hunspent, hkey, hcommit, stored, hstored, htype, rfl, hauth, howner⟩ := h
  exact ⟨od, hod, hunspent, hkey, hcommit, hstored, htype, hauth, howner⟩

/-- The checks test nothing else. -/
theorem checkPqInput_of_accepted {message : Hash} {od : OutputData}
    (h : PqInputAccepted c view message i od) : checkPqInput c view message i = .ok () := by
  simp only [checkPqInput, ofOption_bind_ok, ensure_bind_ok, ensure_ok, Bool.not_eq_true',
    decide_eq_true_eq, beq_iff_eq, Db.hasKeyImage, decide_eq_false_iff_not]
  exact ⟨od, h.output, h.unspent, h.key, h.commitment, _, h.bind, h.authType, rfl, h.auth,
    h.owner⟩

theorem checkPqPass_ok (h : checkPqPass c view tx = .ok ())
    (hi : i ∈ pqInputs tx) :
    ∃ od, PqInputAccepted c view (pqInHash c tx) i od := by
  have hany : hasTransparentPqInput tx = true := by
    obtain ⟨a, ha, hia⟩ := mem_filterMap.mp hi
    exact any_eq_true.mpr ⟨a, ha, by simp [Txin.isToKeyPq, hia]⟩
  rw [checkPqPass, if_pos hany, unit_bind_ok, forAll_ok] at h
  exact checkPqInput_ok (h.1 i hi)

theorem checkPqConservation_of_pass (h : checkPqPass c view tx = .ok ())
    (hany : hasTransparentPqInput tx = true) :
    checkPqConservation tx = .ok () := by
  rw [checkPqPass, if_pos hany, unit_bind_ok] at h
  exact h.2

/-! ### Rings -/

variable (c) in
/-- What has been established about a ring input: its key image is not spent, and its ring consists
of existing unlocked outputs, of which `rings` holds the keys and the commitments. -/
structure RingInputAccepted (view : ChainView) (maxHeight : ℕ) (i : TxinToKey)
    (ring : List CtKey) (outputs : List OutputData) : Prop where
  unspent : i.kImage ∉ view.db.spentKeys
  nonempty : i.keyOffsets ≠ []
  outputs_eq : view.db.getOutputKeys c i.amount
    (relativeOutputOffsetsToAbsolute i.keyOffsets) = some outputs
  unlocked : ∀ od ∈ outputs, isTxSpendtimeUnlocked view od.unlockTime = true
  ring_eq : ring = outputs.map fun od => ⟨od.pubkey, od.commitment⟩
  height_le : relatedBlockHeight outputs ≤ maxHeight

theorem checkTxInput_ok {version : UInt64} {i : TxinToKey} {sig : List Signature}
    {r : List CtKey × ℕ} (h : checkTxInput c view version i sig = .ok r) :
    ∃ outputs, i.keyOffsets ≠ [] ∧ view.db.getOutputKeys c i.amount
        (relativeOutputOffsetsToAbsolute i.keyOffsets) = some outputs ∧
      (∀ od ∈ outputs, isTxSpendtimeUnlocked view od.unlockTime = true) ∧
      r = (outputs.map fun od => ⟨od.pubkey, od.commitment⟩, relatedBlockHeight outputs) := by
  obtain ⟨outputs, hscan, h⟩ := bind_ok.mp h
  rw [scanOutputkeysForIndexes, ensure_bind_ok, ofOption_bind_ok] at hscan
  obtain ⟨hne, outputs', hout, hscan⟩ := hscan
  obtain ⟨hun, heq⟩ := ensure_bind_ok.mp hscan
  obtain rfl := Except.ok.inj heq
  refine ⟨outputs', by simpa using hne, hout, by simpa using hun, ?_⟩
  exact (Except.ok.inj (ensure_bind_ok.mp h).2).symm

/-- The rows that the loop returns are the rings of the ring inputs, in their order. -/
theorem checkRingInputs_ok {hash : Hash} {n : ℕ} {vin : List Txin} {r : List (List CtKey) × ℕ}
    (h : checkRingInputs c view tx hash n vin = .ok r) :
    (∀ i ∈ vin, i.isToKey = true ∨ i.isToKeyPq = true) ∧
      List.Forall₂ (fun i ring => ∃ outputs, RingInputAccepted c view r.2 i ring outputs)
        (vin.filterMap Txin.toKey?) r.1 := by
  induction vin generalizing n r with
  | nil =>
    cases h
    exact ⟨by simp, .nil⟩
  | cons a vin ih =>
    cases a with
    | toKeyPq i =>
      rw [checkRingInputs, ensure_bind_ok] at h
      obtain ⟨hall, hrows⟩ := ih h.2
      exact ⟨forall_mem_cons.mpr ⟨.inr rfl, hall⟩, hrows⟩
    | toKey i =>
      obtain ⟨ring, hone, h⟩ := bind_ok.mp h
      obtain ⟨rest, hrest, hr⟩ := bind_ok.mp h
      obtain ⟨hall, hrows⟩ := ih hrest
      rw [checkRingInput, ensure_bind_ok, ensure_bind_ok] at hone
      obtain ⟨-, hunspent, hone⟩ := hone
      obtain ⟨sig, -, hone⟩ := bind_ok.mp hone
      obtain ⟨ring', hring, hone⟩ := bind_ok.mp hone
      obtain rfl := Except.ok.inj (ensure_bind_ok.mp hone).2
      obtain ⟨outputs, hne, hout, hun, rfl⟩ := checkTxInput_ok hring
      obtain rfl := Except.ok.inj hr
      refine ⟨forall_mem_cons.mpr ⟨.inl rfl, hall⟩, .cons ?_ ?_⟩
      · exact ⟨outputs, by simpa [Db.hasKeyImage] using hunspent, hne, hout, hun, rfl,
          Nat.le_max_left _ _⟩
      · refine hrows.imp fun i ring hi => ?_
        obtain ⟨outputs, hi⟩ := hi
        exact ⟨outputs, { hi with height_le := hi.height_le.trans (Nat.le_max_right _ _) }⟩
    | gen _ => cases h
    | toScript _ => cases h
    | toScripthash _ => cases h

/-- Every ring input of an accepted transaction has been checked. -/
theorem InputsAccepted.ring {cache : RctVerCache c} {rings : List (List CtKey) × ℕ}
    (h : InputsAccepted c view cache tx rings) {i : TxinToKey}
    (hi : i ∈ Hidering.ringInputs tx) :
    ∃ ring outputs, RingInputAccepted c view rings.2 i ring outputs := by
  have hrows := (checkRingInputs_ok h.ringInputs).2
  obtain ⟨n, hn, rfl⟩ := getElem_of_mem hi
  obtain ⟨outputs, ho⟩ := hrows.get hn (hrows.length_eq ▸ hn)
  exact ⟨_, outputs, ho⟩

/-! ### `ver_non_input_consensus` -/

variable (c) in
/-- What `check_tx_semantic` has tested, as far as later results need it. -/
structure SemanticAccepted (tx : Transaction) (hfVersion : UInt8) : Prop where
  nonempty : tx.vin ≠ []
  types : checkInputsTypesSupported tx hfVersion = true
  outPk : 1 < tx.version → tx.rctSignatures.type ≠ rctTypeNull →
    tx.rctSignatures.outPk.length = tx.vout.length
  money : checkMoneyOverflow tx = true
  images : (tx.vin.filterMap (spentImage c)).Nodup

variable {hfVersion : UInt8}

theorem checkTxSemantic_ok
    (h : checkTxSemantic c tx hfVersion = .ok ()) : SemanticAccepted c tx hfVersion := by
  simp only [checkTxSemantic, ensure_bind_ok, checkTxInputsKeyimagesDiff, Bool.and_eq_true,
    decide_eq_true_eq] at h
  obtain ⟨hne, htypes, -, hout, hmoney, -, ⟨-, himages⟩, -⟩ := h
  refine ⟨by simpa using hne, htypes, ?_, hmoney, himages⟩
  intro hv ht
  simpa [UInt64.not_le.mpr hv, ht] using hout

variable (c) in
/-- What has been tested of the semantics of a RingCT signature, alone and in its batch. -/
structure RctSemanticsAccepted (rv : RctSig) : Prop where
  single : mixedSemanticsOk c rv = true
  sizes : isBatchable rv = true → semanticsSizesOk rv = true
  balance : isBatchable rv = true → sumCheck c rv = true
  ranges : isRctBulletproofPlus rv.type = true → rv.p.bulletproofsPlus ≠ [] →
    ∃ batch, (∀ p ∈ rv.p.bulletproofsPlus, p ∈ batch) ∧ c.verBulletproofPlus batch = true

theorem verMixedRctSemantics_ok {rvv : List RctSig} (h : verMixedRctSemantics c rvv = true)
    {rv : RctSig} (hrv : rv ∈ rvv) : RctSemanticsAccepted c rv := by
  simp only [verMixedRctSemantics, Bool.and_eq_true, Bool.or_eq_true, List.isEmpty_iff] at h
  obtain ⟨hsingle, hbatch⟩ := h
  have hsimple : isBatchable rv = true →
      rv ∈ rvv.filter isBatchable ∧ verRctSemanticsSimple c (rvv.filter isBatchable) = true := by
    intro hb
    have hmem : rv ∈ rvv.filter isBatchable := mem_filter.mpr ⟨hrv, hb⟩
    refine ⟨hmem, hbatch.resolve_left fun he => ?_⟩
    rw [he] at hmem
    cases hmem
  refine ⟨all_eq_true.mp hsingle rv hrv, fun hb => ?_, fun hb => ?_, fun hplus hne => ?_⟩
  · obtain ⟨hmem, hs⟩ := hsimple hb
    simp only [verRctSemanticsSimple, Bool.and_eq_true] at hs
    exact all_eq_true.mp hs.1.1.1.1 rv hmem
  · obtain ⟨hmem, hs⟩ := hsimple hb
    simp only [verRctSemanticsSimple, Bool.and_eq_true] at hs
    exact all_eq_true.mp hs.1.1.1.2 rv hmem
  · obtain ⟨hmem, hs⟩ := hsimple (by simp [isBatchable, hplus])
    simp only [verRctSemanticsSimple, Bool.and_eq_true, Bool.or_eq_true, List.isEmpty_iff] at hs
    have hproofs : ∀ p ∈ rv.p.bulletproofsPlus, p ∈ ((rvv.filter isBatchable).filter
        fun rv => isRctBulletproofPlus rv.type).flatMap fun rv => rv.p.bulletproofsPlus :=
      fun p hp => mem_flatMap.mpr ⟨rv, mem_filter.mpr ⟨hmem, hplus⟩, hp⟩
    refine ⟨_, hproofs, hs.1.1.2.resolve_left fun he => ?_⟩
    obtain ⟨p, hp⟩ := exists_mem_of_ne_nil _ hne
    have := hproofs p hp
    rw [he] at this
    cases this

variable (c) in
/-- What `ver_non_input_consensus` has tested of one transaction of a batch. -/
structure NonInputAccepted (hfVersion : UInt8) (tx : Transaction) : Prop where
  blobSize : getTransactionBlobSize tx ≤ cryptonoteMaxTxSize
  semantic : SemanticAccepted c tx hfVersion
  outputs : checkTxOutputs c tx hfVersion = .ok ()
  signature : 2 ≤ tx.version → tx.rctSignatures.type ≠ rctTypeNull →
    ∃ pqIn, getPqTransparentInputSum tx = some pqIn ∧
      RctSemanticsAccepted c { tx.rctSignatures with pqTransparentIn := pqIn }

/-- The rules for one transaction, with the signature that it hands to the batch. -/
theorem verNonInputRules_ok {rv : Option RctSig} (h : verNonInputRules c hfVersion tx = .ok rv) :
    getTransactionBlobSize tx ≤ cryptonoteMaxTxSize ∧ SemanticAccepted c tx hfVersion ∧
      checkTxOutputs c tx hfVersion = .ok () ∧
      (2 ≤ tx.version → tx.rctSignatures.type ≠ rctTypeNull →
        ∃ pqIn, getPqTransparentInputSum tx = some pqIn ∧
          rv = some { tx.rctSignatures with pqTransparentIn := pqIn }) := by
  simp only [verNonInputRules, checkSizeRules, unit_bind_ok, ensure_ok] at h
  obtain ⟨⟨hsize, -⟩, hsem, hout, h⟩ := h
  refine ⟨by simpa using hsize, checkTxSemantic_ok hsem, hout, fun hv ht => ?_⟩
  rw [if_pos ⟨hv, ht⟩, ofOption_bind_ok] at h
  obtain ⟨pqIn, hpq, h⟩ := h
  exact ⟨pqIn, hpq, (Except.ok.inj h).symm⟩

theorem collectSignatures_ok {rules : Transaction → Verdict (Option RctSig)}
    {txs : List Transaction} {rvv : List RctSig} (h : collectSignatures rules txs = .ok rvv)
    (htx : tx ∈ txs) : ∃ rv, rules tx = .ok rv ∧ ∀ r ∈ rv, r ∈ rvv := by
  induction txs generalizing rvv with
  | nil => cases htx
  | cons a txs ih =>
    obtain ⟨rv, hrv, h⟩ := bind_ok.mp h
    obtain ⟨rest, hrest, h⟩ := bind_ok.mp h
    obtain rfl := Except.ok.inj h
    rcases mem_cons.mp htx with rfl | htx
    · exact ⟨rv, hrv, fun r hr => mem_append_left _ (by simpa using hr)⟩
    · obtain ⟨rv', hrv', hmem⟩ := ih hrest htx
      exact ⟨rv', hrv', fun r hr => mem_append_right _ (hmem r hr)⟩

theorem verNonInputConsensus_ok {txs : List Transaction}
    (h : verNonInputConsensus c hfVersion txs = .ok ()) (htx : tx ∈ txs) :
    NonInputAccepted c hfVersion tx := by
  obtain ⟨rvv, hrvv, h⟩ := bind_ok.mp h
  obtain ⟨rv, hrv, hmem⟩ := collectSignatures_ok hrvv htx
  obtain ⟨hsize, hsem, hout, hsig⟩ := verNonInputRules_ok hrv
  refine ⟨hsize, hsem, hout, fun hv ht => ?_⟩
  obtain ⟨pqIn, hpq, rfl⟩ := hsig hv ht
  exact ⟨pqIn, hpq, verMixedRctSemantics_ok (ensure_ok.mp h) (hmem _ rfl)⟩

end Hidering
