import Hidering.Verify.Spendable

/-!
# Value conservation of hybrid transactions

A hybrid transaction has ring inputs and post-quantum inputs. Its balance is checked in four
places: the commitments of the post-quantum inputs are opened (check b2), the ring signatures tie
each pseudo output to a member of the ring of the input with the same number, the balance equation
sums the pseudo outputs, the revealed amounts, the outputs and the fee, and the range proof bounds
the outputs. Together they leave no other value than the exact sum.

## Main definitions

* `Hidering.Db.Opened` — the commitments on the chain have known openings of 64 bits
* `Hidering.HybridConserved`

## Main results

* `Hidering.hybrid_conserves`
-/

namespace Hidering

open Wire Machine Check Crypto List

variable {c : Crypto}

/-! ### The order of the inputs -/

/-- If the ring inputs stand first, they are `vin[0, n_ring)`. -/
theorem split_of_ringBeforePq {vin : List Txin} (h : ringBeforePq vin = true) :
    (∀ i ∈ vin.take (vin.filter fun i => !i.isToKeyPq).length, i.isToKeyPq = false) ∧
      ∀ i ∈ vin.drop (vin.filter fun i => !i.isToKeyPq).length, i.isToKeyPq = true := by
  induction vin with
  | nil => simp
  | cons a vin ih =>
    simp only [ringBeforePq, Bool.and_eq_true, Bool.or_eq_true, Bool.not_eq_true',
      all_eq_true] at h
    obtain ⟨hfirst, hrest⟩ := h
    cases ha : a.isToKeyPq with
    | true =>
      have hall : ∀ i ∈ vin, i.isToKeyPq = true :=
        hfirst.resolve_left fun hf => by rw [ha] at hf; cases hf
      have hnil : (vin.filter fun i => !i.isToKeyPq) = [] := by
        rw [filter_eq_nil_iff]
        intro i hi
        simp [hall i hi]
      rw [filter_cons_of_neg (by simp [ha]), hnil]
      exact ⟨by simp, forall_mem_cons.mpr ⟨ha, hall⟩⟩
    | false =>
      obtain ⟨htake, hdrop⟩ := ih hrest
      rw [filter_cons_of_pos (by simp [ha]), length_cons, take_succ_cons,
        drop_succ_cons]
      exact ⟨forall_mem_cons.mpr ⟨ha, htake⟩, hdrop⟩

theorem map_toKey_filterMap {l : List Txin} (h : ∀ i ∈ l, i.isToKey = true) :
    (l.filterMap Txin.toKey?).map Txin.toKey = l := by
  induction l with
  | nil => rfl
  | cons a l ih =>
    obtain ⟨ha, hl⟩ := forall_mem_cons.mp h
    cases a with
    | toKey i => simp [Txin.toKey?, ih hl]
    | gen _ => cases ha
    | toScript _ => cases ha
    | toScripthash _ => cases ha
    | toKeyPq _ => cases ha

section Order

variable {tx : Transaction} (hall : ∀ i ∈ tx.vin, i.isToKey = true ∨ i.isToKeyPq = true)
  (horder : ringBeforePq tx.vin = true)

include hall horder

/-- The inputs `vin[0, n_ring)` are the ring inputs, in their order. -/
theorem take_nRing_eq :
    tx.vin.take (nRing tx) = (ringInputs tx).map Txin.toKey := by
  obtain ⟨htake, hdrop⟩ := split_of_ringBeforePq horder
  have hring : ringInputs tx = (tx.vin.take (nRing tx)).filterMap Txin.toKey? := by
    have hnil : (tx.vin.drop (nRing tx)).filterMap Txin.toKey? = [] := by
      rw [filterMap_eq_nil_iff]
      intro i hi
      have hpq := hdrop i hi
      cases i with
      | toKey i => cases hpq
      | gen _ => rfl
      | toScript _ => rfl
      | toScripthash _ => rfl
      | toKeyPq _ => rfl
    conv_lhs => rw [ringInputs, ← take_append_drop (nRing tx) tx.vin]
    rw [filterMap_append, hnil, append_nil]
  rw [hring, map_toKey_filterMap]
  intro i hi
  have hnot := htake i hi
  exact (hall i (mem_of_mem_take hi)).resolve_right (by simp [hnot])

theorem length_ringInputs : (ringInputs tx).length = nRing tx := by
  have h := congrArg List.length (take_nRing_eq hall horder)
  rw [length_map, length_take, nRing,
    Nat.min_eq_left (length_filter_le ..)] at h
  exact h.symm

theorem ringImages_eq :
    ringImages tx = (ringInputs tx).map TxinToKey.kImage := by
  rw [ringImages, take_nRing_eq hall horder, filterMap_map]
  congr 1
  exact filterMap_some

end Order

/-! ### Signatures -/

variable (c) in
/-- Row `n` of the rings, signature `n` and pseudo output `n` are checked together against ring
input `n`. -/
structure RingsSigned (tx : Transaction) (rings : List (List CtKey)) (message : Key) : Prop where
  clsags_length : tx.rctSignatures.p.clsags.length = nRing tx
  pseudoOuts_length : tx.rctSignatures.p.pseudoOuts.length = rings.length
  signed : ∀ {n : ℕ} {i : TxinToKey} {ring : List CtKey} {sig : Clsag} {pseudoOut : Key},
    (ringInputs tx)[n]? = some i → rings[n]? = some ring →
    tx.rctSignatures.p.clsags[n]? = some sig →
    tx.rctSignatures.p.pseudoOuts[n]? = some pseudoOut →
    c.verRctCLSAGSimple message { sig with i := i.kImage } ring pseudoOut = true

variable {rings : List (List CtKey)}

theorem expandTransaction2_bulletproofPlus {tx tx' : Transaction} {hash : Hash}
    (htype : tx.rctSignatures.type = rctTypeBulletproofPlus) (hpruned : tx.pruned = false)
    (h : expandTransaction2 tx hash rings = some tx') :
    tx.rctSignatures.p.clsags.length = nRing tx ∧
      ∃ pqIn, tx'.rctSignatures = { tx.rctSignatures with
        message := hash
        pqTransparentIn := pqIn
        mixRing := rings
        p := { tx.rctSignatures.p with
          clsags := zipWith (fun s image => { s with i := image })
            tx.rctSignatures.p.clsags (ringImages tx) } } := by
  simp only [expandTransaction2, Option.bind_eq_bind, Option.bind_eq_some_iff] at h
  obtain ⟨-, -, -, -, pqIn, -, mixRing, hmix, p, hp, h⟩ := h
  obtain rfl := Option.some.inj h
  have hmix' : mixRing = rings := by
    cases rings with
    | nil => cases hmix
    | cons row rows =>
      simp only [htype, expandMixRing] at hmix
      split at hmix
      · cases hmix
      · exact (Option.some.inj hmix).symm
  subst hmix'
  have hclsag : isRctClsag tx.rctSignatures.type = true := by rw [htype]; rfl
  simp only [expandKeyImages, hpruned, Bool.false_eq_true, if_false, hclsag, if_true] at hp
  rw [if_neg (by rw [htype]; decide)] at hp
  split at hp
  · next hlen =>
    obtain rfl := Option.some.inj hp
    exact ⟨hlen, pqIn, rfl⟩
  · cases hp

variable {tx : Transaction}

/-- What `expand_tx_and_ver_rct_non_sem` establishes about a signature of the current type. -/
theorem ringsSigned_of_nonSem (hall : ∀ i ∈ tx.vin, i.isToKey = true ∨ i.isToKeyPq = true)
    (horder : ringBeforePq tx.vin = true) (htype : tx.rctSignatures.type = rctTypeBulletproofPlus)
    (h : expandTxAndVerRctNonSem c tx rings = true) :
    ∃ message, RingsSigned c tx rings message := by
  rw [expandTxAndVerRctNonSem, Bool.and_eq_true, Bool.not_eq_true'] at h
  obtain ⟨hpruned, h⟩ := h
  split at h
  · cases h
  · next tx' htx' =>
    obtain ⟨hlen, pqIn, hrv⟩ := expandTransaction2_bulletproofPlus htype hpruned htx'
    simp only [Bool.and_eq_true] at h
    obtain ⟨-, hver⟩ := h
    have hpseudo : simplePseudoOuts tx'.rctSignatures = tx.rctSignatures.p.pseudoOuts := by
      rw [hrv, simplePseudoOuts, if_pos]
      simp [htype, isRctBulletproofPlus]
    have hclsag : isRctClsag tx'.rctSignatures.type = true := by
      rw [hrv]
      simp [htype, isRctClsag]
    simp only [verRctNonSemanticsSimple, Bool.and_eq_true, all_eq_true, mem_range,
      beq_iff_eq, hpseudo] at hver
    have hmix : tx'.rctSignatures.mixRing = rings := by rw [hrv]
    rw [hmix] at hver
    refine ⟨c.getPreMlsagHash tx'.rctSignatures, hlen, hver.1.2, ?_⟩
    intro n i ring sig pseudoOut hi hring hsig hpo
    have hn : n < rings.length := (List.getElem?_eq_some_iff.mp hring).1
    have hsig' : tx'.rctSignatures.p.clsags[n]? = some { sig with i := i.kImage } := by
      rw [hrv, ringImages_eq hall horder]
      simp [getElem?_zipWith, hsig, hi]
    have hinput := hver.2 n hn
    simp only [verInputSignature, hmix, hring, hpseudo, hpo, hclsag, if_true, hsig'] at hinput
    exact hinput

/-- The cache of verified signatures answers for this transaction only with itself. -/
def CacheFresh (cache : RctVerCache c) (tx : Transaction) : Prop :=
  ∀ e ∈ cache.entries, ∀ rings, calcTxMixringHash c e.1 e.2 = calcTxMixringHash c tx rings →
    e = (tx, rings)

theorem CacheFresh.empty (tx : Transaction) : CacheFresh (.empty : RctVerCache c) tx :=
  fun _ he => absurd he not_mem_nil

variable {view : ChainView}

theorem nonSem_of_checkRctSignature {cache cache' : RctVerCache c} {hash : Hash}
    (hcache : CacheFresh cache tx) (htype : tx.rctSignatures.type = rctTypeBulletproofPlus)
    (h : checkRctSignature c view cache tx hash rings = .ok cache') :
    expandTxAndVerRctNonSem c tx rings = true := by
  rw [checkRctSignature, if_neg (by rw [htype]; decide), if_pos (by rw [htype]; decide),
    ofOption_ok, verRctNonSemanticsSimpleCached] at h
  split at h
  · cases h
  · rw [if_neg (by simp [htype])] at h
    split at h
    · next hhit =>
      obtain ⟨e, he, hhash⟩ := any_eq_true.mp hhit
      obtain rfl := hcache e he rings (of_decide_eq_true hhash)
      exact cache.verified _ he
    · split at h
      · next hver => exact hver
      · cases h

/-! ### The type of the signature -/

variable {rv : RctSig}

/-- From version 16 on, the outputs of a transaction with a signature are accepted with one type
only. -/
theorem type_eq_bulletproofPlus {hfVersion : UInt8} (hf : hfVersionPq ≤ hfVersion)
    (hv : 2 ≤ tx.version) (hnull : tx.rctSignatures.type ≠ rctTypeNull)
    (hrv : rv.type = tx.rctSignatures.type) (hout : checkTxOutputs c tx hfVersion = .ok ())
    (hsem : mixedSemanticsOk c rv = true) : tx.rctSignatures.type = rctTypeBulletproofPlus := by
  rw [checkTxOutputs, if_neg fun h => hnull h.2.2.1, checkOutputRules] at hout
  simp only [ensure_bind_ok, Bool.or_eq_true, decide_eq_true_eq] at hout
  obtain ⟨-, -, htype, -⟩ := hout
  have htype := htype.resolve_left (UInt64.not_lt.mpr hv)
  have h8 : (8 : UInt8) < hfVersion := UInt8.lt_of_lt_of_le (by decide) hf
  have h15 : hfVersionBulletproofPlus < hfVersion := UInt8.lt_of_lt_of_le (by decide) hf
  simp only [checkRctType, Bool.and_eq_true, Bool.not_eq_true', h8, h15, decide_true,
    Bool.true_and] at htype
  have hborromean := htype.1.1.1.1.1.1.2
  have hbp := htype.2
  simp only [isRctBorromean, Bool.or_eq_false_iff, beq_eq_false_iff_ne] at hborromean
  rw [mixedSemanticsOk, hrv, if_neg hborromean.1, if_neg hborromean.2,
    if_neg (by simp [hbp])] at hsem
  split at hsem
  · next hplus => simpa [isRctBulletproofPlus] using hplus
  · cases hsem

/-! ### The balance equation -/

theorem checkKey_of_foldlM {k r : Key} {ks : List Key} (h : ks.foldlM c.addKeys? k = some r) :
    ∀ q ∈ ks, c.checkKey q = true := by
  induction ks generalizing k with
  | nil => simp
  | cons q ks ih =>
    rw [foldlM_cons] at h
    obtain ⟨s, hs, h⟩ := Option.bind_eq_some_iff.mp h
    refine forall_mem_cons.mpr ⟨?_, ih h⟩
    rw [addKeys?] at hs
    split at hs
    · next hkeys => exact (Bool.and_eq_true_iff.mp hkeys).2
    · cases hs

theorem checkKey_of_addKeysV {ks : List Key} {r : Key} (h : c.addKeysV ks = some r) :
    ∀ k ∈ ks, c.checkKey k = true := by
  cases ks with
  | nil => simp
  | cons k ks =>
    rw [addKeysV] at h
    split at h
    · next hk => exact forall_mem_cons.mpr ⟨hk, checkKey_of_foldlM h⟩
    · cases h

theorem sumCheck_ok (h : sumCheck c rv = true) :
    ∃ sumOutpks sumPseudoOuts total, c.addKeysV (rv.outPk.map CtKey.mask) = some sumOutpks ∧
      c.addKeys? sumOutpks (c.scalarmultH (d2h rv.txnFee)) = some total ∧
      c.addKeysV (simplePseudoOuts rv) = some sumPseudoOuts ∧
      addTransparentIn c rv sumPseudoOuts = some total := by
  have hsome : ∀ {o : Option Bool}, o.getD false = true → o = some true := by
    intro o ho
    cases o with
    | none => cases ho
    | some b => rw [Option.getD_some] at ho; rw [ho]
  have h := hsome h
  simp only [Option.bind_eq_bind, Option.bind_eq_some_iff] at h
  obtain ⟨so, hso, total, htotal, sp, hsp, total', htotal', heq⟩ := h
  obtain rfl : total' = total := by simpa using heq
  exact ⟨so, sp, total', hso, htotal, hsp, htotal'⟩

/-- A sum of at most a million values of 64 bits is far below the group order. -/
theorem sum_add_le_groupOrder {vs : List ℕ} (hlen : vs.length ≤ cryptonoteMaxTxSize)
    (hvs : ∀ v ∈ vs, v < 2 ^ 64) : vs.sum + 2 ^ 64 ≤ groupOrder := by
  have hsum := sum_le_card_nsmul vs (2 ^ 64) fun v hv => (hvs v hv).le
  have hmul : vs.length * 2 ^ 64 ≤ cryptonoteMaxTxSize * 2 ^ 64 := Nat.mul_le_mul_right _ hlen
  have hbound : cryptonoteMaxTxSize * 2 ^ 64 + 2 ^ 64 ≤ groupOrder := by decide +kernel
  rw [smul_eq_mul] at hsum
  omega

/-- If the pseudo outputs open to `ins` and the outputs to `outs`, all of them amounts of 64 bits, then
the sums balance as integers. -/
theorem balance_of_sumCheck (P : Pedersen c) {ins outs : List ℕ} (h : sumCheck c rv = true)
    (hins : List.Forall₂ (fun q (b : ℕ) => ∃ n, P.Opens q b n) (simplePseudoOuts rv) ins)
    (houts : List.Forall₂ (fun q (b : ℕ) => ∃ n, P.Opens q b n) (rv.outPk.map CtKey.mask) outs)
    (hinlen : ins.length ≤ cryptonoteMaxTxSize) (houtlen : outs.length ≤ cryptonoteMaxTxSize)
    (hinlt : ∀ v ∈ ins, v < 2 ^ 64) (houtlt : ∀ v ∈ outs, v < 2 ^ 64) :
    ins.sum + rv.pqTransparentIn.toNat = outs.sum + rv.txnFee.toNat := by
  obtain ⟨so, sp, total, hso, htotal, hsp, htotal'⟩ := sumCheck_ok h
  obtain ⟨l, hl, n, hn⟩ := P.sumOpens_addKeysV houts hso
  obtain ⟨l', hl', n', hn'⟩ := P.sumOpens_addKeysV hins hsp
  rw [houts.length_eq] at hl
  rw [hins.length_eq] at hl'
  have hright := hn.add (.one (P.scalarmultH rv.txnFee)) htotal
  have hleft : ∃ j ≤ l' + 1, ∃ m, Commit.SumOpens c.addKeys? P.Opens j total
      ((ins.sum : ℕ) + (rv.pqTransparentIn.toNat : ℕ)) m := by
    rw [addTransparentIn] at htotal'
    split at htotal'
    · exact ⟨_, le_rfl, _, hn'.add (.one (P.scalarmultH rv.pqTransparentIn)) htotal'⟩
    · next hzero =>
      obtain rfl := Option.some.inj htotal'
      have : rv.pqTransparentIn = 0 := Decidable.not_not.mp hzero
      exact ⟨l', Nat.le_succ _, n', by simpa [this] using hn'⟩
  obtain ⟨j, hj, m, hm⟩ := hleft
  have hcast := P.binding hm hright (by omega) (by omega)
  rw [← Nat.cast_add, ← Nat.cast_add] at hcast
  have hpq := rv.pqTransparentIn.toNat_lt
  have hfee := rv.txnFee.toNat_lt
  have hinle := sum_add_le_groupOrder hinlen hinlt
  have houtle := sum_add_le_groupOrder houtlen houtlt
  exact Commit.eq_of_cast_eq hcast (by omega) (by omega)

/-! ### The range proof -/

/-- The range proof of a parsed transaction covers the commitments of its outputs. -/
theorem proof_commitments_of_parse {blob : Bytes} (hparse : parseAndValidateTx c blob = some tx)
    (hv : 2 ≤ tx.version) (hcoinbase : isCoinbase tx = false)
    (htype : tx.rctSignatures.type = rctTypeBulletproofPlus) :
    ∃ bp, tx.rctSignatures.p.bulletproofsPlus = [bp] ∧
      bp.v = tx.rctSignatures.outPk.map fun k => c.scalarmultKey k.mask c.invEight := by
  obtain ⟨tx₀, -, hexpand⟩ := Option.bind_eq_some_iff.mp hparse
  obtain ⟨hpre, -, htype₀, -⟩ := expandTransaction1_frame hexpand
  rw [expandTransaction1, if_pos (by rw [← hpre]; exact ⟨hv, by simp [hcoinbase]⟩)] at hexpand
  simp only [if_neg (show tx₀.rctSignatures.type ≠ rctTypeNull by rw [← htype₀, htype]; decide)]
    at hexpand
  split at hexpand
  · cases hexpand
  · obtain ⟨outPk, -, hfill⟩ := Option.bind_eq_some_iff.mp hexpand
    have hplus : isRctBulletproofPlus tx₀.rctSignatures.type = true := by
      rw [← htype₀, htype]
      rfl
    simp only [Bool.false_eq_true, if_false, fillProofCommitments, hplus, if_true] at hfill
    split at hfill
    · split at hfill
      · cases hfill
      · obtain rfl := Option.some.inj hfill
        exact ⟨_, rfl, rfl⟩
    · cases hfill

/-- The outputs of a transaction whose range proof was accepted open to amounts of 64 bits. -/
theorem bounded_of_ranges (S : RingCtSound c) {bp : BulletproofPlus}
    (hacc : RctSemanticsAccepted c rv) (htype : rv.type = rctTypeBulletproofPlus)
    (hbp : rv.p.bulletproofsPlus = [bp])
    (hv : bp.v = rv.outPk.map fun k => c.scalarmultKey k.mask c.invEight) :
    rv.outPk.length ≤ bulletproofMaxOutputs ∧ ∀ k ∈ rv.outPk, S.Bounded (2 ^ 64) k.mask := by
  have hplus : isRctBulletproofPlus rv.type = true := by rw [htype]; rfl
  have hbatchable : isBatchable rv = true := by simp [isBatchable, hplus]
  constructor
  · have hcanonical := hacc.single
    rw [mixedSemanticsOk, if_neg (by rw [htype]; decide), if_neg (by rw [htype]; decide),
      if_neg (by rw [htype]; decide), if_pos hplus, hbp] at hcanonical
    have hle := (of_decide_eq_true hcanonical).2
    rwa [hv, length_map] at hle
  · intro k hk
    obtain ⟨so, -, -, hso, -⟩ := sumCheck_ok (hacc.balance hbatchable)
    obtain ⟨batch, hmem, hver⟩ := hacc.ranges hplus (by simp [hbp])
    refine S.range hver (hmem bp (by simp [hbp]))
      (checkKey_of_addKeysV hso _ (mem_map_of_mem hk)) ?_
    rw [hv]
    exact mem_map.mpr ⟨k, hk, rfl⟩

/-! ### Conservation -/

/-- The commitments in the bucket of amount 0 have known openings to amounts of 64 bits. -/
def Db.Opened (S : RingCtSound c) (db : Db) : Prop :=
  ∀ {index od}, db.getOutputKey c 0 index = some od → S.Bounded (2 ^ 64) od.commitment

theorem Db.Opened.bounded {S : RingCtSound c} {db : Db} (hdb : db.Opened S) {a : Amount}
    {index : UInt64} {od : OutputData} (h : db.getOutputKey c a index = some od) :
    S.Bounded (2 ^ 64) od.commitment := by
  by_cases ha : a = 0
  · exact hdb (ha ▸ h)
  · obtain ⟨ok, -, rfl⟩ := Option.map_eq_some_iff.mp h
    rw [if_neg ha]
    exact ⟨a.toNat, a.toNat_lt, 1, S.zeroCommit a⟩

variable (c) in
/-- Signature `n` is checked with pseudo output `n` and the ring of input `n`. -/
def AlignedAt (view : ChainView) (tx : Transaction) (message : Key) (n : ℕ) : Prop :=
  ∃ i sig pseudoOut outputs, tx.vin[n]? = some (.toKey i) ∧
    tx.rctSignatures.p.clsags[n]? = some sig ∧
    tx.rctSignatures.p.pseudoOuts[n]? = some pseudoOut ∧
    view.db.getOutputKeys c i.amount (relativeOutputOffsetsToAbsolute i.keyOffsets) = some outputs ∧
    c.verRctCLSAGSimple message { sig with i := i.kImage }
      (outputs.map fun od => ⟨od.pubkey, od.commitment⟩) pseudoOut = true

/-- What a hybrid transaction conserves. Signature `n`, pseudo output `n` and the ring of input `n`
are checked together, for the first `n_ring` inputs, and all other inputs are post-quantum. The
revealed amount in the balance equation is that of the post-quantum inputs. The values of the
members that the ring inputs consume and the values on the chain of the outputs that the
post-quantum inputs reference sum up to the values of the outputs and the fee. -/
structure HybridConserved (S : RingCtSound c) (view : ChainView) (tx : Transaction) : Prop where
  aligned : ∃ message, ∀ {n}, n < nRing tx → AlignedAt c view tx message n
  clsags_length : tx.rctSignatures.p.clsags.length = nRing tx
  pseudoOuts_length : tx.rctSignatures.p.pseudoOuts.length = nRing tx
  pqBehind : ∀ i ∈ tx.vin.drop (nRing tx), i.isToKeyPq = true
  transparentIn : ∃ pqIn, getPqTransparentInputSum tx = some pqIn ∧
    pqIn.toNat = exactSum ((pqInputs tx).map TxinToKeyPq.amount) ∧
    sumCheck c { tx.rctSignatures with pqTransparentIn := pqIn } = true
  outputs_bounded : ∀ k ∈ tx.rctSignatures.outPk, S.Bounded (2 ^ 64) k.mask
  outputs_length : tx.rctSignatures.outPk.length = tx.vout.length
  balance : ∃ real : List OutputData,
    List.Forall₂ (fun i od => RingMember c view i od ∧ S.curveImage od.pubkey = i.kImage)
      (ringInputs tx) real ∧
    (real.map fun od => S.value od.commitment).sum +
        ((pqInputs tx).map (boundValue S.toPedersen view.db)).sum =
      (tx.rctSignatures.outPk.map fun k => S.value k.mask).sum + tx.rctSignatures.txnFee.toNat

/-- A ring signature shows which member of the ring is consumed, and that the pseudo output has its
value. -/
theorem real_of_signed (S : RingCtSound c) (hdb : view.db.Opened S) {maxHeight : ℕ} {i : TxinToKey}
    {ring : List CtKey} {outputs : List OutputData} {message : Key} {sig : Clsag} {pseudoOut : Key}
    (hring : RingInputAccepted c view maxHeight i ring outputs)
    (hver : c.verRctCLSAGSimple message { sig with i := i.kImage } ring pseudoOut = true) :
    ∃ od, (RingMember c view i od ∧ S.curveImage od.pubkey = i.kImage) ∧
      S.value od.commitment < 2 ^ 64 ∧
      ∃ m, S.Opens pseudoOut ((S.value od.commitment : ℕ) : ZMod groupOrder) m := by
  obtain ⟨k, hk, himage, z, hopen⟩ := S.clsag hver
  rw [hring.ring_eq] at hk
  obtain ⟨od, hod, rfl⟩ := mem_map.mp hk
  obtain ⟨index, hindex, hget⟩ :=
    exists_mem_of_forall₂ (List.Forall₂.flip (getOutputKeys_forall₂ hring.outputs_eq)) hod
  have hbounded := hdb.bounded hget
  obtain ⟨m, hm⟩ := hbounded.opens_value two_pow_64_le_groupOrder
  exact ⟨od, ⟨⟨index, hindex, hget⟩, himage⟩, hbounded.value_lt two_pow_64_le_groupOrder,
    m + z, hopen _ _ hm⟩

variable (c) in
/-- What the two sets of checks have established about a hybrid transaction. -/
structure HybridChecked (view : ChainView) (tx : Transaction) (rings : List (List CtKey) × ℕ)
    (message : Key) (pqIn : UInt64) : Prop where
  types : ∀ i ∈ tx.vin, i.isToKey = true ∨ i.isToKeyPq = true
  order : ringBeforePq tx.vin = true
  pqPass : checkPqPass c view tx = .ok ()
  rows : List.Forall₂ (fun i ring => ∃ outputs, RingInputAccepted c view rings.2 i ring outputs)
    (ringInputs tx) rings.1
  type : tx.rctSignatures.type = rctTypeBulletproofPlus
  pqSum : getPqTransparentInputSum tx = some pqIn
  semantics : RctSemanticsAccepted c { tx.rctSignatures with pqTransparentIn := pqIn }
  signed : RingsSigned c tx rings.1 message

theorem hfVersionPq_le_of_pqInputs {hfVersion : UInt8} (hpq : pqInputs tx ≠ [])
    (htypes : checkInputsTypesSupported tx hfVersion = true) :
    hfVersionPq ≤ hfVersion := by
  obtain ⟨pq, hmem⟩ := exists_mem_of_ne_nil _ hpq
  obtain ⟨a, ha, hapq⟩ := mem_filterMap.mp hmem
  have := all_eq_true.mp htypes a ha
  cases a with
  | toKeyPq i => simpa using this
  | gen _ => cases hapq
  | toScript _ => cases hapq
  | toScripthash _ => cases hapq
  | toKey _ => cases hapq

theorem hasTransparentPqInput_of_pqInputs (hpq : pqInputs tx ≠ []) :
    hasTransparentPqInput tx = true := by
  obtain ⟨pq, hmem⟩ := exists_mem_of_ne_nil _ hpq
  obtain ⟨a, ha, hapq⟩ := mem_filterMap.mp hmem
  exact any_eq_true.mpr ⟨a, ha, by simp [Txin.isToKeyPq, hapq]⟩

theorem hybrid_checked {cache : RctVerCache c} {r : ℕ × RctVerCache c} (hv : tx.version = 2)
    (hringIn : ringInputs tx ≠ [])
    (hpqIn : pqInputs tx ≠ []) (hcache : CacheFresh cache tx)
    (hnon : NonInputAccepted c view.hfVersion tx) (hin : checkTxInputs c view cache tx = .ok r) :
    ∃ rings message pqIn, HybridChecked c view tx rings message pqIn := by
  have hf := hfVersionPq_le_of_pqInputs hpqIn hnon.semantic.types
  obtain ⟨rings, hacc⟩ := checkTxInputs_ok hf hin
  obtain ⟨htypes, hrows⟩ := checkRingInputs_ok hacc.ringInputs
  have hnpos : 0 < nRing tx := by
    rw [← length_ringInputs htypes hacc.order]
    exact length_pos_iff.mpr hringIn
  have hnull : tx.rctSignatures.type ≠ rctTypeNull := by
    have h := checkPqConservation_of_pass hacc.pqPass (hasTransparentPqInput_of_pqInputs hpqIn)
    rw [checkPqConservation, if_pos hnpos, ensure_ok, Bool.and_eq_true] at h
    simpa using h.2
  have hv2 : 2 ≤ tx.version := by rw [hv]; decide
  obtain ⟨pqIn, hpqSum, hsem⟩ := hnon.signature hv2 hnull
  have hsame : ({ tx.rctSignatures with pqTransparentIn := pqIn } : RctSig).type =
      tx.rctSignatures.type := rfl
  have htype := type_eq_bulletproofPlus hf hv2 hnull hsame hnon.outputs hsem.single
  obtain ⟨cache', hsig⟩ := hacc.signature (by rw [hv]; decide)
  obtain ⟨message, hsigned⟩ := ringsSigned_of_nonSem htypes hacc.order htype
    (nonSem_of_checkRctSignature hcache htype hsig)
  exact ⟨rings, message, pqIn, htypes, hacc.order, hacc.pqPass, hrows, htype, hpqSum, hsem, hsigned⟩

namespace HybridChecked

variable {view : ChainView} {tx : Transaction} {rings : List (List CtKey) × ℕ} {message : Key}
  {pqIn : UInt64} (h : HybridChecked c view tx rings message pqIn)

include h

theorem rings_length : rings.1.length = nRing tx := by
  rw [← h.rows.length_eq, length_ringInputs h.types h.order]

theorem pseudoOuts_length : tx.rctSignatures.p.pseudoOuts.length = nRing tx :=
  h.signed.pseudoOuts_length.trans h.rings_length

/-- Input, ring, signature and pseudo output number `n` are checked together. -/
theorem input {n : ℕ} (hi : n < (ringInputs tx).length)
    (hpo : n < tx.rctSignatures.p.pseudoOuts.length) :
    ∃ sig ring outputs, tx.rctSignatures.p.clsags[n]? = some sig ∧
      RingInputAccepted c view rings.2 (ringInputs tx)[n] ring outputs ∧
      c.verRctCLSAGSimple message
        { sig with i := (ringInputs tx)[n].kImage } ring
        tx.rctSignatures.p.pseudoOuts[n] = true := by
  have hn : n < nRing tx := by rwa [← length_ringInputs h.types h.order]
  have hrow : n < rings.1.length := by rwa [h.rings_length]
  have hs : n < tx.rctSignatures.p.clsags.length := by rwa [h.signed.clsags_length]
  obtain ⟨outputs, ho⟩ := h.rows.get hi hrow
  exact ⟨_, _, outputs, getElem?_eq_getElem hs, ho, h.signed.signed
    (getElem?_eq_getElem hi) (getElem?_eq_getElem hrow) (getElem?_eq_getElem hs)
    (getElem?_eq_getElem hpo)⟩

/-- The members that the ring inputs consume, one for each pseudo output. -/
theorem real (S : RingCtSound c) (hdb : view.db.Opened S) :
    ∃ real : List OutputData,
      List.Forall₂ (fun i od => RingMember c view i od ∧ S.curveImage od.pubkey = i.kImage)
        (ringInputs tx) real ∧
      List.Forall₂ (fun q (b : ℕ) => ∃ n, S.Opens q b n) tx.rctSignatures.p.pseudoOuts
        (real.map fun od => S.value od.commitment) ∧
      ∀ od ∈ real, S.value od.commitment < 2 ^ 64 := by
  have hlen := length_ringInputs h.types h.order
  have hpo := h.pseudoOuts_length
  have hmember : ∀ n : Fin (nRing tx), ∃ od,
      (RingMember c view ((ringInputs tx).get (n.cast hlen.symm)) od ∧
        S.curveImage od.pubkey = ((ringInputs tx).get (n.cast hlen.symm)).kImage) ∧
      S.value od.commitment < 2 ^ 64 ∧
      ∃ m, S.Opens (tx.rctSignatures.p.pseudoOuts.get (n.cast hpo.symm))
        ((S.value od.commitment : ℕ) : ZMod groupOrder) m := by
    intro n
    obtain ⟨sig, ring, outputs, -, hring, hver⟩ := h.input (n.cast hlen.symm).2 (n.cast hpo.symm).2
    exact real_of_signed S hdb hring hver
  choose od hod hlt hopen using hmember
  refine ⟨ofFn od, ?_, ?_, ?_⟩
  · refine forall₂_iff_get.mpr ⟨by rw [length_ofFn, hlen], fun n h₁ h₂ => ?_⟩
    rw [get_ofFn]
    exact hod ⟨n, by omega⟩
  · refine forall₂_iff_get.mpr ⟨by simp [hpo], fun n h₁ h₂ => ?_⟩
    have hopen := hopen ⟨n, by omega⟩
    simpa using hopen
  · intro o ho
    obtain ⟨n, rfl⟩ := (mem_ofFn' _ _).mp ho
    exact hlt n

theorem aligned {n : ℕ} (hn : n < nRing tx) : AlignedAt c view tx message n := by
  have hi : n < (ringInputs tx).length := by
    rwa [length_ringInputs h.types h.order]
  have hpo : n < tx.rctSignatures.p.pseudoOuts.length := by rwa [h.pseudoOuts_length]
  obtain ⟨sig, ring, outputs, hsig, hring, hver⟩ := h.input hi hpo
  have hvin : tx.vin[n]? = some (.toKey (ringInputs tx)[n]) := by
    have htake := congrArg (·[n]?) (take_nRing_eq h.types h.order)
    simpa [getElem?_take, hn, hi] using htake
  refine ⟨_, sig, _, outputs, hvin, hsig, getElem?_eq_getElem hpo, hring.outputs_eq, ?_⟩
  rwa [← hring.ring_eq]

theorem simplePseudoOuts_eq :
    simplePseudoOuts { tx.rctSignatures with pqTransparentIn := pqIn } =
      tx.rctSignatures.p.pseudoOuts := by
  rw [simplePseudoOuts, if_pos]
  simp [h.type, isRctBulletproofPlus]

theorem batchable : isBatchable { tx.rctSignatures with pqTransparentIn := pqIn } = true := by
  simp [isBatchable, h.type, isRctBulletproofPlus]

end HybridChecked

/-- The outputs of a transaction open to their values. -/
theorem opens_outputs (S : RingCtSound c) {ks : List CtKey}
    (h : ∀ k ∈ ks, S.Bounded (2 ^ 64) k.mask) :
    List.Forall₂ (fun q (b : ℕ) => ∃ n, S.Opens q b n) (ks.map CtKey.mask)
      (ks.map fun k => S.value k.mask) := by
  induction ks with
  | nil => exact .nil
  | cons k ks ih =>
    obtain ⟨hk, hks⟩ := forall_mem_cons.mp h
    exact .cons (hk.opens_value two_pow_64_le_groupOrder) (ih hks)

/-- **Hybrid transactions conserve value.** A version-2 transaction from the wire with ring inputs
and post-quantum inputs that passes both sets of checks spends exactly what it creates and pays. The
openings that it reveals are among the known ones, which are binding. -/
theorem hybrid_conserves (S : RingCtSound c) (view : ChainView) {cache : RctVerCache c}
    {tx : Transaction} {txs : List Transaction} {blob : Bytes} {r : ℕ × RctVerCache c}
    (hparse : parseAndValidateTx c blob = some tx) (hblob : serializeTransaction tx = some blob)
    (hv : tx.version = 2) (hringIn : ringInputs tx ≠ [])
    (hpqIn : pqInputs tx ≠ []) (hdb : view.db.Opened S) (hknown : S.Revealed tx)
    (hcache : CacheFresh cache tx) (hnic : verNonInputConsensus c view.hfVersion txs = .ok ())
    (htx : tx ∈ txs) (hin : checkTxInputs c view cache tx = .ok r) : HybridConserved S view tx := by
  have hnon := verNonInputConsensus_ok hnic htx
  obtain ⟨rings, message, pqIn, h⟩ := hybrid_checked hv hringIn hpqIn hcache hnon hin
  have hnull : tx.rctSignatures.type ≠ rctTypeNull := by rw [h.type]; decide
  have hcoinbase : isCoinbase tx = false := by
    rw [isCoinbase]
    split
    · next heq =>
      have hgen := h.types _ (heq ▸ mem_singleton.mpr rfl)
      rcases hgen with hgen | hgen <;> cases hgen
    · rfl
  -- the outputs
  obtain ⟨bp, hbp, hbpv⟩ := proof_commitments_of_parse hparse (by rw [hv]; decide) hcoinbase h.type
  obtain ⟨houtLen, hbounded⟩ := bounded_of_ranges S h.semantics h.type hbp hbpv
  have houts := opens_outputs S hbounded
  have hvalues : ∀ v ∈ tx.rctSignatures.outPk.map fun k => S.value k.mask, v < 2 ^ 64 := by
    intro v hv'
    obtain ⟨k, hk, rfl⟩ := mem_map.mp hv'
    exact (hbounded k hk).value_lt two_pow_64_le_groupOrder
  -- the members consumed
  obtain ⟨real, hmembers, hopens, hlt⟩ := h.real S hdb
  have hrealLen : real.length ≤ cryptonoteMaxTxSize := by
    have hsize := hnon.blobSize
    rw [getTransactionBlobSize, hblob, Option.getD_some] at hsize
    rw [← hmembers.length_eq]
    calc (ringInputs tx).length ≤ tx.vin.length := length_filterMap_le ..
      _ ≤ blob.length := vin_length_le_of_serialize hblob
      _ ≤ cryptonoteMaxTxSize := hsize
  -- the balance equation
  have hsum := h.semantics.balance h.batchable
  have hpqNat : pqIn.toNat = exactSum ((pqInputs tx).map TxinToKeyPq.amount) := by
    simpa using (checkedSum_eq_some.mp h.pqSum).2
  have hbalance := balance_of_sumCheck S.toPedersen hsum (by rwa [h.simplePseudoOuts_eq]) houts
    (by rwa [length_map]) (by rw [length_map]; exact houtLen.trans (by decide))
    (forall_mem_map.mpr hlt) hvalues
  refine ⟨⟨message, h.aligned⟩, h.signed.clsags_length, h.pseudoOuts_length,
    (split_of_ringBeforePq h.order).2, ⟨pqIn, h.pqSum, hpqNat, hsum⟩, hbounded,
    hnon.semantic.outPk (by rw [hv]; decide) hnull, real, hmembers, ?_⟩
  rw [sum_boundValue S.toPedersen hknown h.pqPass, ← hpqNat]
  exact hbalance

/-! ### A hybrid transaction -/

/-- A first block whose miner transaction has 33 unlocked outputs, the first one with a binding
tag. -/
def wideBlock : Block :=
  { boundBlock 1 0 with
    minerTx :=
      { (boundBlock 1 0).minerTx with
        unlockTime := 0
        vout := (List.range 33).map fun k =>
          ⟨1000, .toTaggedKey ⟨natLe (if k = 0 then 1 else 1000 + k), 0⟩⟩ } }

/-- Such a block, followed by ten blocks with one mined output each. -/
def wideChain : List (Block × BlockMeta × List (Transaction × Bytes)) :=
  (wideBlock, ⟨0, 0, 0, 0⟩, []) :: (boundChain 16 11).tail

/-- A spend of one of the outputs 1 to 32 of that chain through a ring, and of output 0 as a
post-quantum input. -/
def hybridSpend : Transaction where
  version := 2
  vin :=
    [.toKey ⟨0, replicate 32 1, flipBits (natLe 1005)⟩,
     .toKeyPq
      { amount := 1000
        spentOutputIndex := 0
        realOutputKey := natLe 1
        mask := identity
        ownerSig := default
        authType := pqAuthTypeMldsa65
        authBlind := default
        auth := default }]
  vout := [⟨0, .toTaggedKey ⟨natLe 2000, 0⟩⟩, ⟨0, .toTaggedKey ⟨natLe 2001, 0⟩⟩]
  extra := 0x01 :: replicate 32 0
  rctSignatures :=
    { type := rctTypeBulletproofPlus
      ecdhInfo := [default, default]
      outPk := [⟨natLe 2000, pointOf 900⟩, ⟨natLe 2001, pointOf 1000⟩]
      txnFee := 100
      p :=
        { bulletproofsPlus :=
            [{ v := [900, 1000].map fun a => transparent.scalarmultKey (pointOf a)
                transparent.invEight
               a := default, a1 := default, b := default, r1 := default, s1 := default
               d1 := default, l := replicate 7 default, r := replicate 7 default }]
          clsags := [{ s := replicate 32 default, c1 := default, i := default, d := default }]
          pseudoOuts := [pointOf 1000] } }

/-- In the transparent instance a commitment to a small number is opened by it. -/
theorem opened_of_all {db : Db} (h : ((db.outputAmounts 0).all fun e =>
      decide (pointVal (e.2.commitment.getD default) < 2 ^ 64)) = true) :
    db.Opened transparentSound := by
  intro index od hod
  obtain ⟨ok, hok, rfl⟩ := Option.map_eq_some_iff.mp hod
  have hlt := of_decide_eq_true (all_eq_true.mp h _ (Store.Table.mem_of_get? hok))
  rw [if_pos rfl]
  exact ⟨_, hlt, 0, rfl⟩

theorem hybridSpend_nonInput :
    passes (verNonInputConsensus transparent 16 [hybridSpend]) = true := by
  decide +kernel

/-- The hybrid spend is accepted on that chain. -/
theorem hybrid_conserves_spend :
    ∃ db r, checkTxInputs transparent ⟨db, 16, 0⟩ .empty hybridSpend = .ok r ∧
      HybridConserved transparentSound ⟨db, 16, 0⟩ hybridSpend := by
  obtain ⟨⟨⟩, db, -, hdb⟩ := Store.exists_of_okAnd
    (r := addBlocks transparent wideChain (Db.empty 0))
    (p := fun _ db => passes (checkTxInputs transparent ⟨db, 16, 0⟩ .empty hybridSpend) &&
      (db.outputAmounts 0).all fun e => decide (pointVal (e.2.commitment.getD default) < 2 ^ 64))
    (by decide +kernel)
  rw [Bool.and_eq_true] at hdb
  obtain ⟨r, hr⟩ := passes_iff.mp hdb.1
  have hwire : ∃ blob, serializeTransaction hybridSpend = some blob ∧
      parseAndValidateTx transparent blob = some hybridSpend :=
    Option.bind_eq_some_iff.mp (by decide +kernel)
  obtain ⟨blob, hblob, hparse⟩ := hwire
  have hnic : verNonInputConsensus transparent 16 [hybridSpend] = .ok () :=
    ok_of_passes hybridSpend_nonInput
  exact ⟨db, r, hr, hybrid_conserves transparentSound ⟨db, 16, 0⟩ hparse hblob rfl
    (by simp [ringInputs, hybridSpend, Txin.toKey?])
    (by simp [pqInputs, hybridSpend, Txin.toKeyPq?])
    (opened_of_all hdb.2) (transparentPedersen_revealed _) (.empty _) hnic (mem_singleton.mpr rfl) hr⟩

end Hidering
