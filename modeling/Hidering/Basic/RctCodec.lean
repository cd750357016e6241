import Hidering.Basic.Codec

/-!
# The binary encoding of RingCT signatures

`serialize_rctsig_base` and `serialize_rctsig_prunable` of `rctTypes.h`. A RingCT signature has no
lengths of its own on the wire: the numbers of inputs and outputs and the ring size are arguments,
computed by the caller from the prefix. Only the numbers of aggregated range proofs are stored, in
32 bits (`proofsFormat`).

What is written depends on the type of the signature; `RctSigBase.wireView` and
`RctSigPrunable.wireView` say what that is, with everything else as a fresh object has it.

## Main definitions

* `Hidering.nBulletproofMaxAmounts`, `nBulletproofPlusMaxAmounts`
* `Hidering.rctsigBaseFormat`, `rctsigPrunableFormat`
* `Hidering.RctSigBase.wireView`, `RctSigPrunable.wireView`

## Main results

* `Hidering.rctsigBaseFormat_norm`, `rctsigPrunableFormat_norm` — what is read back is the wire view
-/

namespace Hidering

open Wire Wire.Format List

/-! ### How many amounts a list of aggregated proofs covers -/

/-- `BULLETPROOF_MAX_OUTPUTS` and `BULLETPROOF_PLUS_MAX_OUTPUTS`. -/
abbrev bulletproofMaxOutputs : ℕ := 16

/-- `n_bulletproof_max_amounts_base`. -/
def nBulletproofMaxAmountsBase (lSize rSize maxOutputs : ℕ) : ℕ :=
  if ¬ 6 ≤ lSize then 0
  else if lSize ≠ rSize then 0
  else if 2 ^ 4 ≠ maxOutputs then 0
  else if ¬ lSize ≤ 6 + 4 then 0
  else 2 ^ (lSize - 6)

/-- `n_bulletproof_amounts_base`. -/
def nBulletproofAmountsBase (lSize rSize vSize maxOutputs : ℕ) : ℕ :=
  if ¬ 6 ≤ lSize then 0
  else if lSize ≠ rSize then 0
  else if 2 ^ 4 ≠ maxOutputs then 0
  else if ¬ lSize ≤ 6 + 4 then 0
  else if ¬ vSize ≤ 2 ^ (lSize - 6) then 0
  else if ¬ 2 ^ (lSize - 6) < vSize * 2 then 0
  else if ¬ 0 < vSize then 0
  else vSize

/-- The loop that the four functions over lists of proofs share: sum the amounts of the proofs,
and give up with 0 at a proof that covers none or would take the sum past 32 bits. -/
def sumAmounts {α : Type} (amounts : α → ℕ) : ℕ → List α → ℕ
  | n, [] => n
  | n, p :: ps =>
    if ¬ amounts p < (2 ^ 32 - 1) - n then 0
    else if amounts p = 0 then 0
    else sumAmounts amounts (n + amounts p) ps

/-- `n_bulletproof_max_amounts` of one proof. -/
def Bulletproof.maxAmounts (p : Bulletproof) : ℕ :=
  nBulletproofMaxAmountsBase p.l.length p.r.length bulletproofMaxOutputs

/-- `n_bulletproof_plus_max_amounts` of one proof. -/
def BulletproofPlus.maxAmounts (p : BulletproofPlus) : ℕ :=
  nBulletproofMaxAmountsBase p.l.length p.r.length bulletproofMaxOutputs

/-- `n_bulletproof_amounts` of one proof. -/
def Bulletproof.amounts (p : Bulletproof) : ℕ :=
  nBulletproofAmountsBase p.l.length p.r.length p.v.length bulletproofMaxOutputs

/-- `n_bulletproof_plus_amounts` of one proof. -/
def BulletproofPlus.amounts (p : BulletproofPlus) : ℕ :=
  nBulletproofAmountsBase p.l.length p.r.length p.v.length bulletproofMaxOutputs

/-- `n_bulletproof_max_amounts`. -/
def nBulletproofMaxAmounts : List Bulletproof → ℕ := sumAmounts Bulletproof.maxAmounts 0

/-- `n_bulletproof_plus_max_amounts`. -/
def nBulletproofPlusMaxAmounts : List BulletproofPlus → ℕ :=
  sumAmounts BulletproofPlus.maxAmounts 0

/-- `n_bulletproof_amounts`. -/
def nBulletproofAmounts : List Bulletproof → ℕ := sumAmounts Bulletproof.amounts 0

/-- `n_bulletproof_plus_amounts`. -/
def nBulletproofPlusAmounts : List BulletproofPlus → ℕ := sumAmounts BulletproofPlus.amounts 0

section SumAmounts

variable {α : Type} {amounts : α → ℕ}

theorem sumAmounts_map {g : α → α} (hg : ∀ a, amounts (g a) = amounts a) (n : ℕ) (ps : List α) :
    sumAmounts amounts n (ps.map g) = sumAmounts amounts n ps := by
  induction ps generalizing n with
  | nil => rfl
  | cons p ps ih => simp only [map_cons, sumAmounts, hg, ih]

/-- Every proof adds at least one to a sum that stays below 32 bits, so a list that is too long
for a 32-bit length has no sum. -/
theorem sumAmounts_eq_zero {n : ℕ} {ps : List α} (hn : n < 2 ^ 32) (h : 2 ^ 32 ≤ n + ps.length) :
    sumAmounts amounts n ps = 0 := by
  induction ps generalizing n with
  | nil => simp only [length_nil] at h; omega
  | cons p ps ih =>
    rw [length_cons] at h
    rw [sumAmounts]
    split
    · rfl
    · split
      · rfl
      · exact ih (by omega) (by omega)

theorem not_sumAmounts_take_lt {ps : List α} {outputs : ℕ}
    (hsum : ¬ sumAmounts amounts 0 ps < outputs) :
    ¬ sumAmounts amounts 0 (ps.take (ps.length % 2 ^ 32)) < outputs := by
  rcases Nat.lt_or_ge ps.length (2 ^ 32) with hfit | hbig
  · rwa [Nat.mod_eq_of_lt hfit, take_length]
  · -- a list that does not fit has no sum, so there are no outputs to cover
    rw [sumAmounts_eq_zero (Nat.two_pow_pos 32) (by omega)] at hsum
    omega

end SumAmounts

/-! ### Lists of aggregated proofs -/

/-- The list of range proofs of a signature: its size as a `uint32_t`, laid out by `count`, then
that many proofs. The writer casts the size of the vector to 32 bits. Both directions demand that
there are at most `outputs` proofs and that they can cover `outputs` amounts. -/
def proofsFormat {α : Type} (count : Format UInt32) (hcount : count.Faithful) (f : Format α)
    (maxAmounts : α → ℕ) (hmax : ∀ a, maxAmounts (f.norm a) = maxAmounts a) (outputs : ℕ) :
    Format (List α) where
  write ps :=
    (count.write (UInt32.ofNat ps.length)).bind fun x =>
      if outputs < (UInt32.ofNat ps.length).toNat then none
      else (writeList f (ps.take (UInt32.ofNat ps.length).toNat)).bind fun y =>
        if sumAmounts maxAmounts 0 ps < outputs then none else some (x ++ y)
  read m inp :=
    (count.read m inp).bind fun r =>
      if outputs < r.1.toNat then none
      else (readList f m r.1.toNat r.2).bind fun s =>
        if sumAmounts maxAmounts 0 s.1 < outputs then none else some s
  norm ps := (ps.take (ps.length % 2 ^ 32)).map f.norm
  read_write {m ps bs} rest h := by
    simp only [Option.bind_eq_some_iff] at h
    obtain ⟨x, hx, h⟩ := h
    have hnat : (UInt32.ofNat ps.length).toNat = ps.length % 2 ^ 32 := UInt32.toNat_ofNat'
    rw [hnat] at h
    split at h
    · cases h
    · next hout =>
      simp only [Option.bind_eq_some_iff] at h
      obtain ⟨y, hy, h⟩ := h
      split at h
      · cases h
      · next hsum =>
        obtain rfl := Option.some.inj h
        have hlen : (ps.take (ps.length % 2 ^ 32)).length = ps.length % 2 ^ 32 :=
          length_take_of_le (Nat.mod_le _ _)
        have hread := readList_writeList f (m := m) rest hy
        rw [hlen] at hread
        rw [append_assoc, count.read_write (y ++ rest) hx, Option.bind_some, hcount]
        simp only [hnat]
        rw [if_neg hout, hread, Option.bind_some]
        simp only
        rw [if_neg]
        rw [sumAmounts_map hmax]
        exact not_sumAmounts_take_lt hsum
  write_read {inp ps rest} h := by
    simp only [Option.bind_eq_some_iff] at h
    obtain ⟨⟨n, r⟩, hn, h⟩ := h
    split at h
    · cases h
    · next hout =>
      simp only [Option.bind_eq_some_iff] at h
      obtain ⟨⟨qs, s⟩, hs, h⟩ := h
      split at h
      · cases h
      · next hsum =>
        obtain ⟨rfl, rfl⟩ := Prod.mk.inj (Option.some.inj h)
        obtain ⟨x, hx, rfl⟩ := count.write_read hn
        obtain ⟨y, hy, hr⟩ := writeList_readList f hs
        simp only at hr hout hsum
        subst hr
        have hlen : qs.length = n.toNat := length_of_readList f hs
        refine ⟨x ++ y, ?_, (append_assoc ..).symm⟩
        rw [hlen, UInt32.ofNat_toNat, hx, Option.bind_some, if_neg hout,
          take_of_length_le hlen.le, hy, Option.bind_some, if_neg hsum]
  read_rest {inp ps rest} h hne := by
    simp only [Option.bind_eq_some_iff] at h ⊢
    obtain ⟨q, hq, h⟩ := h
    split at h
    · cases h
    · next hout =>
      simp only [Option.bind_eq_some_iff] at h
      obtain ⟨⟨qs, s⟩, hs, h⟩ := h
      split at h
      · cases h
      · next hsum =>
        obtain ⟨rfl, rfl⟩ := Prod.mk.inj (Option.some.inj h)
        have hs := readList_rest f hs hne
        refine ⟨q, count.read_rest hq (ne_nil_of_readList f hs hne), ?_⟩
        rw [if_neg hout, hs, Option.bind_some, if_neg hsum]

/-! ### The base part -/

/-- The types whose `ecdhInfo` is the first 8 bytes of the encrypted amount only. -/
def compactEcdh (type : UInt8) : Bool :=
  type == rctTypeBulletproof2 || type == rctTypeClsag || type == rctTypeBulletproofPlus

/-- The types that the serializers know, other than `RCTTypeNull`. -/
def knownRctType (type : UInt8) : Bool :=
  type == rctTypeFull || type == rctTypeSimple || type == rctTypeBulletproof ||
    type == rctTypeBulletproof2 || type == rctTypeClsag || type == rctTypeBulletproofPlus

/-- `trunc_amount`: the first 8 bytes of a key. -/
def truncAmount (k : Key) : Blob 8 :=
  ⟨k.bytes.take 8, by rw [length_take, k.length_bytes]; rfl⟩

/-- A key of zeros with its first 8 bytes overwritten. -/
def padAmount (t : Blob 8) : Key :=
  ⟨t.bytes ++ replicate 24 0, by rw [length_append, t.length_bytes]; rfl⟩

theorem truncAmount_padAmount (t : Blob 8) : truncAmount (padAmount t) = t :=
  Blob.ext_bytes (take_left' t.length_bytes)

/-- What the wire keeps of one `ecdhTuple`. -/
def EcdhTuple.wireView (type : UInt8) (e : EcdhTuple) : EcdhTuple :=
  if compactEcdh type then ⟨default, padAmount (truncAmount e.amount)⟩ else e

/-- One entry of `ecdhInfo`. -/
def ecdhFormat (type : UInt8) : Format EcdhTuple :=
  if compactEcdh type then
    (blob 8).imap (fun e => truncAmount e.amount) (fun t => ⟨default, padAmount t⟩)
      truncAmount_padAmount
  else (keyFormat.seq keyFormat).imap (fun e => (e.mask, e.amount)) (fun w => ⟨w.1, w.2⟩)
    fun _ => rfl

theorem ecdhFormat_norm (type : UInt8) : (ecdhFormat type).norm = EcdhTuple.wireView type := by
  funext e
  rw [ecdhFormat, EcdhTuple.wireView]
  split <;> rfl

/-- One entry of `outPk`, of which only the commitment is written. -/
def outPkFormat : Format CtKey := keyFormat.imap CtKey.mask (fun m => ⟨default, m⟩) fun _ => rfl

/-- The fields of the base part behind the type. -/
def rctsigBaseBody (type : UInt8) (inputs outputs : ℕ) :
    Format (Amount × List Key × List EcdhTuple × List CtKey) :=
  if type = rctTypeNull then skip (0, [], [], [])
  else if knownRctType type then
    varint64.seq ((if type = rctTypeSimple then listN keyFormat inputs else skip []).seq
      ((listN (ecdhFormat type) outputs).seq (listN outPkFormat outputs)))
  else fail _

/-- `serialize_rctsig_base`. -/
def rctsigBaseFormat (inputs outputs : ℕ) : Format RctSigBase :=
  (byte.bind (fun type => rctsigBaseBody type inputs outputs) fun _ => rfl).imap
    (fun b => (b.type, b.txnFee, b.pseudoOuts, b.ecdhInfo, b.outPk))
    (fun w => { type := w.1, txnFee := w.2.1, pseudoOuts := w.2.2.1, ecdhInfo := w.2.2.2.1,
                outPk := w.2.2.2.2 }) fun _ => rfl

/-- What the wire keeps of the base part of a signature. -/
def RctSigBase.wireView (b : RctSigBase) : RctSigBase :=
  if b.type = rctTypeNull then { type := rctTypeNull }
  else
    { type := b.type
      txnFee := b.txnFee
      pseudoOuts := if b.type = rctTypeSimple then b.pseudoOuts else []
      ecdhInfo := b.ecdhInfo.map (EcdhTuple.wireView b.type)
      outPk := b.outPk.map fun c => ⟨default, c.mask⟩ }

@[simp] theorem RctSigBase.wireView_type (b : RctSigBase) : b.wireView.type = b.type := by
  rw [wireView]
  split
  · next h => exact h.symm
  · rfl

theorem rctsigBaseFormat_norm {inputs outputs : ℕ} {b : RctSigBase} {bs : Bytes}
    (h : (rctsigBaseFormat inputs outputs).write b = some bs) :
    (rctsigBaseFormat inputs outputs).norm b = b.wireView := by
  have hnorm : (rctsigBaseFormat inputs outputs).norm b =
      let w := (rctsigBaseBody b.type inputs outputs).norm
        (b.txnFee, b.pseudoOuts, b.ecdhInfo, b.outPk)
      { type := b.type, txnFee := w.1, pseudoOuts := w.2.1, ecdhInfo := w.2.2.1,
        outPk := w.2.2.2 } := rfl
  rw [hnorm, RctSigBase.wireView, rctsigBaseBody]
  by_cases hnull : b.type = rctTypeNull
  · rw [if_pos hnull, if_pos hnull, hnull]
    rfl
  · rw [if_neg hnull, if_neg hnull]
    by_cases hknown : knownRctType b.type
    · have hpseudo : (if b.type = rctTypeSimple then listN keyFormat inputs else skip []).norm
          b.pseudoOuts = if b.type = rctTypeSimple then b.pseudoOuts else [] := by
        split
        · exact listN_faithful keyFormat_faithful _
        · rfl
      rw [if_pos hknown]
      simp only [seq_norm, hpseudo, listN_norm, ecdhFormat_norm]
      rfl
    · -- a type the serializer does not know is not written
      simp only [rctsigBaseFormat, imap, Format.bind, rctsigBaseBody, if_neg hnull,
        if_neg hknown, fail] at h
      simp at h

/-! ### The prunable part -/

/-- `rangeSig`. -/
def rangeSigFormat : Format RangeSig :=
  ((blob _).seq (blob _)).imap (fun s => (s.asig, s.ci)) (fun w => ⟨w.1, w.2⟩) fun _ => rfl

/-- The test at the end of both bulletproof serializers. -/
def lrSizesOk (l r : List Key) : Bool := !(l.isEmpty || l.length != r.length)

/-- `Bulletproof`, without the commitments. -/
def bulletproofFormat : Format Bulletproof :=
  ((keyFormat.seq (keyFormat.seq (keyFormat.seq (keyFormat.seq (keyFormat.seq (keyFormat.seq
      (keysFormat.seq (keysFormat.seq (keyFormat.seq (keyFormat.seq keyFormat)))))))))).imap
    (fun p : Bulletproof => (p.a, p.s, p.t1, p.t2, p.taux, p.mu, p.l, p.r, p.aa, p.b, p.t))
    (fun w => ⟨[], w.1, w.2.1, w.2.2.1, w.2.2.2.1, w.2.2.2.2.1, w.2.2.2.2.2.1, w.2.2.2.2.2.2.1,
      w.2.2.2.2.2.2.2.1, w.2.2.2.2.2.2.2.2.1, w.2.2.2.2.2.2.2.2.2.1, w.2.2.2.2.2.2.2.2.2.2⟩)
    fun _ => rfl).check (fun p => lrSizesOk p.l p.r) fun p => by
      simp only [imap, seq_norm, keysFormat_faithful _]

/-- `BulletproofPlus`, without the commitments. -/
def bulletproofPlusFormat : Format BulletproofPlus :=
  ((keyFormat.seq (keyFormat.seq (keyFormat.seq (keyFormat.seq (keyFormat.seq (keyFormat.seq
      (keysFormat.seq keysFormat))))))).imap
    (fun p : BulletproofPlus => (p.a, p.a1, p.b, p.r1, p.s1, p.d1, p.l, p.r))
    (fun w => ⟨[], w.1, w.2.1, w.2.2.1, w.2.2.2.1, w.2.2.2.2.1, w.2.2.2.2.2.1, w.2.2.2.2.2.2.1,
      w.2.2.2.2.2.2.2⟩)
    fun _ => rfl).check (fun p => lrSizesOk p.l p.r) fun p => by
      simp only [imap, seq_norm, keysFormat_faithful _]

theorem bulletproofFormat_norm (p : Bulletproof) :
    bulletproofFormat.norm p = { p with v := [] } := by
  simp only [bulletproofFormat, check, imap, seq_norm, keysFormat_faithful _,
    keyFormat_faithful _]

theorem bulletproofPlusFormat_norm (p : BulletproofPlus) :
    bulletproofPlusFormat.norm p = { p with v := [] } := by
  simp only [bulletproofPlusFormat, check, imap, seq_norm, keysFormat_faithful _,
    keyFormat_faithful _]

/-- The range proofs of a `RCTTypeBulletproof`, `RCTTypeBulletproof2` or `RCTTypeCLSAG`
signature. The first of these stores their number in four bytes. -/
def bulletproofsFormat (type : UInt8) (outputs : ℕ) : Format (List Bulletproof) :=
  if type = rctTypeBulletproof then
    proofsFormat le32 le32_faithful bulletproofFormat Bulletproof.maxAmounts
      (fun p => by rw [bulletproofFormat_norm]; rfl) outputs
  else
    proofsFormat varint32 varint32_faithful bulletproofFormat Bulletproof.maxAmounts
      (fun p => by rw [bulletproofFormat_norm]; rfl) outputs

/-- The range proofs of a `RCTTypeBulletproofPlus` signature. -/
def bulletproofsPlusFormat (outputs : ℕ) : Format (List BulletproofPlus) :=
  proofsFormat varint32 varint32_faithful bulletproofPlusFormat BulletproofPlus.maxAmounts
    (fun p => by rw [bulletproofPlusFormat_norm]; rfl) outputs

/-- One CLSAG, without the key image. -/
def clsagFormat (mixin : ℕ) : Format Clsag :=
  ((listN keyFormat (mixin + 1)).seq (keyFormat.seq keyFormat)).imap (fun c => (c.s, c.c1, c.d))
    (fun w => ⟨w.1, w.2.1, default, w.2.2⟩) fun _ => rfl

/-- One MLSAG with `rows` rows, without the key images. -/
def mgFormat (mixin rows : ℕ) : Format MgSig :=
  ((listN (listN keyFormat rows) (mixin + 1)).seq keyFormat).imap (fun g => (g.ss, g.cc))
    (fun w => ⟨w.1, w.2, []⟩) fun _ => rfl

/-- The types with one MLSAG per input; a `RCTTypeFull` signature has a single one. -/
def mgPerInput (type : UInt8) : Bool :=
  type == rctTypeSimple || type == rctTypeBulletproof || type == rctTypeBulletproof2

/-- `serialize_rctsig_prunable`. -/
def rctsigPrunableFormat (type : UInt8) (inputs outputs mixin : ℕ) : Format RctSigPrunable :=
  if 0xffffffff ≤ inputs ∨ 0xffffffff ≤ outputs ∨ 0xffffffff ≤ mixin then fail _
  else if type = rctTypeNull then skip {}
  else if knownRctType type then
    ((if isRctBorromean type then listN rangeSigFormat outputs else skip []).seq
      ((if isRctBulletproof type then bulletproofsFormat type outputs else skip []).seq
        ((if isRctBulletproofPlus type then bulletproofsPlusFormat outputs else skip []).seq
          ((if isRctClsag type then skip []
            else listN (mgFormat mixin ((if mgPerInput type then 1 else inputs) + 1))
              (if mgPerInput type then inputs else 1)).seq
            ((if isRctClsag type then listN (clsagFormat mixin) inputs else skip []).seq
              (if isRctBorromean type then skip [] else listN keyFormat inputs)))))).imap
      (fun p => (p.rangeSigs, p.bulletproofs, p.bulletproofsPlus, p.mgs, p.clsags, p.pseudoOuts))
      (fun w => ⟨w.1, w.2.1, w.2.2.1, w.2.2.2.1, w.2.2.2.2.1, w.2.2.2.2.2⟩) fun _ => rfl
  else fail _

/-- The lists of aggregated proofs, cut to the number that their 32-bit counts hold. -/
def RctSigPrunable.truncProofs (p : RctSigPrunable) : RctSigPrunable :=
  { p with
    bulletproofs := p.bulletproofs.take (p.bulletproofs.length % 2 ^ 32)
    bulletproofsPlus := p.bulletproofsPlus.take (p.bulletproofsPlus.length % 2 ^ 32) }

/-- What a signature of the given type has in its prunable part, without the data that is
reconstructed by the verifier. -/
def RctSigPrunable.wireView (type : UInt8) (p : RctSigPrunable) : RctSigPrunable :=
  if type = rctTypeNull then {}
  else
    { rangeSigs := if isRctBorromean type then p.rangeSigs else []
      bulletproofs :=
        if isRctBulletproof type then p.bulletproofs.map fun b => { b with v := [] } else []
      bulletproofsPlus :=
        if isRctBulletproofPlus type then p.bulletproofsPlus.map fun b => { b with v := [] }
        else []
      mgs := if isRctClsag type then [] else p.mgs.map fun g => { g with ii := [] }
      clsags := if isRctClsag type then p.clsags.map fun c => { c with i := default } else []
      pseudoOuts := if isRctBorromean type then [] else p.pseudoOuts }

theorem rangeSigFormat_faithful : rangeSigFormat.Faithful :=
  imap_faithful (seq_faithful (blob_faithful _) (blob_faithful _)) fun _ => rfl

theorem clsagFormat_norm (mixin : ℕ) :
    (clsagFormat mixin).norm = fun c => { c with i := default } := by
  funext c
  simp only [clsagFormat, imap, seq_norm, listN_faithful keyFormat_faithful _,
    keyFormat_faithful _]

theorem mgFormat_norm (mixin rows : ℕ) :
    (mgFormat mixin rows).norm = fun g => { g with ii := [] } := by
  funext g
  simp only [mgFormat, imap, seq_norm, listN_faithful (listN_faithful keyFormat_faithful) _,
    keyFormat_faithful _]

theorem bulletproofsFormat_norm (type : UInt8) (outputs : ℕ) (ps : List Bulletproof) :
    (bulletproofsFormat type outputs).norm ps =
      (ps.take (ps.length % 2 ^ 32)).map fun b => { b with v := [] } := by
  rw [← funext bulletproofFormat_norm, bulletproofsFormat]
  split <;> rfl

theorem bulletproofsPlusFormat_norm (outputs : ℕ) (ps : List BulletproofPlus) :
    (bulletproofsPlusFormat outputs).norm ps =
      (ps.take (ps.length % 2 ^ 32)).map fun b => { b with v := [] } := by
  rw [← funext bulletproofPlusFormat_norm]
  rfl

theorem rctsigPrunableFormat_norm {type : UInt8} {inputs outputs mixin : ℕ} {p : RctSigPrunable}
    {bs : Bytes} (h : (rctsigPrunableFormat type inputs outputs mixin).write p = some bs) :
    (rctsigPrunableFormat type inputs outputs mixin).norm p = p.truncProofs.wireView type := by
  rw [rctsigPrunableFormat] at h ⊢
  split at h
  · cases h
  · next hsize =>
    rw [if_neg hsize, RctSigPrunable.wireView]
    split at h
    · next hnull => rw [if_pos hnull, if_pos hnull, skip_norm]
    · next hnull =>
      rw [if_neg hnull, if_neg hnull]
      split at h
      · next hknown =>
        rw [if_pos hknown]
        -- each component is either laid out or skipped, depending on the type alone
        have hite : ∀ {α : Type} (c : Prop) [Decidable c] (f g : Format α) (a : α),
            (if c then f else g).norm a = if c then f.norm a else g.norm a := by
          intro α c _ f g a
          split <;> rfl
        simp only [imap, seq_norm, hite, skip_norm, listN_norm, bulletproofsFormat_norm,
          bulletproofsPlusFormat_norm, clsagFormat_norm, mgFormat_norm,
          map_norm_eq rangeSigFormat_faithful, map_norm_eq keyFormat_faithful,
          RctSigPrunable.truncProofs]
      · cases h

/-! ### Views of views -/

theorem EcdhTuple.wireView_wireView (type : UInt8) (e : EcdhTuple) :
    (e.wireView type).wireView type = e.wireView type := by
  simp only [wireView]
  split
  · rw [truncAmount_padAmount]
  · rfl

theorem RctSigBase.wireView_wireView (b : RctSigBase) : b.wireView.wireView = b.wireView := by
  rw [wireView, wireView_type]
  by_cases hnull : b.type = rctTypeNull
  · simp only [wireView, if_pos hnull]
  · simp only [wireView, if_neg hnull, map_map, Function.comp_def,
      EcdhTuple.wireView_wireView]
    split <;> rfl

theorem ecdhFormat_write_wireView (type : UInt8) (e : EcdhTuple) :
    (ecdhFormat type).write (e.wireView type) = (ecdhFormat type).write e := by
  rw [ecdhFormat, EcdhTuple.wireView]
  split
  · simp only [imap, truncAmount_padAmount]
  · rfl

theorem outPkFormat_write_mask (k : CtKey) :
    outPkFormat.write ⟨default, k.mask⟩ = outPkFormat.write k := rfl

theorem rctsigBaseBody_write_wireView (inputs outputs : ℕ) (b : RctSigBase) :
    (rctsigBaseBody b.type inputs outputs).write
        (b.wireView.txnFee, b.wireView.pseudoOuts, b.wireView.ecdhInfo, b.wireView.outPk) =
      (rctsigBaseBody b.type inputs outputs).write
        (b.txnFee, b.pseudoOuts, b.ecdhInfo, b.outPk) := by
  rw [rctsigBaseBody, RctSigBase.wireView]
  by_cases hnull : b.type = rctTypeNull
  · rw [if_pos hnull]
    rfl
  · rw [if_neg hnull, if_neg hnull]
    split
    · have hpseudo : (if b.type = rctTypeSimple then listN keyFormat inputs else skip []).write
          (if b.type = rctTypeSimple then b.pseudoOuts else []) =
          (if b.type = rctTypeSimple then listN keyFormat inputs else skip []).write
            b.pseudoOuts := by
        split <;> rfl
      simp only [seq, Format.bind, hpseudo, listN_write_map (ecdhFormat_write_wireView b.type),
        listN_write_map outPkFormat_write_mask]
    · rfl

/-- What is not on the wire does not matter for the bytes. -/
theorem rctsigBaseFormat_write_wireView (inputs outputs : ℕ) (b : RctSigBase) :
    (rctsigBaseFormat inputs outputs).write b.wireView =
      (rctsigBaseFormat inputs outputs).write b := by
  simp only [rctsigBaseFormat, imap, Format.bind, RctSigBase.wireView_type,
    rctsigBaseBody_write_wireView]

theorem RctSigPrunable.wireView_wireView (type : UInt8) (p : RctSigPrunable) :
    (p.wireView type).wireView type = p.wireView type := by
  by_cases hnull : type = rctTypeNull
  · simp only [wireView, if_pos hnull]
  · simp only [wireView, if_neg hnull]
    congr 1 <;> split <;> simp only [map_map, Function.comp_def]

/-- The number of aggregated range proofs of a signature of the given type. -/
def RctSigPrunable.proofCount (type : UInt8) (p : RctSigPrunable) : ℕ :=
  if isRctBulletproof type then p.bulletproofs.length
  else if isRctBulletproofPlus type then p.bulletproofsPlus.length
  else 0

theorem take_mod_eq_self_iff {α : Type} {n : ℕ} (hn : 0 < n) (l : List α) :
    l.take (l.length % n) = l ↔ l.length < n := by
  constructor
  · intro h
    have hlen := congrArg List.length h
    rw [length_take_of_le (Nat.mod_le _ _)] at hlen
    rw [← hlen]
    exact Nat.mod_lt _ hn
  · intro h
    rw [Nat.mod_eq_of_lt h, take_length]

/-- Nothing of the prunable part is lost exactly if the number of proofs fits its 32 bits. -/
theorem RctSigPrunable.wireView_truncProofs_iff (type : UInt8) (p : RctSigPrunable) :
    p.truncProofs.wireView type = p.wireView type ↔ p.proofCount type < 2 ^ 32 := by
  have hlen : ∀ {α β : Type} (f : α → β) (l : List α),
      (l.take (l.length % 2 ^ 32)).map f = l.map f ↔ l.length < 2 ^ 32 := by
    intro α β f l
    have h := take_mod_eq_self_iff (n := 2 ^ 32) (by norm_num) (l.map f)
    rwa [length_map, ← map_take] at h
  by_cases hbp : isRctBulletproof type
  · have hnull : type ≠ rctTypeNull := by rintro rfl; cases hbp
    have hplus : ¬ isRctBulletproofPlus type := by
      intro h
      rw [show type = rctTypeBulletproofPlus from eq_of_beq h] at hbp
      cases hbp
    simp only [wireView, truncProofs, proofCount, if_neg hnull, if_pos hbp, if_neg hplus,
      RctSigPrunable.mk.injEq, true_and, and_true]
    exact hlen _ _
  · by_cases hplus : isRctBulletproofPlus type
    · have hnull : type ≠ rctTypeNull := by rintro rfl; cases hplus
      simp only [wireView, truncProofs, proofCount, if_neg hnull, if_neg hbp, if_pos hplus,
        RctSigPrunable.mk.injEq, true_and, and_true]
      exact hlen _ _
    · simp [wireView, truncProofs, proofCount, hbp, hplus]

end Hidering
