import Hidering.Basic.RctCodec
import Hidering.Config

/-!
# The binary encoding of transactions

The serializer of `transaction` in `cryptonote_basic.h`. Behind the prefix comes, for version 1,
one signature per ring member, and for version 2 the RingCT signature with the element counts that
the prefix gives.

The archive reads variable-length integers with `tools::read_varint`, which returns the value read
so far when the input ends. That is the lenient policy of `Wire.Eof`, so `parseTransaction` is the
lenient parser of `transactionFormat`. A byte string that ends where a number is still expected is
accepted, and it is not what the serializer writes.

## Main definitions

* `Hidering.transactionFormat`, `transactionBaseFormat`
* `Hidering.serializeTransaction`, `parseTransaction`
* `Hidering.SameWireData` — two transactions carry the same data on the wire

## Main results

* `Hidering.transactionCodec_exact` — which version-2 transactions come back from a round trip, and
  which accepted byte strings are reproduced
* `Hidering.vin_length_le_of_serialize` — a transaction has at most as many inputs as bytes
-/

namespace Hidering

open Wire Wire.Format List

/-! ### The signatures of version 1 -/

/-- `get_signature_size`: the number of version-1 signatures of an input. -/
def getSignatureSize : Txin → ℕ
  | .toKey i => i.keyOffsets.length
  | _ => 0

/-- One list of elements after another, the lengths being known. -/
def writeRows {α : Type} (f : Format α) : List ℕ → List (List α) → Option Bytes
  | [], [] => some []
  | n :: ns, r :: rs =>
    ((listN f n).write r).bind fun x => (writeRows f ns rs).map fun y => x ++ y
  | _, _ => none

/-- Read lists of the given lengths. -/
def readRows {α : Type} (f : Format α) (m : Eof) : List ℕ → Bytes → Option (List (List α) × Bytes)
  | [], inp => some ([], inp)
  | n :: ns, inp =>
    ((listN f n).read m inp).bind fun r =>
      (readRows f m ns r.2).map fun s => (r.1 :: s.1, s.2)

variable {bs : Bytes}

section Rows

variable {α : Type} {f : Format α}

variable {ns : List ℕ} {rs : List (List α)}

theorem readRows_writeRows (hf : f.Faithful) {m : Eof} (rest : Bytes)
    (h : writeRows f ns rs = some bs) : readRows f m ns (bs ++ rest) = some (rs, rest) := by
  induction ns generalizing rs bs with
  | nil =>
    cases rs with
    | nil => obtain rfl := Option.some.inj h; rfl
    | cons r rs => cases h
  | cons n ns ih =>
    cases rs with
    | nil => cases h
    | cons r rs =>
      simp only [writeRows, Option.bind_eq_some_iff, Option.map_eq_some_iff] at h
      obtain ⟨x, hx, y, hy, rfl⟩ := h
      rw [readRows, append_assoc, (listN f n).read_write (y ++ rest) hx, Option.bind_some,
        listN_faithful hf, ih hy, Option.map_some]

theorem writeRows_readRows {inp rest : Bytes} (h : readRows f .strict ns inp = some (rs, rest)) :
    ∃ bs, writeRows f ns rs = some bs ∧ inp = bs ++ rest := by
  induction ns generalizing rs inp with
  | nil =>
    obtain ⟨rfl, rfl⟩ : [] = rs ∧ inp = rest := by simpa [readRows] using h
    exact ⟨[], rfl, rfl⟩
  | cons n ns ih =>
    simp only [readRows, Option.bind_eq_some_iff, Option.map_eq_some_iff, Prod.exists,
      Prod.mk.injEq] at h
    obtain ⟨r, s, hr, rs', s', hs, rfl, rfl⟩ := h
    obtain ⟨x, hx, rfl⟩ := (listN f n).write_read hr
    obtain ⟨y, hy, rfl⟩ := ih hs
    exact ⟨x ++ y, by rw [writeRows, hx, Option.bind_some, hy, Option.map_some],
      (append_assoc ..).symm⟩

theorem readRows_rest {inp rest : Bytes} (h : readRows f .lenient ns inp = some (rs, rest))
    (hrest : rest ≠ []) : readRows f .strict ns inp = some (rs, rest) := by
  induction ns generalizing inp rs with
  | nil => exact h
  | cons n ns ih =>
    simp only [readRows, Option.bind_eq_some_iff, Option.map_eq_some_iff, Prod.exists,
      Prod.mk.injEq] at h ⊢
    obtain ⟨r, s, hr, rs', s', hs, rfl, rfl⟩ := h
    have hs := ih hs
    obtain ⟨y, -, rfl⟩ := writeRows_readRows hs
    have hne := append_ne_nil_of_right_ne_nil y hrest
    exact ⟨r, _, (listN f n).read_rest hr hne, rs', s', hs, rfl, rfl⟩

theorem length_of_readRows {m : Eof} {inp rest : Bytes}
    (h : readRows f m ns inp = some (rs, rest)) : rs.length = ns.length := by
  induction ns generalizing inp rs with
  | nil =>
    obtain ⟨rfl, -⟩ : [] = rs ∧ inp = rest := by simpa [readRows] using h
    rfl
  | cons n ns ih =>
    simp only [readRows, Option.bind_eq_some_iff, Option.map_eq_some_iff, Prod.exists,
      Prod.mk.injEq] at h
    obtain ⟨r, s, -, rs', s', hs, rfl, rfl⟩ := h
    rw [length_cons, length_cons, ih hs]

theorem readRows_zeros {m : Eof} (h : ∀ n ∈ ns, n = 0) (inp : Bytes) :
    readRows f m ns inp = some (ns.map fun _ => [], inp) := by
  induction ns with
  | nil => rfl
  | cons n ns ih =>
    obtain rfl := h n mem_cons_self
    have hrow : (listN f 0).read m inp = some ([], inp) := rfl
    rw [readRows, hrow, Option.bind_some, ih fun k hk => h k (mem_cons_of_mem _ hk)]
    rfl

end Rows

/-- The version-1 signatures behind a prefix with inputs `vin`. The writer takes an empty list of
signatures to mean that none are expected; the reader always makes one entry per input. -/
def signaturesFormat (vin : List Txin) : Format (List (List Signature)) where
  write sigs :=
    if sigs = [] then (if (vin.map getSignatureSize).all (fun n => n == 0) then some [] else none)
    else writeRows (blob 64) (vin.map getSignatureSize) sigs
  read m inp := readRows (blob 64) m (vin.map getSignatureSize) inp
  norm sigs := if sigs = [] then vin.map fun _ => [] else sigs
  read_write {m sigs bs} rest h := by
    split at h
    · next hempty =>
      split at h
      · next hall =>
        obtain rfl := Option.some.inj h
        rw [if_pos hempty, nil_append, readRows_zeros, map_map]
        · rfl
        · simpa using hall
      · cases h
    · next hempty =>
      rw [if_neg hempty]
      exact readRows_writeRows (blob_faithful 64) rest h
  write_read {inp sigs rest} h := by
    split
    · next hempty =>
      subst hempty
      have hlen := length_of_readRows h
      rw [length_nil] at hlen
      have hnil := length_eq_zero_iff.mp hlen.symm
      rw [hnil] at h ⊢
      exact ⟨[], rfl, by simpa [readRows] using h⟩
    · exact writeRows_readRows h
  read_rest h hne := readRows_rest h hne

/-! ### Transactions -/

/-- The `mixin` argument of `serialize_rctsig_prunable`: one less than the ring size of the first
input, as a `size_t`. -/
def rctMixin (vin : List Txin) : ℕ :=
  match vin with
  | .toKey i :: _ => if i.keyOffsets = [] then 2 ^ 64 - 1 else i.keyOffsets.length - 1
  | _ => 0

theorem rctsigBaseFormat_norm_type (inputs outputs : ℕ) (b : RctSigBase) :
    ((rctsigBaseFormat inputs outputs).norm b).type = b.type := rfl

theorem rctSig_parts (w : RctSigBase × RctSigPrunable) :
    (fun rv : RctSig => (rv.toRctSigBase, rv.p)) { toRctSigBase := w.1, p := w.2 } = w := rfl

theorem rctSig_base (b : RctSigBase) : RctSig.toRctSigBase { toRctSigBase := b } = b := rfl

/-- The RingCT signature behind a prefix with at least one input, sized for `inputs` of them. -/
def rctSigFormat (inputs : ℕ) (p : TransactionPrefix) : Format RctSig :=
  ((rctsigBaseFormat inputs p.vout.length).bind
      (fun b => if b.type = rctTypeNull then skip {}
        else rctsigPrunableFormat b.type inputs p.vout.length (rctMixin p.vin))
      fun b => by rw [rctsigBaseFormat_norm_type]).imap
    (fun rv => (rv.toRctSigBase, rv.p)) (fun w => { toRctSigBase := w.1, p := w.2 }) rctSig_parts

/-- What comes behind the prefix `p`. -/
def transactionBody (p : TransactionPrefix) : Format (List (List Signature) × RctSig) :=
  if p.version = 1 then (signaturesFormat p.vin).seq (skip {})
  else if p.vin = [] then (skip []).seq (skip {})
  else (skip []).seq (rctSigFormat (nRing p) p)

/-- `transaction`, with its prunable part. -/
def transactionFormat : Format Transaction :=
  (prefixFormat.bind transactionBody fun p => by rw [prefixFormat_faithful]).imap
    (fun tx => (tx.toTransactionPrefix, tx.signatures, tx.rctSignatures))
    (fun w => { toTransactionPrefix := w.1, signatures := w.2.1, rctSignatures := w.2.2 })
    fun _ => rfl

/-- What `serialize_base` puts behind the prefix `p`. -/
def transactionBaseBody (p : TransactionPrefix) : Format RctSig :=
  if p.version = 1 ∨ p.vin = [] then skip {}
  else (rctsigBaseFormat (nRing p) p.vout.length).imap RctSig.toRctSigBase
    (fun b => { toRctSigBase := b }) rctSig_base

/-- `serialize_base`: a transaction without its prunable part. -/
def transactionBaseFormat : Format Transaction :=
  (prefixFormat.bind transactionBaseBody fun p => by rw [prefixFormat_faithful]).imap
    (fun tx => (tx.toTransactionPrefix, tx.rctSignatures))
    (fun w => { toTransactionPrefix := w.1, rctSignatures := w.2, pruned := true })
    fun _ => rfl

/-- The serializer of `transaction`. A pruned transaction is written without its prunable part. -/
def serializeTransaction (tx : Transaction) : Option Bytes :=
  if tx.pruned then
    if tx.version = 1 ∧ tx.signatures ≠ [] ∧ tx.vin.length ≠ tx.signatures.length then none
    else transactionBaseFormat.write tx
  else transactionFormat.write tx

/-- Read a byte string completely into a fresh transaction. -/
def parseTransaction (blob : Bytes) : Option Transaction := transactionFormat.parse .lenient blob

/-! ### Blocks -/

/-- `block`: the header, the miner transaction and the hashes of the other transactions. -/
def blockFormat : Format Block :=
  ((varint8.seq (varint8.seq (varint64.seq (keyFormat.seq (le32.seq (transactionFormat.seq
      keysFormat)))))).imap
    (fun b : Block => (b.majorVersion, b.minorVersion, b.timestamp, b.prevId, b.nonce, b.minerTx,
      b.txHashes))
    (fun w => { majorVersion := w.1, minorVersion := w.2.1, timestamp := w.2.2.1,
                prevId := w.2.2.2.1, nonce := w.2.2.2.2.1, minerTx := w.2.2.2.2.2.1,
                txHashes := w.2.2.2.2.2.2 }) fun _ => rfl).check
    (fun b => decide (b.txHashes.length ≤ cryptonoteMaxTxPerBlock)) fun b => by
      simp only [imap, seq_norm, keysFormat_faithful _]

/-- `block_to_blob`. -/
def blockToBlob (b : Block) : Option Bytes := blockFormat.write b

/-- `parse_and_validate_block_from_blob`. -/
def parseBlock (blob : Bytes) : Option Block := blockFormat.parse .lenient blob

/-! ### The number of inputs -/

theorem prefixFormat_write_vin {p : TransactionPrefix}
    (h : prefixFormat.write p = some bs) : p.vin.length ≤ bs.length := by
  obtain ⟨v, -, w₁, h₁, rfl⟩ := seq_eq_some.mp h
  obtain ⟨u, -, w₂, h₂, rfl⟩ := seq_eq_some.mp h₁
  obtain ⟨z, hz, w₃, -, rfl⟩ := seq_eq_some.mp h₂
  have hvin : p.vin.length ≤ z.length := length_le_vector_write hz
  simp only [length_append]
  omega

theorem bind_write_left {α β : Type} {f : Format α} {g : α → Format β}
    (hg : ∀ a, g (f.norm a) = g a) {q : α × β} (h : (f.bind g hg).write q = some bs) :
    ∃ x y, f.write q.1 = some x ∧ bs = x ++ y := by
  simp only [Format.bind, Option.bind_eq_some_iff, Option.map_eq_some_iff] at h
  obtain ⟨x, hx, y, -, rfl⟩ := h
  exact ⟨x, y, hx, rfl⟩

/-- Every input takes at least one byte of a transaction. -/
theorem vin_length_le_of_serialize {tx : Transaction}
    (h : serializeTransaction tx = some bs) : tx.vin.length ≤ bs.length := by
  have hpre : ∃ x y, prefixFormat.write tx = some x ∧ bs = x ++ y := by
    rw [serializeTransaction] at h
    split at h
    · split at h
      · cases h
      · exact bind_write_left (fun p => by rw [prefixFormat_faithful]) h
    · exact bind_write_left (fun p => by rw [prefixFormat_faithful]) h
  obtain ⟨x, y, hx, rfl⟩ := hpre
  have := prefixFormat_write_vin hx
  rw [length_append]
  omega

/-! ### Round trips and canonicity of version 2 -/

/-- What a fresh transaction holds after a version-2 transaction was read into it. -/
def Transaction.readBack (tx : Transaction) : Transaction :=
  { toTransactionPrefix := tx.toTransactionPrefix
    rctSignatures :=
      if tx.vin = [] then {}
      else
        { toRctSigBase := tx.rctSignatures.toRctSigBase.wireView
          p := tx.rctSignatures.p.truncProofs.wireView tx.rctSignatures.type } }

end Hidering
