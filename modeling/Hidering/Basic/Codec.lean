import Hidering.Basic.Transaction
import Mathlib.Tactic.NormNum

/-!
# The binary encoding of transaction prefixes

The serializers of `cryptonote_basic.h` over the binary archive, for the inputs, the outputs and
the prefix of a transaction. In the source each of them is a template that is instantiated once for
writing and once for reading; here each is a `Wire.Format`, field by field in the order of the
source. Nothing of a prefix is left out on the wire (`prefixFormat_faithful`).

## Main definitions

* `Hidering.txinFormat`, `txOutFormat` — the two variant types with their tags
* `Hidering.prefixFormat`
-/

namespace Hidering

open Wire Wire.Format

/-! ### Inputs -/

/-- A 32-byte key, key image or hash. -/
def keyFormat : Format Key := blob 32

theorem keyFormat_faithful : keyFormat.Faithful := blob_faithful 32

theorem keyFormat_nonemptyCode : keyFormat.NonemptyCode := blob_nonemptyCode (by decide)

/-- `std::vector<uint8_t>`. -/
def bytesFormat : Format Bytes := vector byte byte_nonemptyCode

theorem bytesFormat_faithful : bytesFormat.Faithful := vector_faithful byte_faithful

/-- `std::vector` of keys. -/
def keysFormat : Format (List Key) := vector keyFormat keyFormat_nonemptyCode

theorem keysFormat_faithful : keysFormat.Faithful := vector_faithful keyFormat_faithful

/-- `txout_to_script`. -/
def txoutToScriptFormat : Format TxoutToScript :=
  (keysFormat.seq bytesFormat).imap (fun t => (t.keys, t.script)) (fun w => ⟨w.1, w.2⟩) fun _ => rfl

theorem txoutToScriptFormat_faithful : txoutToScriptFormat.Faithful :=
  imap_faithful (seq_faithful keysFormat_faithful bytesFormat_faithful) fun _ => rfl

/-- `txin_to_script`. -/
def txinToScriptFormat : Format TxinToScript :=
  (keyFormat.seq (varint64.seq bytesFormat)).imap (fun i => (i.prev, i.prevout, i.sigset))
    (fun w => ⟨w.1, w.2.1, w.2.2⟩) fun _ => rfl

/-- `txin_to_scripthash`. -/
def txinToScripthashFormat : Format TxinToScripthash :=
  (keyFormat.seq (varint64.seq (txoutToScriptFormat.seq bytesFormat))).imap
    (fun i => (i.prev, i.prevout, i.script, i.sigset))
    (fun w => ⟨w.1, w.2.1, w.2.2.1, w.2.2.2⟩) fun _ => rfl

/-- `txin_to_key`. -/
def txinToKeyFormat : Format TxinToKey :=
  (varint64.seq ((vector varint64 varint_nonemptyCode).seq keyFormat)).imap
    (fun i => (i.amount, i.keyOffsets, i.kImage)) (fun w => ⟨w.1, w.2.1, w.2.2⟩) fun _ => rfl

/-- The authorisation type, refused at parse unless it is known. -/
def authTypeFormat : Format UInt8 := varint8.check (fun t => t == pqAuthTypeMldsa65) fun _ => rfl

/-- The ML-DSA key and signature, serialized as one raw blob. -/
def authFormat : Format PqTxSig :=
  ((blob mlDsa65PublicKeyBytes).seq (blob mlDsa65SignatureBytes)).imap (fun a => (a.pk, a.sig))
    (fun w => ⟨w.1, w.2⟩) fun _ => rfl

/-- `txin_to_key_pq`. -/
def txinToKeyPqFormat : Format TxinToKeyPq :=
  (varint64.seq (varint64.seq (keyFormat.seq (keyFormat.seq ((blob 64).seq
      (authTypeFormat.seq (keyFormat.seq authFormat))))))).imap
    (fun i => (i.amount, i.spentOutputIndex, i.realOutputKey, i.mask, i.ownerSig, i.authType,
      i.authBlind, i.auth))
    (fun w => ⟨w.1, w.2.1, w.2.2.1, w.2.2.2.1, w.2.2.2.2.1, w.2.2.2.2.2.1, w.2.2.2.2.2.2.1,
      w.2.2.2.2.2.2.2⟩) fun _ => rfl

theorem txinToScriptFormat_faithful : txinToScriptFormat.Faithful :=
  imap_faithful (seq_faithful keyFormat_faithful
    (seq_faithful varint64_faithful bytesFormat_faithful)) fun _ => rfl

theorem txinToScripthashFormat_faithful : txinToScripthashFormat.Faithful :=
  imap_faithful (seq_faithful keyFormat_faithful (seq_faithful varint64_faithful
    (seq_faithful txoutToScriptFormat_faithful bytesFormat_faithful))) fun _ => rfl

theorem txinToKeyFormat_faithful : txinToKeyFormat.Faithful :=
  imap_faithful (seq_faithful varint64_faithful (seq_faithful (vector_faithful varint64_faithful)
    keyFormat_faithful)) fun _ => rfl

theorem txinToKeyPqFormat_faithful : txinToKeyPqFormat.Faithful := by
  have hauth : authFormat.Faithful :=
    imap_faithful (seq_faithful (blob_faithful _) (blob_faithful _)) fun _ => rfl
  have htype : authTypeFormat.Faithful := check_faithful varint8_faithful
  exact imap_faithful (seq_faithful varint64_faithful (seq_faithful varint64_faithful
    (seq_faithful keyFormat_faithful (seq_faithful keyFormat_faithful (seq_faithful
      (blob_faithful 64) (seq_faithful htype (seq_faithful keyFormat_faithful hauth)))))))
    fun _ => rfl

/-- The alternatives of `txin_v`, in the order and with the tags of the source. -/
def txinCases : List (Case Txin) :=
  [{ tag := 0xff, carrier := UInt64, fmt := varint64, inj := Txin.gen
     proj := fun | .gen h => some h | _ => none
     proj_inj := fun _ => rfl
     inj_of_proj := by rintro (_ | _ | _ | _ | _) b h <;> cases h; rfl },
   { tag := 0x0, carrier := TxinToScript, fmt := txinToScriptFormat, inj := Txin.toScript
     proj := fun | .toScript i => some i | _ => none
     proj_inj := fun _ => rfl
     inj_of_proj := by rintro (_ | _ | _ | _ | _) b h <;> cases h; rfl },
   { tag := 0x1, carrier := TxinToScripthash, fmt := txinToScripthashFormat
     inj := Txin.toScripthash
     proj := fun | .toScripthash i => some i | _ => none
     proj_inj := fun _ => rfl
     inj_of_proj := by rintro (_ | _ | _ | _ | _) b h <;> cases h; rfl },
   { tag := 0x2, carrier := TxinToKey, fmt := txinToKeyFormat, inj := Txin.toKey
     proj := Txin.toKey?
     proj_inj := fun _ => rfl
     inj_of_proj := by rintro (_ | _ | _ | _ | _) b h <;> cases h; rfl },
   { tag := 0x3, carrier := TxinToKeyPq, fmt := txinToKeyPqFormat, inj := Txin.toKeyPq
     proj := Txin.toKeyPq?
     proj_inj := fun _ => rfl
     inj_of_proj := by rintro (_ | _ | _ | _ | _) b h <;> cases h; rfl }]

/-- `txin_v`. -/
def txinFormat : Format Txin :=
  variant txinCases (by decide) (by simp [txinCases, Txin.toKey?])

theorem txinFormat_faithful : txinFormat.Faithful := by
  refine variant_faithful fun c hc => ?_
  simp only [txinCases, List.mem_cons, List.not_mem_nil, or_false] at hc
  rcases hc with rfl | rfl | rfl | rfl | rfl
  · exact varint64_faithful
  · exact txinToScriptFormat_faithful
  · exact txinToScripthashFormat_faithful
  · exact txinToKeyFormat_faithful
  · exact txinToKeyPqFormat_faithful

/-! ### Outputs and the prefix -/

/-- `txout_to_tagged_key`. -/
def txoutToTaggedKeyFormat : Format TxoutToTaggedKey :=
  (keyFormat.seq byte).imap (fun t => (t.key, t.viewTag)) (fun w => ⟨w.1, w.2⟩) fun _ => rfl

/-- The alternatives of `txout_target_v`. -/
def txoutTargetCases : List (Case TxoutTarget) :=
  [{ tag := 0x0, carrier := TxoutToScript, fmt := txoutToScriptFormat, inj := TxoutTarget.toScript
     proj := fun | .toScript t => some t | _ => none
     proj_inj := fun _ => rfl
     inj_of_proj := by rintro (_ | _ | _ | _) b h <;> cases h; rfl },
   { tag := 0x1, carrier := Hash, fmt := keyFormat, inj := TxoutTarget.toScripthash
     proj := fun | .toScripthash h => some h | _ => none
     proj_inj := fun _ => rfl
     inj_of_proj := by rintro (_ | _ | _ | _) b h <;> cases h; rfl },
   { tag := 0x2, carrier := PublicKey, fmt := keyFormat, inj := TxoutTarget.toKey
     proj := fun | .toKey k => some k | _ => none
     proj_inj := fun _ => rfl
     inj_of_proj := by rintro (_ | _ | _ | _) b h <;> cases h; rfl },
   { tag := 0x3, carrier := TxoutToTaggedKey, fmt := txoutToTaggedKeyFormat
     inj := TxoutTarget.toTaggedKey
     proj := fun | .toTaggedKey t => some t | _ => none
     proj_inj := fun _ => rfl
     inj_of_proj := by rintro (_ | _ | _ | _) b h <;> cases h; rfl }]

/-- `txout_target_v`. -/
def txoutTargetFormat : Format TxoutTarget :=
  variant txoutTargetCases (by decide) (by simp [txoutTargetCases])

/-- `tx_out`. -/
def txOutFormat : Format TxOut :=
  (varint64.seq txoutTargetFormat).imap (fun o => (o.amount, o.target)) (fun w => ⟨w.1, w.2⟩)
    fun _ => rfl

theorem txoutToTaggedKeyFormat_faithful : txoutToTaggedKeyFormat.Faithful :=
  imap_faithful (seq_faithful keyFormat_faithful byte_faithful) fun _ => rfl

theorem txOutFormat_faithful : txOutFormat.Faithful := by
  refine imap_faithful (seq_faithful varint64_faithful (variant_faithful fun c hc => ?_))
    fun _ => rfl
  simp only [txoutTargetCases, List.mem_cons, List.not_mem_nil, or_false] at hc
  rcases hc with rfl | rfl | rfl | rfl
  · exact txoutToScriptFormat_faithful
  · exact keyFormat_faithful
  · exact keyFormat_faithful
  · exact txoutToTaggedKeyFormat_faithful

theorem txOutFormat_nonemptyCode : txOutFormat.NonemptyCode :=
  imap_nonemptyCode (seq_nonemptyCode_left varint_nonemptyCode)

/-- `CURRENT_TRANSACTION_VERSION`. -/
abbrev currentTransactionVersion : UInt64 := 2

/-- The version field, refused unless it is between 1 and the current version. -/
def versionFormat : Format UInt64 :=
  varint64.check (fun v => !(v == 0 || decide (currentTransactionVersion < v))) fun _ => rfl

/-- `transaction_prefix`. -/
def prefixFormat : Format TransactionPrefix :=
  (versionFormat.seq (varint64.seq ((vector txinFormat variant_nonemptyCode).seq
      ((vector txOutFormat txOutFormat_nonemptyCode).seq bytesFormat)))).imap
    (fun p => (p.version, p.unlockTime, p.vin, p.vout, p.extra))
    (fun w => ⟨w.1, w.2.1, w.2.2.1, w.2.2.2.1, w.2.2.2.2⟩) fun _ => rfl

theorem prefixFormat_faithful : prefixFormat.Faithful :=
  imap_faithful (seq_faithful (check_faithful varint64_faithful) (seq_faithful varint64_faithful
    (seq_faithful (vector_faithful txinFormat_faithful) (seq_faithful
      (vector_faithful txOutFormat_faithful) bytesFormat_faithful)))) fun _ => rfl

end Hidering
