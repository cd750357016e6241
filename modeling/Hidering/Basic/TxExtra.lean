import Hidering.Basic.FormatUtils

/-!
# The extra field of a transaction

`tx_extra_field` and `parse_tx_extra`: the extra field of a transaction is a sequence of tagged
fields, read until the end of the buffer. The padding field is greedy: it takes all the bytes that
are left, which must be zeros.

## Main definitions

* `Hidering.TxExtraField`
* `Hidering.parseTxExtra`
* `Hidering.checkPqOutputFieldIndices`
-/

namespace Hidering

open Wire Wire.Format

/-- `TX_EXTRA_PADDING_MAX_COUNT`. -/
abbrev txExtraPaddingMaxCount : ℕ := 2500
/-- `TX_EXTRA_NONCE_MAX_COUNT`. -/
abbrev txExtraNonceMaxCount : ℕ := 255
/-- `ML_KEM_768_CIPHERTEXT_BYTES`. -/
abbrev mlKem768CiphertextBytes : ℕ := 1088

/-- `tx_extra_field`. -/
inductive TxExtraField where
  /-- `tx_extra_padding`, with its size including the tag -/
  | padding (size : ℕ)
  | pubKey (key : PublicKey)
  | nonce (nonce : Bytes)
  | mergeMiningTag (depth : UInt64) (merkleRoot : Hash)
  | additionalPubKeys (data : List PublicKey)
  | mysteriousMinergate (data : Bytes)
  | pqSig (sig : PqTxSig)
  | kyberCt (outputIndex : UInt64) (selTag : Blob 8) (ct : Blob mlKem768CiphertextBytes)
  | pqBind (outputIndex : UInt64) (bindTag : Hash)
deriving DecidableEq, Inhabited

/-- `tx_extra_padding`: all that is left, up to the maximal size, must be zeros. -/
def readPadding (inp : Bytes) : Option (TxExtraField × Bytes) :=
  if inp.all (fun b => b == 0) ∧ inp.length < txExtraPaddingMaxCount then
    some (.padding (inp.length + 1), [])
  else none

/-- `tx_extra_nonce`. -/
def readNonce (inp : Bytes) : Option (TxExtraField × Bytes) :=
  (bytesFormat.read .lenient inp).bind fun r =>
    if txExtraNonceMaxCount < r.1.length then none else some (.nonce r.1, r.2)

/-- `tx_extra_merge_mining_tag`: a string that holds the depth and the root, and nothing else. -/
def readMergeMiningTag (inp : Bytes) : Option (TxExtraField × Bytes) :=
  (bytesFormat.read .lenient inp).bind fun r =>
    ((varint64.seq keyFormat).parse .lenient r.1).map fun h => (.mergeMiningTag h.1 h.2, r.2)

/-- The layout of `tx_extra_kyber_ct`. -/
def kyberCtFormat : Format (UInt64 × Blob 8 × Blob mlKem768CiphertextBytes) :=
  varint64.seq ((blob 8).seq (blob mlKem768CiphertextBytes))

/-- The layout of `tx_extra_pq_bind`. -/
def pqBindFormat : Format (UInt64 × Hash) := varint64.seq keyFormat

/-- Read one field: a tag and, behind it, what the tag says. -/
def readTxExtraField : Bytes → Option (TxExtraField × Bytes)
  | [] => none
  | tag :: inp =>
    if tag = 0x00 then readPadding inp
    else if tag = 0x01 then (keyFormat.read .lenient inp).map fun r => (.pubKey r.1, r.2)
    else if tag = 0x02 then readNonce inp
    else if tag = 0x03 then readMergeMiningTag inp
    else if tag = 0x04 then
      (keysFormat.read .lenient inp).map fun r => (.additionalPubKeys r.1, r.2)
    else if tag = 0xde then
      (bytesFormat.read .lenient inp).map fun r => (.mysteriousMinergate r.1, r.2)
    else if tag = 0x06 then (authFormat.read .lenient inp).map fun r => (.pqSig r.1, r.2)
    else if tag = 0x07 then
      (kyberCtFormat.read .lenient inp).map fun r => (.kyberCt r.1.1 r.1.2.1 r.1.2.2, r.2)
    else if tag = 0x08 then
      (pqBindFormat.read .lenient inp).map fun r => (.pqBind r.1.1 r.1.2, r.2)
    else none

/-- The loop of `parse_tx_extra`. Every field takes at least its tag, so the length of the buffer
bounds the number of rounds. -/
def readTxExtraFields : ℕ → Bytes → Option (List TxExtraField)
  | 0, inp => if inp = [] then some [] else none
  | fuel + 1, inp =>
    (readTxExtraField inp).bind fun r =>
      if r.2 = [] then some [r.1]
      else (readTxExtraFields fuel r.2).map fun fs => r.1 :: fs

/-- `parse_tx_extra`. -/
def parseTxExtra (extra : Bytes) : Option (List TxExtraField) :=
  if extra = [] then some [] else readTxExtraFields extra.length extra

/-- The output indices of the ML-KEM ciphertexts. -/
def kyberCtIndices (fields : List TxExtraField) : List UInt64 :=
  fields.filterMap fun
    | .kyberCt i _ _ => some i
    | _ => none

/-- The output indices of the binding tags. -/
def pqBindIndices (fields : List TxExtraField) : List UInt64 :=
  fields.filterMap fun
    | .pqBind i _ => some i
    | _ => none

/-- `check_pq_output_field_indices`: both kinds of field name outputs of the transaction, each at
most once, and they name the same outputs. -/
def checkPqOutputFieldIndices (fields : List TxExtraField) (nOutputs : ℕ) : Bool :=
  let cts := kyberCtIndices fields
  let binds := pqBindIndices fields
  (cts.all fun i => i.toNat < nOutputs) && (binds.all fun i => i.toNat < nOutputs) &&
    decide cts.Nodup && decide binds.Nodup &&
    (cts.all fun i => binds.contains i) && (binds.all fun i => cts.contains i)

/-- The binding tag of output `outputIndex`: the first field that names it. -/
def findPqBind (fields : List TxExtraField) (outputIndex : UInt64) : Option Hash :=
  fields.findSome? fun
    | .pqBind i t => if i = outputIndex then some t else none
    | _ => none

end Hidering
