import Hidering.Account.Keys
import Hidering.Basic.FormatUtils
import Hidering.Basic.TxExtra

/-!
# Data of a wallet

The records that the wallet keeps about its outputs and hands to the construction of transactions,
and the fields of a transaction's extra that it looks up. The wallet reads an extra that cannot be
parsed to its end as far as it goes.

## Main definitions

* `Hidering.SubaddressIndex`, `Hidering.TransferDetails`
* `Hidering.TxSourceEntry`, `Hidering.TxDestinationEntry`
* `Hidering.scanTxExtra` — the fields of an extra up to the first that cannot be read
* `Hidering.getTxPubKeyFromExtra`, `Hidering.getAdditionalTxPubKeysFromExtra`
-/

namespace Hidering

open Wire

/-! ### Records -/

/-- `kyber_ciphertext`. -/
abbrev KyberCiphertext := Blob mlKem768CiphertextBytes
/-- `kyber_shared_secret`. -/
abbrev KyberSharedSecret := Blob 32

/-- `subaddress_index`. -/
structure SubaddressIndex where
  major : UInt32
  minor : UInt32
deriving DecidableEq, Inhabited

/-- `is_zero`. -/
def SubaddressIndex.isZero (i : SubaddressIndex) : Bool := i.major == 0 && i.minor == 0

/-- `transfer_details`: an output of the wallet. The key image is that of a classic output, or the
image of the output key for a post-quantum one. -/
structure TransferDetails where
  blockHeight : ℕ
  tx : TransactionPrefix
  txid : Hash
  internalOutputIndex : UInt64
  globalOutputIndex : UInt64
  spent : Bool := false
  frozen : Bool := false
  spentHeight : ℕ := 0
  keyImage : KeyImage
  mask : Key
  amount : Amount
  rct : Bool
  keyImageKnown : Bool := true
  keyImageRequest : Bool := false
  pkIndex : ℕ := 0
  subaddrIndex : SubaddressIndex
  keyImagePartial : Bool := false
deriving DecidableEq

/-- `get_public_key`, which throws if the transaction has no such output. -/
def TransferDetails.getPublicKey (td : TransferDetails) : Option PublicKey :=
  td.tx.vout[td.internalOutputIndex.toNat]?.bind getOutputPublicKey

/-- `tx_source_entry`. -/
structure TxSourceEntry where
  outputs : List (UInt64 × CtKey) := []
  realOutput : ℕ := 0
  realOutTxKey : PublicKey := default
  realOutAdditionalTxKeys : List PublicKey := []
  realOutputInTxIndex : UInt64 := 0
  amount : Amount := 0
  rct : Bool := false
  mask : Key := default
  /-- the key image in `multisig_kLRki`, whose other parts are not used -/
  multisigKi : Key := default
  isPq : Bool := false
  pqSs : Option KyberSharedSecret := none
  pqCt : Option KyberCiphertext := none
  pqSubaddr : Option SubaddressIndex := none
deriving DecidableEq

/-- `tx_destination_entry`. -/
structure TxDestinationEntry where
  amount : Amount
  addr : AccountPublicAddress
  isSubaddress : Bool := false
  isIntegrated : Bool := false
  isPq : Bool := false
deriving DecidableEq

/-! ### Fields of the extra -/

/-- The loop of `parse_tx_extra` for callers that go on with the fields read before a failure. -/
def scanTxExtraFields : ℕ → Bytes → List TxExtraField
  | 0, _ => []
  | fuel + 1, inp =>
    match readTxExtraField inp with
    | none => []
    | some (field, rest) => if rest = [] then [field] else field :: scanTxExtraFields fuel rest

/-- The fields that `parse_tx_extra` leaves, whether it succeeds or not. -/
def scanTxExtra (extra : Bytes) : List TxExtraField :=
  if extra = [] then [] else scanTxExtraFields extra.length extra

/-- The public keys among the fields, in order. -/
def txPubKeys (fields : List TxExtraField) : List PublicKey :=
  fields.filterMap fun
    | .pubKey k => some k
    | _ => none

/-- `get_tx_pub_key_from_extra`: `null_pkey` if there is no such key. -/
def getTxPubKeyFromExtra (extra : Bytes) (pkIndex : ℕ) : PublicKey :=
  (txPubKeys (scanTxExtra extra))[pkIndex]?.getD default

/-- `get_additional_tx_pub_keys_from_extra`. -/
def getAdditionalTxPubKeysFromExtra (extra : Bytes) : List PublicKey :=
  ((scanTxExtra extra).findSome? fun
    | .additionalPubKeys ks => some ks
    | _ => none).getD []

end Hidering
