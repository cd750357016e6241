import Hidering.Account.Keys
import Hidering.Common.EncodeAddr
import Mathlib.Data.UInt

/-!
# The text of an address

A post-quantum address is written as a tagged string (`encode_addr`) of 1282 bytes: a marker, the
version of its authorisation factor, the two Ed25519 keys, the ML-KEM key and the authorisation
commitment. The tag is 62, which is also the tag of a classic subaddress on the main network. The
marker fixes the second letter: the first block of Base58 starts with the tag, the marker and the
version, and the number that it stands for lies in the range of `BQ` whatever follows.

`get_account_address_from_str` knows both kinds. Under the tag that the two share it tells them
apart by the size of the data, and hands the longer one to `get_account_address_from_str_pq`, so on
the main network (and on a fake chain, which has the same tags) it accepts every string that the
latter accepts. On the other networks 62 is the tag of nothing.

The old format of addresses, a hexadecimal dump of the object in memory, is read in the layout of
`boost::optional`: a flag in front of the value.

## Main definitions

* `Hidering.getAccountAddressAsStrPq`, `Hidering.getAccountAddressFromStrPq`
* `Hidering.getAccountAddressFromStr`

## Main results

* `Hidering.take_two_bq` — the first two letters, from the number of the first block
* `Hidering.getAccountAddressFromStr_of_pq`
* `Hidering.bq_address_text`
-/

namespace Hidering

open Wire Base58 Crypto List

/-! ### Networks -/

/-- `network_type`. -/
inductive NetworkType where
  | mainnet
  | testnet
  | stagenet
  | fakechain
  | undefined
deriving DecidableEq, Repr

/-- The tags of the three kinds of classic addresses. -/
structure AddressPrefixes where
  address : UInt64
  integrated : UInt64
  subaddress : UInt64

/-- The tags in `get_config(nettype)`, which throws for an undefined network. -/
def getConfig : NetworkType → Option AddressPrefixes
  | .mainnet => some ⟨60, 61, 62⟩
  | .testnet => some ⟨53, 54, 63⟩
  | .stagenet => some ⟨24, 25, 36⟩
  | .fakechain => some ⟨60, 61, 62⟩
  | .undefined => none

/-- `CRYPTONOTE_PQ_ADDRESS_PREFIX`. -/
def cryptonotePqAddressTag : UInt64 := 62
/-- `CRYPTONOTE_PQ_ADDRESS_MARKER`. -/
def cryptonotePqAddressMarker : UInt8 := 0x33
/-- `CRYPTONOTE_PQ_SUBADDRESS_MARKER`. -/
def cryptonotePqSubaddressMarker : UInt8 := 0x35
/-- `PQ_ADDRESS_PAYLOAD_SIZE`. -/
def pqAddressPayloadSize : ℕ := 1 + 1 + 2 * 32 + mlKem768PublicKeyBytes + 32

variable (c : Crypto)

/-! ### Post-quantum addresses -/

/-- `get_account_address_as_str_pq`; the network is not used. -/
def getAccountAddressAsStrPq (_nettype : NetworkType) (adr : AccountPublicAddress)
    (subaddress : Bool) : Bytes :=
  match adr.pqKyberPk, adr.pqAuthCommit with
  | some kyberPk, some authCommit =>
    let marker := if subaddress then cryptonotePqSubaddressMarker else cryptonotePqAddressMarker
    encodeAddr c cryptonotePqAddressTag ([marker, adr.pqAuthVer] ++ adr.spendPublicKey.bytes ++
      adr.viewPublicKey.bytes ++ kyberPk.bytes ++ authCommit.bytes)
  | _, _ => []

/-- `get_account_address_from_str_pq`: the address, and whether it is a subaddress. -/
def getAccountAddressFromStrPq (str : Bytes) : Option (AccountPublicAddress × Bool) :=
  (decodeAddr c str).bind fun (tag, data) =>
    if tag ≠ cryptonotePqAddressTag then none
    else if data.length ≠ pqAddressPayloadSize then none
    else
      let marker := data.getD 0 0
      if marker ≠ cryptonotePqAddressMarker ∧ marker ≠ cryptonotePqSubaddressMarker then none
      else
        let authVer := data.getD 1 0
        if authVer ≠ cryptonotePqAddressAuthVer then none
        else
          let out : AccountPublicAddress :=
            { spendPublicKey := .ofList 32 (data.drop 2)
              viewPublicKey := .ofList 32 (data.drop 34)
              pqKyberPk := some (.ofList mlKem768PublicKeyBytes (data.drop 66))
              pqAuthCommit := some (.ofList 32 (data.drop 1250))
              pqAuthVer := authVer }
          if !c.checkKey out.spendPublicKey || !c.checkKey out.viewPublicKey then none
          else some (out, marker == cryptonotePqSubaddressMarker)

/-! ### All addresses -/

/-- `address_parse_info`. -/
structure AddressParseInfo where
  address : AccountPublicAddress
  isSubaddress : Bool
  hasPaymentId : Bool
  /-- not written unless there is one -/
  paymentId : Blob 8 := default
deriving DecidableEq

/-- `sizeof(public_address_outer_blob)`. -/
def publicAddressOuterBlobSize : ℕ := 1 + (2 * 32 + (1 + mlKem768PublicKeyBytes) + (1 + 32) + 1) + 1

/-- The value of a hexadecimal digit. -/
def hexDigit (ch : UInt8) : Option UInt8 :=
  if 48 ≤ ch ∧ ch ≤ 57 then some (ch - 48)
  else if 97 ≤ ch ∧ ch ≤ 102 then some (ch - 87)
  else if 65 ≤ ch ∧ ch ≤ 70 then some (ch - 55)
  else none

/-- `parse_hexstr_to_binbuff`. -/
def parseHexstrToBinbuff : Bytes → Option Bytes
  | [] => some []
  | [_] => none
  | hi :: lo :: rest =>
    (hexDigit hi).bind fun h => (hexDigit lo).bind fun l =>
      (parseHexstrToBinbuff rest).map fun bs => ((h <<< 4) ||| l) :: bs

/-- An object that is present if the byte before it says so. -/
def optionalAt (n : ℕ) (buff : Bytes) : Option (Blob n) :=
  if buff.getD 0 0 = 0 then none else some (.ofList n (buff.drop 1))

/-- The old format of an address. -/
def oldAddressFromStr (str : Bytes) : Option AddressParseInfo :=
  (parseHexstrToBinbuff str).bind fun buff =>
    if buff.length ≠ publicAddressOuterBlobSize then none
    -- CRYPTONOTE_PUBLIC_ADDRESS_TEXTBLOB_VER
    else if 0 < buff.getD 0 0 then none
    -- get_account_address_checksum
    else if buff.getLastD 0 ≠ buff.dropLast.sum then none
    else some
      { address :=
          { spendPublicKey := .ofList 32 (buff.drop 1)
            viewPublicKey := .ofList 32 (buff.drop 33)
            pqKyberPk := optionalAt mlKem768PublicKeyBytes (buff.drop 65)
            pqAuthCommit := optionalAt 32 (buff.drop 1250)
            pqAuthVer := buff.getD 1283 0 }
        isSubaddress := false
        hasPaymentId := false }

/-- The keys of a classic address, and its payment id if it is an integrated one. -/
def classicAddressFromData (isSubaddress hasPaymentId : Bool) (data : Bytes) :
    Option AddressParseInfo :=
  let parsed : Option AddressParseInfo :=
    if hasPaymentId then
      (((Format.blob 32).seq ((Format.blob 32).seq (Format.blob 8))).parse .lenient data).map
        fun r => ⟨⟨r.1, r.2.1, none, none, 0⟩, isSubaddress, hasPaymentId, r.2.2⟩
    else
      (((Format.blob 32).seq (Format.blob 32)).parse .lenient data).map
        fun r => ⟨⟨r.1, r.2, none, none, 0⟩, isSubaddress, hasPaymentId, default⟩
  parsed.filter fun info =>
    c.checkKey info.address.spendPublicKey && c.checkKey info.address.viewPublicKey

/-- `get_account_address_from_str`. -/
def getAccountAddressFromStr (nettype : NetworkType) (str : Bytes) : Option AddressParseInfo :=
  (getConfig nettype).bind fun config =>
    if 2 * publicAddressOuterBlobSize ≠ str.length then
      (decodeAddr c str).bind fun (tag, data) =>
        if config.integrated = tag then classicAddressFromData c false true data
        else if config.address = tag then classicAddressFromData c false false data
        else if config.subaddress = tag then
          if data.length = pqAddressPayloadSize then
            (getAccountAddressFromStrPq c str).map fun r =>
              { address := r.1, isSubaddress := r.2, hasPaymentId := false }
          else if data.length ≠ 2 * 32 then none
          else classicAddressFromData c true false data
        else none
    else oldAddressFromStr str

/-! ### What is written is read back -/

theorem ofList_append {n : ℕ} (b : Blob n) (rest : Bytes) : Blob.ofList n (b.bytes ++ rest) = b :=
  Blob.ext_bytes (by
    change ((b.bytes ++ rest) ++ replicate n 0).take n = b.bytes
    rw [append_assoc]
    exact take_left' b.length_bytes)

/-- The address with the given components; its authorisation version is the only one there is. -/
def bqAddress (spend view : PublicKey) (kyberPk : Blob mlKem768PublicKeyBytes)
    (authCommit : Hash) : AccountPublicAddress :=
  ⟨spend, view, some kyberPk, some authCommit, cryptonotePqAddressAuthVer⟩

section Payload

variable {c} (spend view : PublicKey) (kyberPk : Blob mlKem768PublicKeyBytes) (authCommit : Hash)
  (subaddress : Bool)

/-- The data of an address. -/
def bqPayload : Bytes :=
  [if subaddress then cryptonotePqSubaddressMarker else cryptonotePqAddressMarker,
    cryptonotePqAddressAuthVer] ++ spend.bytes ++ view.bytes ++ kyberPk.bytes ++ authCommit.bytes

theorem getAccountAddressAsStrPq_bqAddress (nettype : NetworkType) :
    getAccountAddressAsStrPq c nettype (bqAddress spend view kyberPk authCommit) subaddress =
      encodeAddr c cryptonotePqAddressTag (bqPayload spend view kyberPk authCommit subaddress) :=
  rfl

theorem length_bqPayload :
    (bqPayload spend view kyberPk authCommit subaddress).length = pqAddressPayloadSize := by
  simp only [bqPayload, length_append, spend.length_bytes, view.length_bytes,
    kyberPk.length_bytes, authCommit.length_bytes]
  rfl

/-- The number of the first block lies between those of the least and of the greatest block with
its three first bytes. -/
theorem bq_first_block (rest : Bytes) (hrest : 5 ≤ rest.length) :
    beNat (([62, if subaddress then cryptonotePqSubaddressMarker else cryptonotePqAddressMarker,
      cryptonotePqAddressAuthVer] ++ rest).take fullBlockSize) / 58 ^ 9 = 603 := by
  have htake : ∀ x : Bytes, x.length = 3 → (x ++ rest).take fullBlockSize = x ++ rest.take 5 :=
    fun x hx => by
      rw [fullBlockSize, take_append, hx, take_of_length_le (by omega)]
  have hlt := beNat_lt (rest.take 5)
  have hlen : (rest.take 5).length = 5 := by rw [length_take]; omega
  rw [hlen] at hlt
  rw [htake _ rfl, beNat_append, hlen]
  have hmarked : beNat [62, if subaddress then cryptonotePqSubaddressMarker
      else cryptonotePqAddressMarker, cryptonotePqAddressAuthVer] =
      if subaddress then 4076801 else 4076289 := by
    cases subaddress <;> rfl
  rw [hmarked]
  split <;> omega

/-- Every address starts with `BQ`. -/
theorem take_two_bq (nettype : NetworkType) :
    (getAccountAddressAsStrPq c nettype (bqAddress spend view kyberPk authCommit)
      subaddress).take 2 = [0x42, 0x51] := by
  have hbuf : ∀ checksum : Bytes, writeVarint 9 cryptonotePqAddressTag.toNat ++
      bqPayload spend view kyberPk authCommit subaddress ++ checksum =
      [62, if subaddress then cryptonotePqSubaddressMarker else cryptonotePqAddressMarker,
        cryptonotePqAddressAuthVer] ++
        (spend.bytes ++ (view.bytes ++ (kyberPk.bytes ++ (authCommit.bytes ++ checksum)))) := by
    intro checksum
    rw [show writeVarint 9 cryptonotePqAddressTag.toNat = [62] by decide, bqPayload]
    simp only [append_assoc, cons_append, nil_append]
  have hspend := spend.length_bytes
  rw [getAccountAddressAsStrPq_bqAddress, encodeAddr, hbuf,
    take_two_encode (by simp [fullBlockSize]; omega)]
  simp only
  rw [bq_first_block _ _ (by rw [length_append]; omega)]
  decide

theorem drop_bqPayload :
    let payload := bqPayload spend view kyberPk authCommit subaddress
    payload.drop 2 = spend.bytes ++ (view.bytes ++ (kyberPk.bytes ++ authCommit.bytes)) ∧
      payload.drop 34 = view.bytes ++ (kyberPk.bytes ++ authCommit.bytes) ∧
      payload.drop 66 = kyberPk.bytes ++ authCommit.bytes ∧
      payload.drop 1250 = authCommit.bytes := by
  intro payload
  have h₁ : payload.drop 2 =
      spend.bytes ++ (view.bytes ++ (kyberPk.bytes ++ authCommit.bytes)) := by
    simp [payload, bqPayload]
  have h₂ : payload.drop 34 = view.bytes ++ (kyberPk.bytes ++ authCommit.bytes) := by
    rw [show 34 = 2 + 32 from rfl, ← drop_drop, h₁, drop_left' spend.length_bytes]
  have h₃ : payload.drop 66 = kyberPk.bytes ++ authCommit.bytes := by
    rw [show 66 = 34 + 32 from rfl, ← drop_drop, h₂, drop_left' view.length_bytes]
  have h₄ : payload.drop 1250 = authCommit.bytes := by
    rw [show 1250 = 66 + 1184 from rfl, ← drop_drop, h₃,
      drop_left' kyberPk.length_bytes]
  exact ⟨h₁, h₂, h₃, h₄⟩

theorem getAccountAddressFromStrPq_bqAddress (nettype : NetworkType) :
    getAccountAddressFromStrPq c (getAccountAddressAsStrPq c nettype
      (bqAddress spend view kyberPk authCommit) subaddress) =
      if c.checkKey spend && c.checkKey view then
        some (bqAddress spend view kyberPk authCommit, subaddress)
      else none := by
  obtain ⟨h₁, h₂, h₃, h₄⟩ := drop_bqPayload spend view kyberPk authCommit subaddress
  have hlen := length_bqPayload spend view kyberPk authCommit subaddress
  have hlast : Blob.ofList 32 authCommit.bytes = authCommit := by
    simpa using ofList_append authCommit []
  have hmarker : (bqPayload spend view kyberPk authCommit subaddress).getD 0 0 =
      if subaddress then cryptonotePqSubaddressMarker else cryptonotePqAddressMarker := rfl
  have hver : (bqPayload spend view kyberPk authCommit subaddress).getD 1 0 =
      cryptonotePqAddressAuthVer := rfl
  rw [getAccountAddressAsStrPq_bqAddress, getAccountAddressFromStrPq, decodeAddr_encodeAddr,
    Option.bind_some]
  simp only [hlen, hmarker, hver, h₁, h₂, h₃, h₄, ofList_append, hlast, ne_eq, not_true_eq_false,
    if_false]
  rw [if_neg (by cases subaddress <;> decide)]
  cases c.checkKey spend <;> cases c.checkKey view <;> cases subaddress <;> rfl

end Payload

/-! ### Both parsers -/

variable {c}

/-- What `get_account_address_from_str_pq` accepts is what it would be written as, so its length
is known. -/
theorem of_getAccountAddressFromStrPq {str : Bytes} {r : AccountPublicAddress × Bool}
    (h : getAccountAddressFromStrPq c str = some r) :
    ∃ data, decodeAddr c str = some (cryptonotePqAddressTag, data) ∧
      data.length = pqAddressPayloadSize ∧ str.length = 1770 := by
  obtain ⟨⟨tag, data⟩, hdecode, h⟩ := Option.bind_eq_some_iff.mp h
  obtain ⟨htag, h⟩ := (Option.ite_none_left_eq_some ..).mp h
  obtain ⟨hlen, -⟩ := (Option.ite_none_left_eq_some ..).mp h
  rw [not_not] at htag hlen
  subst htag
  refine ⟨data, hdecode, hlen, ?_⟩
  obtain ⟨payload, v, -, rfl, hread, hv⟩ := decodeAddr_eq_some_iff.mp hdecode
  have hv62 : v = 62 := by
    have := congrArg UInt64.toNat hv
    rw [UInt64.toNat_ofNat', Nat.mod_eq_of_lt (readVarint_lt hread)] at this
    exact this.symm
  rcases readVarintAux_lenient hread with hstrict | ⟨rfl, -⟩
  · have hpayload := writeVarint_of_readVarint (k := 9) (by norm_num) hstrict
    rw [hv62, show writeVarint 9 62 = [62] by decide] at hpayload
    refine length_encode (k := 160) (r := 7) ?_ (by decide)
    rw [length_append, length_addrChecksum, hpayload, length_append, hlen]
    rfl
  · cases hlen

/-- A string that `get_account_address_from_str_pq` accepts is an address for
`get_account_address_from_str`, with the same result, on the networks on which 62 is a tag, and
on no other one. -/
theorem getAccountAddressFromStr_of_pq {str : Bytes} {adr : AccountPublicAddress} {sub : Bool}
    (h : getAccountAddressFromStrPq c str = some (adr, sub)) (nettype : NetworkType) :
    getAccountAddressFromStr c nettype str =
      if nettype = .mainnet ∨ nettype = .fakechain then
        some { address := adr, isSubaddress := sub, hasPaymentId := false }
      else none := by
  obtain ⟨data, hdecode, hlen, hstr⟩ := of_getAccountAddressFromStrPq h
  have hnew : 2 * publicAddressOuterBlobSize ≠ str.length := by
    rw [hstr]
    decide
  rw [getAccountAddressFromStr]
  cases nettype <;>
    simp [getConfig, hnew, hdecode, hlen, h, cryptonotePqAddressTag]

/-- **The text of a post-quantum address.** It starts with `BQ`, and it is read back as it was
exactly if both Ed25519 keys are points of the curve. What the parser of these addresses accepts,
the parser of all addresses accepts with the same result on the main network and on a fake chain,
and on no other network. -/
theorem bq_address_text (c : Crypto) :
    (∀ (nettype : NetworkType) (spend view : PublicKey) (kyberPk : Blob mlKem768PublicKeyBytes)
      (authCommit : Hash) (subaddress : Bool),
      let adr := bqAddress spend view kyberPk authCommit
      let str := getAccountAddressAsStrPq c nettype adr subaddress
      str.take 2 = [0x42, 0x51] ∧
        getAccountAddressFromStrPq c str =
          if c.checkKey spend && c.checkKey view then some (adr, subaddress) else none) ∧
    ∀ (str : Bytes) (adr : AccountPublicAddress) (sub : Bool),
      getAccountAddressFromStrPq c str = some (adr, sub) → ∀ nettype,
        getAccountAddressFromStr c nettype str =
          if nettype = .mainnet ∨ nettype = .fakechain then
            some { address := adr, isSubaddress := sub, hasPaymentId := false }
          else none :=
  ⟨fun nettype spend view kyberPk authCommit subaddress =>
    ⟨take_two_bq spend view kyberPk authCommit subaddress nettype,
      getAccountAddressFromStrPq_bqAddress spend view kyberPk authCommit subaddress nettype⟩,
    fun _ _ _ h nettype => getAccountAddressFromStr_of_pq h nettype⟩

/-- A subaddress of zeros, on the main network and on the test network. -/
theorem bq_address_text_zero :
    ∃ str adr, getAccountAddressFromStrPq transparent str = some (adr, true) ∧
      getAccountAddressFromStr transparent .mainnet str =
        some { address := adr, isSubaddress := true, hasPaymentId := false } ∧
      getAccountAddressFromStr transparent .testnet str = none := by
  have htext := bq_address_text transparent
  have hparse := (htext.1 .mainnet default default default default true).2
  exact ⟨_, _, hparse, htext.2 _ _ _ hparse .mainnet, htext.2 _ _ _ hparse .testnet⟩

/-- A string that both parsers accept. -/
theorem bq_accepted_by_both :
    ∃ str, (getAccountAddressFromStrPq transparent str).isSome ∧
      (getAccountAddressFromStr transparent .mainnet str).isSome := by
  have hparse := @getAccountAddressFromStrPq_bqAddress transparent default default default
    default false .mainnet
  have hmain := getAccountAddressFromStr_of_pq hparse .mainnet
  exact ⟨_, by rw [hparse]; rfl, by rw [hmain]; rfl⟩

end Hidering
