import Hidering.Basic.Crypto
import Hidering.Common.Base58
import Hidering.Wire.Cut

/-!
# Tagged strings with a checksum

`encode_addr` puts a tag in front of some data, as a variable-length integer, and the first four
bytes of a hash behind it, and writes the whole in Base58. `decode_addr` undoes this. Base58 is
canonical and the hash is that of everything before it, so an accepted string can differ from the
one that encodes its result only in the tag: `tools::read_varint` returns what it has when the input
ends inside a number, so a payload of continuation bytes only is read as a tag without data.

## Main definitions

* `Hidering.Base58.encodeAddr`, `Hidering.Base58.decodeAddr`
* `Hidering.Base58.addrPayload` — what stands before the checksum

## Main results

* `Hidering.Base58.decodeAddr_encodeAddr`
* `Hidering.Base58.addr_canonical_iff` — an accepted string is the one that encodes its result
  exactly if its tag ends before its checksum
-/

namespace Hidering

namespace Base58

open Wire Crypto List

variable (c : Crypto)

/-- `addr_checksum_size`. -/
def addrChecksumSize : ℕ := 4

/-- The checksum of a payload. -/
def addrChecksum (payload : Bytes) : Bytes := (c.cnFastHash payload).bytes.take addrChecksumSize

/-- `encode_addr`. -/
def encodeAddr (tag : UInt64) (data : Bytes) : Bytes :=
  let buf := writeVarint 9 tag.toNat ++ data
  encode (buf ++ addrChecksum c buf)

/-- `decode_addr`. `read_varint` reads at least one byte here: the payload is not empty. -/
def decodeAddr (addr : Bytes) : Option (UInt64 × Bytes) :=
  (decode addr).bind fun addrData =>
    if addrData.length ≤ addrChecksumSize then none
    else
      let checksum := addrData.drop (addrData.length - addrChecksumSize)
      let addrData := addrData.take (addrData.length - addrChecksumSize)
      if addrChecksum c addrData ≠ checksum then none
      else (readVarint 64 .lenient addrData).map fun r => (UInt64.ofNat r.1, r.2)

/-- The bytes of a string before its checksum. -/
def addrPayload (addr : Bytes) : Bytes :=
  let addrData := (decode addr).getD []
  addrData.take (addrData.length - addrChecksumSize)

variable {c}

theorem length_addrChecksum (payload : Bytes) :
    (addrChecksum c payload).length = addrChecksumSize := by
  rw [addrChecksum, length_take, (c.cnFastHash payload).length_bytes]
  rfl

/-- The strings that `decode_addr` accepts: a payload that is not empty, its checksum, and nothing
else. -/
theorem decodeAddr_eq_some_iff {addr data : Bytes} {tag : UInt64} :
    decodeAddr c addr = some (tag, data) ↔ ∃ payload v, payload ≠ [] ∧
      addr = encode (payload ++ addrChecksum c payload) ∧
      readVarint 64 .lenient payload = some (v, data) ∧ tag = UInt64.ofNat v := by
  constructor
  · intro h
    obtain ⟨addrData, hdecode, h⟩ := Option.bind_eq_some_iff.mp h
    obtain ⟨hlen, h⟩ := (Option.ite_none_left_eq_some ..).mp h
    obtain ⟨hsum, h⟩ := (Option.ite_none_left_eq_some ..).mp h
    obtain ⟨⟨v, data'⟩, hread, heq⟩ := Option.map_eq_some_iff.mp h
    obtain ⟨rfl, rfl⟩ := Prod.mk.injEq .. ▸ heq
    refine ⟨_, v, fun hnil => ?_, ?_, hread, rfl⟩
    · rcases take_eq_nil_iff.mp hnil with hzero | rfl
      · omega
      · exact hlen (Nat.zero_le _)
    · rw [not_not.mp hsum, take_append_drop]
      exact eq_encode_of_decode hdecode
  · rintro ⟨payload, v, hne, rfl, hread, rfl⟩
    have hlen := length_addrChecksum (c := c) payload
    have hpos := length_pos_iff.mpr hne
    have hcut : (payload ++ addrChecksum c payload).length - addrChecksumSize = payload.length := by
      rw [length_append, hlen, Nat.add_sub_cancel]
    rw [decodeAddr, decode_encode, Option.bind_some,
      if_neg (by rw [length_append, hlen]; omega), hcut, drop_left, take_left,
      if_neg (by simp), hread]
    rfl

theorem addrPayload_encode (payload : Bytes) :
    addrPayload (encode (payload ++ addrChecksum c payload)) = payload := by
  have hcut : (payload ++ addrChecksum c payload).length - addrChecksumSize = payload.length := by
    rw [length_append, length_addrChecksum, Nat.add_sub_cancel]
  rw [addrPayload, decode_encode, Option.getD_some, hcut, take_left]

/-- What was encoded is decoded again. -/
theorem decodeAddr_encodeAddr (tag : UInt64) (data : Bytes) :
    decodeAddr c (encodeAddr c tag data) = some (tag, data) := by
  have htag := tag.toNat_lt
  refine decodeAddr_eq_some_iff.mpr ⟨writeVarint 9 tag.toNat ++ data, tag.toNat, ?_, rfl, ?_, ?_⟩
  · exact fun hnil => writeVarint_ne_nil _ _ (append_eq_nil_iff.mp hnil).1
  · exact readVarint_writeVarint (lt_of_lt_of_le htag (by norm_num)) htag (by norm_num)
  · exact UInt64.ofNat_toNat.symm

/-- A payload is written again as it was exactly if its tag ends before it does. -/
theorem writeVarint_append_eq_iff {payload data : Bytes} {v : ℕ}
    (h : readVarint 64 .lenient payload = some (v, data)) :
    writeVarint 9 v ++ data = payload ↔ ∃ b ∈ payload, b < 0x80 := by
  have hv : v < 128 ^ (9 + 1) := lt_of_lt_of_le (readVarint_lt h) (by norm_num)
  constructor
  · intro heq
    obtain ⟨b, hb, hlt⟩ := exists_mem_writeVarint_lt hv
    exact ⟨b, heq ▸ mem_append_left data hb, UInt8.lt_iff_toNat_lt.mpr hlt⟩
  · rintro ⟨b, hb, hlt⟩
    rcases readVarintAux_lenient h with hstrict | ⟨-, hall⟩
    · exact (writeVarint_of_readVarint (by norm_num) hstrict).symm
    · exact absurd (hall b hb) (not_le.mpr (UInt8.lt_iff_toNat_lt.mp hlt))

theorem encode_injective : Function.Injective encode := fun a b h => by
  have := decode_encode a
  rw [h, decode_encode] at this
  exact (Option.some.inj this).symm

/-- **Canonical addresses.** A string that `decode_addr` accepts is the one that `encode_addr`
writes for its result exactly if the tag ends within the payload; and whatever is encoded is decoded
again. -/
theorem addr_canonical_iff {addr data : Bytes} {tag : UInt64}
    (h : decodeAddr c addr = some (tag, data)) :
    (encodeAddr c tag data = addr ↔ ∃ b ∈ addrPayload addr, b < 0x80) ∧
      ∀ tag' data', decodeAddr c (encodeAddr c tag' data') = some (tag', data') := by
  refine ⟨?_, decodeAddr_encodeAddr⟩
  obtain ⟨payload, v, -, rfl, hread, rfl⟩ := decodeAddr_eq_some_iff.mp h
  have hv : (UInt64.ofNat v).toNat = v := by
    rw [UInt64.toNat_ofNat', Nat.mod_eq_of_lt (readVarint_lt hread)]
  rw [addrPayload_encode, ← writeVarint_append_eq_iff hread, encodeAddr, hv,
    encode_injective.eq_iff]
  constructor
  · exact fun heq => (append_inj' heq (by simp only [length_addrChecksum])).1
  · exact fun heq => by rw [heq]

theorem addr_canonical_iff_tagged :
    decodeAddr transparent (encodeAddr transparent 62 [1]) = some (62, [1]) ∧
      ∃ b ∈ addrPayload (encodeAddr transparent 62 [1]), b < 0x80 :=
  have h := @decodeAddr_encodeAddr transparent 62 [1]
  ⟨h, (addr_canonical_iff h).1.mp rfl⟩

/-- A tag that is cut off by the checksum: it is read as 0, with no data behind it, but 0 is written
as another byte. -/
theorem truncated_tag_accepted :
    ∃ addr, decodeAddr transparent addr = some (0, []) ∧ encodeAddr transparent 0 [] ≠ addr := by
  refine ⟨encode ([0x80] ++ addrChecksum transparent [0x80]),
    decodeAddr_eq_some_iff.mpr ⟨[0x80], 0, by simp, rfl, by decide, rfl⟩, fun h => ?_⟩
  have heads := congrArg List.head? (encode_injective h)
  exact absurd heads (by decide)

end Base58

end Hidering
