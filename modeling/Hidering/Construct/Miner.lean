import Hidering.Account.Stealth
import Hidering.Basic.TxExtraSort
import Hidering.Chain.Reward

/-!
# Building the miner transaction

`construct_miner_tx`, and the extra nonce that it puts into the extra field.

`add_extra_nonce_to_tx_extra` writes the length of the nonce as one byte, while `parse_tx_extra`
reads a number of variable length there. From 128 bytes on the two disagree: the length byte
announces another one, and what is read is not the length. Such a nonce cannot be read back, and
`construct_miner_tx` refuses it when it sorts the extra field. A nonce also cannot be read back
behind a field that is cut off by the end of the buffer, since it then becomes the rest of that
field.

## Main definitions

* `Hidering.addExtraNonceToTxExtra`
* `Hidering.decomposeAmountIntoDigits`, `Hidering.constructMinerTx`

## Main results

* `Hidering.extraNonce_readable_iff`
-/

namespace Hidering

open Wire Wire.Format Machine Store List

/-! ### The extra field -/

/-- `add_tx_pub_key_to_extra`. -/
def addTxPubKeyToExtra (extra : Bytes) (txPubKey : PublicKey) : Bytes :=
  extra ++ 0x01 :: txPubKey.bytes

/-- `add_extra_nonce_to_tx_extra`: the length is written as one byte. -/
def addExtraNonceToTxExtra (extra extraNonce : Bytes) : Option Bytes :=
  if txExtraNonceMaxCount < extraNonce.length then none
  else some (extra ++ 0x02 :: UInt8.ofNat extraNonce.length :: extraNonce)

/-! ### Amounts -/

/-- The loop of `decompose_amount_into_digits` for what is left of an amount of at most `fuel`
digits, as the list of the amounts that are handed out. -/
def decomposeLoop (dustThreshold : UInt64) : ℕ → UInt64 → UInt64 → UInt64 → Bool → List UInt64
  | 0, _, _, _, _ => []
  | fuel + 1, amount, order, dust, isDustHandled =>
    let rest := if !isDustHandled && dust ≠ 0 then [dust] else []
    if amount = 0 then rest
    else
      let chunk := amount % 10 * order
      if dust + chunk ≤ dustThreshold then
        decomposeLoop dustThreshold fuel (amount / 10) (order * 10) (dust + chunk) isDustHandled
      else
        rest ++ (if chunk ≠ 0 then [chunk] else []) ++
          decomposeLoop dustThreshold fuel (amount / 10) (order * 10) dust
            (isDustHandled || dust ≠ 0)

/-- `decompose_amount_into_digits`, for a caller that collects chunks and dust in one list; an
amount has at most 20 digits. -/
def decomposeAmountIntoDigits (amount dustThreshold : UInt64) : List UInt64 :=
  decomposeLoop dustThreshold 21 amount 1 0 false

/-- The loop that merges the first amount into the second while there are too many, with the first
one and the others. -/
def mergeFirst (maxOuts : ℕ) : UInt64 → List UInt64 → List UInt64
  | a, [] => [a]
  | a, b :: rest =>
    if maxOuts < rest.length + 2 then mergeFirst maxOuts (b + a) rest else a :: b :: rest

/-- The amounts, merged to at most `maxOuts`. -/
def mergeOutAmounts (maxOuts : ℕ) : List UInt64 → List UInt64
  | [] => []
  | a :: rest => mergeFirst maxOuts a rest

/-! ### The transaction -/

/-- The arguments of `construct_miner_tx` besides the extra nonce, and the keys it generates. -/
structure MinerTxArgs where
  height : ℕ
  medianWeight : UInt64
  alreadyGeneratedCoins : UInt64
  currentBlockWeight : UInt64
  fee : UInt64
  minerAddress : AccountPublicAddress
  maxOuts : ℕ
  hardForkVersion : UInt8
  /-- `txkey` -/
  txKeySec : SecretKey
  txKeyPub : PublicKey

/-- The extra field: the public key and the extra nonce, sorted. -/
def minerTxExtra (args : MinerTxArgs) (extraNonce : Bytes) : Option Bytes :=
  let extra := addTxPubKeyToExtra [] args.txKeyPub
  (if extraNonce = [] then some extra else addExtraNonceToTxExtra extra extraNonce).bind
    fun extra => sortTxExtra extra false

/-- What is paid out: the reward and the fees, cut off at versions 2 and 3. -/
def minerTxAmount (args : MinerTxArgs) : Option UInt64 :=
  (getBlockReward wrapping args.medianWeight args.currentBlockWeight args.alreadyGeneratedCoins
    args.hardForkVersion : Option UInt64).map fun reward =>
      let reward := reward + args.fee
      if 2 ≤ args.hardForkVersion ∧ args.hardForkVersion < 4 then
        reward - reward % baseRewardClampThreshold
      else reward

/-- The amounts of the outputs. -/
def minerTxAmounts (args : MinerTxArgs) (blockReward : UInt64) : Option (List UInt64) :=
  let outAmounts := decomposeAmountIntoDigits blockReward
    (if 2 ≤ args.hardForkVersion then 0 else defaultDustThreshold)
  if args.maxOuts < 1 then none
  -- the first block was not decomposed
  else if args.height = 0 ∨ 4 ≤ args.hardForkVersion then
    some (mergeOutAmounts args.maxOuts outAmounts)
  else if args.maxOuts < outAmounts.length then none
  else some outAmounts

/-- The output with the given index. -/
def minerTxOut (c : StealthCrypto) (args : MinerTxArgs) (amount : UInt64) (no : ℕ) : Option TxOut :=
  (generateKeyDerivation c args.minerAddress.viewPublicKey args.txKeySec).bind fun derivation =>
    (derivePublicKey c derivation no args.minerAddress.spendPublicKey).map fun key =>
      ⟨amount, if hfVersionViewTags ≤ args.hardForkVersion
        then .toTaggedKey ⟨key, c.deriveViewTag derivation no⟩ else .toKey key⟩

/-- `construct_miner_tx`, behind the extra field. -/
def minerTxBody (c : StealthCrypto) (args : MinerTxArgs) : Option (List TxOut) :=
  (minerTxAmount args).bind fun blockReward =>
    (minerTxAmounts args blockReward).bind fun outAmounts =>
      (outAmounts.zipIdx.mapM fun a => minerTxOut c args a.1 a.2).bind fun vout =>
        if Machine.sum outAmounts = blockReward then some vout else none

/-- `construct_miner_tx`. -/
def constructMinerTx (c : StealthCrypto) (args : MinerTxArgs) (extraNonce : Bytes) :
    Option Transaction :=
  (minerTxExtra args extraNonce).bind fun extra =>
    (minerTxBody c args).map fun vout =>
      { version := if 4 ≤ args.hardForkVersion then 2 else 1
        unlockTime := UInt64.ofNat (args.height + cryptonoteMinedMoneyUnlockWindow)
        vin := [.gen (UInt64.ofNat args.height)]
        vout := vout
        extra := extra }

/-! ### Reading the nonce back -/

section Nonce

variable {extra nonce : Bytes} {fields : List TxExtraField}

theorem writeTxExtraField_nonce_eq (hmax : nonce.length ≤ txExtraNonceMaxCount) :
    writeTxExtraField (.nonce nonce) = some (0x02 :: (writeVarint 9 nonce.length ++ nonce)) := by
  have hlen : nonce.length < 2 ^ 64 := Nat.lt_of_le_of_lt hmax (by decide)
  have hbytes : bytesFormat.write nonce = some (writeVarint 9 nonce.length ++ nonce) :=
    vector_byte_write hlen
  rw [writeTxExtraField, if_neg (Nat.not_lt.mpr hmax), hbytes]
  rfl

/-- The one byte is the number that the reader expects, if it is below 128. -/
theorem writeTxExtraField_nonce (hlen : nonce.length < 128) :
    writeTxExtraField (.nonce nonce) = some (0x02 :: UInt8.ofNat nonce.length :: nonce) := by
  rw [writeTxExtraField_nonce_eq (Nat.le_trans hlen.le (by decide)), writeVarint_of_lt hlen]
  rfl

/-- With the nonce behind it no field is cut off. -/
theorem endsWhole_nonce (x : Bytes) :
    EndsWhole (x ++ 0x02 :: UInt8.ofNat nonce.length :: nonce) (fields ++ [.nonce nonce]) := by
  intro f hf hempty
  obtain rfl : TxExtraField.nonce nonce = f := by simpa using hf
  obtain rfl : nonce = [] := List.isEmpty_iff.mp hempty
  simp

/-- A nonce of 128 bytes or more is written with a length of two bytes, the first of which is not
the tag of a nonce. -/
theorem length_lt_of_write {x : Bytes} (hmax : nonce.length ≤ txExtraNonceMaxCount) {y : Bytes}
    (hy : writeTxExtraField (.nonce nonce) = some y)
    (heq : x ++ y = extra ++ 0x02 :: UInt8.ofNat nonce.length :: nonce) :
    nonce.length < 128 ∧ x = extra := by
  rcases Nat.lt_or_ge nonce.length 128 with hlt | hge
  · rw [writeTxExtraField_nonce hlt, Option.some_inj] at hy
    subst hy
    exact ⟨hlt, append_cancel_right heq⟩
  · -- the first byte of the length would be a tag
    have hhigh : nonce.length / 128 < 128 :=
      Nat.div_lt_of_lt_mul (Nat.lt_of_le_of_lt hmax (by decide))
    have hlow : writeVarint 9 nonce.length =
        [UInt8.ofNat (nonce.length % 128 + 128), UInt8.ofNat (nonce.length / 128)] := by
      rw [writeVarint, if_neg (by omega), writeVarint_of_lt hhigh]
    rw [writeTxExtraField_nonce_eq hmax, Option.some_inj, hlow] at hy
    subst hy
    have hcut : (x ++ [0x02]) ++ [UInt8.ofNat (nonce.length % 128 + 128)] = extra ++ [0x02] := by
      have happ : ((x ++ [0x02]) ++ [UInt8.ofNat (nonce.length % 128 + 128)]) ++
          (UInt8.ofNat (nonce.length / 128) :: nonce) =
            (extra ++ [0x02]) ++ (UInt8.ofNat nonce.length :: nonce) := by simpa using heq
      exact (append_inj' happ rfl).1
    have hbyte := (append_inj' hcut rfl).2
    have hnat := congrArg UInt8.toNat (singleton_inj.mp hbyte)
    rw [toNat_ofNat_lt (by omega)] at hnat
    change _ = 2 at hnat
    omega

/-- **One nonce.** What `add_extra_nonce_to_tx_extra` appends is read back exactly if the nonce is
shorter than 128 bytes and nothing before it is cut off. -/
theorem parse_addExtraNonce_iff (h : parseTxExtra extra = some fields)
    (hpad : ∀ f, fields.getLast? = some f → f.isPadding = false)
    (hmax : nonce.length ≤ txExtraNonceMaxCount) :
    (∃ extra', addExtraNonceToTxExtra extra nonce = some extra' ∧
      parseTxExtra extra' = some (fields ++ [.nonce nonce])) ↔
        nonce.length < 128 ∧ EndsWhole extra fields := by
  have hcanonical := writeTxExtra_of_parse_iff h
  rw [addExtraNonceToTxExtra, if_neg (Nat.not_lt.mpr hmax)]
  constructor
  · rintro ⟨extra', hextra, hparse⟩
    obtain rfl := Option.some.inj hextra
    have hwrite := (writeTxExtra_of_parse_iff hparse).mpr (endsWhole_nonce extra)
    obtain ⟨x, hx, y, hy, heq⟩ := writeTxExtra_append_eq_some.mp hwrite
    obtain ⟨hlen, rfl⟩ := length_lt_of_write hmax (writeTxExtra_singleton.mp hy) heq
    exact ⟨hlen, hcanonical.mp hx⟩
  · rintro ⟨hlen, hwhole⟩
    refine ⟨_, rfl, ?_⟩
    obtain ⟨hfits, hlast⟩ := parseTxExtra_shape h
    refine parseTxExtra_write ?_ ?_ (writeTxExtra_append_eq_some.mpr
      ⟨_, hcanonical.mpr hwhole, _, writeTxExtra_singleton.mpr (writeTxExtraField_nonce hlen), rfl⟩)
    · intro f hf
      rcases mem_append.mp hf with hf | hf
      · exact hfits f hf
      · rw [mem_singleton.mp hf]
        exact hmax
    · rw [dropLast_concat]
      intro f hf
      by_cases hne : fields = []
      · rw [hne] at hf
        cases hf
      · rw [← dropLast_append_getLast hne] at hf
        rcases mem_append.mp hf with hf | hf
        · exact hlast f hf
        · rw [mem_singleton.mp hf]
          exact hpad _ (getLast?_eq_some_getLast hne)

theorem parse_addTxPubKeyToExtra (key : PublicKey) :
    parseTxExtra (addTxPubKeyToExtra [] key) = some [.pubKey key] :=
  parseTxExtra_write (fun f hf => by rw [mem_singleton.mp hf]; trivial)
    (fun f hf => by cases hf) (writeTxExtra_singleton.mpr rfl)

/-- What is read can be sorted. -/
theorem sortTxExtra_isSome (h : parseTxExtra extra = some fields) :
    (sortTxExtra extra false).isSome := by
  obtain ⟨out, hout⟩ := writeTxExtra_isSome
    (show ∀ f ∈ byKind TxExtraField.kind txExtraOrder fields, f.Fits from fun f hf =>
      (parseTxExtra_shape h).1 f (mem_byKind.mp hf).1)
  rw [sortTxExtra_of_parse h, hout]
  rfl

/-- The miner transaction with a short nonce has an extra field. -/
theorem minerTxExtra_isSome (args : MinerTxArgs) (hlen : nonce.length < 128) :
    (minerTxExtra args nonce).isSome := by
  have hkey := parse_addTxPubKeyToExtra args.txKeyPub
  rw [minerTxExtra]
  by_cases hnil : nonce = []
  · rw [if_pos hnil, Option.bind_some]
    exact sortTxExtra_isSome hkey
  · obtain ⟨extra', hadd, hparse⟩ := (parse_addExtraNonce_iff hkey
      (by simp [TxExtraField.isPadding]) (Nat.le_trans hlen.le (by decide))).mpr
        ⟨hlen, by simp [EndsWhole, TxExtraField.isEmptyVector]⟩
    rw [if_neg hnil, hadd, Option.bind_some]
    exact sortTxExtra_isSome hparse

theorem constructMinerTx_isSome {c : StealthCrypto} {args : MinerTxArgs} :
    (constructMinerTx c args nonce).isSome ↔
      (minerTxExtra args nonce).isSome ∧ (minerTxBody c args).isSome := by
  rw [constructMinerTx]
  cases minerTxExtra args nonce with
  | none => simp
  | some extra => simp

/-- **The extra nonce.** Appended to an extra field that is accepted and does not end in padding, a
nonce of permitted length is read back behind the fields, and the miner transaction that can be
built without it can be built with it, exactly if the nonce is shorter than 128 bytes and the last
field in front of it is not cut off. -/
theorem extraNonce_readable_iff (extra nonce : Bytes) (fields : List TxExtraField)
    (h : parseTxExtra extra = some fields)
    (hpad : ∀ f, fields.getLast? = some f → f.isPadding = false)
    (hmax : nonce.length ≤ txExtraNonceMaxCount) :
    ((∃ extra', addExtraNonceToTxExtra extra nonce = some extra' ∧
        parseTxExtra extra' = some (fields ++ [.nonce nonce])) ∧
      ∀ (c : StealthCrypto) (args : MinerTxArgs), (constructMinerTx c args []).isSome →
        (constructMinerTx c args nonce).isSome) ↔
      nonce.length < 128 ∧ EndsWhole extra fields := by
  rw [parse_addExtraNonce_iff h hpad hmax]
  refine and_iff_left_of_imp fun hshort c args hnil => ?_
  rw [constructMinerTx_isSome] at hnil ⊢
  exact ⟨minerTxExtra_isSome args hshort.1, hnil.2⟩

end Nonce

/-- The arguments at height 1 of version 16, with keys of zeroes. -/
def MinerTxArgs.sample : MinerTxArgs where
  height := 1
  medianWeight := 300000
  alreadyGeneratedCoins := 1000000000000
  currentBlockWeight := 0
  fee := 0
  minerAddress := { spendPublicKey := default, viewPublicKey := default }
  maxOuts := 1
  hardForkVersion := 16
  txKeySec := default
  txKeyPub := default

/-- A nonce of 128 bytes, behind an empty extra field and in a miner transaction. -/
theorem extraNonce_long_unreadable :
    parseTxExtra [] = some [] ∧
      addExtraNonceToTxExtra [] (replicate 128 0) = some (0x02 :: 0x80 :: replicate 128 0) ∧
      parseTxExtra (0x02 :: 0x80 :: replicate 128 0) = none ∧
      (constructMinerTx StealthCrypto.transparent .sample []).isSome ∧
      constructMinerTx StealthCrypto.transparent .sample (replicate 128 0) = none := by
  decide +kernel

/-- A nonce of two bytes, behind a nonce of one byte. -/
theorem extraNonce_readable_short :
    ((∃ extra', addExtraNonceToTxExtra [0x02, 0x01, 0x07] [8, 9] = some extra' ∧
        parseTxExtra extra' = some [.nonce [7], .nonce [8, 9]]) ∧
      ∀ (c : StealthCrypto) (args : MinerTxArgs), (constructMinerTx c args []).isSome →
        (constructMinerTx c args [8, 9]).isSome) :=
  (extraNonce_readable_iff [0x02, 0x01, 0x07] [8, 9] [.nonce [7]] (by decide)
    (by simp [TxExtraField.isPadding]) (by decide)).mpr
      ⟨by decide, by simp [EndsWhole, TxExtraField.isEmptyVector]⟩

end Hidering
