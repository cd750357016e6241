import Hidering.Wallet.Detect

/-!
# Building the inputs of a transaction

The part of `construct_tx_with_tx_key` that turns a source into an input. A post-quantum source
becomes a `txin_to_key_pq`: the tweak is taken off the output key, the one-time secret of what is
left is found as for a ring input, and the tweak is added again. The input is signed later, with the
identity key of the subaddress and with the one-time secret, when the rest of the transaction is
known.

## Main definitions

* `Hidering.buildPqInput`, `signPqInput`
-/

namespace Hidering

open Wire

/-- `pq_input_signing_material`. -/
structure PqInputSigningMaterial where
  realOutputKey : PublicKey
  identity : PqDilithiumKeys
  ownerSk : SecretKey

section Build

variable (c : StealthCrypto) (keys : AccountKeys) (subaddresses : SubaddressTable)

/-- The one-time secret of a tweaked output, if it has the key of the output. -/
def ownerSecret (src : TxSourceEntry) (ss : KyberSharedSecret) (realOutKey : PublicKey) :
    Option SecretKey :=
  (deriveBqOutputTweak c ss src.realOutputInTxIndex.toNat).bind fun tweak =>
    (untweak c realOutKey tweak).bind fun untweaked =>
      (generateKeyImageHelper c keys subaddresses untweaked src.realOutTxKey
        src.realOutAdditionalTxKeys src.realOutputInTxIndex.toNat).bind fun r =>
        let ownerSk := c.scAdd r.1.sec tweak
        if c.scalarmultBase ownerSk = realOutKey then some ownerSk else none

/-- The input of a post-quantum source, with its signatures still zero, and what it will be signed
with. -/
def buildPqInput (src : TxSourceEntry) : Option (TxinToKeyPq × PqInputSigningMaterial) :=
  src.outputs[src.realOutput]?.bind fun out =>
    src.pqSs.bind fun ss =>
      (ownerSecret c keys subaddresses src ss out.2.dest).bind fun ownerSk =>
        src.pqSubaddr.bind fun subaddr =>
          (generatePqIdentityKeys c keys subaddr).map fun identity =>
            ({ amount := src.amount
               spentOutputIndex := out.1
               realOutputKey := out.2.dest
               mask := src.mask
               ownerSig := default
               authType := pqAuthTypeMldsa65
               authBlind := c.pqcComputeAuthBlind ss src.realOutputInTxIndex.toNat
               auth := ⟨identity.dilithiumPk, default⟩ },
             ⟨out.2.dest, identity, ownerSk⟩)

/-- The two signatures of an input over the message. -/
def signPqInput (message : Hash) (coins : Blob 32 × Blob 32) (i : TxinToKeyPq)
    (mat : PqInputSigningMaterial) : Option TxinToKeyPq :=
  (c.pqcTxSign message { mat.identity with dilithiumPk := i.auth.pk } coins.1).map fun sig =>
    { i with
      auth := { i.auth with sig := sig }
      ownerSig := c.generateSignature message i.realOutputKey mat.ownerSk coins.2 }

end Build

/-- Signatures verify: those of the identity keys of the account, and those of a one-time key. -/
structure StealthCrypto.SignatureCorrect (c : StealthCrypto) (keys : AccountKeys) : Prop where
  auth : ∀ {index id}, generatePqIdentityKeys c keys index = some id →
    ∀ message coins, ∃ sig, c.pqcTxSign message id coins = some sig ∧
      c.pqcTxVerify message ⟨id.dilithiumPk, sig⟩ = true
  owner : ∀ {sec}, c.scCheck sec = true → ∀ message coins,
    c.checkSignature message (c.scalarmultBase sec)
      (c.generateSignature message (c.scalarmultBase sec) sec coins) = true

end Hidering
