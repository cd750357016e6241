import Hidering.Chain.Supply

/-!
# The limit on block weight

The weight of a block is compared with twice the median inside `get_block_reward`, behind two exits
that return a reward of 0. Once the emission has ended (`emissionEnd`), every block leaves through
one of them, and a block of any weight is accepted: already one with nothing but a miner
transaction without outputs and a long `extra`.

## Main definitions

* `Hidering.Blockchain.OnNetwork` — the fork state of a node on one of the networks
* `Hidering.idleBlock` — a block without transactions whose miner claims nothing
* `Hidering.Blockchain.Minable` — idle blocks of every size can be mined

## Main results

* `Hidering.Node.Passes.weight_le` — while a reward is left, the limit is enforced
* `Hidering.blockWeight_limited_iff` — when the limit is enforced
-/

namespace Hidering

open Wire Format Machine Store Crypto List

/-! ### Where the limit is enforced -/

/-- The forks of the chain are those of one of the networks, and the current one follows the height
of the chain. -/
structure Blockchain.OnNetwork (chain : Blockchain) : Prop where
  follows : chain.hardfork.Follows chain.db.height
  network : chain.hardfork.heights = mainnetHardForks ∨ chain.hardfork.heights = testnetHardForks

/-- A fork table whose second row has height 1: later versions are in force behind the first
block. -/
theorem ForkTable.le_versionAt {t : ForkTable} (h0 : (t.row 0).height = 0)
    (h1 : (t.row 1).height = 1) (hlen : 1 < t.rows.length) {height : ℕ} (h : 0 < height) :
    (t.row 1).version ≤ t.versionAt height := by
  have hindex : 1 ≤ t.indexAt height := (le_indexAt_iff h0 hlen).mpr (by rw [h1]; exact h)
  rw [versionAt]
  rcases hindex.eq_or_lt with heq | hlt
  · rw [← heq]
    exact UInt8.le_refl _
  · exact UInt8.le_of_lt (row_lt hlt (t.indexAt_lt height)).1

/-- Behind the first block every network has at least version 15. -/
theorem Blockchain.OnNetwork.fifteen_le {chain : Blockchain} (h : chain.OnNetwork)
    (hpos : 0 < chain.db.height) : 15 ≤ chain.hfVersion := by
  rw [Blockchain.hfVersion, h.follows.getCurrentVersion]
  rcases h.network with ht | ht
  · rw [ht]
    exact ForkTable.le_versionAt (t := mainnetHardForks) rfl rfl (by decide) hpos
  · rw [ht]
    exact ForkTable.le_versionAt (t := testnetHardForks) rfl rfl (by decide) hpos

/-- The height is behind the table of precomputed hashes. -/
def NodeParams.BeyondHashes (p : NodeParams) (height : ℕ) : Prop :=
  p.blocksHashCheck.length ≤ height

/-- Twice the larger one of the median of the chain and the full reward zone. -/
def Blockchain.weightLimit (chain : Blockchain) : ℕ :=
  2 * max chain.currentBlockCumulWeightMedian.toNat (getMinBlockWeight chain.hfVersion).toNat

/-- **The limit.** While a reward is left, an accepted block weighs at most twice the median. -/
theorem Node.Passes.weight_le {p : NodeParams} {c : Crypto} {now : UInt64} {node : Node} {b : Block}
    {extra : PoolSupplement} {r : Node.Processed} (h : node.Passes p c now b extra r)
    (hnet : node.chain.OnNetwork) (hpos : 0 < node.chain.db.height)
    (hcoins : node.chain.db.alreadyGeneratedCoins.toNat < emissionEnd) :
    r.weight.toNat ≤ node.chain.weightLimit := by
  have hversion : hfVersionExactCoinbase ≤ node.chain.hfVersion :=
    UInt8.le_trans (by decide) (hnet.fifteen_le hpos)
  exact weight_le_of_getBlockReward hcoins (h.reward hpos hversion).1

/-- The weight of the miner transaction and of the other transactions of a block. -/
def Node.Processed.totalWeight (r : Node.Processed) : ℕ :=
  r.coinbaseWeight + (r.gathered.txs.map TakenTx.weight).sum

/-- Behind the table of precomputed hashes the weight of a block is the sum of the weights of its
transactions, modulo `2 ^ 64`. -/
theorem Node.Passes.weight_eq {p : NodeParams} {c : Crypto} {now : UInt64} {node : Node} {b : Block}
    {extra : PoolSupplement} {r : Node.Processed} (h : node.Passes p c now b extra r)
    (hbeyond : p.BeyondHashes node.chain.db.height) : r.weight.toNat = r.totalWeight % 2 ^ 64 := by
  have hweighed := h.weighed
  rw [Blockchain.cumulativeBlockWeight, getElem?_eq_none hbeyond] at hweighed
  split at hweighed
  · cases hweighed
  · rw [← Option.some.inj hweighed]
    exact UInt64.toNat_ofNat'

/-! ### Idle blocks -/

/-- A miner transaction without outputs. -/
def idleTx (height : ℕ) (extra : Bytes) : Transaction :=
  { version := 2
    unlockTime := UInt64.ofNat (height + cryptonoteMinedMoneyUnlockWindow)
    vin := [.gen (UInt64.ofNat height)]
    vout := []
    extra := extra }

/-- A block without transactions on top of the chain, whose miner claims nothing. -/
def idleBlock (chain : Blockchain) (nonce : UInt32) (extra : Bytes) : Block where
  majorVersion := chain.hfVersion
  minorVersion := chain.hfVersion
  timestamp := median (lastTimestamps chain.db chain.db.height)
  prevId := chain.db.topBlockHash
  nonce := nonce
  minerTx := idleTx chain.db.height extra
  txHashes := []

/-- What stands in front of `extra`. -/
def idleHead (height : ℕ) : Bytes :=
  2 :: writeVarint 9 (UInt64.ofNat (height + cryptonoteMinedMoneyUnlockWindow)).toNat ++
    1 :: 0xff :: writeVarint 9 (UInt64.ofNat height).toNat ++ [0]

theorem serialize_idleTx {height : ℕ} {extra : Bytes} (h : extra.length < 2 ^ 64) :
    serializeTransaction (idleTx height extra) =
      some (idleHead height ++ (writeVarint 9 extra.length ++ extra) ++ [0]) := by
  have hextra : bytesFormat.write extra = some (writeVarint 9 extra.length ++ extra) :=
    vector_byte_write h
  have hvin : (vector txinFormat variant_nonemptyCode).write (idleTx height extra).vin =
      some (1 :: 0xff :: writeVarint 9 (UInt64.ofNat height).toNat) := by
    change some (1 :: 0xff :: (writeVarint 9 (UInt64.ofNat height).toNat ++ [])) = _
    rw [append_nil]
  have hpre : prefixFormat.write (idleTx height extra) =
      some (idleHead height ++ (writeVarint 9 extra.length ++ extra)) := by
    simp only [prefixFormat, imap, seq_eq_some]
    refine ⟨[2], rfl, _, ⟨_, rfl, _, ⟨_, hvin, _, ⟨[0], rfl, _, hextra, rfl⟩, rfl⟩, rfl⟩, ?_⟩
    simp only [idleHead, append_assoc, cons_append, nil_append]
    rfl
  have hbody : (transactionBody (idleTx height extra)).write
      ((idleTx height extra).signatures, (idleTx height extra).rctSignatures) = some [0] := rfl
  change transactionFormat.write (idleTx height extra) = _
  simp only [transactionFormat, imap, Format.bind, hpre, hbody, Option.bind_some, Option.map_some]

theorem length_idleHead_le (height : ℕ) : (idleHead height).length ≤ 24 := by
  have h₁ := length_writeVarint_le 9
    (UInt64.ofNat (height + cryptonoteMinedMoneyUnlockWindow)).toNat
  have h₂ := length_writeVarint_le 9 (UInt64.ofNat height).toNat
  simp only [idleHead, length_append, length_cons, length_nil]
  omega

section Idle

variable {c : Crypto} {p : NodeParams} {chain : Blockchain} {nonce : UInt32} {extra : Bytes}

theorem coinbaseWeight_idleBlock (h : extra.length < 2 ^ 64) :
    Blockchain.coinbaseWeight (idleBlock chain nonce extra) =
      some ((idleHead chain.db.height).length + (writeVarint 9 extra.length).length +
        extra.length + 1) := by
  have hsize : getTransactionBlobSize (idleTx chain.db.height extra) =
      (idleHead chain.db.height).length + (writeVarint 9 extra.length).length +
        extra.length + 1 := by
    rw [getTransactionBlobSize, serialize_idleTx h]
    simp only [Option.getD_some, length_append, length_cons, length_nil]
    omega
  rw [← hsize]
  rfl

theorem blockToBlob_idleBlock (h : extra.length < 2 ^ 64) :
    ∃ blob, blockToBlob (idleBlock chain nonce extra) = some blob := by
  have htx := @serialize_idleTx chain.db.height extra h
  change transactionFormat.write (idleBlock chain nonce extra).minerTx = _ at htx
  refine Option.isSome_iff_exists.mp ?_
  simp only [blockToBlob, blockFormat, Format.check, imap, idleBlock, length_nil, Nat.zero_le,
    decide_true, if_true, isSome_seq]
  refine ⟨rfl, rfl, rfl, rfl, rfl, ?_, rfl⟩
  rw [idleBlock] at htx
  rw [htx]
  rfl

theorem validateMinerTransaction_idle {weight coins median lastMedian : UInt64} {version : UInt8}
    {height : ℕ} (hversion : hfVersionExactCoinbase ≤ version)
    (hcoins : emissionEnd ≤ coins.toNat) :
    validateMinerTransaction (idleTx height extra) weight 0 coins version median
      lastMedian = some (0, false) := by
  have hreward := getBlockReward_of_emitted hcoins
  have h3 : version ≠ 3 := by
    rintro rfl
    exact absurd hversion (by decide)
  simp only [validateMinerTransaction, h3, false_and, if_false, hreward, hversion, or_true,
    if_true]
  rfl

theorem prevalidateMinerTransaction_idle {height : ℕ} {version : UInt8}
    (hheight : height + cryptonoteMinedMoneyUnlockWindow < 2 ^ 64) :
    prevalidateMinerTransaction (idleTx height extra) height version = true :=
  prevalidateMinerTransaction_true.mpr ⟨_, rfl, .inl (show (1 : UInt64) < 2 by decide),
    fun _ _ => rfl, UInt64.toNat_ofNat_of_lt' ((Nat.le_add_right _ _).trans_lt hheight),
    UInt64.toNat_ofNat_of_lt' hheight, rfl, rfl⟩

end Idle

/-- A size of `extra` for every weight that a block can exceed: in the last few sizes the length is
written with ten bytes. -/
theorem exists_extra_length {head limit : ℕ} (hhead : head ≤ 24) (hlimit : limit + 1 < 2 ^ 64) :
    ∃ n < 2 ^ 64, limit < head + (writeVarint 9 n).length + n + 1 ∧
      head + (writeVarint 9 n).length + n + 1 < 2 ^ 64 := by
  rcases Nat.lt_or_ge (limit + 36) (2 ^ 64) with hsmall | hlarge
  · have hlen := length_writeVarint_le 9 (limit + 1)
    have hpos := length_pos_iff.mpr (writeVarint_ne_nil 9 (limit + 1))
    refine ⟨limit + 1, hlimit, by omega, by omega⟩
  · have hlen : (writeVarint 9 (2 ^ 64 - 12 - head)).length = 10 :=
      length_writeVarint_of_le (le_trans (by decide) (show 2 ^ 63 ≤ 2 ^ 64 - 12 - head by omega))
    refine ⟨2 ^ 64 - 12 - head, by omega, ?_, ?_⟩ <;> rw [hlen] <;> omega

/-- An idle block has been mined: its proof of work is good, no checkpoint speaks against it, and
its hashes are new. -/
structure Blockchain.Mined (p : NodeParams) (c : Crypto) (chain : Blockchain) (nonce : UInt32)
    (extra : Bytes) : Prop where
  work : p.checkProofOfWork chain.db (idleBlock chain nonce extra) chain.db.height
    (chain.nextDifficulty p) = true
  checkpoint : p.checkCheckpoint chain.db.height
    (c.getBlockHash (idleBlock chain nonce extra)) = true
  newBlock : chain.db.blockHeights (c.getBlockHash (idleBlock chain nonce extra)) = none
  newTx : chain.db.txIndices (c.getTransactionHash (idleTx chain.db.height extra)) = none

/-- Idle blocks of every size can be mined on top of the chain. -/
structure Blockchain.Minable (p : NodeParams) (c : Crypto) (chain : Blockchain) : Prop where
  difficulty : chain.nextDifficulty p ≠ 0
  mined : ∀ n, ∃ nonce extra, extra.length = n ∧ chain.Mined p c nonce extra

/-- A reading of the clock for which the timestamp of an idle block is not too far ahead. -/
def idleTime (chain : Blockchain) : UInt64 :=
  median (lastTimestamps chain.db chain.db.height) - UInt64.ofNat cryptonoteBlockFutureTimeLimit

/-- A supplement without transactions. -/
def idleSupplement (chain : Blockchain) : PoolSupplement := ⟨Keyed.empty, chain.hfVersion⟩

section End

variable {p : NodeParams} {c : Crypto} {nonce : UInt32} {extra : Bytes}

theorem Blockchain.checkBlock_idleBlock {chain : Blockchain} (hversion : 15 ≤ chain.hfVersion)
    (hheight : chain.db.height + cryptonoteMinedMoneyUnlockWindow < 2 ^ 64)
    (hbeyond : p.BeyondHashes chain.db.height) (hdiff : chain.nextDifficulty p ≠ 0)
    (hmined : chain.Mined p c nonce extra) :
    chain.checkBlock p c (idleTime chain) (idleBlock chain nonce extra) = some false := by
  rw [checkBlock_some]
  refine ⟨rfl, ?_, ?_, hdiff, ?_, by simpa using hmined.work, hmined.checkpoint,
    prevalidateMinerTransaction_idle hheight⟩
  · have hne : chain.hfVersion ≠ 0 := by
      intro h0
      rw [h0] at hversion
      exact absurd hversion (by decide)
    have hvote : getBlockVote (idleBlock chain nonce extra) = chain.hfVersion := if_neg hne
    rw [HardFork.check, hvote, HardFork.doCheck, Bool.and_eq_true]
    exact ⟨beq_self_eq_true _, decide_eq_true (UInt8.le_refl _)⟩
  · rw [checkBlockTimestamp, Bool.and_eq_true, Bool.or_eq_true]
    refine ⟨decide_eq_true ?_, .inr (decide_eq_true (UInt64.le_refl _))⟩
    rw [idleTime, UInt64.sub_add_cancel]
    exact UInt64.le_refl _
  · rw [NodeParams.fastCheck, getElem?_eq_none hbeyond]

theorem Blockchain.exists_nextLongTermBlockWeight {chain : Blockchain} (hpos : 0 < chain.db.height)
    (weight : UInt64) : ∃ w, chain.getNextLongTermBlockWeight weight = some w := by
  rw [getNextLongTermBlockWeight, if_neg hpos.ne']
  split
  · exact ⟨_, rfl⟩
  · split <;> exact ⟨_, rfl⟩

variable {node : Node} {seed : UInt32}

/-- After the end of the emission an idle block of any weight is accepted. -/
theorem Node.passes_idleBlock {cw : ℕ} (hdb : node.chain.db.Extensible)
    (hversion : 15 ≤ node.chain.hfVersion) (hpos : 0 < node.chain.db.height)
    (hheight : node.chain.db.height + cryptonoteMinedMoneyUnlockWindow < 2 ^ 64)
    (hbeyond : p.BeyondHashes node.chain.db.height)
    (hcoins : emissionEnd ≤ node.chain.db.alreadyGeneratedCoins.toNat)
    (hdiff : node.chain.nextDifficulty p ≠ 0) (hmined : node.chain.Mined p c nonce extra)
    (hlen : extra.length < 2 ^ 64)
    (hcw : Blockchain.coinbaseWeight (idleBlock node.chain nonce extra) = some cw) :
    ∃ r, node.Passes p c (idleTime node.chain) (idleBlock node.chain nonce extra)
      (idleSupplement node.chain) r ∧ r.weight = UInt64.ofNat cw := by
  obtain ⟨top, htop, -⟩ := hdb.top
  obtain ⟨blob, hblob⟩ := @blockToBlob_idleBlock node.chain nonce extra hlen
  obtain ⟨longTermWeight, hlong⟩ :=
    Blockchain.exists_nextLongTermBlockWeight hpos (UInt64.ofNat cw)
  have hprev : node.chain.db.topBlockHash = top.hash := by
    rw [Db.topBlockHash, htop]
    rfl
  obtain ⟨n, db, hadd⟩ := hdb.addBlock_idle hpos
    (node.chain.blockMeta p (UInt64.ofNat cw) longTermWeight 0) rfl rfl rfl
    (serialize_idleTx hlen) rfl hblob htop hprev hmined.newTx hmined.newBlock
  have hreward : node.chain.checkReward (idleBlock node.chain nonce extra) (UInt64.ofNat cw) 0 =
      some 0 := by
    rw [Blockchain.checkReward, if_neg hpos.ne']
    have hvalid := @validateMinerTransaction_idle extra (UInt64.ofNat cw)
      node.chain.db.alreadyGeneratedCoins node.chain.currentBlockCumulWeightMedian
      node.chain.db.lastBlocksWeightMedian node.chain.hfVersion node.chain.db.height
      (UInt8.le_trans (by decide) hversion) hcoins
    exact congrArg (Option.map Prod.fst) hvalid
  refine ⟨⟨false, cw, ⟨node.pool, idleSupplement node.chain, []⟩, UInt64.ofNat cw, 0,
    longTermWeight, db⟩, ?_, rfl⟩
  refine ⟨Blockchain.checkBlock_idleBlock hversion hheight hbeyond hdiff hmined, .inr ?_, hcw, rfl,
    rfl, hreward, hlong, n, hadd⟩
  rw [PoolSupplement.verNonInputConsensus, idleSupplement, beq_self_eq_true, Bool.true_or]

/-- **When the limit is enforced.** Accepted blocks weigh at most twice the median exactly while a
reward is left to emit, for medians of which twice the value fits into 64 bits. -/
theorem blockWeight_limited_iff (hdb : Reachable c seed node.chain.db) (hnet : node.chain.OnNetwork)
    (hpos : 0 < node.chain.db.height)
    (hheight : node.chain.db.height + cryptonoteMinedMoneyUnlockWindow < 2 ^ 64)
    (hbeyond : p.BeyondHashes node.chain.db.height) (hmine : node.chain.Minable p c) :
    (∀ now b extra node' r, node.handleBlockToMainChain p c now b extra = (true, node') →
        node.Passes p c now b extra r → r.totalWeight % 2 ^ 64 ≤ node.chain.weightLimit) ↔
      node.chain.db.alreadyGeneratedCoins.toNat < emissionEnd ∨
        2 ^ 63 ≤ node.chain.currentBlockCumulWeightMedian.toNat := by
  constructor
  · intro hall
    by_contra hnot
    rw [not_or, Nat.not_lt, Nat.not_le] at hnot
    obtain ⟨hcoins, hmedian⟩ := hnot
    have hlimit : node.chain.weightLimit + 1 < 2 ^ 64 := by
      have := (toNat_getMinBlockWeight node.chain.hfVersion).2
      rw [Blockchain.weightLimit]
      omega
    obtain ⟨n, hn, hover, hfits⟩ :=
      exists_extra_length (length_idleHead_le node.chain.db.height) hlimit
    obtain ⟨nonce, extra, rfl, hmined⟩ := hmine.mined n
    obtain ⟨r, hr, hweight⟩ := Node.passes_idleBlock (hdb.built.extensible hpos)
      (hnet.fifteen_le hpos) hpos hheight hbeyond hcoins hmine.difficulty hmined hn (coinbaseWeight_idleBlock hn)
    have hle := hall _ _ _ _ r (Node.handleBlockToMainChain_true.mpr ⟨r, hr, rfl⟩) hr
    rw [← hr.weight_eq hbeyond, hweight, UInt64.toNat_ofNat_of_lt' hfits] at hle
    omega
  · rintro (hcoins | hmedian) now b extra node' r - hr
    · rw [← hr.weight_eq hbeyond]
      exact hr.weight_le hnet hpos hcoins
    · have hlt := Nat.mod_lt r.totalWeight (Nat.two_pow_pos 64)
      rw [Blockchain.weightLimit]
      omega

end End

/-! ### The end of the emission on mainnet -/

/-- A node on mainnet with the given blocks, behind the first one. -/
def Node.mainnet (db : Db) : Node where
  chain := Blockchain.updateNextCumulativeWeightLimit
    { db := db
      hardfork := (HardFork.start mainnetHardForks 10 1).add (minedBlock 1 0 0) 0
      currentBlockCumulWeightMedian := 0
      currentBlockCumulWeightLimit := 0
      longTermEffectiveMedianBlockWeight := 0 }
  pool := TxPool.empty

theorem Node.mainnet_onNetwork {db : Db} (h : db.height = 1) :
    (Node.mainnet db).chain.OnNetwork := by
  have hcheck : (HardFork.start mainnetHardForks 10 1).check (minedBlock 1 0 0) = true := by
    decide +kernel
  have hfollows : (Node.mainnet db).chain.hardfork.Follows db.height := by
    rw [h]
    exact (HardFork.Follows.start mainnetHardForks_byHeight 10 1).add hcheck
  exact ⟨hfollows, .inl rfl⟩

/-- What is used of a chain at which all coins have been generated. -/
structure Node.Emitted (p : NodeParams) (c : Crypto) (seed : UInt32) (node : Node) : Prop where
  reachable : Reachable c seed node.chain.db
  network : node.chain.OnNetwork
  height : node.chain.db.height = 1
  coins : node.chain.db.alreadyGeneratedCoins = moneySupply
  median : node.chain.currentBlockCumulWeightMedian = 300000
  beyond : p.BeyondHashes node.chain.db.height
  minable : node.chain.Minable p c

theorem exists_emitted_node : ∃ node, Node.Emitted NodeParams.sample transparent 0 node := by
  obtain ⟨⟨⟩, db, hrun, hdb⟩ := exists_of_okAnd
    (r := addBlocks transparent [(minedBlock 1 0 0, ⟨0, 0, 1, moneySupply⟩, [])] (Db.empty 0))
    (p := fun _ db => decide (db.height = 1 ∧ db.alreadyGeneratedCoins = moneySupply ∧
      (Node.mainnet db).chain.currentBlockCumulWeightMedian = 300000 ∧
      db.blockHeights default = none ∧ db.txIndices default = none)) (by decide +kernel)
  obtain ⟨hheight, hcoins, hmedian, hblock, htx⟩ := of_decide_eq_true hdb
  have hreach : Reachable transparent 0 db :=
    Reachable.of_solo (by decide +kernel) (by decide +kernel) hrun
  refine ⟨Node.mainnet db, hreach, Node.mainnet_onNetwork hheight, hheight, hcoins, hmedian,
    Nat.zero_le _, Nat.one_ne_zero, ?_⟩
  intro n
  exact ⟨0, replicate n 0, length_replicate, rfl, rfl, hblock, htx⟩

section Emitted

variable {p : NodeParams} {c : Crypto} {seed : UInt32} {node : Node}

theorem Node.Emitted.height_pos (h : node.Emitted p c seed) : 0 < node.chain.db.height := by
  rw [h.height]
  exact Nat.one_pos

theorem Node.Emitted.unlock_lt (h : node.Emitted p c seed) :
    node.chain.db.height + cryptonoteMinedMoneyUnlockWindow < 2 ^ 64 := by
  rw [h.height]
  decide

theorem Node.Emitted.emissionEnd_le (h : node.Emitted p c seed) :
    emissionEnd ≤ node.chain.db.alreadyGeneratedCoins.toNat := by
  rw [h.coins]
  exact emissionEnd_lt.le

theorem Node.Emitted.weightLimit_eq (h : node.Emitted p c seed) :
    node.chain.weightLimit = 600000 := by
  have hzone := (toNat_getMinBlockWeight node.chain.hfVersion).2
  have hmedian : (300000 : UInt64).toNat = 300000 := rfl
  rw [Blockchain.weightLimit, h.median, hmedian]
  omega

end Emitted

/-- After the end of the emission a block of more than twice the median is accepted. -/
theorem blockWeight_above_limit :
    ∃ (node : Node) (now : UInt64) (b : Block) (extra : PoolSupplement) (node' : Node)
      (r : Node.Processed), node.chain.OnNetwork ∧ 0 < node.chain.db.height ∧
      NodeParams.sample.BeyondHashes node.chain.db.height ∧
      node.chain.db.alreadyGeneratedCoins ≤ moneySupply ∧
      node.handleBlockToMainChain NodeParams.sample transparent now b extra = (true, node') ∧
      node.Passes NodeParams.sample transparent now b extra r ∧
      node.chain.weightLimit < r.totalWeight := by
  obtain ⟨node, h⟩ := exists_emitted_node
  obtain ⟨nonce, extra, hlength, hmined⟩ := h.minable.mined 600000
  have hlen : extra.length < 2 ^ 64 := by omega
  have hcw := @coinbaseWeight_idleBlock node.chain nonce extra hlen
  obtain ⟨r, hr, -⟩ := Node.passes_idleBlock (h.reachable.built.extensible h.height_pos)
    (h.network.fifteen_le h.height_pos) h.height_pos h.unlock_lt h.beyond h.emissionEnd_le h.minable.difficulty hmined hlen hcw
  have hweight := Option.some.inj (hr.coinbase.symm.trans hcw)
  refine ⟨node, _, _, _, _, r, h.network, h.height_pos, h.beyond, by rw [h.coins]; decide,
    Node.handleBlockToMainChain_true.mpr ⟨r, hr, rfl⟩, hr, ?_⟩
  rw [h.weightLimit_eq, Node.Processed.totalWeight]
  omega

/-- The limit is not enforced on that chain. -/
theorem blockWeight_not_limited :
    ∃ node : Node, ¬ ∀ now b extra node' r,
      node.handleBlockToMainChain NodeParams.sample transparent now b extra =
          (true, node') →
        node.Passes NodeParams.sample transparent now b extra r →
          r.totalWeight % 2 ^ 64 ≤ node.chain.weightLimit := by
  obtain ⟨node, h⟩ := exists_emitted_node
  refine ⟨node, fun hall => ?_⟩
  have hend := h.emissionEnd_le
  have hmedian : (300000 : UInt64).toNat = 300000 := rfl
  rcases (blockWeight_limited_iff h.reachable h.network h.height_pos h.unlock_lt h.beyond
    h.minable).mp hall with hcoins | hlarge
  · omega
  · rw [h.median, hmedian] at hlarge
    omega

end Hidering
