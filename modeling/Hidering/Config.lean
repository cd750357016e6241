import Mathlib.Data.Nat.Notation

/-!
# Consensus constants

The constants of `cryptonote_config.h` that the model uses, under their names. The hard-fork
versions at which a rule starts are bytes, like the version itself.
-/

namespace Hidering

/-- `CRYPTONOTE_MAX_BLOCK_NUMBER`: an unlock time below it is a height, above it a time. -/
abbrev cryptonoteMaxBlockNumber : ℕ := 500000000
/-- `CRYPTONOTE_MAX_TX_SIZE`. -/
abbrev cryptonoteMaxTxSize : ℕ := 1000000
/-- `CRYPTONOTE_MAX_TX_PER_BLOCK`. -/
abbrev cryptonoteMaxTxPerBlock : ℕ := 0x10000000
/-- `CRYPTONOTE_MINED_MONEY_UNLOCK_WINDOW`. -/
abbrev cryptonoteMinedMoneyUnlockWindow : ℕ := 60
/-- `config::DEFAULT_DUST_THRESHOLD`. -/
abbrev defaultDustThreshold : UInt64 := 2000000000
/-- `config::BASE_REWARD_CLAMP_THRESHOLD`. -/
abbrev baseRewardClampThreshold : UInt64 := 100000000
/-- `CRYPTONOTE_DEFAULT_TX_SPENDABLE_AGE`. -/
abbrev cryptonoteDefaultTxSpendableAge : ℕ := 10
/-- `CRYPTONOTE_LOCKED_TX_ALLOWED_DELTA_BLOCKS`. -/
abbrev cryptonoteLockedTxAllowedDeltaBlocks : ℕ := 1
/-- `CRYPTONOTE_LOCKED_TX_ALLOWED_DELTA_SECONDS_V1`. -/
abbrev cryptonoteLockedTxAllowedDeltaSecondsV1 : ℕ := 60
/-- `CRYPTONOTE_LOCKED_TX_ALLOWED_DELTA_SECONDS_V2`. -/
abbrev cryptonoteLockedTxAllowedDeltaSecondsV2 : ℕ := 120
/-- `DIFFICULTY_TARGET_V2`, in seconds. -/
abbrev difficultyTargetV2 : ℕ := 120
/-- `DIFFICULTY_TARGET_V1`, in seconds. -/
abbrev difficultyTargetV1 : ℕ := 60
/-- `DIFFICULTY_WINDOW`, in blocks. -/
abbrev difficultyWindow : ℕ := 720
/-- `DIFFICULTY_LAG`. -/
abbrev difficultyLag : ℕ := 15
/-- `DIFFICULTY_CUT`, the timestamps cut after sorting. -/
abbrev difficultyCut : ℕ := 60
/-- `DIFFICULTY_BLOCKS_COUNT`. -/
abbrev difficultyBlocksCount : ℕ := difficultyWindow + difficultyLag
/-- `BLOCKCHAIN_TIMESTAMP_CHECK_WINDOW`. -/
abbrev blockchainTimestampCheckWindow : ℕ := 60
/-- `CRYPTONOTE_COINBASE_BLOB_RESERVED_SIZE`. -/
abbrev cryptonoteCoinbaseBlobReservedSize : ℕ := 600
/-- `CRYPTONOTE_REWARD_BLOCKS_WINDOW`. -/
abbrev cryptonoteRewardBlocksWindow : ℕ := 100
/-- `CRYPTONOTE_BLOCK_GRANTED_FULL_REWARD_ZONE_V1`. -/
abbrev fullRewardZoneV1 : UInt64 := 20000
/-- `CRYPTONOTE_BLOCK_GRANTED_FULL_REWARD_ZONE_V2`. -/
abbrev fullRewardZoneV2 : UInt64 := 60000
/-- `CRYPTONOTE_BLOCK_GRANTED_FULL_REWARD_ZONE_V5`. -/
abbrev fullRewardZoneV5 : UInt64 := 300000
/-- `MONEY_SUPPLY`, in atomic units. -/
abbrev moneySupply : UInt64 := 18000000000000000000
/-- `HALVING_INTERVAL`, in blocks. -/
abbrev halvingInterval : UInt64 := 210000
/-- `INITIAL_BLOCK_REWARD`, in atomic units. -/
abbrev initialBlockReward : UInt64 := 42857142857143
/-- `MAX_TX_EXTRA_SIZE`. -/
abbrev maxTxExtraSize : ℕ := 3000
/-- `MAX_TX_EXTRA_SIZE_PQ`. -/
abbrev maxTxExtraSizePq : ℕ := 8192

/-- `HF_VERSION_DYNAMIC_FEE`. -/
abbrev hfVersionDynamicFee : UInt8 := 4
/-- `HF_VERSION_MIN_MIXIN_4`. -/
abbrev hfVersionMinMixin4 : UInt8 := 6
/-- `HF_VERSION_MIN_MIXIN_6`. -/
abbrev hfVersionMinMixin6 : UInt8 := 7
/-- `HF_VERSION_MIN_MIXIN_10`. -/
abbrev hfVersionMinMixin10 : UInt8 := 8
/-- `HF_VERSION_MIN_MIXIN_31`. -/
abbrev hfVersionMinMixin31 : UInt8 := 15
/-- `HF_VERSION_ENFORCE_RCT`. -/
abbrev hfVersionEnforceRct : UInt8 := 6
/-- `HF_VERSION_PER_BYTE_FEE`. -/
abbrev hfVersionPerByteFee : UInt8 := 8
/-- `HF_VERSION_SMALLER_BP`. -/
abbrev hfVersionSmallerBp : UInt8 := 10
/-- `HF_VERSION_MIN_2_OUTPUTS`. -/
abbrev hfVersionMin2Outputs : UInt8 := 12
/-- `HF_VERSION_MIN_V2_COINBASE_TX`. -/
abbrev hfVersionMinV2CoinbaseTx : UInt8 := 12
/-- `HF_VERSION_SAME_MIXIN`. -/
abbrev hfVersionSameMixin : UInt8 := 12
/-- `HF_VERSION_REJECT_SIGS_IN_COINBASE`. -/
abbrev hfVersionRejectSigsInCoinbase : UInt8 := 12
/-- `HF_VERSION_ENFORCE_MIN_AGE`. -/
abbrev hfVersionEnforceMinAge : UInt8 := 12
/-- `HF_VERSION_EFFECTIVE_SHORT_TERM_MEDIAN_IN_PENALTY`. -/
abbrev hfVersionEffectiveShortTermMedianInPenalty : UInt8 := 12
/-- `HF_VERSION_EXACT_COINBASE`. -/
abbrev hfVersionExactCoinbase : UInt8 := 13
/-- `HF_VERSION_CLSAG`. -/
abbrev hfVersionClsag : UInt8 := 13
/-- `HF_VERSION_DETERMINISTIC_UNLOCK_TIME`. -/
abbrev hfVersionDeterministicUnlockTime : UInt8 := 13
/-- `HF_VERSION_BULLETPROOF_PLUS`. -/
abbrev hfVersionBulletproofPlus : UInt8 := 15
/-- `HF_VERSION_VIEW_TAGS`. -/
abbrev hfVersionViewTags : UInt8 := 15
/-- `HF_VERSION_PQ`: from this version on post-quantum inputs are accepted. -/
abbrev hfVersionPq : UInt8 := 16
/-- `HF_VERSION_LONG_TERM_BLOCK_WEIGHT`. -/
abbrev hfVersionLongTermBlockWeight : UInt8 := 10
/-- `HF_VERSION_2021_SCALING`. -/
abbrev hfVersion2021Scaling : UInt8 := 15
/-- `CRYPTONOTE_LONG_TERM_BLOCK_WEIGHT_WINDOW_SIZE`. -/
abbrev cryptonoteLongTermBlockWeightWindowSize : ℕ := 100000
/-- `CRYPTONOTE_SHORT_TERM_BLOCK_WEIGHT_SURGE_FACTOR`. -/
abbrev cryptonoteShortTermBlockWeightSurgeFactor : UInt64 := 50
/-- `CRYPTONOTE_BLOCK_FUTURE_TIME_LIMIT`. -/
abbrev cryptonoteBlockFutureTimeLimit : ℕ := 60 * 60 * 2
/-- `DYNAMIC_FEE_REFERENCE_TRANSACTION_WEIGHT`. -/
abbrev dynamicFeeReferenceTransactionWeight : UInt64 := 12
/-- `get_fee_quantization_mask()`. -/
abbrev feeQuantizationMask : UInt64 := 10000
/-- `CRYPTONOTE_MEMPOOL_TX_LIVETIME`. -/
abbrev cryptonoteMempoolTxLivetime : UInt64 := 86400 * 3
/-- `CRYPTONOTE_MEMPOOL_TX_FROM_ALT_BLOCK_LIVETIME`. -/
abbrev cryptonoteMempoolTxFromAltBlockLivetime : UInt64 := 604800
/-- `DEFAULT_TXPOOL_MAX_WEIGHT`. -/
abbrev defaultTxpoolMaxWeight : ℕ := 648000000

end Hidering
