import Hidering.Basic.FormatUtils
import Hidering.Machine.Checked
import Mathlib.Algebra.Order.Ring.Canonical
import Mathlib.Tactic.Linarith

/-!
# Block reward

`get_block_reward` of `cryptonote_basic_impl.cpp` and the checks on the miner transaction that use
it. The reward is halved each time `210000` blocks with full reward have been emitted; the number of
halvings is found by a loop over the emission so far. There is no tail emission. A block above the
median weight gets a smaller reward, and a block above twice the median is refused — but both only
where there is a reward left.

The functions are written over `Machine.Ops`; the program is the instance `wrapping`.

## Main definitions

* `Hidering.getBlockReward`, `validateMinerTransaction`, `prevalidateMinerTransaction`
* `Hidering.emitted` — the coins of the first `k` halving periods

## Main results

* `Hidering.countHalvings_spec`, `baseReward_spec`
* `Hidering.getBlockReward_checked` — for medians below `2 ^ 32` no operation wraps around, and the
  reward fits below the supply
* `Hidering.weight_le_of_getBlockReward`, `getBlockReward_of_emitted` — where the weight limit is
  enforced and where it is not
-/

namespace Hidering

open Machine

/-! ### The source functions -/

/-- `get_min_block_weight`. -/
def getMinBlockWeight (version : UInt8) : UInt64 :=
  if version < 2 then fullRewardZoneV1
  else if version < 5 then fullRewardZoneV2
  else fullRewardZoneV5

/-- The median that the weight limit and the penalty are computed from: at least the full reward
zone. -/
def effectiveMedian (medianWeight : UInt64) (version : UInt8) : UInt64 :=
  if medianWeight < getMinBlockWeight version then getMinBlockWeight version else medianWeight

section Source

variable {m : Type → Type} [Monad m] (o : Ops m)

/-- The loop that counts the halvings, with the current number, the coins counted so far and the
reward of the current period. -/
def countHalvings (alreadyGeneratedCoins : UInt64) : ℕ → UInt64 → UInt64 → UInt64 → m UInt64
  | 0, halvings, _, _ => pure halvings
  | fuel + 1, halvings, coinsCounted, periodReward =>
    if periodReward = 0 then pure halvings
    else do
      let periodCoins ← o.mul periodReward halvingInterval
      let next ← o.add coinsCounted periodCoins
      if alreadyGeneratedCoins < next then pure halvings
      else do
        let coinsCounted ← o.add coinsCounted periodCoins
        let halvings ← o.add halvings 1
        countHalvings alreadyGeneratedCoins fuel halvings coinsCounted (periodReward >>> 1)

/-- The reward before the weight penalty. -/
def baseReward (alreadyGeneratedCoins : UInt64) : m UInt64 := do
  let halvings ← countHalvings o alreadyGeneratedCoins 64 0 0 initialBlockReward
  let base := initialBlockReward >>> halvings
  let total ← o.add alreadyGeneratedCoins base
  if moneySupply < total then o.sub moneySupply alreadyGeneratedCoins else pure base

/-- The weight limit and the penalty for weight above the median; `none` if the block is too
heavy. -/
def weightPenalty (base medianWeight currentBlockWeight : UInt64) (version : UInt8) :
    m (Option UInt64) :=
  let medianWeight := effectiveMedian medianWeight version
  if currentBlockWeight ≤ medianWeight then pure (some base)
  else do
    let limit ← o.mul 2 medianWeight
    if limit < currentBlockWeight then pure none
    else do
      let multiplicand ← o.sub limit currentBlockWeight
      let multiplicand ← o.mul multiplicand currentBlockWeight
      let product := mul128 base multiplicand
      pure (some (div128 (div128 product medianWeight) medianWeight).2)

/-- `get_block_reward`; `none` where it returns `false`. -/
def getBlockReward (medianWeight currentBlockWeight alreadyGeneratedCoins : UInt64)
    (version : UInt8) : m (Option UInt64) :=
  if moneySupply ≤ alreadyGeneratedCoins then pure (some 0)
  else do
    let base ← baseReward o alreadyGeneratedCoins
    if base = 0 then pure (some 0)
    else weightPenalty o base medianWeight currentBlockWeight version

/-- The update of `already_generated_coins` in `handle_block_to_main_chain`. -/
def nextGeneratedCoins (base alreadyGeneratedCoins : UInt64) : m UInt64 := do
  let left ← o.sub moneySupply alreadyGeneratedCoins
  if base < left then o.add alreadyGeneratedCoins base else pure moneySupply

end Source

/-- The loop that divides out trailing zeros; a word has at most 19 of them. -/
def divideOutZeros : ℕ → UInt64 → UInt64
  | 0, amount => amount
  | fuel + 1, amount => if amount % 10 = 0 then divideOutZeros fuel (amount / 10) else amount

/-- `is_valid_decomposed_amount`: one digit followed by zeros. -/
def isValidDecomposedAmount (amount : UInt64) : Bool :=
  if 0 = amount then false else divideOutZeros 20 amount < 10

/-- `validate_miner_transaction`: the base reward and whether it is claimed partially only.
`medianWeight` is the effective median from `HF_VERSION_EFFECTIVE_SHORT_TERM_MEDIAN_IN_PENALTY` on
and `lastBlocksMedian` is used before. -/
def validateMinerTransaction (minerTx : TransactionPrefix) (cumulativeBlockWeight fee
    alreadyGeneratedCoins : UInt64) (version : UInt8) (medianWeight lastBlocksMedian : UInt64) :
    Option (UInt64 × Bool) :=
  let moneyInUse := sum (minerTx.vout.map TxOut.amount)
  if version = 3 ∧ ¬ minerTx.vout.all (fun out => isValidDecomposedAmount out.amount) then none
  else
    let median := if hfVersionEffectiveShortTermMedianInPenalty ≤ version then medianWeight
      else lastBlocksMedian
    match getBlockReward wrapping median cumulativeBlockWeight alreadyGeneratedCoins version with
    | none => none
    | some base =>
      if base + fee < moneyInUse then none
      else if version < 2 ∨ hfVersionExactCoinbase ≤ version then
        if base + fee ≠ moneyInUse then none else some (base, false)
      else if ¬ moneyInUse - fee ≤ base then none
      else some (moneyInUse - fee, base + fee ≠ moneyInUse)

/-- `prevalidate_miner_transaction`. -/
def prevalidateMinerTransaction (minerTx : Transaction) (height : ℕ) (hfVersion : UInt8) : Bool :=
  match minerTx.vin with
  | [.gen h] =>
    (1 < minerTx.version || hfVersion < hfVersionMinV2CoinbaseTx) &&
    (!(hfVersionRejectSigsInCoinbase ≤ hfVersion && 2 ≤ minerTx.version) ||
      minerTx.rctSignatures.type == rctTypeNull) &&
    h.toNat == height &&
    minerTx.unlockTime.toNat == height + cryptonoteMinedMoneyUnlockWindow &&
    checkOutsOverflow minerTx &&
    checkOutputTypes minerTx hfVersion
  | _ => false

/-! ### Halving periods -/

/-- The reward per block in halving period `k`. -/
def periodReward (k : ℕ) : ℕ := 42857142857143 / 2 ^ k

/-- The coins of the first `k` halving periods. -/
def emitted : ℕ → ℕ
  | 0 => 0
  | k + 1 => emitted k + periodReward k * 210000

/-- The emission at which the reward ends: period 46 has none. -/
abbrev emissionEnd : ℕ := emitted 46

theorem periodReward_succ (k : ℕ) : periodReward (k + 1) = periodReward k / 2 := by
  rw [periodReward, periodReward, Nat.pow_succ, Nat.div_div_eq_div_mul]

theorem periodReward_le (k : ℕ) : periodReward k ≤ 42857142857143 := Nat.div_le_self _ _

theorem periodReward_pos {k : ℕ} (hk : k < 46) : 0 < periodReward k := by
  have hpow : 2 ^ k ≤ 2 ^ 45 := Nat.pow_le_pow_right (by decide) (by omega)
  exact Nat.div_pos (hpow.trans (by decide)) (Nat.two_pow_pos k)

theorem emitted_add_le (k : ℕ) :
    emitted k + 2 * periodReward k * 210000 ≤ 18000000000000060000 := by
  induction k with
  | zero => decide
  | succ k ih =>
    rw [emitted, periodReward_succ]
    omega

theorem emitted_lt (k : ℕ) : emitted k < 2 ^ 64 := by
  have := emitted_add_le k
  omega

theorem emissionEnd_lt : emissionEnd < moneySupply.toNat := by decide +kernel

/-- The loop finds the period that the emission is in: all coins of the periods before it have been
emitted, and its own have not. -/
theorem countHalvings_spec {coins halvings counted period : UInt64} {fuel k : ℕ}
    (hfuel : 46 < fuel + k) (hk : k ≤ 46) (hemitted : emitted k ≤ coins.toNat)
    (hh : halvings.toNat = k) (hc : counted.toNat = emitted k)
    (hp : period.toNat = periodReward k) :
    ∃ r : UInt64, r.toNat ≤ 46 ∧ emitted r.toNat ≤ coins.toNat ∧
      (r.toNat = 46 ∨ coins.toNat < emitted (r.toNat + 1)) ∧
      countHalvings checked coins fuel halvings counted period = some r := by
  induction fuel generalizing halvings counted period k with
  | zero => omega
  | succ fuel ih =>
    rw [countHalvings]
    rcases Nat.lt_or_ge k 46 with hlt | hge
    · -- a period with a reward: none of the operations wraps around
      have hpos := periodReward_pos hlt
      have hle := periodReward_le k
      have hne : period ≠ 0 := by
        rintro rfl
        exact hpos.ne hp
      have hinterval : halvingInterval.toNat = 210000 := rfl
      have hmul : (period * halvingInterval).toNat = periodReward k * 210000 := by
        rw [toNat_mul_of_lt] <;> rw [hp, hinterval]
        omega
      have hnext := emitted_lt (k + 1)
      rw [emitted] at hnext
      have hadd : (counted + period * halvingInterval).toNat = emitted (k + 1) := by
        rw [toNat_add_of_lt] <;> rw [hc, hmul]
        · rw [emitted]
        · exact hnext
      have hcheckMul : checked.mul period halvingInterval = some (period * halvingInterval) :=
        checked_mul (by rw [hp, hinterval]; omega)
      have hcheckAdd : checked.add counted (period * halvingInterval) =
          some (counted + period * halvingInterval) := checked_add (by rw [hc, hmul]; exact hnext)
      have hone : (1 : UInt64).toNat = 1 := rfl
      have hcheckOne : checked.add halvings 1 = some (halvings + 1) :=
        checked_add (by rw [hh, hone]; omega)
      simp only [if_neg hne, hcheckMul, hcheckAdd, hcheckOne, Option.bind_eq_bind,
        Option.bind_some, UInt64.lt_iff_toNat_lt, hadd]
      split
      · next hbreak => exact ⟨halvings, by omega, by rwa [hh], .inr (by rwa [hh]), rfl⟩
      · next hgo =>
        refine ih (k := k + 1) (by omega) (by omega) (by omega) ?_ hadd ?_
        · rw [toNat_add_of_lt] <;> rw [hh, hone]
          omega
        · rw [UInt64.toNat_shiftRight, hp, periodReward_succ, hone, Nat.shiftRight_eq_div_pow]
    · obtain rfl : k = 46 := by omega
      have hzero : period = 0 := UInt64.toNat_inj.mp (by rw [hp]; decide)
      exact ⟨halvings, hh.le, by rwa [hh], .inl hh, by rw [if_pos hzero]; rfl⟩

theorem countHalvings_start (coins : UInt64) :
    ∃ r : UInt64, r.toNat ≤ 46 ∧ emitted r.toNat ≤ coins.toNat ∧
      (r.toNat = 46 ∨ coins.toNat < emitted (r.toNat + 1)) ∧
      countHalvings checked coins 64 0 0 initialBlockReward = some r :=
  countHalvings_spec (k := 0) (by decide) (by decide) (Nat.zero_le _) rfl rfl rfl

theorem emitted_mono : Monotone emitted := monotone_nat_of_le_succ fun _ => Nat.le_add_right _ _

theorem moneySupply_toNat : moneySupply.toNat = 18000000000000000000 := rfl

/-- The reward before the penalty is that of the period that the emission is in, up to the
supply. -/
theorem baseReward_value {coins : UInt64} (hcoins : coins < moneySupply) :
    ∃ k base, k ≤ 46 ∧ emitted k ≤ coins.toNat ∧ (k = 46 ∨ coins.toNat < emitted (k + 1)) ∧
      baseReward checked coins = some base ∧
      base.toNat = min (periodReward k) (moneySupply.toNat - coins.toNat) := by
  rw [UInt64.lt_iff_toNat_lt, moneySupply_toNat] at hcoins
  obtain ⟨r, hr, hbelow, hperiod, hcount⟩ := countHalvings_start coins
  have hshift : (initialBlockReward >>> r).toNat = periodReward r.toNat := by
    rw [UInt64.toNat_shiftRight, Nat.shiftRight_eq_div_pow, Nat.mod_eq_of_lt (by omega)]
    rfl
  have hle := periodReward_le r.toNat
  have htotal : (coins + initialBlockReward >>> r).toNat = coins.toNat + periodReward r.toNat := by
    rw [toNat_add_of_lt] <;> rw [hshift]
    omega
  have hadd : checked.add coins (initialBlockReward >>> r) =
      some (coins + initialBlockReward >>> r) := checked_add (by rw [hshift]; omega)
  suffices hvalue : ∃ base, baseReward checked coins = some base ∧
      base.toNat = min (periodReward r.toNat) (moneySupply.toNat - coins.toNat) by
    obtain ⟨base, hbase, hvalue⟩ := hvalue
    exact ⟨r.toNat, base, hr, hbelow, hperiod, hbase, hvalue⟩
  rw [baseReward, hcount]
  simp only [Option.bind_eq_bind, Option.bind_some, hadd, UInt64.lt_iff_toNat_lt, htotal,
    moneySupply_toNat]
  split
  · next hclamp =>
    have hle' : coins ≤ moneySupply := by
      rw [UInt64.le_iff_toNat_le, moneySupply_toNat]
      omega
    refine ⟨moneySupply - coins, checked_sub hle', ?_⟩
    rw [UInt64.toNat_sub_of_le _ _ hle', moneySupply_toNat]
    omega
  · next hfits =>
    refine ⟨initialBlockReward >>> r, rfl, ?_⟩
    rw [hshift]
    omega

/-- The reward before the penalty: it fits below the supply, and it is 0 exactly if all periods
with a reward have been emitted. -/
theorem baseReward_spec {coins : UInt64} (hcoins : coins < moneySupply) :
    ∃ base : UInt64, baseReward checked coins = some base ∧
      coins.toNat + base.toNat ≤ moneySupply.toNat ∧ base.toNat ≤ 42857142857143 ∧
      (base = 0 ↔ emissionEnd ≤ coins.toNat) := by
  obtain ⟨k, base, hk, hbelow, hperiod, hbase, hvalue⟩ := baseReward_value hcoins
  rw [UInt64.lt_iff_toNat_lt] at hcoins
  have hle := periodReward_le k
  refine ⟨base, hbase, by omega, by omega, ?_⟩
  -- the last period is reached exactly when its coins are emitted
  have hend : periodReward k = 0 ↔ emissionEnd ≤ coins.toNat := by
    constructor
    · intro h0
      have hge : ¬ k < 46 := fun hlt => (periodReward_pos hlt).ne' h0
      obtain rfl : k = 46 := by omega
      exact hbelow
    · intro hemitted
      have heq : k = 46 := by
        rcases hperiod with heq | hlt
        · exact heq
        · by_contra hne
          have hmono : emitted (k + 1) ≤ emissionEnd := emitted_mono (by omega)
          omega
      rw [heq]
      decide
  rw [← hend, ← UInt64.toNat_inj, hvalue]
  have hzero : (0 : UInt64).toNat = 0 := rfl
  omega

/-! ### The weight limit and the penalty -/

theorem toNat_effectiveMedian (medianWeight : UInt64) (version : UInt8) :
    (effectiveMedian medianWeight version).toNat =
      max medianWeight.toNat (getMinBlockWeight version).toNat := by
  rw [effectiveMedian]
  split
  · next h => rw [UInt64.lt_iff_toNat_lt] at h; omega
  · next h => rw [UInt64.lt_iff_toNat_lt] at h; omega

theorem toNat_getMinBlockWeight (version : UInt8) :
    20000 ≤ (getMinBlockWeight version).toNat ∧ (getMinBlockWeight version).toNat ≤ 300000 := by
  rw [getMinBlockWeight]
  split_ifs <;> decide

/-- A block that gets past the weight test has at most twice the median weight, for all 64-bit
weights: where twice the median wraps around, the test fails. -/
theorem weight_le_of_weightPenalty {base medianWeight weight : UInt64} {version : UInt8}
    (h : (weightPenalty wrapping base medianWeight weight version : Option UInt64) ≠ none) :
    weight.toNat ≤ 2 * max medianWeight.toNat (getMinBlockWeight version).toNat := by
  rw [← toNat_effectiveMedian]
  simp only [weightPenalty] at h
  generalize effectiveMedian medianWeight version = median at *
  split at h
  · next hle => rw [UInt64.le_iff_toNat_le] at hle; omega
  · next hgt =>
    change (if 2 * median < weight then none else _) ≠ none at h
    split at h
    · exact absurd rfl h
    · next hlimit =>
      rw [UInt64.lt_iff_toNat_lt, UInt64.toNat_mul] at hlimit
      have htwo : (2 : UInt64).toNat = 2 := rfl
      rw [htwo] at hlimit
      have := Nat.mod_le (2 * median.toNat) (2 ^ 64)
      omega

/-- The penalty factor `(2 * median - weight) * weight` is at most the square of the median. -/
theorem penalty_le_sq {median weight : ℕ} (h : weight ≤ 2 * median) :
    (2 * median - weight) * weight ≤ median * median := by
  obtain ⟨a, ha⟩ := Nat.exists_eq_add_of_le h
  have hsub : 2 * median - weight = a := by omega
  have hsq := four_mul_le_sq_add weight a
  rw [← ha] at hsq
  rw [hsub]
  nlinarith

theorem agree_weightPenalty (base medianWeight weight : UInt64) (version : UInt8) :
    Agree (weightPenalty checked base medianWeight weight version)
      (weightPenalty wrapping base medianWeight weight version) :=
  .ite (.pure _) <| .bind (agree_mul _ _) fun _ => .ite (.pure _) <|
    .bind (agree_sub _ _) fun _ => .bind (agree_mul _ _) fun _ => .pure _

/-- With a median below `2 ^ 32` no operation of the penalty wraps around, and the penalty does not
raise the reward. -/
theorem weightPenalty_checked {base medianWeight weight : UInt64} {version : UInt8}
    (hmedian : medianWeight.toNat < 2 ^ 32) :
    ∃ r, weightPenalty checked base medianWeight weight version = some r ∧
      ∀ reward, r = some reward → reward ≤ base := by
  have hzone := toNat_getMinBlockWeight version
  have hmed := toNat_effectiveMedian medianWeight version
  have htwo : (2 : UInt64).toNat = 2 := rfl
  rw [weightPenalty]
  generalize effectiveMedian medianWeight version = median at *
  have hpos : 0 < median.toNat := by omega
  have hmed32 : median.toNat < 2 ^ 32 := by omega
  split
  · refine ⟨some base, rfl, ?_⟩
    intro reward h
    rw [Option.some.inj h]
    exact UInt64.le_refl _
  · next hgt =>
    have hlimit : (2 * median).toNat = 2 * median.toNat := by
      rw [toNat_mul_of_lt] <;> rw [htwo]
      omega
    rw [checked_mul (by rw [htwo]; omega)]
    simp only [Option.bind_eq_bind, Option.bind_some]
    split
    · exact ⟨none, rfl, by simp⟩
    · next hle =>
      rw [UInt64.not_lt, UInt64.le_iff_toNat_le, hlimit] at hle
      have hle' : weight ≤ 2 * median := by rw [UInt64.le_iff_toNat_le, hlimit]; exact hle
      have hsub : (2 * median - weight).toNat = 2 * median.toNat - weight.toNat := by
        rw [UInt64.toNat_sub_of_le _ _ hle', hlimit]
      have hsq := penalty_le_sq hle
      have hsq64 : median.toNat * median.toNat < 2 ^ 64 :=
        calc _ < 2 ^ 32 * 2 ^ 32 := Nat.mul_lt_mul'' hmed32 hmed32
          _ = 2 ^ 64 := by norm_num
      have hfactor : ((2 * median - weight) * weight).toNat =
          (2 * median.toNat - weight.toNat) * weight.toNat := by
        rw [toNat_mul_of_lt] <;> rw [hsub]
        omega
      rw [checked_sub hle', Option.bind_some, checked_mul (by rw [hsub]; omega), Option.bind_some]
      refine ⟨_, rfl, ?_⟩
      intro reward hreward
      obtain rfl := Option.some.inj hreward
      -- base * factor / median / median, exactly
      have hexact : toNat128 (div128 (div128 (mul128 base ((2 * median - weight) * weight)) median)
          median) ≤ base.toNat := by
        rw [toNat_div128, toNat_div128, toNat_mul128, hfactor, Nat.div_div_eq_div_mul]
        exact Nat.div_le_of_le_mul (by rw [Nat.mul_comm]; exact Nat.mul_le_mul_right _ hsq)
      rw [UInt64.le_iff_toNat_le]
      rw [toNat128] at hexact
      omega

/-! ### The block reward -/

theorem agree_countHalvings (coins : UInt64) (fuel : ℕ) (halvings counted period : UInt64) :
    Agree (countHalvings checked coins fuel halvings counted period)
      (countHalvings wrapping coins fuel halvings counted period) := by
  induction fuel generalizing halvings counted period with
  | zero => exact .pure _
  | succ fuel ih =>
    exact .ite (.pure _) <| .bind (agree_mul _ _) fun _ => .bind (agree_add _ _) fun _ =>
      .ite (.pure _) <| .bind (agree_add _ _) fun _ => .bind (agree_add _ _) fun _ => ih _ _ _

theorem agree_baseReward (coins : UInt64) :
    Agree (baseReward checked coins) (baseReward wrapping coins) :=
  .bind (agree_countHalvings _ _ _ _ _) fun _ => .bind (agree_add _ _) fun _ =>
    .ite (agree_sub _ _) (.pure _)

theorem agree_getBlockReward (medianWeight weight coins : UInt64) (version : UInt8) :
    Agree (getBlockReward checked medianWeight weight coins version)
      (getBlockReward wrapping medianWeight weight coins version) :=
  .ite (.pure _) <| .bind (agree_baseReward _) fun _ => .ite (.pure _) (agree_weightPenalty _ _ _ _)

/-- For a median below `2 ^ 32` no operation of `get_block_reward` wraps around, and the reward fits
below the supply. -/
theorem getBlockReward_checked {medianWeight weight coins : UInt64} {version : UInt8}
    (hmedian : medianWeight.toNat < 2 ^ 32) (hcoins : coins ≤ moneySupply) :
    ∃ r, getBlockReward checked medianWeight weight coins version = some r ∧
      ∀ reward, r = some reward → coins.toNat + reward.toNat ≤ moneySupply.toNat := by
  have hzero : (0 : UInt64).toNat = 0 := rfl
  rw [UInt64.le_iff_toNat_le] at hcoins
  rw [getBlockReward]
  split
  · refine ⟨some 0, rfl, ?_⟩
    intro reward h
    rw [← Option.some.inj h, hzero]
    exact hcoins
  · next hlt =>
    obtain ⟨base, hbase, hfits, -, -⟩ := baseReward_spec (UInt64.not_le.mp hlt)
    rw [hbase]
    simp only [Option.bind_eq_bind, Option.bind_some]
    split
    · refine ⟨some 0, rfl, ?_⟩
      intro reward h
      rw [← Option.some.inj h, hzero]
      exact hcoins
    · obtain ⟨r, hr, hle⟩ := @weightPenalty_checked base medianWeight weight version hmedian
      refine ⟨r, hr, ?_⟩
      intro reward h
      have := UInt64.le_iff_toNat_le.mp (hle reward h)
      omega

/-- While a reward is left, a block with a weight that `get_block_reward` accepts has at most twice
the median weight. -/
theorem weight_le_of_getBlockReward {medianWeight weight coins reward : UInt64} {version : UInt8}
    (hcoins : coins.toNat < emissionEnd)
    (h : (getBlockReward wrapping medianWeight weight coins version : Option UInt64) =
      some reward) :
    weight.toNat ≤ 2 * max medianWeight.toNat (getMinBlockWeight version).toNat := by
  have hlt : coins < moneySupply := UInt64.lt_iff_toNat_lt.mpr (hcoins.trans emissionEnd_lt)
  obtain ⟨base, hbase, -, -, hzero⟩ := baseReward_spec hlt
  have hne : base ≠ 0 := fun h0 => absurd (hzero.mp h0) (Nat.not_le.mpr hcoins)
  have hwrap : baseReward wrapping coins = base := agree_baseReward coins base hbase
  have hpenalty : (weightPenalty wrapping base medianWeight weight version : Option UInt64) =
      some reward := by
    rw [← h, getBlockReward, if_neg (UInt64.not_le.mpr hlt), hwrap]
    exact (if_neg hne).symm
  exact weight_le_of_weightPenalty (by rw [hpenalty]; simp)

/-- When no reward is left, `get_block_reward` accepts every weight. -/
theorem getBlockReward_of_emitted {coins : UInt64} (hcoins : emissionEnd ≤ coins.toNat)
    (medianWeight weight : UInt64) (version : UInt8) :
    (getBlockReward wrapping medianWeight weight coins version : Option UInt64) = some 0 := by
  rw [getBlockReward]
  split
  · rfl
  · next hlt =>
    obtain ⟨base, hbase, -, -, hzero⟩ := baseReward_spec (UInt64.not_le.mp hlt)
    have hwrap : baseReward wrapping coins = base := agree_baseReward coins base hbase
    rw [hwrap]
    exact if_pos (hzero.mpr hcoins)

theorem checked_clampedAdd {supply base coins : UInt64} (h : coins ≤ supply) :
    (do
      let left ← checked.sub supply coins
      if base < left then checked.add coins base else pure supply) =
      if base < supply - coins then checked.add coins base else some supply := by
  rw [checked_sub h]
  rfl

/-- The update of the generated coins adds a reward that fits, without wrapping around. -/
theorem nextGeneratedCoins_checked {base coins : UInt64}
    (h : coins.toNat + base.toNat ≤ moneySupply.toNat) :
    ∃ next, nextGeneratedCoins checked base coins = some next ∧
      nextGeneratedCoins wrapping base coins = next ∧
      next.toNat = coins.toNat + base.toNat := by
  have hle : coins ≤ moneySupply :=
    UInt64.le_iff_toNat_le.mpr ((Nat.le_add_right _ _).trans h)
  have hsub : (moneySupply - coins).toNat = moneySupply.toNat - coins.toNat :=
    UInt64.toNat_sub_of_le _ _ hle
  rw [moneySupply_toNat] at h hsub
  have hagree : Agree (nextGeneratedCoins checked base coins)
      (nextGeneratedCoins wrapping base coins) :=
    .bind (agree_sub _ _) fun _ => .ite (agree_add _ _) (.pure _)
  suffices hnext : ∃ next, nextGeneratedCoins checked base coins = some next ∧
      next.toNat = coins.toNat + base.toNat by
    obtain ⟨next, hnext, hnat⟩ := hnext
    exact ⟨next, hnext, hagree next hnext, hnat⟩
  rw [nextGeneratedCoins, checked_clampedAdd hle]
  by_cases hlt : base < moneySupply - coins
  · rw [if_pos hlt]
    exact ⟨_, checked_add (by omega), toNat_add_of_lt (by omega)⟩
  · rw [if_neg hlt]
    rw [UInt64.lt_iff_toNat_lt, hsub] at hlt
    refine ⟨moneySupply, rfl, ?_⟩
    rw [moneySupply_toNat]
    omega

end Hidering
