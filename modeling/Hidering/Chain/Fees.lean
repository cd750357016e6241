import Hidering.Basic.RoundMoney
import Hidering.Chain.BlockWeight
import Hidering.Chain.LongTerm

/-!
# Fees

The fee that `check_fee` asks for, and the estimates that wallets get from
`get_dynamic_base_fee_estimate_2021_scaling`.

The fee per byte is at least 1, but `check_fee` divides it by 100 afterwards: it asks for nothing as
soon as the dynamic base fee is below 100, which is long before the emission ends
(`checkFee_zero_iff`).

An estimate is computed from medians over a window with empty blocks at its end. These medians are
not above those of the chain, and the estimates are not divided by 100, so that they suffice for
every transaction of at least 102 bytes (`feeEstimate_iff`). For 100 empty blocks there is no
estimate: the weights of the last 0 blocks are asked for, and the database throws.

## Main definitions

* `Hidering.feeEstimates`, `Hidering.Blockchain.getDynamicBaseFeeEstimate2021Scaling`
* `Hidering.Blockchain.UpToDate` — the limits and the cache are those of the chain

## Main results

* `Hidering.checkFee_zero_iff`
* `Hidering.feeEstimate_iff`
-/

namespace Hidering

open Wire Machine Median Store

/-! ### The source functions -/

/-- `BLOCK_REWARD_OVERESTIMATE`. -/
abbrev blockRewardOverestimate : UInt64 := 10000000000000
/-- `CRYPTONOTE_SCALING_2021_FEE_ROUNDING_PLACES`. -/
abbrev cryptonoteScaling2021FeeRoundingPlaces : ℕ := 2

/-- `get_last_n_blocks_weights`; the database throws if the first height is not in the chain. -/
def Db.getLastNBlocksWeights (db : Db) (count : ℕ) : Option (List UInt64) :=
  if db.height = 0 then some []
  else
    let startOffset := db.height - min db.height count
    if db.height ≤ startOffset then none
    else some (((db.infos.drop startOffset).take count).map fun i => UInt64.ofNat i.weight)

section Source

variable {m : Type → Type} [Monad m] (o : DivOps m)

/-- `get_dynamic_base_fee_estimate_2021_scaling(base_reward, Mnw, Mlw, fees)`: the four fees before
rounding. -/
def unroundedFees (baseReward mnw mlw : UInt64) : m (List UInt64) := do
  let mfw := min mnw mlw
  let square ← o.mul mfw mfw
  let fl ← o.div (← o.mul baseReward dynamicFeeReferenceTransactionWeight) square
  let fn ← o.mul 4 baseReward
  let fn ← o.div (← o.mul fn dynamicFeeReferenceTransactionWeight) square
  let fm ← o.mul 16 baseReward
  let fm ← o.mul fm dynamicFeeReferenceTransactionWeight
  let fm ← o.div fm (← o.mul fullRewardZoneV5 mfw)
  let fm4 ← o.mul 4 fm
  let steps ← o.mul (32 * dynamicFeeReferenceTransactionWeight) mnw
  let steps ← o.div steps fullRewardZoneV5
  let fh ← o.div (← o.mul fm4 mfw) steps
  pure [fl, fn, fm, max fm4 fh]

/-- The fees rounded up; `none` where rounding throws. -/
def feeEstimates (baseReward mnw mlw : UInt64) : m (Option (List UInt64)) := do
  let fees ← unroundedFees o baseReward mnw mlw
  pure (fees.mapM fun fee => roundMoneyUp fee cryptonoteScaling2021FeeRoundingPlaces)

/-- `get_dynamic_base_fee_estimate_2021_scaling(grace_blocks, fees)`; `none` where it throws. -/
def Blockchain.getDynamicBaseFeeEstimate2021Scaling (chain : Blockchain)
    (rm : RollingMedian UInt64) (graceBlocks : ℕ) : m (Option (List UInt64)) :=
  if cryptonoteRewardBlocksWindow < graceBlocks then pure none
  else
    let mlw := max (graceMedian rm graceBlocks) fullRewardZoneV5
    match chain.db.getLastNBlocksWeights (100 - graceBlocks) with
    | none => pure none
    | some weights => do
      let msw := max (median (weights ++ List.replicate graceBlocks 0)) mlw
      let mnw := min msw (← o.mul 50 mlw)
      let reward ← getBlockReward o.toOps (chain.currentBlockCumulWeightLimit / 2) 1
        chain.db.alreadyGeneratedCoins chain.hfVersion
      feeEstimates o (reward.getD blockRewardOverestimate) mnw mlw

end Source

/-! ### The fee that is asked for -/

/-- `get_block_reward` for a weight of 1 is the base reward, for every median. -/
theorem getBlockReward_one (medianWeight coins : UInt64) (version : UInt8) :
    ∃ reward : UInt64, reward.toNat ≤ 42857142857143 ∧
      getBlockReward checked medianWeight 1 coins version = some (some reward) := by
  rw [getBlockReward]
  split
  · exact ⟨0, by decide, rfl⟩
  · next hlt =>
    obtain ⟨base, hbase, -, hle, -⟩ := baseReward_spec (UInt64.not_le.mp hlt)
    rw [hbase]
    simp only [Option.bind_eq_bind, Option.bind_some]
    split
    · exact ⟨0, by decide, rfl⟩
    · refine ⟨base, hle, ?_⟩
      have hone : 1 ≤ effectiveMedian medianWeight version := by
        have hmed := toNat_effectiveMedian medianWeight version
        have hzone := toNat_getMinBlockWeight version
        rw [UInt64.le_iff_toNat_le]
        change 1 ≤ _
        omega
      rw [weightPenalty]
      simp only [if_pos hone]
      rfl

theorem toNat_max_word (a b : UInt64) : (max a b).toNat = max a.toNat b.toNat := by
  change (if a ≤ b then b else a).toNat = _
  split_ifs with h
  · exact (Nat.max_eq_right (UInt64.le_iff_toNat_le.mp h)).symm
  · exact (Nat.max_eq_left (UInt64.le_iff_toNat_le.mp (UInt64.le_of_lt (UInt64.not_le.mp h)))).symm

theorem toNat_min_word (a b : UInt64) : (min a b).toNat = min a.toNat b.toNat := by
  change (if a ≤ b then a else b).toNat = _
  split_ifs with h
  · exact (Nat.min_eq_left (UInt64.le_iff_toNat_le.mp h)).symm
  · exact (Nat.min_eq_right (UInt64.le_iff_toNat_le.mp (UInt64.le_of_lt (UInt64.not_le.mp h)))).symm

/-- `block_reward * ref_weight / median^2`, with the full reward zone as the least median. -/
def baseFeeQuotient (reward median : ℕ) : ℕ := 12 * reward / (max 300000 median) ^ 2

/-- The base fee per byte, as a number. -/
theorem toNat_getDynamicBaseFee (reward median : UInt64) :
    (Blockchain.getDynamicBaseFee reward median).toNat =
      max 1 (baseFeeQuotient reward.toNat median.toNat -
        baseFeeQuotient reward.toNat median.toNat / 20) := by
  have hmax : (max fullRewardZoneV5 median).toNat = max 300000 median.toNat :=
    toNat_max_word _ _
  have hreward := reward.toNat_lt
  rw [Blockchain.getDynamicBaseFee, baseFeeQuotient]
  generalize max fullRewardZoneV5 median = zone at hmax
  rw [← hmax]
  have hexact : toNat128 (div128 (div128 (mul128 reward dynamicFeeReferenceTransactionWeight) zone)
      zone) = 12 * reward.toNat / zone.toNat ^ 2 := by
    rw [toNat_div128, toNat_div128, toNat_mul128, Nat.div_div_eq_div_mul, Nat.pow_two,
      Nat.mul_comm 12]
    rfl
  have hsmall : 12 * reward.toNat / zone.toNat ^ 2 < 2 ^ 64 := by
    refine Nat.div_lt_of_lt_mul ?_
    have hsq : 12 ≤ zone.toNat ^ 2 :=
      calc 12 ≤ 300000 ^ 2 := by norm_num
        _ ≤ zone.toNat ^ 2 := Nat.pow_le_pow_left (by omega) 2
    calc 12 * reward.toNat ≤ zone.toNat ^ 2 * reward.toNat := Nat.mul_le_mul_right _ hsq
      _ < zone.toNat ^ 2 * 2 ^ 64 := Nat.mul_lt_mul_of_pos_left hreward (by omega)
  generalize div128 (div128 (mul128 reward dynamicFeeReferenceTransactionWeight) zone) zone = d
    at hexact
  generalize 12 * reward.toNat / zone.toNat ^ 2 = q at hexact hsmall
  have hlo : d.2.toNat = q := by
    rw [toNat128] at hexact
    omega
  have hsub : (d.2 - d.2 / 20).toNat = q - q / 20 := by
    rw [UInt64.toNat_sub_of_le, UInt64.toNat_div, hlo]
    · rfl
    · rw [UInt64.le_iff_toNat_le, UInt64.toNat_div]
      exact Nat.div_le_self _ _
  split_ifs with hzero
  · rw [← UInt64.toNat_inj, hsub] at hzero
    change q - q / 20 = 0 at hzero
    rw [hzero]
    rfl
  · rw [← UInt64.toNat_inj, hsub] at hzero
    change ¬ q - q / 20 = 0 at hzero
    rw [hsub]
    omega

/-- The base reward that `check_fee` computes. -/
def Blockchain.feeReward (chain : Blockchain) : Option UInt64 :=
  getBlockReward wrapping (chain.currentBlockCumulWeightLimit / 2) 1
    chain.db.alreadyGeneratedCoins chain.hfVersion

/-- The median that the fee is computed from. -/
def Blockchain.feeMedian (chain : Blockchain) : ℕ :=
  min (chain.currentBlockCumulWeightLimit / 2).toNat chain.longTermEffectiveMedianBlockWeight.toNat

/-- The fee per byte that `check_fee` asks for, as a number. -/
def Blockchain.feePerByte (chain : Blockchain) (reward : ℕ) : ℕ :=
  max 1 (baseFeeQuotient reward chain.feeMedian - baseFeeQuotient reward chain.feeMedian / 20) / 100

/-- The needed fee, as a number, with the words that wrap around. -/
theorem toNat_neededFee (chain : Blockchain) (w reward : UInt64) :
    (chain.neededFee w reward (chain.currentBlockCumulWeightLimit / 2)).toNat =
      ((w.toNat * chain.feePerByte reward.toNat) % 2 ^ 64 + 9999) % 2 ^ 64 / 10000 * 10000 := by
  have hfee : (Blockchain.getDynamicBaseFee reward (min (chain.currentBlockCumulWeightLimit / 2)
      chain.longTermEffectiveMedianBlockWeight) / 100).toNat = chain.feePerByte reward.toNat := by
    rw [UInt64.toNat_div, toNat_getDynamicBaseFee, toNat_min_word]
    rfl
  rw [Blockchain.neededFee]
  generalize Blockchain.getDynamicBaseFee reward (min (chain.currentBlockCumulWeightLimit / 2)
    chain.longTermEffectiveMedianBlockWeight) / 100 = f at hfee
  have hmask : feeQuantizationMask.toNat = 10000 := rfl
  have hone : (1 : UInt64).toNat = 1 := rfl
  rw [UInt64.toNat_mul, UInt64.toNat_div, UInt64.toNat_sub, UInt64.toNat_add, UInt64.toNat_mul,
    hfee, hmask, hone]
  omega

/-- The reward that `check_fee` computes. -/
theorem Blockchain.exists_reward (chain : Blockchain) :
    ∃ reward : UInt64, reward.toNat ≤ 42857142857143 ∧
      getBlockReward checked (chain.currentBlockCumulWeightLimit / 2) 1
        chain.db.alreadyGeneratedCoins chain.hfVersion = some (some reward) ∧
      chain.feeReward = some reward := by
  obtain ⟨reward, hle, hchecked⟩ := getBlockReward_one (chain.currentBlockCumulWeightLimit / 2)
    chain.db.alreadyGeneratedCoins chain.hfVersion
  exact ⟨reward, hle, hchecked, agree_getBlockReward _ _ _ _ _ hchecked⟩

theorem checkFee_eq {chain : Blockchain} {reward : UInt64} (hreward : chain.feeReward = some reward)
    (w : ℕ) (fee : UInt64) :
    chain.checkFee w fee = decide
      (chain.neededFee (UInt64.ofNat w) reward (chain.currentBlockCumulWeightLimit / 2) -
        chain.neededFee (UInt64.ofNat w) reward (chain.currentBlockCumulWeightLimit / 2) / 50 ≤
          fee) := by
  rw [Blockchain.feeReward] at hreward
  rw [Blockchain.checkFee]
  simp only [hreward]

theorem Blockchain.feePerByte_pos_iff (chain : Blockchain) (reward : ℕ) :
    0 < chain.feePerByte reward ↔ 105 * (max 300000 chain.feeMedian) ^ 2 ≤ 12 * reward := by
  rw [← Nat.le_div_iff_mul_le (Nat.pow_pos (by omega))]
  change _ ↔ 105 ≤ baseFeeQuotient reward chain.feeMedian
  rw [Blockchain.feePerByte]
  omega

/-- **When a fee is asked for.** The needed fee is positive, and a transaction without a fee is
refused, if and only if the product of its weight and the fee per byte does not wrap around to 0, and
its rounding does not either. Where nothing wraps around this says that the base fee per byte is at
least 100. -/
theorem checkFee_zero_iff {chain : Blockchain} {reward : UInt64}
    (hreward : chain.feeReward = some reward) (w : UInt64) :
    ((0 < chain.neededFee w reward (chain.currentBlockCumulWeightLimit / 2) ∧
        chain.checkFee w.toNat 0 = false) ↔
      0 < w.toNat * chain.feePerByte reward.toNat % 2 ^ 64 ∧
        w.toNat * chain.feePerByte reward.toNat % 2 ^ 64 + 9999 < 2 ^ 64) ∧
    (w.toNat * chain.feePerByte reward.toNat + 9999 < 2 ^ 64 →
      ((0 < chain.neededFee w reward (chain.currentBlockCumulWeightLimit / 2) ∧
          chain.checkFee w.toNat 0 = false) ↔
        0 < w.toNat ∧ 105 * (max 300000 chain.feeMedian) ^ 2 ≤ 12 * reward.toNat)) := by
  have hneeded := toNat_neededFee chain w reward
  rw [checkFee_eq hreward, UInt64.ofNat_toNat]
  generalize chain.neededFee w reward (chain.currentBlockCumulWeightLimit / 2) = needed at hneeded
  have hpos : (0 < needed ∧ decide (needed - needed / 50 ≤ 0) = false) ↔ 0 < needed.toNat := by
    rw [decide_eq_false_iff_not, UInt64.not_le, UInt64.lt_iff_toNat_lt, UInt64.lt_iff_toNat_lt,
      UInt64.toNat_sub_of_le, UInt64.toNat_div]
    · change 0 < needed.toNat ∧ 0 < needed.toNat - needed.toNat / 50 ↔ 0 < needed.toNat
      omega
    · rw [UInt64.le_iff_toNat_le, UInt64.toNat_div]
      exact Nat.div_le_self _ _
  rw [hpos, hneeded, ← chain.feePerByte_pos_iff, ← CanonicallyOrderedAdd.mul_pos]
  generalize w.toNat * chain.feePerByte reward.toNat = a
  omega

/-! ### The estimates -/

theorem agree_unroundedFees (baseReward mnw mlw : UInt64) :
    Agree (unroundedFees checkedDiv baseReward mnw mlw)
      (unroundedFees wrappingDiv baseReward mnw mlw) :=
  .bind (agree_mul _ _) fun _ => .bind (agree_mul _ _) fun _ => .bind (agree_div _ _) fun _ =>
  .bind (agree_mul _ _) fun _ => .bind (agree_mul _ _) fun _ => .bind (agree_div _ _) fun _ =>
  .bind (agree_mul _ _) fun _ => .bind (agree_mul _ _) fun _ => .bind (agree_mul _ _) fun _ =>
  .bind (agree_div _ _) fun _ => .bind (agree_mul _ _) fun _ => .bind (agree_mul _ _) fun _ =>
  .bind (agree_div _ _) fun _ => .bind (agree_mul _ _) fun _ => .bind (agree_div _ _) fun _ =>
  .pure _

theorem agree_getDynamicBaseFeeEstimate (chain : Blockchain) (rm : RollingMedian UInt64)
    (graceBlocks : ℕ) :
    Agree (chain.getDynamicBaseFeeEstimate2021Scaling checkedDiv rm graceBlocks)
      (chain.getDynamicBaseFeeEstimate2021Scaling wrappingDiv rm graceBlocks) := by
  refine .ite (.pure _) ?_
  split
  · exact .pure _
  · exact .bind (agree_mul _ _) fun _ => .bind (agree_getBlockReward _ _ _ _) fun _ =>
      .bind (agree_unroundedFees _ _ _) fun _ => .pure _

/-- The four fees are ascending, and fit into a word with room for rounding. -/
structure FeesOrdered (fl fn fm fh : UInt64) : Prop where
  low : fl ≤ fn
  normal : fn ≤ fm
  medium : fm ≤ fh

/-- The fees before rounding, for a base reward of the emission and medians below `2 ^ 32`: no
operation wraps around or divides by zero. -/
theorem unroundedFees_checked {baseReward mnw mlw : UInt64}
    (hreward : baseReward.toNat ≤ 42857142857143) (hlow : 300000 ≤ mlw.toNat)
    (hhigh : mlw.toNat < 2 ^ 32) (hle : mlw.toNat ≤ mnw.toNat)
    (hsurge : mnw.toNat ≤ 50 * mlw.toNat) :
    ∃ fl fn fm fh, unroundedFees checkedDiv baseReward mnw mlw = some [fl, fn, fm, fh] ∧
      FeesOrdered fl fn fm fh ∧ fl.toNat = 12 * baseReward.toNat / mlw.toNat ^ 2 ∧
      fh.toNat ≤ 10 ^ 19 := by
  have h12 : dynamicFeeReferenceTransactionWeight.toNat = 12 := rfl
  have hzone : fullRewardZoneV5.toNat = 300000 := rfl
  have h4 : (4 : UInt64).toNat = 4 := rfl
  have h16 : (16 : UInt64).toNat = 16 := rfl
  have h384 : (32 * dynamicFeeReferenceTransactionWeight).toNat = 384 := rfl
  have hmfw : min mnw mlw = mlw := by
    rw [← UInt64.toNat_inj, toNat_min_word]
    omega
  generalize hR : baseReward.toNat = R at *
  generalize hM : mlw.toNat = M at *
  generalize hN : mnw.toNat = N at *
  have hsqlt : M * M < 2 ^ 64 :=
    calc M * M < 2 ^ 32 * 2 ^ 32 := Nat.mul_lt_mul'' hhigh hhigh
      _ = 2 ^ 64 := by norm_num
  have hsqpos : 0 < M * M := Nat.mul_pos (by omega) (by omega)
  -- the run, one operation after the other
  obtain ⟨square, hsquare, hsquare'⟩ := exists_checked_mul hM hM hsqlt
  obtain ⟨r₁₂, hr₁₂, hr₁₂'⟩ := exists_checked_mul hR h12 (by omega)
  obtain ⟨fl, hfl, hfl'⟩ := exists_checked_div hr₁₂' hsquare' hsqpos
  obtain ⟨r₄, hr₄, hr₄'⟩ := exists_checked_mul h4 hR (by omega)
  obtain ⟨r₄₈, hr₄₈, hr₄₈'⟩ := exists_checked_mul hr₄' h12 (by omega)
  obtain ⟨fn, hfn, hfn'⟩ := exists_checked_div hr₄₈' hsquare' hsqpos
  obtain ⟨r₁₆, hr₁₆, hr₁₆'⟩ := exists_checked_mul h16 hR (by omega)
  obtain ⟨r₁₉₂, hr₁₉₂, hr₁₉₂'⟩ := exists_checked_mul hr₁₆' h12 (by omega)
  obtain ⟨area, harea, harea'⟩ := exists_checked_mul hzone hM (by omega)
  obtain ⟨fm, hfm, hfm'⟩ := exists_checked_div hr₁₉₂' harea' (by omega)
  have hfmle : fm.toNat * M ≤ 30000000000 := by
    have := Nat.div_mul_le_self (16 * R * 12) (300000 * M)
    rw [← hfm', Nat.mul_left_comm] at this
    omega
  have hfmsmall : fm.toNat ≤ 30000000000 := le_trans (Nat.le_mul_of_pos_right _ (by omega)) hfmle
  obtain ⟨fm4, hfm4, hfm4'⟩ := exists_checked_mul h4 rfl (show 4 * fm.toNat < 2 ^ 64 by omega)
  obtain ⟨span, hspan, hspan'⟩ := exists_checked_mul h384 hN (by omega)
  obtain ⟨steps, hsteps, hsteps'⟩ := exists_checked_div hspan' hzone (by decide)
  have hprod : 4 * fm.toNat * M ≤ 120000000000 := by
    rw [Nat.mul_assoc]
    omega
  obtain ⟨p, hp, hp'⟩ := exists_checked_mul hfm4' hM (by omega)
  obtain ⟨fh, hfh, hfh'⟩ := exists_checked_div hp' hsteps' (by omega)
  refine ⟨fl, fn, fm, max fm4 fh, ?_, ⟨?_, ?_, ?_⟩, ?_, ?_⟩
  · have hmul : checkedDiv.mul = checked.mul := rfl
    simp only [unroundedFees, hmfw, hmul, Option.bind_eq_bind, hsquare, hr₁₂, hfl, hr₄, hr₄₈, hfn,
      hr₁₆, hr₁₉₂, harea, hfm, hfm4, hspan, hsteps, hp, hfh, Option.bind_some]
    rfl
  · rw [UInt64.le_iff_toNat_le, hfl', hfn']
    exact Nat.div_le_div_right (by omega)
  · -- the square of the median is not below the full reward zone times the median
    rw [UInt64.le_iff_toNat_le, hfn', hfm']
    exact Nat.div_le_div (by omega) (Nat.mul_le_mul_right _ hlow) (by omega)
  · rw [UInt64.le_iff_toNat_le, toNat_max_word]
    omega
  · rw [hfl', Nat.mul_comm R, Nat.pow_two]
  · have := Nat.div_le_self (4 * fm.toNat * M) (384 * N / 300000)
    rw [toNat_max_word]
    omega

theorem mapM_roundMoneyUp {fl fn fm fh : UInt64} (h : FeesOrdered fl fn fm fh)
    (hle : fh.toNat ≤ 10 ^ 19) :
    ∃ f₀ f₁ f₂ f₃, [fl, fn, fm, fh].mapM
        (fun fee => roundMoneyUp fee cryptonoteScaling2021FeeRoundingPlaces) =
          some [f₀, f₁, f₂, f₃] ∧
      FeesOrdered f₀ f₁ f₂ f₃ ∧ fl ≤ f₀ := by
  have h₁ := UInt64.le_iff_toNat_le.mp h.low
  have h₂ := UInt64.le_iff_toNat_le.mp h.normal
  have h₃ := UInt64.le_iff_toNat_le.mp h.medium
  have hround : ∀ fee : UInt64, fee.toNat ≤ 10 ^ 19 → ∃ r, roundMoneyUp fee
      cryptonoteScaling2021FeeRoundingPlaces = some r ∧ r.toNat = roundedUp fee.toNat 2 :=
    fun fee hfee => roundMoneyUp_eq_some (by decide) hfee
  obtain ⟨f₀, hf₀, hf₀'⟩ := hround fl (by omega)
  obtain ⟨f₁, hf₁, hf₁'⟩ := hround fn (by omega)
  obtain ⟨f₂, hf₂, hf₂'⟩ := hround fm (by omega)
  obtain ⟨f₃, hf₃, hf₃'⟩ := hround fh hle
  refine ⟨f₀, f₁, f₂, f₃, ?_, ⟨?_, ?_, ?_⟩, ?_⟩
  · simp only [List.mapM_cons, List.mapM_nil, hf₀, hf₁, hf₂, hf₃, Option.bind_eq_bind,
      Option.bind_some, Option.pure_def]
  · rw [UInt64.le_iff_toNat_le, hf₀', hf₁']
    exact roundedUp_mono 2 h₁
  · rw [UInt64.le_iff_toNat_le, hf₁', hf₂']
    exact roundedUp_mono 2 h₂
  · rw [UInt64.le_iff_toNat_le, hf₂', hf₃']
    exact roundedUp_mono 2 h₃
  · rw [UInt64.le_iff_toNat_le, hf₀']
    exact le_roundedUp _ _

/-- What `update_next_cumulative_weight_limit` leaves behind: the limits are those computed from the
database, and the rolling median holds its long-term weights. -/
structure Blockchain.UpToDate (chain : Blockchain) (rm : RollingMedian UInt64) : Prop where
  limits : chain.updateNextCumulativeWeightLimit = chain
  cached : chain.db.CachedBy rm

theorem Blockchain.updateNextCumulativeWeightLimit_idem (chain : Blockchain) :
    chain.updateNextCumulativeWeightLimit.updateNextCumulativeWeightLimit =
      chain.updateNextCumulativeWeightLimit := by
  have hlong : (if chain.hfVersion < hfVersionLongTermBlockWeight then
      chain.updateNextCumulativeWeightLimit.longTermEffectiveMedianBlockWeight
      else chain.db.longTermEffectiveMedian) =
        chain.updateNextCumulativeWeightLimit.longTermEffectiveMedianBlockWeight := by
    split_ifs with h
    · rfl
    · exact (if_neg h).symm
  exact congrArg (fun w => { chain.updateNextCumulativeWeightLimit with
    longTermEffectiveMedianBlockWeight := w }) hlong

section Estimate

variable {chain : Blockchain} {rm : RollingMedian UInt64}

/-- From version 15 on the short-term median is not below the long-term one, so that fees are
computed from the latter. -/
theorem Blockchain.UpToDate.feeMedian_eq (h : chain.UpToDate rm) (hnet : chain.OnNetwork)
    (hpos : 0 < chain.db.height) (hmedian : chain.db.longTermEffectiveMedian.toNat < 2 ^ 32) :
    chain.feeMedian = chain.db.longTermEffectiveMedian.toNat := by
  have hversion := hnet.fifteen_le hpos
  have h10 : ¬ chain.hfVersion < hfVersionLongTermBlockWeight :=
    UInt8.not_lt.mpr (UInt8.le_trans (by decide) hversion)
  have hlong : chain.longTermEffectiveMedianBlockWeight = chain.db.longTermEffectiveMedian := by
    conv_lhs => rw [← h.limits]
    exact if_neg h10
  have hlimit : chain.currentBlockCumulWeightLimit =
      effectiveMedian chain.nextWeightMedian chain.hfVersion * 2 := by
    conv_lhs => rw [← h.limits]
    rfl
  have hnext : chain.nextWeightMedian.toNat = min (max chain.db.longTermEffectiveMedian.toNat
      chain.db.lastBlocksWeightMedian.toNat) (50 * chain.db.longTermEffectiveMedian.toNat) := by
    have hsurge : (cryptonoteShortTermBlockWeightSurgeFactor *
        chain.db.longTermEffectiveMedian).toNat = 50 * chain.db.longTermEffectiveMedian.toNat :=
      toNat_mul_of_lt (show 50 * _ < _ by omega)
    rw [nextWeightMedian, if_neg h10]
    simp only [if_pos hversion]
    rw [toNat_min_word, toNat_max_word, hsurge]
  have hzone := toNat_getMinBlockWeight chain.hfVersion
  have heffective := toNat_effectiveMedian chain.nextWeightMedian chain.hfVersion
  have htwo : (2 : UInt64).toNat = 2 := rfl
  have hlt : (effectiveMedian chain.nextWeightMedian chain.hfVersion).toNat * 2 < 2 ^ 64 := by
    omega
  rw [feeMedian, hlong, hlimit, UInt64.toNat_div, UInt64.toNat_mul, htwo, Nat.mod_eq_of_lt hlt]
  omega

/-- A fee of at least 100 times the fee per byte suffices. -/
theorem checkFee_of_le {reward : UInt64} (hreward : chain.feeReward = some reward) {w f : ℕ}
    (hw : 102 ≤ w) (hf : 100 * chain.feePerByte reward.toNat ≤ f) {fee : UInt64}
    (hfee : fee.toNat = f * w) : chain.checkFee w fee = true := by
  rw [checkFee_eq hreward, decide_eq_true_iff, UInt64.le_iff_toNat_le]
  have hneeded := toNat_neededFee chain (UInt64.ofNat w) reward
  generalize chain.neededFee (UInt64.ofNat w) reward (chain.currentBlockCumulWeightLimit / 2) =
    needed at hneeded
  have hle : (needed - needed / 50).toNat ≤ needed.toNat := by
    rw [UInt64.toNat_sub_of_le]
    · exact Nat.sub_le _ _
    · rw [UInt64.le_iff_toNat_le, UInt64.toNat_div]
      exact Nat.div_le_self _ _
  refine hle.trans ?_
  rw [hneeded, hfee]
  generalize chain.feePerByte reward.toNat = p at *
  rcases Nat.eq_zero_or_pos p with rfl | hp
  · rw [Nat.mul_zero]
    exact Nat.zero_le _
  · have hmul : 100 * (p * w) ≤ f * w := by
      rw [← Nat.mul_assoc]
      exact Nat.mul_le_mul_right w hf
    have hpw : w ≤ p * w := Nat.le_mul_of_pos_left w hp
    have hprod : (UInt64.ofNat w).toNat * p ≤ p * w := by
      rw [Nat.mul_comm p, UInt64.toNat_ofNat']
      exact Nat.mul_le_mul_right p (Nat.mod_le _ _)
    have hmod := Nat.mod_le ((UInt64.ofNat w).toNat * p) (2 ^ 64)
    generalize (UInt64.ofNat w).toNat * p % 2 ^ 64 = a at *
    omega

/-- With at least one block of the chain in the window there are estimates. -/
theorem Db.getLastNBlocksWeights_isSome {db : Db} (hpos : 0 < db.height) (count : ℕ) :
    (∃ weights, db.getLastNBlocksWeights count = some weights) ↔ 0 < count := by
  rw [getLastNBlocksWeights, if_neg hpos.ne']
  simp only
  split_ifs with h
  · exact iff_of_false (fun ⟨_, h⟩ => nomatch h) (by omega)
  · exact iff_of_true ⟨_, rfl⟩ (by omega)

/-- The estimates, with at least one block of the chain in the window: the first one is at least 100
times the fee per byte that is asked for. -/
theorem exists_feeEstimate (hnet : chain.OnNetwork) (hpos : 0 < chain.db.height)
    (hup : chain.UpToDate rm) (hmedian : chain.db.longTermEffectiveMedian.toNat < 2 ^ 32)
    {graceBlocks : ℕ} (hgrace : graceBlocks ≤ cryptonoteRewardBlocksWindow) {weights : List UInt64}
    (hweights : chain.db.getLastNBlocksWeights (100 - graceBlocks) = some weights) {reward : UInt64}
    (hreward : getBlockReward checked (chain.currentBlockCumulWeightLimit / 2) 1
      chain.db.alreadyGeneratedCoins chain.hfVersion = some (some reward))
    (hle : reward.toNat ≤ 42857142857143) :
    ∃ f₀ f₁ f₂ f₃, chain.getDynamicBaseFeeEstimate2021Scaling checkedDiv rm graceBlocks =
        some (some [f₀, f₁, f₂, f₃]) ∧
      FeesOrdered f₀ f₁ f₂ f₃ ∧ 100 * chain.feePerByte reward.toNat ≤ f₀.toNat := by
  have hlt : chain.db.longTermEffectiveMedian.toNat =
      max 300000 chain.db.longTermBlockWeightMedian.toNat := toNat_max_word _ _
  have hmlw : (max (graceMedian rm graceBlocks) fullRewardZoneV5).toNat =
      max (graceMedian rm graceBlocks).toNat 300000 := toNat_max_word _ _
  have hgraceLe := UInt64.le_iff_toNat_le.mp (hup.cached.graceMedian_le hpos graceBlocks)
  generalize hmlw' : max (graceMedian rm graceBlocks) fullRewardZoneV5 = mlw at hmlw
  obtain ⟨surge, hsurge, hsurge'⟩ := exists_checked_mul
    (show (50 : UInt64).toNat = 50 from rfl) (show mlw.toNat = _ from rfl) (by omega)
  have hmsw := toNat_max_word (median (weights ++ List.replicate graceBlocks 0)) mlw
  generalize hmsw' : max (median (weights ++ List.replicate graceBlocks 0)) mlw = msw at hmsw
  have hmnw := toNat_min_word msw surge
  generalize hmnw' : min msw surge = mnw at hmnw
  obtain ⟨fl, fn, fm, fh, hfees, hordered, hfl, hfh⟩ := @unroundedFees_checked reward mnw mlw hle
    (by omega) (by omega) (by omega) (by omega)
  obtain ⟨f₀, f₁, f₂, f₃, hround, hordered', hf₀⟩ := mapM_roundMoneyUp hordered hfh
  refine ⟨f₀, f₁, f₂, f₃, ?_, hordered', ?_⟩
  · have hmul : checkedDiv.mul = checked.mul := rfl
    have htoOps : checkedDiv.toOps = checked := rfl
    rw [Blockchain.getDynamicBaseFeeEstimate2021Scaling, if_neg (Nat.not_lt.mpr hgrace)]
    simp only [hweights, hmlw', hmsw', hmnw', htoOps, hsurge, hreward, feeEstimates, hfees,
      Option.bind_eq_bind, Option.bind_some, Option.getD_some, hround, Option.pure_def]
  · -- the median of the estimate is not above the long-term median of the chain
    have hquotient : baseFeeQuotient reward.toNat chain.feeMedian ≤ fl.toNat := by
      rw [hfl, baseFeeQuotient, hup.feeMedian_eq hnet hpos hmedian]
      refine Nat.div_le_div_left ?_ (Nat.pow_pos (by omega))
      exact Nat.pow_le_pow_left (by omega) 2
    have hlow := UInt64.le_iff_toNat_le.mp hf₀
    rw [Blockchain.feePerByte]
    omega

theorem FeesOrdered.first_le {f₀ f₁ f₂ f₃ f : UInt64} (h : FeesOrdered f₀ f₁ f₂ f₃)
    (hf : f ∈ [f₀, f₁, f₂, f₃]) : f₀.toNat ≤ f.toNat := by
  have h₁ := UInt64.le_iff_toNat_le.mp h.low
  have h₂ := UInt64.le_iff_toNat_le.mp h.normal
  have h₃ := UInt64.le_iff_toNat_le.mp h.medium
  simp only [List.mem_cons, List.not_mem_nil, or_false] at hf
  obtain rfl | rfl | rfl | rfl := hf <;> omega

/-- The estimates are returned without an operation that wraps around or divides by zero, they are
ascending, and each of them suffices for every weight of at least 102 for which the fee fits into a
word. -/
def Blockchain.GoodEstimate (chain : Blockchain) (rm : RollingMedian UInt64) (graceBlocks : ℕ) :
    Prop :=
  ∃ f₀ f₁ f₂ f₃ : UInt64,
    chain.getDynamicBaseFeeEstimate2021Scaling checkedDiv rm graceBlocks =
      some (some [f₀, f₁, f₂, f₃]) ∧
    (chain.getDynamicBaseFeeEstimate2021Scaling wrappingDiv rm graceBlocks :
      Option (List UInt64)) = some [f₀, f₁, f₂, f₃] ∧
    FeesOrdered f₀ f₁ f₂ f₃ ∧
    ∀ w ≥ 102, ∀ f ∈ [f₀, f₁, f₂, f₃], ∀ fee : UInt64, fee.toNat = f.toNat * w →
      chain.checkFee w fee = true

/-- Without a block of the chain in the window there is no estimate. -/
theorem not_goodEstimate {graceBlocks : ℕ}
    (h : chain.db.getLastNBlocksWeights (100 - graceBlocks) = none) :
    ¬ chain.GoodEstimate rm graceBlocks := by
  rintro ⟨f₀, f₁, f₂, f₃, hrun, -⟩
  rw [Blockchain.getDynamicBaseFeeEstimate2021Scaling, h] at hrun
  split_ifs at hrun <;> cases Option.some.inj hrun

/-- **Fee estimates.** On a network, for medians below `2 ^ 32` and for at most 100 blocks to wait
for, the estimates are good if and only if there are fewer than 100 blocks to wait for. -/
theorem feeEstimate_iff (hnet : chain.OnNetwork) (hpos : 0 < chain.db.height)
    (hup : chain.UpToDate rm) (hmedian : chain.db.longTermEffectiveMedian.toNat < 2 ^ 32)
    {graceBlocks : ℕ} (hgrace : graceBlocks ≤ cryptonoteRewardBlocksWindow) :
    chain.GoodEstimate rm graceBlocks ↔ graceBlocks < 100 := by
  have hwindow := Db.getLastNBlocksWeights_isSome hpos (100 - graceBlocks)
  rw [Nat.sub_pos_iff_lt] at hwindow
  constructor
  · intro hgood
    cases hweights : chain.db.getLastNBlocksWeights (100 - graceBlocks) with
    | none => exact absurd hgood (not_goodEstimate hweights)
    | some weights => exact hwindow.mp ⟨weights, hweights⟩
  · intro hlt
    obtain ⟨weights, hweights⟩ := hwindow.mpr hlt
    obtain ⟨reward, hle, hchecked, hwrapping⟩ := chain.exists_reward
    obtain ⟨f₀, f₁, f₂, f₃, hrun, hordered, hfee⟩ :=
      exists_feeEstimate hnet hpos hup hmedian hgrace hweights hchecked hle
    refine ⟨f₀, f₁, f₂, f₃, hrun, agree_getDynamicBaseFeeEstimate _ _ _ _ hrun, hordered, ?_⟩
    intro w hw f hf fee heq
    exact checkFee_of_le hwrapping hw (hfee.trans (hordered.first_le hf)) heq

end Estimate

/-! ### Two chains on mainnet -/

/-- A chain on mainnet with one block, after which the given number of coins has been generated, and
with the given base reward. -/
structure Blockchain.OneBlock (coins reward : UInt64) (chain : Blockchain) : Prop where
  network : chain.OnNetwork
  height : chain.db.height = 1
  infos : chain.db.infos.length = 1
  coins_eq : chain.db.alreadyGeneratedCoins = coins
  limits : chain.updateNextCumulativeWeightLimit = chain
  longTerm : chain.db.longTermEffectiveMedian = 300000
  reward_eq : chain.feeReward = some reward

/-- The block can be added, with these medians and this reward. -/
def oneBlockOk (coins reward : UInt64) : Bool :=
  okAnd (addBlocks Crypto.transparent [(minedBlock 1 0 0, ⟨0, 0, 1, coins⟩, [])] (Db.empty 0))
    fun _ db => decide (db.height = 1 ∧ db.infos.length = 1 ∧ db.alreadyGeneratedCoins = coins ∧
      db.longTermEffectiveMedian = 300000 ∧ (Node.mainnet db).chain.feeReward = some reward)

theorem exists_oneBlock {coins reward : UInt64} (h : oneBlockOk coins reward = true) :
    ∃ chain : Blockchain, chain.OneBlock coins reward := by
  obtain ⟨⟨⟩, db, -, hdb⟩ := exists_of_okAnd h
  obtain ⟨hheight, hinfos, hcoins, hmedian, hreward⟩ := of_decide_eq_true hdb
  exact ⟨(Node.mainnet db).chain, Node.mainnet_onNetwork hheight, hheight, hinfos, hcoins,
    Blockchain.updateNextCumulativeWeightLimit_idem _, hmedian, hreward⟩

/-- The first block: the reward is that of the first halving period. -/
theorem exists_oneBlock_first : ∃ chain : Blockchain, chain.OneBlock 0 42857142857143 :=
  exists_oneBlock (by decide +kernel)

/-- After the coins of seven halving periods. -/
theorem exists_oneBlock_seven :
    ∃ chain : Blockchain, chain.OneBlock (UInt64.ofNat (emitted 7)) 334821428571 :=
  exists_oneBlock (by decide +kernel)

section OneBlock

variable {chain : Blockchain} {coins reward : UInt64}

theorem Blockchain.OneBlock.height_pos (h : chain.OneBlock coins reward) : 0 < chain.db.height := by
  rw [h.height]
  exact Nat.one_pos

theorem Blockchain.OneBlock.median_lt (h : chain.OneBlock coins reward) :
    chain.db.longTermEffectiveMedian.toNat < 2 ^ 32 := by
  rw [h.longTerm]
  decide

theorem Blockchain.OneBlock.exists_upToDate (h : chain.OneBlock coins reward) :
    ∃ rm, chain.UpToDate rm := by
  obtain ⟨rm, hrm⟩ := Db.exists_cachedBy (h.infos.trans h.height.symm)
  exact ⟨rm, h.limits, hrm⟩

theorem Blockchain.OneBlock.feeMedian_eq (h : chain.OneBlock coins reward) :
    chain.feeMedian = 300000 := by
  obtain ⟨rm, hrm⟩ := h.exists_upToDate
  rw [hrm.feeMedian_eq h.network h.height_pos h.median_lt, h.longTerm]
  rfl

end OneBlock

/-- On the first block a transaction of weight 1000 needs a fee. -/
theorem checkFee_zero_first : ∃ chain : Blockchain, chain.OneBlock 0 42857142857143 ∧
    0 < chain.neededFee 1000 42857142857143 (chain.currentBlockCumulWeightLimit / 2) ∧
    chain.checkFee 1000 0 = false := by
  obtain ⟨chain, h⟩ := exists_oneBlock_first
  have hfee : chain.feePerByte (42857142857143 : UInt64).toNat = 54 := by
    rw [Blockchain.feePerByte, h.feeMedian_eq]
    decide
  refine ⟨chain, h, ((checkFee_zero_iff h.reward_eq 1000).2 ?_).mpr ⟨by decide, ?_⟩⟩
  · rw [hfee]
    decide
  · rw [h.feeMedian_eq]
    decide

/-- After seven halvings no fee is needed, although the reward is positive. -/
theorem neededFee_seven : ∃ (chain : Blockchain) (reward : UInt64),
    chain.OnNetwork ∧ 0 < chain.db.height ∧ 0 < reward ∧
    chain.feeReward = some reward ∧
    ∀ w : UInt64, chain.neededFee w reward (chain.currentBlockCumulWeightLimit / 2) = 0 ∧
      chain.checkFee w.toNat 0 = true := by
  obtain ⟨chain, h⟩ := exists_oneBlock_seven
  refine ⟨chain, 334821428571, h.network, h.height_pos, by decide, h.reward_eq, fun w => ?_⟩
  have hfee : chain.feePerByte (334821428571 : UInt64).toNat = 0 := by
    rw [Blockchain.feePerByte, h.feeMedian_eq]
    decide
  have hneeded : chain.neededFee w 334821428571 (chain.currentBlockCumulWeightLimit / 2) = 0 := by
    rw [← UInt64.toNat_inj, toNat_neededFee, hfee, Nat.mul_zero]
    rfl
  refine ⟨hneeded, ?_⟩
  rw [checkFee_eq h.reward_eq, UInt64.ofNat_toNat, hneeded]
  rfl

/-- On the first block there are good estimates for 10 blocks to wait for. -/
theorem feeEstimate_first : ∃ (chain : Blockchain) (rm : RollingMedian UInt64),
    chain.OneBlock 0 42857142857143 ∧ chain.UpToDate rm ∧ chain.GoodEstimate rm 10 := by
  obtain ⟨chain, h⟩ := exists_oneBlock_first
  obtain ⟨rm, hrm⟩ := h.exists_upToDate
  exact ⟨chain, rm, h, hrm,
    (feeEstimate_iff h.network h.height_pos hrm h.median_lt (by decide)).mpr (by decide)⟩

/-- For 100 blocks to wait for there is no estimate. -/
theorem feeEstimate_hundred : ∃ (chain : Blockchain) (rm : RollingMedian UInt64),
    chain.OnNetwork ∧ 0 < chain.db.height ∧ chain.UpToDate rm ∧
    chain.db.longTermEffectiveMedian = 300000 ∧
    chain.getDynamicBaseFeeEstimate2021Scaling checkedDiv rm 100 = some none ∧
    ¬ chain.GoodEstimate rm 100 := by
  obtain ⟨chain, h⟩ := exists_oneBlock_first
  obtain ⟨rm, hrm⟩ := h.exists_upToDate
  have hweights : chain.db.getLastNBlocksWeights (100 - 100) = none := by
    rw [Db.getLastNBlocksWeights, h.height]
    rfl
  refine ⟨chain, rm, h.network, h.height_pos, hrm, h.longTerm, ?_, not_goodEstimate hweights⟩
  rw [Blockchain.getDynamicBaseFeeEstimate2021Scaling, hweights]
  rfl

end Hidering
