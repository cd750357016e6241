import Hidering.Chain.Reward

/-!
# The emission schedule and the weight penalty

`get_block_reward` finds the halving period from the coins that have been generated and not from the
height. If every block claims the full reward the two agree: after `210000 * k + i` blocks the coins
of `k` periods and of `i` blocks of period `k` have been generated, and this emission lies in period
`k`. The supply is never reached, so the clamp does not come into play.

A block above the median weight `m` gets `R * (2 * m - w) * w / m / m` of the full reward `R`. For
medians below `2 ^ 32` this is exact: the factor `(2 * m - w) * w` is at most `m * m` and fits into
a word.

## Main definitions

* `Hidering.coinsAfter` — the generated coins after a number of blocks

## Main results

* `Hidering.halving_schedule` — the reward of every block of the schedule, and that the reward falls
  with the generated coins
* `Hidering.weight_penalty` — the reward as a function of the weight
-/

namespace Hidering

open Machine

/-! ### Rewards and generated coins -/

/-- The reward before the penalty that the program computes. -/
def machineBase (coins : UInt64) : UInt64 := baseReward wrapping coins

/-- The reward after the penalty that the program computes. -/
def machinePenalty (base medianWeight weight : UInt64) (version : UInt8) : Option UInt64 :=
  weightPenalty wrapping base medianWeight weight version

/-- The reward that the program computes. -/
def machineReward (medianWeight weight coins : UInt64) (version : UInt8) : Option UInt64 :=
  getBlockReward wrapping medianWeight weight coins version

/-- The period that an emission is in does not go back. -/
theorem period_le {a b j k : ℕ} (hab : a ≤ b) (ha : emitted j ≤ a)
    (hk : k = 46 ∨ b < emitted (k + 1)) (hj : j ≤ 46) : j ≤ k := by
  by_contra hlt
  rcases hk with rfl | hk
  · omega
  · have hmono : emitted (k + 1) ≤ emitted j := emitted_mono (by omega)
    omega

theorem periodReward_anti {j k : ℕ} (h : j ≤ k) : periodReward k ≤ periodReward j :=
  Nat.div_le_div_left (Nat.pow_le_pow_right (by decide) h) (Nat.two_pow_pos j)

/-- The reward before the penalty falls with the generated coins. -/
theorem machineBase_anti {a b : UInt64} (hab : a ≤ b) (hb : b < moneySupply) :
    machineBase b ≤ machineBase a := by
  obtain ⟨j, base, hj, hja, -, hbase, hvalue⟩ := baseReward_value (UInt64.lt_of_le_of_lt hab hb)
  obtain ⟨k, base', -, -, hkb, hbase', hvalue'⟩ := baseReward_value hb
  have hwrap : machineBase a = base := agree_baseReward a base hbase
  have hwrap' : machineBase b = base' := agree_baseReward b base' hbase'
  rw [UInt64.le_iff_toNat_le] at hab
  have hperiod := periodReward_anti (period_le hab hja hkb hj)
  rw [hwrap, hwrap', UInt64.le_iff_toNat_le, hvalue, hvalue']
  omega

theorem machineBase_le {coins : UInt64} (hcoins : coins < moneySupply) :
    (machineBase coins).toNat ≤ 42857142857143 := by
  obtain ⟨base, hbase, -, hle, -⟩ := baseReward_spec hcoins
  have hwrap : machineBase coins = base := agree_baseReward coins base hbase
  rwa [hwrap]

/-! ### The penalty -/

/-- The penalty of the machine, written out. -/
theorem machinePenalty_eq (base medianWeight weight : UInt64) (version : UInt8) :
    machinePenalty base medianWeight weight version =
      if weight ≤ effectiveMedian medianWeight version then some base
      else if 2 * effectiveMedian medianWeight version < weight then none
      else some (div128 (div128 (mul128 base
        ((2 * effectiveMedian medianWeight version - weight) * weight))
        (effectiveMedian medianWeight version)) (effectiveMedian medianWeight version)).2 :=
  rfl

/-- Two divisions of a product whose result fits into a word. -/
theorem div128_div128 {base factor median : UInt64}
    (h : base.toNat * factor.toNat / median.toNat / median.toNat < 2 ^ 64) :
    (div128 (div128 (mul128 base factor) median) median).1 = 0 ∧
      (div128 (div128 (mul128 base factor) median) median).2.toNat =
        base.toNat * factor.toNat / median.toNat / median.toNat := by
  have hexact : toNat128 (div128 (div128 (mul128 base factor) median) median) =
      base.toNat * factor.toNat / median.toNat / median.toNat := by
    rw [toNat_div128, toNat_div128, toNat_mul128]
  rw [toNat128] at hexact
  refine ⟨UInt64.toNat_inj.mp ?_, ?_⟩
  · have hzero : (0 : UInt64).toNat = 0 := rfl
    omega
  · omega

/-- The factor of the penalty is at most the square of the median, or the median is large. -/
theorem penalty_fits {base weight median : UInt64} (hbase : base.toNat ≤ 42857142857143)
    (hpos : 0 < median.toNat) (hle : ¬ 2 * median < weight) :
    base.toNat * ((2 * median - weight) * weight).toNat / median.toNat / median.toNat < 2 ^ 64 := by
  rw [Nat.div_div_eq_div_mul, Nat.div_lt_iff_lt_mul (Nat.mul_pos hpos hpos)]
  rcases Nat.lt_or_ge median.toNat (2 ^ 32) with hsmall | hlarge
  · have htwo : (2 : UInt64).toNat = 2 := rfl
    have hlimit : (2 * median).toNat = 2 * median.toNat := by
      rw [toNat_mul_of_lt] <;> rw [htwo]
      omega
    have hle' := UInt64.not_lt.mp hle
    have hweight := UInt64.le_iff_toNat_le.mp hle'
    have hfactor : ((2 * median - weight) * weight).toNat ≤ median.toNat * median.toNat := by
      rw [UInt64.toNat_mul, UInt64.toNat_sub_of_le _ _ hle', hlimit]
      exact (Nat.mod_le _ _).trans (penalty_le_sq (by omega))
    calc base.toNat * ((2 * median - weight) * weight).toNat
        ≤ 42857142857143 * (median.toNat * median.toNat) := Nat.mul_le_mul hbase hfactor
      _ < 2 ^ 64 * (median.toNat * median.toNat) :=
        Nat.mul_lt_mul_of_pos_right (by decide) (Nat.mul_pos hpos hpos)
  · have hfactor := ((2 * median - weight) * weight).toNat_lt
    have hsquare : 2 ^ 32 * 2 ^ 32 ≤ median.toNat * median.toNat := Nat.mul_le_mul hlarge hlarge
    calc base.toNat * ((2 * median - weight) * weight).toNat
        ≤ 42857142857143 * 2 ^ 64 := Nat.mul_le_mul hbase hfactor.le
      _ < 2 ^ 64 * (2 ^ 32 * 2 ^ 32) := by decide
      _ ≤ 2 ^ 64 * (median.toNat * median.toNat) := Nat.mul_le_mul_left _ hsquare

theorem effectiveMedian_pos (medianWeight : UInt64) (version : UInt8) :
    0 < (effectiveMedian medianWeight version).toNat := by
  have hzone := toNat_getMinBlockWeight version
  have hmed := toNat_effectiveMedian medianWeight version
  omega

/-- A smaller reward is accepted at the same weights, and stays smaller after the penalty. -/
theorem machinePenalty_mono {base base' medianWeight weight reward : UInt64} {version : UInt8}
    (hbase : base.toNat ≤ 42857142857143) (hle : base' ≤ base)
    (h : machinePenalty base medianWeight weight version = some reward) :
    ∃ reward', machinePenalty base' medianWeight weight version =
      some reward' ∧ reward' ≤ reward := by
  have hpos := effectiveMedian_pos medianWeight version
  rw [machinePenalty_eq] at h ⊢
  generalize effectiveMedian medianWeight version = median at *
  by_cases hlight : weight ≤ median
  · rw [if_pos hlight] at h ⊢
    obtain rfl := Option.some.inj h
    exact ⟨base', rfl, hle⟩
  rw [if_neg hlight] at h ⊢
  by_cases hheavy : 2 * median < weight
  · rw [if_pos hheavy] at h
    cases h
  rw [if_neg hheavy] at h ⊢
  obtain rfl := Option.some.inj h
  refine ⟨_, rfl, ?_⟩
  rw [UInt64.le_iff_toNat_le] at hle ⊢
  rw [(div128_div128 (penalty_fits (hle.trans hbase) hpos hheavy)).2,
    (div128_div128 (penalty_fits hbase hpos hheavy)).2]
  exact Nat.div_le_div_right (Nat.div_le_div_right (Nat.mul_le_mul_right _ hle))

/-- `get_block_reward` before the supply is reached. -/
theorem machineReward_of_lt {medianWeight weight coins : UInt64} {version : UInt8}
    (hcoins : coins < moneySupply) :
    machineReward medianWeight weight coins version =
      if machineBase coins = 0 then some 0
      else machinePenalty (machineBase coins) medianWeight weight version := by
  rw [machineReward, getBlockReward, if_neg (UInt64.not_le.mpr hcoins)]
  rfl

theorem machineReward_anti {medianWeight weight a b reward : UInt64} {version : UInt8} (hab : a ≤ b)
    (h : machineReward medianWeight weight a version = some reward) :
    ∃ reward', machineReward medianWeight weight b version = some reward' ∧ reward' ≤ reward := by
  by_cases hb : b < moneySupply
  · have ha := UInt64.lt_of_le_of_lt hab hb
    have hbase := machineBase_anti hab hb
    rw [machineReward_of_lt ha] at h
    rw [machineReward_of_lt hb]
    by_cases hzero : machineBase b = 0
    · rw [if_pos hzero]
      exact ⟨0, rfl, UInt64.zero_le⟩
    · have hne : machineBase a ≠ 0 := by
        intro h0
        rw [h0] at hbase
        exact hzero (UInt64.le_zero_iff.mp hbase)
      rw [if_neg hne] at h
      rw [if_neg hzero]
      exact machinePenalty_mono (machineBase_le ha) hbase h
  · refine ⟨0, ?_, UInt64.zero_le⟩
    rw [machineReward, getBlockReward, if_pos (UInt64.not_lt.mp hb)]
    rfl

/-! ### The schedule -/

theorem periodReward_of_le {k : ℕ} (hk : 46 ≤ k) : periodReward k = 0 :=
  Nat.div_eq_of_lt (lt_of_lt_of_le (by decide) (Nat.pow_le_pow_right (by decide) hk))

theorem emitted_of_le {k : ℕ} (hk : 46 ≤ k) : emitted k = emissionEnd := by
  induction k, hk using Nat.le_induction with
  | base => rfl
  | succ k hk ih => rw [emitted, ih, periodReward_of_le hk, Nat.zero_mul, Nat.add_zero]

theorem emitted_le_end (k : ℕ) : emitted k ≤ emissionEnd := by
  rcases Nat.le_total k 46 with hk | hk
  · exact emitted_mono hk
  · exact (emitted_of_le hk).le

/-- In the course of period `k` the reward is that of the period, and the clamp does not come into
play. -/
theorem machineBase_of_period {coins : UInt64} {k i : ℕ} (hi : i < 210000)
    (hcoins : coins.toNat = emitted k + i * periodReward k) :
    coins < moneySupply ∧ (machineBase coins).toNat = periodReward k ∧
      coins.toNat + periodReward k ≤ moneySupply.toNat := by
  have hnext : coins.toNat + periodReward k ≤ emitted (k + 1) := by
    rw [emitted, hcoins, Nat.add_assoc, ← Nat.succ_mul, Nat.mul_comm (periodReward k)]
    exact Nat.add_le_add_left (Nat.mul_le_mul_right _ hi) _
  have hend := emitted_le_end (k + 1)
  have hsupply := emissionEnd_lt
  have hlt : coins < moneySupply := UInt64.lt_iff_toNat_lt.mpr (by omega)
  obtain ⟨j, base, hj, hbelow, hperiod, hbase, hvalue⟩ := baseReward_value hlt
  have hwrap : machineBase coins = base := agree_baseReward coins base hbase
  have hsame : periodReward j = periodReward k := by
    rcases Nat.lt_or_ge k 46 with hk | hk
    · have hpos := periodReward_pos hk
      have hjk : j ≤ k := period_le le_rfl hbelow (.inr (by omega)) hj
      have hkj : k ≤ j := period_le le_rfl (hcoins ▸ Nat.le_add_right _ _) hperiod hk.le
      rw [Nat.le_antisymm hjk hkj]
    · have hemitted : emitted 46 ≤ coins.toNat := by
        rw [hcoins, emitted_of_le hk]
        exact Nat.le_add_right _ _
      rw [periodReward_of_le hk, periodReward_of_le (period_le le_rfl hemitted hperiod le_rfl)]
  refine ⟨hlt, ?_, by omega⟩
  rw [hwrap, hvalue, hsame]
  omega

section Schedule

variable (median weight : ℕ → UInt64) (version : ℕ → UInt8)

/-- The generated coins after `n` blocks that claim the whole reward. -/
def coinsAfter : ℕ → UInt64
  | 0 => 0
  | n + 1 => nextGeneratedCoins wrapping
      ((machineReward (median n) (weight n) (coinsAfter n) (version n)).getD 0) (coinsAfter n)

variable {median weight version}

/-- A block at or below the median weight gets the reward without a penalty. -/
theorem machineReward_of_light {medianWeight weight coins : UInt64} {version : UInt8}
    (hlight : weight ≤ effectiveMedian medianWeight version) (hcoins : coins < moneySupply) :
    machineReward medianWeight weight coins version = some (machineBase coins) := by
  rw [machineReward_of_lt hcoins]
  split
  · next hzero => rw [hzero]
  · rw [machinePenalty_eq, if_pos hlight]

/-- After `210000 * k + i` blocks the coins of `k` periods and `i` blocks are generated. -/
theorem coinsAfter_eq (hfull : ∀ i, weight i ≤ effectiveMedian (median i) (version i)) (n : ℕ) :
    (coinsAfter median weight version n).toNat =
      emitted (n / 210000) + n % 210000 * periodReward (n / 210000) := by
  induction n with
  | zero => rfl
  | succ n ih =>
    obtain ⟨hlt, hbase, hfits⟩ :=
      machineBase_of_period (Nat.mod_lt n (by decide : 0 < 210000)) ih
    rw [coinsAfter, machineReward_of_light (hfull n) hlt, Option.getD_some]
    rw [← hbase] at hfits
    obtain ⟨next, -, hnext, hvalue⟩ := nextGeneratedCoins_checked hfits
    rw [hnext, hvalue, ih, hbase]
    -- either the period goes on, or the next one begins
    rcases Nat.lt_or_ge (n % 210000 + 1) 210000 with hgo | hend
    · have hdiv : (n + 1) / 210000 = n / 210000 := by omega
      have hmod : (n + 1) % 210000 = n % 210000 + 1 := by omega
      rw [hdiv, hmod, Nat.succ_mul, Nat.add_assoc]
    · have hdiv : (n + 1) / 210000 = n / 210000 + 1 := by omega
      have hmod : (n + 1) % 210000 = 0 := by omega
      have hlast : n % 210000 = 209999 := by omega
      rw [hdiv, hmod, emitted, hlast]
      omega

/-- **The halving schedule.** If every block claims the full reward, block `n` receives the initial
reward halved `n / 210000` times; the clamp at the supply never reduces it. And for the same median
and weight the reward falls with the generated coins. -/
theorem halving_schedule (median weight : ℕ → UInt64) (version : ℕ → UInt8)
    (hfull : ∀ i, weight i ≤ effectiveMedian (median i) (version i)) :
    (∀ n, ∃ reward, machineReward (median n) (weight n) (coinsAfter median weight version n)
        (version n) = some reward ∧
      reward.toNat = initialBlockReward.toNat >>> (n / 210000)) ∧
      ∀ (medianWeight blockWeight a b : UInt64) (hfVersion : UInt8) (reward : UInt64), a ≤ b →
        machineReward medianWeight blockWeight a hfVersion = some reward →
          ∃ reward', machineReward medianWeight blockWeight b hfVersion = some reward' ∧
            reward' ≤ reward := by
  refine ⟨fun n => ?_, fun _ _ _ _ _ _ hab h => machineReward_anti hab h⟩
  obtain ⟨hlt, hbase, -⟩ := machineBase_of_period (Nat.mod_lt n (by decide : 0 < 210000))
    (coinsAfter_eq hfull n)
  refine ⟨_, machineReward_of_light (hfull n) hlt, ?_⟩
  rw [hbase, Nat.shiftRight_eq_div_pow]
  rfl

/-- The first block after the first halving. -/
theorem halving_schedule_second_period :
    ∃ reward, machineReward 0 1000 (coinsAfter (fun _ => 0) (fun _ => 1000) (fun _ => 16) 210000)
      16 = some reward ∧ reward.toNat = 21428571428571 := by
  obtain ⟨hschedule, -⟩ := halving_schedule (fun _ => 0) (fun _ => 1000) (fun _ => 16)
    fun _ => by decide
  exact hschedule 210000

end Schedule

/-! ### The penalty as a function of the weight -/

/-- The penalty factor falls from the median on. -/
theorem penalty_anti {m w w' : ℕ} (hw : m ≤ w) (hle : w ≤ w') (hw' : w' ≤ 2 * m) :
    (2 * m - w') * w' ≤ (2 * m - w) * w := by
  obtain ⟨a, rfl⟩ := Nat.exists_eq_add_of_le hw
  obtain ⟨b, rfl⟩ := Nat.exists_eq_add_of_le hle
  obtain ⟨d, hd⟩ := Nat.exists_eq_add_of_le hw'
  have h₁ : 2 * m - (m + a + b) = d := by omega
  have h₂ : 2 * m - (m + a) = d + b := by omega
  rw [h₁, h₂]
  have hm : m = a + b + d := by omega
  subst hm
  nlinarith

section Penalty

variable {medianWeight coins : UInt64} {version : UInt8}

/-- Below `2 ^ 32` the factor of the penalty is exact, and at most the square of the median. -/
theorem penalty_factor {median w : UInt64} (hmedian : median.toNat < 2 ^ 32)
    (hw : w.toNat ≤ 2 * median.toNat) :
    (2 * median).toNat = 2 * median.toNat ∧
      ((2 * median - w) * w).toNat = (2 * median.toNat - w.toNat) * w.toNat := by
  have htwo : (2 : UInt64).toNat = 2 := rfl
  have hlimit : (2 * median).toNat = 2 * median.toNat := by
    rw [toNat_mul_of_lt] <;> rw [htwo]
    omega
  have hle : w ≤ 2 * median := UInt64.le_iff_toNat_le.mpr (by omega)
  have hsub : (2 * median - w).toNat = 2 * median.toNat - w.toNat := by
    rw [UInt64.toNat_sub_of_le _ _ hle, hlimit]
  have hsquare : median.toNat * median.toNat < 2 ^ 32 * 2 ^ 32 :=
    Nat.mul_lt_mul'' hmedian hmedian
  have hsq := penalty_le_sq hw
  refine ⟨hlimit, ?_⟩
  rw [toNat_mul_of_lt] <;> rw [hsub]
  omega

/-- The reward for a weight between the median and twice the median. -/
theorem machineReward_of_heavy (hmedian : (effectiveMedian medianWeight version).toNat < 2 ^ 32)
    (hcoins : coins < moneySupply) (hpos : machineBase coins ≠ 0) {w : UInt64}
    (hw : (effectiveMedian medianWeight version).toNat ≤ w.toNat)
    (hw' : w.toNat ≤ 2 * (effectiveMedian medianWeight version).toNat) :
    ∃ reward, machineReward medianWeight w coins version = some reward ∧
      reward.toNat = (machineBase coins).toNat *
        ((2 * (effectiveMedian medianWeight version).toNat - w.toNat) * w.toNat) /
        (effectiveMedian medianWeight version).toNat /
        (effectiveMedian medianWeight version).toNat ∧
      (div128 (div128 (mul128 (machineBase coins)
        ((2 * effectiveMedian medianWeight version - w) * w))
        (effectiveMedian medianWeight version)) (effectiveMedian medianWeight version)).1 = 0 := by
  have hm := effectiveMedian_pos medianWeight version
  have hbase := machineBase_le hcoins
  rw [machineReward_of_lt hcoins, if_neg hpos, machinePenalty_eq]
  generalize effectiveMedian medianWeight version = median at *
  obtain ⟨hlimit, hfactor⟩ := penalty_factor hmedian hw'
  have hnot : ¬ 2 * median < w := by
    rw [UInt64.not_lt, UInt64.le_iff_toNat_le, hlimit]
    exact hw'
  obtain ⟨hhigh, hlow⟩ := div128_div128 (penalty_fits hbase hm hnot)
  rw [hfactor] at hlow
  by_cases hlight : w ≤ median
  · rw [if_pos hlight]
    refine ⟨_, rfl, ?_, hhigh⟩
    have heq : w.toNat = median.toNat := Nat.le_antisymm (UInt64.le_iff_toNat_le.mp hlight) hw
    rw [heq, Nat.two_mul, Nat.add_sub_cancel, ← Nat.mul_assoc, Nat.mul_div_cancel _ hm,
      Nat.mul_div_cancel _ hm]
  · rw [if_neg hlight, if_neg hnot]
    exact ⟨_, rfl, hlow, hhigh⟩

/-- **The weight penalty.** With a median below `2 ^ 32` and a reward `R` that is not 0, a block up
to the effective median `m` gets `R`, a block of weight `w` from `m` to `2 * m` gets
`R * ((2 * m - w) * w) / m / m` without any operation wrapping around, and a heavier block is
refused. -/
theorem weight_penalty (medianWeight coins : UInt64) (version : UInt8)
    (hmedian : medianWeight.toNat < 2 ^ 32) (hcoins : coins < moneySupply)
    (hpos : machineBase coins ≠ 0) :
    let m := max medianWeight.toNat (getMinBlockWeight version).toNat
    let R := machineBase coins
    (∀ w : UInt64, w.toNat ≤ m → machineReward medianWeight w coins version = some R) ∧
      (∀ w : UInt64, m ≤ w.toNat → w.toNat ≤ 2 * m →
        ∃ reward, machineReward medianWeight w coins version = some reward ∧
          getBlockReward checked medianWeight w coins version = some (some reward) ∧
          reward.toNat = R.toNat * ((2 * m - w.toNat) * w.toNat) / m / m ∧
          (div128 (div128 (mul128 R ((2 * effectiveMedian medianWeight version - w) * w))
            (effectiveMedian medianWeight version)) (effectiveMedian medianWeight version)).1 = 0 ∧
          reward ≤ R) ∧
      (∀ w w' reward reward' : UInt64, m ≤ w.toNat → w ≤ w' →
        machineReward medianWeight w coins version = some reward →
        machineReward medianWeight w' coins version = some reward' → reward' ≤ reward) ∧
      (∀ w : UInt64, w.toNat = 2 * m → machineReward medianWeight w coins version = some 0) ∧
      ∀ w : UInt64, machineReward medianWeight w coins version = none ↔ 2 * m < w.toNat := by
  intro m R
  have hm : (effectiveMedian medianWeight version).toNat = m :=
    toNat_effectiveMedian medianWeight version
  have hzone := toNat_getMinBlockWeight version
  have hm32 : (effectiveMedian medianWeight version).toNat < 2 ^ 32 := by
    rw [hm]
    omega
  have hmpos : 0 < m := by omega
  have hheavy : ∀ w : UInt64, m ≤ w.toNat → w.toNat ≤ 2 * m →
      ∃ reward, machineReward medianWeight w coins version = some reward ∧
        reward.toNat = R.toNat * ((2 * m - w.toNat) * w.toNat) / m / m ∧
        (div128 (div128 (mul128 R ((2 * effectiveMedian medianWeight version - w) * w))
          (effectiveMedian medianWeight version))
          (effectiveMedian medianWeight version)).1 = 0 := by
    intro w hw hw'
    have hreward := @machineReward_of_heavy medianWeight coins version hm32 hcoins hpos w
      (hm.trans_le hw) (hm ▸ hw')
    rwa [hm] at hreward
  have hnone : ∀ w : UInt64, machineReward medianWeight w coins version = none ↔
      2 * m < w.toNat := by
    intro w
    constructor
    · intro hfail
      by_contra hle
      rcases Nat.le_total w.toNat m with hw | hw
      · rw [machineReward_of_light (UInt64.le_iff_toNat_le.mpr (hm ▸ hw)) hcoins] at hfail
        cases hfail
      · obtain ⟨reward, hreward, -⟩ := hheavy w hw (by omega)
        rw [hreward] at hfail
        cases hfail
    · intro hw
      have hlimit := (@penalty_factor _ (0 : UInt64) hm32 (Nat.zero_le _)).1
      have hlight : ¬ w ≤ effectiveMedian medianWeight version := by
        rw [UInt64.le_iff_toNat_le]
        omega
      have hover : 2 * effectiveMedian medianWeight version < w := by
        rw [UInt64.lt_iff_toNat_lt]
        omega
      rw [machineReward_of_lt hcoins, if_neg hpos, machinePenalty_eq, if_neg hlight, if_pos hover]
  have hchecked : ∀ w : UInt64, getBlockReward checked medianWeight w coins version =
      some (machineReward medianWeight w coins version) := by
    intro w
    have hle : coins ≤ moneySupply := UInt64.le_of_lt hcoins
    obtain ⟨r, hr, -⟩ := @getBlockReward_checked medianWeight w coins version hmedian hle
    have hagree : machineReward medianWeight w coins version = r :=
      agree_getBlockReward medianWeight w coins version r hr
    rw [hr, hagree]
  refine ⟨fun w hw => ?_, fun w hw hw' => ?_, fun w w' reward reward' hw hle h h' => ?_,
    fun w hw => ?_, hnone⟩
  · exact machineReward_of_light (UInt64.le_iff_toNat_le.mpr (hm ▸ hw)) hcoins
  · obtain ⟨reward, hreward, hvalue, hhigh⟩ := hheavy w hw hw'
    refine ⟨reward, hreward, by rw [hchecked, hreward], hvalue, hhigh, ?_⟩
    rw [UInt64.le_iff_toNat_le, hvalue, Nat.div_div_eq_div_mul]
    refine Nat.div_le_of_le_mul ?_
    rw [Nat.mul_comm]
    exact Nat.mul_le_mul_right _ (penalty_le_sq hw')
  · have hw' : w'.toNat ≤ 2 * m := by
      by_contra hover
      rw [(hnone w').mpr (Nat.lt_of_not_le hover)] at h'
      cases h'
    rw [UInt64.le_iff_toNat_le] at hle ⊢
    obtain ⟨r, hr, hvalue, -⟩ := hheavy w hw (hle.trans hw')
    obtain ⟨r', hr', hvalue', -⟩ := hheavy w' (hw.trans hle) hw'
    obtain rfl := Option.some.inj (h.symm.trans hr)
    obtain rfl := Option.some.inj (h'.symm.trans hr')
    rw [hvalue, hvalue']
    exact Nat.div_le_div_right (Nat.div_le_div_right
      (Nat.mul_le_mul_left _ (penalty_anti hw hle hw')))
  · obtain ⟨reward, hreward, hvalue, -⟩ := hheavy w (by omega) hw.le
    rw [hw, Nat.sub_self, Nat.zero_mul, Nat.mul_zero, Nat.zero_div, Nat.zero_div] at hvalue
    have hzero : reward = 0 := UInt64.toNat_inj.mp hvalue
    rw [hreward, hzero]

/-- A block of one and a half times the full reward zone gets three quarters of the reward. -/
theorem weight_penalty_three_quarters :
    machineBase 0 = 42857142857143 ∧
      ∃ reward, machineReward 0 450000 0 16 = some reward ∧ reward.toNat = 32142857142857 := by
  have hbase : machineBase 0 = 42857142857143 := by decide +kernel
  obtain ⟨-, hheavy, -⟩ := weight_penalty 0 0 16 (by decide) (by decide) (by rw [hbase]; decide)
  obtain ⟨reward, hreward, -, hvalue, -⟩ := hheavy 450000 (by decide) (by decide)
  refine ⟨hbase, reward, hreward, ?_⟩
  rw [hvalue, hbase]
  decide

end Penalty

end Hidering
