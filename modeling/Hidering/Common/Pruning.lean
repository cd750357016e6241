import Hidering.Config
import Mathlib.Order.Bounds.Basic
import Mathlib.Tactic.Ring

/-!
# Pruning stripes

A pruned node keeps the prunable data of one stripe of the chain: the chain is cut into pieces of
`CRYPTONOTE_PRUNING_STRIPE_SIZE` blocks, and the pieces belong to the `2 ^ log_stripes` stripes in
turn. The last `CRYPTONOTE_PRUNING_TIP_BLOCKS` blocks belong to no stripe and every node keeps them.
A pruning seed packs the stripe of a node and the number of stripes.

Heights are natural numbers. `block_height + CRYPTONOTE_PRUNING_TIP_BLOCKS` is the 64-bit sum.

## Main definitions

* `Hidering.makePruningSeed`, `hasUnprunedBlock`
* `Hidering.getNextUnprunedBlockHeight`, `getNextPrunedBlockHeight`

## Main results

* `Hidering.pruning_stripes` — each block below the tip is kept by one stripe, and the two searches
  find the next kept and the next pruned height
-/

namespace Hidering

/-- `CRYPTONOTE_PRUNING_STRIPE_SIZE`. -/
abbrev pruningStripeSize : ℕ := 4096
/-- `CRYPTONOTE_PRUNING_LOG_STRIPES`. -/
abbrev pruningLogStripes : ℕ := 3
/-- `CRYPTONOTE_PRUNING_TIP_BLOCKS`. -/
abbrev pruningTipBlocks : ℕ := 5500

/-! ### Seeds -/

/-- `make_pruning_seed`, or nothing where it throws. -/
def makePruningSeed (stripe logStripes : ℕ) : Option ℕ :=
  if logStripes ≤ 7 ∧ 0 < stripe ∧ stripe ≤ 2 ^ logStripes then
    some ((logStripes <<< 7) ||| (stripe - 1))
  else none

/-- `get_pruning_log_stripes`. -/
def getPruningLogStripes (seed : ℕ) : ℕ := (seed >>> 7) &&& 7

/-- `get_pruning_stripe` of a seed. The seed `0` is that of a node that keeps everything. -/
def seedStripe (seed : ℕ) : ℕ := if seed = 0 then 0 else 1 + (seed &&& 127)

theorem makePruningSeed_succ {r logStripes : ℕ} (hmax : logStripes ≤ 7) (hr : r < 2 ^ logStripes) :
    makePruningSeed (r + 1) logStripes = some ((logStripes <<< 7) ||| r) :=
  if_pos ⟨hmax, r.succ_pos, hr⟩

/-- What a seed of more than one stripe holds. -/
theorem seed_of_make {stripe logStripes seed : ℕ} (hlog : 0 < logStripes)
    (h : makePruningSeed stripe logStripes = some seed) :
    seedStripe seed = stripe ∧ getPruningLogStripes seed = logStripes ∧ 0 < stripe ∧
      stripe ≤ 2 ^ logStripes ∧ logStripes ≤ 7 := by
  unfold makePruningSeed at h
  split_ifs at h with hb
  obtain ⟨hmax, hpos, hle⟩ := hb
  have hlt : stripe - 1 < 2 ^ 7 := by
    have := Nat.pow_le_pow_right (n := 2) (by decide) hmax
    omega
  rw [← Nat.shiftLeft_add_eq_or_of_lt hlt, Nat.shiftLeft_eq, Option.some.injEq] at h
  have hand := Nat.and_two_pow_sub_one_eq_mod seed 7
  have hlogand := Nat.and_two_pow_sub_one_eq_mod (seed >>> 7) 3
  norm_num only at hand hlogand h
  rw [Nat.shiftRight_eq_div_pow] at hlogand
  refine ⟨?_, ?_, hpos, hle, hmax⟩
  · rw [seedStripe, if_neg (by omega), hand]
    omega
  · rw [getPruningLogStripes, Nat.shiftRight_eq_div_pow, hlogand]
    omega

/-! ### Stripes of blocks -/

/-- `get_pruning_stripe` of a block: `0` for the last blocks, which every node keeps. -/
def getPruningStripe (h H logStripes : ℕ) : ℕ :=
  if H ≤ (h + pruningTipBlocks) % 2 ^ 64 then 0
  else ((h / pruningStripeSize) &&& (2 ^ logStripes - 1)) + 1

/-- `has_unpruned_block`. -/
def hasUnprunedBlock (h H seed : ℕ) : Bool :=
  if seedStripe seed = 0 then true
  else
    let blockStripe := getPruningStripe h H (getPruningLogStripes seed)
    blockStripe = 0 ∨ blockStripe = seedStripe seed

/-- The number of stripes that the two searches use. -/
def searchLogStripes (seed : ℕ) : ℕ :=
  if getPruningLogStripes seed ≠ 0 then getPruningLogStripes seed else pruningLogStripes

/-- `get_next_unpruned_block_height`. -/
def getNextUnprunedBlockHeight (h H seed : ℕ) : ℕ :=
  if cryptonoteMaxBlockNumber + 1 < h then h
  else if cryptonoteMaxBlockNumber + 1 < H then h
  else if seedStripe seed = 0 then h
  else if H ≤ (h + pruningTipBlocks) % 2 ^ 64 then h
  else
    let logStripes := searchLogStripes seed
    let blockStripe := ((h / pruningStripeSize) &&& (2 ^ logStripes - 1)) + 1
    if blockStripe = seedStripe seed then h
    else
      let cycles := (h / pruningStripeSize) >>> logStripes
      let cycleStart := cycles + if blockStripe < seedStripe seed then 0 else 1
      let next := cycleStart * (pruningStripeSize <<< logStripes) +
        (seedStripe seed - 1) * pruningStripeSize
      if H < next + pruningTipBlocks then
        if H < pruningTipBlocks then 0 else H - pruningTipBlocks
      else if next < h then h else next

/-- `get_next_pruned_block_height`, or nothing where the seed of the next stripe throws. -/
def getNextPrunedBlockHeight (h H seed : ℕ) : Option ℕ :=
  if seedStripe seed = 0 then some H
  else if H ≤ (h + pruningTipBlocks) % 2 ^ 64 then some H
  else
    let logStripes := searchLogStripes seed
    let blockStripe := ((h / pruningStripeSize) &&& (2 ^ logStripes - 1)) + 1
    if blockStripe ≠ seedStripe seed then some h
    else
      (makePruningSeed (1 + (blockStripe &&& (2 ^ logStripes - 1))) logStripes).map
        (getNextUnprunedBlockHeight h H)

/-! ### The next piece of a stripe -/

/-- The next index of the residue class of `r` modulo `n`. -/
def nextIndex (n r q : ℕ) : ℕ := (q / n + if q % n < r then 0 else 1) * n + r

theorem nextIndex_mod {n r : ℕ} (hr : r < n) (q : ℕ) : nextIndex n r q % n = r := by
  rw [nextIndex, Nat.mul_comm, Nat.mul_add_mod, Nat.mod_eq_of_lt hr]

theorem lt_nextIndex {n r : ℕ} (hr : r < n) (q : ℕ) : q < nextIndex n r q := by
  have hq := Nat.div_add_mod' q n
  have hmod := Nat.mod_lt q (Nat.zero_lt_of_lt hr)
  rw [nextIndex]
  split_ifs with hlt
  · rw [Nat.add_zero]
    omega
  · rw [Nat.add_one_mul]
    omega

/-- No index of the class lies before it. -/
theorem nextIndex_le {n r q i : ℕ} (hle : q ≤ i) (hi : i % n = r) (hne : q % n ≠ r) :
    nextIndex n r q ≤ i := by
  have hq := Nat.div_add_mod' q n
  have hid := Nat.div_add_mod' i n
  rw [nextIndex]
  split_ifs with hlt
  · have := Nat.mul_le_mul_right n (Nat.div_le_div_right (c := n) hle)
    rw [Nat.add_zero]
    omega
  · -- an index of the cycle of `q` would lie before `q`
    have hcycle : q / n < i / n := by
      have hbelow : r < q % n := lt_of_le_of_ne (not_lt.mp hlt) hne.symm
      refine lt_of_le_of_ne (Nat.div_le_div_right hle) fun heq => ?_
      rw [heq] at hq
      omega
    have := Nat.mul_le_mul_right n (Nat.succ_le_of_lt hcycle)
    rw [Nat.succ_eq_add_one] at this
    omega

theorem succ_mod_ne {n r : ℕ} (hn : 1 < n) (hr : r < n) : (r + 1) % n ≠ r := by
  rcases Nat.lt_or_ge (r + 1) n with hlt | hge
  · rw [Nat.mod_eq_of_lt hlt]
    omega
  · rw [show r + 1 = n by omega, Nat.mod_self]
    omega

/-- The class of the next residue starts right behind. -/
theorem nextIndex_succ {n q : ℕ} (hn : 1 < n) : nextIndex n ((q % n + 1) % n) q = q + 1 := by
  have hmod := Nat.mod_lt q (Nat.zero_lt_of_lt hn)
  have hclass : (q + 1) % n = (q % n + 1) % n := by rw [Nat.mod_add_mod]
  have hne := (succ_mod_ne hn hmod).symm
  have hlt := lt_nextIndex (Nat.mod_lt (q % n + 1) (Nat.zero_lt_of_lt hn)) q
  have hle := nextIndex_le (Nat.le_succ q) hclass hne
  omega

/-! ### What the functions compute -/

section

variable {logStripes stripe seed H h : ℕ}

theorem tip_lt (hh : h < cryptonoteMaxBlockNumber) : h + pruningTipBlocks < 2 ^ 64 := by
  unfold cryptonoteMaxBlockNumber pruningTipBlocks at *
  omega

section Seed

variable (hlog : 0 < logStripes) (hseed : makePruningSeed stripe logStripes = some seed)

include hlog hseed

/-- A block is kept if it is one of the last or lies in a piece of the stripe. -/
theorem hasUnprunedBlock_iff (hh : h < cryptonoteMaxBlockNumber) :
    hasUnprunedBlock h H seed = true ↔
      H ≤ h + pruningTipBlocks ∨ h / pruningStripeSize % 2 ^ logStripes + 1 = stripe := by
  obtain ⟨hstripe, hlogs, hpos, -⟩ := seed_of_make hlog hseed
  rw [hasUnprunedBlock, hstripe, hlogs, if_neg hpos.ne', decide_eq_true_iff, getPruningStripe,
    Nat.mod_eq_of_lt (tip_lt hh), Nat.and_two_pow_sub_one_eq_mod]
  split_ifs with htip
  · simp [htip]
  · simp [htip]

/-- **The next kept height.** Below the tip it is the block itself, or the start of the next piece
of the stripe or of the tip, whichever comes first. -/
theorem getNextUnprunedBlockHeight_eq (hH : H < cryptonoteMaxBlockNumber)
    (hh : h + pruningTipBlocks < H) :
    getNextUnprunedBlockHeight h H seed =
      if h / pruningStripeSize % 2 ^ logStripes + 1 = stripe then h
      else min (pruningStripeSize * nextIndex (2 ^ logStripes) (stripe - 1) (h / pruningStripeSize))
        (H - pruningTipBlocks) := by
  obtain ⟨hstripe, hlogs, hpos, hle, hmax⟩ := seed_of_make hlog hseed
  have hsearch : searchLogStripes seed = logStripes := by
    rw [searchLogStripes, hlogs, if_pos hlog.ne']
  have hnext : ∀ q, (q / 2 ^ logStripes + if q % 2 ^ logStripes + 1 < stripe then 0 else 1) *
      (4096 * 2 ^ logStripes) + (stripe - 1) * 4096 =
        4096 * nextIndex (2 ^ logStripes) (stripe - 1) q := by
    intro q
    rw [nextIndex, if_congr (Nat.lt_sub_iff_add_lt).symm rfl rfl]
    ring
  rw [getNextUnprunedBlockHeight, hstripe, hsearch, if_neg hpos.ne']
  simp only [pruningTipBlocks, pruningStripeSize, cryptonoteMaxBlockNumber] at hH hh ⊢
  rw [if_neg (by omega), if_neg (by omega), Nat.mod_eq_of_lt (by omega), if_neg (by omega)]
  simp only [Nat.and_two_pow_sub_one_eq_mod, Nat.shiftRight_eq_div_pow, Nat.shiftLeft_eq, hnext]
  have hlt := lt_nextIndex (r := stripe - 1) (n := 2 ^ logStripes) (by omega) (h / 4096)
  refine if_congr Iff.rfl rfl ?_
  split_ifs with htip hlow hback
  all_goals omega

/-- **The next pruned height.** In a piece of the stripe it is the start of the next piece or of the
tip. -/
theorem getNextPrunedBlockHeight_eq (hH : H < cryptonoteMaxBlockNumber)
    (hh : h + pruningTipBlocks < H) :
    getNextPrunedBlockHeight h H seed =
      if h / pruningStripeSize % 2 ^ logStripes + 1 = stripe then
        some (min (pruningStripeSize * (h / pruningStripeSize + 1)) (H - pruningTipBlocks))
      else some h := by
  obtain ⟨hstripe, hlogs, hpos, hle, hmax⟩ := seed_of_make hlog hseed
  have hsearch : searchLogStripes seed = logStripes := by
    rw [searchLogStripes, hlogs, if_pos hlog.ne']
  have hwrap : (h + pruningTipBlocks) % 2 ^ 64 = h + pruningTipBlocks :=
    Nat.mod_eq_of_lt (tip_lt (by omega))
  have hn : 1 < 2 ^ logStripes := Nat.one_lt_two_pow hlog.ne'
  rw [getNextPrunedBlockHeight, hstripe, if_neg hpos.ne', hwrap, if_neg (not_le.mpr hh)]
  simp only [hsearch, Nat.and_two_pow_sub_one_eq_mod, ne_eq, ite_not]
  refine ite_congr rfl (fun hown => ?_) fun _ => rfl
  -- the block lies in its own stripe: the next stripe has the next residue
  set r := h / pruningStripeSize % 2 ^ logStripes with hr
  have hmod : (r + 1) % 2 ^ logStripes < 2 ^ logStripes := Nat.mod_lt _ (Nat.zero_lt_of_lt hn)
  have hmake := makePruningSeed_succ hmax hmod
  have hne : r + 1 ≠ (r + 1) % 2 ^ logStripes + 1 := by
    have hrlt : r < 2 ^ logStripes := Nat.mod_lt _ (Nat.zero_lt_of_lt hn)
    have := succ_mod_ne hn hrlt
    omega
  rw [Nat.add_comm 1, hmake, Option.map_some, getNextUnprunedBlockHeight_eq hlog hmake hH hh,
    if_neg hne, Nat.add_sub_cancel, hr, nextIndex_succ hn]

/-! ### The two searches -/

theorem isLeast_getNextUnprunedBlockHeight (hH : H < cryptonoteMaxBlockNumber)
    (hh : h < cryptonoteMaxBlockNumber) :
    IsLeast {x | h ≤ x ∧ hasUnprunedBlock x H seed = true}
      (getNextUnprunedBlockHeight h H seed) := by
  obtain ⟨hstripe, -, hpos, hle, -⟩ := seed_of_make hlog hseed
  rcases Nat.lt_or_ge (h + pruningTipBlocks) H with hbelow | htip
  · rw [getNextUnprunedBlockHeight_eq hlog hseed (by omega) hbelow]
    split_ifs with hown
    · exact ⟨⟨le_rfl, (hasUnprunedBlock_iff hlog hseed hh).mpr (Or.inr hown)⟩, fun x hx => hx.1⟩
    · set next := nextIndex (2 ^ logStripes) (stripe - 1) (h / pruningStripeSize) with hnext
      have hmod : next % 2 ^ logStripes = stripe - 1 := nextIndex_mod (by omega) _
      have hlt : h / pruningStripeSize < next := lt_nextIndex (by omega) _
      have hup : h ≤ min (pruningStripeSize * next) (H - pruningTipBlocks) := by
        unfold pruningStripeSize at *
        omega
      refine ⟨⟨hup, (hasUnprunedBlock_iff hlog hseed (by omega)).mpr ?_⟩, ?_⟩
      · rcases Nat.le_total (pruningStripeSize * next) (H - pruningTipBlocks) with hpiece | htip
        · rw [min_eq_left hpiece, Nat.mul_div_cancel_left _ (by decide), hmod]
          exact Or.inr (Nat.sub_add_cancel hpos)
        · rw [min_eq_right htip]
          exact Or.inl (by omega)
      · rintro x ⟨hxle, hx⟩
        -- a kept height below the tip lies in a piece of the stripe, hence not before the next one
        rcases Nat.lt_or_ge x (H - pruningTipBlocks) with hxlt | hxge
        · have hpiece := ((hasUnprunedBlock_iff hlog hseed (by omega)).mp hx).resolve_left (by omega)
          have hle : next ≤ x / pruningStripeSize :=
            nextIndex_le (Nat.div_le_div_right hxle) (by omega) (by omega)
          refine (min_le_left _ _).trans ((Nat.mul_le_mul_left _ hle).trans ?_)
          exact Nat.mul_div_le x pruningStripeSize
        · exact (min_le_right _ _).trans hxge
  · have hself : getNextUnprunedBlockHeight h H seed = h := by
      rw [getNextUnprunedBlockHeight, if_neg (by omega), if_neg (by omega), hstripe,
        if_neg hpos.ne', Nat.mod_eq_of_lt (tip_lt hh), if_pos htip]
    rw [hself]
    exact ⟨⟨le_rfl, (hasUnprunedBlock_iff hlog hseed hh).mpr (Or.inl htip)⟩, fun x hx => hx.1⟩

theorem getNextPrunedBlockHeight_spec (hH : H < cryptonoteMaxBlockNumber)
    (hh : h < cryptonoteMaxBlockNumber) :
    ∃ next, getNextPrunedBlockHeight h H seed = some next ∧
      (∀ x, h ≤ x → x < next → hasUnprunedBlock x H seed = true) ∧
      (hasUnprunedBlock next H seed = false ∨ H - pruningTipBlocks ≤ next) := by
  obtain ⟨hstripe, -, hpos, -, -⟩ := seed_of_make hlog hseed
  have hkept := fun {x} => hasUnprunedBlock_iff (h := x) (H := H) hlog hseed
  rcases Nat.lt_or_ge (h + pruningTipBlocks) H with hbelow | htip
  · rw [getNextPrunedBlockHeight_eq hlog hseed hH hbelow]
    split_ifs with hown
    · refine ⟨_, rfl, fun x hle hlt => (hkept ?_).mpr (Or.inr ?_), ?_⟩
      · exact (hlt.trans_le ((min_le_right _ _).trans (Nat.sub_le _ _))).trans hH
      · have hpiece : x / pruningStripeSize = h / pruningStripeSize :=
          le_antisymm (Nat.lt_succ_iff.mp (Nat.div_lt_of_lt_mul (hlt.trans_le (min_le_left _ _))))
            (Nat.div_le_div_right hle)
        rw [hpiece, hown]
      · -- the next piece is that of the next stripe
        rcases Nat.lt_or_ge (pruningStripeSize * (h / pruningStripeSize + 1))
          (H - pruningTipBlocks) with hpiece | hend
        · left
          rw [min_eq_left hpiece.le, ← Bool.not_eq_true, hkept (by omega),
            Nat.mul_div_cancel_left _ (by decide), ← Nat.mod_add_mod, ← hown]
          have := succ_mod_ne (Nat.one_lt_two_pow hlog.ne')
            (Nat.mod_lt (h / pruningStripeSize) (Nat.two_pow_pos logStripes))
          omega
        · exact Or.inr (le_min hend le_rfl)
    · refine ⟨h, rfl, fun x hle hlt => absurd hlt (not_lt.mpr hle), Or.inl ?_⟩
      rw [← Bool.not_eq_true, hkept hh]
      omega
  · refine ⟨H, ?_, fun x hle hlt => (hkept (by omega)).mpr (Or.inl (by omega)), Or.inr (by omega)⟩
    rw [getNextPrunedBlockHeight, hstripe, if_neg hpos.ne', Nat.mod_eq_of_lt (tip_lt hh),
      if_pos htip]

end Seed

/-- A block below the tip has one stripe, that of its piece. -/
theorem existsUnique_stripe (hlog : 0 < logStripes) (hmax : logStripes ≤ 7)
    (hH : H < cryptonoteMaxBlockNumber) (hh : h + pruningTipBlocks < H) :
    ∃! s, 1 ≤ s ∧ s ≤ 2 ^ logStripes ∧
      ∃ other, makePruningSeed s logStripes = some other ∧ hasUnprunedBlock h H other = true := by
  have hmod : h / pruningStripeSize % 2 ^ logStripes < 2 ^ logStripes :=
    Nat.mod_lt _ (Nat.two_pow_pos _)
  have hmake := makePruningSeed_succ hmax hmod
  refine ⟨_, ⟨Nat.succ_pos _, hmod, _, hmake, ?_⟩, ?_⟩
  · exact (hasUnprunedBlock_iff hlog hmake (by omega)).mpr (Or.inr rfl)
  · rintro s ⟨-, -, other, hother, hkept⟩
    exact ((hasUnprunedBlock_iff hlog hother (by omega)).mp hkept |>.resolve_left
      (not_le.mpr hh)).symm

/-- **Pruning stripes.** Every block that is not among the last ones is kept by exactly one of the
stripes. `get_next_unpruned_block_height` gives the least kept height from the given one on, and up
to `get_next_pruned_block_height` every height is kept, while that height itself is pruned unless it
is one of the last. -/
theorem pruning_stripes (hlow : 1 ≤ logStripes) (hhigh : logStripes ≤ 7)
    (hseed : makePruningSeed stripe logStripes = some seed) (hH : H < cryptonoteMaxBlockNumber)
    (hh : h < cryptonoteMaxBlockNumber) :
    (h + pruningTipBlocks < H → ∃! s, 1 ≤ s ∧ s ≤ 2 ^ logStripes ∧
      ∃ other, makePruningSeed s logStripes = some other ∧ hasUnprunedBlock h H other = true) ∧
    IsLeast {x | h ≤ x ∧ hasUnprunedBlock x H seed = true} (getNextUnprunedBlockHeight h H seed) ∧
    ∃ next, getNextPrunedBlockHeight h H seed = some next ∧
      (∀ x, h ≤ x → x < next → hasUnprunedBlock x H seed = true) ∧
      (hasUnprunedBlock next H seed = false ∨ H - pruningTipBlocks ≤ next) :=
  ⟨existsUnique_stripe hlow hhigh hH, isLeast_getNextUnprunedBlockHeight hlow hseed hH hh,
    getNextPrunedBlockHeight_spec hlow hseed hH hh⟩

/-- The seed of the second of eight stripes, at the start of the chain. -/
theorem pruning_stripes_second :
    getNextUnprunedBlockHeight 0 10000000 385 = 4096 ∧
      getNextPrunedBlockHeight 4096 10000000 385 = some 8192 ∧
        IsLeast {x | 0 ≤ x ∧ hasUnprunedBlock x 10000000 385 = true} 4096 :=
  ⟨by decide, by decide, (pruning_stripes (h := 0) (by decide) (by decide)
    (show makePruningSeed 2 3 = some 385 by decide) (by decide) (by decide)).2.1⟩

end

end Hidering
