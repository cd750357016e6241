import Hidering.Commit.Openings
import Hidering.Verify.RingCt

/-!
# Assumptions on the proof systems

The properties of the primitives that value conservation rests on, as structures: `Pedersen` says
that commitments are binding, and `RingCtSound` adds the soundness of CLSAG signatures and of range
proofs. Both speak about openings that somebody knows, as the proofs of knowledge extract them:
those of the commitments that the program builds from public amounts are among them, and a
transaction that reveals an amount and a mask adds one.

The transparent instance satisfies both, so no result that assumes them is empty.

## Main definitions

* `Hidering.Pedersen`, `Hidering.RingCtSound`
* `Hidering.transparentSound`
-/

namespace Hidering

open Wire (Bytes)
open Crypto List

/-- The scalar that the bytes of a key stand for. -/
def scalarOf (k : Key) : ZMod groupOrder := leNat k.bytes

/-- Pedersen commitments: the known openings, with those of the commitments that the program builds
from public amounts. No sum of the program has more terms than a transaction has bytes, and two. -/
structure Pedersen (c : Crypto) extends
    Commit.Openings Key groupOrder (cryptonoteMaxTxSize + 2) c.addKeys? where
  zeroCommit : ∀ a : Amount, Opens (c.zeroCommit a) (a.toNat : ℕ) 1
  scalarmultH : ∀ a : Amount, Opens (c.scalarmultH (d2h a)) (a.toNat : ℕ) 0
  identity : Opens identity 0 0

/-- RingCT: what a CLSAG signature and a range proof show. -/
structure RingCtSound (c : Crypto) extends Pedersen c where
  /-- the key image `x * Hp(P)` of the one-time key `P = x * G` -/
  curveImage : PublicKey → KeyImage
  /-- A signature shows that its key image is that of a member of the ring, and that the pseudo
  output commits to the amount of this member. -/
  clsag : ∀ {message sig ring offset}, c.verRctCLSAGSimple message sig ring offset = true →
    ∃ k ∈ ring, curveImage k.dest = sig.i ∧ ∃ z, ∀ a m, Opens k.mask a m → Opens offset a (m + z)
  /-- A range proof shows that the commitments it covers open to amounts of 64 bits. -/
  range : ∀ {batch p k}, c.verBulletproofPlus batch = true → p ∈ batch → c.checkKey k = true →
    c.scalarmultKey k c.invEight ∈ p.v → ∃ v < 2 ^ 64, ∃ m, Opens k ((v : ℕ) : ZMod groupOrder) m

theorem two_pow_64_le_groupOrder : 2 ^ 64 ≤ groupOrder := by decide +kernel

namespace Pedersen

variable {c : Crypto} (P : Pedersen c)

/-- The transaction reveals openings: they are known. -/
def Revealed (tx : TransactionPrefix) : Prop :=
  ∀ i ∈ pqInputs tx, P.Opens (c.commit i.amount i.mask) (i.amount.toNat : ℕ) (scalarOf i.mask)

/-- The opening of a sum of commitments, `addKeys` of a vector. -/
theorem sumOpens_addKeysV {ks : List Key} {r : Key} {bs : List ℕ}
    (hks : List.Forall₂ (fun q (b : ℕ) => ∃ n, P.Opens q b n) ks bs)
    (h : c.addKeysV ks = some r) :
    ∃ l ≤ ks.length + 1, ∃ n, Commit.SumOpens c.addKeys? P.Opens l r (bs.sum : ℕ) n := by
  cases hks with
  | nil =>
    obtain rfl := Option.some.inj h
    exact ⟨1, le_rfl, 0, by simpa using .one P.identity⟩
  | @cons q b ks bs hq hrest =>
    obtain ⟨m, hm⟩ := hq
    rw [addKeysV] at h
    split at h
    · obtain ⟨n, hn⟩ := Commit.SumOpens.foldlM (.one hm) hrest h
      exact ⟨1 + ks.length, by rw [length_cons]; omega, n, by rwa [sum_cons, Nat.cast_add]⟩
    · cases h

end Pedersen

/-! ### The transparent instance -/

theorem leNat_map_range (n k : ℕ) :
    leNat ((List.range k).map fun i => UInt8.ofNat (n / 256 ^ i)) = n % 256 ^ k := by
  induction k generalizing n with
  | zero => simp [leNat, Nat.mod_one]
  | succ k ih =>
    have htail : (List.range k).map ((fun i => UInt8.ofNat (n / 256 ^ i)) ∘ Nat.succ) =
        (List.range k).map fun i => UInt8.ofNat (n / 256 / 256 ^ i) := by
      refine map_congr_left fun i _ => ?_
      simp [Nat.pow_succ, Nat.div_div_eq_div_mul, Nat.mul_comm]
    rw [range_succ_eq_map, map_cons, map_map, htail, leNat, foldr_cons]
    have hih := ih (n / 256)
    rw [leNat] at hih
    rw [hih, Nat.pow_succ, Nat.mul_comm (256 ^ k), Nat.mod_mul]
    simp [UInt8.toNat_ofNat']

theorem leNat_append_zeros (l : Bytes) (k : ℕ) : leNat (l ++ replicate k 0) = leNat l := by
  induction l with
  | nil =>
    induction k with
    | zero => rfl
    | succ k ih =>
      rw [nil_append, replicate_succ]
      simp only [leNat, nil_append, foldr_cons, foldr_nil] at ih ⊢
      rw [ih]
      rfl
  | cons b l ih =>
    simp only [leNat, cons_append, foldr_cons] at ih ⊢
    rw [ih]

theorem leNat_natLe {n : ℕ} (h : n < 256 ^ 32) : leNat (natLe n).bytes = n := by
  rw [natLe, leNat_map_range, Nat.mod_eq_of_lt h]

theorem leNat_d2h (a : Amount) : leNat (d2h a).bytes = a.toNat := by
  rw [d2h, leNat_append_zeros, leNat_map_range, Nat.mod_eq_of_lt]
  exact a.toNat_lt.trans_le (by decide)

theorem pointVal_pointOf (n : ℕ) : pointVal (pointOf n) = n % groupOrder := by
  have hpos : 0 < groupOrder := by decide +kernel
  have hlt : n % groupOrder < groupOrder := Nat.mod_lt _ hpos
  have hsize : groupOrder + 1 ≤ 256 ^ 32 := by decide +kernel
  rw [pointVal, pointOf, leNat_natLe (by omega)]
  have hsum : n % groupOrder + 1 + (groupOrder - 1) = n % groupOrder + groupOrder := by omega
  rw [hsum, Nat.add_mod_right, Nat.mod_mod]

theorem pointVal_lt (k : Key) : pointVal k < groupOrder := Nat.mod_lt _ (by decide +kernel)

theorem eight_mul_invEight : 8 * leNat transparent.invEight.bytes = 3 * groupOrder + 1 := by
  decide +kernel

/-- In the transparent instance a commitment shows its amount, and so does a sum. -/
theorem amount_of_sumOpens {l : ℕ} {k : Key} {a m : ZMod groupOrder}
    (h : Commit.SumOpens transparent.addKeys?
      (fun k a _ => a = (pointVal k : ZMod groupOrder)) l k a m) : a = pointVal k := by
  induction h with
  | one h => exact h
  | @add l l' p q r a m b n _ _ h ha hb =>
    obtain rfl : transparent.addKeys p q = r := by simpa [addKeys?, transparent] using h
    subst ha hb
    change _ = ((pointVal (pointOf (pointVal p + pointVal q)) : ℕ) : ZMod groupOrder)
    rw [pointVal_pointOf, ZMod.natCast_mod, Nat.cast_add]

/-- The openings of the transparent instance. -/
def transparentPedersen : Pedersen transparent where
  Opens k a _ := a = (pointVal k : ZMod groupOrder)
  limit_pos := by decide
  binding := fun h h' _ _ => (amount_of_sumOpens h).trans (amount_of_sumOpens h').symm
  zeroCommit := by
    intro a
    change _ = ((pointVal (pointOf (pointVal (pointOf 0) +
      pointVal (pointOf (leNat (d2h a).bytes)))) : ℕ) : ZMod groupOrder)
    rw [pointVal_pointOf, pointVal_pointOf, pointVal_pointOf, leNat_d2h, ZMod.natCast_mod,
      Nat.cast_add, ZMod.natCast_mod, ZMod.natCast_mod, Nat.cast_zero, zero_add]
  scalarmultH := by
    intro a
    change _ = ((pointVal (pointOf (leNat (d2h a).bytes)) : ℕ) : ZMod groupOrder)
    rw [pointVal_pointOf, leNat_d2h, ZMod.natCast_mod]
  identity := by
    have h : pointVal identity = 0 := by decide +kernel
    rw [h, Nat.cast_zero]

theorem transparentPedersen_revealed (tx : TransactionPrefix) :
    transparentPedersen.Revealed tx := by
  intro i _
  change _ = ((pointVal (pointOf (leNat (d2h i.amount).bytes * pointVal (pointOf 1))) : ℕ) :
    ZMod groupOrder)
  rw [pointVal_pointOf, pointVal_pointOf, leNat_d2h, ZMod.natCast_mod, Nat.cast_mul,
    ZMod.natCast_mod, Nat.cast_one, mul_one]

/-- The transparent instance is sound. -/
def transparentSound : RingCtSound transparent where
  toPedersen := transparentPedersen
  curveImage := flipBits
  clsag := by
    intro message sig ring offset h
    obtain ⟨k, hk, hp⟩ := any_eq_true.mp h
    obtain ⟨himage, rfl⟩ := of_decide_eq_true hp
    exact ⟨k, hk, himage, 0, fun a m ha => ha⟩
  range := by
    intro batch p k h hp _ hv
    have hlt : 8 * pointVal (transparent.scalarmultKey k transparent.invEight) % groupOrder <
        2 ^ 64 := of_decide_eq_true (all_eq_true.mp (all_eq_true.mp h p hp) _ hv)
    have hval : 8 * pointVal (transparent.scalarmultKey k transparent.invEight) % groupOrder =
        pointVal k := by
      change 8 * pointVal (pointOf (leNat transparent.invEight.bytes * pointVal k)) % groupOrder = _
      rw [pointVal_pointOf, Nat.mul_mod_mod, ← Nat.mul_assoc, eight_mul_invEight, Nat.add_mul,
        Nat.one_mul, Nat.mul_comm 3, Nat.mul_assoc, Nat.mul_add_mod,
        Nat.mod_eq_of_lt (pointVal_lt k)]
    exact ⟨pointVal k, hval ▸ hlt, 0, rfl⟩

end Hidering
