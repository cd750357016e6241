import Mathlib.Algebra.BigOperators.Group.List.Basic
import Mathlib.Data.List.Forall2
import Mathlib.Data.ZMod.Basic

/-!
# Known openings of additive commitments

A commitment scheme over a prime-order group lets one add commitments, and binds a commitment to
one amount: nobody knows two openings of it with different amounts. `Openings` is a set of known
openings for which this holds, also for the openings of sums that follow from them; the addition of
the underlying representation may fail. A hiding commitment has openings to every amount, and
sufficiently long sums reach all of them, so only the known openings and sums of a limited number of
terms are bound. The amounts live modulo the group order, and the lemmas here carry sums of bounded
amounts from there to the integers.

## Main definitions

* `Commit.SumOpens`, `Commit.Openings`
* `Commit.Openings.value` — the amount under a commitment

## Main results

* `Commit.Openings.value_eq`
* `Commit.SumOpens.foldlM` — the opening of a sum
* `Commit.eq_of_cast_eq` — equal modulo the order and small is equal
-/

namespace Commit

variable {κ : Type} {order limit : ℕ} {add? : κ → κ → Option κ}

/-- The opening of a sum of `l` commitments that follows from openings of its terms. -/
inductive SumOpens (add? : κ → κ → Option κ) (Opens : κ → ZMod order → ZMod order → Prop) :
    ℕ → κ → ZMod order → ZMod order → Prop
  | one {k a m} (h : Opens k a m) : SumOpens add? Opens 1 k a m
  | add {l l' p q r a m b n} (hp : SumOpens add? Opens l p a m) (hq : SumOpens add? Opens l' q b n)
      (h : add? p q = some r) : SumOpens add? Opens (l + l') r (a + b) (m + n)

/-- A set of known openings: `Opens k a m` says that somebody knows that `k` commits to the amount
`a` under the mask `m`. It is binding for sums of up to `limit` terms. -/
structure Openings (κ : Type) (order limit : ℕ) (add? : κ → κ → Option κ) where
  Opens : κ → ZMod order → ZMod order → Prop
  limit_pos : 0 < limit
  binding : ∀ {l l' k a m a' m'}, SumOpens add? Opens l k a m → SumOpens add? Opens l' k a' m' →
    l ≤ limit → l' ≤ limit → a = a'

theorem eq_of_cast_eq {a b : ℕ} (h : (a : ZMod order) = b) (ha : a < order) (hb : b < order) :
    a = b := by
  rw [ZMod.natCast_eq_natCast_iff', Nat.mod_eq_of_lt ha, Nat.mod_eq_of_lt hb] at h
  exact h

namespace Openings

variable (O : Openings κ order limit add?)

open Classical in
/-- The amount under a commitment, 0 if no opening is known. -/
noncomputable def value (k : κ) : ℕ :=
  if h : ∃ a m, O.Opens k a m then (Classical.choose h).val else 0

/-- An opening to an amount below `bound` is known. -/
def Bounded (bound : ℕ) (k : κ) : Prop := ∃ v < bound, ∃ m, O.Opens k (v : ZMod order) m

variable {O}

theorem value_eq {k : κ} {v : ℕ} {m : ZMod order} (h : O.Opens k v m) (hv : v < order) :
    O.value k = v := by
  have hex : ∃ a m, O.Opens k a m := ⟨v, m, h⟩
  obtain ⟨m', hm'⟩ := Classical.choose_spec hex
  rw [value, dif_pos hex, O.binding (.one hm') (.one h) O.limit_pos O.limit_pos, ZMod.val_natCast, Nat.mod_eq_of_lt hv]

theorem Bounded.value_lt {bound : ℕ} {k : κ} (h : O.Bounded bound k) (hb : bound ≤ order) :
    O.value k < bound := by
  obtain ⟨v, hv, m, ho⟩ := h
  rwa [value_eq ho (hv.trans_le hb)]

theorem Bounded.opens_value {bound : ℕ} {k : κ} (h : O.Bounded bound k) (hb : bound ≤ order) :
    ∃ m, O.Opens k (O.value k) m := by
  obtain ⟨v, hv, m, ho⟩ := h
  exact ⟨m, by rwa [value_eq ho (hv.trans_le hb)]⟩

end Openings

/-- The sum of commitments opens to the sum of their amounts. -/
theorem SumOpens.foldlM {Opens : κ → ZMod order → ZMod order → Prop} {k r : κ} {ks : List κ}
    {l : ℕ} {a m : ZMod order} {bs : List ℕ} (hk : SumOpens add? Opens l k a m)
    (hks : List.Forall₂ (fun q (b : ℕ) => ∃ n, Opens q b n) ks bs)
    (h : ks.foldlM add? k = some r) :
    ∃ n, SumOpens add? Opens (l + ks.length) r (a + (bs.sum : ℕ)) n := by
  induction hks generalizing k l a m with
  | nil =>
    obtain rfl := Option.some.inj h
    exact ⟨m, by simpa using hk⟩
  | cons hq hrest ih =>
    obtain ⟨n, hn⟩ := hq
    rw [List.foldlM_cons] at h
    obtain ⟨s, hs, h⟩ := Option.bind_eq_some_iff.mp h
    obtain ⟨n', hn'⟩ := ih (hk.add (.one hn) hs) h
    refine ⟨n', ?_⟩
    rwa [List.sum_cons, Nat.cast_add, ← add_assoc, List.length_cons, Nat.add_comm _ 1, ← add_assoc]

end Commit
