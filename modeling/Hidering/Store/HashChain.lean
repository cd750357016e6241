import Mathlib.Data.Set.Function

/-!
# Chains linked by hashes

A chain of items, the newest first, in which every item names the hash of the one below it and the
first one names a null hash. If the items that may occur have distinct hashes, none of them null,
then the hash of the newest item determines the whole chain. A value that is remembered together
with the hash of a chain can therefore be reused for any chain with this hash.

## Main definitions

* `Store.tipHash`, `Store.Linked`
* `Store.ToldApart` — distinct items have distinct hashes, and none is null
* `Store.chainOf` — the chain with a given hash

## Main results

* `Store.Linked.eq_of_tipHash`
* `Store.ToldApart.chainOf_tipHash`
-/

namespace Store

variable {β H : Type*}

section

variable (hash prev : β → H) (null : H)

/-- The hash of the newest item. -/
def tipHash : List β → H
  | [] => null
  | b :: _ => hash b

/-- Every item names the hash of the item below it. -/
def Linked : List β → Prop
  | [] => True
  | b :: l => prev b = tipHash hash null l ∧ Linked l

/-- Distinct items of the set have distinct hashes, and none has the null hash. -/
structure ToldApart (B : Set β) : Prop where
  inj : B.InjOn hash
  ne_null : ∀ b ∈ B, hash b ≠ null

open Classical in
/-- The chain of items of the set with the given hash, if there is one. -/
noncomputable def chainOf (B : Set β) (h : H) : List β :=
  if hex : ∃ l, (∀ b ∈ l, b ∈ B) ∧ Linked hash prev null l ∧ tipHash hash null l = h
  then hex.choose else []

end

variable {hash prev : β → H} {null : H} {B : Set β}

/-- The items of a list, checked one by one. -/
theorem toldApart_list {l : List β} (hinj : ∀ a ∈ l, ∀ b ∈ l, hash a = hash b → a = b)
    (hne : ∀ b ∈ l, hash b ≠ null) : ToldApart hash null {b | b ∈ l} :=
  ⟨fun a ha b hb => hinj a ha b hb, hne⟩

/-- **The hash of the newest item determines the chain.** -/
theorem Linked.eq_of_tipHash (hB : ToldApart hash null B) {l l' : List β}
    (h : Linked hash prev null l) (h' : Linked hash prev null l') (hmem : ∀ b ∈ l, b ∈ B)
    (hmem' : ∀ b ∈ l', b ∈ B) (htip : tipHash hash null l = tipHash hash null l') : l = l' := by
  induction l generalizing l' with
  | nil =>
    cases l' with
    | nil => rfl
    | cons b' l' => exact absurd htip.symm (hB.ne_null b' (hmem' b' List.mem_cons_self))
  | cons b l ih =>
    cases l' with
    | nil => exact absurd htip (hB.ne_null b (hmem b List.mem_cons_self))
    | cons b' l' =>
      obtain rfl : b = b' := hB.inj (hmem b List.mem_cons_self) (hmem' b' List.mem_cons_self) htip
      rw [ih h.2 h'.2 (fun x hx => hmem x (List.mem_cons_of_mem _ hx))
        (fun x hx => hmem' x (List.mem_cons_of_mem _ hx)) (h.1.symm.trans h'.1)]

theorem ToldApart.chainOf_tipHash (hB : ToldApart hash null B) {l : List β} (hmem : ∀ b ∈ l, b ∈ B)
    (h : Linked hash prev null l) : chainOf hash prev null B (tipHash hash null l) = l := by
  have hex : ∃ l', (∀ b ∈ l', b ∈ B) ∧ Linked hash prev null l' ∧
      tipHash hash null l' = tipHash hash null l := ⟨l, hmem, h, rfl⟩
  rw [chainOf, dif_pos hex]
  obtain ⟨hmem', hlinked, htip⟩ := hex.choose_spec
  exact hlinked.eq_of_tipHash hB h hmem' hmem htip

/-- What is below an item of a chain is a chain. -/
theorem Linked.drop {l : List β} (h : Linked hash prev null l) (n : ℕ) :
    Linked hash prev null (l.drop n) := by
  induction n generalizing l with
  | zero => exact h
  | succ n ih =>
    cases l with
    | nil => exact h
    | cons b l => exact ih h.2

end Store
