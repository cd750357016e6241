import Mathlib.Data.List.Range
import Mathlib.Data.Option.Basic

/-!
# Ordered tables and actions on a store

Two small tools for programs over a key-value store.

A `Table` is a table with increasing integer keys, as a list of its entries in key order. Entries
are only ever added behind the last key (`append` refuses anything else), and can be looked up and
erased by key. A table is `Dense` if its keys are `0, 1, …, n - 1`.

An action over a state is a function of type `EStateM ε σ α`: it returns a value or throws, and in
both cases leaves a state behind; what it wrote before it threw is not undone. `bind_ok` takes a
successful run of a sequence of actions apart.

## Main definitions

* `Store.Table`, `Store.Table.append`, `get?`, `erase`, `nextKey`, `Dense`

## Main results

* `Store.Table.erase_append` — erasing what was just appended restores the table
* `Store.Table.get?_append_self`, `get?_append_ne`
* `Store.Table.Dense.append`, `Dense.get?_eq`
* `Store.bind_ok`
-/

namespace Store

open List

/-! ### Actions -/

section Action

variable {ε σ α β : Type} {a : α} {f : α → EStateM ε σ β}

variable {s t : σ}

/-- A sequence of two actions succeeds if and only if both do, one after the other. -/
theorem bind_ok {x : EStateM ε σ α} {b : β} :
    (x >>= f) s = .ok b t ↔ ∃ a u, x s = .ok a u ∧ f a u = .ok b t := by
  change EStateM.bind x f s = .ok b t ↔ _
  rw [EStateM.bind]
  constructor
  · intro h
    split at h
    · next a u hx => exact ⟨a, u, hx, h⟩
    · cases h
  · rintro ⟨a, u, hx, hf⟩
    rw [hx]
    exact hf

theorem bind_eq {x : EStateM ε σ α} {s u : σ} (h : x s = .ok a u) : (x >>= f) s = f a u := by
  change EStateM.bind x f s = _
  rw [EStateM.bind, h]

theorem pure_ok {a b : α} : (pure a : EStateM ε σ α) s = .ok b t ↔ a = b ∧ s = t := by
  change EStateM.Result.ok a s = .ok b t ↔ _
  constructor
  · intro h; cases h; exact ⟨rfl, rfl⟩
  · rintro ⟨rfl, rfl⟩; rfl

theorem pure_eq (a : α) (s : σ) : (pure a : EStateM ε σ α) s = .ok a s := rfl

theorem set_eq (s t : σ) : (set t : EStateM ε σ PUnit) s = .ok ⟨⟩ t := rfl

theorem get_bind (f : σ → EStateM ε σ β) (s : σ) : (get >>= f) s = f s s := rfl

theorem modify_bind (g : σ → σ) (f : PUnit → EStateM ε σ β) (s : σ) :
    (modify g >>= f) s = f ⟨⟩ (g s) := rfl

variable {e : ε}

theorem throw_ne_ok : ¬ (throw e : EStateM ε σ α) s = .ok a t := by
  intro h; cases h

/-- An action that throws unless a condition holds. -/
def require (c : Bool) (e : ε) : EStateM ε σ Unit := if c then pure () else throw e

theorem require_ok {c : Bool} :
    (require c e : EStateM ε σ Unit) s = .ok () t ↔ c = true ∧ s = t := by
  rw [require]
  split
  · next hc => simp [pure_ok, hc]
  · next hc =>
    constructor
    · intro h; exact absurd h throw_ne_ok
    · rintro ⟨h, -⟩; exact absurd h hc

theorem require_eq {c : Bool} {s : σ} (h : c = true) :
    (require c e : EStateM ε σ Unit) s = .ok () s := require_ok.mpr ⟨h, rfl⟩

/-- A run that does not throw and ends with a result and a state with the property `p`. -/
def okAnd (r : EStateM.Result ε σ α) (p : α → σ → Bool) : Bool :=
  match r with
  | .ok a s => p a s
  | .error _ _ => false

theorem exists_of_okAnd {r : EStateM.Result ε σ α} {p : α → σ → Bool} (h : okAnd r p = true) :
    ∃ a s, r = .ok a s ∧ p a s = true := by
  cases r with
  | ok a s => exact ⟨a, s, rfl, h⟩
  | error e s => cases h

/-- The value of an option, or an exception. -/
def ofOption (o : Option α) (e : ε) : EStateM ε σ α :=
  match o with
  | some a => pure a
  | none => throw e

variable {o : Option α}

theorem ofOption_ok : (ofOption o e : EStateM ε σ α) s = .ok a t ↔ o = some a ∧ s = t := by
  cases o with
  | none =>
    constructor
    · intro h; exact absurd h throw_ne_ok
    · rintro ⟨h, -⟩; cases h
  | some b => simp [ofOption, pure_ok]

theorem ofOption_eq {s : σ} (h : o = some a) :
    (ofOption o e : EStateM ε σ α) s = .ok a s := ofOption_ok.mpr ⟨h, rfl⟩

theorem require_bind_ok {c : Bool} {f : Unit → EStateM ε σ β} {b : β} :
    (require c e >>= f) s = .ok b t ↔ c = true ∧ f () s = .ok b t := by
  rw [bind_ok]
  constructor
  · rintro ⟨⟨⟩, u, hr, hf⟩
    obtain ⟨hc, rfl⟩ := require_ok.mp hr
    exact ⟨hc, hf⟩
  · rintro ⟨hc, hf⟩
    exact ⟨(), s, require_eq hc, hf⟩

theorem ofOption_bind_ok {b : β} :
    (ofOption o e >>= f) s = .ok b t ↔ ∃ a, o = some a ∧ f a s = .ok b t := by
  rw [bind_ok]
  constructor
  · rintro ⟨a, u, hr, hf⟩
    obtain ⟨ho, rfl⟩ := ofOption_ok.mp hr
    exact ⟨a, ho, hf⟩
  · rintro ⟨a, ho, hf⟩
    exact ⟨a, s, ofOption_eq ho, hf⟩

end Action

/-! ### Tables -/

/-- A table with increasing integer keys. -/
abbrev Table (α : Type) := List (ℕ × α)

namespace Table

variable {α : Type}

/-- Add an entry behind the last key; refused if a key is not smaller than the new one. -/
def append (t : Table α) (k : ℕ) (a : α) : Option (Table α) :=
  if t.all fun e => e.1 < k then some (t ++ [(k, a)]) else none

/-- The entry with key `k`. -/
def get? (t : Table α) (k : ℕ) : Option α := (t.find? fun e => e.1 == k).map Prod.snd

/-- Remove the entry with key `k`. -/
def erase (t : Table α) (k : ℕ) : Table α := t.filter fun e => e.1 != k

/-- Add an entry at the place of its key. -/
def put (t : Table α) (k : ℕ) (a : α) : Table α :=
  (t.filter fun e => e.1 < k) ++ (k, a) :: t.filter fun e => !decide (e.1 < k)

/-- The key behind the last one. -/
def nextKey (t : Table α) : ℕ := (t.getLast?.map fun e => e.1 + 1).getD 0

variable {t t' : Table α} {k : ℕ} {a : α}

theorem append_eq_some : t.append k a = some t' ↔ (∀ e ∈ t, e.1 < k) ∧ t' = t ++ [(k, a)] := by
  rw [append]
  split
  · next h =>
    have h' : ∀ e ∈ t, e.1 < k := by simpa using h
    simp only [Option.some.injEq]
    constructor
    · rintro rfl; exact ⟨h', rfl⟩
    · rintro ⟨-, rfl⟩; rfl
  · next h =>
    constructor
    · intro hn; cases hn
    · rintro ⟨h', -⟩; exact absurd (by simpa using h') h

theorem append_of_lt {t : Table α} (h : ∀ e ∈ t, e.1 < k) (a : α) :
    t.append k a = some (t ++ [(k, a)]) := append_eq_some.mpr ⟨h, rfl⟩

/-- After an entry has been added, all keys are below the next one. -/
theorem key_lt_of_append (h : t.append k a = some t') : ∀ e ∈ t', e.1 < k + 1 := by
  obtain ⟨hlt, rfl⟩ := append_eq_some.mp h
  intro e he
  rcases mem_append.mp he with he | he
  · exact (hlt e he).trans (Nat.lt_succ_self _)
  · rw [mem_singleton.mp he]
    exact Nat.lt_succ_self _

theorem get?_append_self (h : t.append k a = some t') : t'.get? k = some a := by
  obtain ⟨hlt, rfl⟩ := append_eq_some.mp h
  have hnone : t.find? (fun e => e.1 == k) = none := by
    rw [List.find?_eq_none]
    intro e he
    simpa using (hlt e he).ne
  rw [get?, find?_append, hnone]
  simp

theorem get?_append_ne {k j : ℕ} (h : t.append k a = some t')
    (hj : j ≠ k) : t'.get? j = t.get? j := by
  obtain ⟨-, rfl⟩ := append_eq_some.mp h
  have hk : ([(k, a)] : Table α).find? (fun e => e.1 == j) = none := by
    simpa using fun hkj => hj hkj.symm
  rw [get?, get?, find?_append, hk, Option.or_none]

theorem erase_eq_self {t : Table α} (h : ∀ e ∈ t, e.1 ≠ k) : t.erase k = t := by
  rw [erase, filter_eq_self]
  intro e he
  simpa using h e he

/-- Erasing what was just appended restores the table. -/
theorem erase_append (h : t.append k a = some t') : t'.erase k = t := by
  obtain ⟨hlt, rfl⟩ := append_eq_some.mp h
  have hself : t.erase k = t := erase_eq_self fun e he => (hlt e he).ne
  rw [erase] at hself ⊢
  rw [filter_append, hself]
  simp

theorem put_eq {t : Table α} (h : ∀ e ∈ t, e.1 < k) : t.put k a = t ++ [(k, a)] := by
  rw [put, filter_eq_self.mpr (by simpa using h),
    filter_eq_nil_iff.mpr (by simpa using h)]

theorem append_extends (h : t.append k a = some t') : t <+: t' :=
  ⟨[(k, a)], (append_eq_some.mp h).2.symm⟩

/-- An entry stays where it is when entries are added behind it. -/
theorem get?_mono (h : t <+: t') (hk : t.get? k = some a) : t'.get? k = some a := by
  obtain ⟨r, rfl⟩ := h
  obtain ⟨e, he, rfl⟩ := Option.map_eq_some_iff.mp hk
  rw [get?, find?_append, he]
  rfl

theorem mem_of_get? {t : Table α} (h : t.get? k = some a) : (k, a) ∈ t := by
  rw [get?, Option.map_eq_some_iff] at h
  obtain ⟨⟨j, b⟩, hfind, rfl⟩ := h
  have hkey : j = k := by simpa using find?_some hfind
  subst hkey
  exact mem_of_find?_eq_some hfind

/-! #### Dense tables -/

/-- The keys are `0, 1, …, n - 1`. -/
def Dense (t : Table α) : Prop := t.map Prod.fst = List.range t.length

theorem Dense.nil : Dense ([] : Table α) := rfl

theorem Dense.key_lt {t : Table α} (h : t.Dense) {e : ℕ × α} (he : e ∈ t) : e.1 < t.length := by
  have hmem : e.1 ∈ t.map Prod.fst := mem_map_of_mem he
  rw [h, mem_range] at hmem
  exact hmem

theorem Dense.lt_of_get? {t : Table α} (h : t.Dense) (hk : t.get? k = some a) :
    k < t.length := h.key_lt (mem_of_get? hk)

theorem Dense.append (h : t.Dense) (hap : t.append t.length a = some t') : t'.Dense := by
  obtain ⟨-, rfl⟩ := append_eq_some.mp hap
  rw [Dense, map_append, h, length_append, length_singleton, List.range_succ]
  rfl

theorem Dense.get?_eq {t : Table α} (h : t.Dense) (k : ℕ) : t.get? k = (t[k]?).map Prod.snd := by
  rw [get?]
  rcases Nat.lt_or_ge k t.length with hk | hk
  · have hkey : ∀ i (hi : i < t.length), (t[i]).1 = i := by
      intro i hi
      have hget : (t.map Prod.fst)[i]? = (List.range t.length)[i]? := by rw [h]
      simpa [hi] using hget
    have hfind : t.find? (fun e => e.1 == k) = some t[k] := by
      rw [find?_eq_some_iff_getElem]
      refine ⟨by simp [hkey k hk], k, hk, rfl, ?_⟩
      intro j hj
      simp [hkey j (by omega)]
      omega
    rw [hfind, getElem?_eq_getElem hk]
  · have hnone : t.find? (fun e => e.1 == k) = none := by
      rw [List.find?_eq_none]
      intro e he
      have := h.key_lt he
      simp only [beq_iff_eq]
      omega
    rw [hnone, getElem?_eq_none hk]

end Table

end Store
