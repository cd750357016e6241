import Mathlib.Data.Finset.Basic

/-!
# A cache of positive answers

A predicate is expensive to evaluate, so the keys of questions that were answered with yes are kept,
and a question whose key is there is answered with yes at once. Questions without a key are always
evaluated. The cache is bounded: a new key drives out the oldest one.

Every key in the cache is that of an earlier question with a positive answer (`exists_of_mem_run`).
So an answer differs from the predicate only if the predicate is false and the question shares its
key with an earlier one of which it is true (`ask_eq_iff`).

## Main definitions

* `Store.DataCache` — a set with the ring buffer of the keys that it was given last
* `Store.Memo.ask`

## Main results

* `Store.Memo.exists_of_mem_run`, `Store.Memo.ask_eq_iff`
-/

namespace Store

variable {ι κ : Type} [DecidableEq κ] {k k' : κ}

/-- A set of keys, with the ring buffer from which the next one to go is taken. -/
structure DataCache (κ : Type) where
  data : Finset κ
  buf : UInt64 → κ
  counter : UInt64

namespace DataCache

/-- All cells of the buffer hold the default value at first. -/
def empty [Inhabited κ] : DataCache κ := ⟨∅, fun _ => default, 0⟩

/-- A key that is new is put in the place of the oldest one. -/
def add (size : UInt64) (cache : DataCache κ) (k : κ) : DataCache κ :=
  if k ∈ cache.data then cache
  else
    let i := cache.counter % size
    ⟨(insert k cache.data).erase (cache.buf i), Function.update cache.buf i k, cache.counter + 1⟩

theorem mem_add {size : UInt64} {cache : DataCache κ} (h : k ∈ (cache.add size k').data) :
    k = k' ∨ k ∈ cache.data := by
  rw [add] at h
  split at h
  · exact .inr h
  · exact Finset.mem_insert.mp (Finset.mem_of_mem_erase h)

end DataCache

namespace Memo

variable (size : UInt64) (key : ι → Option κ) (holds : ι → Bool)

/-- The answer to a question, and the cache afterwards. -/
def ask (cache : DataCache κ) (i : ι) : Bool × DataCache κ :=
  match key i with
  | none => (holds i, cache)
  | some k =>
    if k ∈ cache.data then (true, cache)
    else if holds i then (true, cache.add size k)
    else (false, cache)

variable {size key holds} {cache : DataCache κ} {i : ι}

/-- One question adds at most its own key, and only if the answer is positive. -/
theorem mem_ask (h : k ∈ (ask size key holds cache i).2.data) :
    k ∈ cache.data ∨ key i = some k ∧ holds i = true := by
  rw [ask] at h
  split at h
  · exact .inl h
  · next k' hkey =>
    split at h
    · exact .inl h
    · split at h
      · next hholds =>
        rcases DataCache.mem_add h with rfl | h
        · exact .inr ⟨hkey, hholds⟩
        · exact .inl h
      · exact .inl h

/-- **The keys in the cache** are those of questions with a positive answer. -/
theorem exists_of_mem_run [Inhabited κ] {questions : List ι}
    (h : k ∈ (questions.foldl (fun cache i => (ask size key holds cache i).2) .empty).data) :
    ∃ i ∈ questions, key i = some k ∧ holds i = true := by
  induction questions using List.reverseRecOn with
  | nil => exact absurd h (Finset.notMem_empty k)
  | append_singleton questions i ih =>
    rw [List.foldl_append, List.foldl_cons, List.foldl_nil] at h
    rcases mem_ask h with h | hi
    · obtain ⟨j, hj, hkey⟩ := ih h
      exact ⟨j, List.mem_append_left _ hj, hkey⟩
    · exact ⟨i, List.mem_append_right _ (List.mem_singleton.mpr rfl), hi⟩

/-- **An answer is wrong** exactly if the predicate is false and the key is in the cache. -/
theorem ask_eq_iff :
    (ask size key holds cache i).1 = holds i ↔
      holds i = true ∨ ∀ k, key i = some k → k ∉ cache.data := by
  rw [ask]
  cases hkey : key i with
  | none => simp
  | some k =>
    simp only [Option.some.injEq, forall_eq']
    by_cases hmem : k ∈ cache.data
    · cases holds i <;> simp [hmem]
    · cases holds i <;> simp [hmem]

end Memo

end Store
