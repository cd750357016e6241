import Mathlib.Data.List.Basic
import Mathlib.Data.Nat.Basic
import Mathlib.Logic.Function.Basic

/-!
# The last entries of a history

A queue that keeps the last `w` entries of a growing history (`recent`), and a table that counts the
entries of a queue in machine words (`Tally`). Entries come in at the end and go out at the front,
and the table is changed by one at each of these; it then always holds the counts, as far as a word
can hold them.

When the history shrinks, the entries that should come back at the front are no longer in the queue.
`take_append_recent_eq_iff` says when filling up with other entries gives the queue of the shorter
history after all.

## Main definitions

* `Store.recent`
* `Store.Tally`, `Store.increment`, `Store.decrement`

## Main results

* `Store.recent_concat` — one more entry
* `Store.take_append_recent_eq_iff` — fewer entries
* `Store.Tally.increment`, `Store.Tally.decrement`
-/

namespace Store

open List

variable {α : Type}

/-! ### The queue -/

/-- The last `w` entries of a list. -/
def recent (w : ℕ) (l : List α) : List α := l.drop (l.length - w)

@[simp] theorem length_recent (w : ℕ) (l : List α) : (recent w l).length = min w l.length := by
  rw [recent, length_drop]
  omega

theorem recent_concat {w : ℕ} (hw : 0 < w) (l : List α) (a : α) :
    recent w (l ++ [a]) = (recent w l).drop ((recent w l).length + 1 - w) ++ [a] := by
  have hdrop : l.length + 1 - w ≤ l.length := by omega
  rw [length_recent, recent, recent, length_append, length_singleton,
    drop_append_of_le_length hdrop, drop_drop]
  congr 2
  omega

/-- A history of `n` entries loses its last `k` ones, and its queue takes the same number of entries
`front` in at its front. The queue is that of the shorter history exactly if this is still as long
as the queue and `front` is what stood before the queue. -/
theorem take_append_recent_eq_iff {w k : ℕ} {l front : List α} (hk : 0 < k) (hkl : k ≤ l.length)
    (hfront : front.length = k) :
    (front ++ recent w l).take (recent w l).length = recent w (l.take (l.length - k)) ↔
      w + k ≤ l.length ∧ ∀ j < min k w, front[j]? = l[l.length - k - w + j]? := by
  have hlen : (l.take (l.length - k)).length = l.length - k := by
    rw [length_take]
    omega
  constructor
  · intro h
    have hlength := congrArg List.length h
    rw [length_take, length_append, length_recent, length_recent, hlen, hfront] at hlength
    have hfit : w + k ≤ l.length := by omega
    refine ⟨hfit, fun j hj => ?_⟩
    have hj' := congrArg (·[j]?) h
    simp only [recent, hlen, getElem?_drop, getElem?_take, length_drop] at hj'
    rw [if_pos (by omega), if_pos (by omega), getElem?_append_left (by omega)] at hj'
    exact hj'
  · rintro ⟨hfit, hsame⟩
    apply ext_getElem?
    intro j
    simp only [recent, hlen, getElem?_drop, getElem?_take, length_drop]
    by_cases hj : j < w
    · rw [if_pos (by omega), if_pos (by omega)]
      by_cases hjk : j < k
      · rw [getElem?_append_left (by omega), hsame j (by omega)]
      · rw [getElem?_append_right (by omega), hfront, getElem?_drop]
        congr 1
        omega
    · rw [if_neg (by omega), if_neg (by omega)]

/-! ### The table -/

variable [DecidableEq α]

/-- `table[a]++`. -/
def increment (table : α → UInt32) (a : α) : α → UInt32 := Function.update table a (table a + 1)

/-- `table[a]--`. -/
def decrement (table : α → UInt32) (a : α) : α → UInt32 := Function.update table a (table a - 1)

/-- The table counts the entries of a list, modulo `2 ^ 32`. -/
def Tally (table : α → UInt32) (l : List α) : Prop := ∀ a, table a = UInt32.ofNat (l.count a)

namespace Tally

variable {table table' : α → UInt32} {l l' : List α} {a : α}

theorem zero : Tally (fun _ : α => 0) [] := fun _ => rfl

theorem increment (h : Tally table l) (hperm : l'.Perm (a :: l)) :
    Tally (Store.increment table a) l' := by
  intro b
  rw [hperm.count_eq, count_cons, Store.increment]
  rcases eq_or_ne b a with rfl | hne
  · rw [Function.update_self, h b, if_pos (beq_self_eq_true b), UInt32.ofNat_add]
    rfl
  · rw [Function.update_of_ne hne, h b, if_neg (by simpa using hne.symm), Nat.add_zero]

theorem decrement (h : Tally table l) (hperm : l.Perm (a :: l')) :
    Tally (Store.decrement table a) l' := by
  intro b
  have hb := h b
  rw [hperm.count_eq, count_cons] at hb
  rw [Store.decrement]
  rcases eq_or_ne b a with rfl | hne
  · rw [if_pos (beq_self_eq_true b), UInt32.ofNat_add] at hb
    rw [Function.update_self, hb]
    exact UInt32.add_sub_cancel _ _
  · rw [if_neg (by simpa using hne.symm), Nat.add_zero] at hb
    rw [Function.update_of_ne hne, hb]

/-- A list has one table. -/
theorem unique (h : Tally table l) (h' : Tally table' l) : table = table' :=
  funext fun a => (h a).trans (h' a).symm

end Tally

end Store
