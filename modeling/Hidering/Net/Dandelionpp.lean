import Hidering.Store.Sorted
import Mathlib.Algebra.GroupWithZero.Nat
import Mathlib.Data.List.Induction
import Mathlib.Data.List.Nodup
import Mathlib.Data.List.Sort
import Mathlib.Order.Nat

/-!
# The Dandelion++ stem map

`net::dandelionpp::connection_map` keeps a fixed number of slots for outgoing connections, the
stems, and sends all transactions of one source to one slot. A slot whose connection went away holds
the nil id until `update` refills it from the current connections; a source whose slot is empty is
moved to another one when it is looked up again.

Connection ids are an arbitrary linear order whose least element is the nil id (a `uuid` is compared
byte by byte, and the nil one is all zeros). The generator is a parameter of every call: `Dice` is
any sequence of draws, together with any shuffle. Counters are natural numbers.

## Main definitions

* `ConnectionMap`, `ConnectionMap.make`, `ConnectionMap.update`, `ConnectionMap.getStem`
* `ConnectionMap.Call`, `ConnectionMap.run` — sequences of calls
* `ConnectionMap.Ok`, `ConnectionMap.Holds` — the invariants of the tables and of the slots

## Main results

* `ConnectionMap.exists_updated`, `ConnectionMap.getStem_cases` — what the two calls do
* `ConnectionMap.Ok.run` — the invariants over every run
* `ConnectionMap.run_spec` — what holds of the stems and of the sources after any calls
* `ConnectionMap.update_iff` — when `update` reports exactly the changes
-/

namespace Hidering.Dandelionpp

open Store List

/-- What the random generator gives during one call. -/
structure Dice (U : Type) where
  /-- the draws of `crypto::rand_idx`, each reduced to its range where it is used -/
  randIdx : ℕ → ℕ
  /-- `std::shuffle` -/
  shuffle : List U → List U
  shuffle_perm : ∀ l, (shuffle l).Perm l

/-- Outgoing connections: distinct ids, none of them nil. -/
structure Connections (U : Type) [LinearOrder U] [OrderBot U] where
  ids : List U
  nodup : ids.Nodup
  bot_notMem : ⊥ ∉ ids

/-- `connection_map`. -/
structure ConnectionMap (U : Type) where
  /-- the stems; a nil id is a slot whose connection went away -/
  outMapping : List U
  /-- the slot of each source, sorted by source -/
  inMapping : List (U × ℕ)
  /-- for each slot the number of sources that use it -/
  usageCount : List ℕ
  deriving DecidableEq

variable {U : Type}

/-- `std::swap(v[i], v[j])`. -/
def swap (v : List U) (i j : ℕ) : List U :=
  match v[i]?, v[j]? with
  | some a, some b => (v.set i b).set j a
  | _, _ => v

theorem swap_perm (v : List U) (i j : ℕ) : (swap v i j).Perm v := by
  unfold swap
  split
  · rename_i a b ha hb
    obtain ⟨hi, rfl⟩ := List.getElem?_eq_some_iff.mp ha
    obtain ⟨hj, rfl⟩ := List.getElem?_eq_some_iff.mp hb
    exact set_set_perm hi hj
  · exact List.Perm.refl v

variable [LinearOrder U] [OrderBot U]

/-! ### The code -/

/-- `select_stem`: one of the least used live stems. `none` is the error value of the source, the
greatest `size_t`, and so is the first component before any stem was seen. -/
def scanStem (usage : List ℕ) (acc : Option ℕ × List ℕ) (out : U × ℕ) : Option ℕ × List ℕ :=
  if out.1 = ⊥ then acc
  else
    match acc.1 with
    | none => (some (usage.getD out.2 0), [out.2])
    | some lowest =>
      if usage.getD out.2 0 < lowest then (some (usage.getD out.2 0), [out.2])
      else if usage.getD out.2 0 = lowest then (some lowest, acc.2 ++ [out.2])
      else acc

@[inherit_doc scanStem]
def selectStem (rand : ℕ) (usage : List ℕ) (outMap : List U) : Option ℕ :=
  if usage.length < outMap.length then none
  else
    let choices := (outMap.zipIdx.foldl (scanStem usage) (none, [])).2
    choices[rand % choices.length]?

namespace ConnectionMap

/-- The constructor. It refuses the number that `select_stem` uses for an error. -/
def make (d : Dice U) (outConnections : Connections U) (stems : ℕ) : Option (ConnectionMap U) :=
  if stems = 2 ^ 64 - 1 then none
  else
    let out := outConnections.ids
    some
      { outMapping :=
          if stems < out.length then
            ((List.range stems).foldl
              (fun v i => swap v i (i + d.randIdx i % (v.length - i))) out).take stems
          else d.shuffle out
        inMapping := []
        usageCount := replicate stems 0 }

/-- The first loop of `update`: a stem that is not among the current connections is set to nil, any
other one is taken out of them. Returns the stems, the connections left and `replace`. -/
def retain : List U → List U → List U × List U × Bool
  | [], current => ([], current, false)
  | out :: outs, current =>
    let elem := lowerBound id current out
    if current[elem]? = some out then
      let r := retain outs (current.eraseIdx elem)
      (out :: r.1, r.2.1, r.2.2)
    else
      let r := retain outs current
      (⊥ :: r.1, r.2.1, true)

/-- One round of the second loop of `update`: slot `i`, if it is empty or not there yet, takes a
random one of the connections left. -/
def refill (d : Dice U) (st : List U × List U) (i : ℕ) : List U × List U :=
  if st.1.length ≤ i ∨ st.1[i]? = some ⊥ then
    let current := swap st.2 (st.2.length - 1) (d.randIdx i % st.2.length)
    match current.getLast? with
    | none => st
    | some back =>
      (if st.1.length ≤ i then st.1 ++ [back] else st.1.set i back, current.dropLast)
  else st

/-- `update`. -/
def update (d : Dice U) (L : Connections U) (m : ConnectionMap U) : Bool × ConnectionMap U :=
  let r := retain m.outMapping (L.ids.insertionSort (· ≤ ·))
  if r.2.2 = false ∧ r.1.length = m.usageCount.length then (false, { m with outMapping := r.1 })
  else
    let st := (List.range m.usageCount.length).foldl (refill d) (r.1, r.2.1)
    (r.2.2 || decide (r.1.length < st.1.length), { m with outMapping := st.1 })

/-- `get_stem`. The slots of `inMapping` are in range (`Ok.slot_lt`), so `at` does not throw. -/
def getStem (rand : ℕ) (source : U) (m : ConnectionMap U) : U × ConnectionMap U :=
  let elem := lowerBound Prod.fst m.inMapping source
  match m.inMapping[elem]?.filter (fun e => e.1 = source) with
  | none =>
    match selectStem rand m.usageCount m.outMapping with
    | none => (⊥, m)
    | some index =>
      (m.outMapping.getD index ⊥,
        { m with
          inMapping := m.inMapping.insertIdx elem (source, index)
          usageCount := m.usageCount.modify index (· + 1) })
  | some e =>
    if m.outMapping.getD e.2 ⊥ = ⊥ then
      let usage := m.usageCount.modify e.2 (· - 1)
      match selectStem rand usage m.outMapping with
      | none => (⊥, { m with inMapping := m.inMapping.eraseIdx elem, usageCount := usage })
      | some index =>
        (m.outMapping.getD index ⊥,
          { m with
            inMapping := m.inMapping.set elem (source, index)
            usageCount := usage.modify index (· + 1) })
    else (m.outMapping.getD e.2 ⊥, m)

/-- A call on the map, with what the generator gives to it. -/
inductive Call (U : Type) [LinearOrder U] [OrderBot U] where
  | update (d : Dice U) (L : Connections U)
  | getStem (rand : ℕ) (source : U)

/-- The map after a call. -/
def step (m : ConnectionMap U) : Call U → ConnectionMap U
  | .update d L => (m.update d L).2
  | .getStem rand source => (m.getStem rand source).2

/-- The map after a sequence of calls. -/
def run (m : ConnectionMap U) (calls : List (Call U)) : ConnectionMap U := calls.foldl step m

/-- The list of the last `update`. -/
def lastList (L : Connections U) : List (Call U) → Connections U
  | [] => L
  | .update _ L' :: calls => lastList L' calls
  | .getStem _ _ :: calls => lastList L calls

end ConnectionMap

/-! ### Selecting a stem -/

/-- A slot that does not read as nil is there. -/
theorem getElem?_of_getD_ne {outs : List U} {i : ℕ} (h : outs.getD i ⊥ ≠ ⊥) :
    outs[i]? = some (outs.getD i ⊥) := by
  rw [getD_eq_getElem?_getD] at h ⊢
  cases hi : outs[i]? with
  | none => exact absurd (by rw [hi]; rfl) h
  | some o => rfl

theorem lt_length_of_getD_ne {outs : List U} {i : ℕ} (h : outs.getD i ⊥ ≠ ⊥) : i < outs.length :=
  (List.getElem?_eq_some_iff.mp (getElem?_of_getD_ne h)).1

/-- What the scan of `select_stem` knows after some of the stems. -/
def Scanned (usage : List ℕ) (outs : List (U × ℕ)) (acc : Option ℕ × List ℕ) : Prop :=
  match acc.1 with
  | none => acc.2 = [] ∧ ∀ out ∈ outs, out.1 = ⊥
  | some lowest => acc.2 ≠ [] ∧
      (∀ i ∈ acc.2, usage.getD i 0 = lowest ∧ ∃ out ∈ outs, out.1 ≠ ⊥ ∧ out.2 = i) ∧
      ∀ out ∈ outs, out.1 ≠ ⊥ → lowest ≤ usage.getD out.2 0

theorem Scanned.scanStem {usage : List ℕ} {outs : List (U × ℕ)} {acc : Option ℕ × List ℕ}
    (h : Scanned usage outs acc) (out : U × ℕ) :
    Scanned usage (outs ++ [out]) (scanStem usage acc out) := by
  obtain ⟨lowest, choices⟩ := acc
  -- a choice stays one when the list of stems grows, and the last stem is one if it is live
  have hgrow : ∀ i, (∃ o ∈ outs, o.1 ≠ ⊥ ∧ o.2 = i) → ∃ o ∈ outs ++ [out], o.1 ≠ ⊥ ∧ o.2 = i :=
    fun i ⟨o, ho, hrest⟩ => ⟨o, mem_append_left _ ho, hrest⟩
  unfold Dandelionpp.scanStem
  by_cases hout : out.1 = ⊥
  · rw [if_pos hout]
    cases lowest with
    | none => exact ⟨h.1, forall_mem_append.mpr ⟨h.2, by simpa using hout⟩⟩
    | some lowest =>
      obtain ⟨hne, hmem, hle⟩ := h
      exact ⟨hne, fun i hi => (hmem i hi).imp_right (hgrow i),
        forall_mem_append.mpr ⟨hle, by simp [hout]⟩⟩
  · rw [if_neg hout]
    have hlast : ∀ i ∈ [out.2], usage.getD i 0 = usage.getD out.2 0 ∧
        ∃ o ∈ outs ++ [out], o.1 ≠ ⊥ ∧ o.2 = i :=
      forall_mem_singleton.mpr ⟨rfl, out, by simp, hout, rfl⟩
    cases lowest with
    | none =>
      refine ⟨by simp, hlast, forall_mem_append.mpr ⟨fun o ho hlive => ?_, by simp⟩⟩
      exact absurd (h.2 o ho) hlive
    | some lowest =>
      obtain ⟨hne, hmem, hle⟩ := h
      have hold := fun i hi => (hmem i hi).imp_right (hgrow i)
      dsimp only
      split_ifs with hlt heq
      · refine ⟨by simp, hlast, forall_mem_append.mpr ⟨fun o ho hlive => ?_, by simp⟩⟩
        exact hlt.le.trans (hle o ho hlive)
      · exact ⟨by simp, forall_mem_append.mpr ⟨hold, heq ▸ hlast⟩,
          forall_mem_append.mpr ⟨hle, forall_mem_singleton.mpr fun _ => heq.ge⟩⟩
      · exact ⟨hne, hold, forall_mem_append.mpr
          ⟨hle, forall_mem_singleton.mpr fun _ => not_lt.mp hlt⟩⟩

theorem scanned_foldl (usage : List ℕ) (outs : List (U × ℕ)) :
    Scanned usage outs (outs.foldl (scanStem usage) (none, [])) := by
  induction outs using reverseRecOn with
  | nil => exact ⟨rfl, by simp⟩
  | append_singleton outs out ih =>
    rw [foldl_append]
    exact ih.scanStem out

/-- `select_stem` finds a live stem that no other live stem is used less than, if there is any live
stem at all. -/
theorem selectStem_cases {usage : List ℕ} {outMap : List U} (h : outMap.length ≤ usage.length)
    (rand : ℕ) :
    (selectStem rand usage outMap = none ∧ ∀ out ∈ outMap, out = ⊥) ∨
      ∃ index, selectStem rand usage outMap = some index ∧ outMap.getD index ⊥ ≠ ⊥ ∧
        ∀ j, outMap.getD j ⊥ ≠ ⊥ → usage.getD index 0 ≤ usage.getD j 0 := by
  have hscan := scanned_foldl usage outMap.zipIdx
  rcases hacc : outMap.zipIdx.foldl (scanStem usage) (none, []) with ⟨lowest, choices⟩
  have hsel : selectStem rand usage outMap = choices[rand % choices.length]? := by
    rw [selectStem, if_neg (by omega), hacc]
  rw [hacc] at hscan
  cases lowest with
  | none =>
    obtain ⟨rfl, hall⟩ := hscan
    refine Or.inl ⟨by simp [hsel], fun out hout => ?_⟩
    obtain ⟨i, hi⟩ := getElem?_of_mem hout
    exact hall (out, i) (mem_zipIdx_iff_getElem?.mpr hi)
  | some lowest =>
    obtain ⟨hne, hmem, hle⟩ := hscan
    have hlt : rand % choices.length < choices.length :=
      Nat.mod_lt _ (length_pos_iff.mpr hne)
    obtain ⟨hu, out, hout, hlive, hidx⟩ := hmem _ (getElem_mem hlt)
    refine Or.inr ⟨_, by rw [hsel, getElem?_eq_getElem hlt], ?_, fun j hj => ?_⟩
    · rw [← hidx, getD_eq_getElem?_getD, mem_zipIdx_iff_getElem?.mp hout]
      exact hlive
    · rw [hu]
      exact hle (_, j) (mem_zipIdx_iff_getElem?.mpr (getElem?_of_getD_ne hj)) hj

namespace ConnectionMap

variable {m : ConnectionMap U} {L : Connections U} {s i : ℕ} {outs : List U} {st : List U × List U}

/-! ### The live stems -/

/-- The stems that are connected. -/
def live (outs : List U) : List U := outs.filter (· ≠ ⊥)

@[simp] theorem mem_live {o : U} : o ∈ live outs ↔ o ∈ outs ∧ o ≠ ⊥ := by
  simp [live]

theorem live_eq_self (h : ⊥ ∉ outs) : live outs = outs := by
  refine filter_eq_self.mpr fun o ho => ?_
  have : o ≠ ⊥ := fun e => h (e ▸ ho)
  simpa using this

theorem live_append_singleton (outs : List U) {b : U} (hb : b ≠ ⊥) :
    live (outs ++ [b]) = live outs ++ [b] := by
  simp [live, hb]

/-- A connection put into an empty slot is one more live stem. -/
theorem live_set_perm {b : U} (hi : outs[i]? = some ⊥) (hb : b ≠ ⊥) :
    (live (outs.set i b)).Perm (b :: live outs) := by
  induction outs generalizing i with
  | nil => simp at hi
  | cons o outs ih =>
    cases i with
    | zero =>
      obtain rfl : o = ⊥ := by simpa using hi
      simp [live, hb]
    | succ i =>
      have hrec := ih (i := i) (by simpa using hi)
      by_cases ho : o = ⊥
      · simpa [live, ho] using hrec
      · have hswap := (hrec.cons o).trans (List.Perm.swap b o (live outs))
        simpa [live, ho] using hswap

/-! ### What `update` does -/

/-- The first loop keeps exactly the stems that are current, and what it leaves of the current
connections are those that are not stems. -/
theorem retain_spec {current : List U} (hsort : Sorted id current) (hbot : ⊥ ∉ current)
    (hnd : (live outs).Nodup) :
    (retain outs current).1 = outs.map (fun o => if o ∈ current then o else ⊥) ∧
      (live (retain outs current).1 ++ (retain outs current).2.1).Perm current ∧
      ((retain outs current).2.2 = true ↔ ∃ o ∈ outs, o ∉ current) := by
  induction outs generalizing current with
  | nil => exact ⟨rfl, List.Perm.refl _, by simp [retain]⟩
  | cons o outs ih =>
    have htail : (live outs).Nodup := hnd.sublist ((sublist_cons_self o outs).filter _)
    obtain ⟨front, back, hfront, hback, hpos, hsplit⟩ := hsort.lowerBound_cases o
    rcases hsplit with rfl | ⟨o', rfl, rfl⟩
    · -- not a current connection: the slot is emptied
      have hmem : o ∉ front ++ back := by
        intro ho
        rcases mem_append.mp ho with ho | ho
        exacts [absurd (hfront o ho) (lt_irrefl _), absurd (hback o ho) (lt_irrefl _)]
      have hget : (front ++ back)[lowerBound id (front ++ back) o]? ≠ some o :=
        fun hget => hmem (mem_of_getElem? hget)
      obtain ⟨hmap, hperm, -⟩ := ih hsort hbot htail
      rw [retain, if_neg hget]
      refine ⟨?_, by simpa [live] using hperm, ?_⟩
      · rw [map_cons, if_neg hmem, ← hmap]
      · exact iff_of_true rfl ⟨o, mem_cons_self .., hmem⟩
    · -- a current connection: no other slot holds it, so later slots do not miss it
      have hget : (front ++ o' :: back)[lowerBound id (front ++ o' :: back) (id o')]? =
          some (id o') := by
        rw [hpos, getElem?_append_right (Nat.le_refl _), Nat.sub_self]
        rfl
      have herase : (front ++ o' :: back).eraseIdx
          (lowerBound id (front ++ o' :: back) (id o')) = front ++ back := by
        rw [hpos, eraseIdx_append_of_length_le (Nat.le_refl _), Nat.sub_self]
        rfl
      have ho' : o' ≠ ⊥ := by
        rintro rfl
        exact hbot (mem_append_right _ (mem_cons_self ..))
      have hsub : ∀ o ∈ front ++ back, o ∈ front ++ o' :: back :=
        (List.Sublist.append_left (sublist_cons_self ..) _).subset
      have hother : ∀ o ∈ outs, (o ∈ front ++ back ↔ o ∈ front ++ o' :: back) := by
        intro o ho
        have hne : o ≠ o' := by
          rintro rfl
          have hnd' : (o :: live outs).Nodup := by simpa [live, ho'] using hnd
          exact (nodup_cons.mp hnd').1 (mem_live.mpr ⟨ho, ho'⟩)
        simp [hne]
      obtain ⟨hmap, hperm, hrep⟩ := ih hsort.erase (fun hb => hbot (hsub _ hb)) htail
      rw [retain, if_pos hget, herase]
      refine ⟨?_, ?_, ?_⟩
      · have hcongr : outs.map (fun o => if o ∈ front ++ back then o else ⊥) =
            outs.map (fun o => if o ∈ front ++ o' :: back then o else ⊥) :=
          map_congr_left fun o ho => by simp only [hother o ho]
        rw [map_cons, if_pos (by simp), ← hcongr, ← hmap]
      · have hcons := (hperm.cons o').trans perm_middle.symm
        simpa [live, ho'] using hcons
      · rw [hrep, exists_mem_cons_iff]
        constructor
        · rintro ⟨o, ho, hn⟩
          exact Or.inr ⟨o, ho, fun h => hn ((hother o ho).mpr h)⟩
        · rintro (hn | ⟨o, ho, hn⟩)
          · exact absurd (by simp) hn
          · exact ⟨o, ho, fun h => hn ((hother o ho).mp h)⟩

/-- One round of the second loop either finds nothing to do, or puts one of the connections left
into the slot. -/
theorem refill_cases (d : Dice U) (st : List U × List U) (i : ℕ) :
    (refill d st i = st ∧ (st.2 = [] ∨ ∃ o, st.1[i]? = some o ∧ o ≠ ⊥)) ∨
      ∃ back rest, st.2.Perm (back :: rest) ∧
        ((st.1.length ≤ i ∧ refill d st i = (st.1 ++ [back], rest)) ∨
          (st.1[i]? = some ⊥ ∧ refill d st i = (st.1.set i back, rest))) := by
  unfold refill
  by_cases hslot : st.1.length ≤ i ∨ st.1[i]? = some ⊥
  · rw [if_pos hslot]
    dsimp only
    have hperm := swap_perm st.2 (st.2.length - 1) (d.randIdx i % st.2.length)
    generalize swap st.2 (st.2.length - 1) (d.randIdx i % st.2.length) = current at hperm ⊢
    cases hlast : current.getLast? with
    | none =>
      obtain rfl := getLast?_eq_none_iff.mp hlast
      exact Or.inl ⟨rfl, Or.inl (nil_perm.mp hperm)⟩
    | some back =>
      obtain ⟨rest, rfl⟩ := getLast?_eq_some_iff.mp hlast
      refine Or.inr ⟨back, rest, hperm.symm.trans (perm_append_singleton back rest), ?_⟩
      dsimp only
      rw [dropLast_concat]
      by_cases hlen : st.1.length ≤ i
      · exact Or.inl ⟨hlen, by rw [if_pos hlen]⟩
      · exact Or.inr ⟨hslot.resolve_left hlen, by rw [if_neg hlen]⟩
  · rw [if_neg hslot]
    obtain ⟨hlt, hne⟩ := not_or.mp hslot
    have hget := getElem?_eq_getElem (not_le.mp hlt)
    exact Or.inl ⟨rfl, Or.inr ⟨_, hget, fun e => hne (hget.trans (congrArg some e))⟩⟩

/-- The second loop after its first `i` rounds: the live stems and the connections left make up the
list, and the first `i` slots are filled unless no connection is left. -/
structure Filling (L : List U) (s i : ℕ) (st : List U × List U) : Prop where
  perm : (live st.1 ++ st.2).Perm L
  length_le : st.1.length ≤ s
  front : ∀ j < i, st.2 = [] ∨ ∃ o, st.1[j]? = some o ∧ o ≠ ⊥

theorem Filling.refill {L : List U} (h : Filling L s i st) (hL : ⊥ ∉ L) (hi : i < s)
    (d : Dice U) : Filling L s (i + 1) (refill d st i) := by
  rcases refill_cases d st i with ⟨hst, hdone⟩ | ⟨back, rest, hperm, hcase⟩
  · rw [hst]
    refine ⟨h.perm, h.length_le, fun j hj => ?_⟩
    rcases Nat.lt_succ_iff_lt_or_eq.mp hj with hj | rfl
    exacts [h.front j hj, hdone]
  · have hback : back ≠ ⊥ := by
      rintro rfl
      exact hL (h.perm.subset (mem_append_right _ (hperm.symm.subset (by simp))))
    have hfront : ∀ j < i, ∃ o, st.1[j]? = some o ∧ o ≠ ⊥ := by
      intro j hj
      refine (h.front j hj).resolve_left fun hnil => ?_
      rw [hnil] at hperm
      exact absurd hperm.symm (cons_ne_nil _ _ ∘ perm_nil.mp)
    have hall := (hperm.append_left (live st.1)).symm.trans h.perm
    rcases hcase with ⟨hlen, hst⟩ | ⟨hget, hst⟩
    · rw [hst]
      refine ⟨?_, ?_, fun j hj => Or.inr ?_⟩
      · rw [live_append_singleton _ hback, append_assoc]
        exact hall
      · rw [length_append, length_singleton]
        omega
      · -- the slots before `i` are all there, so the new one is slot `i`
        rcases Nat.lt_succ_iff_lt_or_eq.mp hj with hj | rfl
        · obtain ⟨o, ho, hne⟩ := hfront j hj
          exact ⟨o, (getElem?_append_left (List.getElem?_eq_some_iff.mp ho).1).trans ho, hne⟩
        · have hlen' : st.1.length = j := by
            refine le_antisymm hlen (Nat.le_of_not_lt fun hlt => ?_)
            obtain ⟨o, ho, -⟩ := hfront st.1.length hlt
            simp at ho
          exact ⟨back, by simp [← hlen'], hback⟩
    · rw [hst]
      refine ⟨?_, by simpa using h.length_le, fun j hj => Or.inr ?_⟩
      · exact (((live_set_perm hget hback).append_right rest).trans perm_middle.symm).trans hall
      · rcases Nat.lt_succ_iff_lt_or_eq.mp hj with hj | rfl
        · obtain ⟨o, ho, hne⟩ := hfront j hj
          exact ⟨o, by rw [getElem?_set_ne (Nat.ne_of_gt hj), ho], hne⟩
        · have hlt := (List.getElem?_eq_some_iff.mp hget).1
          exact ⟨back, by simp [getElem?_set_self hlt], hback⟩

/-- The loop as a whole. -/
theorem Filling.foldl {L : List U} {n : ℕ} (h : Filling L s 0 st) (hL : ⊥ ∉ L) (hn : n ≤ s)
    (d : Dice U) : Filling L s n ((List.range n).foldl (ConnectionMap.refill d) st) := by
  induction n with
  | zero => exact h
  | succ n ih =>
    rw [List.range_succ, foldl_append]
    exact (ih (by omega)).refill hL hn d

/-- The second loop leaves the live stems where they are, and does not shorten the list. -/
theorem refill_getElem? (d : Dice U) {j : ℕ} {o : U} (h : st.1[j]? = some o)
    (ho : o ≠ ⊥) : (refill d st i).1[j]? = some o := by
  rcases refill_cases d st i with ⟨hst, -⟩ | ⟨back, rest, -, ⟨-, hst⟩ | ⟨hget, hst⟩⟩ <;> rw [hst]
  · exact h
  · exact (getElem?_append_left (List.getElem?_eq_some_iff.mp h).1).trans h
  · have hne : i ≠ j := by
      rintro rfl
      exact ho (Option.some.inj (h.symm.trans hget))
    rw [getElem?_set_ne hne, h]

theorem foldl_refill_getElem? (d : Dice U) (is : List ℕ) {j : ℕ} {o : U} (h : st.1[j]? = some o)
    (ho : o ≠ ⊥) : (is.foldl (refill d) st).1[j]? = some o := by
  induction is generalizing st with
  | nil => exact h
  | cons i is ih => exact ih (refill_getElem? d h ho)

theorem foldl_refill_nil (d : Dice U) (is : List ℕ) (h : st.2 = []) :
    is.foldl (refill d) st = st := by
  induction is with
  | nil => rfl
  | cons i is ih =>
    rcases refill_cases d st i with ⟨hst, -⟩ | ⟨back, rest, hperm, -⟩
    · rw [foldl_cons, hst, ih]
    · rw [h] at hperm
      exact absurd hperm.symm (cons_ne_nil _ _ ∘ perm_nil.mp)

theorem length_le_foldl_refill (d : Dice U) (st : List U × List U) (is : List ℕ) :
    st.1.length ≤ (is.foldl (refill d) st).1.length := by
  induction is generalizing st with
  | nil => exact Nat.le_refl _
  | cons i is ih =>
    refine Nat.le_trans ?_ (ih _)
    rcases refill_cases d st i with ⟨hst, -⟩ | ⟨back, rest, -, ⟨-, hst⟩ | ⟨-, hst⟩⟩ <;> simp [hst]

/-- What a call of `update` does to the stems `outs`: current ones keep their slot, the slots that
are left take other current connections, as many as there are slots and connections. It reports that
a slot was found empty or lost its connection, or that the list of stems grew. -/
structure Updated (outs : List U) (L : List U) (s : ℕ) (r : Bool × List U) (rest : List U) :
    Prop where
  filling : Filling L s s (r.2, rest)
  keeps : ∀ (i : ℕ) (o : U), outs[i]? = some o → o ∈ L → r.2[i]? = some o
  length_le : outs.length ≤ r.2.length
  reports : r.1 = true ↔ (∃ o ∈ outs, o ∉ L) ∨ outs.length < r.2.length
  same : (∀ o ∈ outs, o ≠ ⊥ → o ∈ L) → (∀ o ∈ L, o ∈ outs) → r.2 = outs

theorem exists_updated (hlen : m.outMapping.length ≤ m.usageCount.length)
    (hnd : (live m.outMapping).Nodup) (d : Dice U) (L : Connections U) :
    ∃ rest, Updated m.outMapping L.ids m.usageCount.length
      ((m.update d L).1, (m.update d L).2.outMapping) rest := by
  have hperm := perm_insertionSort (· ≤ ·) L.ids
  have hmem : ∀ {o : U}, o ∈ L.ids.insertionSort (· ≤ ·) ↔ o ∈ L.ids := hperm.mem_iff
  have hsort : Sorted id (L.ids.insertionSort (· ≤ ·)) :=
    (pairwise_insertionSort (· ≤ ·) L.ids).imp₂ (fun _ _ hle hne => lt_of_le_of_ne hle hne)
      (hperm.nodup_iff.mpr L.nodup)
  obtain ⟨hmap, hrest, hrep⟩ := retain_spec hsort (fun h => L.bot_notMem (hmem.mp h)) hnd
  simp only [hmem] at hmap hrep
  have hkeep : ∀ (i : ℕ) (o : U), m.outMapping[i]? = some o → o ∈ L.ids →
      (retain m.outMapping (L.ids.insertionSort (· ≤ ·))).1[i]? = some o := by
    intro i o hi ho
    rw [hmap, getElem?_map, hi, Option.map_some, if_pos ho]
  have hbot : ∀ o ∈ L.ids, o ≠ ⊥ := fun o ho e => L.bot_notMem (e ▸ ho)
  have hlen' : (retain m.outMapping (L.ids.insertionSort (· ≤ ·))).1.length =
      m.outMapping.length := by
    rw [hmap, length_map]
  have hsame : (∀ o ∈ m.outMapping, o ≠ ⊥ → o ∈ L.ids) →
      (retain m.outMapping (L.ids.insertionSort (· ≤ ·))).1 = m.outMapping := by
    intro hall
    rw [hmap]
    refine (map_congr_left fun o ho => ?_).trans (map_id _)
    by_cases hb : o = ⊥
    · simp [hb]
    · exact if_pos (hall o ho hb)
  unfold update
  generalize retain m.outMapping (L.ids.insertionSort (· ≤ ·)) = r at *
  obtain ⟨outs, rest, replace⟩ := r
  dsimp only at *
  have hstart : Filling L.ids m.usageCount.length 0 (outs, rest) :=
    ⟨hrest.trans hperm, hlen'.trans_le hlen, fun j hj => absurd hj (Nat.not_lt_zero j)⟩
  split_ifs with hret
  · -- every slot is filled, and nothing changes
    obtain ⟨rfl, hfull⟩ := hret
    have hno : ∀ o ∈ m.outMapping, o ∈ L.ids := by simpa using hrep
    refine ⟨rest, ⟨hstart.perm, hstart.length_le, fun j hj => Or.inr ?_⟩, hkeep, hlen'.ge, ?_, ?_⟩
    · have hj' : j < m.outMapping.length := by omega
      exact ⟨_, hkeep j _ (getElem?_eq_getElem hj') (hno _ (getElem_mem hj')),
        hbot _ (hno _ (getElem_mem hj'))⟩
    · dsimp only
      rw [← hrep, hlen']
      simp
    · exact fun hall _ => hsame hall
  · refine ⟨_, hstart.foldl L.bot_notMem (Nat.le_refl _) d, ?_, ?_, ?_, ?_⟩
    · exact fun i o hi ho => foldl_refill_getElem? d _ (hkeep i o hi ho) (hbot o ho)
    · exact hlen'.ge.trans (length_le_foldl_refill d (outs, rest) _)
    · dsimp only
      rw [Bool.or_eq_true, decide_eq_true_iff, hrep, hlen']
    · -- no connection is left over, so the second loop does nothing
      intro hall hsub
      have hnil : rest = [] := by
        refine eq_nil_iff_forall_not_mem.mpr fun o ho => ?_
        have hnodup : (live outs ++ rest).Nodup := hstart.perm.nodup_iff.mpr L.nodup
        have hoL : o ∈ L.ids := hstart.perm.subset (mem_append_right _ ho)
        have hlive : o ∈ live outs := mem_live.mpr ⟨by rw [hsame hall]; exact hsub o hoL, hbot o hoL⟩
        exact (nodup_append.mp hnodup).2.2 o hlive o ho rfl
      rw [foldl_refill_nil d _ hnil]
      exact hsame hall

/-! ### The invariants -/

/-- The stems are those of a list of connections: as many of them as there are slots. -/
structure Holds (L : Connections U) (s : ℕ) (m : ConnectionMap U) : Prop where
  nodup : (live m.outMapping).Nodup
  subset : ∀ o ∈ live m.outMapping, o ∈ L.ids
  length_live : (live m.outMapping).length = min s L.ids.length

/-- The tables fit together: the sources are sorted, their slots exist, and each counter holds the
number of sources of its slot. -/
structure Ok (s : ℕ) (m : ConnectionMap U) : Prop where
  length_usage : m.usageCount.length = s
  length_out : m.outMapping.length ≤ s
  sorted : Sorted Prod.fst m.inMapping
  slot_lt : ∀ e ∈ m.inMapping, e.2 < m.outMapping.length
  usage : ∀ i, m.usageCount.getD i 0 = m.inMapping.countP fun e => e.2 = i

/-- A list that was filled as far as possible holds the least of the two numbers. -/
theorem Filling.holds {rest : List U} (h : Filling L.ids s s (outs, rest)) :
    (live outs).Nodup ∧ (∀ o ∈ live outs, o ∈ L.ids) ∧ (live outs).length = min s L.ids.length := by
  have hnodup : (live outs ++ rest).Nodup := h.perm.nodup_iff.mpr L.nodup
  have hlen := h.perm.length_eq
  have hle : (live outs).length ≤ outs.length := length_filter_le ..
  have hs := h.length_le
  rw [length_append] at hlen
  refine ⟨(nodup_append.mp hnodup).1,
    fun o ho => h.perm.subset (mem_append_left _ ho), ?_⟩
  dsimp only at hlen hs
  rcases rest with - | ⟨c, rest⟩
  · rw [length_nil] at hlen
    omega
  · -- a connection is left over, so no slot is empty
    have hfull : ∀ j < s, ∃ o, outs[j]? = some o ∧ o ≠ ⊥ :=
      fun j hj => (h.front j hj).resolve_left (cons_ne_nil _ _)
    have hbot : ⊥ ∉ outs := by
      intro hb
      obtain ⟨j, hj⟩ := getElem?_of_mem hb
      have hjs := (List.getElem?_eq_some_iff.mp hj).1
      obtain ⟨o, ho, hne⟩ := hfull j (hjs.trans_le hs)
      exact hne (Option.some.inj (ho.symm.trans hj))
    have hlive : (live outs).length = outs.length := congrArg List.length (live_eq_self hbot)
    have hge : s ≤ outs.length := by
      refine Nat.le_of_not_lt fun hlt => ?_
      obtain ⟨o, ho, -⟩ := hfull outs.length hlt
      simp at ho
    rw [length_cons] at hlen
    omega

/-- What `update` does to a map whose tables fit together. -/
theorem Ok.updated (h : Ok s m) (hold : Holds L s m) (d : Dice U) (L' : Connections U) :
    ∃ rest, Updated m.outMapping L'.ids s ((m.update d L').1, (m.update d L').2.outMapping) rest := by
  have hup := exists_updated (h.length_usage.symm ▸ h.length_out) hold.nodup d L'
  rwa [h.length_usage] at hup

theorem Holds.update (h : Holds L s m) (hok : Ok s m) (d : Dice U) (L' : Connections U) :
    Holds L' s (m.update d L').2 := by
  obtain ⟨rest, hup⟩ := hok.updated h d L'
  obtain ⟨hnd, hsub, hlen⟩ := hup.filling.holds
  exact ⟨hnd, hsub, hlen⟩

theorem update_tables (d : Dice U) (L : Connections U) (m : ConnectionMap U) :
    (m.update d L).2.inMapping = m.inMapping ∧ (m.update d L).2.usageCount = m.usageCount := by
  unfold ConnectionMap.update
  dsimp only
  split_ifs
  exacts [⟨rfl, rfl⟩, ⟨rfl, rfl⟩]

theorem Ok.update (h : Ok s m) (hold : Holds L s m) (d : Dice U) (L' : Connections U) :
    Ok s (m.update d L').2 := by
  obtain ⟨rest, hup⟩ := h.updated hold d L'
  obtain ⟨hin, husage⟩ := update_tables d L' m
  refine ⟨by rw [husage, h.length_usage], hup.filling.length_le, hin ▸ h.sorted, ?_, ?_⟩
  · intro e he
    rw [hin] at he
    exact (h.slot_lt e he).trans_le hup.length_le
  · rw [hin, husage]
    exact h.usage

/-! ### What `get_stem` does -/

theorem getD_modify (l : List ℕ) (f : ℕ → ℕ) {k : ℕ} (hk : k < l.length) (i : ℕ) :
    (l.modify k f).getD i 0 = if k = i then f (l.getD i 0) else l.getD i 0 := by
  rw [getD_eq_getElem?_getD, getElem?_modify, getD_eq_getElem?_getD]
  by_cases h : k = i
  · subst h
    simp [getElem?_eq_getElem hk]
  · simp [h]

/-- What a call of `get_stem` does: it finds the source at a live slot, or it takes the source out
of the table, if it was there, and maps it to a least used live slot, if there is one. Here `usage`
counts the other sources. -/
theorem getStem_cases (h : Ok s m) (rand : ℕ) (source : U) :
    (∃ slot, (source, slot) ∈ m.inMapping ∧ m.outMapping.getD slot ⊥ ≠ ⊥ ∧
        m.getStem rand source = (m.outMapping.getD slot ⊥, m)) ∨
      ∃ front old back usage, (∀ e ∈ front, e.1 < source) ∧ (∀ e ∈ back, source < e.1) ∧
        m.inMapping = front ++ old ++ back ∧ (∀ e ∈ old, m.outMapping.getD e.2 ⊥ = ⊥) ∧
        usage.length = s ∧ (∀ i, usage.getD i 0 = (front ++ back).countP fun e => e.2 = i) ∧
        ((∀ o ∈ m.outMapping, o = ⊥) ∧ m.getStem rand source =
            (⊥, { m with inMapping := front ++ back, usageCount := usage }) ∨
          ∃ index, m.outMapping.getD index ⊥ ≠ ⊥ ∧
            (∀ j, m.outMapping.getD j ⊥ ≠ ⊥ → usage.getD index 0 ≤ usage.getD j 0) ∧
            m.getStem rand source = (m.outMapping.getD index ⊥,
              { m with
                inMapping := front ++ (source, index) :: back
                usageCount := usage.modify index (· + 1) })) := by
  obtain ⟨front, back, hfront, hback, hpos, hsplit⟩ := h.sorted.lowerBound_cases source
  have hle : m.outMapping.length ≤ s := h.length_out
  unfold ConnectionMap.getStem
  dsimp only
  rw [hpos]
  rcases hsplit with hin | ⟨⟨source', slot⟩, hsource, hin⟩
  · -- a new source
    have hnone : m.inMapping[front.length]?.filter (fun e => e.1 = source) = none := by
      rw [hin, getElem?_append_right (Nat.le_refl _), Nat.sub_self]
      cases back with
      | nil => rfl
      | cons e back => simp [(hback e (mem_cons_self ..)).ne']
    rw [hnone]
    refine Or.inr ⟨front, [], back, m.usageCount, hfront, hback, by rw [hin]; simp, by simp,
      h.length_usage, by rw [← hin]; exact h.usage, ?_⟩
    have hins : ∀ e, m.inMapping.insertIdx front.length e = front ++ e :: back := by
      intro e
      rw [hin, insertIdx_append_length]
    rcases selectStem_cases (hle.trans_eq h.length_usage.symm) rand with
      ⟨hsel, hall⟩ | ⟨index, hsel, hlive, hmin⟩
    · rw [hsel, ← hin]
      exact Or.inl ⟨hall, rfl⟩
    · rw [hsel]
      exact Or.inr ⟨index, hlive, hmin, by dsimp only; rw [hins]⟩
  · obtain rfl : source' = source := hsource
    have hget : m.inMapping[front.length]? = some (source', slot) := by
      rw [hin, getElem?_append_right (Nat.le_refl _), Nat.sub_self]
      rfl
    have hmem := mem_of_getElem? hget
    rw [hget]
    simp only [Option.filter_some, decide_true, if_true]
    by_cases hdead : m.outMapping.getD slot ⊥ = ⊥
    · -- its connection went away
      have hslot : slot < m.usageCount.length := by
        have := h.slot_lt _ hmem
        rw [h.length_usage]
        omega
      have hlen : (m.usageCount.modify slot (· - 1)).length = s := by
        rw [length_modify, h.length_usage]
      refine Or.inr ⟨front, [(source', slot)], back, m.usageCount.modify slot (· - 1), hfront, hback,
        by rw [hin]; simp, by simpa using hdead, hlen, fun i => ?_, ?_⟩
      · rw [getD_modify _ _ hslot, h.usage, hin, countP_append, countP_append,
          countP_cons]
        by_cases hi : slot = i
        · simp [hi]
        · simp [hi]
      · rw [if_pos hdead]
        have herase : m.inMapping.eraseIdx front.length = front ++ back := by
          rw [hin, eraseIdx_append_of_length_le (Nat.le_refl _), Nat.sub_self]
          rfl
        have hset : ∀ e, m.inMapping.set front.length e = front ++ e :: back := by
          intro e
          rw [hin, set_append_right _ _ (Nat.le_refl _), Nat.sub_self]
          rfl
        rcases selectStem_cases (hle.trans_eq hlen.symm) rand with
          ⟨hsel, hall⟩ | ⟨index, hsel, hlive, hmin⟩
        · rw [hsel, herase]
          exact Or.inl ⟨hall, rfl⟩
        · rw [hsel]
          exact Or.inr ⟨index, hlive, hmin, by dsimp only; rw [hset]⟩
    · rw [if_neg hdead]
      exact Or.inl ⟨slot, hmem, hdead, rfl⟩

theorem getStem_outMapping (h : Ok s m) (rand : ℕ) (source : U) :
    (m.getStem rand source).2.outMapping = m.outMapping := by
  rcases getStem_cases h rand source with ⟨slot, -, -, hres⟩ |
    ⟨front, old, back, usage, -, -, -, -, -, -, ⟨-, hres⟩ | ⟨index, -, -, hres⟩⟩ <;> rw [hres]

theorem Ok.getStem (h : Ok s m) (rand : ℕ) (source : U) : Ok s (m.getStem rand source).2 := by
  rcases getStem_cases h rand source with ⟨slot, -, -, hres⟩ |
    ⟨front, old, back, usage, hfront, hback, hin, -, hlen, hcount, hcase⟩
  · rw [hres]
    exact h
  · have hsub : (front ++ back).Sublist m.inMapping := by
      rw [hin, append_assoc]
      exact (sublist_append_right old back).append_left front
    have hsort : Sorted Prod.fst (front ++ back) := h.sorted.sublist hsub
    have hslot : ∀ e ∈ front ++ back, e.2 < m.outMapping.length :=
      fun e he => h.slot_lt e (hsub.subset he)
    rcases hcase with ⟨-, hres⟩ | ⟨index, hlive, -, hres⟩
    · rw [hres]
      exact ⟨hlen, h.length_out, hsort, hslot, hcount⟩
    · have hindex := lt_length_of_getD_ne hlive
      rw [hres]
      refine ⟨by rw [length_modify, hlen], h.length_out, hsort.insert hfront hback, ?_, ?_⟩
      · intro e he
        rcases mem_append.mp he with he | he
        · exact hslot e (mem_append_left _ he)
        · rcases mem_cons.mp he with rfl | he
          exacts [hindex, hslot e (mem_append_right _ he)]
      · intro i
        have hlt : index < usage.length := by
          have := h.length_out
          omega
        rw [getD_modify _ _ hlt, hcount, countP_append, countP_append, countP_cons]
        by_cases hi : index = i
        · simp [hi, Nat.add_assoc]
        · simp [hi]

/-- `get_stem` gives a live stem, and nil only if there is none. -/
theorem getStem_live (h : Ok s m) (rand : ℕ) (source : U) :
    (m.getStem rand source).1 ∈ live m.outMapping ∨
      (m.getStem rand source).1 = ⊥ ∧ live m.outMapping = [] := by
  have hmem : ∀ {i}, m.outMapping.getD i ⊥ ≠ ⊥ → m.outMapping.getD i ⊥ ∈ live m.outMapping :=
    fun hi => mem_live.mpr ⟨mem_of_getElem? (getElem?_of_getD_ne hi), hi⟩
  rcases getStem_cases h rand source with ⟨slot, -, hlive, hres⟩ |
    ⟨front, old, back, usage, -, -, -, -, -, -, ⟨hall, hres⟩ | ⟨index, hlive, -, hres⟩⟩
  · rw [hres]
    exact Or.inl (hmem hlive)
  · rw [hres]
    refine Or.inr ⟨rfl, eq_nil_iff_forall_not_mem.mpr fun o ho => ?_⟩
    exact (mem_live.mp ho).2 (hall o (mem_live.mp ho).1)
  · rw [hres]
    exact Or.inl (hmem hlive)

/-! ### A source keeps its stem -/

/-- The source is mapped to a slot that holds this connection. -/
def Mapped (source c : U) (m : ConnectionMap U) : Prop :=
  ∃ slot, (source, slot) ∈ m.inMapping ∧ m.outMapping[slot]? = some c

theorem mapped_getStem (h : Ok s m) (rand : ℕ) (source : U) (hne : (m.getStem rand source).1 ≠ ⊥) :
    Mapped source (m.getStem rand source).1 (m.getStem rand source).2 := by
  rcases getStem_cases h rand source with ⟨slot, hmem, hlive, hres⟩ |
    ⟨front, old, back, usage, -, -, -, -, -, -, ⟨-, hres⟩ | ⟨index, hlive, -, hres⟩⟩
  · rw [hres]
    exact ⟨slot, hmem, getElem?_of_getD_ne hlive⟩
  · exact absurd (by rw [hres]) hne
  · rw [hres]
    exact ⟨index, by simp, getElem?_of_getD_ne hlive⟩

/-- Looking up another source, or the same one, does not move a source off its live stem. -/
theorem Mapped.getStem {source c : U} (h : Mapped source c m) (hc : c ≠ ⊥) (hok : Ok s m) (rand : ℕ)
    (source' : U) : Mapped source c (m.getStem rand source').2 := by
  obtain ⟨slot, hmem, hslot⟩ := h
  rcases getStem_cases hok rand source' with ⟨_, -, -, hres⟩ |
    ⟨front, old, back, usage, -, -, hin, hdead, -, -, hcase⟩
  · rw [hres]
    exact ⟨slot, hmem, hslot⟩
  · have hkeep : (source, slot) ∈ front ++ back := by
      rw [hin] at hmem
      rcases mem_append.mp hmem with hmem | hmem
      · rcases mem_append.mp hmem with hmem | hmem
        · exact mem_append_left _ hmem
        · have hnil := hdead _ hmem
          rw [getD_eq_getElem?_getD, hslot] at hnil
          exact absurd hnil hc
      · exact mem_append_right _ hmem
    rcases hcase with ⟨-, hres⟩ | ⟨index, -, -, hres⟩
    · rw [hres]
      exact ⟨slot, hkeep, hslot⟩
    · rw [hres]
      refine ⟨slot, ?_, hslot⟩
      exact (List.Sublist.append_left (sublist_cons_self ..) front).subset hkeep

/-- A mapped source is answered with its connection. -/
theorem Mapped.getStem_eq {source c : U} (h : Mapped source c m) (hc : c ≠ ⊥) (hok : Ok s m)
    (rand : ℕ) : (m.getStem rand source).1 = c := by
  obtain ⟨slot, hmem, hslot⟩ := h
  have hgetD : m.outMapping.getD slot ⊥ = c := by rw [getD_eq_getElem?_getD, hslot]; rfl
  rcases getStem_cases hok rand source with ⟨slot', hmem', -, hres⟩ |
    ⟨front, old, back, usage, hfront, hback, hin, hdead, -⟩
  · -- the table has one entry for each source
    have heq : (source, slot') = (source, slot) :=
      hok.sorted.eq_of_mem hmem' hmem rfl
    rw [hres, (Prod.mk.injEq ..).mp heq |>.2, hgetD]
  · rw [hin] at hmem
    rcases mem_append.mp hmem with hmem | hmem
    · rcases mem_append.mp hmem with hmem | hmem
      · exact absurd (hfront _ hmem) (lt_irrefl _)
      · exact absurd (hgetD.symm.trans (hdead _ hmem)) hc
    · exact absurd (hback _ hmem) (lt_irrefl _)

/-! ### Sources are spread evenly -/

/-- Two slots never differ by more than one source. -/
def Even (m : ConnectionMap U) : Prop :=
  ⊥ ∉ m.outMapping ∧ ∀ i j, i < m.outMapping.length → j < m.outMapping.length →
    m.inMapping.countP (fun e => e.2 = i) ≤ m.inMapping.countP (fun e => e.2 = j) + 1

theorem Even.getStem (h : Even m) (hok : Ok s m) (rand : ℕ)
    (source : U) : Even (m.getStem rand source).2 := by
  obtain ⟨hbot, heven⟩ := h
  have hlive : ∀ j, j < m.outMapping.length → m.outMapping.getD j ⊥ ≠ ⊥ := by
    intro j hj hnil
    rw [getD_eq_getElem?_getD, getElem?_eq_getElem hj, Option.getD_some] at hnil
    exact hbot (hnil ▸ getElem_mem hj)
  rcases getStem_cases hok rand source with ⟨_, -, -, hres⟩ |
    ⟨front, old, back, usage, -, -, hin, hdead, -, hcount, hcase⟩
  · rw [hres]
    exact ⟨hbot, heven⟩
  · -- no slot is empty, so the source is a new one
    obtain rfl : old = [] := by
      refine eq_nil_iff_forall_not_mem.mpr fun e he => ?_
      exact hlive e.2 (hok.slot_lt e (by rw [hin]; simp [he])) (hdead e he)
    rw [append_nil] at hin
    rcases hcase with ⟨-, hres⟩ | ⟨index, hindex, hmin, hres⟩
    · rw [hres, ← hin]
      exact ⟨hbot, heven⟩
    · rw [hres]
      refine ⟨hbot, fun i j hi hj => ?_⟩
      have hij := heven i j hi hj
      have hleast := hmin j (hlive j hj)
      rw [hcount, hcount, ← hin] at hleast
      have hone : ∀ k, (front ++ (source, index) :: back).countP (fun e => e.2 = k) =
          m.inMapping.countP (fun e => e.2 = k) + if index = k then 1 else 0 := by
        intro k
        rw [hin, countP_append, countP_append, countP_cons, Nat.add_assoc]
        simp
      dsimp only
      rw [hone, hone]
      by_cases hi' : index = i
      · subst hi'
        split_ifs <;> omega
      · rw [if_neg hi']
        omega

/-! ### Runs -/

theorem make_eq {d : Dice U} (h : make d L s = some m) :
    m.inMapping = [] ∧ m.usageCount = replicate s 0 ∧ ⊥ ∉ m.outMapping ∧
      m.outMapping.Nodup ∧ (∀ o ∈ m.outMapping, o ∈ L.ids) ∧
      m.outMapping.length = min s L.ids.length := by
  unfold make at h
  split_ifs at h with hs
  obtain rfl := (Option.some.inj h).symm
  dsimp only
  -- the chosen connections are a front part of a permutation of the list
  suffices hperm : ∃ l : List U, l.Perm L.ids ∧
      (if s < L.ids.length then
        ((List.range s).foldl (fun v i => swap v i (i + d.randIdx i % (v.length - i))) L.ids).take s
      else d.shuffle L.ids) = l.take s by
    obtain ⟨l, hl, heq⟩ := hperm
    rw [heq]
    have hsub : ∀ o ∈ l.take s, o ∈ L.ids := fun o ho => hl.subset (mem_of_mem_take ho)
    exact ⟨rfl, rfl, fun hb => L.bot_notMem (hsub _ hb),
      (hl.nodup_iff.mpr L.nodup).sublist (take_sublist s l), hsub,
      by rw [length_take, hl.length_eq]⟩
  by_cases hlt : s < L.ids.length
  · refine ⟨_, ?_, if_pos hlt⟩
    generalize List.range s = is
    generalize L.ids = l
    induction is generalizing l with
    | nil => exact List.Perm.refl l
    | cons i is ih => exact (ih _).trans (swap_perm ..)
  · refine ⟨d.shuffle L.ids, d.shuffle_perm _, ?_⟩
    rw [if_neg hlt, take_of_length_le]
    rw [(d.shuffle_perm _).length_eq]
    omega

theorem ok_make {d : Dice U} (h : make d L s = some m) : Ok s m ∧ Holds L s m ∧ Even m := by
  obtain ⟨hin, husage, hbot, hnd, hsub, hlen⟩ := make_eq h
  have hlive := live_eq_self hbot
  refine ⟨⟨by simp [husage], by omega, by simp [hin, Sorted], by simp [hin], fun i => ?_⟩,
    ⟨by rwa [hlive], by rwa [hlive], by rwa [hlive]⟩, hbot, fun i j _ _ => by simp [hin]⟩
  rw [hin, husage, getD_eq_getElem?_getD, getElem?_replicate]
  split_ifs <;> rfl

/-- The invariants over a run. -/
theorem Ok.run (hok : Ok s m) (hold : Holds L s m) (calls : List (Call U)) :
    Ok s (m.run calls) ∧ Holds (lastList L calls) s (m.run calls) := by
  induction calls generalizing m L with
  | nil => exact ⟨hok, hold⟩
  | cons call calls ih =>
    cases call with
    | update d L' => exact ih (hok.update hold d L') (hold.update hok d L')
    | getStem rand source =>
      have hout := getStem_outMapping hok rand source
      refine ih (hok.getStem rand source) ⟨?_, ?_, ?_⟩ <;> dsimp only [step] <;> rw [hout]
      exacts [hold.nodup, hold.subset, hold.length_live]

/-- A call that does not drop the connection. -/
def Call.Keeps (c : U) : Call U → Prop
  | .update _ L => c ∈ L.ids
  | .getStem _ _ => True

theorem Mapped.run {source c : U} (h : Mapped source c m) (hc : c ≠ ⊥) (hok : Ok s m) (hold : Holds L s m)
    {calls : List (Call U)} (hcalls : ∀ call ∈ calls, call.Keeps c) :
    Mapped source c (m.run calls) := by
  induction calls generalizing m L with
  | nil => exact h
  | cons call calls ih =>
    have hrest : ∀ call ∈ calls, call.Keeps c :=
      fun call hcall => hcalls call (mem_cons_of_mem _ hcall)
    have hkeeps := hcalls call (mem_cons_self ..)
    obtain ⟨hok', hold'⟩ := hok.run hold [call]
    refine ih ?_ hok' hold' hrest
    cases call with
    | update d L' =>
      obtain ⟨slot, hmem, hslot⟩ := h
      obtain ⟨rest, hup⟩ := hok.updated hold d L'
      exact ⟨slot, (update_tables d L' m).1.symm ▸ hmem, hup.keeps slot c hslot hkeeps⟩
    | getStem rand source' => exact h.getStem hc hok rand source'

theorem Even.run (h : Even m) (hok : Ok s m) {calls : List (Call U)}
    (hcalls : ∀ call ∈ calls, ∃ rand source, call = .getStem rand source) : Even (m.run calls) := by
  induction calls generalizing m with
  | nil => exact h
  | cons call calls ih =>
    obtain ⟨rand, source, rfl⟩ := hcalls call (mem_cons_self ..)
    exact ih (h.getStem hok rand source) (hok.getStem rand source)
      fun call hcall => hcalls call (mem_cons_of_mem _ hcall)

/-- **The stem map.** After any calls on a map of `s` slots the live stems are distinct connections
of the last list, as many as fit; a further `update` leaves those that are still current in their
slot. A lookup gives a live stem, and nil only if there is none, and it gives the same one again as
long as no later list drops it. The counters hold the numbers of sources, and until the first
`update` these differ by at most one. -/
theorem run_spec {d : Dice U} {L : Connections U} {s : ℕ} {m₀ : ConnectionMap U}
    (hmake : make d L s = some m₀) (calls : List (Call U)) :
    let m := m₀.run calls
    (live m.outMapping).Nodup ∧ (∀ o ∈ live m.outMapping, o ∈ (lastList L calls).ids) ∧
      (live m.outMapping).length = min s (lastList L calls).ids.length ∧
    (∀ (d' : Dice U) (L' : Connections U) (i : ℕ) (o : U), m.outMapping[i]? = some o →
      o ∈ L'.ids → (m.update d' L').2.outMapping[i]? = some o) ∧
    (∀ rand source, ((m.getStem rand source).1 = ⊥ ↔ live m.outMapping = []) ∧
      ((m.getStem rand source).1 ≠ ⊥ → (m.getStem rand source).1 ∈ live m.outMapping)) ∧
    (∀ rand source later rand', (m.getStem rand source).1 ≠ ⊥ →
      (∀ call ∈ later, call.Keeps (m.getStem rand source).1) →
      (((m.getStem rand source).2.run later).getStem rand' source).1 = (m.getStem rand source).1) ∧
    (m.usageCount.length = s ∧ ∀ i, m.usageCount.getD i 0 = m.inMapping.countP fun e => e.2 = i) ∧
    ((∀ call ∈ calls, ∃ rand source, call = .getStem rand source) →
      ∀ i j, i < m.outMapping.length → j < m.outMapping.length →
        m.inMapping.countP (fun e => e.2 = i) ≤ m.inMapping.countP (fun e => e.2 = j) + 1) := by
  obtain ⟨hok₀, hold₀, heven₀⟩ := ok_make hmake
  obtain ⟨hok, hold⟩ := hok₀.run hold₀ calls
  refine ⟨hold.nodup, hold.subset, hold.length_live, ?_, ?_, ?_, ⟨hok.length_usage, hok.usage⟩, ?_⟩
  · intro d' L' i o hi ho
    obtain ⟨rest, hup⟩ := hok.updated hold d' L'
    exact hup.keeps i o hi ho
  · intro rand source
    rcases getStem_live hok rand source with hmem | ⟨hnil, hempty⟩
    · refine ⟨iff_of_false (mem_live.mp hmem).2 ?_, fun _ => hmem⟩
      intro hempty
      rw [hempty] at hmem
      exact not_mem_nil hmem
    · exact ⟨iff_of_true hnil hempty, fun hne => absurd hnil hne⟩
  · intro rand source later rand' hne hlater
    have hmapped := mapped_getStem hok rand source hne
    obtain ⟨hok', hold'⟩ := hok.run hold [.getStem rand source]
    exact (hmapped.run hne hok' hold' hlater).getStem_eq hne (hok'.run hold' later).1 rand'
  · intro hcalls
    exact (heven₀.run hok₀ hcalls).2

/-- Two stems, two sources, and a lookup of each: the hypotheses can be met. -/
theorem run_spec_pair :
    let d : Dice ℕ := ⟨fun _ => 0, id, fun _ => List.Perm.refl _⟩
    let L : Connections ℕ := ⟨[7, 9], by decide, by decide⟩
    ∃ m₀, make d L 2 = some m₀ ∧
      (live (m₀.run [.getStem 0 3, .getStem 0 4]).outMapping).length = 2 := by
  intro d L
  exact ⟨_, rfl, (run_spec (d := d) (L := L) (s := 2) rfl [.getStem 0 3, .getStem 0 4]).2.2.1⟩

/-! ### Reported changes -/

/-- An empty slot stays empty and nothing else changes exactly if the live stems are the current
connections; `update` still reports a change. -/
theorem update_iff {d : Dice U} {L : Connections U} {s : ℕ} {m₀ : ConnectionMap U}
    (hmake : make d L s = some m₀) (calls : List (Call U)) (d' : Dice U) (L' : Connections U) :
    let m := m₀.run calls
    (((m.update d' L').1 = true ↔ (m.update d' L').2.outMapping ≠ m.outMapping) ↔
      ¬(⊥ ∈ m.outMapping ∧ (∀ o ∈ m.outMapping, o ≠ ⊥ → o ∈ L'.ids) ∧
        ∀ o ∈ L'.ids, o ∈ m.outMapping)) := by
  intro m
  obtain ⟨hok₀, hold₀, -⟩ := ok_make hmake
  obtain ⟨hok, hold⟩ := hok₀.run hold₀ calls
  obtain ⟨rest, hup⟩ := hok.updated hold d' L'
  rw [hup.reports]
  dsimp only
  generalize (m.update d' L').2.outMapping = outs at hup ⊢
  constructor
  · rintro hiff ⟨hbot, hall, hsub⟩
    exact hiff.mp (Or.inl ⟨⊥, hbot, L'.bot_notMem⟩) (hup.same hall hsub)
  · intro hcond
    constructor
    · rintro (⟨o, ho, hn⟩ | hlt) rfl
      · -- the slot was empty before the call, so a connection that is no stem would have filled it
        have hall : ∀ o ∈ m.outMapping, o ≠ ⊥ → o ∈ L'.ids := fun o ho hb =>
          hup.filling.perm.subset (mem_append_left _ (mem_live.mpr ⟨ho, hb⟩))
        obtain rfl : o = ⊥ := by
          by_contra hb
          exact hn (hall o ho hb)
        have hleft : ∃ c ∈ L'.ids, c ∉ m.outMapping := by
          by_contra hno
          push Not at hno
          exact hcond ⟨ho, hall, hno⟩
        obtain ⟨c, hc, hcm⟩ := hleft
        have hrest : rest ≠ [] := by
          rintro rfl
          have := hup.filling.perm.symm.subset hc
          exact hcm (mem_live.mp (by simpa using this)).1
        obtain ⟨j, hj⟩ := getElem?_of_mem ho
        have hjs := (List.getElem?_eq_some_iff.mp hj).1.trans_le hup.filling.length_le
        obtain ⟨o', ho', hne⟩ := (hup.filling.front j hjs).resolve_left hrest
        exact hne (Option.some.inj (ho'.symm.trans hj))
      · exact lt_irrefl _ hlt
    · intro hne
      by_contra hno
      obtain ⟨hno, hlt⟩ := not_or.mp hno
      push Not at hno
      refine hne (ext_getElem? fun i => ?_)
      rcases lt_or_ge i m.outMapping.length with hi | hi
      · rw [getElem?_eq_getElem hi]
        exact hup.keeps i _ (getElem?_eq_getElem hi) (hno _ (getElem_mem hi))
      · rw [getElem?_eq_none hi, getElem?_eq_none ((not_lt.mp hlt).trans hi)]

/-- A map with one slot whose connection has gone: asked again, `update` reports a change. -/
theorem update_idle :
    let d : Dice ℕ := ⟨fun _ => 0, id, fun _ => List.Perm.refl _⟩
    let gone : Connections ℕ := ⟨[], by decide, by decide⟩
    ∃ m₀, make d ⟨[7], by decide, by decide⟩ 1 = some m₀ ∧
      ((m₀.run [.update d gone]).update d gone).1 = true ∧
      ((m₀.run [.update d gone]).update d gone).2.outMapping =
        (m₀.run [.update d gone]).outMapping :=
  ⟨_, rfl, rfl, rfl⟩

/-- A slot that is refilled is a change, and is reported. -/
theorem update_iff_refill :
    let d : Dice ℕ := ⟨fun _ => 0, id, fun _ => List.Perm.refl _⟩
    let L : Connections ℕ := ⟨[7], by decide, by decide⟩
    ∃ m₀, make d L 1 = some m₀ ∧
      ((m₀.run []).update d ⟨[9], by decide, by decide⟩).1 = true ∧
      ((m₀.run []).update d ⟨[9], by decide, by decide⟩).2.outMapping ≠ m₀.outMapping := by
  intro d L
  refine ⟨_, rfl, rfl, ?_⟩
  exact ((update_iff (d := d) (L := L) (s := 1) rfl [] d _).mpr (by decide)).mp rfl

end ConnectionMap

end Hidering.Dandelionpp
