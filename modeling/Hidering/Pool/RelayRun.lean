import Hidering.Pool.Relay

/-!
# Runs of the relay of the pool

Calls of `add_tx`, `set_relayed` and `get_relayable_transactions` at times that do not decrease.
What one call can make of an entry is said once (`EntryStep`); from it follows what a run keeps: the
times are in order (`Timed`), the next check is not after a deadline that lies ahead (`Awake`), and
the time of the last relay is what the history tells (`Stamped`).

A call that hands out a transaction in stem or forward state does not move its deadline, and the
next check may be two minutes later. So the first call after a deadline answers it, and the calls
after that one may not, until the transaction has been passed to `set_relayed`.

## Main definitions

* `Hidering.RelayState` — the pool with the clock and the history of the calls
* `Hidering.RelayState.Timed`, `Awake`, `Stamped`

## Main results

* `Hidering.RelayState.embargo_of_run` — which deadlines are not slept through
* `Hidering.RelayState.retried_iff` — which of the other transactions are tried again
-/

namespace Hidering

open Wire Machine Store

/-! ### Runs -/

/-- A call of a function of the pool. -/
inductive RelayCall where
  | addTx (chain : Blockchain) (t : TxPool.NewTx) (relay : RelayMethod) (version nic : UInt8)
      (delay : ℕ)
  | setRelayed (txs : List (Hash × ℕ)) (method : RelayMethod)
  | getRelayableTransactions

/-- The random delays are such that the time after them is a `time_t`. -/
def RelayCall.Fits (now : UInt64) : RelayCall → Prop
  | .addTx _ _ _ _ _ delay => now.toNat + delay < 2 ^ 63
  | .setRelayed txs _ => ∀ tx ∈ txs, now.toNat + tx.2 < 2 ^ 63
  | .getRelayableTransactions => True

/-- The pool at a time, with what has happened: for every transaction the time at which it was
passed to `set_relayed` last, and whether this has happened since `add_tx` stored it last; whether
it is waiting, that is, its deadline was set by `add_tx`, or by `set_relayed` in stem state, and
`get_relayable_transactions` has not been called at or after that deadline; and the time at which
`get_relayable_transactions` has returned `true` last. -/
structure RelayState extends RelayPool where
  clock : UInt64
  passed : Hash → Option UInt64
  relayedSince : Hash → Bool
  waiting : Hash → Bool
  answered : Option UInt64

namespace RelayState

variable (c : Crypto) (p : NodeParams)

/-- The state after a call at the given time. -/
def step (s : RelayState) (i : UInt64 × RelayCall) : RelayState :=
  match i.2 with
  | .addTx chain t relay version nic delay =>
    let isStored := (s.pool.stored c p chain i.1 t relay version nic delay).isSome
    { s with
      toRelayPool := s.toRelayPool.addTx c p i.1 chain t relay version nic delay
      clock := i.1
      relayedSince := fun txid => !(isStored && decide (txid = t.txid)) && s.relayedSince txid
      waiting := fun txid => (isStored && decide (txid = t.txid)) || s.waiting txid }
  | .setRelayed txs method =>
    let after := s.toRelayPool.setRelayed p i.1 txs method
    { s with
      toRelayPool := after
      clock := i.1
      passed := fun txid => if txid ∈ txs.map Prod.fst then some i.1 else s.passed txid
      relayedSince := fun txid => decide (txid ∈ txs.map Prod.fst) || s.relayedSince txid
      waiting := fun txid =>
        if txid ∈ txs.map Prod.fst then
          (after.pool.getTxpoolTxMeta txid).any (·.relayMethod = .stem)
        else s.waiting txid }
  | .getRelayableTransactions =>
    let r := s.toRelayPool.getRelayableTransactions i.1
    { s with
      toRelayPool := r.2
      clock := i.1
      waiting := fun txid => s.waiting txid && decide (i.1 < s.lastRelayedTime txid)
      answered := if r.1.isSome then some i.1 else s.answered }

/-- Time does not go back. -/
def Allowed (s : RelayState) (i : UInt64 × RelayCall) : Prop :=
  s.clock ≤ i.1 ∧ i.1.toNat < 2 ^ 63 ∧ i.2.Fits i.1

/-- The times in the pool make sense: no transaction has come after the clock, and no deadline is
before the time at which its transaction came. -/
structure Timed (s : RelayState) : Prop where
  received : ∀ e ∈ s.pool.txes.entries, e.info.receiveTime ≤ s.clock
  deadline : ∀ e ∈ s.pool.txes.entries,
    e.info.relayMethod = .stem ∨ e.info.relayMethod = .forward →
      e.info.receiveTime ≤ s.lastRelayedTime e.txid

/-- The next check is not after any deadline that is waited for, and not later than two minutes
after the pool was looked at. -/
structure Awake (s : RelayState) : Prop where
  deadline : ∀ e ∈ s.pool.txes.entries, RelayPool.isPending e = true → s.waiting e.txid = true →
    s.nextCheck ≤ max (s.lastRelayedTime e.txid).toNat s.clock.toNat
  answered : s.nextCheck ≤ s.clock.toNat ∨
    ∃ u, s.answered = some u ∧ s.nextCheck ≤ (u + maxRelayableCheck).toNat

/-- The time of the last relay, of a transaction in local or fluff state. -/
def Stamped (s : RelayState) : Prop :=
  ∀ e ∈ s.pool.txes.entries, e.info.relayMethod = .local_ ∨ e.info.relayMethod = .fluff →
    if s.relayedSince e.txid then
      s.passed e.txid = some (s.lastRelayedTime e.txid) ∧
        e.info.receiveTime ≤ s.lastRelayedTime e.txid ∧ s.lastRelayedTime e.txid ≤ s.clock
    else s.lastRelayedTime e.txid = neverRelayed

/-- The pool has just been made. It may hold what an earlier run has left in the database. -/
structure Started (s : RelayState) : Prop where
  clock : s.clock.toNat < 2 ^ 63
  timed : s.Timed
  stamped : s.Stamped
  nextCheck : s.nextCheck = s.clock.toNat

variable {c p} {s : RelayState}

/-- What one call can make of an entry. -/
inductive EntryStep (s : RelayState) (i : UInt64 × RelayCall) (s' : RelayState) :
    TxpoolEntry → Prop where
  /-- The entry is left alone. -/
  | kept {a : TxpoolEntry} (old : a ∈ s.pool.txes.entries)
      (last : s'.lastRelayedTime a.txid = s.lastRelayedTime a.txid)
      (passed : s'.passed a.txid = s.passed a.txid)
      (since : s'.relayedSince a.txid = s.relayedSince a.txid)
      (check : RelayPool.isPending a = true → s'.waiting a.txid = true →
        s.waiting a.txid = true ∧
          (s'.nextCheck ≤ s.nextCheck ∨ s'.nextCheck ≤ (s.lastRelayedTime a.txid).toNat)) :
      EntryStep s i s' a
  /-- `add_tx` stores it. -/
  | stored {a : TxpoolEntry} (received : a.info.receiveTime = i.1)
      (since : s'.relayedSince a.txid = false)
      (above : ∀ b ∈ s.pool.txes.entries, b.txid = a.txid →
        b.info.relayMethod.value ≤ a.info.relayMethod.value)
      (last : a.info.relayMethod = .block ∨ s'.lastRelayedTime a.txid = neverRelayed ∨
        a.info.relayMethod = .forward ∧ i.1.toNat ≤ (s'.lastRelayedTime a.txid).toNat ∧
          s'.nextCheck ≤ (s'.lastRelayedTime a.txid).toNat) :
      EntryStep s i s' a
  /-- It is passed to `set_relayed`. -/
  | passed {b : TxpoolEntry} {method : RelayMethod} (old : b ∈ s.pool.txes.entries)
      (passed : s'.passed b.txid = some i.1) (since : s'.relayedSince b.txid = true)
      (waiting : s'.waiting b.txid = true → (b.raised method).info.relayMethod = .stem)
      (stem : (b.raised method).info.relayMethod = .stem →
        i.1.toNat ≤ (s'.lastRelayedTime b.txid).toNat ∧
          s'.nextCheck ≤ (s'.lastRelayedTime b.txid).toNat)
      (relayed : (b.raised method).info.relayMethod ≠ .stem → s'.lastRelayedTime b.txid = i.1) :
      EntryStep s i s' (b.raised method)

variable {now : UInt64} {chain : Blockchain} {t : TxPool.NewTx} {relay method : RelayMethod}
  {version nic : UInt8} {delay : ℕ} {txs : List (Hash × ℕ)} {a : TxpoolEntry}

theorem entryStep_addTx (hfits : now.toNat + delay < 2 ^ 63)
    (ha : a ∈ (s.step c p (now, .addTx chain t relay version nic delay)).pool.txes.entries) :
    EntryStep s (now, .addTx chain t relay version nic delay)
      (s.step c p (now, .addTx chain t relay version nic delay)) a := by
  rcases RelayPool.addTx_cases ha with ⟨method, last, hst, rfl, hlast⟩ | ⟨hold, hne, hlast⟩
  · obtain ⟨habove, htime⟩ := TxPool.storing_eq_some (TxPool.storing_of_stored hst)
    refine .stored rfl ?_ habove (htime.imp_right fun htime => ?_)
    · simp [step, hst]
    · change (s.step c p (now, .addTx chain t relay version nic delay)).lastRelayedTime t.txid =
        last at hlast
      by_cases hforward : method = .forward
      · subst hforward
        rw [if_pos rfl] at htime
        have hlt : last.toNat = now.toNat + delay := by rw [htime, toNat_add_ofNat hfits]
        have hcheck := RelayPool.addTx_nextCheck_le_of_forward (s := s.toRelayPool) hst
        rw [timeT_of_lt (by omega)] at hcheck
        refine .inr ⟨rfl, ?_, ?_⟩
        · dsimp only
          rw [hlast]
          omega
        · dsimp only
          rw [hlast]
          exact hcheck
      · rw [if_neg hforward] at htime
        exact .inl (hlast.trans htime)
  · have hother : ((s.pool.stored c p chain now t relay version nic delay).isSome &&
        decide (a.txid = t.txid)) = false := by
      rw [Bool.and_eq_false_imp]
      exact fun hsome => decide_eq_false (hne hsome)
    refine .kept hold hlast rfl ?_ fun _ hwait => ⟨?_, .inl RelayPool.addTx_nextCheck_le⟩
    · simp only [step, hother, Bool.not_false, Bool.true_and]
    · simpa only [step, hother, Bool.false_or] using hwait

variable {txid : Hash}

theorem getTxpoolTxMeta_eq_some {pool : TxPool} {m : TxpoolTxMeta} :
    pool.getTxpoolTxMeta txid = some m ↔ ∃ e ∈ pool.txes.entries, e.txid = txid ∧ e.info = m := by
  rw [TxPool.getTxpoolTxMeta, Option.map_eq_some_iff]
  simp only [Keyed.find?_eq_some, and_assoc]

theorem entryStep_setRelayed (hfits : ∀ tx ∈ txs, now.toNat + tx.2 < 2 ^ 63)
    (ha : a ∈ (s.step c p (now, .setRelayed txs method)).pool.txes.entries) :
    EntryStep s (now, .setRelayed txs method) (s.step c p (now, .setRelayed txs method)) a := by
  have hpassed := RelayPool.passed_foldl p now method txs s.toRelayPool
  obtain ⟨b, hb, hab⟩ := hpassed.entry a ha
  -- `m_next_check` is lowered to the least of the new deadlines
  have hcheck : (s.step c p (now, .setRelayed txs method)).nextCheck =
      min s.nextCheck (timeT (txs.foldl (RelayPool.setRelayed1 p now method)
        (s.toRelayPool, timeTMax)).2) := by
    rw [← hpassed.nextCheck, ← setIfLess_eq_min]
    rfl
  by_cases hmem : a.txid ∈ txs.map Prod.fst
  · obtain rfl := hab.raised hmem
    refine .passed hb (if_pos hmem) ?_ (fun hwait => ?_) (fun hstem => ?_)
      fun hne => hab.relayed hmem hne
    · simp only [step, Bool.or_eq_true, decide_eq_true_eq]
      exact .inl hmem
    · have hafter : ((s.step c p (now, .setRelayed txs method)).pool.getTxpoolTxMeta
          (b.raised method).txid).any (·.relayMethod = .stem) = true :=
        (if_pos hmem).symm.trans hwait
      rw [getTxpoolTxMeta_eq_some.mpr ⟨_, ha, rfl, rfl⟩] at hafter
      exact of_decide_eq_true hafter
    · obtain ⟨tx, htx, hlast, hle⟩ := hab.stem hmem hstem
      change (s.step c p (now, .setRelayed txs method)).lastRelayedTime b.txid = _ at hlast
      change _ ≤ ((s.step c p (now, .setRelayed txs method)).lastRelayedTime b.txid).toNat at hle
      rw [hlast, toNat_add_ofNat (hfits tx htx)] at hle ⊢
      refine ⟨Nat.le_add_right _ _, ?_⟩
      rw [hcheck]
      refine (min_le_right _ _).trans ((timeT_le _).trans ?_)
      exact_mod_cast hle
  · obtain ⟨rfl, hlast⟩ := hab.other hmem
    refine .kept hb hlast (if_neg hmem) ?_ fun _ hwait => ⟨?_, .inl ?_⟩
    · simp [step, hmem]
    · exact (if_neg hmem).symm.trans hwait
    · rw [hcheck]
      exact min_le_left _ _

/-- Calls of `add_tx` and `set_relayed` do not move the next check to a later time. -/
theorem nextCheck_step (i : UInt64 × RelayCall) :
    (s.step c p i).nextCheck ≤ s.nextCheck ∧ (s.step c p i).answered = s.answered ∨
      (s.step c p i).answered = some i.1 ∧ ∃ n : UInt64, (s.step c p i).nextCheck = timeT n ∧
        n.toNat ≤ (i.1 + maxRelayableCheck).toNat := by
  obtain ⟨now, call⟩ := i
  cases call with
  | addTx => exact .inl ⟨RelayPool.addTx_nextCheck_le, rfl⟩
  | setRelayed txs method =>
    refine .inl ⟨?_, rfl⟩
    change setIfLess _ _ ≤ _
    rw [setIfLess_eq_min, (RelayPool.passed_foldl p now method txs s.toRelayPool).nextCheck]
    exact min_le_left _ _
  | getRelayableTransactions =>
    by_cases hearly : timeTMax < now ∨ timeT now < s.nextCheck
    · left
      simp [step, RelayPool.getRelayableTransactions, hearly]
    · obtain ⟨n, hn, hle, -⟩ := RelayPool.getRelayableTransactions_of_not hearly
      refine .inr ⟨?_, n, congrArg RelayPool.nextCheck hn, hle⟩
      simp [step, RelayPool.getRelayableTransactions, hearly]

theorem entryStep_getRelayableTransactions
    (ha : a ∈ (s.step c p (now, .getRelayableTransactions)).pool.txes.entries) :
    EntryStep s (now, .getRelayableTransactions)
      (s.step c p (now, .getRelayableTransactions)) a := by
  -- only the next check is changed
  obtain ⟨n, hn, hcheck⟩ : ∃ n : ℤ,
      (s.toRelayPool.getRelayableTransactions now).2 = { s.toRelayPool with nextCheck := n } ∧
        (s.isHeld now a = true → a ∈ s.pool.txes.entries →
          n ≤ s.nextCheck ∨ n ≤ (s.lastRelayedTime a.txid).toNat) := by
    by_cases hearly : timeTMax < now ∨ timeT now < s.nextCheck
    · refine ⟨s.nextCheck, ?_, fun _ _ => .inl le_rfl⟩
      rw [RelayPool.getRelayableTransactions, if_pos hearly]
    · obtain ⟨n, hn, -, hheld⟩ := RelayPool.getRelayableTransactions_of_not hearly
      refine ⟨timeT n, hn, fun h hold => .inr ((timeT_le n).trans ?_)⟩
      exact_mod_cast hheld a hold h
  have hold : a ∈ s.pool.txes.entries := by
    change a ∈ (s.toRelayPool.getRelayableTransactions now).2.pool.txes.entries at ha
    rwa [hn] at ha
  refine .kept hold (congrArg (·.lastRelayedTime a.txid) hn) rfl rfl fun hpending hwait => ?_
  obtain ⟨hwait, hahead⟩ := Bool.and_eq_true_iff.mp hwait
  refine ⟨hwait, ?_⟩
  change (s.toRelayPool.getRelayableTransactions now).2.nextCheck ≤ _ ∨
    (s.toRelayPool.getRelayableTransactions now).2.nextCheck ≤ _
  rw [hn]
  exact hcheck (Bool.and_eq_true_iff.mpr ⟨hpending, hahead⟩) hold

variable {i : UInt64 × RelayCall}

/-- **What one call does**, to any entry. -/
theorem entryStep (hi : s.Allowed i)
    (ha : a ∈ (s.step c p i).pool.txes.entries) : EntryStep s i (s.step c p i) a := by
  obtain ⟨now, call⟩ := i
  obtain ⟨-, -, hfits⟩ := hi
  cases call with
  | addTx => exact entryStep_addTx hfits ha
  | setRelayed => exact entryStep_setRelayed hfits ha
  | getRelayableTransactions => exact entryStep_getRelayableTransactions ha

theorem step_clock (i : UInt64 × RelayCall) : (s.step c p i).clock = i.1 := by
  obtain ⟨now, call⟩ := i
  cases call <;> rfl

/-! ### What a run keeps -/

/-- **One call keeps the times in order.** -/
theorem Timed.step (h : s.Timed) (hi : s.Allowed i) : (s.step c p i).Timed := by
  have hrec : ∀ e ∈ s.pool.txes.entries, e.info.receiveTime ≤ i.1 :=
    fun e he => UInt64.le_trans (h.received e he) hi.1
  refine ⟨fun a ha => ?_, fun a ha hstate => ?_⟩
  · rw [step_clock]
    cases entryStep hi ha with
    | kept old => exact hrec a old
    | stored received => exact received ▸ UInt64.le_refl _
    | @passed b _ old => exact hrec b old
  · cases entryStep hi ha with
    | kept old last =>
      rw [last]
      exact h.deadline a old hstate
    | stored received _ _ last =>
      rw [received, UInt64.le_iff_toNat_le]
      rcases last with hblock | hnever | ⟨-, hle, -⟩
      · rcases hstate with hst | hst <;> rw [hst] at hblock <;> cases hblock
      · rw [hnever]
        exact Nat.le_pred_of_lt i.1.toNat_lt
      · exact hle
    | @passed b method old _ _ _ stem relayed =>
      refine UInt64.le_trans (hrec b old) (UInt64.le_iff_toNat_le.mpr ?_)
      by_cases hstem : (b.raised method).info.relayMethod = .stem
      · exact (stem hstem).1
      · exact (congrArg UInt64.toNat (relayed hstem)).ge

theorem nextCheck_step_lt (h : s.nextCheck < 2 ^ 63) (i : UInt64 × RelayCall) :
    (s.step c p i).nextCheck < 2 ^ 63 := by
  rcases nextCheck_step (c := c) (p := p) (s := s) i with ⟨hle, -⟩ | ⟨-, n, hn, -⟩
  · exact hle.trans_lt h
  · exact hn ▸ timeT_lt n

/-- **One call keeps the pool awake.** -/
theorem Awake.step (h : s.Awake) (hlt : s.nextCheck < 2 ^ 63) (hi : s.Allowed i) :
    (s.step c p i).Awake := by
  have hclock : s.clock.toNat ≤ i.1.toNat := UInt64.le_iff_toNat_le.mp hi.1
  refine ⟨fun a ha hpending hwait => ?_, ?_⟩
  · rw [step_clock]
    cases entryStep hi ha with
    | kept old last _ _ check =>
      obtain ⟨hwaited, hcheck⟩ := check hpending hwait
      have hbefore := h.deadline a old hpending hwaited
      rw [last]
      rcases hcheck with hle | hle <;> omega
    | stored _ _ _ last =>
      have hstate := RelayPool.state_of_isPending hpending
      rcases last with hblock | hnever | ⟨-, -, hle⟩
      · rcases hstate with hst | hst <;> rw [hst] at hblock <;> cases hblock
      · have hlt' := nextCheck_step_lt (c := c) (p := p) hlt i
        rw [hnever]
        have hmax : neverRelayed.toNat = 2 ^ 64 - 1 := by decide
        omega
      · exact hle.trans (by exact_mod_cast le_max_left _ _)
    | @passed b method old _ _ waiting stem _ =>
      exact (stem (waiting hwait)).2.trans (by exact_mod_cast le_max_left _ _)
  · rw [step_clock]
    rcases nextCheck_step (c := c) (p := p) (s := s) i with ⟨hle, heq⟩ | ⟨heq, n, hn, hle⟩
    · rw [heq]
      refine h.answered.imp (fun hbefore => ?_) fun ⟨u, hu, hbefore⟩ => ⟨u, hu, hle.trans hbefore⟩
      omega
    · refine .inr ⟨i.1, heq, ?_⟩
      rw [hn]
      exact (timeT_le n).trans (by exact_mod_cast hle)

/-- **One call keeps the record of the last relay.** -/
theorem Stamped.step (h : s.Stamped) (htimed : s.Timed) (hi : s.Allowed i) :
    (s.step c p i).Stamped := by
  intro a ha hstate
  rw [step_clock]
  cases entryStep hi ha with
  | kept old last passed since =>
    have hbefore := h a old hstate
    rw [last, passed, since]
    split_ifs at hbefore ⊢
    · exact ⟨hbefore.1, hbefore.2.1, UInt64.le_trans hbefore.2.2 hi.1⟩
    · exact hbefore
  | stored _ since _ last =>
    rw [since]
    rcases last with hblock | hnever | ⟨hforward, -⟩
    · rcases hstate with hst | hst <;> rw [hst] at hblock <;> cases hblock
    · exact hnever
    · rcases hstate with hst | hst <;> rw [hst] at hforward <;> cases hforward
  | @passed b method old passed since _ _ relayed =>
    have hne : (b.raised method).info.relayMethod ≠ .stem := by
      intro hstem
      rcases hstate with hst | hst <;> rw [hst] at hstem <;> cases hstem
    have hlast := relayed hne
    rw [show (b.raised method).txid = b.txid from rfl, since, if_pos rfl, passed, hlast]
    exact ⟨rfl, UInt64.le_trans (htimed.received b old) hi.1, UInt64.le_refl _⟩

variable (c p) in
/-- A run of calls at times that do not decrease. -/
def Run (s : RelayState) (calls : List (UInt64 × RelayCall)) : Prop :=
  Along (step c p) Allowed s calls

variable {calls : List (UInt64 × RelayCall)}

/-- What every run keeps. -/
structure Regular (s : RelayState) : Prop where
  clock : s.clock.toNat < 2 ^ 63
  timed : s.Timed
  stamped : s.Stamped
  nextCheck : s.nextCheck < 2 ^ 63

theorem Regular.step (h : s.Regular) (hi : s.Allowed i) : (s.step c p i).Regular :=
  ⟨step_clock (c := c) (p := p) (s := s) i ▸ hi.2.1, h.timed.step hi, h.stamped.step h.timed hi,
    nextCheck_step_lt h.nextCheck i⟩

theorem Started.regular (h : s.Started) : s.Regular :=
  ⟨h.clock, h.timed, h.stamped, by rw [h.nextCheck]; exact_mod_cast h.clock⟩

theorem Started.awake (h : s.Started) : s.Awake := by
  refine ⟨fun e _ _ _ => ?_, .inl h.nextCheck.le⟩
  rw [h.nextCheck]
  exact_mod_cast le_max_right _ _

theorem regular_of_run (hs : s.Started) (hrun : Run c p s calls) :
    (calls.foldl (step c p) s).Regular :=
  hrun.invariant (fun _ _ h hi => h.step hi) hs.regular

theorem not_early {now : UInt64} (hnow : now.toNat < 2 ^ 63) (hcheck : s.nextCheck ≤ now.toNat) :
    ¬ (timeTMax < now ∨ timeT now < s.nextCheck) := by
  rw [timeT_of_lt hnow, UInt64.lt_iff_toNat_lt]
  have hmax : timeTMax.toNat = 2 ^ 63 - 1 := by decide
  omega

/-- The call is not before the next check, if the deadline that has come is waited for or if the
last answer was two minutes ago. -/
theorem Awake.nextCheck_le (h : s.Awake) {now : UInt64} (hclock : s.clock ≤ now)
    (ha : a ∈ s.pool.txes.entries) (hpending : RelayPool.isPending a = true)
    (hdue : s.lastRelayedTime a.txid ≤ now)
    (hwait : s.waiting a.txid = true ∨
      ∀ u, s.answered = some u → (u + maxRelayableCheck).toNat ≤ now.toNat) :
    s.nextCheck ≤ now.toNat := by
  rw [UInt64.le_iff_toNat_le] at hclock hdue
  rcases hwait with hwait | hlong
  · have hcheck := h.deadline a ha hpending hwait
    omega
  · rcases h.answered with hle | ⟨u, hu, hle⟩
    · omega
    · have := hlong u hu
      omega

/-- A transaction in stem or forward state is handed out if the deadline has come and the call is
not before the next check. -/
theorem returns_of_due {now : UInt64} (hnow : now.toNat < 2 ^ 63) (hcheck : s.nextCheck ≤ now.toNat)
    (ha : a ∈ s.pool.txes.entries) (hpending : RelayPool.isPending a = true)
    (hdue : s.lastRelayedTime a.txid ≤ now)
    (hage : now - a.info.receiveTime ≤ RelayPool.halfLivetime a.info.relayMethod) :
    s.Returns now a.txid := by
  refine RelayPool.returns_iff.mpr ⟨not_early hnow hcheck, a, ha, ?_, rfl⟩
  have hstate := RelayPool.state_of_isPending hpending
  simp only [RelayPool.isPending, Bool.and_eq_true, decide_eq_true_eq] at hpending
  have hready : s.isReady now a = true := by
    rw [RelayPool.isReady]
    rcases hstate with hst | hst <;> rw [hst] <;>
      simpa [hpending.1.2, hpending.2, UInt64.le_iff_toNat_le] using hdue
  rw [RelayPool.isHandedOut, hready, Bool.true_and, decide_eq_true_eq]
  exact hage

/-- A transaction in stem or forward state is not handed out before its deadline. -/
theorem not_returns_of_lt {now : UInt64} (ha : a ∈ s.pool.txes.entries)
    (hstate : a.info.relayMethod = .stem ∨ a.info.relayMethod = .forward)
    (hearly : now < s.lastRelayedTime a.txid) : ¬ s.Returns now a.txid := by
  intro hret
  obtain ⟨-, e, he, hout, hid⟩ := RelayPool.returns_iff.mp hret
  obtain rfl := Keyed.eq_of_key_eq he ha hid
  have hready := (Bool.and_eq_true_iff.mp hout).1
  rw [RelayPool.isReady] at hready
  rcases hstate with hst | hst <;> rw [hst] at hready <;> simp [hearly] at hready

/-- One call does not lower a relay method. -/
theorem method_le_step (hi : s.Allowed i) {b : TxpoolEntry}
    (hb : b ∈ s.pool.txes.entries) (ha : a ∈ (s.step c p i).pool.txes.entries)
    (hid : b.txid = a.txid) : b.info.relayMethod.value ≤ a.info.relayMethod.value := by
  cases entryStep hi ha with
  | kept old => exact (Keyed.eq_of_key_eq hb old hid) ▸ le_rfl
  | stored _ _ above => exact above b hb hid
  | @passed b' method old =>
    obtain rfl := Keyed.eq_of_key_eq hb old hid
    exact b.value_le_raised method

/-- While a transaction stays in the pool, its relay method does not go down. -/
theorem method_le_of_run (hrun : Run c p s calls)
    (hstays : Along (step c p) (fun s _ => s.pool.txpoolHasTx txid = true) s calls)
    {m m' : TxpoolTxMeta} (hm : s.pool.getTxpoolTxMeta txid = some m)
    (hm' : (calls.foldl (step c p) s).pool.getTxpoolTxMeta txid = some m') :
    m.relayMethod.value ≤ m'.relayMethod.value := by
  induction calls generalizing s m with
  | nil =>
    obtain rfl := Option.some.inj (hm.symm.trans hm')
    exact le_rfl
  | cons i calls ih =>
    obtain ⟨hi, hrest⟩ := hrun
    -- the transaction is in the pool after the call, be it the last one or not
    obtain ⟨m₁, hm₁⟩ : ∃ m₁, (s.step c p i).pool.getTxpoolTxMeta txid = some m₁ := by
      cases calls with
      | nil => exact ⟨m', hm'⟩
      | cons j calls => exact Option.isSome_iff_exists.mp hstays.2.1
    obtain ⟨b, hb, hbid, rfl⟩ := getTxpoolTxMeta_eq_some.mp hm
    obtain ⟨a, ha, haid, rfl⟩ := getTxpoolTxMeta_eq_some.mp hm₁
    exact (method_le_step hi hb ha (hbid.trans haid.symm)).trans (ih hrest hstays.2 hm₁ hm')

theorem awake_of_run (hs : s.Started) (hrun : Run c p s calls) : (calls.foldl (step c p) s).Awake :=
  (@Along.invariant _ _ _ _ (fun s => s.Regular ∧ s.Awake)
    (fun _ _ h hi => ⟨h.1.step hi, h.2.step h.1.nextCheck hi⟩) s calls hrun
    ⟨hs.regular, hs.awake⟩).2

theorem toNat_age {now received : UInt64} (h : received ≤ now) :
    (now - received).toNat = now.toNat - received.toNat := UInt64.toNat_sub_of_le _ _ h

/-- The transaction may be relayed and is not too old. -/
def Eligible (now : UInt64) (e : TxpoolEntry) : Prop :=
  e.info.pruned = false ∧ 0 < e.info.fee ∧
    now.toNat - e.info.receiveTime.toNat ≤ (RelayPool.halfLivetime e.info.relayMethod).toNat

instance (now : UInt64) (e : TxpoolEntry) : Decidable (Eligible now e) :=
  inferInstanceAs (Decidable (_ ∧ _ ∧ _))

/-! ### Sample runs -/

section Sample

open PoolState (sampleTx)

/-- A new pool. -/
def newAt (now : UInt64) : RelayState where
  pool := TxPool.empty
  lastRelayedTime _ := 0
  nextCheck := now.toNat
  clock := now
  passed _ := none
  relayedSince _ := false
  waiting _ := false
  answered := none

theorem newAt_started {now : UInt64} (h : now.toNat < 2 ^ 63) : (newAt now).Started :=
  ⟨h, ⟨fun _ he => absurd he List.not_mem_nil, fun _ he => absurd he List.not_mem_nil⟩,
    fun _ he => absurd he List.not_mem_nil, rfl⟩

theorem allowed_addTx {now : UInt64} (hclock : s.clock ≤ now) (hfits : now.toNat + delay < 2 ^ 63) :
    s.Allowed (now, .addTx chain t relay version nic delay) :=
  ⟨hclock, (Nat.le_add_right _ _).trans_lt hfits, hfits⟩

/-- A call of `set_relayed` for one transaction. -/
theorem allowed_setRelayed {now : UInt64} (hclock : s.clock ≤ now)
    (hfits : now.toNat + delay < 2 ^ 63) : s.Allowed (now, .setRelayed [(txid, delay)] method) :=
  ⟨hclock, (Nat.le_add_right _ _).trans_lt hfits, fun tx htx => by
    obtain rfl := List.mem_singleton.mp htx
    exact hfits⟩

/-- A transaction comes that is to be forwarded after ten seconds, and the pool is looked at. -/
def forwardCalls (db : Db) : List (UInt64 × RelayCall) :=
  [(1000, .addTx (.sample db) sampleTx .forward 16 0 10), (1000, .getRelayableTransactions)]

theorem forwardCalls_run (db : Db) : Run .transparent .sample (newAt 1000) (forwardCalls db) :=
  ⟨allowed_addTx (UInt64.le_refl _) (by decide), ⟨UInt64.le_refl _, by decide, trivial⟩, trivial⟩

/-- The transaction is handed out at its deadline, and nothing comes of it. -/
def handedCalls (db : Db) : List (UInt64 × RelayCall) :=
  forwardCalls db ++ [(1010, .getRelayableTransactions)]

/-- The same transaction is passed to `set_relayed` with a lower method. -/
def loweredCalls (db : Db) : List (UInt64 × RelayCall) :=
  forwardCalls db ++ [(1001, .setRelayed [(sampleTx.txid, 0)] .local_)]

/-- The wallet of the node sends a transaction. -/
def localCalls (db : Db) : List (UInt64 × RelayCall) :=
  [(1000, .addTx (.sample db) sampleTx .local_ 16 0 0)]

/-- The transaction is relayed. -/
def relayedCalls (db : Db) : List (UInt64 × RelayCall) :=
  localCalls db ++ [(1001, .setRelayed [(sampleTx.txid, 0)] .fluff)]

theorem localCalls_run (db : Db) : Run .transparent .sample (newAt 1000) (localCalls db) :=
  ⟨allowed_addTx (UInt64.le_refl _) (by decide), trivial⟩

theorem relayedCalls_run (db : Db) : Run .transparent .sample (newAt 1000) (relayedCalls db) :=
  along_append.mpr ⟨localCalls_run db,
    allowed_setRelayed (by decide : (1000 : UInt64) ≤ 1001) (by decide), trivial⟩

/-- A call at this time hands out nothing, and a transaction waits to be forwarded whose deadline
has come. -/
def SleepsThrough (s : RelayState) (now : UInt64) : Prop :=
  s.clock ≤ now ∧ ∃ e ∈ s.pool.txes.entries, e.info.relayMethod = .forward ∧ Eligible now e ∧
    s.lastRelayedTime e.txid ≤ now ∧ ¬ s.Returns now e.txid

instance (s : RelayState) (now : UInt64) : Decidable (s.SleepsThrough now) :=
  inferInstanceAs (Decidable (_ ∧ _))

/-- What the five runs come to. -/
def SampleFacts (db : Db) : Prop :=
  (let s := (forwardCalls db).foldl (step .transparent .sample) (newAt 1000)
   s.clock ≤ 1010 ∧ ∃ e ∈ s.pool.txes.entries, e.txid = sampleTx.txid ∧
     e.info.relayMethod = .forward ∧ Eligible 1010 e ∧ s.lastRelayedTime e.txid ≤ 1010 ∧
     s.waiting e.txid = true) ∧
  (((handedCalls db).foldl (step .transparent .sample) (newAt 1000)).SleepsThrough 1011 ∧
    ((loweredCalls db).foldl (step .transparent .sample) (newAt 1000)).SleepsThrough 1002) ∧
  (let s := (localCalls db).foldl (step .transparent .sample) (newAt 1000)
   s.nextCheck ≤ (20000 : UInt64).toNat ∧ ∃ e ∈ s.pool.txes.entries,
     e.info.relayMethod = .local_ ∧ Eligible 20000 e ∧
     (e.info.receiveTime.toNat : ℤ) + maxRelayTime < (20000 : UInt64).toNat ∧
     ¬ s.Returns 20000 e.txid) ∧
  (let s := (relayedCalls db).foldl (step .transparent .sample) (newAt 1000)
   s.clock ≤ 20000 ∧ s.nextCheck ≤ (20000 : UInt64).toNat ∧ ∃ e ∈ s.pool.txes.entries,
     e.txid = sampleTx.txid ∧ e.info.relayMethod = .fluff ∧ Eligible 20000 e ∧
     (e.info.receiveTime.toNat : ℤ) + maxRelayTime < (20000 : UInt64).toNat ∧
     s.relayedSince e.txid = true ∧ s.passed e.txid = some 1001)

instance (db : Db) : Decidable (SampleFacts db) := inferInstanceAs (Decidable (_ ∧ _ ∧ _ ∧ _))

theorem sample_runs :
    ∃ db, addBlocks .transparent (boundChain 16 10) (Db.empty 0) = .ok () db ∧ SampleFacts db := by
  obtain ⟨⟨⟩, db, hdb, h⟩ := Store.exists_of_okAnd
    (r := addBlocks .transparent (boundChain 16 10) (Db.empty 0))
    (p := fun _ db => decide (SampleFacts db)) (by decide +kernel)
  exact ⟨db, hdb, of_decide_eq_true h⟩

end Sample

open PoolState (sampleTx)

/-! ### Deadlines -/

/-- **Deadlines are not slept through.** In any run a call of `get_relayable_transactions` hands out
every transaction in stem or forward state whose deadline has come and that is not too old, if it is
waiting or if no call has returned `true` in the last two minutes. It hands out none whose deadline
lies ahead, and the relay method of a transaction that stays in the pool does not go down. -/
theorem embargo_of_run (hs : s.Started) (hrun : Run c p s calls) :
    (∀ now, (calls.foldl (step c p) s).clock ≤ now → now.toNat < 2 ^ 63 →
      ∀ e ∈ (calls.foldl (step c p) s).pool.txes.entries,
        e.info.relayMethod = .stem ∨ e.info.relayMethod = .forward → Eligible now e →
        (calls.foldl (step c p) s).lastRelayedTime e.txid ≤ now →
        ((calls.foldl (step c p) s).waiting e.txid = true ∨
          ∀ u, (calls.foldl (step c p) s).answered = some u →
            (u + maxRelayableCheck).toNat ≤ now.toNat) →
        (calls.foldl (step c p) s).Returns now e.txid) ∧
    (∀ now, ∀ e ∈ (calls.foldl (step c p) s).pool.txes.entries,
      e.info.relayMethod = .stem ∨ e.info.relayMethod = .forward →
      now < (calls.foldl (step c p) s).lastRelayedTime e.txid →
      ¬ (calls.foldl (step c p) s).Returns now e.txid) ∧
    ∀ before during, calls = before ++ during → ∀ txid m m',
      Along (step c p) (fun s _ => s.pool.txpoolHasTx txid = true) (before.foldl (step c p) s)
        during →
      (before.foldl (step c p) s).pool.getTxpoolTxMeta txid = some m →
      (calls.foldl (step c p) s).pool.getTxpoolTxMeta txid = some m' →
      m.relayMethod.value ≤ m'.relayMethod.value := by
  have hreg := regular_of_run hs hrun
  refine ⟨fun now hclock hnow e he hstate ⟨hpruned, hfee, hage⟩ hdue hwait => ?_,
    fun now e he => not_returns_of_lt he, ?_⟩
  · have hpending : RelayPool.isPending e = true := by
      simp [RelayPool.isPending, hstate, hpruned, hfee]
    have hcheck := (awake_of_run hs hrun).nextCheck_le hclock he hpending hdue hwait
    refine returns_of_due hnow hcheck he hpending hdue ?_
    rw [UInt64.le_iff_toNat_le, toNat_age (UInt64.le_trans (hreg.timed.received e he) hclock)]
    exact hage
  · rintro before during rfl txid m m' hstays hm hm'
    obtain ⟨-, hduring⟩ := along_append.mp hrun
    rw [List.foldl_append] at hm'
    exact method_le_of_run hduring hstays hm hm'

/-- The transaction is handed out when its time has come. -/
theorem embargo_of_forwardCalls :
    ∃ db, addBlocks .transparent (boundChain 16 10) (Db.empty 0) = .ok () db ∧
      ((forwardCalls db).foldl (step .transparent .sample) (newAt 1000)).Returns 1010
        sampleTx.txid := by
  obtain ⟨db, hdb, ⟨hclock, e, he, hid, hstate, hel, hdue, hwait⟩, -⟩ := sample_runs
  have hret := (embargo_of_run (newAt_started (by decide)) (forwardCalls_run db)).1
    1010 hclock (by decide) e he (.inr hstate) hel hdue (.inl hwait)
  exact ⟨db, hdb, hid ▸ hret⟩

/-- The transaction is handed out at its deadline, which stays as it is, while the next check moves
by two minutes: the call one second later returns nothing. And if the wallet of the node sends it
while it waits to be forwarded, then it is passed to `set_relayed` with the lower method. Its
deadline comes nine seconds earlier now, and the next check does not. -/
theorem forward_slept_through :
    ∃ db, addBlocks .transparent (boundChain 16 10) (Db.empty 0) = .ok () db ∧
      (newAt 1000).Started ∧
      (Run .transparent .sample (newAt 1000) (handedCalls db) ∧
        ((handedCalls db).foldl (step .transparent .sample) (newAt 1000)).SleepsThrough 1011) ∧
      Run .transparent .sample (newAt 1000) (loweredCalls db) ∧
        ((loweredCalls db).foldl (step .transparent .sample) (newAt 1000)).SleepsThrough 1002 := by
  obtain ⟨db, hdb, -, ⟨hhanded, hlowered⟩, -⟩ := sample_runs
  have hle : (1000 : UInt64) ≤ 1001 ∧ (1000 : UInt64) ≤ 1010 := by decide
  exact ⟨db, hdb, newAt_started (by decide),
    ⟨along_append.mpr ⟨forwardCalls_run db, ⟨hle.2, by decide, trivial⟩, trivial⟩, hhanded⟩,
    along_append.mpr ⟨forwardCalls_run db, allowed_setRelayed hle.1 (by decide), trivial⟩, hlowered⟩

/-! ### Transactions that are relayed again -/

/-- The transaction came more than `MAX_RELAY_TIME` ago, and it has not been passed to `set_relayed`
since then. -/
def Overdue (s : RelayState) (now : UInt64) (e : TxpoolEntry) : Prop :=
  (e.info.receiveTime.toNat : ℤ) + maxRelayTime < now.toNat ∧
    ∀ u, s.passed e.txid = some u → (u.toNat : ℤ) + maxRelayTime < now.toNat

/-- The transaction was passed to `set_relayed` less than `MIN_RELAY_TIME` ago. -/
def Recent (s : RelayState) (now : UInt64) (e : TxpoolEntry) : Prop :=
  ∃ u, s.passed e.txid = some u ∧ (now.toNat : ℤ) < u.toNat + minRelayTime

/-- A transaction in local or fluff state is handed out after its delay. -/
theorem returns_iff_of_state {now : UInt64} (htimed : s.Timed) (hclock : s.clock ≤ now)
    (hnow : now.toNat < 2 ^ 63) (hcheck : s.nextCheck ≤ now.toNat) (ha : a ∈ s.pool.txes.entries)
    (hstate : a.info.relayMethod = .local_ ∨ a.info.relayMethod = .fluff) :
    s.Returns now a.txid ↔ Eligible now a ∧
      ¬ now - s.lastRelayedTime a.txid ≤
        getRelayDelay (s.lastRelayedTime a.txid) a.info.receiveTime := by
  have hopen := not_early hnow hcheck
  have hage : now - a.info.receiveTime ≤ RelayPool.halfLivetime a.info.relayMethod ↔
      now.toNat - a.info.receiveTime.toNat ≤ (RelayPool.halfLivetime a.info.relayMethod).toNat := by
    rw [UInt64.le_iff_toNat_le, toNat_age (UInt64.le_trans (htimed.received a ha) hclock)]
  have hone : (∃ e ∈ s.pool.txes.entries, s.isHandedOut now e = true ∧ e.txid = a.txid) ↔
      s.isHandedOut now a = true := by
    constructor
    · rintro ⟨e, he, hout, hid⟩
      exact Keyed.eq_of_key_eq he ha hid ▸ hout
    · exact fun hout => ⟨a, ha, hout, rfl⟩
  rw [RelayPool.returns_iff, hone, RelayPool.isHandedOut, RelayPool.isReady, Eligible, ← hage]
  rcases hstate with hst | hst <;> rw [hst] <;> simp [hopen] <;> tauto

/-- **Trying again.** A call of `get_relayable_transactions` at a time that is not before the next
check hands out what is overdue, and nothing that was relayed a short time ago, of all transactions
that have been passed to `set_relayed` since `add_tx` stored them last. One that has not is handed
out only if it came in the first seconds of the clock. -/
theorem retried_iff (hs : s.Started) (hrun : Run c p s calls) {now : UInt64}
    (hclock : (calls.foldl (step c p) s).clock ≤ now) (hnow : now.toNat < 2 ^ 63)
    (hcheck : (calls.foldl (step c p) s).nextCheck ≤ now.toNat)
    (ha : a ∈ (calls.foldl (step c p) s).pool.txes.entries)
    (hstate : a.info.relayMethod = .local_ ∨ a.info.relayMethod = .fluff) :
    ((Eligible now a → (calls.foldl (step c p) s).Overdue now a →
          (calls.foldl (step c p) s).Returns now a.txid) ∧
        ((calls.foldl (step c p) s).Recent now a →
          ¬ (calls.foldl (step c p) s).Returns now a.txid)) ↔
      (Eligible now a → (calls.foldl (step c p) s).relayedSince a.txid = false →
        ((calls.foldl (step c p) s).Overdue now a → a.info.receiveTime.toNat < 599) ∧
        ((calls.foldl (step c p) s).Recent now a → 599 ≤ a.info.receiveTime.toNat)) := by
  have hreg := regular_of_run hs hrun
  generalize calls.foldl (step c p) s = s' at *
  rw [returns_iff_of_state hreg.timed hclock hnow hcheck ha hstate]
  have hstamp := hreg.stamped a ha hstate
  have hreceived : a.info.receiveTime.toNat ≤ now.toNat := UInt64.le_iff_toNat_le.mp
    (UInt64.le_trans (hreg.timed.received a ha) hclock)
  rw [UInt64.le_iff_toNat_le]
  cases hsince : s'.relayedSince a.txid with
  | true =>
    rw [hsince, if_pos rfl] at hstamp
    obtain ⟨hpassed, hle, hlast⟩ := hstamp
    have hlast' := UInt64.le_iff_toNat_le.mp (UInt64.le_trans hlast hclock)
    obtain ⟨hmin, hmax⟩ := getRelayDelay_bounds hle (by omega)
    rw [toNat_age (UInt64.le_trans hlast hclock), Overdue, Recent, hpassed]
    refine iff_of_true ⟨fun hel hover => ⟨hel, ?_⟩, ?_⟩ fun _ h => absurd h Bool.noConfusion
    · have hlate := hover.2 _ rfl
      have hmax' : maxRelayTime = 14400 := rfl
      omega
    · rintro ⟨u, hu, hlt⟩ ⟨-, hover⟩
      obtain rfl := Option.some.inj hu
      have hmin' : minRelayTime = 300 := rfl
      omega
  | false =>
    rw [hsince, if_neg Bool.false_ne_true] at hstamp
    have hlt : a.info.receiveTime.toNat < 2 ^ 63 := hreceived.trans_lt hnow
    obtain ⟨hzero, hhuge⟩ := getRelayDelay_neverRelayed hlt
    -- `now - last_relayed_time` wraps around
    have hwrap : (now - neverRelayed).toNat = now.toNat + 1 := by
      rw [UInt64.toNat_sub, show neverRelayed.toNat = 2 ^ 64 - 1 by decide]
      omega
    rw [hstamp, hwrap]
    constructor
    · refine fun h hel _ => ⟨fun hover => ?_, fun hrecent => ?_⟩
      · by_contra hlate
        have := hhuge (by omega)
        exact (h.1 hel hover).2 (by omega)
      · by_contra hfirst
        have := hzero (by omega)
        exact h.2 hrecent ⟨hel, by omega⟩
    · refine fun h => ⟨fun hel hover => ⟨hel, ?_⟩, fun hrecent hret => ?_⟩
      · have := hzero ((h hel rfl).1 hover)
        omega
      · have := hhuge ((h hret.1 rfl).2 hrecent)
        exact hret.2 (by omega)

/-- A transaction that has never been relayed, for lack of a connection, say, is not tried again. -/
theorem local_never_retried :
    ∃ db, addBlocks .transparent (boundChain 16 10) (Db.empty 0) = .ok () db ∧
      (newAt 1000).Started ∧ Run .transparent .sample (newAt 1000) (localCalls db) ∧
      let s := (localCalls db).foldl (step .transparent .sample) (newAt 1000)
      s.nextCheck ≤ (20000 : UInt64).toNat ∧ ∃ e ∈ s.pool.txes.entries,
        e.info.relayMethod = .local_ ∧ Eligible 20000 e ∧ s.Overdue 20000 e ∧
          ¬ s.Returns 20000 e.txid := by
  obtain ⟨db, hdb, -, -, ⟨hcheck, e, he, hstate, hel, hold, hnot⟩, -⟩ := sample_runs
  refine ⟨db, hdb, newAt_started (by decide), localCalls_run db, hcheck, e, he, hstate, hel,
    ⟨hold, fun u hu => ?_⟩, hnot⟩
  cases hu

/-- The same transaction, once it has been relayed. -/
theorem retried_after_relay :
    ∃ db, addBlocks .transparent (boundChain 16 10) (Db.empty 0) = .ok () db ∧
      ((relayedCalls db).foldl (step .transparent .sample) (newAt 1000)).Returns 20000
        sampleTx.txid := by
  obtain ⟨db, hdb, -, -, -, hclock, hcheck, e, he, hid, hstate, hel, hold, hsince, hpassed⟩ :=
    sample_runs
  have hret := (retried_iff (newAt_started (by decide)) (relayedCalls_run db) hclock (by decide)
    hcheck he (.inr hstate)).mpr fun _ hno => absurd (hsince.symm.trans hno) Bool.noConfusion
  have hover := hret.1 hel ⟨hold, fun u hu => by
    obtain rfl := Option.some.inj (hpassed.symm.trans hu)
    decide⟩
  rw [hid] at hover
  exact ⟨db, hdb, hover⟩

end RelayState

end Hidering
