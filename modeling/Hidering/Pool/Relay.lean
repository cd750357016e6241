import Hidering.Pool.Run
import Mathlib.Data.BitVec

/-!
# When the pool relays its transactions

`get_relayable_transactions` is called again and again; it hands out the transactions that are to be
relayed now. A transaction in stem or forward state is held back until its deadline; one in another
state is relayed again after a delay that grows with its age. Both times are kept in the field
`last_relayed_time`, which is `2 ^ 64 - 1` for a transaction that `add_tx` has stored and that has
not been relayed. The pool is not looked at before `m_next_check`: `add_tx` and `set_relayed` lower
it, `get_relayable_transactions` sets it anew.

The model puts the two times beside `TxPool`, whose functions decide what is in the pool. A time is
a `time_t` that is not negative, in 64 bits; the random delays are arguments.

## Main definitions

* `Hidering.getRelayDelay`
* `Hidering.RelayPool.addTx`, `setRelayed`, `getRelayableTransactions`

## Main results

* `Hidering.TxPool.follows_addTx` — what `add_tx` does to the table of the pool
* `Hidering.RelayPool.passed_foldl` — the loop of `set_relayed`
* `Hidering.RelayPool.foldl_scanTx`, `returns_iff` — the loop of `get_relayable_transactions`
-/

namespace Hidering

open Wire Machine Store List

/-! ### Times -/

/-- A `time_t` that is kept as a `uint64_t`. -/
def timeT (t : UInt64) : ℤ := t.toBitVec.toInt

/-- The greatest `time_t`. -/
def timeTMax : UInt64 := 0x7fffffffffffffff

/-- The greatest value of `last_relayed_time`, which stands for none. -/
def neverRelayed : UInt64 := 0xffffffffffffffff

/-- `MIN_RELAY_TIME`. -/
abbrev minRelayTime : ℤ := 60 * 5

/-- `MAX_RELAY_TIME`. -/
abbrev maxRelayTime : ℤ := 60 * 60 * 4

/-- `max_relayable_check`, in seconds. -/
abbrev maxRelayableCheck : UInt64 := 60 * 2

/-- `get_relay_delay`; a negative result becomes a large one. -/
def getRelayDelay (lastRelay received : UInt64) : UInt64 :=
  let d := (timeT lastRelay - timeT received + minRelayTime).tdiv minRelayTime * minRelayTime
  UInt64.ofInt (if maxRelayTime < d then maxRelayTime else d)

/-- `set_if_less`. -/
def setIfLess (nextCheck candidate : ℤ) : ℤ :=
  if candidate < nextCheck then candidate else nextCheck

theorem setIfLess_eq_min (nextCheck candidate : ℤ) :
    setIfLess nextCheck candidate = min nextCheck candidate := by
  rw [setIfLess]
  split <;> omega

theorem timeT_of_lt {t : UInt64} (h : t.toNat < 2 ^ 63) : timeT t = t.toNat := by
  rw [timeT, BitVec.toInt_eq_toNat_of_lt (by rw [UInt64.toNat_toBitVec]; omega),
    UInt64.toNat_toBitVec]

theorem timeT_lt (t : UInt64) : timeT t < 2 ^ 63 := by
  rw [timeT, BitVec.toInt_eq_toNat_cond]
  split <;> omega

theorem timeT_le (t : UInt64) : timeT t ≤ t.toNat := by
  rw [timeT, BitVec.toInt_eq_toNat_cond, UInt64.toNat_toBitVec]
  split <;> omega

variable {delay : ℕ}

theorem toNat_add_ofNat {t : UInt64} (h : t.toNat + delay < 2 ^ 63) :
    (t + UInt64.ofNat delay).toNat = t.toNat + delay := by
  have hlt : delay < UInt64.size := lt_of_le_of_lt (Nat.le_add_left _ _) (h.trans (by decide))
  rw [UInt64.toNat_add, UInt64.toNat_ofNat_of_lt' hlt]
  omega

theorem toNat_min (a b : UInt64) : (min a b).toNat = min a.toNat b.toNat := by
  change (if a ≤ b then a else b).toNat = _
  rw [min_def]
  by_cases h : a ≤ b
  · rw [if_pos h, if_pos (UInt64.le_iff_toNat_le.mp h)]
  · rw [if_neg h, if_neg (mt UInt64.le_iff_toNat_le.mpr h)]

/-- The least of some values is not above any of them. -/
theorem toNat_foldl_min {α : Type} (f : α → UInt64) (l : List α) (n : UInt64) :
    (l.foldl (fun n a => min n (f a)) n).toNat ≤ n.toNat ∧
      ∀ a ∈ l, (l.foldl (fun n a => min n (f a)) n).toNat ≤ (f a).toNat := by
  induction l generalizing n with
  | nil => exact ⟨le_rfl, fun _ h => absurd h not_mem_nil⟩
  | cons b l ih =>
    obtain ⟨hn, hl⟩ := ih (min n (f b))
    rw [toNat_min] at hn
    refine ⟨hn.trans (min_le_left _ _), fun a ha => ?_⟩
    rcases mem_cons.mp ha with rfl | ha
    · exact hn.trans (min_le_right _ _)
    · exact hl a ha

theorem toNat_ofInt (d : ℤ) : ((UInt64.ofInt d).toNat : ℤ) = d % 2 ^ 64 := by
  have hlt : (d % 2 ^ 64).toNat < 2 ^ 64 := by omega
  rw [UInt64.ofInt, UInt64.toNat_ofNat_of_lt' hlt]
  omega

theorem getRelayDelay_eq (last received : UInt64) :
    ((getRelayDelay last received).toNat : ℤ) =
      min 14400 ((timeT last - timeT received + 300).tdiv 300 * 300) % 2 ^ 64 := by
  rw [getRelayDelay, toNat_ofInt]
  norm_num only [minRelayTime, maxRelayTime]
  rw [min_def_lt]

/-- The delay after a relay that was not before the transaction came. -/
theorem getRelayDelay_bounds {last received : UInt64} (h : received ≤ last)
    (hlast : last.toNat < 2 ^ 63) :
    300 ≤ (getRelayDelay last received).toNat ∧ (getRelayDelay last received).toNat ≤ 14400 := by
  have hle : received.toNat ≤ last.toNat := UInt64.le_iff_toNat_le.mp h
  have heq := getRelayDelay_eq last received
  rw [timeT_of_lt hlast, timeT_of_lt (hle.trans_lt hlast),
    Int.tdiv_eq_ediv_of_nonneg (by omega)] at heq
  generalize hd : ((last.toNat : ℤ) - received.toNat + 300) / 300 * 300 = d at heq
  have hmin : 300 ≤ min 14400 d ∧ min 14400 d ≤ 14400 := by omega
  omega

theorem timeT_neverRelayed : timeT neverRelayed = -1 := by decide

/-- The delay of a transaction that has never been relayed: none in the first seconds of all time,
and without end after them. -/
theorem getRelayDelay_neverRelayed {received : UInt64} (h : received.toNat < 2 ^ 63) :
    (received.toNat < 599 → (getRelayDelay neverRelayed received).toNat = 0) ∧
      (599 ≤ received.toNat → 2 ^ 63 < (getRelayDelay neverRelayed received).toNat) := by
  have heq := getRelayDelay_eq neverRelayed received
  rw [timeT_neverRelayed, timeT_of_lt h] at heq
  rcases le_or_gt (received.toNat : ℤ) 299 with hsmall | hlarge
  · rw [Int.tdiv_eq_ediv_of_nonneg (by omega)] at heq
    omega
  · -- the quotient is rounded towards zero
    have hneg : (-1 - (received.toNat : ℤ) + 300).tdiv 300 = -((received.toNat - 299) / 300) := by
      rw [show -1 - (received.toNat : ℤ) + 300 = -(received.toNat - 299) by ring, Int.neg_tdiv,
        Int.tdiv_eq_ediv_of_nonneg (by omega)]
    rw [hneg, min_eq_right (by omega)] at heq
    refine ⟨fun hlt => by omega, fun hle => ?_⟩
    rw [← Int.add_emod_right, Int.emod_eq_of_lt (by omega) (by omega)] at heq
    omega

/-! ### What `add_tx` stores -/

variable {a : TxpoolEntry} {method : RelayMethod}

namespace TxPool

variable (pool : TxPool) (c : Crypto) (p : NodeParams) (chain : Blockchain) (now : UInt64)
  (t : NewTx) (relay : RelayMethod) (version nic : UInt8)

/-- The relay method and the time of the last relay that `add_tx` is about to store; `none` if it
fails before, or if the pool has the transaction already and nothing is to be changed. The time is
only set for a transaction that is to be forwarded, `delay` seconds from now, and for one from a
block whose inputs do not pass. -/
def storing (delay : ℕ) : Option (RelayMethod × UInt64) :=
  match pool.checkNew c chain t relay version nic with
  | .error _ => none
  | .ok () =>
    match (pool.checkTxInputs c p chain now (some t.tx) t.txid (decide (relay = .block))).1 with
    | .error _ => if relay = .block then some (relay, now) else none
    | .ok () =>
      let existing := pool.getTxpoolTxMeta t.txid
      let relay := upgraded relay existing
      let before := (existing.map TxpoolTxMeta.relayMethod).getD .none
      if before.value < relay.value ∨ existing = none then
        some (relay, if relay = .forward then now + UInt64.ofNat delay else neverRelayed)
      else none

/-- What `add_tx` has stored; it fails if the key images cannot be inserted. -/
def stored (delay : ℕ) : Option (RelayMethod × UInt64) :=
  if Check.passes (pool.addTx c p chain now t relay version nic).1 then
    pool.storing c p chain now t relay version nic delay
  else none

variable {pool c p chain now t relay version nic}

theorem mem_pruneLoop {bytes : ℕ} {txids : List Hash} {pool : TxPool}
    (ha : a ∈ (pruneLoop c bytes txids pool).txes.entries) : a ∈ pool.txes.entries := by
  induction txids generalizing pool with
  | nil => exact ha
  | cons txid txids ih =>
    rw [pruneLoop] at ha
    split at ha
    · exact ha
    · split at ha
      · exact ih ha
      · next e he =>
        split at ha
        · exact ih ha
        · split at ha
          · exact ha
          · have hleft := ih ha
            rw [removeTx_txes] at hleft
            exact (Keyed.mem_erase.mp hleft).1

theorem mem_finishAdd {added : Bool}
    (ha : a ∈ (pool.finishAdd c t added).txes.entries) : a ∈ pool.txes.entries := by
  rw [finishAdd, prune] at ha
  have hleft := mem_pruneLoop ha
  cases added <;> exact hleft

/-- A call of `store` that fails leaves no trace in the table. -/
theorem store_txes_of_not (h : ¬ (pool.store c p now t relay method).1 = true) :
    (pool.store c p now t relay method).2.txes = pool.txes := by
  obtain ⟨f, hf⟩ := insertKeyImages_frame (c := c) t.txid relay t.tx.vin pool
  rw [store] at h ⊢
  split at h
  · exact absurd rfl h
  · next hins => rw [if_neg hins, hf]

theorem store_txes (h : (pool.store c p now t relay method).1 = true) :
    (pool.store c p now t relay method).2.txes =
      (pool.txes.erase t.txid).put entryBefore ⟨t.txid, t.info now method, t.blob⟩ := by
  obtain ⟨f, hf⟩ := insertKeyImages_frame (c := c) t.txid relay t.tx.vin pool
  rw [store] at h ⊢
  split at h
  · next hins =>
    rw [if_pos hins, hf]
    rfl
  · exact absurd h Bool.false_ne_true

theorem mem_store (h : (pool.store c p now t relay method).1 = true)
    (ha : a ∈ (pool.store c p now t relay method).2.txes.entries) :
    a = ⟨t.txid, t.info now method, t.blob⟩ ∨ a ∈ pool.txes.entries ∧ a.txid ≠ t.txid := by
  rw [store_txes h] at ha
  rcases Keyed.mem_put.mp ha with rfl | ⟨ha, hne⟩
  · exact .inl rfl
  · exact .inr ⟨(Keyed.mem_erase.mp ha).1, hne⟩

variable (pool t now) in
/-- What an entry of the pool after `add_tx` is: the new one, if one was stored under the method, or
one from before. -/
def Follows (result : Option RelayMethod) (a : TxpoolEntry) : Prop :=
  match result with
  | some method =>
    a = ⟨t.txid, t.info now method, t.blob⟩ ∨ a ∈ pool.txes.entries ∧ a.txid ≠ t.txid
  | none => a ∈ pool.txes.entries

/-- The end of `add_tx`: the transaction is stored, if its key images can be. -/
theorem follows_storeAdd {added : Bool} {out : Verdict Unit × TxPool}
    (hout : out = let r := pool.store c p now t relay method
      if r.1 then (pure (), r.2.finishAdd c t added) else (throw [.verifivationFailed], r.2))
    (ha : a ∈ out.2.txes.entries) :
    pool.Follows now t (if Check.passes out.1 then some method else none) a := by
  subst hout
  dsimp only at ha ⊢
  by_cases hok : (pool.store c p now t relay method).1 = true
  · rw [if_pos hok] at ha ⊢
    exact mem_store hok (mem_finishAdd ha)
  · rw [if_neg hok] at ha ⊢
    rw [store_txes_of_not hok] at ha
    exact ha

theorem Follows.congr (pool' : TxPool) (h : pool.txes = pool'.txes) {r : Option RelayMethod}
    (ha : pool.Follows now t r a) : pool'.Follows now t r a := by
  rw [Follows.eq_def, ← h]
  exact ha

theorem follows_addFailed (ha : a ∈ (pool.addFailed c p now t relay).2.txes.entries) :
    pool.Follows now t
      (if Check.passes (pool.addFailed c p now t relay).1 then
        if relay = .block then some relay else none else none) a := by
  rw [addFailed] at ha ⊢
  by_cases hblock : relay = .block
  · rw [if_pos hblock] at ha ⊢
    rw [if_pos hblock]
    exact (follows_storeAdd rfl ha).congr pool (cacheParsed_txes pool t true)
  · rw [if_neg hblock] at ha ⊢
    exact ha

/-- The method that is stored is the one under which the transaction comes in. -/
theorem upgraded_eq_of_storing {before relay : RelayMethod} {existing : Option TxpoolTxMeta}
    (hbefore : before = (existing.map TxpoolTxMeta.relayMethod).getD .none)
    (h : before.value < relay.value ∨ existing = none) :
    (if before.value < relay.value then relay else before) = relay := by
  split_ifs with hlt
  · rfl
  · obtain rfl : existing = none := h.resolve_left hlt
    subst hbefore
    cases relay <;> simp_all [RelayMethod.value]

theorem follows_addPassed (ha : a ∈ (pool.addPassed c p now t relay).2.txes.entries) :
    pool.Follows now t
      (if Check.passes (pool.addPassed c p now t relay).1 then
        let existing := pool.getTxpoolTxMeta t.txid
        let relay := upgraded relay existing
        if ((existing.map TxpoolTxMeta.relayMethod).getD .none).value < relay.value ∨
          existing = none then some relay else none
      else none) a := by
  have htxes := cacheParsed_txes pool t (decide (relay = .block))
  have hmeta : (pool.cacheParsed t (decide (relay = .block))).getTxpoolTxMeta t.txid =
      pool.getTxpoolTxMeta t.txid := by rw [getTxpoolTxMeta, getTxpoolTxMeta, htxes]
  rw [addPassed] at ha ⊢
  dsimp only at ha ⊢
  rw [hmeta] at ha ⊢
  by_cases hstore : ((Option.map TxpoolTxMeta.relayMethod (pool.getTxpoolTxMeta t.txid)).getD
      .none).value < (upgraded relay (pool.getTxpoolTxMeta t.txid)).value ∨
        pool.getTxpoolTxMeta t.txid = none
  · rw [if_pos hstore] at ha ⊢
    rw [if_pos hstore]
    have hout := (follows_storeAdd rfl ha).congr pool htxes
    rwa [upgraded_eq_of_storing rfl hstore] at hout ⊢
  · rw [if_neg hstore] at ha ⊢
    rw [if_neg hstore, ite_self]
    have hkept := mem_finishAdd ha
    rw [htxes] at hkept
    exact hkept

/-- **What `add_tx` does to the table.** -/
theorem follows_addTx (delay : ℕ)
    (ha : a ∈ (pool.addTx c p chain now t relay version nic).2.txes.entries) :
    pool.Follows now t ((pool.stored c p chain now t relay version nic delay).map Prod.fst) a := by
  rw [stored, storing]
  rw [addTx] at ha ⊢
  cases hnew : pool.checkNew c chain t relay version nic with
  | error e =>
    rw [hnew] at ha
    exact ha
  | ok u =>
    obtain ⟨f, hf⟩ := @checkTxInputs_frame c pool p chain now (some t.tx) t.txid
      (decide (relay = .block))
    rw [hnew] at ha
    dsimp only at ha ⊢
    generalize pool.checkTxInputs c p chain now (some t.tx) t.txid (decide (relay = .block)) = r
      at ha hf ⊢
    obtain ⟨res, pool₁⟩ := r
    obtain rfl : pool₁ = { pool with inputCache := f } := hf
    cases res with
    | error e =>
      have hout := (follows_addFailed ha).congr pool rfl
      dsimp only at hout ⊢
      convert hout using 1
      split_ifs <;> rfl
    | ok u =>
      have hout := (follows_addPassed ha).congr pool rfl
      dsimp only at hout ⊢
      convert hout using 1
      split_ifs <;> first | rfl | contradiction

/-- The method that `add_tx` stores is not below the one that was stored, and the time is set for a
transaction that is to be forwarded. -/
theorem storing_eq_some {last : UInt64}
    (h : pool.storing c p chain now t relay version nic delay = some (method, last)) :
    (∀ a ∈ pool.txes.entries, a.txid = t.txid → a.info.relayMethod.value ≤ method.value) ∧
      (method = .block ∨
        last = if method = .forward then now + UInt64.ofNat delay else neverRelayed) := by
  rw [storing] at h
  split at h
  · cases h
  · split at h
    · split at h
      · next hblock =>
        obtain ⟨rfl, rfl⟩ := Prod.mk.inj (Option.some.inj h)
        refine ⟨fun a _ _ => ?_, .inl hblock⟩
        subst hblock
        cases a.info.relayMethod <;> decide
      · cases h
    · dsimp only at h
      split at h
      · next hstore =>
        obtain ⟨rfl, rfl⟩ := Prod.mk.inj (Option.some.inj h)
        refine ⟨fun a ha hid => ?_, .inr rfl⟩
        have hmeta : pool.getTxpoolTxMeta t.txid = some a.info := by
          rw [getTxpoolTxMeta, Keyed.find?_eq_some.mpr ⟨ha, hid⟩, Option.map_some]
        rw [hmeta] at hstore ⊢
        exact (hstore.resolve_right (Option.some_ne_none _)).le
      · cases h

theorem storing_of_stored {r : RelayMethod × UInt64}
    (h : pool.stored c p chain now t relay version nic delay = some r) :
    pool.storing c p chain now t relay version nic delay = some r := by
  rw [stored] at h
  split at h
  · exact h
  · cases h

end TxPool

/-! ### The pool with its times -/

/-- A pool, with the field `last_relayed_time` of its entries, and `m_next_check`. -/
structure RelayPool where
  pool : TxPool
  lastRelayedTime : Hash → UInt64
  nextCheck : ℤ

variable {e : TxpoolEntry} {txid : Hash}

namespace RelayPool

variable (s : RelayPool) (c : Crypto) (p : NodeParams) (now : UInt64)

/-- `add_tx`. The next check is moved before the transaction is stored. -/
def addTx (chain : Blockchain) (t : TxPool.NewTx) (relay : RelayMethod) (version nic : UInt8)
    (delay : ℕ) : RelayPool where
  pool := (s.pool.addTx c p chain now t relay version nic).2
  lastRelayedTime :=
    match s.pool.stored c p chain now t relay version nic delay with
    | some (_, last) => Function.update s.lastRelayedTime t.txid last
    | none => s.lastRelayedTime
  nextCheck :=
    match s.pool.storing c p chain now t relay version nic delay with
    | some (.forward, last) => setIfLess s.nextCheck (timeT last)
    | _ => s.nextCheck

/-- The body of the loop in `set_relayed`, with `next_relay`. A transaction in stem state gets a
deadline, `delay` seconds from now. -/
def setRelayed1 (method : RelayMethod) (r : RelayPool × UInt64) (tx : Hash × ℕ) :
    RelayPool × UInt64 :=
  match r.1.pool.getTxpoolTxMeta tx.1 with
  | none => r
  | some m =>
    let after := if m.relayMethod.value < method.value then method else m.relayMethod
    let last := if after = .stem then now + UInt64.ofNat tx.2 else now
    ({ r.1 with
        pool := r.1.pool.setRelayed1 p now method tx.1
        lastRelayedTime := Function.update r.1.lastRelayedTime tx.1 last },
      if after = .stem then min r.2 last else r.2)

/-- `set_relayed`, with a random delay for every hash. -/
def setRelayed (txs : List (Hash × ℕ)) (method : RelayMethod) : RelayPool :=
  let r := txs.foldl (setRelayed1 p now method) (s, timeTMax)
  { r.1 with nextCheck := setIfLess r.1.nextCheck (timeT r.2) }

/-- What `get_relayable_transactions` has gathered. -/
structure Scan where
  txs : List (Hash × Bytes × RelayMethod)
  nextCheck : UInt64

/-- Half of the time that a transaction may stay in the pool. -/
def halfLivetime (method : RelayMethod) : UInt64 :=
  (if method = .block then cryptonoteMempoolTxFromAltBlockLivetime
    else cryptonoteMempoolTxLivetime) / 2

/-- A transaction is handed out unless it is too old. -/
def Scan.handOut (scan : Scan) (e : TxpoolEntry) : Scan :=
  if now - e.info.receiveTime ≤ halfLivetime e.info.relayMethod then
    { scan with txs := scan.txs ++ [(e.txid, e.blob, e.info.relayMethod)] }
  else scan

/-- The body of the loop in `get_relayable_transactions`. -/
def scanTx (scan : Scan) (e : TxpoolEntry) : Scan :=
  let last := s.lastRelayedTime e.txid
  if e.info.relayMethod.matchesCategory .relayable && !e.info.pruned && decide (0 < e.info.fee) then
    match e.info.relayMethod with
    | .stem | .forward =>
      if now < last then { scan with nextCheck := min scan.nextCheck last }
      else scan.handOut now e
    | .none => scan
    | .local_ | .fluff | .block =>
      if now - last ≤ getRelayDelay last e.info.receiveTime then scan else scan.handOut now e
  else scan

/-- `get_relayable_transactions`; `none` where it returns `false`. A transaction that is handed out
in stem or forward state gets a new deadline inside a `LockedTXN` that is never committed: its
destructor aborts the batch, and the database keeps the deadline that has come. -/
def getRelayableTransactions : Option (List (Hash × Bytes × RelayMethod)) × RelayPool :=
  if timeTMax < now ∨ timeT now < s.nextCheck then (none, s)
  else
    let scan := s.pool.txes.entries.foldl (s.scanTx now) ⟨[], now + maxRelayableCheck⟩
    (some scan.txs, { s with nextCheck := timeT scan.nextCheck })

/-- The transaction is handed out. -/
def Returns (txid : Hash) : Prop :=
  ∃ txs, (s.getRelayableTransactions now).1 = some txs ∧ ∃ tx ∈ txs, tx.1 = txid

instance (txid : Hash) : Decidable (s.Returns now txid) :=
  match h : (s.getRelayableTransactions now).1 with
  | none => isFalse fun ⟨_, htxs, _⟩ => nomatch h.symm.trans htxs
  | some txs => decidable_of_iff (∃ tx ∈ txs, tx.1 = txid)
      ⟨fun htx => ⟨txs, h, htx⟩, fun ⟨_, htxs, htx⟩ => Option.some.inj (h.symm.trans htxs) ▸ htx⟩

/-! ### What is handed out -/

/-- The transaction may be relayed and waits for a deadline. -/
def isPending (e : TxpoolEntry) : Bool :=
  decide (e.info.relayMethod = .stem ∨ e.info.relayMethod = .forward) && !e.info.pruned &&
    decide (0 < e.info.fee)

theorem state_of_isPending (h : isPending e = true) :
    e.info.relayMethod = .stem ∨ e.info.relayMethod = .forward := by
  simp only [isPending, Bool.and_eq_true, decide_eq_true_eq] at h
  exact h.1.1

/-- The time for a transaction to be relayed, for the first time or again, has come. -/
def isReady (e : TxpoolEntry) : Bool :=
  let last := s.lastRelayedTime e.txid
  !e.info.pruned && decide (0 < e.info.fee) &&
    match e.info.relayMethod with
    | .stem | .forward => !decide (now < last)
    | .none => false
    | .local_ | .fluff | .block => !decide (now - last ≤ getRelayDelay last e.info.receiveTime)

/-- The transaction is ready and not too old. -/
def isHandedOut (e : TxpoolEntry) : Bool :=
  s.isReady now e && decide (now - e.info.receiveTime ≤ halfLivetime e.info.relayMethod)

/-- The deadline of the transaction lies ahead. -/
def isHeld (e : TxpoolEntry) : Bool := isPending e && decide (now < s.lastRelayedTime e.txid)

variable {s now}

theorem handOut_eq (scan : Scan) (e : TxpoolEntry) :
    scan.handOut now e = { scan with
      txs := scan.txs ++ if now - e.info.receiveTime ≤ halfLivetime e.info.relayMethod
        then [(e.txid, e.blob, e.info.relayMethod)] else [] } := by
  rw [Scan.handOut]
  split <;> simp

theorem scanTx_eq (scan : Scan) (e : TxpoolEntry) :
    s.scanTx now scan e =
      ⟨scan.txs ++
          if s.isHandedOut now e then [(e.txid, e.blob, e.info.relayMethod)] else [],
        if s.isHeld now e then min scan.nextCheck (s.lastRelayedTime e.txid)
          else scan.nextCheck⟩ := by
  rw [scanTx, isHandedOut, isReady, isHeld, isPending]
  by_cases hheld : now < s.lastRelayedTime e.txid <;>
    by_cases hwait : now - s.lastRelayedTime e.txid ≤
      getRelayDelay (s.lastRelayedTime e.txid) e.info.receiveTime <;>
    cases hm : e.info.relayMethod <;> cases e.info.pruned <;>
    cases decide (0 < e.info.fee) <;>
    simp [RelayMethod.matchesCategory, handOut_eq, hm, hheld, hwait, -UInt64.not_lt,
      -UInt64.not_le]

/-- **The scan of the pool**, as two selections. -/
theorem foldl_scanTx (l : List TxpoolEntry) (scan : Scan) :
    l.foldl (s.scanTx now) scan =
      ⟨scan.txs ++ (l.filter (s.isHandedOut now)).map fun e => (e.txid, e.blob, e.info.relayMethod),
        (l.filter (s.isHeld now)).foldl (fun n e => min n (s.lastRelayedTime e.txid))
          scan.nextCheck⟩ := by
  induction l generalizing scan with
  | nil => simp
  | cons e l ih =>
    rw [foldl_cons, ih, scanTx_eq]
    simp only [filter_cons]
    congr 1 <;> split <;> simp

theorem returns_iff :
    s.Returns now txid ↔ ¬ (timeTMax < now ∨ timeT now < s.nextCheck) ∧
      ∃ e ∈ s.pool.txes.entries, s.isHandedOut now e = true ∧ e.txid = txid := by
  rw [Returns, getRelayableTransactions]
  split
  · next h => simp [h]
  · next h => simp [h, foldl_scanTx]; grind

/-! ### What `add_tx` does -/

variable {c : Crypto} {p : NodeParams} {chain : Blockchain} {t : TxPool.NewTx}
  {relay : RelayMethod} {version nic : UInt8} {delay : ℕ}

/-- An entry of the pool after `add_tx` has just been stored, or it is one from before. -/
theorem addTx_cases (ha : a ∈ (s.addTx c p now chain t relay version nic delay).pool.txes.entries) :
    (∃ method last, s.pool.stored c p chain now t relay version nic delay = some (method, last) ∧
      a = ⟨t.txid, t.info now method, t.blob⟩ ∧
      (s.addTx c p now chain t relay version nic delay).lastRelayedTime a.txid = last) ∨
    a ∈ s.pool.txes.entries ∧
      ((s.pool.stored c p chain now t relay version nic delay).isSome → a.txid ≠ t.txid) ∧
      (s.addTx c p now chain t relay version nic delay).lastRelayedTime a.txid =
        s.lastRelayedTime a.txid := by
  have hfollows := TxPool.follows_addTx delay ha
  rw [addTx]
  dsimp only
  cases hst : s.pool.stored c p chain now t relay version nic delay with
  | none =>
    rw [hst] at hfollows
    exact .inr ⟨hfollows, fun h => absurd h (by decide), rfl⟩
  | some r =>
    obtain ⟨method, last⟩ := r
    rw [hst] at hfollows
    rcases hfollows with rfl | ⟨hold, hne⟩
    · exact .inl ⟨method, last, rfl, rfl, Function.update_self ..⟩
    · exact .inr ⟨hold, fun _ => hne, Function.update_of_ne hne _ _⟩

theorem addTx_nextCheck_le :
    (s.addTx c p now chain t relay version nic delay).nextCheck ≤ s.nextCheck := by
  rw [addTx]
  dsimp only
  split
  · rw [setIfLess_eq_min]
    exact min_le_left _ _
  · exact le_rfl

theorem addTx_nextCheck_le_of_forward {last : UInt64}
    (h : s.pool.stored c p chain now t relay version nic delay = some (.forward, last)) :
    (s.addTx c p now chain t relay version nic delay).nextCheck ≤ timeT last := by
  rw [addTx, TxPool.storing_of_stored h]
  dsimp only
  rw [setIfLess_eq_min]
  exact min_le_right _ _

end RelayPool

/-! ### What `set_relayed` does -/

/-- `upgrade_relay_method`, on an entry. -/
def TxpoolEntry.raised (method : RelayMethod) (e : TxpoolEntry) : TxpoolEntry :=
  { e with info := { e.info with
      relayMethod := if e.info.relayMethod.value < method.value then method
        else e.info.relayMethod } }

theorem TxpoolEntry.raised_raised (method : RelayMethod) (e : TxpoolEntry) :
    (e.raised method).raised method = e.raised method := by
  simp only [raised]
  split_ifs <;> rfl

theorem TxpoolEntry.value_le_raised (method : RelayMethod) (e : TxpoolEntry) :
    e.info.relayMethod.value ≤ (e.raised method).info.relayMethod.value := by
  rw [raised]
  dsimp only
  split <;> omega

namespace RelayPool

variable {p : NodeParams} {s : RelayPool} {now : UInt64}

/-- `set_relayed` replaces the entry by the raised one. -/
theorem setRelayed1_txes {pool : TxPool} (method : RelayMethod)
    (he : pool.txes.find? e.txid = some e) :
    (pool.setRelayed1 p now method e.txid).txes = pool.txes.put entryBefore (e.raised method) := by
  have hput : (pool.updateTxpoolTx e.txid (e.raised method).info).txes =
      pool.txes.put entryBefore (e.raised method) := by
    rw [TxPool.updateTxpoolTx, he]
    rfl
  rw [TxPool.setRelayed1, TxPool.getTxpoolTxMeta, he, Option.map_some]
  -- the lists do not matter for the table
  exact (apply_ite TxPool.txes _ _ _).trans ((ite_self _).trans hput)

theorem mem_setRelayed1 {pool : TxPool}
    (ha : a ∈ (pool.setRelayed1 p now method txid).txes.entries) :
    ∃ b ∈ pool.txes.entries, a = if b.txid = txid then b.raised method else b := by
  cases hfind : pool.txes.find? txid with
  | none =>
    rw [TxPool.setRelayed1, TxPool.getTxpoolTxMeta, hfind] at ha
    exact ⟨a, ha, (if_neg (Keyed.find?_eq_none.mp hfind a ha)).symm⟩
  | some b =>
    obtain ⟨hb, rfl⟩ := Keyed.find?_eq_some.mp hfind
    rw [setRelayed1_txes method hfind] at ha
    rcases Keyed.mem_put.mp ha with rfl | ⟨ha, hne⟩
    · exact ⟨b, hb, (if_pos rfl).symm⟩
    · exact ⟨a, ha, (if_neg hne).symm⟩

/-- What the loop in `set_relayed` has made of an entry: one that it has met is raised and has a new
time, and if it is in stem state now, then the next check will not be after that time. -/
structure PassedEntry (now : UInt64) (method : RelayMethod) (txs : List (Hash × ℕ)) (s : RelayPool)
    (r : RelayPool × UInt64) (b a : TxpoolEntry) : Prop where
  txid : b.txid = a.txid
  other : a.txid ∉ txs.map Prod.fst → a = b ∧ r.1.lastRelayedTime a.txid = s.lastRelayedTime a.txid
  raised : a.txid ∈ txs.map Prod.fst → a = b.raised method
  stem : a.txid ∈ txs.map Prod.fst → a.info.relayMethod = .stem →
    ∃ tx ∈ txs, r.1.lastRelayedTime a.txid = now + UInt64.ofNat tx.2 ∧
      r.2.toNat ≤ (r.1.lastRelayedTime a.txid).toNat
  relayed : a.txid ∈ txs.map Prod.fst → a.info.relayMethod ≠ .stem →
    r.1.lastRelayedTime a.txid = now

/-- The state of the loop in `set_relayed`. -/
structure Passed (now : UInt64) (method : RelayMethod) (txs : List (Hash × ℕ)) (s : RelayPool)
    (r : RelayPool × UInt64) : Prop where
  nextCheck : r.1.nextCheck = s.nextCheck
  entry : ∀ a ∈ r.1.pool.txes.entries, ∃ b ∈ s.pool.txes.entries, PassedEntry now method txs s r b a

theorem not_mem_of_getTxpoolTxMeta {pool : TxPool} (h : pool.getTxpoolTxMeta txid = none)
    (ha : a ∈ pool.txes.entries) :
    a.txid ≠ txid := fun hid => TxPool.getTxpoolTxMeta_eq_none.mp h
  (Keyed.has_iff_find?.mpr ⟨a, Keyed.find?_eq_some.mpr ⟨ha, hid⟩⟩)

theorem setRelayed1_of_mem (r : RelayPool × UInt64) (method : RelayMethod) (delay : ℕ)
    (he : e ∈ r.1.pool.txes.entries) :
    RelayPool.setRelayed1 p now method r (e.txid, delay) =
      let pool := r.1.pool.setRelayed1 p now method e.txid
      if (e.raised method).info.relayMethod = .stem then
        (⟨pool, Function.update r.1.lastRelayedTime e.txid (now + UInt64.ofNat delay),
          r.1.nextCheck⟩, min r.2 (now + UInt64.ofNat delay))
      else (⟨pool, Function.update r.1.lastRelayedTime e.txid now, r.1.nextCheck⟩, r.2) := by
  rw [RelayPool.setRelayed1, TxPool.getTxpoolTxMeta, Keyed.find?_eq_some.mpr ⟨he, rfl⟩]
  dsimp only [Option.map_some, TxpoolEntry.raised]
  split_ifs <;> rfl

/-- What has been met before stays as it is. -/
theorem PassedEntry.skip {txs : List (Hash × ℕ)} {r r' : RelayPool × UInt64} {a b : TxpoolEntry}
    (h : PassedEntry now method txs s r b a) {tx : Hash × ℕ} (hne : a.txid ≠ tx.1)
    (hle : r'.2.toNat ≤ r.2.toNat)
    (hlast : r'.1.lastRelayedTime a.txid = r.1.lastRelayedTime a.txid) :
    PassedEntry now method (txs ++ [tx]) s r' b a := by
  have hiff : a.txid ∈ (txs ++ [tx]).map Prod.fst ↔ a.txid ∈ txs.map Prod.fst := by simp [hne]
  refine ⟨h.txid, ?_, ?_, ?_, ?_⟩ <;> rw [hiff]
  · rw [hlast]
    exact h.other
  · exact h.raised
  · rw [hlast]
    intro hmem hstem
    obtain ⟨tx', htx', heq, hle'⟩ := h.stem hmem hstem
    exact ⟨tx', mem_append_left _ htx', heq, hle.trans hle'⟩
  · rw [hlast]
    exact h.relayed

/-- One turn of the loop. -/
theorem Passed.setRelayed1 {txs : List (Hash × ℕ)} {r : RelayPool × UInt64}
    (h : Passed now method txs s r) (tx : Hash × ℕ) :
    Passed now method (txs ++ [tx]) s (RelayPool.setRelayed1 p now method r tx) := by
  cases hm : r.1.pool.getTxpoolTxMeta tx.1 with
  | none =>
    rw [RelayPool.setRelayed1, hm]
    refine ⟨h.nextCheck, fun a ha => ?_⟩
    obtain ⟨b, hb, hab⟩ := h.entry a ha
    exact ⟨b, hb, hab.skip (not_mem_of_getTxpoolTxMeta hm ha) le_rfl rfl⟩
  | some m =>
    obtain ⟨e, hfind, -⟩ := Option.map_eq_some_iff.mp hm
    obtain ⟨he, htx⟩ := Keyed.find?_eq_some.mp hfind
    obtain ⟨txid, delay⟩ := tx
    obtain rfl : e.txid = txid := htx
    obtain ⟨e₀, he₀, hpassed⟩ := h.entry e he
    have hraised : e.raised method = e₀.raised method := by
      by_cases hmem : e.txid ∈ txs.map Prod.fst
      · rw [hpassed.raised hmem, TxpoolEntry.raised_raised]
      · rw [(hpassed.other hmem).1]
    have hmem : (e.raised method).txid ∈ (txs ++ [(e.txid, delay)]).map Prod.fst := by
      simp [TxpoolEntry.raised]
    rw [setRelayed1_of_mem r method delay he]
    by_cases hstem : (e.raised method).info.relayMethod = .stem
    · dsimp only
      rw [if_pos hstem]
      refine ⟨h.nextCheck, fun a ha => ?_⟩
      obtain ⟨b, hb, rfl⟩ := mem_setRelayed1 ha
      by_cases hbe : b.txid = e.txid
      · obtain rfl : b = e := Keyed.eq_of_key_eq hb he hbe
        rw [if_pos rfl]
        refine ⟨e₀, he₀, hpassed.txid, fun hnot => absurd hmem hnot, fun _ => hraised,
          fun _ _ => ⟨(b.txid, delay), by simp, Function.update_self .., ?_⟩,
          fun _ hne => absurd hstem hne⟩
        change (min r.2 (now + UInt64.ofNat delay)).toNat ≤ UInt64.toNat
          (Function.update r.1.lastRelayedTime b.txid (now + UInt64.ofNat delay) b.txid)
        rw [Function.update_self, toNat_min]
        exact min_le_right _ _
      · rw [if_neg hbe]
        obtain ⟨b₀, hb₀, hb'⟩ := h.entry b hb
        refine ⟨b₀, hb₀, hb'.skip hbe ?_ (Function.update_of_ne hbe _ _)⟩
        rw [toNat_min]
        exact min_le_left _ _
    · dsimp only
      rw [if_neg hstem]
      refine ⟨h.nextCheck, fun a ha => ?_⟩
      obtain ⟨b, hb, rfl⟩ := mem_setRelayed1 ha
      by_cases hbe : b.txid = e.txid
      · obtain rfl : b = e := Keyed.eq_of_key_eq hb he hbe
        rw [if_pos rfl]
        exact ⟨e₀, he₀, hpassed.txid, fun hnot => absurd hmem hnot, fun _ => hraised,
          fun _ hst => absurd hst hstem, fun _ _ => Function.update_self ..⟩
      · rw [if_neg hbe]
        obtain ⟨b₀, hb₀, hb'⟩ := h.entry b hb
        exact ⟨b₀, hb₀, hb'.skip hbe le_rfl (Function.update_of_ne hbe _ _)⟩

variable (p now) in
theorem passed_foldl (method : RelayMethod) (txs : List (Hash × ℕ)) (s : RelayPool) :
    Passed now method txs s (txs.foldl (RelayPool.setRelayed1 p now method) (s, timeTMax)) := by
  induction txs using reverseRecOn with
  | nil =>
    have hnot : ∀ a : Hash, a ∉ ([] : List (Hash × ℕ)).map Prod.fst := fun _ => not_mem_nil
    exact ⟨rfl, fun a ha => ⟨a, ha, rfl, fun _ => ⟨rfl, rfl⟩, fun h => absurd h (hnot _),
      fun h => absurd h (hnot _), fun h => absurd h (hnot _)⟩⟩
  | append_singleton txs tx ih =>
    rw [foldl_append, foldl_cons, foldl_nil]
    exact ih.setRelayed1 tx

/-! ### What `get_relayable_transactions` changes -/

/-- A call at a time that is not before the next check moves the next check and nothing else. -/
theorem getRelayableTransactions_of_not (h : ¬ (timeTMax < now ∨ timeT now < s.nextCheck)) :
    ∃ n : UInt64, (s.getRelayableTransactions now).2 = { s with nextCheck := timeT n } ∧
      n.toNat ≤ (now + maxRelayableCheck).toNat ∧
      ∀ e ∈ s.pool.txes.entries, s.isHeld now e = true →
        n.toNat ≤ (s.lastRelayedTime e.txid).toNat := by
  rw [getRelayableTransactions, if_neg h]
  dsimp only
  rw [foldl_scanTx]
  obtain ⟨hn, hl⟩ := toNat_foldl_min (fun e => s.lastRelayedTime e.txid)
    (s.pool.txes.entries.filter (s.isHeld now)) (now + maxRelayableCheck)
  exact ⟨_, rfl, hn, fun e he hheld => hl e (mem_filter.mpr ⟨he, hheld⟩)⟩

end RelayPool

end Hidering
