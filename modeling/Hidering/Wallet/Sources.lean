import Hidering.Basic.Crypto
import Hidering.Wallet.Types

/-!
# The sources of a transfer

The loop of `transfer_selected_rct` that turns the selected transfers and the rows of ring members
from the daemon into the sources of a transaction. The loop walks over the transfers and, with an
index of its own, over the rows. A row without the transfer's own output leaves the source as it
was created and does not advance the row index, so every later transfer reads the row before its
own.

## Main definitions

* `Hidering.buildSources` — the loop; a read behind the end of a row is undefined behaviour
* `Hidering.SourceMatches` — a source is the one of its transfer, over a row
* `Hidering.RowsComplete` — every row is long enough and has the output of its transfer
* `Hidering.Throws` — some round cannot read its row, or has no key to paste in

## Main results

* `Hidering.buildSourcesFrom_eq_thrown` — when the loop throws
* `Hidering.buildSources_iff_rowsComplete` — the loop throws or gives the sources of the transfers
  exactly if a round throws or the rows are complete
-/

namespace Hidering

open Wire List

/-- `get_outs_entry`: index, key and commitment of a ring member. -/
structure OutsEntry where
  globalIndex : UInt64
  key : PublicKey
  mask : Key
deriving DecidableEq

/-- The member as an output of a source. -/
def OutsEntry.toOutput (e : OutsEntry) : UInt64 × CtKey := (e.globalIndex, ⟨e.key, e.mask⟩)

/-- What the wallet has, beside the transfers: whether it is multisig, and
`recover_pq_spend_secret`. -/
structure SourceContext where
  crypto : Crypto
  multisig : Bool
  recoverPqSpendSecret : TransferDetails → Option (KyberSharedSecret × KyberCiphertext)

/-- How a loop of the wallet ends. -/
inductive LoopOutcome (α : Type) where
  | thrown
  /-- it has read behind the end of a vector -/
  | undefined
  | done (a : α)
deriving DecidableEq

/-- The outcome of a loop whose first round ended with `a`. -/
def LoopOutcome.cons {α : Type} (a : α) : LoopOutcome (List α) → LoopOutcome (List α)
  | .done as => .done (a :: as)
  | .thrown => .thrown
  | .undefined => .undefined

/-! ### The loop -/

section Loop

variable (w : SourceContext) (fakeOutputsCount : ℕ) (outs : List (List OutsEntry))

/-- A source with the ring of `row`, before the real output is pasted in. -/
def bareSource (td : TransferDetails) (row : List OutsEntry) : TxSourceEntry :=
  { outputs := (row.take (fakeOutputsCount + 1)).map OutsEntry.toOutput
    amount := td.amount, rct := td.rct }

/-- Where the transfer's own output stands in the ring. -/
def realPosition (td : TransferDetails) (row : List OutsEntry) : Option ℕ :=
  (row.take (fakeOutputsCount + 1)).findIdx? fun e => e.globalIndex == td.globalOutputIndex

/-- `real_oe`. -/
def realOutputEntry (td : TransferDetails) (key : PublicKey) : UInt64 × CtKey :=
  (td.globalOutputIndex, ⟨key, w.crypto.commit td.amount td.mask⟩)

/-- The source of a transfer whose own output stands at `pos` in `row`. -/
def fullSource (td : TransferDetails) (row : List OutsEntry) (pos : ℕ) (key : PublicKey) :
    TxSourceEntry :=
  let bare := bareSource fakeOutputsCount td row
  let pq := w.recoverPqSpendSecret td
  { bare with
    outputs := bare.outputs.set pos (realOutputEntry w td key)
    realOutput := pos
    realOutTxKey := getTxPubKeyFromExtra td.tx.extra td.pkIndex
    realOutAdditionalTxKeys := getAdditionalTxPubKeysFromExtra td.tx.extra
    realOutputInTxIndex := td.internalOutputIndex
    mask := td.mask
    multisigKi := if w.multisig then td.keyImage else default
    isPq := pq.isSome
    pqSs := pq.map (·.1)
    pqCt := pq.map (·.2)
    pqSubaddr := pq.map fun _ => td.subaddrIndex }

/-- One round: the source, and whether the row index advances. -/
def sourceRound (outIndex : ℕ) (td : TransferDetails) : LoopOutcome (TxSourceEntry × Bool) :=
  match outs[outIndex]? with
  | none => .thrown
  | some row =>
    if row.length < fakeOutputsCount then .thrown
    else if row.length < fakeOutputsCount + 1 then .undefined
    else
      match realPosition fakeOutputsCount td row with
      | none => .done (bareSource fakeOutputsCount td row, false)
      | some pos =>
        match td.getPublicKey with
        | none => .thrown
        | some key => .done (fullSource w fakeOutputsCount td row pos key, true)

/-- The loop over the selected transfers, from the row `outIndex`. -/
def buildSourcesFrom : ℕ → List TransferDetails → LoopOutcome (List TxSourceEntry)
  | _, [] => .done []
  | outIndex, td :: rest =>
    match sourceRound w fakeOutputsCount outs outIndex td with
    | .thrown => .thrown
    | .undefined => .undefined
    | .done (src, true) => (buildSourcesFrom (outIndex + 1) rest).cons src
    | .done (src, false) => (buildSourcesFrom outIndex rest).cons src

/-- The source loop of `transfer_selected_rct`. -/
def buildSources (selected : List TransferDetails) : LoopOutcome (List TxSourceEntry) :=
  buildSourcesFrom w fakeOutputsCount outs 0 selected

/-! ### Sources that match their transfers -/

/-- The source `src` is the one of `td` over the ring `row`: the members are those of the row but
for the real output, which is that of the transfer, and so is everything else. -/
structure SourceMatches (td : TransferDetails) (row : List OutsEntry) (src : TxSourceEntry) :
    Prop where
  ring : ∀ key, td.getPublicKey = some key → src.outputs =
    ((row.take (fakeOutputsCount + 1)).map OutsEntry.toOutput).set src.realOutput
      (realOutputEntry w td key)
  real : ∃ key, td.getPublicKey = some key ∧
    src.outputs[src.realOutput]? = some (realOutputEntry w td key)
  member : ∃ e, row[src.realOutput]? = some e ∧ e.globalIndex = td.globalOutputIndex
  amount : src.amount = td.amount
  realOutTxKey : src.realOutTxKey = getTxPubKeyFromExtra td.tx.extra td.pkIndex
  realOutAdditionalTxKeys :
    src.realOutAdditionalTxKeys = getAdditionalTxPubKeysFromExtra td.tx.extra
  realOutputInTxIndex : src.realOutputInTxIndex = td.internalOutputIndex
  mask : src.mask = td.mask
  isPq : src.isPq = (w.recoverPqSpendSecret td).isSome
  pqSs : src.pqSs = (w.recoverPqSpendSecret td).map (·.1)
  pqCt : src.pqCt = (w.recoverPqSpendSecret td).map (·.2)
  pqSubaddr : src.pqSubaddr = (w.recoverPqSpendSecret td).map fun _ => td.subaddrIndex

/-- Source `k` is the one of transfer `k` over row `outIndex + k`. -/
def SourcesMatchFrom (outIndex : ℕ) (selected : List TransferDetails)
    (sources : List TxSourceEntry) : Prop :=
  sources.length = selected.length ∧
    ∀ k td src, selected[k]? = some td → sources[k]? = some src →
      ∃ row, outs[outIndex + k]? = some row ∧ SourceMatches w fakeOutputsCount td row src

/-- The row is long enough and has the output of the transfer among the members that are used. -/
def RowComplete (td : TransferDetails) (row : List OutsEntry) : Prop :=
  fakeOutputsCount < row.length ∧
    ∃ e ∈ row.take (fakeOutputsCount + 1), e.globalIndex = td.globalOutputIndex

/-- There is a complete row for every transfer, from row `outIndex` on. -/
def RowsCompleteFrom (outIndex : ℕ) (selected : List TransferDetails) : Prop :=
  ∀ k td, selected[k]? = some td →
    ∃ row, outs[outIndex + k]? = some row ∧ RowComplete fakeOutputsCount td row

/-- There is a complete row for every transfer. -/
def RowsComplete (selected : List TransferDetails) : Prop :=
  RowsCompleteFrom fakeOutputsCount outs 0 selected

/-- The row that is read after the rounds of the given transfers, of which those that have found
their output have moved on. -/
def rowAfter (outIndex : ℕ) (before : List TransferDetails) : ℕ :=
  before.foldl (fun k td =>
    if ((outs[k]?).bind (realPosition fakeOutputsCount td)).isSome then k + 1 else k) outIndex

/-- The round of the transfer throws over the row: there is none, or it is too short, or it has the
output and the transfer has no key. -/
def Stops (row : Option (List OutsEntry)) (td : TransferDetails) : Prop :=
  ∀ r, row = some r → r.length < fakeOutputsCount ∨
    RowComplete fakeOutputsCount td r ∧ td.getPublicKey = none

/-- Some round throws, and neither it nor one before it has a row that lacks just one member. -/
def Throws (outIndex : ℕ) (selected : List TransferDetails) : Prop :=
  ∃ n td, selected[n]? = some td ∧
    Stops fakeOutputsCount outs[rowAfter fakeOutputsCount outs outIndex (selected.take n)]? td ∧
    ∀ m ≤ n, ∀ row, outs[rowAfter fakeOutputsCount outs outIndex (selected.take m)]? = some row →
      row.length ≠ fakeOutputsCount

variable {w fakeOutputsCount outs}

variable {td : TransferDetails} {row : List OutsEntry}

theorem realPosition_eq_some {pos : ℕ} (h : realPosition fakeOutputsCount td row = some pos) :
    pos < fakeOutputsCount + 1 ∧ ∃ e, row[pos]? = some e ∧
      e.globalIndex = td.globalOutputIndex := by
  obtain ⟨hpos, hfound, -⟩ := findIdx?_eq_some_iff_getElem.mp h
  have htake : pos < fakeOutputsCount + 1 ∧ pos < row.length := by
    simpa [length_take] using hpos
  refine ⟨htake.1, row[pos], getElem?_eq_getElem htake.2, ?_⟩
  simpa [getElem_take] using hfound

theorem realPosition_isSome :
    (realPosition fakeOutputsCount td row).isSome ↔
      ∃ e ∈ row.take (fakeOutputsCount + 1), e.globalIndex = td.globalOutputIndex := by
  rw [realPosition, findIdx?_isSome, any_eq_true]
  simp only [beq_iff_eq]

theorem fullSource_matches {pos : ℕ} {key : PublicKey} (hlen : fakeOutputsCount < row.length)
    (hpos : realPosition fakeOutputsCount td row = some pos) (hkey : td.getPublicKey = some key) :
    SourceMatches w fakeOutputsCount td row (fullSource w fakeOutputsCount td row pos key) := by
  obtain ⟨hbound, e, he, hindex⟩ := realPosition_eq_some hpos
  constructor
  case ring =>
    intro key' hkey'
    rw [hkey, Option.some.injEq] at hkey'
    rw [← hkey']
    rfl
  case real =>
    refine ⟨key, hkey, ?_⟩
    have hmembers : pos < (bareSource fakeOutputsCount td row).outputs.length := by
      simp only [bareSource, length_map, length_take]
      omega
    exact getElem?_set_self hmembers
  case member => exact ⟨e, he, hindex⟩
  all_goals rfl

/-- A source without the output of its transfer does not match it. -/
theorem bareSource_not_matches {row row' : List OutsEntry}
    (hpos : realPosition fakeOutputsCount td row = none) :
    ¬ SourceMatches w fakeOutputsCount td row' (bareSource fakeOutputsCount td row) := by
  intro hmatch
  obtain ⟨key, -, hreal⟩ := hmatch.real
  obtain ⟨e, he, heq⟩ := mem_map.mp (mem_of_getElem? hreal)
  have hnone : ¬ (realPosition fakeOutputsCount td row).isSome := by simp [hpos]
  exact hnone (realPosition_isSome.mpr ⟨e, he, congrArg Prod.fst heq⟩)

/-! ### One round -/

/-- What a round can do. -/
theorem sourceRound_cases (w : SourceContext) (fakeOutputsCount : ℕ) (outs : List (List OutsEntry))
    (outIndex : ℕ) (td : TransferDetails) :
    (sourceRound w fakeOutputsCount outs outIndex td = .thrown ∧
      Stops fakeOutputsCount outs[outIndex]? td) ∨
    (∃ row, outs[outIndex]? = some row ∧ row.length = fakeOutputsCount ∧
      sourceRound w fakeOutputsCount outs outIndex td = .undefined) ∨
    (∃ row, outs[outIndex]? = some row ∧ fakeOutputsCount < row.length ∧
      realPosition fakeOutputsCount td row = none ∧
      sourceRound w fakeOutputsCount outs outIndex td =
        .done (bareSource fakeOutputsCount td row, false)) ∨
    ∃ row pos key, outs[outIndex]? = some row ∧ fakeOutputsCount < row.length ∧
      realPosition fakeOutputsCount td row = some pos ∧ td.getPublicKey = some key ∧
      sourceRound w fakeOutputsCount outs outIndex td =
        .done (fullSource w fakeOutputsCount td row pos key, true) := by
  rw [sourceRound]
  split
  case h_1 hrow => exact .inl ⟨rfl, fun r hr => by rw [hrow] at hr; cases hr⟩
  case h_2 row hrow =>
    rw [hrow]
    split
    case isTrue hshort => exact .inl ⟨rfl, fun r hr => .inl (Option.some.inj hr ▸ hshort)⟩
    case isFalse hshort =>
      split
      case isTrue hone => exact .inr (.inl ⟨row, rfl, by omega, rfl⟩)
      case isFalse hlong =>
        have hlen : fakeOutputsCount < row.length := by omega
        split
        case h_1 hpos => exact .inr (.inr (.inl ⟨row, rfl, hlen, hpos, rfl⟩))
        case h_2 pos hpos =>
          split
          case h_1 hkey =>
            have hmem := realPosition_isSome.mp (Option.isSome_of_eq_some hpos)
            exact .inl ⟨rfl, fun r hr => .inr ⟨Option.some.inj hr ▸ ⟨hlen, hmem⟩, hkey⟩⟩
          case h_2 key hkey =>
            exact .inr (.inr (.inr ⟨row, pos, key, rfl, hlen, hpos, hkey, rfl⟩))

theorem Stops.length_ne (h : Stops fakeOutputsCount (some row) td) :
    row.length ≠ fakeOutputsCount := by
  rcases h row rfl with hshort | ⟨⟨hlong, -⟩, -⟩
  · exact hshort.ne
  · exact hlong.ne'

variable {rest : List TransferDetails} {outIndex : ℕ}

theorem rowsCompleteFrom_cons :
    RowsCompleteFrom fakeOutputsCount outs outIndex (td :: rest) ↔
      (∃ row, outs[outIndex]? = some row ∧ RowComplete fakeOutputsCount td row) ∧
        RowsCompleteFrom fakeOutputsCount outs (outIndex + 1) rest := by
  constructor
  · intro h
    refine ⟨h 0 td rfl, fun k td' hk => ?_⟩
    have hnext := h (k + 1) td' (by simpa using hk)
    rwa [show outIndex + (k + 1) = outIndex + 1 + k by omega] at hnext
  · rintro ⟨hhead, htail⟩ (_ | k) td' hk
    · obtain rfl : td = td' := by simpa using hk
      exact hhead
    · have hnext := htail k td' (by simpa using hk)
      rwa [show outIndex + 1 + k = outIndex + (k + 1) by omega] at hnext

theorem sourcesMatchFrom_cons {src : TxSourceEntry} {sources : List TxSourceEntry} :
    SourcesMatchFrom w fakeOutputsCount outs outIndex (td :: rest) (src :: sources) ↔
      (∃ row, outs[outIndex]? = some row ∧ SourceMatches w fakeOutputsCount td row src) ∧
        SourcesMatchFrom w fakeOutputsCount outs (outIndex + 1) rest sources := by
  constructor
  · rintro ⟨hlen, h⟩
    refine ⟨h 0 td src rfl rfl, by simpa using hlen, fun k td' src' hk hsrc => ?_⟩
    have hnext := h (k + 1) td' src' (by simpa using hk) (by simpa using hsrc)
    rwa [show outIndex + (k + 1) = outIndex + 1 + k by omega] at hnext
  · rintro ⟨hhead, hlen, htail⟩
    refine ⟨by simpa using hlen, ?_⟩
    rintro (_ | k) td' src' hk hsrc
    · obtain rfl : td = td' := by simpa using hk
      obtain rfl : src = src' := by simpa using hsrc
      exact hhead
    · have hnext := htail k td' src' (by simpa using hk) (by simpa using hsrc)
      rwa [show outIndex + 1 + k = outIndex + (k + 1) by omega] at hnext

theorem throws_cons :
    Throws fakeOutputsCount outs outIndex (td :: rest) ↔
      (∀ row, outs[outIndex]? = some row → row.length ≠ fakeOutputsCount) ∧
        (Stops fakeOutputsCount outs[outIndex]? td ∨
          Throws fakeOutputsCount outs (rowAfter fakeOutputsCount outs outIndex [td]) rest) := by
  constructor
  · rintro ⟨_ | n, td', htd, hstops, hlen⟩
    · obtain rfl := Option.some.inj htd
      exact ⟨hlen 0 le_rfl, .inl hstops⟩
    · exact ⟨hlen 0 (Nat.zero_le _),
        .inr ⟨n, td', htd, hstops, fun m hm => hlen (m + 1) (Nat.succ_le_succ hm)⟩⟩
  · rintro ⟨hhead, hstops | ⟨n, td', htd, hstops, hlen⟩⟩
    · refine ⟨0, td, rfl, hstops, fun m hm => ?_⟩
      obtain rfl := Nat.le_zero.mp hm
      exact hhead
    · refine ⟨n + 1, td', htd, hstops, ?_⟩
      rintro (_ | m) hm
      · exact hhead
      · exact hlen m (Nat.le_of_succ_le_succ hm)

/-- A round that does not throw passes the question on. -/
theorem throws_cons_of_not (hrow : outs[outIndex]? = some row) (hlen : fakeOutputsCount < row.length)
    (hnot : ¬ RowComplete fakeOutputsCount td row ∨ td.getPublicKey ≠ none) :
    Throws fakeOutputsCount outs outIndex (td :: rest) ↔
      Throws fakeOutputsCount outs (rowAfter fakeOutputsCount outs outIndex [td]) rest := by
  have hgoes : ¬ Stops fakeOutputsCount outs[outIndex]? td := by
    intro hstops
    rcases hstops row hrow with hshort | ⟨hcomplete, hkey⟩
    · omega
    · exact hnot.elim (fun h => h hcomplete) fun h => h hkey
  rw [throws_cons, or_iff_right hgoes, and_iff_right]
  intro row' hrow'
  obtain rfl := Option.some.inj (hrow.symm.trans hrow')
  exact hlen.ne'

/-! ### The whole loop -/

theorem LoopOutcome.cons_eq_done {α : Type} {a : α} {o : LoopOutcome (List α)} {as : List α} :
    o.cons a = .done as ↔ ∃ tl, o = .done tl ∧ as = a :: tl := by
  cases o <;> simp [LoopOutcome.cons, eq_comm]

theorem LoopOutcome.cons_eq_thrown {α : Type} {a : α} {o : LoopOutcome (List α)} :
    o.cons a = .thrown ↔ o = .thrown := by
  cases o <;> simp [LoopOutcome.cons]

/-- **When the loop throws**, in terms of the rows and the transfers. -/
theorem buildSourcesFrom_eq_thrown (outIndex : ℕ) (selected : List TransferDetails) :
    buildSourcesFrom w fakeOutputsCount outs outIndex selected = .thrown ↔
      Throws fakeOutputsCount outs outIndex selected := by
  induction selected generalizing outIndex with
  | nil =>
    refine iff_of_false (by simp [buildSourcesFrom]) ?_
    rintro ⟨n, td, htd, -⟩
    simp at htd
  | cons td rest ih =>
    rcases sourceRound_cases w fakeOutputsCount outs outIndex td with ⟨hround, hstops⟩ |
      ⟨row, hrow, hlen, hround⟩ | ⟨row, hrow, hlen, hpos, hround⟩ |
      ⟨row, pos, key, hrow, hlen, hpos, hkey, hround⟩
    all_goals rw [buildSourcesFrom, hround]
    · exact iff_of_true rfl
        (throws_cons.mpr ⟨fun row hrow => Stops.length_ne (hrow ▸ hstops), .inl hstops⟩)
    · exact iff_of_false (by simp) fun h => (throws_cons.mp h).1 row hrow hlen
    · have hsame : rowAfter fakeOutputsCount outs outIndex [td] = outIndex := by
        simp [rowAfter, hrow, hpos]
      have hmiss : ¬ RowComplete fakeOutputsCount td row := by
        rintro ⟨-, hmem⟩
        simpa [hpos] using realPosition_isSome.mpr hmem
      rw [LoopOutcome.cons_eq_thrown, ih, throws_cons_of_not hrow hlen (.inl hmiss), hsame]
    · have hnext : rowAfter fakeOutputsCount outs outIndex [td] = outIndex + 1 := by
        simp [rowAfter, hrow, hpos]
      rw [LoopOutcome.cons_eq_thrown, ih, throws_cons_of_not hrow hlen (.inr (by simp [hkey])), hnext]

/-- The loop ends well from row `outIndex`. -/
def EndsWell (w : SourceContext) (fakeOutputsCount : ℕ) (outs : List (List OutsEntry))
    (outIndex : ℕ) (selected : List TransferDetails) : Prop :=
  buildSourcesFrom w fakeOutputsCount outs outIndex selected = .thrown ∨
    ∃ sources, buildSourcesFrom w fakeOutputsCount outs outIndex selected = .done sources ∧
      SourcesMatchFrom w fakeOutputsCount outs outIndex selected sources

/-- A round that found its output passes the question on to the next round and the next row. -/
theorem endsWell_cons {src : TxSourceEntry} (hrow : outs[outIndex]? = some row)
    (hmatch : SourceMatches w fakeOutputsCount td row src)
    (hround : sourceRound w fakeOutputsCount outs outIndex td = .done (src, true)) :
    EndsWell w fakeOutputsCount outs outIndex (td :: rest) ↔
      EndsWell w fakeOutputsCount outs (outIndex + 1) rest := by
  have hloop : buildSourcesFrom w fakeOutputsCount outs outIndex (td :: rest) =
      (buildSourcesFrom w fakeOutputsCount outs (outIndex + 1) rest).cons src := by
    rw [buildSourcesFrom, hround]
  rw [EndsWell, EndsWell, hloop, LoopOutcome.cons_eq_thrown]
  refine or_congr_right ⟨?_, ?_⟩
  · rintro ⟨sources, hdone, hsources⟩
    obtain ⟨tl, htl, rfl⟩ := LoopOutcome.cons_eq_done.mp hdone
    exact ⟨tl, htl, (sourcesMatchFrom_cons.mp hsources).2⟩
  · rintro ⟨tl, htl, hsources⟩
    exact ⟨src :: tl, LoopOutcome.cons_eq_done.mpr ⟨tl, htl, rfl⟩,
      sourcesMatchFrom_cons.mpr ⟨⟨row, hrow, hmatch⟩, hsources⟩⟩

/-- A round that missed its output spoils the sources, unless a later round throws. -/
theorem endsWell_of_miss (hpos : realPosition fakeOutputsCount td row = none)
    (hround : sourceRound w fakeOutputsCount outs outIndex td =
      .done (bareSource fakeOutputsCount td row, false)) :
    EndsWell w fakeOutputsCount outs outIndex (td :: rest) ↔
      buildSourcesFrom w fakeOutputsCount outs outIndex (td :: rest) = .thrown := by
  refine ⟨?_, .inl⟩
  rintro (hthrown | ⟨sources, hdone, hsources⟩)
  · exact hthrown
  · rw [buildSourcesFrom, hround] at hdone
    obtain ⟨tl, -, rfl⟩ := LoopOutcome.cons_eq_done.mp hdone
    obtain ⟨⟨row', -, hmatch⟩, -⟩ := sourcesMatchFrom_cons.mp hsources
    exact absurd hmatch (bareSource_not_matches hpos)

/-- From any row on, the loop ends well exactly if it throws or the rows are complete. -/
theorem endsWell_iff (outIndex : ℕ) (selected : List TransferDetails) :
    EndsWell w fakeOutputsCount outs outIndex selected ↔
      RowsCompleteFrom fakeOutputsCount outs outIndex selected ∨
        buildSourcesFrom w fakeOutputsCount outs outIndex selected = .thrown := by
  induction selected generalizing outIndex with
  | nil =>
    refine iff_of_true (.inr ⟨[], rfl, rfl, ?_⟩) (.inl ?_)
    · intro k td src hk
      simp at hk
    · intro k td hk
      simp at hk
  | cons td rest ih =>
    rcases sourceRound_cases w fakeOutputsCount outs outIndex td with ⟨hround, -⟩ |
      ⟨row, hrow, hlen, hround⟩ | ⟨row, hrow, -, hpos, hround⟩ |
      ⟨row, pos, key, hrow, hlen, hpos, hkey, hround⟩
    · have hthrown : buildSourcesFrom w fakeOutputsCount outs outIndex (td :: rest) = .thrown := by
        rw [buildSourcesFrom, hround]
      exact iff_of_true (.inl hthrown) (.inr hthrown)
    · have hundefined :
          buildSourcesFrom w fakeOutputsCount outs outIndex (td :: rest) = .undefined := by
        rw [buildSourcesFrom, hround]
      refine iff_of_false ?_ ?_
      · rw [EndsWell, hundefined]
        simp
      · rw [hundefined, rowsCompleteFrom_cons]
        rintro (⟨⟨row', hrow', hlong, -⟩, -⟩ | hthrown)
        · obtain rfl := Option.some.inj (hrow.symm.trans hrow')
          omega
        · cases hthrown
    · rw [endsWell_of_miss hpos hround]
      refine (or_iff_right ?_).symm
      intro hrows
      obtain ⟨⟨row', hrow', -, hmem⟩, -⟩ := rowsCompleteFrom_cons.mp hrows
      obtain rfl := Option.some.inj (hrow.symm.trans hrow')
      simpa [hpos] using realPosition_isSome.mpr hmem
    · have hnext : buildSourcesFrom w fakeOutputsCount outs outIndex (td :: rest) = .thrown ↔
          buildSourcesFrom w fakeOutputsCount outs (outIndex + 1) rest = .thrown := by
        rw [buildSourcesFrom, hround, LoopOutcome.cons_eq_thrown]
      have hcomplete : RowComplete fakeOutputsCount td row :=
        ⟨hlen, realPosition_isSome.mp (Option.isSome_of_eq_some hpos)⟩
      rw [endsWell_cons hrow (fullSource_matches hlen hpos hkey) hround, ih, hnext,
        rowsCompleteFrom_cons, and_iff_right ⟨row, hrow, hcomplete⟩]

end Loop

/-- **Sources match their transfers.** Over any rows, the loop throws or gives every transfer its
own source exactly if every row is complete or a round throws before a row is overread. -/
theorem buildSources_iff_rowsComplete (w : SourceContext) (fakeOutputsCount : ℕ)
    (outs : List (List OutsEntry)) (selected : List TransferDetails) :
    (buildSources w fakeOutputsCount outs selected = .thrown ∨
      ∃ sources, buildSources w fakeOutputsCount outs selected = .done sources ∧
        SourcesMatchFrom w fakeOutputsCount outs 0 selected sources) ↔
    RowsComplete fakeOutputsCount outs selected ∨ Throws fakeOutputsCount outs 0 selected := by
  rw [← buildSourcesFrom_eq_thrown (w := w)]
  exact endsWell_iff 0 selected

/-! ### A row without the real output -/

/-- A transfer of a transaction with one output, at global index `i`. -/
def lostTransfer (i : UInt64) : TransferDetails where
  blockHeight := 1
  tx :=
    { version := 2, unlockTime := 0, vin := [], vout := [⟨0, .toKey default⟩], extra := [] }
  txid := default
  internalOutputIndex := 0
  globalOutputIndex := i
  keyImage := default
  mask := default
  amount := 7
  rct := true
  subaddrIndex := default

/-- A wallet without post-quantum keys. -/
def classicContext : SourceContext := ⟨Crypto.transparent, false, fun _ => none⟩

/-- A ring of one member. -/
def lostRow (i : UInt64) : List OutsEntry := [⟨i, default, default⟩]

/-- The rows of transfers 5 and 6 in the wrong order: the first transfer gets a source that does
not have its output, the second finds its own in the row of the first. No exception is thrown. -/
theorem buildSources_misses :
    [lostTransfer 5, lostTransfer 6].Pairwise
        (fun a b => a.globalOutputIndex ≠ b.globalOutputIndex) ∧
      ¬ (buildSources classicContext 0 [lostRow 6, lostRow 5] [lostTransfer 5, lostTransfer 6] =
          .thrown ∨
        ∃ sources, buildSources classicContext 0 [lostRow 6, lostRow 5]
            [lostTransfer 5, lostTransfer 6] = .done sources ∧
          SourcesMatchFrom classicContext 0 [lostRow 6, lostRow 5] 0
            [lostTransfer 5, lostTransfer 6] sources) := by
  refine ⟨by decide, ?_⟩
  have hpos : realPosition 0 (lostTransfer 5) (lostRow 6) = none := by decide
  have hround : sourceRound classicContext 0 [lostRow 6, lostRow 5] 0 (lostTransfer 5) =
      .done (bareSource 0 (lostTransfer 5) (lostRow 6), false) := rfl
  have hloop : buildSources classicContext 0 [lostRow 6, lostRow 5]
      [lostTransfer 5, lostTransfer 6] ≠ .thrown := by
    decide +kernel
  intro hends
  exact hloop ((endsWell_of_miss hpos hround).mp hends)

end Hidering
