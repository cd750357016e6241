import Hidering.Wallet.Types
import Hidering.Machine.Threads

/-!
# Random bytes for liboqs

liboqs asks for random bytes through one hook of the process. The program installs a hook that looks
at a thread-local pointer: while a seeded key generation runs on a thread, the pointer leads to a
SHAKE256 stream made from the seed, and requests on that thread are served from it; otherwise they
are served from the default entropy source. The pointer is set and reset by a scope around the one
liboqs call that has no derandomised form.

A liboqs operation is modelled as a computation that asks for bytes and goes on with the answer, an
entry point of the program as a sequence of atomic actions (`Action`), and the process as threads
that take turns, one action at a time, in any order. The hook is shared; every other piece of state
belongs to a thread.

What an entry point still has to do is `Isolated` if, in whatever way its requests are answered by
the entropy source, its own requests come from the right source and it returns the right thing with
the pointer reset. This is a property of one thread that no other thread can disturb.

## Main definitions

* `Hidering.OqsOp`, `Hidering.Oqs` — liboqs
* `Hidering.Action`, `Hidering.PqcCall.body` — the entry points
* `Hidering.PqcThread.step` — one action of a thread
* `Hidering.PqcEntry.seededOutput` — what a seeded key generation computes

## Main results

* `Hidering.PqcCall.body_isolated` — every entry point is isolated
* `Hidering.seeded_keygen_isolated` — the interleaving of any threads
-/

namespace Hidering

open Wire Machine Crypto

/-! ### liboqs -/

/-- A liboqs operation: it ends with a result, or asks for random bytes and goes on with them. -/
inductive OqsOp (α : Type)
  | done (result : α)
  | request (len : ℕ) (next : Bytes → OqsOp α)

/-- The operations of liboqs that the program calls. A result of `none` is one other than
`OQS_SUCCESS`. -/
structure Oqs where
  /-- the output stream of SHAKE256 by the bytes it has absorbed -/
  shake256 : Bytes → ℕ → UInt8
  sigKeypair : OqsOp (Option PqDilithiumKeys)
  kemKeypair : OqsOp (Option PqStealthKeys)
  kemKeypairDerand : Bytes → Option PqStealthKeys
  kemEncaps : Blob mlKem768PublicKeyBytes → OqsOp (Option (KyberCiphertext × KyberSharedSecret))
  sigSign : Blob mlDsa65SecretKeyBytes → Bytes → OqsOp (Option Bytes)

/-- `OQS_SHA3_shake256_inc_ctx` after it has been finalized: what it absorbed, and how much has been
squeezed. -/
structure ShakeCtx where
  absorbed : Bytes
  position : ℕ
deriving DecidableEq

variable (oqs : Oqs)

/-- `OQS_SHA3_shake256_inc_squeeze`. -/
def ShakeCtx.squeeze (s : ShakeCtx) (len : ℕ) : Bytes :=
  (List.range len).map fun i => oqs.shake256 s.absorbed (s.position + i)

/-- The context after `len` bytes have been squeezed. -/
def ShakeCtx.advance (s : ShakeCtx) (len : ℕ) : ShakeCtx := { s with position := s.position + len }

/-- `derive_subseed`. -/
def deriveSubseed (domain seed : Bytes) (len : ℕ) : Bytes :=
  ShakeCtx.squeeze oqs ⟨domain ++ seed, 0⟩ len

/-- The domain `HRG_PQ_KEM_v1`. -/
def pqKemDomain : Bytes := asciiBytes
  ['H', 'R', 'G', '_', 'P', 'Q', '_', 'K', 'E', 'M', '_', 'v', '1']
/-- The domain `HRG_PQ_DSA_v1`. -/
def pqDsaDomain : Bytes := asciiBytes
  ['H', 'R', 'G', '_', 'P', 'Q', '_', 'D', 'S', 'A', '_', 'v', '1']
/-- The domain `HRG_BQ_SUBADDR_DSA_v1`. -/
def bqSubaddrDsaDomain : Bytes := asciiBytes
  ['H', 'R', 'G', '_', 'B', 'Q', '_', 'S', 'U', 'B', 'A', 'D', 'D', 'R', '_', 'D', 'S', 'A',
   '_', 'v', '1']
/-- The domain `HRG_BQ_SUBADDR_KEM_v1`. -/
def bqSubaddrKemDomain : Bytes := asciiBytes
  ['H', 'R', 'G', '_', 'B', 'Q', '_', 'S', 'U', 'B', 'A', 'D', 'D', 'R', '_', 'K', 'E', 'M',
   '_', 'v', '1']
/-- The domain `HRG_PQ_OUT_DSA_v1`. -/
def pqOutDsaDomain : Bytes := asciiBytes
  ['H', 'R', 'G', '_', 'P', 'Q', '_', 'O', 'U', 'T', '_', 'D', 'S', 'A', '_', 'v', '1']

/-! ### Actions -/

/-- What an entry point does, in atomic actions: `ensure_oqs_rng_installed`, the constructor and the
destructor of `scoped_det_rng`, and the requests of liboqs. -/
inductive Action (ρ : Type)
  | ret (result : ρ)
  | ensureOqsRngInstalled (next : Action ρ)
  | bindDetRng (stream : ShakeCtx) (next : Option ShakeCtx → Action ρ)
  | unbindDetRng (prev : Option ShakeCtx) (next : Action ρ)
  | request (len : ℕ) (next : Bytes → Action ρ)

/-- Call a liboqs operation and go on with its result. -/
def OqsOp.andThen {α ρ : Type} (k : α → Action ρ) : OqsOp α → Action ρ
  | .done a => k a
  | .request len next => .request len fun bytes => (next bytes).andThen k

/-- Call a liboqs operation within the scope of a `scoped_det_rng`. -/
def OqsOp.withDetRng {α ρ : Type} (stream : ShakeCtx) (op : OqsOp α) (k : α → Action ρ) :
    Action ρ :=
  .bindDetRng stream fun prev => op.andThen fun a => .unbindDetRng prev (k a)

/-- What the entry points return. -/
inductive PqcOutput
  | keys (dsa : PqDilithiumKeys) (kem : PqStealthKeys)
  | dsaKeys (dsa : PqDilithiumKeys)
  | kemKeys (kem : PqStealthKeys)
  | encapsulation (ct : KyberCiphertext) (ss : KyberSharedSecret)
  | signature (sig : Bytes)
deriving DecidableEq

/-- The entry points that reach liboqs with requests for random bytes, or could. -/
inductive PqcEntry
  | keygen
  | keygenFromSeed (seed : Bytes)
  | keygenOutputDsa (ss : KyberSharedSecret) (outputIndex : UInt64)
  | dsaKeygenSubaddress (root : Bytes) (major minor : UInt32)
  | kemKeygenSubaddress (root : Bytes) (major minor : UInt32)
  | sign (sk : Blob mlDsa65SecretKeyBytes) (msg : Bytes)
  | txSign (sk : Blob mlDsa65SecretKeyBytes) (txPrefixHash : Bytes)
  | kemEncaps (pk : Blob mlKem768PublicKeyBytes)
  | stealthEncaps (pk : Blob mlKem768PublicKeyBytes)
deriving DecidableEq

/-- A call of an entry point. `handles` says whether the liboqs objects that it makes are there and
have the expected sizes. -/
structure PqcCall where
  entry : PqcEntry
  handles : Bool
deriving DecidableEq

/-- The keys are to come from a seed. -/
def PqcEntry.seeded : PqcEntry → Bool
  | .keygenFromSeed _ | .keygenOutputDsa _ _ | .dsaKeygenSubaddress _ _ _
  | .kemKeygenSubaddress _ _ _ => true
  | .keygen | .sign _ _ | .txSign _ _ | .kemEncaps _ | .stealthEncaps _ => false

/-- The four bytes of a number, lowest first. -/
def le4 (n : UInt32) : Bytes := (List.range 4).map fun i => (n >>> (8 * i).toUInt32).toUInt8

/-- The eight bytes of a number, lowest first. -/
def le8 (n : UInt64) : Bytes := (List.range 8).map fun i => (n >>> (8 * i).toUInt64).toUInt8

/-- `pqc_keygen_from_seed`. -/
def pqcKeygenFromSeed (handles : Bool) (seed : Bytes) : Action (Option PqcOutput) :=
  if seed = [] then .ret none
  else .ensureOqsRngInstalled <|
    let kemSeed := deriveSubseed oqs pqKemDomain seed 64
    let dsaSeed := deriveSubseed oqs pqDsaDomain seed 32
    if handles then
      let kem := oqs.kemKeypairDerand kemSeed
      oqs.sigKeypair.withDetRng ⟨dsaSeed, 0⟩ fun dsa => .ret (do
        let kem ← kem
        let dsa ← dsa
        some (.keys dsa kem))
    else .ret none

/-- `pqc_dsa_keygen_subaddress`. -/
def pqcDsaKeygenSubaddress (handles : Bool) (root : Bytes) (major minor : UInt32) :
    Action (Option PqcOutput) :=
  if root = [] then .ret none
  else .ensureOqsRngInstalled <|
    let dsaSeed := deriveSubseed oqs bqSubaddrDsaDomain
      (root ++ le4 major ++ le4 minor) 32
    if handles then
      oqs.sigKeypair.withDetRng ⟨dsaSeed, 0⟩ fun dsa => .ret (dsa.map .dsaKeys)
    else .ret none

/-- `pqc_kem_keygen_subaddress`. -/
def pqcKemKeygenSubaddress (handles : Bool) (root : Bytes) (major minor : UInt32) :
    Action (Option PqcOutput) :=
  if root = [] then .ret none
  else .ensureOqsRngInstalled <|
    let kemSeed := deriveSubseed oqs bqSubaddrKemDomain
      (root ++ le4 major ++ le4 minor) 64
    if handles then .ret ((oqs.kemKeypairDerand kemSeed).map .kemKeys) else .ret none

/-- `pqc_keygen`. -/
def pqcKeygen (handles : Bool) : Action (Option PqcOutput) :=
  .ensureOqsRngInstalled <|
    if handles then
      oqs.sigKeypair.andThen fun dsa =>
        match dsa with
        | none => .ret none
        | some dsa => oqs.kemKeypair.andThen fun kem => .ret (kem.map (.keys dsa))
    else .ret none

/-- `pqc_sign`, and `pqc_tx_sign`, which wants a signature of full length. -/
def pqcSign (handles : Bool) (accept : Bytes → Bool) (sk : Blob mlDsa65SecretKeyBytes)
    (msg : Bytes) : Action (Option PqcOutput) :=
  .ensureOqsRngInstalled <|
    if handles then
      (oqs.sigSign sk msg).andThen fun sig => .ret ((sig.filter accept).map .signature)
    else .ret none

/-- `pqc_kem_encaps` and `pqc_stealth_encaps`. -/
def pqcKemEncaps (handles : Bool) (pk : Blob mlKem768PublicKeyBytes) : Action (Option PqcOutput) :=
  .ensureOqsRngInstalled <|
    if handles then
      (oqs.kemEncaps pk).andThen fun r => .ret (r.map fun p => .encapsulation p.1 p.2)
    else .ret none

/-- The seed of `pqc_keygen_output_dsa`. -/
def outputDsaSeed (ss : KyberSharedSecret) (outputIndex : UInt64) : Bytes :=
  pqOutDsaDomain ++ ss.bytes ++ le8 outputIndex

/-- The actions of a call. -/
def PqcCall.body (call : PqcCall) : Action (Option PqcOutput) :=
  match call.entry with
  | .keygen => pqcKeygen oqs call.handles
  | .keygenFromSeed seed => pqcKeygenFromSeed oqs call.handles seed
  | .keygenOutputDsa ss i => pqcKeygenFromSeed oqs call.handles (outputDsaSeed ss i)
  | .dsaKeygenSubaddress root major minor =>
    pqcDsaKeygenSubaddress oqs call.handles root major minor
  | .kemKeygenSubaddress root major minor =>
    pqcKemKeygenSubaddress oqs call.handles root major minor
  | .sign sk msg => pqcSign oqs call.handles (fun _ => true) sk msg
  | .txSign sk hash =>
    pqcSign oqs call.handles (fun sig => sig.length == mlDsa65SignatureBytes) sk hash
  | .kemEncaps pk => pqcKemEncaps oqs call.handles pk
  | .stealthEncaps pk => pqcKemEncaps oqs call.handles pk

/-! ### Threads -/

/-- Where random bytes come from. -/
inductive RandomSource
  | entropy
  | seed (absorbed : Bytes)
deriving DecidableEq

/-- A thread: its pointer, the call that it is in, the calls that are still to come, and the record
of the sources that its requests were served from and of what its calls returned. -/
structure PqcThread where
  detRngStream : Option ShakeCtx
  current : Option (PqcCall × Action (Option PqcOutput))
  calls : List PqcCall
  served : List (PqcCall × RandomSource)
  returned : List (PqcCall × Option PqcOutput)

/-- `len` bytes of the default entropy source. -/
def entropyBytes (entropy : ℕ → UInt8) (len : ℕ) : Bytes := (List.range len).map entropy

/-- `OQS_randombytes` on a thread: the installed hook is `hrg_oqs_randombytes`, and before that the
one of liboqs. -/
def oqsRandombytes (installed : Bool) (stream : Option ShakeCtx) (entropy : ℕ → UInt8) (len : ℕ) :
    Bytes × RandomSource × Option ShakeCtx :=
  match installed, stream with
  | true, some s => (s.squeeze oqs len, .seed s.absorbed, some (s.advance len))
  | _, _ => (entropyBytes entropy len, .entropy, stream)

/-- One action of a thread, with the answer of the entropy source should it be asked. The shared
state says whether the hook is installed. -/
def PqcThread.step (installed : Bool) (t : PqcThread) (entropy : ℕ → UInt8) : Bool × PqcThread :=
  match t.current with
  | none =>
    match t.calls with
    | [] => (installed, t)
    | call :: calls => (installed, { t with current := some (call, call.body oqs), calls := calls })
  | some (call, .ret r) =>
    (installed, { t with current := none, returned := (call, r) :: t.returned })
  | some (call, .ensureOqsRngInstalled next) => (true, { t with current := some (call, next) })
  | some (call, .bindDetRng s next) =>
    (installed,
      { t with detRngStream := some s, current := some (call, next t.detRngStream) })
  | some (call, .unbindDetRng prev next) =>
    (installed, { t with detRngStream := prev, current := some (call, next) })
  | some (call, .request len next) =>
    if len = 0 then (installed, { t with current := some (call, next []) })
    else
      let (bytes, source, stream) := oqsRandombytes oqs installed t.detRngStream entropy len
      (installed,
        { t with
          detRngStream := stream
          current := some (call, next bytes)
          served := (call, source) :: t.served })

/-- A thread before its first call. -/
def PqcThread.init (calls : List PqcCall) : PqcThread := ⟨none, none, calls, [], []⟩

/-! ### What a seeded key generation computes -/

/-- The result of an operation whose requests are all served from a stream. -/
def OqsOp.onStream {α : Type} : ShakeCtx → OqsOp α → α
  | _, .done a => a
  | s, .request len next =>
    if len = 0 then (next []).onStream s else (next (s.squeeze oqs len)).onStream (s.advance len)

/-- What a seeded key generation returns, as a function of its seed: the ML-KEM pair from one
sub-seed, the ML-DSA pair from the stream of the other. Other entry points have no such value. -/
def PqcEntry.seededOutput : PqcEntry → Option PqcOutput
  | .keygenFromSeed seed => keysOf seed
  | .keygenOutputDsa ss i => keysOf (outputDsaSeed ss i)
  | .dsaKeygenSubaddress root major minor =>
    (oqs.sigKeypair.onStream oqs ⟨deriveSubseed oqs bqSubaddrDsaDomain
      (root ++ le4 major ++ le4 minor) 32, 0⟩).map .dsaKeys
  | .kemKeygenSubaddress root major minor =>
    (oqs.kemKeypairDerand (deriveSubseed oqs bqSubaddrKemDomain
      (root ++ le4 major ++ le4 minor) 64)).map .kemKeys
  | _ => none
where
  keysOf (seed : Bytes) : Option PqcOutput := do
    let kem ← oqs.kemKeypairDerand (deriveSubseed oqs pqKemDomain seed 64)
    let dsa ← oqs.sigKeypair.onStream oqs
      ⟨deriveSubseed oqs pqDsaDomain seed 32, 0⟩
    some (.keys dsa kem)

/-- What the keys of a seeded key generation come from. -/
def PqcEntry.seed : PqcEntry → Bytes
  | .keygenFromSeed seed => seed
  | .keygenOutputDsa ss i => outputDsaSeed ss i
  | .dsaKeygenSubaddress root _ _ | .kemKeygenSubaddress root _ _ => root
  | _ => []

/-- What a call of a seeded key generation returns: the keys of its seed, if there is one and liboqs
provides its objects. -/
def PqcCall.seededOutput (call : PqcCall) : Option PqcOutput :=
  if call.handles = true ∧ call.entry.seed ≠ [] then call.entry.seededOutput oqs else none

/-- What may be returned. -/
def PqcCall.Returns (call : PqcCall) (r : Option PqcOutput) : Prop :=
  call.entry.seeded = true → r = call.seededOutput oqs

/-! ### Isolation -/

/-- What is left of a call behaves whatever the entropy source answers: it is served from a stream
only if it is seeded and knows that the hook is installed, and when it returns, the pointer is reset
and the result is one that may be returned. -/
def Isolated (call : PqcCall) : Bool → Option ShakeCtx → Action (Option PqcOutput) → Prop
  | _, stream, .ret r => stream = none ∧ call.Returns oqs r
  | _, stream, .ensureOqsRngInstalled next => Isolated call true stream next
  | known, stream, .bindDetRng s next => Isolated call known (some s) (next stream)
  | known, _, .unbindDetRng prev next => Isolated call known prev next
  | known, stream, .request len next =>
    if len = 0 then Isolated call known stream (next [])
    else match stream with
      | some s => known = true ∧ call.entry.seeded = true ∧
          Isolated call known (some (s.advance len)) (next (s.squeeze oqs len))
      | none => ∀ bytes, Isolated call known none (next bytes)

variable {oqs} {call : PqcCall}

variable {known : Bool}

/-- A request for no bytes is not served at all. -/
theorem isolated_request_zero {stream : Option ShakeCtx} {next : Bytes → Action (Option PqcOutput)}
    (h : Isolated oqs call known stream (.request 0 next)) :
    Isolated oqs call known stream (next []) := by
  cases stream <;> simpa [Isolated] using h

variable {α : Type} {k : α → Action (Option PqcOutput)}

/-- An operation outside of the scopes may be answered anything. -/
theorem OqsOp.andThen_isolated (op : OqsOp α) (hk : ∀ a, Isolated oqs call known none (k a)) :
    Isolated oqs call known none (op.andThen k) := by
  induction op with
  | done a => exact hk a
  | request len next ih =>
    rw [andThen, Isolated]
    split
    · exact ih []
    · exact ih

/-- An operation within a scope computes what it computes from the stream. -/
theorem OqsOp.andThen_isolated_stream (hcall : call.entry.seeded = true) (op : OqsOp α)
    (s : ShakeCtx) (hk : ∀ s', Isolated oqs call true (some s') (k (op.onStream oqs s))) :
    Isolated oqs call true (some s) (op.andThen k) := by
  induction op generalizing s with
  | done a => exact hk s
  | request len next ih =>
    rw [andThen, Isolated]
    rw [onStream] at hk
    split
    case isTrue hlen =>
      rw [if_pos hlen] at hk
      exact ih [] s hk
    case isFalse hlen =>
      rw [if_neg hlen] at hk
      exact ⟨rfl, hcall, ih _ _ hk⟩

theorem OqsOp.withDetRng_isolated (hcall : call.entry.seeded = true) (op : OqsOp α) (s : ShakeCtx)
    (hk : Isolated oqs call true none (k (op.onStream oqs s))) :
    Isolated oqs call true none (op.withDetRng s k) :=
  op.andThen_isolated_stream hcall s fun _ => hk

/-- The form of the seeded entry points. -/
theorem seeded_isolated {a : Action (Option PqcOutput)}
    (ha : call.seededOutput oqs = call.entry.seededOutput oqs → Isolated oqs call true none a) :
    Isolated oqs call false none (if call.entry.seed = [] then .ret none
      else .ensureOqsRngInstalled (if call.handles then a else .ret none)) := by
  split
  case isTrue hseed => exact ⟨rfl, fun _ => (if_neg fun h => h.2 hseed).symm⟩
  case isFalse hseed =>
    rw [Isolated]
    split
    case isTrue hhandles => exact ha (if_pos ⟨hhandles, hseed⟩)
    case isFalse hhandles => exact ⟨rfl, fun _ => (if_neg fun h => hhandles h.1).symm⟩

/-- An entry point that is not seeded may return anything. -/
theorem returns_of_not_seeded (hcall : call.entry.seeded = false) (r : Option PqcOutput) :
    call.Returns oqs r :=
  fun hseeded => absurd (hcall.symm.trans hseeded) Bool.false_ne_true

theorem pqcSign_isolated (handles : Bool) (accept : Bytes → Bool) (sk : Blob mlDsa65SecretKeyBytes)
    (msg : Bytes) (hcall : call.entry.seeded = false) :
    Isolated oqs call false none (pqcSign oqs handles accept sk msg) := by
  rw [pqcSign, Isolated]
  split
  · exact OqsOp.andThen_isolated _ fun _ => ⟨rfl, returns_of_not_seeded hcall _⟩
  · exact ⟨rfl, returns_of_not_seeded hcall _⟩

theorem pqcKemEncaps_isolated (handles : Bool) (pk : Blob mlKem768PublicKeyBytes)
    (hcall : call.entry.seeded = false) :
    Isolated oqs call false none (pqcKemEncaps oqs handles pk) := by
  rw [pqcKemEncaps, Isolated]
  split
  · exact OqsOp.andThen_isolated _ fun _ => ⟨rfl, returns_of_not_seeded hcall _⟩
  · exact ⟨rfl, returns_of_not_seeded hcall _⟩

/-- Every entry point is isolated when it is called. -/
theorem PqcCall.body_isolated (call : PqcCall) : Isolated oqs call false none (call.body oqs) := by
  obtain ⟨entry, handles⟩ := call
  cases entry with
  | keygen =>
    rw [PqcCall.body, pqcKeygen, Isolated]
    split
    · refine OqsOp.andThen_isolated _ fun dsa => ?_
      cases dsa with
      | none => exact ⟨rfl, returns_of_not_seeded rfl _⟩
      | some dsa =>
        exact OqsOp.andThen_isolated _ fun kem => ⟨rfl, returns_of_not_seeded rfl _⟩
    · exact ⟨rfl, returns_of_not_seeded rfl _⟩
  | keygenFromSeed seed =>
    exact seeded_isolated fun h => oqs.sigKeypair.withDetRng_isolated rfl _ ⟨rfl, fun _ => h.symm⟩
  | keygenOutputDsa ss i =>
    exact seeded_isolated fun h => oqs.sigKeypair.withDetRng_isolated rfl _ ⟨rfl, fun _ => h.symm⟩
  | dsaKeygenSubaddress root major minor =>
    exact seeded_isolated fun h => oqs.sigKeypair.withDetRng_isolated rfl _ ⟨rfl, fun _ => h.symm⟩
  | kemKeygenSubaddress root major minor => exact seeded_isolated fun h => ⟨rfl, fun _ => h.symm⟩
  | sign sk msg => exact pqcSign_isolated handles _ sk msg rfl
  | txSign sk hash => exact pqcSign_isolated handles _ sk hash rfl
  | kemEncaps pk => exact pqcKemEncaps_isolated handles pk rfl
  | stealthEncaps pk => exact pqcKemEncaps_isolated handles pk rfl

/-! ### Interleavings -/

variable (oqs) in
/-- The invariant of a thread. A call that knows that the hook is installed is right. -/
structure PqcThread.Isolation (installed : Bool) (t : PqcThread) : Prop where
  served : ∀ e ∈ t.served, e.1.entry.seeded = false → e.2 = .entropy
  returned : ∀ e ∈ t.returned, e.1.Returns oqs e.2
  idle : t.current = none → t.detRngStream = none
  running : ∀ call a, t.current = some (call, a) →
    ∃ known, (known = true → installed = true) ∧ Isolated oqs call known t.detRngStream a

namespace PqcThread

variable {installed : Bool} {t : PqcThread}

/-- The hook stays installed. -/
theorem step_installed (entropy : ℕ → UInt8) (h : installed = true) :
    (t.step oqs installed entropy).1 = true := by
  subst h
  rw [step]
  split
  · split <;> rfl
  · rfl
  · rfl
  · rfl
  · rfl
  · split <;> rfl

/-- The invariant of a thread that is in a call. -/
theorem Isolation.goOn {a : Action (Option PqcOutput)}
    (hserved : ∀ e ∈ t.served, e.1.entry.seeded = false → e.2 = .entropy)
    (hreturned : ∀ e ∈ t.returned, e.1.Returns oqs e.2) (hcurrent : t.current = some (call, a))
    (hknown : known = true → installed = true) (ha : Isolated oqs call known t.detRngStream a) :
    t.Isolation oqs installed := by
  refine ⟨hserved, hreturned, fun h => ?_, fun call' a' h => ?_⟩
  · rw [hcurrent] at h
    cases h
  · obtain ⟨rfl, rfl⟩ := Prod.mk.inj (Option.some.inj (hcurrent.symm.trans h))
    exact ⟨known, hknown, ha⟩

/-- A request is served from a stream only if the call is seeded. -/
theorem Isolation.request {len : ℕ} {next : Bytes → Action (Option PqcOutput)}
    (h : t.Isolation oqs installed) (hlen : len ≠ 0) (hknown : known = true → installed = true)
    (ha : Isolated oqs call known t.detRngStream (.request len next)) (entropy : ℕ → UInt8) :
    Isolation oqs installed
      { t with
        detRngStream := (oqsRandombytes oqs installed t.detRngStream entropy len).2.2
        current := some (call, next (oqsRandombytes oqs installed t.detRngStream entropy len).1)
        served := (call, (oqsRandombytes oqs installed t.detRngStream entropy len).2.1) ::
          t.served } := by
  have hserved : ∀ source, (call.entry.seeded = false → source = .entropy) →
      ∀ e ∈ (call, source) :: t.served, e.1.entry.seeded = false → e.2 = .entropy := by
    intro source hsource e he
    rcases List.mem_cons.mp he with rfl | he
    · exact hsource
    · exact h.served e he
  cases hstream : t.detRngStream with
  | none =>
    rw [hstream, Isolated, if_neg hlen] at ha
    have hbytes : oqsRandombytes oqs installed none entropy len =
        (entropyBytes entropy len, .entropy, none) := by
      cases installed <;> rfl
    rw [hbytes]
    exact Isolation.goOn (hserved _ fun _ => rfl) h.returned rfl hknown (ha _)
  | some s =>
    rw [hstream, Isolated, if_neg hlen] at ha
    obtain ⟨rfl, hcall, ha⟩ := ha
    rw [hknown rfl]
    refine Isolation.goOn (hserved _ fun hfalse => ?_) h.returned rfl (fun _ => rfl) ha
    exact absurd (hfalse.symm.trans hcall) Bool.false_ne_true

/-- One action of a thread keeps its invariant. -/
theorem Isolation.step (h : t.Isolation oqs installed) (entropy : ℕ → UInt8) :
    (t.step oqs installed entropy).2.Isolation oqs (t.step oqs installed entropy).1 := by
  rw [PqcThread.step]
  split
  case h_1 hcurrent =>
    split
    case h_1 => exact h
    case h_2 call calls hcalls =>
      have hbody := @PqcCall.body_isolated oqs call
      rw [← h.idle hcurrent] at hbody
      have hknown : false = true → installed = true := fun hfalse => (nomatch hfalse)
      exact Isolation.goOn h.served h.returned rfl hknown hbody
  case h_2 call r hcurrent =>
    obtain ⟨known, -, hstream, hr⟩ := h.running call _ hcurrent
    refine ⟨h.served, fun e he => ?_, fun _ => hstream, fun _ _ hfalse => (nomatch hfalse)⟩
    rcases List.mem_cons.mp he with rfl | he
    · exact hr
    · exact h.returned e he
  case h_3 call next hcurrent =>
    obtain ⟨known, -, ha⟩ := h.running call _ hcurrent
    exact Isolation.goOn h.served h.returned rfl (fun _ => rfl) ha
  case h_4 call s next hcurrent =>
    obtain ⟨known, hknown, ha⟩ := h.running call _ hcurrent
    exact Isolation.goOn h.served h.returned rfl hknown ha
  case h_5 call prev next hcurrent =>
    obtain ⟨known, hknown, ha⟩ := h.running call _ hcurrent
    exact Isolation.goOn h.served h.returned rfl hknown ha
  case h_6 call len next hcurrent =>
    obtain ⟨known, hknown, ha⟩ := h.running call _ hcurrent
    split
    case isTrue hlen =>
      subst hlen
      exact Isolation.goOn h.served h.returned rfl hknown (isolated_request_zero ha)
    case isFalse hlen => exact h.request hlen hknown ha entropy

theorem Isolation.init (calls : List PqcCall) : (init calls).Isolation oqs installed :=
  ⟨fun _ he => (nomatch he), fun _ he => (nomatch he), fun _ => rfl,
    fun _ _ h => (nomatch h)⟩

end PqcThread

/-- **Seeded key generation is isolated.** Threads make any calls and take turns in any order, the
entropy source answers anything. Then every seeded key generation that returned has returned the keys
of its seed, or nothing if it has no seed or liboqs lacks an object, and every request of another
operation was served from the entropy source. -/
theorem seeded_keygen_isolated {ι : Type} [DecidableEq ι] (oqs : Oqs) (calls : ι → List PqcCall)
    (schedule : List (ι × (ℕ → UInt8))) (i : ι) :
    (∀ e ∈ ((schedule.foldl (turn (fun g t => PqcThread.step oqs g t))
        (false, fun i => PqcThread.init (calls i))).2 i).returned,
      e.1.entry.seeded = true → e.2 = e.1.seededOutput oqs) ∧
    ∀ e ∈ ((schedule.foldl (turn (fun g t => PqcThread.step oqs g t))
        (false, fun i => PqcThread.init (calls i))).2 i).served,
      e.1.entry.seeded = false → e.2 = .entropy := by
  have hall := @turn_invariant ι Bool PqcThread (ℕ → UInt8) _ (fun g t => PqcThread.step oqs g t)
    (fun g t => PqcThread.Isolation oqs g t) (fun g t e h => h.step e) ?_
    (false, fun i => PqcThread.init (calls i)) (fun _ => .init _) schedule i
  · exact ⟨hall.returned, hall.served⟩
  · -- the steps of other threads can only install the hook
    intro g t t' e h
    refine ⟨h.served, h.returned, h.idle, fun call a hcurrent => ?_⟩
    obtain ⟨known, hknown, ha⟩ := h.running call a hcurrent
    exact ⟨known, fun hk => PqcThread.step_installed e (hknown hk), ha⟩

/-- A liboqs whose operations ask for one byte. -/
def Oqs.oneByte : Oqs where
  shake256 _ n := UInt8.ofNat n
  sigKeypair := .request 1 fun _ => .done (some ⟨default, default⟩)
  kemKeypair := .request 1 fun _ => .done none
  kemKeypairDerand _ := some ⟨default, default⟩
  kemEncaps _ := .request 1 fun _ => .done (some (default, default))
  sigSign _ _ := .request 1 fun bytes => .done (some bytes)

/-- Two threads that take seven turns each. -/
def twoThreads (calls : Bool → List PqcCall) : Bool × (Bool → PqcThread) :=
  (List.replicate 7 [(true, fun _ => 7), (false, fun _ => 7)]).flatten.foldl
    (turn fun g t => PqcThread.step .oneByte g t) (false, fun i => PqcThread.init (calls i))

/-- The calls of the two: a seeded key generation, and a signature. -/
def seedAndSign (first : Bool) : List PqcCall :=
  bif first then [⟨.keygenFromSeed [1], true⟩] else [⟨.sign default [], true⟩]

/-- Both return, the first one with the keys of its seed. -/
theorem seeded_keygen_isolated_two :
    ((twoThreads seedAndSign).2 true).returned.map Prod.snd =
        [some (PqcOutput.keys ⟨default, default⟩ ⟨default, default⟩)] ∧
      ((twoThreads seedAndSign).2 false).returned.map Prod.snd = [some (PqcOutput.signature [7])] ∧
      ∀ e ∈ ((twoThreads seedAndSign).2 true).returned, e.1.entry.seeded = true →
        e.2 = e.1.seededOutput .oneByte :=
  ⟨by decide +kernel, by decide +kernel, (seeded_keygen_isolated .oneByte seedAndSign _ true).1⟩

end Hidering
