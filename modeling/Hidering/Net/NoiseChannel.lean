import Mathlib.Data.List.Infix

/-!
# Noise channels

Over an anonymity network a node sends packets of one size at random times, whether it has anything
to say or not. A channel holds a queue of messages, each a multiple of the packet size. The front
message is copied to `active` and sent slice by slice; it stays in the queue until its last slice
has been sent, so that it is sent again from the start if the connection is lost or replaced.

The steps are those that run on the strand of one channel. Timers and the choice of the next
connections are left out: `update_channel` comes with any connection, and every send may fail.

## Main definitions

* `Hidering.NoiseChannel.queueCovertNotify`, `updateChannel`, `sendNoise`
* `Hidering.NoiseEpoch` — a channel with what was sent since the last change or reset
* `Hidering.NoiseRuns` — noise packets and whole messages

## Main results

* `Hidering.noise_channel_whole`
-/

namespace Hidering

open List

variable {Id β : Type*}

/-- `noise_channel`. The nil connection is `none`. -/
structure NoiseChannel (Id β : Type*) where
  active : List β
  queue : List (List β)
  connection : Option Id

namespace NoiseChannel

/-- `queue_covert_notify`. -/
def queueCovertNotify (s : NoiseChannel Id β) (message : List β) : NoiseChannel Id β :=
  if s.connection.isSome then { s with queue := s.queue ++ [message] } else s

/-- `update_channel`. -/
def updateChannel (s : NoiseChannel Id β) (connection : Option Id) : NoiseChannel Id β where
  active := []
  queue := if connection.isNone then [] else s.queue
  connection := connection

/-- The bytes that the next packets are taken from, if it is not a noise packet. -/
def current (s : NoiseChannel Id β) : Option (List β) :=
  if s.active.isEmpty then s.queue.head? else some s.active

/-- The packet that `send_noise` sends and what stays active behind it. -/
def nextPacket (noise : List β) (s : NoiseChannel Id β) : List β × List β :=
  match s.current with
  | some bytes => (bytes.take noise.length, bytes.drop noise.length)
  | none => (noise, [])

/-- `send_noise`, where the send succeeds or fails: the channel afterwards and the packet that was
given to the connection. -/
def sendNoise (noise : List β) (s : NoiseChannel Id β) (ok : Bool) :
    NoiseChannel Id β × Option (List β) :=
  if noise.isEmpty || s.connection.isNone then (s, none)
  else
    let (packet, active) := s.nextPacket noise
    if ok then
      ({ s with active, queue := if active.isEmpty then s.queue.tail else s.queue }, some packet)
    else ({ s with active := [], connection := none }, some packet)

end NoiseChannel

/-- The steps on the strand of a channel. -/
inductive NoiseStep (Id β : Type*)
  | queueCovertNotify (message : List β)
  | updateChannel (connection : Option Id)
  | sendNoise (ok : Bool)

/-! ### Epochs -/

/-- A channel together with the packets that were sent on it since the last change or reset, and the
messages that were in the queue then or were put into it since. -/
structure NoiseEpoch (Id β : Type*) where
  channel : NoiseChannel Id β
  packets : List (List β)
  offered : List (List β)

namespace NoiseEpoch

/-- A new channel. -/
def init : NoiseEpoch Id β := ⟨⟨[], [], none⟩, [], []⟩

/-- The epoch that a changed channel starts. -/
def start (channel : NoiseChannel Id β) : NoiseEpoch Id β := ⟨channel, [], channel.queue⟩

/-- One step. A change of the connection and a failed send start a new epoch. -/
def step (noise : List β) (t : NoiseEpoch Id β) : NoiseStep Id β → NoiseEpoch Id β
  | .queueCovertNotify message =>
    { t with
      channel := t.channel.queueCovertNotify message
      offered := if t.channel.connection.isSome then t.offered ++ [message] else t.offered }
  | .updateChannel connection => start (t.channel.updateChannel connection)
  | .sendNoise ok =>
    let r := t.channel.sendNoise noise ok
    match r.2 with
    | none => { t with channel := r.1 }
    | some packet =>
      if ok then { t with channel := r.1, packets := t.packets ++ [packet] } else start r.1

end NoiseEpoch

/-- The packets are the slices of the message, in order. -/
def IsSlices (n : ℕ) (packets : List (List β)) (message : List β) : Prop :=
  packets.flatten = message ∧ ∀ p ∈ packets, p.length = n

/-- Packets that are noise packets and all the slices of some messages, without anything between the
slices of a message. -/
inductive NoiseRuns (noise : List β) : List (List β) → List (List β) → Prop
  | nil : NoiseRuns noise [] []
  | noise {packets messages} (h : NoiseRuns noise packets messages) :
      NoiseRuns noise (packets ++ [noise]) messages
  | message {packets messages slices message} (h : NoiseRuns noise packets messages)
      (hslices : IsSlices noise.length slices message) :
      NoiseRuns noise (packets ++ slices) (messages ++ [message])

/-- The first bytes of the front message were sent in slices, and `bytes` are left of it. -/
def NoiseChannel.CutShort (n : ℕ) (s : NoiseChannel Id β) (cut : List (List β)) : Prop :=
  (cut = [] ∧ s.active = []) ∨
    s.active ≠ [] ∧ ∃ message rest, s.queue = message :: rest ∧
      cut.flatten ++ s.active = message ∧ ∀ p ∈ cut, p.length = n

/-- The packets of the epoch are noise packets and runs of the slices of the first messages that
were offered. Only the last run, which is that of the front message, may be cut short. -/
def NoiseEpoch.InRuns (noise : List β) (t : NoiseEpoch Id β) : Prop :=
  ∃ whole cut delivered, t.packets = whole ++ cut ∧ NoiseRuns noise whole delivered ∧
    t.offered = delivered ++ t.channel.queue ∧ t.channel.CutShort noise.length cut

/-- What a step does to the queue. A message is put at its end, all are dropped with the connection,
or the front one is taken out when the packets of the epoch end with all its slices. -/
def NoiseEpoch.QueueStep (noise : List β) (t t' : NoiseEpoch Id β) (s : NoiseStep Id β) : Prop :=
  t'.channel.queue = t.channel.queue ∨
  (∃ message, s = .queueCovertNotify message ∧ t'.channel.queue = t.channel.queue ++ [message]) ∨
  (s = .updateChannel none ∧ t'.channel.queue = []) ∨
  (s = .sendNoise true ∧ ∃ message slices before, t.channel.queue = message :: t'.channel.queue ∧
    t'.packets = before ++ slices ∧ IsSlices noise.length slices message)

/-! ### One step -/

/-- A message is not empty and a multiple of the packet size. -/
def WholeSlices (n : ℕ) (message : List β) : Prop := message ≠ [] ∧ n ∣ message.length

/-- What holds in every state: the queue has messages of whole slices only. -/
structure NoiseEpoch.Ok (noise : List β) (t : NoiseEpoch Id β) : Prop where
  queue : ∀ m ∈ t.channel.queue, WholeSlices noise.length m
  runs : t.InRuns noise

theorem dvd_length_flatten {n : ℕ} {cut : List (List β)} (h : ∀ p ∈ cut, p.length = n) :
    n ∣ cut.flatten.length := by
  induction cut with
  | nil => exact Nat.dvd_zero n
  | cons p cut ih =>
    obtain ⟨hp, hcut⟩ := forall_mem_cons.mp h
    rw [flatten_cons, length_append, hp]
    exact Nat.dvd_add (Nat.dvd_refl n) (ih hcut)

namespace NoiseEpoch

variable {noise : List β} {t : NoiseEpoch Id β}

theorem Ok.start {channel : NoiseChannel Id β} (hactive : channel.active = [])
    (hqueue : ∀ m ∈ channel.queue, WholeSlices noise.length m) : (start channel).Ok noise :=
  ⟨hqueue, [], [], [], rfl, .nil, rfl, Or.inl ⟨rfl, hactive⟩⟩

/-- The bytes under way are the rest of the front message, in whole slices. -/
theorem Ok.current_cases (h : t.Ok noise) :
    ∃ whole cut delivered, t.packets = whole ++ cut ∧ NoiseRuns noise whole delivered ∧
      t.offered = delivered ++ t.channel.queue ∧ (∀ p ∈ cut, p.length = noise.length) ∧
      ((t.channel.current = none ∧ cut = [] ∧ t.channel.queue = []) ∨
        ∃ bytes rest, t.channel.current = some bytes ∧ WholeSlices noise.length bytes ∧
          t.channel.queue = (cut.flatten ++ bytes) :: rest) := by
  obtain ⟨hqueue, whole, cut, delivered, hpackets, hwhole, hoffered, hcut⟩ := h
  refine ⟨whole, cut, delivered, hpackets, hwhole, hoffered, ?_⟩
  rcases hcut with ⟨rfl, hactive⟩ | ⟨hactive, message, rest, hq, hmessage, hsize⟩
  · refine ⟨by simp, ?_⟩
    cases hq : t.channel.queue with
    | nil => exact Or.inl ⟨by simp [NoiseChannel.current, hactive, hq], rfl, rfl⟩
    | cons message rest =>
      refine Or.inr ⟨message, rest, by simp [NoiseChannel.current, hactive, hq], ?_, rfl⟩
      exact hqueue message (hq ▸ mem_cons_self)
  · refine ⟨hsize, Or.inr ⟨t.channel.active, rest, ?_, ⟨hactive, ?_⟩, hmessage ▸ hq⟩⟩
    · simp [NoiseChannel.current, hactive]
    · have hdvd := (hqueue message (hq ▸ mem_cons_self)).2
      rw [← hmessage, length_append] at hdvd
      exact (Nat.dvd_add_right (dvd_length_flatten hsize)).mp hdvd

/-- **Packets have one size.** -/
theorem Ok.packet_length (h : t.Ok noise) (ok : Bool) {p : List β}
    (hp : (t.channel.sendNoise noise ok).2 = some p) : p.length = noise.length := by
  obtain ⟨-, cut, -, -, -, -, -, hcur⟩ := h.current_cases
  have hpacket : p = (t.channel.nextPacket noise).1 := by
    unfold NoiseChannel.sendNoise at hp
    split_ifs at hp <;> exact (Option.some.inj hp).symm
  rw [hpacket, NoiseChannel.nextPacket]
  rcases hcur with ⟨hnone, -, -⟩ | ⟨bytes, rest, hsome, ⟨hne, hdvd⟩, -⟩
  · rw [hnone]
  · rw [hsome, length_take]
    exact min_eq_left (Nat.le_of_dvd (length_pos_of_ne_nil hne) hdvd)

theorem step_sent (hnoise : noise.isEmpty = false) (hopen : t.channel.connection.isNone = false)
    {packet active : List β} (h : t.channel.nextPacket noise = (packet, active)) :
    t.step noise (.sendNoise true) = ⟨{ t.channel with
      active, queue := if active.isEmpty then t.channel.queue.tail else t.channel.queue },
        t.packets ++ [packet], t.offered⟩ := by
  simp only [NoiseEpoch.step, NoiseChannel.sendNoise, hnoise, hopen, h, Bool.or_self,
    Bool.false_eq_true, if_false, if_true]

/-- A successful send. -/
theorem Ok.sent (h : t.Ok noise) (hnoise : noise.isEmpty = false)
    (hopen : t.channel.connection.isNone = false) :
    (t.step noise (.sendNoise true)).Ok noise ∧
      t.QueueStep noise (t.step noise (.sendNoise true)) (.sendNoise true) := by
  obtain ⟨whole, cut, delivered, hpackets, hwhole, hoffered, hcut, hcur⟩ := h.current_cases
  have hsize := h.packet_length true (p := (t.channel.nextPacket noise).1)
    (by simp [NoiseChannel.sendNoise, hnoise, hopen])
  rcases hcur with ⟨hnone, rfl, hq⟩ | ⟨bytes, rest, hsome, -, hq⟩
  · -- a noise packet
    rw [step_sent hnoise hopen (by rw [NoiseChannel.nextPacket, hnone]), hq]
    refine ⟨⟨by simp, whole ++ [noise], [], delivered, ?_, hwhole.noise, ?_, ?_⟩, Or.inl hq.symm⟩
    · rw [hpackets, append_nil, append_nil]
    · exact hoffered.trans (by rw [hq]; rfl)
    · exact Or.inl ⟨rfl, rfl⟩
  · have hnext : t.channel.nextPacket noise = (bytes.take noise.length, bytes.drop noise.length) := by
      rw [NoiseChannel.nextPacket, hsome]
    rw [step_sent hnoise hopen hnext, hq, tail_cons]
    rw [hnext] at hsize
    have hslices : ∀ p ∈ cut ++ [bytes.take noise.length], p.length = noise.length :=
      forall_mem_append.mpr ⟨hcut, forall_mem_singleton.mpr hsize⟩
    have hqueue := h.queue
    rw [hq] at hqueue
    split_ifs with hrest
    · -- the last slice: the message is taken out
      have hall : IsSlices noise.length (cut ++ [bytes.take noise.length])
          (cut.flatten ++ bytes) := by
        refine ⟨?_, hslices⟩
        rw [flatten_append, flatten_singleton,
          take_of_length_le (drop_eq_nil_iff.mp (List.isEmpty_iff.mp hrest))]
      have hsent : t.packets ++ [bytes.take noise.length] =
          whole ++ (cut ++ [bytes.take noise.length]) := by
        rw [hpackets, append_assoc]
      refine ⟨⟨(forall_mem_cons.mp hqueue).2, _, [], _, ?_, hwhole.message hall, ?_,
        Or.inl ⟨rfl, List.isEmpty_iff.mp hrest⟩⟩, Or.inr (Or.inr (Or.inr ⟨rfl, _, _, whole, hq,
          hsent, hall⟩))⟩
      · rw [append_nil]
        exact hsent
      · rw [append_assoc]
        exact hoffered.trans (by rw [hq]; rfl)
    · refine ⟨⟨hqueue, whole, cut ++ [bytes.take noise.length], delivered, ?_, hwhole, ?_,
        Or.inr ⟨mt List.isEmpty_iff.mpr hrest, _, rest, rfl, ?_, hslices⟩⟩, Or.inl hq.symm⟩
      · rw [hpackets, append_assoc]
      · exact hoffered.trans (by rw [hq])
      · rw [flatten_append, flatten_singleton, append_assoc, take_append_drop]

/-- A step keeps the invariant, and it changes the queue in one of four ways. -/
theorem Ok.step (h : t.Ok noise) (s : NoiseStep Id β)
    (hs : ∀ m, s = .queueCovertNotify m → WholeSlices noise.length m) :
    (t.step noise s).Ok noise ∧ t.QueueStep noise (t.step noise s) s := by
  cases s with
  | queueCovertNotify m =>
    simp only [NoiseEpoch.step, NoiseChannel.queueCovertNotify]
    split_ifs
    · refine ⟨⟨?_, ?_⟩, Or.inr (Or.inl ⟨m, rfl, rfl⟩)⟩
      · exact forall_mem_append.mpr ⟨h.queue, forall_mem_singleton.mpr (hs m rfl)⟩
      · obtain ⟨whole, cut, delivered, hpackets, hwhole, hoffered, hcut⟩ := h.runs
        refine ⟨whole, cut, delivered, hpackets, hwhole, ?_, hcut.imp_right ?_⟩
        · rw [hoffered, append_assoc]
        · rintro ⟨hactive, message, rest, hq, hmessage⟩
          exact ⟨hactive, message, rest ++ [m], by rw [hq, cons_append], hmessage⟩
    · exact ⟨h, Or.inl rfl⟩
  | updateChannel connection =>
    simp only [NoiseEpoch.step]
    cases connection with
    | none => exact ⟨Ok.start rfl (by simp [NoiseChannel.updateChannel]), Or.inr (Or.inr (Or.inl
        ⟨rfl, rfl⟩))⟩
    | some id => exact ⟨Ok.start rfl h.queue, Or.inl rfl⟩
  | sendNoise ok =>
    cases hclosed : noise.isEmpty || t.channel.connection.isNone with
    | true =>
      have hsame : t.channel.sendNoise noise ok = (t.channel, none) := by
        rw [NoiseChannel.sendNoise, if_pos hclosed]
      simp only [NoiseEpoch.step, hsame]
      exact ⟨h, Or.inl rfl⟩
    | false =>
      obtain ⟨hnoise, hopen⟩ := Bool.or_eq_false_iff.mp hclosed
      cases ok with
      | true => exact h.sent hnoise hopen
      | false =>
        simp only [NoiseEpoch.step, NoiseChannel.sendNoise, hclosed]
        exact ⟨Ok.start rfl h.queue, Or.inl rfl⟩

theorem Ok.run {steps : List (NoiseStep Id β)} (h : t.Ok noise)
    (hsteps : ∀ m, .queueCovertNotify m ∈ steps → WholeSlices noise.length m) :
    (steps.foldl (NoiseEpoch.step noise) t).Ok noise := by
  induction steps generalizing t with
  | nil => exact h
  | cons s steps ih =>
    refine ih (h.step s fun m hm => hsteps m (hm ▸ mem_cons_self)).1 fun m hm => ?_
    exact hsteps m (mem_cons_of_mem _ hm)

end NoiseEpoch

/-- **Noise channels deliver whole messages.** In every run whose messages are not empty and
multiples of the packet size, each packet has the packet size; the packets since the last change or
reset are noise packets and whole messages in the order of the queue, the last message possibly cut
short; and a message leaves the queue only when its slices have all been sent one after another, or
with the connection. -/
theorem noise_channel_whole (noise : List β) (steps : List (NoiseStep Id β))
    (hsteps : ∀ m, .queueCovertNotify m ∈ steps → WholeSlices noise.length m) :
    let t := steps.foldl (NoiseEpoch.step noise) NoiseEpoch.init
    (∀ ok p, (t.channel.sendNoise noise ok).2 = some p → p.length = noise.length) ∧
      t.InRuns noise ∧
      ∀ s, (∀ m, s = .queueCovertNotify m → WholeSlices noise.length m) →
        t.QueueStep noise (t.step noise s) s := by
  have hok : (steps.foldl (NoiseEpoch.step noise) NoiseEpoch.init).Ok noise :=
    NoiseEpoch.Ok.run (NoiseEpoch.Ok.start rfl (by simp)) hsteps
  exact ⟨fun ok p => hok.packet_length ok, hok.runs, fun s hs => (hok.step s hs).2⟩

/-- A message of two slices, sent between two noise packets. -/
theorem noise_channel_whole_two :
    let t := ([.updateChannel (some 1), .sendNoise true, .queueCovertNotify [1, 2, 3, 4],
      .sendNoise true, .sendNoise true, .sendNoise true] : List (NoiseStep ℕ ℕ)).foldl
        (NoiseEpoch.step [0, 0]) NoiseEpoch.init
    t.packets = [[0, 0], [1, 2], [3, 4], [0, 0]] ∧ t.InRuns [0, 0] :=
  ⟨rfl, (noise_channel_whole _ _ (by simp [WholeSlices])).2.1⟩

end Hidering
