import MioBroker.FlatLoop
import MioBroker.FlatThreaded
import MioBroker.Scenario

/-!
# The event loop against the threaded reference

Both brokers run side by side on the same packets, from start on. Between packets each sends
from its queues at its own pace.
-/
namespace MioBroker.Reference

open Rust

/-- The two processes, with all the packets each has enqueued for a connection. -/
structure Pair where
  mio : Broker
  threaded : Threaded.World
  mioSent : Token → List Bytes
  threadedSent : Token → List Bytes

inductive Move
  /-- a client connects to both -/
  | accept (h₁ h₂ : RandomState UInt16)
  /-- a client sends a request to both; to the event loop it comes in chunks -/
  | packet (t : Token) (r : Request) (chunks : List Bytes)
  /-- the event loop writes to a socket -/
  | flush (t : Token) (ws : List WriteResult)
  /-- a writer thread takes packets off its channel -/
  | take (t : Token) (n : Nat)
  | tick (dt : Nat)

def step (s : Pair) : Move → Run Pair
  | .accept h₁ h₂ => pure { s with mio := s.mio.accept h₁ h₂, threaded := s.threaded.accept }
  | .packet t _ chunks => do
    let mio ← s.mio.process t chunks
    let threaded ← s.threaded.process t chunks.flatten
    pure {
      mio, threaded
      mioSent := fun k => s.mioSent k ++ s.mio.flat.appended mio.flat k
      threadedSent := fun k => s.threadedSent k ++ s.threaded.flat.appended threaded.flat k }
  | .flush t ws => do
    let mio ← s.mio.flushWrites t ws
    pure { s with mio }
  | .take t n => pure { s with threaded := s.threaded.take t n }
  | .tick dt => pure { s with mio := { s.mio with now := s.mio.now + dt } }

/-- Requests of the core from a client connected to both, without overflow; and no failed write. -/
def Admits (s : Pair) : Move → Prop
  | .packet t r chunks =>
    r.Core ∧ r.Arrives chunks ∧ (∃ c, s.mio.clients.get? t = some c) ∧
      (∃ c, s.threaded.connections.get? t = some c) ∧
      s.mio.flat.Fits WRITE_QUEUE_CAP t r ∧ s.threaded.flat.Fits Threaded.SUB_QUEUE_CAP t r
  | .flush t ws => ∃ c, s.mio.clients.get? t = some c ∧ (c.writeLoop ws).2 ≠ .dead
  | _ => True

/-- The remaining length of a packet is within the limit of the event loop. -/
def Within : Move → Prop
  | .packet _ r _ => r.body.length ≤ MAX_PACKET
  | _ => True

/-- Both brokers have just started, the event loop without a state file. -/
def Initial (s : Pair) : Prop :=
  ∃ h h' now fault,
    s = ⟨.start h now fault, .new h', fun _ => [], fun _ => []⟩

/-- The correspondence: both are brokers of the core with the same view of it. -/
structure Matches (s : Pair) : Prop where
  plain : s.mio.Plain
  sound : s.threaded.Sound
  token : s.mio.nextToken = s.threaded.nextToken
  alike : s.mio.flat.Alike s.threaded.flat
  sent : ∀ t, s.mioSent t = s.threadedSent t

theorem matches_initial {s : Pair} (start : Initial s) : Matches s := by
  obtain ⟨h, h', now, fault, rfl⟩ := start
  refine ⟨Broker.plain_start h now fault, Threaded.World.sound_new h', rfl, ?_, fun _ => rfl⟩
  rw [Broker.flat_start, Threaded.World.flat_new]
  exact ⟨rfl, fun _ => rfl⟩

section Steps

variable {s : Pair}

theorem step_accept (matched : Matches s) (h₁ h₂ : RandomState UInt16) :
    ∃ s', step s (.accept h₁ h₂) = .ok s' ∧ Matches s' ∧
      s'.mio.flat = s.mio.flat.accept s.mio.nextToken ∧
      s'.threaded.flat = s.threaded.flat.accept s.mio.nextToken := by
  have mio := s.mio.flat_accept h₁ h₂
  have threaded := s.threaded.flat_accept
  rw [← matched.token] at threaded
  refine ⟨_, rfl, ⟨Broker.plain_accept matched.plain h₁ h₂, Threaded.World.sound_accept matched.sound,
    congrArg Nat.succ matched.token, ?_, matched.sent⟩, mio, threaded⟩
  rw [mio, threaded]
  exact matched.alike.accept _

/-- One request within the packet limit. -/
theorem step_packet (matched : Matches s) {t : Token} {r : Request} {chunks : List Bytes}
    (admitted : Admits s (.packet t r chunks)) (within : Within (.packet t r chunks)) :
    ∃ s', step s (.packet t r chunks) = .ok s' ∧ Matches s' ∧
      s'.mio.flat = s.mio.flat.process t r ∧ s'.threaded.flat = s.threaded.flat.process t r := by
  obtain ⟨core, arrives, ⟨c, found⟩, ⟨d, there⟩, room, room'⟩ := admitted
  obtain ⟨b, processed, left⟩ := Broker.process_flat matched.plain found core arrives within room
  obtain ⟨w, processed', left'⟩ :=
    Threaded.World.process_flat matched.sound there core arrives.wire room'
  -- Both servers take the packet, and what each appended is added to what it has sent.
  have done : step s (.packet t r chunks) = .ok {
      mio := b, threaded := w
      mioSent := fun k => s.mioSent k ++ s.mio.flat.appended b.flat k
      threadedSent := fun k => s.threadedSent k ++ s.threaded.flat.appended w.flat k } := by
    simp only [step, processed, processed', Run.ok_bind, Run.pure_eq]
  refine ⟨_, done, ?_, left.flat, left'.flat⟩
  refine ⟨left.plain, left'.sound, ?_, ?_, fun k => ?_⟩
  · exact left.token.trans (matched.token.trans left'.token.symm)
  · simp only [left.flat, left'.flat]
    exact matched.alike.process t r
  · simp only [left.flat, left'.flat]
    rw [matched.sent, matched.alike.appended]

/-- Every admitted move goes through and keeps the correspondence. -/
theorem step_matches (matched : Matches s) (m : Move) (admitted : Admits s m) (within : Within m) :
    ∃ s', step s m = .ok s' ∧ Matches s' := by
  obtain ⟨plain, sound, token, alike, sent⟩ := matched
  cases m with
  | accept h₁ h₂ =>
    obtain ⟨s', done, after, -⟩ := step_accept ⟨plain, sound, token, alike, sent⟩ h₁ h₂
    exact ⟨s', done, after⟩
  | packet t r chunks =>
    obtain ⟨s', done, after, -⟩ := step_packet ⟨plain, sound, token, alike, sent⟩ admitted within
    exact ⟨s', done, after⟩
  -- Writing empties queues on one side only, which the comparison leaves out.
  | flush t ws =>
    obtain ⟨c, found, writes⟩ := admitted
    obtain ⟨b, flushed, plain', token', subs, connected⟩ := Broker.flush_flat plain found ws writes
    have done : step s (.flush t ws) = .ok { s with mio := b } := by
      simp only [step, flushed, Run.ok_bind, Run.pure_eq]
    refine ⟨_, done, plain', sound, token'.trans token, ⟨subs.trans alike.subs, fun k => ?_⟩, sent⟩
    exact (connected k).trans (alike.connected k)
  | take t n =>
    obtain ⟨subs, connected⟩ := s.threaded.flat_take t n
    refine ⟨_, rfl, plain, Threaded.World.sound_take sound t n, ?_,
      ⟨alike.subs.trans subs.symm, fun k => ?_⟩, sent⟩
    · obtain ⟨connections, same, -⟩ := s.threaded.take_channels t n
      simp only [same]
      exact token
    · exact (alike.connected k).trans (connected k).symm
  | tick dt =>
    exact ⟨_, rfl, ⟨plain.indexed, plain.retained, plain.sessions, plain.clients, plain.homed⟩, sound,
      token, alike, sent⟩

end Steps

/-- On the QoS 0 core, as long as no packet is over the limit of the event loop, both brokers
enqueue the same packets for every client, and neither ever fails. -/
theorem refines_threaded (s s' : Pair) (moves : List Move) (start : Initial s)
    (path : Machine.Path step (fun s m => Admits s m ∧ Within m) s moves s') :
    (∀ t, s'.mioSent t = s'.threadedSent t) ∧
      ∀ m, Admits s' m → Within m → ∃ s'', step s' m = .ok s'' := by
  have matched : Matches s' := by
    refine path.invariant Matches (fun s m s' before admitted done => ?_) (matches_initial start)
    obtain ⟨s'', done', after⟩ := step_matches before m admitted.1 admitted.2
    cases done.symm.trans done'
    exact after
  refine ⟨matched.sent, fun m admitted within => ?_⟩
  obtain ⟨s'', done, -⟩ := step_matches matched m admitted within
  exact ⟨s'', done⟩

/-! ### Two runs -/

/-- One client has connected to both brokers. -/
def joined : Pair where
  mio := (Broker.start ⟨default, default, default, default⟩ 0 none).accept default default
  threaded := (Threaded.World.new default).accept
  mioSent := fun _ => []
  threadedSent := fun _ => []

theorem joined_path (ok : Pair → Move → Prop) (all : ∀ s h₁ h₂, ok s (.accept h₁ h₂)) :
    ∃ s, Initial s ∧ Machine.Path step ok s [.accept default default] joined :=
  ⟨_, ⟨⟨default, default, default, default⟩, default, 0, none, rfl⟩, .single _ (all _ _ _) rfl⟩

theorem joined_matches : Matches joined := by
  obtain ⟨s, start, path⟩ := joined_path (fun s m => Admits s m ∧ Within m) fun _ _ _ => ⟨trivial, trivial⟩
  refine path.invariant Matches (fun s m s' before admitted done => ?_) (matches_initial start)
  obtain ⟨s'', done', after⟩ := step_matches before m admitted.1 admitted.2
  cases done.symm.trans done'
  exact after

theorem joined_flat : joined.mio.flat = Flat.empty.accept 1 ∧
    joined.threaded.flat = Flat.empty.accept 1 := by
  constructor
  · exact (Broker.flat_accept _ _ _).trans (by rw [Broker.flat_start]; rfl)
  · exact (Threaded.World.flat_accept _).trans (by rw [Threaded.World.flat_new]; rfl)

theorem fits_joined {cap : Nat} {r : Request} (room : ∀ k, (r.output [] 1 k).length ≤ cap) :
    (Flat.empty.accept 1).Fits cap 1 r := by
  refine Flat.fits_of_output fun k q found => ?_
  simp only [Flat.accept, Flat.empty] at found
  split at found
  · cases found
    rw [List.length_nil, Nat.zero_add]
    exact room k
  · cases found

def topicA : Str := .fromUtf8Lossy (Broker.ascii "a")

theorem arrives_short {r : Request} (short : r.body.length < 128) :
    r.Arrives [r.header :: UInt8.ofNat r.body.length :: r.body] := by
  have digit : (UInt8.ofNat r.body.length).toNat = r.body.length := by
    rw [UInt8.toNat_ofNat']
    omega
  refine ⟨fun chunk member => ?_, [.ofNat r.body.length], ?_, ?_, ?_, ?_⟩
  · rw [List.mem_singleton.mp member]
    simp only [List.length_cons]
    omega
  · exact (show (UInt8.ofNat r.body.length).toNat < 128 by omega)
  · simp
  · simp only [remValue, digit]
    omega
  · simp

/-- A client subscribes to a topic and publishes to it. -/
theorem refines_threaded_echo : ∃ (s s' : Pair) (moves : List Move), Initial s ∧ moves.length = 3 ∧
    Machine.Path step (fun s m => Admits s m ∧ Within m) s moves s' ∧ s'.mioSent 1 = s'.threadedSent 1 := by
  obtain ⟨s, start, path⟩ :=
    joined_path (fun s m => Admits s m ∧ Within m) fun _ _ _ => ⟨trivial, trivial⟩
  obtain ⟨mio_flat, threaded_flat⟩ := joined_flat
  obtain ⟨r₁, asked⟩ : ∃ r, r = Request.subscribe 1 [topicA] := ⟨_, rfl⟩
  obtain ⟨r₂, sent⟩ : ∃ r, r = Request.publish false topicA (some 2) [7] := ⟨_, rfl⟩
  obtain ⟨c₁, small₁⟩ : r₁.Core ∧ r₁.body.length < 128 := by
    rw [asked]
    refine ⟨⟨⟨by simp, fun f member => ?_⟩, fun _ _ same => ?_⟩, by decide +kernel⟩
    · rw [List.mem_singleton.mp member]
      decide +kernel
    · cases same
      decide
  obtain ⟨c₂, small₂⟩ : r₂.Core ∧ r₂.body.length < 128 := by
    rw [sent]
    exact ⟨⟨⟨by decide +kernel, by decide +kernel⟩, fun _ _ other => by cases other⟩, by decide +kernel⟩
  have admitted₁ : Admits joined (.packet 1 r₁ [r₁.header :: UInt8.ofNat r₁.body.length :: r₁.body]) := by
    have room : ∀ {cap : Nat}, 1 ≤ cap → (Flat.empty.accept 1).Fits cap 1 r₁ := fun le =>
      fits_joined fun k => by
        refine Nat.le_trans ?_ le
        simp only [asked, Request.output, Request.answer, Request.forwards, addressed]
        split <;> simp
    refine ⟨c₁, arrives_short small₁, ⟨_, HashMap.get?_insert_self _ _ _⟩,
      ⟨_, HashMap.get?_insert_self _ _ _⟩, ?_, ?_⟩
    · exact mio_flat ▸ room (by decide)
    · exact threaded_flat ▸ room (by decide)
  have within₁ : r₁.body.length ≤ MAX_PACKET := by
    have : MAX_PACKET = 1048576 := rfl
    omega
  obtain ⟨s₁, done₁, matched, mio₁, threaded₁⟩ := step_packet joined_matches admitted₁ within₁
  have state : s₁.mio.flat = s₁.threaded.flat := by rw [mio₁, threaded₁, mio_flat, threaded_flat]
  -- The first packet has left the connection open.
  have connected : (s₁.mio.flat.queues 1).isSome := by
    rw [mio₁, mio_flat, asked]
    rfl
  have admitted₂ : Admits s₁ (.packet 1 r₂ [r₂.header :: UInt8.ofNat r₂.body.length :: r₂.body]) := by
    have room : ∀ {cap : Nat}, 3 ≤ cap → s₁.mio.flat.Fits cap 1 r₂ := fun le => by
      refine Flat.fits_of_output fun k q found => Nat.le_trans ?_ le
      have subs : s₁.mio.flat.subs = [(topicA, 1)] := by
        rw [mio₁, mio_flat, asked]
        rfl
      have queue : q.length ≤ 1 := by
        rw [mio₁, mio_flat, asked] at found
        simp only [Flat.process, Flat.accept, Flat.empty, Request.output, Request.answer,
          Request.forwards, List.append_nil] at found
        split at found
        next own =>
          cases found
          simp [own]
        next => cases found
      have copied : Request.copies topicA [(topicA, (1 : Token))] k ≤ 1 := List.countP_le_length
      have answered : (addressed 1 [[0x40, 2] ++ u16ToBe 2] k).length ≤ 1 := by
        rw [addressed]
        split <;> simp
      rw [subs, sent, Request.output, List.length_append, Request.forwards, List.length_replicate]
      exact Nat.add_le_add queue (Nat.add_le_add answered copied)
    have there := connected
    rw [state] at there
    simp only [Broker.flat, Threaded.World.flat, Option.isSome_map, Option.isSome_iff_exists]
      at connected there
    refine ⟨c₂, arrives_short small₂, connected, there, room (by decide), ?_⟩
    exact state ▸ room (by decide)
  have within₂ : r₂.body.length ≤ MAX_PACKET := by
    have : MAX_PACKET = 1048576 := rfl
    omega
  obtain ⟨s₂, done₂, -⟩ := step_packet matched admitted₂ within₂
  have whole := (path.snoc _ ⟨admitted₁, within₁⟩ done₁).snoc _ ⟨admitted₂, within₂⟩ done₂
  exact ⟨s, s₂, _, start, rfl, whole, (refines_threaded s s₂ _ start whole).1 1⟩

/-- A PUBLISH of five bytes more than the limit, in chunks. -/
theorem oversized_arrives : ∃ payload chunks,
    (Request.publish false topicA (some 1) payload).Arrives chunks ∧
      MAX_PACKET < (Request.publish false topicA (some 1) payload).body.length := by
  obtain ⟨zeros, sizes, total⟩ : ∃ zeros : List Bytes,
      (∀ z ∈ zeros, z.length = 65536) ∧ zeros.flatten.length = 1048576 := by
    refine ⟨List.replicate 16 (List.replicate 65536 0), fun z member => ?_, ?_⟩
    · rw [List.eq_of_mem_replicate member, List.length_replicate]
    · rw [List.length_flatten, List.map_replicate, List.sum_replicate_nat, List.length_replicate]
  -- Topic, id and sixteen chunks of payload make five bytes more than the limit.
  have length : (Request.publish false topicA (some 1) zeros.flatten).body.length = 1048581 := by
    simp only [Request.body, List.length_append, total]
    decide +kernel
  refine ⟨zeros.flatten, (0x32 :: ([0x85, 0x80, 0x40] ++ (field topicA.bytes ++ u16ToBe 1))) :: zeros,
    ⟨fun chunk member => ?_, [0x85, 0x80, 0x40], ?_, by decide, ?_, ?_⟩, ?_⟩
  · rcases List.mem_cons.mp member with rfl | member
    · decide +kernel
    · rw [sizes chunk member]
      decide
  · exact ⟨by decide, by decide, (by decide : (0x40 : UInt8).toNat < 128)⟩
  · rw [length]
    decide
  · simp [Request.body, Request.header]
    decide
  · rw [length]
    decide

/-- The threaded broker acknowledges such a PUBLISH, the event loop drops the connection. -/
theorem oversized_diverges : ¬∀ (s s' : Pair) (moves : List Move), Initial s →
    Machine.Path step Admits s moves s' → ∀ t, s'.mioSent t = s'.threadedSent t := by
  intro agree
  obtain ⟨s, start, path⟩ := joined_path Admits fun _ _ _ => trivial
  obtain ⟨payload, chunks, arrives, large⟩ := oversized_arrives
  obtain ⟨r, sent⟩ : ∃ r, r = Request.publish false topicA (some 1) payload := ⟨_, rfl⟩
  rw [← sent] at arrives large
  have core : r.Core := by
    rw [sent]
    exact ⟨⟨by decide +kernel, by decide +kernel⟩, fun _ _ other => by cases other⟩
  have output : ∀ k, r.output [] 1 k = addressed 1 [[0x40, 2] ++ u16ToBe 1] k := fun k => by
    simp [sent, Request.output, Request.answer, Request.forwards, Request.copies]
  -- The threaded server has no limit: it answers the packet.
  have small : ∀ k, (r.output [] 1 k).length ≤ 1 := fun k => by
    rw [output, addressed]
    split <;> simp
  obtain ⟨mio_flat, threaded_flat⟩ := joined_flat
  obtain ⟨c, found⟩ : ∃ c, joined.mio.clients.get? 1 = some c := ⟨_, HashMap.get?_insert_self _ _ _⟩
  obtain ⟨d, there⟩ : ∃ d, joined.threaded.connections.get? 1 = some d :=
    ⟨_, HashMap.get?_insert_self _ _ _⟩
  have room : joined.mio.flat.Fits WRITE_QUEUE_CAP 1 r := by
    rw [mio_flat]
    exact fits_joined fun k => Nat.le_trans (small k) (by decide)
  have room' : joined.threaded.flat.Fits Threaded.SUB_QUEUE_CAP 1 r := by
    rw [threaded_flat]
    exact fits_joined fun k => Nat.le_trans (small k) (by decide)
  obtain ⟨b, refused, left⟩ := Broker.process_oversized joined_matches.plain found arrives large
  obtain ⟨w, served, left'⟩ :=
    Threaded.World.process_flat joined_matches.sound there core arrives.wire room'
  have done : step joined (.packet 1 r chunks) = .ok {
      mio := b, threaded := w
      mioSent := fun k => [] ++ joined.mio.flat.appended b.flat k
      threadedSent := fun k => [] ++ joined.threaded.flat.appended w.flat k } := by
    simp only [step, refused, served, Run.ok_bind, Run.pure_eq]
    rfl
  have admitted : Admits joined (.packet 1 r chunks) :=
    ⟨core, arrives, ⟨c, found⟩, ⟨d, there⟩, room, room'⟩
  have same := agree s _ _ start (.snoc _ path admitted done) 1
  simp only [List.nil_append, left.flat, left'.flat, mio_flat, threaded_flat,
    Flat.appended_process] at same
  simp only [Flat.accept, Flat.empty, output] at same
  simp [Request.output, Request.answer, Request.forwards] at same

end MioBroker.Reference
