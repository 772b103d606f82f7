import MioBroker.Custody
import MioBroker.Retry

/-!
# Who ends an entry of the window

PUBACK belongs to QoS 1, PUBREC and then PUBCOMP to QoS 2. The handlers of PUBACK and PUBCOMP take
away whatever entry has the id; that of PUBREC looks at kind and phase first.
-/
namespace MioBroker

open Rust

/-- The acknowledgement an entry waits for. -/
def InFlight.expects (e : InFlight) : UInt8 :=
  if e.qos2 then if e.awaitPubcomp then PUBCOMP else PUBREC else PUBACK

/-- PUBACK, PUBREC or PUBCOMP -/
def Packet.IsAck (p : Packet) : Prop := p.ptype = PUBACK ∨ p.ptype = PUBREC ∨ p.ptype = PUBCOMP

/-- PUBACK and PUBCOMP end an entry. -/
theorem Packet.IsAck.ends {p : Packet} (isAck : p.IsAck) (notPubrec : p.ptype ≠ PUBREC) :
    p.ptype = PUBACK ∨ p.ptype = PUBCOMP := by
  rcases isAck with type | type | type
  · exact .inl type
  · exact absurd type notPubrec
  · exact .inr type

namespace Client

/-- The window has the message under this id, in whatever phase. -/
def InWindow (c : Client) (pid : UInt16) (e : InFlight) : Prop :=
  ∃ f, c.inFlight.get? pid = some f ∧ f.pkt = e.pkt ∧ f.qos2 = e.qos2

theorem Tracks.inWindow {c : Client} {pid : UInt16} {e : InFlight} (tracks : c.Tracks pid e) :
    c.InWindow pid e := by
  obtain ⟨f, found, same⟩ := tracks
  exact ⟨f, found, same.pkt, same.qos2⟩

/-- A PUBREC takes nothing out of the window. -/
theorem inWindow_pubrec {c : Client} {pid : UInt16} {e : InFlight}
    (found : c.inFlight.get? pid = some e) (k : UInt16) (now : Instant) :
    (c.pubrec k now).InWindow pid e := by
  simp only [pubrec]
  split
  -- whether the entry was moved on or not, message and kind are what they were
  next f there =>
    split
    · rw [InWindow, inFlight_reply, HashMap.get?_insert]
      split
      next same =>
        subst same
        cases found.symm.trans there
        exact ⟨_, rfl, rfl, rfl⟩
      next => exact ⟨e, found, rfl, rfl⟩
    · exact ⟨e, found, rfl, rfl⟩
  next => exact ⟨e, found, rfl, rfl⟩

/-- A PUBREC the entry does not wait for changes nothing. -/
theorem pubrec_unexpected {c : Client} {pid : UInt16} {now : Instant}
    (unexpected : ∀ e, c.inFlight.get? pid = some e → e.expects ≠ PUBREC) : c.pubrec pid now = c := by
  simp only [pubrec]
  split
  next e found =>
    split
    next awaits =>
      rw [Bool.and_eq_true, Bool.not_eq_true'] at awaits
      exact absurd (by simp [InFlight.expects, awaits]) (unexpected e found)
    next => rfl
  next => rfl

/-- But for its own PUBREC, an entry is in the phase it was in. -/
theorem entry_before_change {c : Client} {now : Instant} {ch : Change} {pid : UInt16}
    {f : InFlight} (unreceived : ch ≠ .pubrec pid)
    (after : (ch.apply now c).inFlight.get? pid = some f) :
    ∃ e, c.inFlight.get? pid = some e ∧ e.SamePhase f := by
  rcases c.entry_change now ch pid with stays | ⟨-, gone⟩ | ⟨received, -⟩ |
    ⟨pkt, scanned, e, -, there, restarted⟩
  · exact ⟨f, stays ▸ after, rfl, rfl, rfl⟩
  · rw [gone] at after
    cases after
  · exact absurd received unreceived
  · -- the timer starts again, kind and phase stay
    cases restarted.symm.trans after
    exact ⟨e, there, rfl, rfl, rfl⟩

/-- A message that is delivered awaits its first acknowledgement. -/
theorem entry_before_offer {c d : Client} {now : Instant} {topic : Str} {payload : Bytes}
    {qos : UInt8} {retain : Bool} (done : c.offer now topic payload qos retain = .queued d)
    {pid : UInt16} {f : InFlight} (after : d.inFlight.get? pid = some f)
    (awaiting : f.awaitPubcomp = true) : c.inFlight.get? pid = some f := by
  by_cases unreliable : qos = 0
  · subst unreliable
    rw [← (offer_qos0_counts c d now topic payload retain done).2.1]
    exact after
  · -- the one entry a delivery adds is not released yet
    obtain ⟨k, next, queue, -, -, -, rfl, -⟩ :=
      offer_reliable c d now topic payload qos retain unreliable done
    rw [HashMap.get?_insert] at after
    split at after
    · cases after
      cases awaiting
    · exact after

end Client

/-- An entry that awaits PUBCOMP did so before the operation, or that is the PUBREC for it. -/
theorem Op.entry_origin {op : Op} {b b' : Broker} {out : Outcome} (healthy : b.Healthy)
    (done : op.run b = .ok (b', out)) {t : Token} {d : Client} {pid : UInt16} {f : InFlight}
    (after : b'.clients.get? t = some d) (found : d.inFlight.get? pid = some f)
    (awaiting : f.awaitPubcomp = true) :
    (∃ c e, b.clients.get? t = some c ∧ c.inFlight.get? pid = some e ∧ e.SamePhase f) ∨
      ∃ p, op = .packet t p ∧ p.ptype = PUBREC ∧ u16At p.body 0 = .ok pid := by
  by_cases received : ∃ p, op = .packet t p ∧ p.ptype = PUBREC ∧ u16At p.body 0 = .ok pid
  · exact .inr received
  left
  -- every entry that awaits PUBCOMP on the way comes from the state before the operation
  refine (op.acts healthy done).keeps healthy (fun s => ∀ d f, s.clients.get? t = some d →
    d.inFlight.get? pid = some f → f.awaitPubcomp = true →
      ∃ c e, b.clients.get? t = some c ∧ c.inFlight.get? pid = some e ∧ e.SamePhase f) ?_
    (fun d f there inWindow _ => ⟨d, f, there, inWindow, rfl, rfl, rfl⟩) d f after found awaiting
  intro s a s' healthy kept ok next d f there inWindow awaiting
  rcases Act.survivor healthy next there with ⟨_, _, -, -, rfl⟩ | ⟨c, before, ⟨ch, rfl, rfl⟩ | fed⟩
  · simp [Client.accepted] at inWindow
  · have unreceived : ch ≠ .pubrec pid := by
      rintro rfl
      obtain ⟨p, rfl, kind, parse⟩ := Op.permits_ofPacket rfl ok.1
      exact received ⟨p, rfl, kind, parse⟩
    obtain ⟨e, inWindow, same⟩ := Client.entry_before_change unreceived inWindow
    obtain ⟨c₀, e₀, there, first, same₀⟩ := kept c e before inWindow (same.awaitPubcomp ▸ awaiting)
    exact ⟨c₀, e₀, there, first, same₀.trans same⟩
  · have old := fed.invariant (fun d => ∀ f, d.inFlight.get? pid = some f → f.awaitPubcomp = true →
      c.inFlight.get? pid = some f)
      (fun c d _ _ _ _ _ old queued f inWindow awaiting =>
        old f (Client.entry_before_offer queued inWindow awaiting) awaiting)
      (fun f inWindow _ => inWindow)
    exact kept c f before (old f inWindow awaiting) awaiting

/-- An acknowledgement with an id is applied to the record of its sender. -/
theorem Broker.dispatch_ack_id {b b' : Broker} {t : Token} {p : Packet} {r : Reply} {pid : UInt16}
    (isAck : p.IsAck) (parse : u16At p.body 0 = .ok pid) (done : b.dispatch t p = .ok (b', r)) :
    ∃ c, b.clients.get? t = some c ∧
      b'.clients.get? t = some ((p.acks pid).apply b.now c) := by
  rcases dispatch_ack isAck done with ⟨-, short⟩ | ⟨c, k, found, read, rfl⟩
  · have inside := u16At_inside parse
    omega
  · cases parse.symm.trans read
    exact ⟨c, found, HashMap.get?_insert_self _ _ _⟩

namespace Loop

/-- The connection has this message in its window, waiting for PUBCOMP. -/
def AwaitsPubcomp (s : Loop) (t : Token) (pid : UInt16) (e : InFlight) : Prop :=
  ∃ c f, s.broker.clients.get? t = some c ∧ c.inFlight.get? pid = some f ∧ f.pkt = e.pkt ∧
    f.qos2 = e.qos2 ∧ f.awaitPubcomp = true

/-- Earlier in the run the connection sent a PUBREC with this id, and the message has awaited
PUBCOMP from then on. -/
def Received (s₀ : Loop) (ios : List Io) (s : Loop) (t : Token) (pid : UInt16) (e : InFlight) : Prop :=
  ∃ before io after u v p, ios = before ++ io :: after ∧ AdmittedRun s₀ before u ∧ u.step io = .ok v ∧
    u.op io = .packet t p ∧ p.ptype = PUBREC ∧ u16At p.body 0 = .ok pid ∧
    Machine.Path step (fun w _ => w.AwaitsPubcomp t pid e) v after s

/-- An entry awaits PUBCOMP because of a PUBREC of its connection. -/
theorem received_of_awaiting {s₀ s : Loop} {ios : List Io} (start : s₀.Initial)
    (run : AdmittedRun s₀ ios s) {t : Token} {c : Client} {pid : UInt16} {e : InFlight}
    (found : s.broker.clients.get? t = some c) (inWindow : c.inFlight.get? pid = some e)
    (awaiting : e.awaitPubcomp = true) : Received s₀ ios s t pid e := by
  -- backwards along the run, as long as the entry was waiting already
  suffices general : ∀ e', c.inFlight.get? pid = some e' → e'.awaitPubcomp = true → e'.pkt = e.pkt →
      e'.qos2 = e.qos2 → Received s₀ ios s t pid e from general e inWindow awaiting rfl rfl
  clear inWindow awaiting
  induction run generalizing c with
  | nil => cases (start.startup.unconnected t).symm.trans found
  | @snoc ios u v io before admitted next ih =>
    intro e' inWindow awaiting pkt qos2
    have healthy := Reachable.healthy ⟨s₀, ios, start, before⟩
    obtain ⟨b, out, ran, same⟩ := step_ok.mp next
    subst same
    rcases Op.entry_origin healthy ran found inWindow awaiting with
      ⟨c₀, e₀, there, first, phase⟩ | ⟨p, op, kind, parse⟩
    · -- waiting before the step too: the PUBREC is further back
      have waited : e₀.awaitPubcomp = true := phase.awaitPubcomp ▸ awaiting
      obtain ⟨ios₁, io₁, ios₂, u₁, v₁, p, rfl, path₁, step₁, op, kind, parse, path₂⟩ :=
        ih there e₀ first waited (phase.pkt.symm.trans pkt) (phase.qos2.symm.trans qos2)
      refine ⟨ios₁, io₁, ios₂ ++ [io], u₁, v₁, p, by simp, path₁, step₁, op, kind, parse, ?_⟩
      refine path₂.snoc io ?_ next
      exact ⟨c₀, e₀, there, first, phase.pkt.symm.trans pkt, phase.qos2.symm.trans qos2, waited⟩
    · -- it is this step that handled the PUBREC
      exact ⟨ios, io, [], u, _, p, rfl, before, next, op, kind, parse, .nil⟩

/-- What a step of a run does to the windows of the connections that stay is in order. -/
structure Disciplined (s₀ : Loop) (before : List Io) (s : Loop) (io : Io) (s' : Loop) : Prop where
  /-- QoS 1 ends with PUBACK, QoS 2 with PUBCOMP after PUBREC. -/
  removed : ∀ t c d pid e, s.broker.clients.get? t = some c → s'.broker.clients.get? t = some d →
    c.inFlight.get? pid = some e → ¬d.InWindow pid e →
    ∃ p, s.op io = .packet t p ∧ u16At p.body 0 = .ok pid ∧
      if e.qos2 then p.ptype = PUBCOMP ∧ e.awaitPubcomp = true ∧ Received s₀ before s t pid e
      else p.ptype = PUBACK
  /-- Whatever else comes in as an acknowledgement changes nothing. -/
  unexpected : ∀ t p c d pid, s.op io = .packet t p → p.IsAck → u16At p.body 0 = .ok pid →
    s.broker.clients.get? t = some c → s'.broker.clients.get? t = some d →
    (∀ e, c.inFlight.get? pid = some e → e.expects ≠ p.ptype) →
    ∀ k, d.inFlight.get? k = c.inFlight.get? k

/-- A PUBACK or PUBCOMP handled by the step is the one its entry waits for, if there is one. -/
def InTurn (s : Loop) (io : Io) : Prop :=
  ∀ t p c pid e, s.op io = .packet t p → p.ptype = PUBACK ∨ p.ptype = PUBCOMP →
    u16At p.body 0 = .ok pid → s.broker.clients.get? t = some c → c.inFlight.get? pid = some e →
    e.expects = p.ptype

/-- An acknowledgement with an id is applied to the record of its sender. -/
theorem ack_step {s s' : Loop} {io : Io} (next : s.step io = .ok s') {t : Token} {p : Packet}
    (op : s.op io = .packet t p) (isAck : p.IsAck) {pid : UInt16} (parse : u16At p.body 0 = .ok pid)
    {c : Client} (found : s.broker.clients.get? t = some c) :
    s'.broker.clients.get? t = some ((p.acks pid).apply s.broker.now c) := by
  obtain ⟨b, out, ran, rfl⟩ := step_ok.mp next
  rw [op] at ran
  obtain ⟨r, dispatched⟩ := Op.packet_ok ran
  obtain ⟨c', found', after⟩ := Broker.dispatch_ack_id isAck parse dispatched
  cases found.symm.trans found'
  exact after

/-- What goes out of a window in turn goes out for the acknowledgement that ends it. -/
theorem InTurn.removed {s₀ s s' : Loop} {before : List Io} (start : s₀.Initial)
    (run : AdmittedRun s₀ before s) {io : Io} (inTurn : s.InTurn io) (next : s.step io = .ok s')
    {t : Token} {c d : Client} {pid : UInt16} {e : InFlight}
    (found : s.broker.clients.get? t = some c) (after : s'.broker.clients.get? t = some d)
    (inWindow : c.inFlight.get? pid = some e) (gone : ¬d.InWindow pid e) :
    ∃ p, s.op io = .packet t p ∧ u16At p.body 0 = .ok pid ∧
      if e.qos2 then p.ptype = PUBCOMP ∧ e.awaitPubcomp = true ∧ Received s₀ before s t pid e
      else p.ptype = PUBACK := by
  have reached : s.Reachable := ⟨s₀, before, start, run⟩
  by_cases acknowledged : (s.op io).Acknowledges s.broker t pid
  · obtain ⟨p, op, parse, kind⟩ := acknowledged
    have isAck : p.IsAck := kind.imp_right fun late => late.symm.imp And.left id
    cases after.symm.trans (ack_step next op isAck parse found)
    by_cases isPubrec : p.ptype = PUBREC
    · -- a PUBREC moves entries on at most
      rw [Packet.acks, if_pos isPubrec] at gone
      exact absurd (Client.inWindow_pubrec inWindow pid _) gone
    · have expected := inTurn t p c pid e op (isAck.ends isPubrec) parse found inWindow
      refine ⟨p, op, parse, ?_⟩
      cases qos2 : e.qos2 with
      | false => simpa [InFlight.expects, qos2] using expected.symm
      | true =>
        -- before its PUBREC the entry would wait for that, which ends nothing
        have released : e.awaitPubcomp = true := by
          by_contra waiting
          rw [InFlight.expects, qos2, if_pos rfl, if_neg waiting] at expected
          exact isPubrec expected.symm
        rw [InFlight.expects, qos2, released, if_pos rfl, if_pos rfl] at expected
        simpa using ⟨expected.symm, released, received_of_awaiting start run found inWindow released⟩
  · -- nothing else takes an entry away
    obtain ⟨b, out, ran, rfl⟩ := step_ok.mp next
    have tracks := Op.tracks reached.healthy ran (reached.numbered t c found) acknowledged
      (fun c' there => by
        cases found.symm.trans there
        exact ⟨e, inWindow, rfl, rfl, rfl⟩) d after
    exact absurd tracks.inWindow gone

/-- An acknowledgement nothing waits for finds nothing to change when its turn has not come. -/
theorem InTurn.unexpected {s s' : Loop} {io : Io} (inTurn : s.InTurn io) (next : s.step io = .ok s')
    {t : Token} {p : Packet} (op : s.op io = .packet t p) (isAck : p.IsAck) {pid : UInt16}
    (parse : u16At p.body 0 = .ok pid) {c d : Client} (found : s.broker.clients.get? t = some c)
    (after : s'.broker.clients.get? t = some d)
    (unexpected : ∀ e, c.inFlight.get? pid = some e → e.expects ≠ p.ptype) (k : UInt16) :
    d.inFlight.get? k = c.inFlight.get? k := by
  cases after.symm.trans (ack_step next op isAck parse found)
  by_cases isPubrec : p.ptype = PUBREC
  · rw [Packet.acks, if_pos isPubrec]
    have unchanged : c.pubrec pid s.broker.now = c := Client.pubrec_unexpected (isPubrec ▸ unexpected)
    rw [Change.apply, unchanged]
  · -- an entry with this id would be expected, so there is none
    have absent : c.inFlight.get? pid = none := by
      by_contra there
      obtain ⟨e, inWindow⟩ := Option.ne_none_iff_exists'.mp there
      exact unexpected e inWindow (inTurn t p c pid e op (isAck.ends isPubrec) parse found inWindow)
    rw [Packet.acks, if_neg isPubrec, Change.apply, HashMap.get?_erase]
    split
    next same => rw [same, absent]
    next => rfl

/-- One step. -/
theorem disciplined_iff {s₀ s s' : Loop} {before : List Io} (start : s₀.Initial)
    (run : AdmittedRun s₀ before s) {io : Io} (next : s.step io = .ok s') :
    Disciplined s₀ before s io s' ↔ s.InTurn io := by
  constructor
  · -- an acknowledgement out of turn erases the entry, which the second rule forbids
    intro disciplined t p c pid e op kind parse found inWindow
    by_contra unexpected
    have isAck : p.IsAck := kind.imp_right .inr
    -- the handlers of PUBACK and PUBCOMP erase whatever they find
    have kept := disciplined.unexpected t p c _ pid op isAck parse found
      (ack_step next op isAck parse found) (fun e' there => by
        cases inWindow.symm.trans there
        exact unexpected) pid
    have notPubrec : p.ptype ≠ PUBREC := by
      rintro same
      simp +decide [same] at kind
    rw [inWindow, Packet.acks, if_neg notPubrec, Change.apply, HashMap.get?_erase_self] at kept
    cases kept
  · intro inTurn
    constructor
    · intro t c d pid e found after inWindow gone
      exact inTurn.removed start run next found after inWindow gone
    · intro t p c d pid op isAck parse found after unexpected k
      exact inTurn.unexpected next op isAck parse found after unexpected k

/-- The windows are in order in every step of a run exactly if every PUBACK and PUBCOMP comes when
its entry waits for it. -/
theorem ack_discipline (s₀ : Loop) (ios : List Io) (start : s₀.Initial) :
    Throughout s₀ ios (Disciplined s₀) ↔ Throughout s₀ ios fun _ s io _ => s.InTurn io :=
  Machine.EachStep.congr fun _ _ _ _ run _ next => disciplined_iff start run next

/-! ### Runs -/

/-- A check of `InTurn`. -/
def inTurn (s : Loop) (io : Io) : Bool :=
  match s.op io with
  | .packet t p =>
    match s.broker.clients.get? t, u16At p.body 0 with
    | some c, .ok pid => (c.inFlight.get? pid).all fun e =>
      !(p.ptype == PUBACK || p.ptype == PUBCOMP) || e.expects == p.ptype
    | _, _ => true
  | _ => true

theorem inTurn_sound {s : Loop} {io : Io} (checked : s.inTurn io = true) : s.InTurn io := by
  intro t p c pid e op kind parse found inWindow
  have final : (p.ptype == PUBACK || p.ptype == PUBCOMP) = true := by simpa using kind
  simpa [inTurn, op, found, parse, inWindow, final] using checked

/-- A client subscribes to `t` at QoS 2 and publishes to it; it answers the forward with `answer`. -/
def answered (answer : Bytes) (rest : Nat) : List Io :=
  [Io.listen, .connection] ++ List.replicate 3 Io.quiet ++
    [Io.read (connectBytes 2 97 ++ [0x82, 6, 0, 1, 0, 1, 116, 2, 0x34, 5, 0, 1, 116, 0, 1])] ++
    List.replicate 15 Io.quiet ++ [Io.read answer] ++ List.replicate rest Io.quiet

/-- PUBREC, then PUBCOMP -/
def handshake : List Io := answered [0x50, 2, 0, 1, 0x70, 2, 0, 1] 2

/-- The handshake empties the window in order. -/
theorem ack_discipline_handshake : (∃ s c, AdmittedRun fresh handshake s ∧
      s.broker.clients.get? 1 = some c ∧ c.inFlight.isEmpty = true ∧ s.broker.sysPubSent = 1) ∧
    Throughout fresh handshake (Disciplined fresh) := by
  have ran : (Machine.runChecked step (fun s io => s.admits io && s.inTurn io) fresh handshake).any
      (fun s => (s.broker.clients.get? 1).any (fun c => c.inFlight.isEmpty) &&
        s.broker.sysPubSent == 1) = true := by decide +kernel
  obtain ⟨s, done, ended⟩ := (Option.any_eq_true _ _).mp ran
  simp only [Bool.and_eq_true, Option.any_eq_true, beq_iff_eq] at ended
  obtain ⟨⟨c, found, empty⟩, sent⟩ := ended
  have path := (Machine.runChecked_path _ _ _ _ _ done).mono
    (fun s io ok => (Bool.and_eq_true _ _).mp ok)
  constructor
  · exact ⟨s, c, path.mono fun _ _ ok => ok.1, found, empty, sent⟩
  · refine (ack_discipline fresh handshake fresh_initial).mpr ?_
    -- Every step of the run was checked to be in turn.
    have each : Throughout fresh handshake fun _ s io _ => s.admits io = true ∧ s.inTurn io = true :=
      Machine.EachStep.of_path path
    intro before io rest u v cut run admitted next
    exact inTurn_sound (each before io rest u v cut run admitted next).2

/-- The packet handled next is of this type. -/
def handles (s : Loop) (ptype : UInt8) : Bool :=
  match s.op .quiet with
  | .packet _ p => p.ptype == ptype
  | _ => false

/-- A PUBACK ends the retransmission of a QoS 2 message. -/
theorem ack_discipline_broken :
    ¬∀ (s₀ : Loop) (ios : List Io), s₀.Initial → Throughout s₀ ios (Disciplined s₀) := by
  intro claim
  obtain ⟨s, done, checked⟩ := exists_after (answered [0x40, 2, 0, 1] 0) (fun s =>
    s.handles PUBACK &&
    ((s.broker.clients.get? 1).bind fun c => c.inFlight.get? 1).any (fun e => e.qos2) &&
    s.steps .quiet fun s' => (s'.broker.clients.get? 1).any fun d => (d.inFlight.get? 1).isNone)
    (by decide +kernel)
  simp only [Bool.and_eq_true, Option.any_eq_true, Option.bind_eq_some_iff] at checked
  obtain ⟨⟨isPuback, e, ⟨c, found, inWindow⟩, qos2⟩, stepped⟩ := checked
  obtain ⟨s', next, after⟩ := steps_ok stepped
  obtain ⟨d, after, gone⟩ := (Option.any_eq_true _ _).mp after
  have step := claim fresh (answered [0x40, 2, 0, 1] 0 ++ [.quiet]) fresh_initial _ .quiet [] s s' rfl
    (after_path done) s.admits_quiet next
  -- The entry was a QoS 2 one, and a PUBACK took it out of the window.
  obtain ⟨p, op, -, final⟩ := step.removed 1 c d 1 e found after inWindow (by
    rintro ⟨f, there, -⟩
    simp [there] at gone)
  rw [handles, op] at isPuback
  rw [if_pos qos2, beq_iff_eq.mp isPuback] at final
  exact absurd final.1 (by decide)

end Loop

end MioBroker
