import MioBroker.Sender
import MioBroker.Scenario

/-!
# Resuming a stored session

The session flush hands the whole offline queue to a connection that has just been accepted.
The queue holds up to 1024 messages; the window of the connection has room for 256.
-/
namespace MioBroker

open Rust

/-- The packets the flush queues, the next free packet id being `pid`. -/
def flushQueue : UInt16 → List (Str × Bytes × UInt8) → List (Bool × Bytes)
  | _, [] => []
  | pid, (topic, payload, qos) :: rest =>
    if qos = 0 then (false, buildForward topic.bytes payload 0 none false false) :: flushQueue pid rest
    else (true, buildForward topic.bytes payload qos (some pid) false false) :: flushQueue (pid + 1) rest

/-- How many of the messages need a place in the window. -/
def reliableMessages (msgs : List (Str × Bytes × UInt8)) : Nat := msgs.countP fun m => m.2.2 ≠ 0

namespace Client

/-- The ids 1 to `k` are in flight, and `k + 1` is next. -/
structure Counting (k : Nat) (c : Client) : Prop where
  next : c.nextPid = UInt16.ofNat (k + 1)
  size : c.inFlight.size = k
  used : ∀ pid entry, c.inFlight.get? pid = some entry → pid.toNat ≤ k

theorem allocPid_counting {k : Nat} {c : Client} (counting : c.Counting k) (room : k < IN_FLIGHT_CAP) :
    c.allocPid = ({ c with nextPid := UInt16.ofNat (k + 1) + 1 }, some (UInt16.ofNat (k + 1))) := by
  have small : k < 256 := room
  have value : (UInt16.ofNat (k + 1)).toNat = k + 1 := by
    rw [UInt16.toNat_ofNat']
    omega
  have nonzero : UInt16.ofNat (k + 1) ≠ 0 := by
    intro zero
    rw [zero] at value
    cases value
  -- The ids in use are 1 to k, so the next one is free at the first try.
  have unused : c.inFlight.contains (UInt16.ofNat (k + 1)) = false := by
    rw [HashMap.contains_eq_false]
    by_contra there
    obtain ⟨entry, found⟩ := Option.ne_none_iff_exists'.mp there
    have := counting.used _ entry found
    omega
  have search : allocPidLoop c.inFlight 65536 c.nextPid =
      (UInt16.ofNat (k + 1) + 1, some (UInt16.ofNat (k + 1))) := by
    rw [counting.next, allocPidLoop, if_neg nonzero, unused]
    rfl
  rw [allocPid, if_neg (by rw [counting.size]; omega), search]

/-- The next reliable message takes the next id. -/
theorem offer_counting {k : Nat} {c : Client} (counting : c.Counting k) (window : k < IN_FLIGHT_CAP)
    (queue : c.writeQueue.length < WRITE_QUEUE_CAP) (now : Instant) (topic : Str) (payload : Bytes)
    (qos : UInt8) (isReliable : qos ≠ 0) :
    ∃ d, c.offer now topic payload qos false = .queued d ∧ d.Counting (k + 1) ∧
      d.writeQueue = c.writeQueue ++
        [(true, buildForward topic.bytes payload qos (some (UInt16.ofNat (k + 1))) false false)] := by
  -- There is room, so nothing is evicted.
  have queued : ∀ pkt, ({ c with nextPid := UInt16.ofNat (k + 1) + 1 } : Client).queueQos1 pkt =
      ({ c with
        nextPid := UInt16.ofNat (k + 1) + 1
        writeQueue := c.writeQueue ++ [(true, pkt)] }, .ok ()) := by
    intro pkt
    simp only [queueQos1, makeRoom_short _ _ queue]
  have small : k < 256 := window
  have unused : c.inFlight.get? (UInt16.ofNat (k + 1)) = none := by
    by_contra there
    obtain ⟨entry, found⟩ := Option.ne_none_iff_exists'.mp there
    have := counting.used _ entry found
    rw [UInt16.toNat_ofNat'] at this
    omega
  have offered : c.offer now topic payload qos false = .queued { c with
      nextPid := UInt16.ofNat (k + 1) + 1
      writeQueue := c.writeQueue ++
        [(true, buildForward topic.bytes payload qos (some (UInt16.ofNat (k + 1))) false false)]
      inFlight := c.inFlight.insert (UInt16.ofNat (k + 1))
        ⟨buildForward topic.bytes payload qos (some (UInt16.ofNat (k + 1))) false false, now, 0,
          qos == 2, false⟩ } := by
    rw [offer, if_neg isReliable, allocPid_counting counting window]
    simp only [queued]
  refine ⟨_, offered, ⟨?_, ?_, ?_⟩, rfl⟩
  · apply UInt16.toNat_inj.mp
    have one : (1 : UInt16).toNat = 1 := rfl
    simp only [UInt16.toNat_add, UInt16.toNat_ofNat', one]
    omega
  · rw [HashMap.size_insert_new _ _ _ unused, counting.size]
  · intro pid entry found
    rw [HashMap.get?_insert] at found
    split at found
    next same =>
      rw [same, UInt16.toNat_ofNat']
      omega
    next => exact Nat.le_succ_of_le (counting.used pid entry found)

end Client

namespace Broker

variable {t : Token}

/-- The flush fills the queue message by message until the window is exhausted. -/
theorem deliverEach_counting (msgs : List (Str × Bytes × UInt8)) (b : Broker) (c : Client) (k : Nat)
    (found : b.clients.get? t = some c) (counting : c.Counting k)
    (room : c.writeQueue.length + msgs.length ≤ WRITE_QUEUE_CAP) :
    (k + reliableMessages msgs ≤ IN_FLIGHT_CAP →
      (deliverEach t false msgs b).2 = .ok () ∧
        ∃ d, (deliverEach t false msgs b).1.clients.get? t = some d ∧
          d.writeQueue = c.writeQueue ++ flushQueue (UInt16.ofNat (k + 1)) msgs) ∧
    (IN_FLIGHT_CAP < k + reliableMessages msgs → k ≤ IN_FLIGHT_CAP →
      (deliverEach t false msgs b).2 = .error ()) := by
  induction msgs generalizing b c k with
  | nil =>
    refine ⟨fun _ => ⟨rfl, c, found, by simp [flushQueue]⟩, fun exceeds fits => ?_⟩
    simp only [reliableMessages, List.countP_nil] at exceeds
    omega
  | cons m msgs ih =>
    obtain ⟨topic, payload, qos⟩ := m
    rw [List.length_cons] at room
    simp only [deliverEach]
    by_cases unreliable : qos = 0
    · subst unreliable
      have count : reliableMessages ((topic, payload, 0) :: msgs) = reliableMessages msgs := by
        simp [reliableMessages]
      obtain ⟨e, queued, counting', queue⟩ : ∃ e : Client,
          c.offer b.now topic payload 0 false = .queued e ∧ e.Counting k ∧
          e.writeQueue = c.writeQueue ++ [(false, buildForward topic.bytes payload 0 none false false)] :=
        ⟨_, c.offer_qos0_room b.now topic payload false (by omega),
          ⟨counting.next, counting.size, counting.used⟩, rfl⟩
      rw [deliverTo_queued b t topic payload 0 false c e found queued, count]
      obtain ⟨fits, exceeds⟩ := ih { b with
        clients := b.clients.insert t e
        sysPubSent := b.sysPubSent + 1
        deliverLog := b.deliverLog ++ [e.delivery topic payload 0] } e k
        (HashMap.get?_insert_self _ _ _) counting'
        (by rw [queue, List.length_append, List.length_singleton]; omega)
      refine ⟨fun within => ?_, exceeds⟩
      obtain ⟨done, d, there, queue'⟩ := fits within
      exact ⟨done, d, there, by rw [queue', queue, List.append_assoc]; rfl⟩
    · have count : reliableMessages ((topic, payload, qos) :: msgs) = reliableMessages msgs + 1 := by
        simp [reliableMessages, unreliable]
      rw [count]
      by_cases window : k < IN_FLIGHT_CAP
      · obtain ⟨e, queued, counting', queue⟩ :=
          Client.offer_counting counting window (by omega) b.now topic payload qos unreliable
        rw [deliverTo_queued b t topic payload qos false c e found queued]
        obtain ⟨fits, exceeds⟩ := ih { b with
          clients := b.clients.insert t e
          sysPubSent := b.sysPubSent + 1
          deliverLog := b.deliverLog ++ [e.delivery topic payload qos] } e (k + 1)
          (HashMap.get?_insert_self _ _ _) counting'
          (by rw [queue, List.length_append, List.length_singleton]; omega)
        refine ⟨fun within => ?_, fun beyond _ => exceeds (by omega) (by omega)⟩
        obtain ⟨done, d, there, queue'⟩ := fits (by omega)
        refine ⟨done, d, there, ?_⟩
        have next : UInt16.ofNat (k + 1 + 1) = UInt16.ofNat (k + 1) + 1 := by
          apply UInt16.toNat_inj.mp
          have one : (1 : UInt16).toNat = 1 := rfl
          simp only [UInt16.toNat_add, UInt16.toNat_ofNat', one]
          omega
        rw [queue', queue, List.append_assoc, next, flushQueue, if_neg unreliable]
        rfl
      · -- the message that finds the window exhausted costs the connection its entry
        have dropped : c.offer b.now topic payload qos false = .dropped := by
          rw [Client.offer, if_neg unreliable,
            Client.allocPid_full c (by rw [counting.size]; omega)]
        rw [deliverTo_dropped b t topic payload qos false c found dropped]
        exact ⟨fun within => by omega, fun _ _ => rfl⟩

end Broker

/-- What resuming the session `sess` on the connection `t` must lead to. -/
structure Resumed (b : Broker) (t : Token) (cid : Str) (sess : SessionState) : Prop where
  connected : ∃ d, b.clients.get? t = some d ∧
    d.writeQueue = (false, buildConnack) :: flushQueue 1 (Broker.flushList sess)
  subs : b.subsOf t = sess.subs
  erased : b.sessions.get? cid = none

namespace Broker

variable {b : Broker} {t : Token}

/-- The state a persistent CONNECT reaches before the flush: subscriptions restored, fields set,
CONNACK queued. -/
theorem connect_before_flush {c : Client} {q : ConnectPacket} {body : Bytes}
    (found : b.clients.get? t = some c) (parse : parseConnect body = .ok (some q))
    (persistent : q.cleanSession = false) :
    ∃ d : Broker, d.clients = b.clients.insert t (c.applyConnect q b.now) ∧
      d.sessions = b.sessions ∧ d.deliverLog = b.deliverLog ∧
      (∀ sess, b.sessions.get? q.cid = some sess →
        d.subs = b.subs ++ sess.subs.map (fun sub => ⟨sub.1, t, sub.2⟩)) ∧
      b.handleConnect t body =
        match d.flushSession t q.cid with
        | (e, .ok ()) => .ok (e.countConnect, .ok ())
        | (e, .error r) => .ok (e, .error r) := by
  rw [handleConnect, parse, Run.ok_bind]
  cases stored : b.sessions.get? q.cid with
  | none =>
    refine ⟨{ b with clients := b.clients.insert t (c.applyConnect q b.now) }, rfl, rfl, rfl,
      fun sess other => (by cases other), ?_⟩
    simp only [persistent, Bool.false_eq_true, if_false, stored, modifyClient, found, Run.ok_bind]
    rfl
  | some sess =>
    obtain ⟨subsExact, subsWild, restored⟩ := restoreSubs_frame sess.subs b t
    refine ⟨{ b.restoreSubs t sess.subs with clients := b.clients.insert t (c.applyConnect q b.now) },
      rfl, by rw [restored], by rw [restored], fun sess' same => ?_, ?_⟩
    · cases same
      rw [restored]
    · -- The subscriptions are restored before the record is written.
      have modified : (b.restoreSubs t sess.subs).modifyClient t
          (fun c => c.applyConnect q (b.restoreSubs t sess.subs).now) =
          .ok { b.restoreSubs t sess.subs with
            clients := b.clients.insert t (c.applyConnect q b.now) } := by
        rw [restored]
        simp [modifyClient, found]
      simp only [persistent, Bool.false_eq_true, if_false, stored, modified, Run.ok_bind]
      rfl

/-- The flush on a connection that holds a CONNACK and nothing else. -/
theorem flushSession_fresh {c : Client} {cid : Str} {sess : SessionState}
    (found : b.clients.get? t = some c) (counting : c.Counting 0)
    (queue : c.writeQueue = [(false, buildConnack)]) (stored : b.sessions.get? cid = some sess)
    (within : sess.offline.length ≤ OFFLINE_CAP) :
    (reliableMessages (flushList sess) ≤ IN_FLIGHT_CAP →
      ∃ e, b.flushSession t cid = (e, .ok ()) ∧ e.subs = b.subs ∧ e.sessions.get? cid = none ∧
        ∃ d, e.clients.get? t = some d ∧
          d.writeQueue = (false, buildConnack) :: flushQueue 1 (flushList sess)) ∧
    (IN_FLIGHT_CAP < reliableMessages (flushList sess) →
      ∃ e, b.flushSession t cid = (e, .error "client dropped during session flush")) := by
  have length : (flushList sess).length = sess.offline.length := by simp [flushList]
  -- The backlog is capped well below the write queue, so only the window can fill.
  have room : c.writeQueue.length + (flushList sess).length ≤ WRITE_QUEUE_CAP := by
    rw [queue, length]
    exact Nat.le_trans (Nat.add_le_add_left within 1) (by decide)
  obtain ⟨fits, exceeds⟩ := deliverEach_counting (flushList sess) b c 0 found counting room
  obtain ⟨clients, sent, log, frame⟩ := deliverEach_frame t false (flushList sess) b
  rw [Nat.zero_add] at fits exceeds
  simp only [flushSession, stored]
  generalize deliverEach t false (flushList sess) b = result at fits exceeds frame
  obtain ⟨e, answer⟩ := result
  simp only at fits exceeds frame
  constructor
  · intro small
    obtain ⟨rfl, d, there, queued⟩ := fits small
    obtain ⟨_, erased⟩ := e.eraseSession_frame cid
    refine ⟨_, rfl, by rw [erased, frame], ?_, d, by rw [erased]; exact there, ?_⟩
    · rw [eraseSession_get?, if_pos rfl]
    · rw [queued, queue]
      rfl
  · intro large
    have failed := exceeds large (Nat.zero_le _)
    subst failed
    exact ⟨e, rfl⟩

/-- The first part of the batch that brings the CONNECT. -/
theorem beginBatch_fresh {h₁ h₂ : RandomState UInt16} {buf : Bytes} {p : Packet}
    (framed : (frame buf).pkts = [p] ∧ (frame buf).bad = none) :
    (b.withBuffer t (.accepted t h₁ h₂) buf).beginBatch t =
      .ok (b.withBuffer t (.accepted t h₁ h₂) (frame buf).rest, .ok [p]) := by
  have nonempty : buf ≠ [] := by
    rintro rfl
    cases framed.1
  simp [beginBatch, withBuffer, nonempty, framed.1, framed.2, Client.refreshKeepalive,
    Client.accepted]

end Broker

/-- How the CONNECT of a connection that has sent nothing yet ends. -/
theorem resume_outcome (b : Broker) (t : Token) (h₁ h₂ : RandomState UInt16)
    (silent : ∀ sub ∈ b.subs, sub.token ≠ t) (sess : SessionState) (q : ConnectPacket)
    (stored : b.sessions.get? q.cid = some sess) (within : sess.offline.length ≤ OFFLINE_CAP)
    (buf : Bytes) (flags : UInt8) (body : Bytes)
    (framed : (frame buf).pkts = [⟨CONNECT, flags, body⟩] ∧ (frame buf).bad = none)
    (parse : parseConnect body = .ok (some q)) (persistent : q.cleanSession = false) :
    (reliableMessages (Broker.flushList sess) ≤ IN_FLIGHT_CAP →
      ∃ b', (b.withBuffer t (.accepted t h₁ h₂) buf).handlePackets t = .ok (b', .ok ()) ∧
        Resumed b' t q.cid sess) ∧
    (IN_FLIGHT_CAP < reliableMessages (Broker.flushList sess) →
      ∃ b', (b.withBuffer t (.accepted t h₁ h₂) buf).handlePackets t =
        .ok (b', .error "client dropped during session flush")) := by
  have found : (b.withBuffer t (.accepted t h₁ h₂) (frame buf).rest).clients.get? t =
      some { Client.accepted t h₁ h₂ with readBuf := (frame buf).rest } :=
    HashMap.get?_insert_self _ _ _
  obtain ⟨d, clients, sessions, -, restored, handled⟩ :=
    Broker.connect_before_flush found parse persistent
  have subs := restored sess stored
  have found_d : d.clients.get? t = some (({ Client.accepted t h₁ h₂ with
      readBuf := (frame buf).rest } : Client).applyConnect q b.now) := by
    rw [clients]
    exact HashMap.get?_insert_self _ _ _
  obtain ⟨fits, exceeds⟩ := Broker.flushSession_fresh found_d
    ⟨rfl, rfl, fun pid entry there => by cases there⟩ rfl (sessions ▸ stored) within
  have dispatched : (b.withBuffer t (.accepted t h₁ h₂) (frame buf).rest).dispatch t
      ⟨CONNECT, flags, body⟩ =
      (b.withBuffer t (.accepted t h₁ h₂) (frame buf).rest).handleConnect t body := rfl
  rw [Broker.handlePackets, Broker.beginBatch_fresh framed, Run.ok_bind]
  simp only [Broker.dispatchAll, dispatched, handled]
  constructor
  · intro small
    obtain ⟨e, flushed, same, erased, c, there, queue⟩ := fits small
    refine ⟨e.countConnect.countPackets 1, by rw [flushed]; rfl, ⟨c, there, queue⟩, ?_, erased⟩
    have own : e.subs = b.subs ++ sess.subs.map (fun sub => ⟨sub.1, t, sub.2⟩) := same.trans subs
    -- The token is new, and nobody else subscribes under it.
    have others : b.subs.filter (fun sub => sub.token = t) = [] := by
      rw [List.filter_eq_nil_iff]
      exact fun sub member => by simpa using silent sub member
    simp [Broker.subsOf, Broker.countConnect, Broker.countPackets, own, others, List.filter_map,
      Function.comp_def]
  · intro large
    obtain ⟨e, flushed⟩ := exceeds large
    exact ⟨e, by rw [flushed]; rfl⟩

/-- A CONNECT with clean_session 0 on a connection that has sent nothing yet resumes the stored
session, with all its subscriptions and all its messages, exactly when the messages that need
a place in the window are no more than the window has. -/
theorem resume_iff (b : Broker) (t : Token) (h₁ h₂ : RandomState UInt16)
    (silent : ∀ sub ∈ b.subs, sub.token ≠ t) (cid : Str) (sess : SessionState)
    (stored : b.sessions.get? cid = some sess) (within : sess.offline.length ≤ OFFLINE_CAP)
    (buf : Bytes) (flags : UInt8) (body : Bytes) (q : ConnectPacket)
    (framed : (frame buf).pkts = [⟨CONNECT, flags, body⟩] ∧ (frame buf).bad = none)
    (parse : parseConnect body = .ok (some q)) (id : q.cid = cid)
    (persistent : q.cleanSession = false) :
    (∃ b', (b.withBuffer t (.accepted t h₁ h₂) buf).handlePackets t = .ok (b', .ok ()) ∧
      Resumed b' t cid sess) ↔ reliableMessages (Broker.flushList sess) ≤ IN_FLIGHT_CAP := by
  subst id
  obtain ⟨fits, exceeds⟩ :=
    resume_outcome b t h₁ h₂ silent sess q stored within buf flags body framed parse persistent
  refine ⟨fun ⟨b', done, _⟩ => ?_, fits⟩
  by_contra large
  obtain ⟨e, failed⟩ := exceeds (Nat.not_le.mp large)
  rw [failed] at done
  cases done

/-- What `parse_connect` reads off the CONNECT of client `a` with clean_session 0. -/
def connectA : ConnectPacket :=
  ⟨.fromUtf8Lossy [97], 0, false, 0, false, .empty, [], false⟩

theorem frame_connectA : (frame (connectBytes 0 97)).pkts =
    [⟨CONNECT, 0, [0, 4, 77, 81, 84, 84, 4, 0, 0, 0, 0, 1, 97]⟩] ∧
    (frame (connectBytes 0 97)).bad = none := by
  decide +kernel

theorem parse_connectA : parseConnect [0, 4, 77, 81, 84, 84, 4, 0, 0, 0, 0, 1, 97] =
    .ok (some connectA) := rfl

/-- A session with one subscription and one QoS 1 message. -/
def sessionA : SessionState :=
  ⟨[(.fromUtf8Lossy [116], 1)], [(.fromUtf8Lossy [116], [120], 1)]⟩

theorem resume_iff_sessionA : ∃ b b' : Broker, b.sessions.get? connectA.cid = some sessionA ∧
    (b.withBuffer 1 (.accepted 1 default default) (connectBytes 0 97)).handlePackets 1 =
      .ok (b', .ok ()) ∧ Resumed b' 1 connectA.cid sessionA := by
  have resumed := (resume_iff
    { Loop.fresh.broker with sessions := (HashMap.new default).insert connectA.cid sessionA } 1
    default default (fun sub member => by cases member) connectA.cid sessionA
    (HashMap.get?_insert_self _ _ _) (by decide) _ _ _ _ frame_connectA parse_connectA rfl rfl).mpr
    (by decide +kernel)
  exact ⟨_, resumed.choose, HashMap.get?_insert_self _ _ _, resumed.choose_spec⟩

/-- Client `a` subscribes to `t` at QoS 1 and goes away; client `b` publishes 257 QoS 1 messages
to `t`; a new connection is waiting at the listener. -/
def away : List Io :=
  [Io.listen, .connection] ++ List.replicate 3 Io.quiet ++
    [Io.read (connectBytes 0 97 ++ [0x82, 6, 0, 1, 0, 1, 116, 1])] ++ List.replicate 14 Io.quiet ++
    [Io.read [], .quiet] ++ List.replicate 7 Io.quiet ++
    [Io.listen, .connection] ++ List.replicate 3 Io.quiet ++
    [Io.read (connectBytes 0 98 ++ (List.replicate 257 [0x32, 5, 0, 1, 116, 0, 1]).flatten)] ++
    List.replicate 267 Io.quiet ++ [Io.listen]

/-- The client whose session holds 257 QoS 1 messages cannot come back. -/
theorem resume_fails :
    ¬∀ s : Loop, s.Reachable → ∀ t h₁ h₂, s.broker.clients.get? t = some (.accepted t h₁ h₂) →
      (∀ sub ∈ s.broker.subs, sub.token ≠ t) → ∀ cid sess, s.broker.sessions.get? cid = some sess →
      sess.offline.length ≤ OFFLINE_CAP → ∀ buf flags body q,
      (frame buf).pkts = [⟨CONNECT, flags, body⟩] ∧ (frame buf).bad = none →
      parseConnect body = .ok (some q) → q.cid = cid → q.cleanSession = false →
      ∃ b', (s.broker.withBuffer t (.accepted t h₁ h₂) buf).handlePackets t = .ok (b', .ok ()) ∧
        Resumed b' t cid sess := by
  intro claim
  obtain ⟨s, done, checked⟩ := Loop.exists_after away (fun s =>
    s.pc.listens &&
    decide (s.broker.nextToken = 3 ∧ s.broker.subs = []) &&
    (s.broker.sessions.get? connectA.cid).any fun sess : SessionState =>
      decide (sess.offline.length = 257 ∧ reliableMessages (Broker.flushList sess) = 257))
    (by decide +kernel)
  simp only [Bool.and_eq_true, Option.any_eq_true, decide_eq_true_eq] at checked
  obtain ⟨⟨listening, token, subs⟩, sess, stored, length, reliable⟩ := checked
  have waiting := Pc.eq_of_listens listening
  -- the connection is accepted
  have step : s.step .connection = .ok { s with broker := s.broker.accept default default } := by
    rw [Loop.step_ok]
    refine ⟨s.broker.accept default default, .ok [], ?_, ?_⟩
    · simp [Loop.op, Loop.next, Io.connection, waiting, Op.run]
    · simp [Loop.pcAfter, Loop.next, Io.connection, waiting]
  have admitted : s.admits .connection = true := by
    simp [Loop.admits, Io.connection, Os.quiet, waiting]
  have found : (s.broker.accept default default).clients.get? 3 =
      some (.accepted 3 default default) := by
    rw [Broker.accept, token]
    exact HashMap.get?_insert_self _ _ _
  have silent : ∀ sub ∈ (s.broker.accept default default).subs, sub.token ≠ 3 := by
    intro sub member
    rw [Broker.accept, subs] at member
    cases member
  have within : sess.offline.length ≤ OFFLINE_CAP := by
    rw [length]
    decide
  obtain ⟨b', resumed, -⟩ := claim _ ((Loop.after_reachable done).next admitted step) 3 default
    default found silent connectA.cid sess stored within _ _ _ _ frame_connectA parse_connectA rfl rfl
  obtain ⟨e, failed⟩ := (resume_outcome (s.broker.accept default default) 3 default default silent sess
    connectA stored within _ _ _ frame_connectA parse_connectA rfl).2 (by rw [reliable]; decide)
  rw [failed] at resumed
  cases resumed

end MioBroker
