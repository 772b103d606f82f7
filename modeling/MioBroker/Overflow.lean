import MioBroker.Sender
import MioBroker.Scenario

/-!
# A client that overflows its own window

A persistent client with a will subscribes to the topic it publishes to. Its PUBLISH packets
fill its own window one by one; the last of them costs it its entry in the client map.
-/
namespace MioBroker

open Rust

namespace Client

@[simp] theorem reliable_reply (c : Client) (pkt : Bytes) : (c.reply pkt).reliable = c.reliable := by
  simp only [reply, queueQos0]
  split
  · rfl
  · simp [reliable, List.countP_append]

theorem offered_reply (c : Client) (pkt : Bytes) : Offered c (c.reply pkt) := by
  constructor
  simp only [reply, queueQos0]
  split <;> rfl

/-- One reliable message that finds room. -/
theorem serve_one (c : Client) (capped : c.Capped) (now : Instant) (topic : Str) (payload : Bytes)
    (qos : UInt8) (isReliable : qos ≠ 0) (window : c.inFlight.size < IN_FLIGHT_CAP)
    (queue : c.reliable < WRITE_QUEUE_CAP) :
    ∃ d, serve now topic payload [qos] (some c) = some d ∧ Offered c d ∧
      d.inFlight.size = c.inFlight.size + 1 ∧ d.reliable = c.reliable + 1 ∧
      failures now topic payload [qos] (some c) = 0 := by
  obtain ⟨d, done⟩ :=
    (offer_reliable_iff c now topic payload qos false isReliable capped.queue).mpr ⟨window, queue⟩
  obtain ⟨sizes, reliable, -⟩ :=
    offer_reliable_counts c d now topic payload qos false isReliable capped.queue done
  refine ⟨d, by simp [serve, done], offered_of_offer c d now topic payload qos false done, sizes,
    reliable, by simp [failures, done]⟩

/-- One reliable message that finds no room. -/
theorem failures_one (c : Client) (now : Instant) (topic : Str) (payload : Bytes) (qos : UInt8)
    (gone : serve now topic payload [qos] (some c) = none) :
    failures now topic payload [qos] (some c) = 1 := by
  simp only [serve] at gone
  simp only [failures]
  split at gone
  · cases gone
  · cases gone
  · simp

end Client

namespace Broker

variable {b : Broker} {t : Token} {p : Packet} {q : PublishPacket} {c : Client} {pid : UInt16}

/-- A routed QoS1 PUBLISH: the sender is acknowledged, then the message is published. -/
theorem dispatch_qos1 (healthy : b.Healthy) (found : b.clients.get? t = some c)
    (isPublish : p.ptype = PUBLISH) (routed : b.noRouting p.flags = false)
    (parse : parsePublish p.flags p.body = .ok (some q)) (qos1 : q.qos = 1) (id : q.pid = some pid) :
    ∃ d e, d = { b with clients := b.clients.insert t (c.reply (buildPuback pid)) } ∧ d.Healthy ∧
      Published d e q.topic q.payload q.qos q.retain ∧
      b.packetCall t p = some ⟨d, q.topic, q.payload, q.qos, q.retain⟩ ∧
      b.dispatch t p = .ok ({ e.countPublish with deadPruned := 0 }, .ok ()) := by
  -- PUBACK is queued first, and it takes a place in the write queue.
  have acked : b.acknowledge t q =
      .ok ({ b with clients := b.clients.insert t (c.reply (buildPuback pid)) }, false) := by
    simp [acknowledge, id, qos1, modifyClient, found, Except.map]
  have healthy' := (acknowledge_acts isPublish parse acked).healthy healthy
  obtain ⟨e, n, run, spec⟩ :=
    publish_spec { b with clients := b.clients.insert t (c.reply (buildPuback pid)) } healthy'.indexed
      q.topic q.payload q.qos q.retain
  refine ⟨_, e, rfl, healthy', spec, ?_, ?_⟩
  · simp [packetCall, isPublish, routed, parse, acked]
  · have dispatched : b.dispatch t p = b.handlePublish t p.flags p.body := by
      rw [dispatch, isPublish]
      rfl
    rw [dispatched, handlePublish, routed]
    simp only [Bool.false_eq_true, if_false, publishRouted, parse, Run.ok_bind, acked, run]
    rfl

end Broker

/-! ### The scenario -/

def topicT : Str := .fromUtf8Lossy [116]
def topicU : Str := .fromUtf8Lossy [117]
def clientA : Str := .fromUtf8Lossy [97]

/-- PUBLISH of QoS 1 to `t`, packet id 1, empty payload. -/
def selfPublish : Packet := ⟨PUBLISH, 2, [0, 1, 116, 0, 1]⟩

theorem parse_selfPublish : parsePublish selfPublish.flags selfPublish.body =
    .ok (some ⟨topicT, 1, some 1, [], false⟩) := rfl

/-- The will of the scenario's client: `x` to topic `w`, QoS 0. -/
def willW : Will := ⟨.fromUtf8Lossy [119], [120], 0, false⟩

/-- Client `a` is connected with token 1, subscribed to `t` at QoS 1 and to `u` at QoS 0, and has
`k` messages in flight. -/
structure Filled (k : Nat) (b : Broker) : Prop where
  healthy : b.Healthy
  subs : b.subs = [⟨topicT, 1, 1⟩, ⟨topicU, 1, 0⟩]
  client : ∃ c, b.clients.get? 1 = some c ∧ c.inFlight.size = k ∧ c.reliable = k ∧
    c.will = some willW ∧ c.cleanDisconnect = false ∧ c.cleanSession = false ∧ c.clientId = clientA
  unwilled : b.willLog = []
  unsaved : b.sessions.get? clientA = none

/-- The client is gone from the client map and from nowhere else: a subscription stays behind,
its will is not published, no session is stored. -/
structure Lost (b : Broker) : Prop where
  healthy : b.Healthy
  gone : b.clients.get? 1 = none
  orphan : ∃ s ∈ b.subs, s.token = 1
  unwilled : b.willLog = []
  unsaved : b.sessions.get? clientA = none

namespace Filled

variable {k : Nat} {b : Broker} {t : Token}

theorem forwards (filled : Filled k b) : b.forwards 1 topicT 1 = [1] := by
  rw [Broker.forwards, filled.subs]
  decide +kernel

theorem forwards_other (filled : Filled k b) (t : Token) (other : t ≠ 1) :
    b.forwards t topicT 1 = [] := by
  rw [Broker.forwards, filled.subs]
  simp [Ne.symm other]

theorem routed (filled : Filled k b) : b.noRouting selfPublish.flags = false := by
  simp [Broker.noRouting, filled.subs]

/-- Answering a connection, or reading from it, leaves window and queue of client `a` alone. -/
theorem modify (filled : Filled k b) {c d : Client} (found : b.clients.get? t = some c)
    (capped : d.Capped) (window : d.inFlight = c.inFlight) (reliable : d.reliable = c.reliable)
    (same : Client.SameIdentity c d) (unclean : d.cleanDisconnect = c.cleanDisconnect) :
    Filled k { b with clients := b.clients.insert t d } := by
  refine ⟨⟨filled.healthy.indexed, filled.healthy.modify t d capped⟩, filled.subs, ?_,
    filled.unwilled, filled.unsaved⟩
  by_cases own : t = 1
  · subst own
    obtain ⟨c', found', facts⟩ := filled.client
    cases found.symm.trans found'
    refine ⟨d, HashMap.get?_insert_self _ _ _, ?_⟩
    rw [window, reliable, same.will, unclean, same.cleanSession, same.clientId]
    exact facts
  · obtain ⟨c', found', facts⟩ := filled.client
    exact ⟨c', by rw [HashMap.get?_insert_ne _ _ (Ne.symm own), found'], facts⟩

/-- A batch of any connection leaves them as they are when it begins. -/
theorem batch {c : Client} (filled : Filled k b) (found : b.clients.get? t = some c) (buf : Bytes)
    (pkts : List Packet) (nonempty : buf ≠ [])
    (framed : (frame buf).pkts = pkts ∧ (frame buf).bad = none) :
    ∃ b₁, (b.withBuffer t c buf).beginBatch t = .ok (b₁, .ok pkts) ∧ Filled k b₁ ∧
      ∃ d, b₁.clients.get? t = some d := by
  -- The buffer is cut behind the last packet and the keepalive is refreshed.
  have begun : (b.withBuffer t c buf).beginBatch t = .ok ({ b with
      clients := b.clients.insert t
        (({ c with readBuf := (frame buf).rest } : Client).refreshKeepalive b.now) },
      .ok pkts) := by
    simp [Broker.beginBatch, Broker.withBuffer, nonempty, framed.1, framed.2]
  have capped := filled.healthy.capped t c found
  refine ⟨_, begun, filled.modify found ?_ ?_ ?_ ?_ ?_, _, HashMap.get?_insert_self _ _ _⟩
  · exact (capped.change b.now (.buffer (frame buf).rest)).change b.now .alive
  all_goals
    simp only [Client.refreshKeepalive]
    split
  all_goals first
    | rfl
    | exact ⟨rfl, rfl, rfl⟩

/-- The same for the chunk that brings the batch. -/
theorem receive {c : Client} (filled : Filled k b) (found : b.clients.get? t = some c)
    (empty : c.readBuf = []) (chunk : Bytes) (pkts : List Packet) (nonempty : chunk ≠ [])
    (short : chunk.length ≤ READ_CAP)
    (framed : (frame chunk).pkts = pkts ∧ (frame chunk).bad = none) :
    ∃ b₁, b.receive t (.ok chunk) = .ok (b₁, .ok pkts) ∧ Filled k b₁ ∧
      ∃ d, b₁.clients.get? t = some d := by
  obtain ⟨b₁, begun, filled₁⟩ := filled.batch found chunk pkts nonempty framed
  refine ⟨b₁, ?_, filled₁⟩
  obtain ⟨x, xs, rfl⟩ := List.exists_cons_of_ne_nil nonempty
  have read : b.readChunk t (.ok (x :: xs)) = .ok (b.withBuffer t c (x :: xs), .ok true) := by
    have fits : ¬xs.length + 1 > READ_CAP := Nat.not_lt.mpr short
    simp [Broker.readChunk, found, empty, Broker.withBuffer, fits]
  rw [Broker.receive, read, Run.ok_bind]
  simp only [begun, Run.ok_bind, Run.pure_eq]

/-- A PUBLISH of any connection: it is acknowledged, then client `a` is served. -/
theorem call {c : Client} (filled : Filled k b) (found : b.clients.get? t = some c) :
    ∃ d e : Broker, Filled k d ∧ (∃ c, d.clients.get? t = some c) ∧
      Broker.Published d e topicT [] 1 false ∧
      b.packetCall t selfPublish = some ⟨d, topicT, [], 1, false⟩ ∧
      b.dispatch t selfPublish = .ok ({ e.countPublish with deadPruned := 0 }, .ok ()) := by
  obtain ⟨d, e, rfl, -, spec, call, done⟩ :=
    Broker.dispatch_qos1 filled.healthy found rfl filled.routed parse_selfPublish rfl rfl
  refine ⟨_, e, ?_, ⟨_, HashMap.get?_insert_self _ _ _⟩, spec, call, done⟩
  exact filled.modify found
    ((filled.healthy.capped t c found).change b.now (.reply (buildPuback 1))) (by simp) (by simp)
    (c.offered_reply _).sameIdentity (c.offered_reply _).cleanDisconnect

/-- While there is room the next PUBLISH takes one more place in the window. -/
theorem publish {c : Client} (filled : Filled k b) (found : b.clients.get? t = some c)
    (room : k < IN_FLIGHT_CAP) :
    ∃ b', b.dispatch t selfPublish = .ok (b', .ok ()) ∧ Filled (k + 1) b' ∧
      ∃ d, b'.clients.get? t = some d := by
  obtain ⟨d, e, acked, ⟨sender, there⟩, spec, -, done⟩ := filled.call found
  obtain ⟨c, client, window, reliable, will, unclean, persistent, id⟩ := acked.client
  obtain ⟨f, served, offered, window', reliable', complete⟩ :=
    Client.serve_one c (acked.healthy.capped 1 _ client) d.now topicT [] 1 (by decide)
      (by simpa [window] using room)
      (by
        rw [reliable]
        exact Nat.lt_trans room (by decide))
  -- Only client 1 is subscribed, so no other forward can fail.
  have all : ∀ j, Client.failures d.now topicT [] (d.forwards j topicT 1) (d.clients.get? j) = 0 := by
    intro j
    by_cases own : j = 1
    · rw [own, acked.forwards, client]
      exact complete
    · rw [acked.forwards_other j own]
      rfl
  have slot : e.clients.get? 1 = some f := by
    rw [spec.slots 1, acked.forwards, client]
    exact served
  have healthy_e := acked.healthy.publish spec
  refine ⟨_, done, ⟨⟨healthy_e.indexed, healthy_e.capped⟩, ?_, ⟨f, slot, ?_, ?_, ?_⟩, ?_, ?_⟩, ?_⟩
  · exact (spec.kept all).trans acked.subs
  · rw [window', window]
  · rw [reliable', reliable]
  · have frame := offered.frame
    rw [frame]
    exact ⟨will, unclean, persistent, id⟩
  · exact (congrArg Broker.willLog spec.frame).trans acked.unwilled
  · have sessions := spec.sessions clientA
    have gone : e.sessions.get? clientA = none := by simpa [acked.unsaved] using sessions
    exact gone
  · by_cases own : t = 1
    · exact ⟨f, own ▸ slot⟩
    · have untouched := spec.slots t
      rw [acked.forwards_other t own, there] at untouched
      exact ⟨sender, untouched⟩

theorem publishes {c : Client} (filled : Filled k b) (found : b.clients.get? t = some c) (n : Nat)
    (room : k + n ≤ IN_FLIGHT_CAP) :
    ∃ b', Broker.dispatchAll t (List.replicate n selfPublish) b = .ok (b', .ok ()) ∧
      Filled (k + n) b' ∧ ∃ d, b'.clients.get? t = some d := by
  induction n generalizing k b c with
  | zero => exact ⟨b, rfl, filled, c, found⟩
  | succ n ih =>
    obtain ⟨d, first, filled', e, there⟩ := filled.publish found (by omega)
    obtain ⟨b', rest, full⟩ := ih filled' there (by omega)
    refine ⟨b', ?_, by rw [← Nat.add_assoc, Nat.add_right_comm]; exact full⟩
    rw [List.replicate_succ, Broker.dispatchAll, first, Run.ok_bind]
    exact rest

/-- The PUBLISH that finds the window full costs client `a` its entry, whoever sent it. -/
theorem overflow {c : Client} (filled : Filled IN_FLIGHT_CAP b) (found : b.clients.get? t = some c) :
    ∃ b', b.dispatch t selfPublish = .ok (b', .ok ()) ∧ (t = 1 → b.DropsSender t selfPublish) ∧
      Lost b' ∧ (t ≠ 1 → ∃ d, b'.clients.get? t = some d) := by
  obtain ⟨d, e, acked, ⟨sender, there⟩, spec, call, done⟩ := filled.call found
  obtain ⟨c, client, window, reliable, will, unclean, persistent, id⟩ := acked.client
  -- The window is full, so the one forward drops the client.
  have gone : Client.serve d.now topicT [] [1] (some c) = none := by
    have capped := acked.healthy.capped 1 _ client
    rw [Client.serve_eq_none_iff _ _ _ _ _ capped.queue capped.window, window]
    left
    decide
  have slot : e.clients.get? 1 = none := by
    rw [spec.slots 1, acked.forwards, client]
    exact gone
  refine ⟨_, done, ?_, ⟨?_, slot, ?_, ?_, ?_⟩, fun other => ?_⟩
  · rintro rfl
    refine ⟨_, _, call, client, ?_⟩
    rw [window]
    simp only
    rw [acked.forwards]
    left
    decide
  · have healthy_e := acked.healthy.publish spec
    exact ⟨healthy_e.indexed, healthy_e.capped⟩
  · have pruned := spec.pruned 1
    rw [acked.forwards, client, Client.failures_one _ _ _ _ _ gone, acked.subs] at pruned
    -- A single failure prunes a single subscription of the two.
    have left_over : 0 < e.subs.countP (·.token = 1) := by
      have two : ([⟨topicT, 1, 1⟩, ⟨topicU, 1, 0⟩] : List Subscription).countP (·.token = 1) = 2 := by
        decide
      omega
    obtain ⟨s, member, token⟩ := List.countP_pos_iff.mp left_over
    exact ⟨s, member, by simpa using token⟩
  · exact (congrArg Broker.willLog spec.frame).trans acked.unwilled
  · have sessions := spec.sessions clientA
    have gone : e.sessions.get? clientA = none := by simpa [acked.unsaved] using sessions
    exact gone
  · have untouched := spec.slots t
    rw [acked.forwards_other t other, there] at untouched
    exact ⟨sender, untouched⟩

end Filled

/-- The packets of a batch, one step each, as far as they succeed. -/
theorem Loop.packets_path {t : Token} {n : Nat} {next failed : Pc} (pkts rest : List Packet)
    (s : Loop) (here : s.pc = .packets t (pkts ++ rest) n next failed) {b' : Broker}
    (done : Broker.dispatchAll t pkts s.broker = .ok (b', .ok ())) :
    Machine.Path Loop.step (fun s io => s.admits io = true) s (List.replicate pkts.length .quiet)
        { s with broker := b', pc := .packets t rest n next failed } ∧
      s.trace (List.replicate pkts.length .quiet) = pkts.map (.packet t) := by
  induction pkts generalizing s with
  | nil =>
    cases done
    rw [List.nil_append] at here
    rw [← here]
    exact ⟨.nil, rfl⟩
  | cons p pkts ih =>
    simp only [Broker.dispatchAll] at done
    obtain ⟨⟨d, r⟩, first, done⟩ := Run.bind_ok.mp done
    cases r with
    | error e => cases done
    | ok u =>
      -- Each packet of the batch takes one step of the loop.
      have step : s.step .quiet =
          .ok { s with broker := d, pc := .packets t (pkts ++ rest) n next failed } := by
        rw [Loop.step_ok]
        refine ⟨d, .ok [], ?_, ?_⟩
        · simp [Loop.op, Loop.next, Io.quiet, here, Op.run, first]
        · simp [Loop.pcAfter, Loop.next, Io.quiet, here]
      have admitted := s.admits_quiet
      obtain ⟨path, trace⟩ :=
        ih { s with broker := d, pc := .packets t (pkts ++ rest) n next failed } rfl done
      refine ⟨.cons .quiet admitted step path, ?_⟩
      have op : s.op .quiet = .packet t p := by simp [Loop.op, Loop.next, Io.quiet, here]
      rw [List.length_cons, List.replicate_succ, Loop.trace, step, op]
      exact congrArg _ trace

/-- CONNECT of client `a` with clean_session 0 and the will, and SUBSCRIBE to `t` (QoS 1) and
`u` (QoS 0). -/
def greeting : Bytes :=
  [0x10, 19, 0, 4, 77, 81, 84, 84, 4, 4, 0, 0, 0, 1, 97, 0, 1, 119, 0, 1, 120] ++
    [0x82, 10, 0, 1, 0, 1, 116, 1, 0, 1, 117, 0]

/-- One PUBLISH more than the window holds. -/
def flood : Bytes := (List.replicate 257 [0x32, 5, 0, 1, 116, 0, 1]).flatten

/-- The client connects and sends its greeting; the loop comes back to it. -/
def greet : List Io :=
  [Io.listen, .connection] ++ List.replicate 3 Io.quiet ++ [Io.read greeting] ++
    List.replicate 14 Io.quiet

/-- A check for the scenario before its first PUBLISH. -/
def Filled.check (b : Broker) : Bool :=
  decide (b.subs = [⟨topicT, 1, 1⟩, ⟨topicU, 1, 0⟩]) &&
  ((b.clients.get? 1).any fun c => decide (c.inFlight.size = 0 ∧ c.reliable = 0 ∧
    c.will = some willW ∧ c.cleanDisconnect = false ∧ c.cleanSession = false ∧
    c.clientId = clientA)) &&
  decide (b.willLog = []) && !b.sessions.contains clientA

theorem Filled.of_check {b : Broker} (healthy : b.Healthy) (checked : Filled.check b = true) :
    Filled 0 b := by
  simp only [Filled.check, Bool.and_eq_true, Option.any_eq_true, decide_eq_true_eq,
    Bool.not_eq_true', HashMap.contains_eq_false] at checked
  obtain ⟨⟨⟨subs, client⟩, unwilled⟩, unsaved⟩ := checked
  exact ⟨healthy, subs, client, unwilled, unsaved⟩

theorem exists_filled : ∃ s scan c, Loop.after greet = some s ∧ s.pc = .sweep [1] scan ∧
    Filled 0 s.broker ∧ s.broker.clients.get? 1 = some c ∧ c.readBuf = [] := by
  obtain ⟨s, done, checked⟩ := Loop.exists_after greet (fun s =>
    (match s.pc with
      | .sweep todo _ => decide (todo = [1])
      | _ => false) &&
    Filled.check s.broker && (s.broker.clients.get? 1).any fun c : Client => decide (c.readBuf = []))
    (by decide +kernel)
  simp only [Bool.and_eq_true, Option.any_eq_true, decide_eq_true_eq] at checked
  obtain ⟨⟨here, filled⟩, c, found, buf⟩ := checked
  split at here
  next todo scan at_sweep =>
    rw [decide_eq_true_eq] at here
    exact ⟨s, scan, c, done, here ▸ at_sweep,
      .of_check (Loop.after_reachable done).healthy filled, found, buf⟩
  next => cases here

/-- The client sends one more chunk: its packets are handled in a state where its window is
still empty. -/
theorem exists_batch (chunk : Bytes) (pkts : List Packet) (nonempty : chunk ≠ [])
    (short : chunk.length ≤ 65536) (framed : (frame chunk).pkts = pkts ∧ (frame chunk).bad = none) :
    ∃ (ios : List Io) (s : Loop) (n : Nat) (next failed : Pc),
      Machine.Path Loop.step (fun s io => s.admits io = true) Loop.fresh ios s ∧
      Loop.fresh.trace ios = Loop.fresh.trace greet ++ [.receive 1 (.ok chunk)] ∧
      s.pc = .packets 1 pkts n next failed ∧ Filled 0 s.broker := by
  obtain ⟨s, scan, c, done, here, filled, found, empty⟩ := exists_filled
  obtain ⟨b₁, received, filled₁, -⟩ := filled.receive found empty chunk pkts nonempty
    (Nat.le_trans short (by decide)) framed
  have connected : s.broker.clients.contains 1 = true := (HashMap.contains_iff _ _).mpr ⟨c, found⟩
  -- The whole batch is read in one chunk.
  have step : s.step (.read chunk) = .ok { s with
      broker := b₁
      pc := .packets 1 pkts pkts.length (.sweep [] scan) (.close 1 (.sweep [] scan)) } := by
    rw [Loop.step_ok]
    refine ⟨b₁, .ok pkts, ?_, ?_⟩
    · simp [Loop.op, Loop.next, Io.read, here, connected, Op.run, received]
    · simp [Loop.pcAfter, Loop.next, Io.read, here, connected, Loop.afterReceive]
  have admitted : s.admits (.read chunk) = true := by
    simp [Loop.admits, Io.read, here, short]
  have path := Loop.after_path done
  refine ⟨_, _, _, _, _, path.snoc _ admitted step, ?_, rfl, filled₁⟩
  rw [Loop.trace_append path, Loop.trace_single]
  simp [Loop.op, Loop.next, Io.read, here, connected]

theorem frame_flood : (frame flood).pkts = List.replicate 257 selfPublish ∧
    (frame flood).bad = none := by
  decide +kernel

/-- The step that handles the last PUBLISH of the flood. -/
theorem exists_self_overflow : ∃ (ios : List Io) (s s' : Loop),
    Machine.Path Loop.step (fun s io => s.admits io = true) Loop.fresh ios s ∧
    Loop.fresh.trace (ios ++ [.quiet]) =
      Loop.fresh.trace greet ++ .receive 1 (.ok flood) :: List.replicate 257 (.packet 1 selfPublish) ∧
    s.admits .quiet = true ∧ s.step .quiet = .ok s' ∧ Filled IN_FLIGHT_CAP s.broker ∧
    Lost s'.broker := by
  obtain ⟨ios, s, n, next, failed, path, trace, here, filled⟩ :=
    exists_batch flood _ (by decide +kernel) (by decide +kernel) frame_flood
  obtain ⟨c, found, -⟩ := filled.client
  obtain ⟨b, done, full, d, there⟩ := filled.publishes found 256 (by decide)
  obtain ⟨b', last, -, lost, -⟩ := full.overflow there
  -- The last of the publishes is the one that overflows.
  have split : List.replicate 257 selfPublish = List.replicate 256 selfPublish ++ [selfPublish] :=
    List.replicate_succ'
  have more := Loop.packets_path _ [selfPublish] s (split ▸ here) done
  refine ⟨_, _, _, path.append more.1, ?_, ?_, Loop.step_ok.mpr ⟨b', .ok [], ?_, rfl⟩, full, lost⟩
  · have ops : List.replicate 257 (Op.packet 1 selfPublish) =
        List.replicate 256 (.packet 1 selfPublish) ++ [.packet 1 selfPublish] := List.replicate_succ'
    rw [Loop.trace_append (path.append more.1), Loop.trace_append path, trace, more.2,
      Loop.trace_single, List.map_replicate, ops, List.append_assoc, List.append_assoc]
    rfl
  · exact Loop.admits_quiet _
  · simp [Loop.op, Loop.next, Io.quiet, Op.run, last]

end MioBroker
