import MioBroker.Dedup

/-!
# A publisher that comes back

The ids of received QoS 2 messages belong to the connection. A session stores subscriptions and
queued messages only, so a publisher that resumes its session starts with no id received.
-/
namespace MioBroker

open Rust

namespace Loop

/-- The operations of a run, one after the other. -/
theorem trace_path {ok : Loop → Io → Prop} {s t : Loop} {ios : List Io}
    (path : Machine.Path step ok s ios t) :
    Machine.Path Op.step (fun _ _ => True) s.broker (s.trace ios) t.broker := by
  induction path with
  | nil => exact .nil
  | snoc io before _ next ih =>
    rw [trace_append before, trace_single]
    refine ih.snoc _ trivial ?_
    obtain ⟨b, out, ran, rfl⟩ := step_ok.mp next
    simp only [Op.step, ran]

/-- A client with a stored session sends a QoS 2 PUBLISH for the first time in state `s` and loses
its connection without a PUBREL; in state `u` a new connection is accepted that resumes the session,
and in state `v` the same PUBLISH is handled on it for the first time. -/
structure Resumption (s u v : Loop) (sending arriving : Io) (away back : List Io) (t : Token)
    (cid : Str) (p : Packet) (pid : UInt16) : Prop where
  reached : s.Reachable
  publisher : ∃ c, s.broker.clients.get? t = some c ∧ c.clientId = cid ∧ c.cleanSession = false ∧
    cid.isEmpty = false ∧ c.receivedQos2.contains pid = false
  id : p.qos2Id = some pid
  sends : s.op sending = .packet t p
  leaves : Machine.Path step (fun s io => s.admits io = true) s (sending :: away) u
  unreleased : ∀ op ∈ s.trace (sending :: away), ¬op.Releases t pid
  lost : u.broker.clients.get? t = none
  arrives : ∃ h₁ h₂, u.op arriving = .accept h₁ h₂
  returns : Machine.Path step (fun s io => s.admits io = true) u (arriving :: back) v
  unsent : ∀ op ∈ u.trace (arriving :: back), ¬op.Publishes2 u.broker.nextToken pid
  resumed : ∃ c, v.broker.clients.get? u.broker.nextToken = some c ∧ c.clientId = cid ∧
    c.cleanSession = false

/-- The PUBLISH is answered PUBREC and handed on. -/
def HandedOn (s : Loop) (t : Token) (p : Packet) (pid : UInt16) : Prop :=
  ∃ c received b, s.broker.clients.get? t = some c ∧
    s.broker.dispatch t p = .ok (b, .ok ()) ∧
      (s.broker.answer t c received (buildPubrec pid)).HandsOn p b

/-- A new id is handed on. -/
theorem handedOn_of_new {s : Loop} (healthy : s.broker.Healthy) {t : Token} {c : Client}
    (found : s.broker.clients.get? t = some c) {p : Packet} {pid : UInt16}
    (id : p.qos2Id = some pid) (new : c.receivedQos2.contains pid = false) : s.HandedOn t p pid := by
  obtain ⟨received, answered, -⟩ := c.receiveQos2_spec pid
  obtain ⟨b, handled, result⟩ := Broker.dispatch_publishQos2 healthy.indexed found id
  rw [answered, new, if_neg (by simp)] at result
  exact ⟨c, received, b, found, handled, result⟩

/-- A connection that has not published an id has not received it. -/
theorem Resumption.new {s u v : Loop} {sending arriving : Io} {away back : List Io} {t : Token}
    {cid : Str} {p : Packet} {pid : UInt16}
    (resumption : Resumption s u v sending arriving away back t cid p pid) {c : Client}
    (found : v.broker.clients.get? u.broker.nextToken = some c) :
    c.receivedQos2.contains pid = false := by
  obtain ⟨h₁, h₂, accepted⟩ := resumption.arrives
  have reached : u.Reachable := resumption.reached.path resumption.leaves
  obtain ⟨w, -, opened, back_path⟩ := resumption.returns.uncons
  obtain ⟨b, out, ran, rfl⟩ := step_ok.mp opened
  rw [accepted] at ran
  cases ran
  have ids := (received_eq_seen reached (trace_path back_path)).2.2 c found pid
  refine Bool.eq_false_of_not_eq_true fun received => ?_
  obtain ⟨pre, op, post, split, publishes, -⟩ := ids.mp received
  refine resumption.unsent op ?_ publishes
  rw [trace, opened]
  exact List.mem_cons_of_mem _ (by simp [split])

/-- The session does not bring the id back: the message is handed on once on each connection. -/
theorem resent_handed_on (s u v : Loop) (sending arriving : Io) (away back : List Io) (t : Token)
    (cid : Str) (p : Packet) (pid : UInt16)
    (resumption : Resumption s u v sending arriving away back t cid p pid) :
    s.HandedOn t p pid ∧ v.HandedOn u.broker.nextToken p pid := by
  obtain ⟨c, found, -, -, -, new⟩ := resumption.publisher
  obtain ⟨d, there, -⟩ := resumption.resumed
  have reached := (resumption.reached.path resumption.leaves).path resumption.returns
  exact ⟨handedOn_of_new resumption.reached.healthy found resumption.id new,
    handedOn_of_new (Reachable.healthy reached) there resumption.id (resumption.new there)⟩

/-! ### A run -/

/-- PUBLISH of QoS 2 to `t`, packet id 7, empty payload. -/
def publish7 : Packet := ⟨PUBLISH, 4, [0, 1, 116, 0, 7]⟩

/-- CONNECT of client `a` with clean_session 0, and the PUBLISH. -/
def hello : Io := .read (connectBytes 0 97 ++ [0x34, 5, 0, 1, 116, 0, 7])

/-- Client `b` subscribes to `t`; client `a` connects and sends its PUBLISH. -/
def untilSent : List Io :=
  [Io.listen, .connection, .connection] ++ List.replicate 14 Io.quiet ++
    [Io.poll [.client 1 true false, .client 2 true false],
      Io.read (connectBytes 2 98 ++ [0x82, 6, 0, 1, 0, 1, 116, 0])] ++
    List.replicate 4 Io.quiet ++ [hello, .quiet]

/-- The connection ends, and the poll reports a new one. -/
def untilBack : List Io :=
  List.replicate 6 Io.quiet ++ [Io.read [], .quiet] ++ List.replicate 9 Io.quiet ++ [Io.listen]

/-- Client `a` connects again and sends its PUBLISH again. -/
def untilResent : List Io := List.replicate 3 Io.quiet ++ [hello, .quiet]

/-- The connection with the token is client `a`, its session stored, and the PUBLISH is next. -/
def sendsNext (s : Loop) (t : Token) : Bool :=
  (match s.pc with
    | .packets k (p :: _) _ _ _ => k == t && decide (p = publish7)
    | _ => false) &&
  (s.broker.clients.get? t).any fun c : Client => decide (c.clientId = .fromUtf8Lossy [97] ∧
    c.cleanSession = false ∧ c.receivedQos2.contains 7 = false)

theorem sendsNext_spec {s : Loop} {t : Token} (checked : sendsNext s t = true) :
    s.op .quiet = .packet t publish7 ∧ ∃ c, s.broker.clients.get? t = some c ∧
      c.clientId = .fromUtf8Lossy [97] ∧ c.cleanSession = false ∧ c.receivedQos2.contains 7 = false := by
  simp only [sendsNext, Bool.and_eq_true, Option.any_eq_true, decide_eq_true_eq] at checked
  obtain ⟨here, c, found, facts⟩ := checked
  refine ⟨?_, c, found, facts⟩
  split at here
  next k p todo n next' failed at_packets =>
    simp only [Bool.and_eq_true, beq_iff_eq, decide_eq_true_eq] at here
    simp [op, next, Io.quiet, at_packets, here.1, here.2]
  next => cases here

/-- Every operation but packets, and the packets of one kind. -/
def spares (kind : Packet → Option UInt16) (op : Op) : Bool :=
  match op with
  | .packet _ p => kind p != some 7
  | _ => true

theorem exists_resumption : ∃ (s u v : Loop) (sending arriving : Io) (away back : List Io),
    Resumption s u v sending arriving away back 2 (.fromUtf8Lossy [97]) publish7 7 := by
  obtain ⟨s, to_s, checked⟩ := exists_after untilSent (fun s => sendsNext s 2 &&
    (s.trace (.quiet :: untilBack)).all (spares Packet.releasedId) &&
    (Machine.runChecked step admits s (.quiet :: untilBack)).any fun u =>
      !u.broker.clients.contains 2 && u.broker.nextToken == 3 &&
      u.pc.listens &&
      (u.trace (.connection :: untilResent)).all (spares Packet.qos2Id) &&
      (Machine.runChecked step admits u (.connection :: untilResent)).any fun v => sendsNext v 3)
    (by decide +kernel)
  simp only [Bool.and_eq_true, Option.any_eq_true, Bool.not_eq_true', beq_iff_eq,
    HashMap.contains_eq_false] at checked
  obtain ⟨⟨sends, unreleased⟩, u, to_u, ⟨⟨⟨lost, three⟩, here⟩, unsent⟩, v, to_v, resends⟩ := checked
  -- The same packet is sent before the connection is lost and after it is resumed.
  obtain ⟨sends, c, found, id, persistent, new⟩ := sendsNext_spec sends
  obtain ⟨-, d, there, same, resumed, -⟩ := sendsNext_spec resends
  refine ⟨s, u, v, .quiet, .connection, untilBack, untilResent, after_reachable to_s,
    ⟨c, found, id, persistent, by decide, new⟩, by decide, sends,
    Machine.runChecked_path _ _ _ _ _ to_u, fun op member released => ?_, lost, ?_,
    Machine.runChecked_path _ _ _ _ _ to_v, fun op member published => ?_, d, three ▸ there, same,
    resumed⟩
  · obtain ⟨p, rfl, id⟩ := released
    have spared := List.all_eq_true.mp unreleased _ member
    simp [spares, id] at spared
  · have at_events := Pc.eq_of_listens here
    exact ⟨default, default, by simp [op, next, Io.connection, at_events]⟩
  · obtain ⟨p, rfl, id⟩ := published
    have spared := List.all_eq_true.mp unsent _ member
    simp [spares, id] at spared

theorem resent_handed_on_back : ∃ s u v : Loop, s.HandedOn 2 publish7 7 ∧
    v.HandedOn u.broker.nextToken publish7 7 := by
  obtain ⟨s, u, v, sending, arriving, away, back, resumption⟩ := exists_resumption
  exact ⟨s, u, v, resent_handed_on s u v sending arriving away back 2 _ _ _ resumption⟩

/-- The id does not come back with the session. -/
theorem resent_not_dropped : ¬∀ (s u v : Loop) (sending arriving : Io) (away back : List Io) (t : Token)
    (cid : Str) (p : Packet) (pid : UInt16), Resumption s u v sending arriving away back t cid p pid →
    ¬v.HandedOn u.broker.nextToken p pid := by
  intro claim
  obtain ⟨s, u, v, sending, arriving, away, back, resumption⟩ := exists_resumption
  obtain ⟨d, there, -⟩ := resumption.resumed
  have reached := (resumption.reached.path resumption.leaves).path resumption.returns
  exact claim s u v sending arriving away back 2 _ _ _ resumption
    (handedOn_of_new (Reachable.healthy reached) there resumption.id (resumption.new there))

end Loop
end MioBroker
