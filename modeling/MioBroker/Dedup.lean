import MioBroker.Scenario
import MioBroker.Survivors

/-!
# Inbound QoS 2 on one connection

Two paths handle a QoS 2 PUBLISH, and which one it takes depends on what others have subscribed
to. Both keep the same record of the ids that were received and not yet released.
-/
namespace MioBroker

open Rust

namespace Packet

/-- The packet id of a QoS 2 PUBLISH. -/
def qos2Id (p : Packet) : Option UInt16 :=
  if p.ptype = PUBLISH ∧ publishQos p.flags = 2 then
    match parsePidOnly p.body with
    | .ok pid => pid
    | .error _ => none
  else none

/-- The packet id of a PUBREL. -/
def releasedId (p : Packet) : Option UInt16 :=
  if p.ptype = PUBREL then
    match u16At p.body 0 with
    | .ok pid => some pid
    | .error _ => none
  else none

theorem qos2Id_eq_some {p : Packet} {pid : UInt16} :
    p.qos2Id = some pid ↔
      (p.ptype = PUBLISH ∧ publishQos p.flags = 2) ∧ parsePidOnly p.body = .ok (some pid) := by
  simp only [qos2Id]
  split
  next isPublish =>
    cases parsePidOnly p.body with
    | ok r => simp [isPublish]
    | error e => simp
  next other => simp [other]

theorem releasedId_eq_some {p : Packet} {pid : UInt16} :
    p.releasedId = some pid ↔ p.ptype = PUBREL ∧ u16At p.body 0 = .ok pid := by
  simp only [releasedId]
  split
  next isPubrel =>
    cases u16At p.body 0 with
    | ok r => simp [isPubrel]
    | error e => simp
  next other => simp [other]

end Packet

namespace Op

/-- Operations one after the other, in any order. -/
def step (b : Broker) (op : Op) : Run Broker :=
  match op.run b with
  | .ok (b, _) => .ok b
  | .error e => .error e

theorem step_ok {b b' : Broker} {op : Op} (done : step b op = .ok b') :
    ∃ out, op.run b = .ok (b', out) := by
  simp only [step] at done
  split at done
  next d out ran =>
    cases done
    exact ⟨out, ran⟩
  next => cases done

def Publishes2 (t : Token) (pid : UInt16) (op : Op) : Prop :=
  ∃ p, op = .packet t p ∧ p.qos2Id = some pid

def Releases (t : Token) (pid : UInt16) (op : Op) : Prop :=
  ∃ p, op = .packet t p ∧ p.releasedId = some pid

/-- A QoS 2 PUBLISH with the id came from the connection, and no PUBREL for it since. -/
def Seen (t : Token) (pid : UInt16) (ops : List Op) : Prop :=
  ∃ pre op post, ops = pre ++ op :: post ∧ op.Publishes2 t pid ∧ ∀ o ∈ post, ¬o.Releases t pid

theorem publishes2_packet {t : Token} {pid : UInt16} {p : Packet} :
    (Op.packet t p).Publishes2 t pid ↔ p.qos2Id = some pid :=
  ⟨fun ⟨_, same, id⟩ => by cases same; exact id, fun id => ⟨p, rfl, id⟩⟩

theorem releases_packet {t : Token} {pid : UInt16} {p : Packet} :
    (Op.packet t p).Releases t pid ↔ p.releasedId = some pid :=
  ⟨fun ⟨_, same, id⟩ => by cases same; exact id, fun id => ⟨p, rfl, id⟩⟩

theorem not_seen_nil (t : Token) (pid : UInt16) : ¬Seen t pid [] := by
  rintro ⟨pre, op, post, same, -⟩
  simp at same

theorem seen_snoc (t : Token) (pid : UInt16) (ops : List Op) (op : Op) :
    Seen t pid (ops ++ [op]) ↔ op.Publishes2 t pid ∨ Seen t pid ops ∧ ¬op.Releases t pid := by
  constructor
  · rintro ⟨pre, first, post, same, publishes, unreleased⟩
    rcases List.eq_nil_or_concat post with rfl | ⟨post, last, rfl⟩
    · obtain ⟨-, same⟩ := List.append_inj' same rfl
      cases same
      exact .inl publishes
    · -- The last operation releases nothing, so what was seen before it is seen still.
      have split_last : ops ++ [op] = (pre ++ first :: post) ++ [last] := by simpa using same
      obtain ⟨before, last_eq⟩ := List.append_inj' split_last rfl
      cases last_eq
      exact .inr ⟨⟨pre, first, post, before, publishes,
        fun o member => unreleased o (by simp [member])⟩, unreleased op (by simp)⟩
  · rintro (publishes | ⟨⟨pre, first, post, rfl, publishes, unreleased⟩, kept⟩)
    · exact ⟨ops, op, [], rfl, publishes, by simp⟩
    · refine ⟨pre, first, post ++ [op], by simp, publishes, fun o member => ?_⟩
      rcases List.mem_append.mp member with old | last
      · exact unreleased o old
      · rw [List.mem_singleton.mp last]
        exact kept

end Op

namespace Client

@[simp] theorem receivedQos2_reply (c : Client) (pkt : Bytes) :
    (c.reply pkt).receivedQos2 = c.receivedQos2 := by
  rw [reply_frame]

theorem contains_receiveQos2 (c : Client) (pid k : UInt16) :
    (c.receiveQos2 pid).1.receivedQos2.contains k = true ↔
      k = pid ∨ c.receivedQos2.contains k = true := by
  obtain ⟨received, same, ids⟩ := c.receiveQos2_spec pid
  rw [same, receivedQos2_reply]
  exact ids k

theorem contains_release (c : Client) (now : Instant) (pid k : UInt16) :
    ((Change.pubrel pid).apply now c).receivedQos2.contains k = true ↔
      c.receivedQos2.contains k = true ∧ k ≠ pid := by
  simp only [Change.apply, receivedQos2_reply, HashMap.contains, HashMap.get?_erase]
  split
  next same => simp [same]
  next other => simp [other]

end Client

namespace Broker

variable {b : Broker} {t : Token} {c : Client} {p : Packet} {pid : UInt16}

theorem receiveQos2_ok (found : b.clients.get? t = some c) (pid : UInt16) :
    b.receiveQos2 t pid = .ok ({ b with clients := b.clients.insert t (c.receiveQos2 pid).1 },
      c.receivedQos2.contains pid) := by
  simp only [receiveQos2, found]
  rfl

/-- The sender of a packet has its received ids updated and is sent an answer. -/
def answer (b : Broker) (t : Token) (c : Client) (received : HashMap UInt16 Unit) (pkt : Bytes) :
    Broker :=
  { b with clients := b.clients.insert t ({ c with receivedQos2 := received }.reply pkt) }

/-- What becomes of a PUBLISH that is not dropped as a repetition: it goes through `publish`,
or, where there is no one to route to, into the counter. -/
inductive HandsOn (b : Broker) (p : Packet) : Broker → Prop
  | counted (fast : b.noRouting p.flags = true) : HandsOn b p b.countPublish
  | routed (q : PublishPacket) (d : Broker) (n : Nat × Nat) (slow : b.noRouting p.flags = false)
      (parse : parsePublish p.flags p.body = .ok (some q))
      (published : b.publish q.topic q.payload q.qos q.retain = .ok (d, n)) :
      HandsOn b p { d.countPublish with deadPruned := 0 }

/-- A message that is handed on is counted. -/
theorem HandsOn.counts {b' : Broker} (indexed : b.Indexed) (handed : b.HandsOn p b') :
    b'.sysPubReceived = b.sysPubReceived + 1 := by
  cases handed with
  | counted fast => rfl
  | routed q d n slow parse published =>
    have spec := Broker.publish_ok indexed published
    simp only [countPublish]
    rw [spec.frame]

/-- A QoS 2 PUBLISH: PUBREC for the sender, and a new id is handed on. -/
theorem dispatch_publishQos2 (indexed : b.Indexed) (found : b.clients.get? t = some c)
    (id : p.qos2Id = some pid) :
    ∃ b', b.dispatch t p = .ok (b', .ok ()) ∧
      if c.receivedQos2.contains pid then
        b' = { b with clients := b.clients.insert t (c.receiveQos2 pid).1 }
      else HandsOn { b with clients := b.clients.insert t (c.receiveQos2 pid).1 } p b' := by
  obtain ⟨⟨isPublish, isQos2⟩, read⟩ := Packet.qos2Id_eq_some.mp id
  have received := receiveQos2_ok found pid
  obtain ⟨d, answered⟩ : ∃ d, d = { b with clients := b.clients.insert t (c.receiveQos2 pid).1 } :=
    ⟨_, rfl⟩
  have indexed : d.Indexed := answered ▸ indexed
  -- The answer moves no subscription, so the routing question has one answer throughout.
  have routing : d.noRouting p.flags = b.noRouting p.flags := by rw [answered]; rfl
  rw [← answered] at received ⊢
  rw [dispatch_isPublish isPublish, handlePublish]
  by_cases fast : b.noRouting p.flags = true
  · have handled : b.publishFast t (publishQos p.flags) p.body =
        .ok (if c.receivedQos2.contains pid then d else d.countPublish, .ok ()) := by
      simp [publishFast, isQos2, read, received]
    refine ⟨_, by rw [if_pos fast, handled], ?_⟩
    split
    · rfl
    · exact .counted (routing.trans fast)
  · have slow : b.noRouting p.flags = false := by simpa using fast
    obtain ⟨parsed, parse⟩ := parsePublish_total p.flags p.body
    have same_id := (parsePidOnly_eq (by rw [isQos2]; decide) parse).symm.trans read
    cases parsed with
    | none => cases same_id
    | some q =>
      have qos : q.qos = 2 := (parsePublish_fields parse).1.trans isQos2
      have acked : b.acknowledge t q = .ok (d, c.receivedQos2.contains pid) := by
        have carried : q.pid = some pid := by simpa using same_id
        simp [acknowledge, carried, qos, received]
      rw [if_neg fast]
      -- An id that is recorded is a repetition, which is answered and not forwarded.
      by_cases seen : c.receivedQos2.contains pid = true
      · refine ⟨d, by simp [publishRouted, parse, acked, seen], ?_⟩
        rw [if_pos seen]
      · obtain ⟨e, n, published, -⟩ := d.publish_spec indexed q.topic q.payload q.qos q.retain
        have handled : b.publishRouted t p.flags p.body =
            .ok ({ e.countPublish with deadPruned := 0 }, .ok ()) := by
          simp [publishRouted, parse, acked, seen, published]
        refine ⟨_, handled, ?_⟩
        rw [if_neg seen]
        exact .routed q e (n, 0) (routing.trans slow) parse published

theorem dispatch_isPubrel (isPubrel : p.ptype = PUBREL) :
    b.dispatch t p = b.handlePubrel t p.body := by
  simp [dispatch, isPubrel, show PUBREL ≠ CONNECT by decide, show PUBREL ≠ SUBSCRIBE by decide,
    show PUBREL ≠ UNSUBSCRIBE by decide, show PUBREL ≠ PUBLISH by decide,
    show PUBREL ≠ PUBACK by decide, show PUBREL ≠ PUBREC by decide]

theorem dispatch_pubrel (found : b.clients.get? t = some c) (id : p.releasedId = some pid) :
    b.dispatch t p = .ok ({ b with
      clients := b.clients.insert t ((Change.pubrel pid).apply b.now c) }, .ok ()) := by
  obtain ⟨isPubrel, read⟩ := Packet.releasedId_eq_some.mp id
  have long : p.body.length ≥ 2 := by
    by_contra short
    obtain ⟨hi, -, read⟩ := Run.bind_ok.mp read
    obtain ⟨lo, second, -⟩ := Run.bind_ok.mp read
    rw [Run.index, List.getElem?_eq_none (by omega)] at second
    cases second
  rw [dispatch_isPubrel isPubrel, handlePubrel, handleAck, if_pos long, read, Run.ok_bind,
    modifyClient_ok found]
  rfl

/-- A message that is handed on adds to queues and windows. -/
theorem HandsOn.offered {b' : Broker} (indexed : b.Indexed) (handed : b.HandsOn p b') {d : Client}
    (after : b'.clients.get? t = some d) : ∃ c, b.clients.get? t = some c ∧ Client.Offered c d := by
  cases handed with
  | counted fast => exact ⟨d, after, .refl d⟩
  | routed q e n slow parse published =>
    have spec := Broker.publish_ok indexed published
    obtain ⟨c, before, fed⟩ := spec.fed t d after
    exact ⟨c, before, fed.offered⟩

/-- A QoS 2 PUBLISH whose id cannot be read ends the connection. -/
theorem dispatch_badPublish (isPublish : p.ptype = PUBLISH) (isQos2 : publishQos p.flags = 2)
    (bad : p.qos2Id = none) : b.dispatch t p = .ok (b, .error "bad PUBLISH") := by
  -- Both paths read the id before they do anything else.
  have read : parsePidOnly p.body = .ok none := by
    obtain ⟨r, read⟩ := parsePidOnly_total p.body
    cases r with
    | none => exact read
    | some pid =>
      rw [Packet.qos2Id_eq_some.mpr ⟨⟨isPublish, isQos2⟩, read⟩] at bad
      cases bad
  rw [dispatch_isPublish isPublish, handlePublish]
  split
  · simp [publishFast, isQos2, read]
  · obtain ⟨parsed, parse⟩ := parsePublish_total p.flags p.body
    have same_id := (parsePidOnly_eq (by rw [isQos2]; decide) parse).symm.trans read
    cases parsed with
    | none => simp [publishRouted, parse]
    | some q =>
      have carried := (parsePublish_fields parse).2.2.mpr (by rw [isQos2]; decide)
      have none_there : q.pid = none := by simpa using same_id
      simp [none_there] at carried

theorem dispatch_badPubrel (isPubrel : p.ptype = PUBREL) (bad : p.releasedId = none) :
    b.dispatch t p = .ok (b, .error "bad PUBREL") := by
  have short : ¬p.body.length ≥ 2 := by
    intro long
    obtain ⟨pid, read⟩ := u16At_ok p.body 0 (by omega)
    rw [Packet.releasedId_eq_some.mpr ⟨isPubrel, read⟩] at bad
    cases bad
  rw [dispatch_isPubrel isPubrel, handlePubrel, handleAck, if_neg short]
  rfl

end Broker

/-- What an operation makes of the received ids of a connection. -/
theorem Op.received {op : Op} {b b' : Broker} {out : Outcome} (healthy : b.Healthy)
    (done : op.run b = .ok (b', out)) {t : Token} (given : t < b.nextToken) {c d : Client}
    (before : b.clients.get? t = some c) (after : b'.clients.get? t = some d) (pid : UInt16) :
    d.receivedQos2.contains pid = true ↔
      op.Publishes2 t pid ∨ c.receivedQos2.contains pid = true ∧ ¬op.Releases t pid := by
  by_cases publishes : ∃ p, op = .packet t p ∧ p.ptype = PUBLISH ∧ publishQos p.flags = 2
  · obtain ⟨p, rfl, isPublish, isQos2⟩ := publishes
    have dispatched := Op.packet_ok done
    -- A PUBLISH releases nothing.
    have unreleased : ¬(Op.packet t p).Releases t pid := by
      rintro ⟨q, same, released⟩
      cases same
      simp [Packet.releasedId, isPublish, show PUBLISH ≠ PUBREL by decide] at released
    cases id : p.qos2Id with
    | none =>
      obtain ⟨r, dispatched⟩ := dispatched
      cases (Broker.dispatch_badPublish isPublish isQos2 id).symm.trans dispatched
      cases before.symm.trans after
      simp [publishes2_packet, id, unreleased]
    | some k =>
      obtain ⟨r, dispatched⟩ := dispatched
      obtain ⟨e, run, result⟩ := Broker.dispatch_publishQos2 healthy.indexed before id
      cases run.symm.trans dispatched
      have same : d.receivedQos2 = (c.receiveQos2 k).1.receivedQos2 := by
        split at result
        · rw [result] at after
          simp only [HashMap.get?_insert_self, Option.some.injEq] at after
          rw [after]
        · have indexed : Broker.Indexed
              { b with clients := b.clients.insert t (c.receiveQos2 k).1 } := healthy.indexed
          obtain ⟨e, there, offered⟩ := Broker.HandsOn.offered indexed result after
          simp only [HashMap.get?_insert_self, Option.some.injEq] at there
          rw [offered.frame, there]
      rw [same, Client.contains_receiveQos2]
      simp [publishes2_packet, id, unreleased, @eq_comm _ pid k]
  by_cases releases : ∃ p, op = .packet t p ∧ p.ptype = PUBREL
  · obtain ⟨p, rfl, isPubrel⟩ := releases
    obtain ⟨r, dispatched⟩ := Op.packet_ok done
    have unpublished : p.qos2Id = none := by
      simp [Packet.qos2Id, isPubrel, show PUBREL ≠ PUBLISH by decide]
    cases id : p.releasedId with
    | none =>
      cases (Broker.dispatch_badPubrel isPubrel id).symm.trans dispatched
      cases before.symm.trans after
      simp [publishes2_packet, releases_packet, id, unpublished]
    | some k =>
      cases (Broker.dispatch_pubrel before id).symm.trans dispatched
      simp only [HashMap.get?_insert_self, Option.some.injEq] at after
      rw [← after, Client.contains_release]
      simp [publishes2_packet, releases_packet, id, unpublished, @eq_comm _ pid k]
  · -- Every other operation leaves the recorded ids of the client alone.
    have unchanged : d.receivedQos2 = c.receivedQos2 := by
      refine op.record_invariant healthy done given (fun e => e.receivedQos2 = c.receivedQos2) ?_ ?_ ?_
        d after
      · intro now ch e permitted same
        rw [Change.receivedQos2 now e ?_ ?_, same]
        · rintro k rfl
          exact publishes (Op.permits_ofPacket rfl permitted)
        · rintro k rfl
          obtain ⟨p, rfl, isPubrel, -⟩ := Op.permits_ofPacket rfl permitted
          exact releases ⟨p, rfl, isPubrel⟩
      · intro s a e f topic payload qos retain _ _ queued same
        rw [(Client.offered_of_offer e f s.now topic payload qos retain queued).frame, same]
      · intro e found
        cases before.symm.trans found
        rfl
    have unpublished : ¬op.Publishes2 t pid := by
      rintro ⟨p, rfl, id⟩
      obtain ⟨⟨isPublish, isQos2⟩, -⟩ := Packet.qos2Id_eq_some.mp id
      exact publishes ⟨p, rfl, isPublish, isQos2⟩
    have unreleased : ¬op.Releases t pid := by
      rintro ⟨p, rfl, id⟩
      exact releases ⟨p, rfl, (Packet.releasedId_eq_some.mp id).1⟩
    simp [unchanged, unpublished, unreleased]

namespace Loop

variable {s : Loop} {h₁ h₂ : RandomState UInt16} {ops : List Op} {b : Broker}

/-- While a connection stays open, its received ids are those published and not released. -/
theorem received_eq_seen (reached : s.Reachable)
    (run : Machine.Path Op.step (fun _ _ => True) (s.broker.accept h₁ h₂) ops b) :
    b.Healthy ∧ s.broker.nextToken < b.nextToken ∧
      ∀ c, b.clients.get? s.broker.nextToken = some c →
        ∀ pid, c.receivedQos2.contains pid = true ↔ Op.Seen s.broker.nextToken pid ops := by
  induction run with
  | nil =>
    have accepted : (Op.accept h₁ h₂).run s.broker = .ok (s.broker.accept h₁ h₂, .ok []) := rfl
    have healthy : (s.broker.accept h₁ h₂).Healthy := reached.healthy.op _ accepted
    refine ⟨healthy, Nat.lt_succ_self _, fun c found pid => ?_⟩
    simp only [Broker.accept, HashMap.get?_insert_self, Option.some.injEq] at found
    subst found
    simp [Client.accepted, Op.not_seen_nil]
  | @snoc earlier before after op _ _ next ih =>
    obtain ⟨healthy, given, same⟩ := ih
    obtain ⟨out, ran⟩ := Op.step_ok next
    refine ⟨healthy.op op ran, Nat.lt_of_lt_of_le given (op.nextToken_le healthy ran),
      fun d there pid => ?_⟩
    cases found : before.clients.get? s.broker.nextToken with
    -- A client that is gone does not come back under the same token.
    | none =>
      rw [op.absent healthy ran given found] at there
      cases there
    | some c => rw [op.received healthy ran given found there, Op.seen_snoc, same c found]

/-- Deduplication on one connection, whatever the others do in between: a QoS 2 PUBLISH is handed
on exactly when its id was not received since its last release; each is answered PUBREC, and each
PUBREL is answered PUBCOMP. -/
theorem dedup (s : Loop) (reached : s.Reachable) (h₁ h₂ : RandomState UInt16) (ops : List Op)
    (b : Broker) (run : Machine.Path Op.step (fun _ _ => True) (s.broker.accept h₁ h₂) ops b)
    (c : Client) (connected : b.clients.get? s.broker.nextToken = some c) :
    (∀ pid, c.receivedQos2.contains pid = true ↔ Op.Seen s.broker.nextToken pid ops) ∧
    (∀ p pid, p.qos2Id = some pid →
      ∃ received b', b.dispatch s.broker.nextToken p = .ok (b', .ok ()) ∧
        ((b.answer s.broker.nextToken c received (buildPubrec pid)).HandsOn p b' ↔
          ¬Op.Seen s.broker.nextToken pid ops) ∧
        (Op.Seen s.broker.nextToken pid ops →
          b' = b.answer s.broker.nextToken c received (buildPubrec pid))) ∧
    ∀ p pid, p.releasedId = some pid →
      b.dispatch s.broker.nextToken p =
        .ok (b.answer s.broker.nextToken c (c.receivedQos2.erase pid) (buildPubcomp pid), .ok ()) := by
  obtain ⟨healthy, -, same⟩ := received_eq_seen reached run
  refine ⟨same c connected, fun p pid id => ?_,
    fun p pid id => Broker.dispatch_pubrel connected id⟩
  obtain ⟨received, answered, -⟩ := c.receiveQos2_spec pid
  obtain ⟨b', handled, result⟩ := Broker.dispatch_publishQos2 healthy.indexed connected id
  rw [answered] at result
  have indexed : (b.answer s.broker.nextToken c received (buildPubrec pid)).Indexed := healthy.indexed
  refine ⟨received, b', handled, ?_⟩
  by_cases seen : c.receivedQos2.contains pid = true
  · rw [if_pos seen] at result
    have seen := (same c connected pid).mp seen
    refine ⟨⟨fun handed => ?_, fun unseen => absurd seen unseen⟩, fun _ => result⟩
    -- nothing was counted
    have counted := handed.counts indexed
    rw [result] at counted
    exact absurd counted (Nat.ne_of_lt (Nat.lt_succ_self _))
  · rw [if_neg seen] at result
    have unseen := fun again => seen ((same c connected pid).mpr again)
    exact ⟨⟨fun _ => unseen, fun _ => result⟩, fun again => absurd again unseen⟩

/-- One PUBLISH was received: its repetition is answered and goes no further. -/
theorem dedup_repeated : ∃ (b : Broker) (c : Client) (received : HashMap UInt16 Unit),
    b.clients.get? 1 = some c ∧
      b.dispatch 1 ⟨PUBLISH, 0x0c, [0, 1, 97, 0, 7]⟩ =
        .ok (b.answer 1 c received (buildPubrec 7), .ok ()) := by
  obtain ⟨b, done, there⟩ := (Option.any_eq_true _ _).mp
    (show ((Machine.runChecked Op.step (fun _ _ => true) (fresh.broker.accept default default)
      [.packet 1 ⟨PUBLISH, 4, [0, 1, 97, 0, 7]⟩]).any fun b => b.clients.contains 1) = true by
        decide +kernel)
  obtain ⟨c, found⟩ := (HashMap.contains_iff _ _).mp there
  have path : Machine.Path Op.step (fun _ _ => True) _ _ b :=
    (Machine.runChecked_path _ _ _ _ _ done).mono fun _ _ _ => trivial
  have law := (dedup fresh fresh_reachable default default _ b path c found).2.1
    ⟨PUBLISH, 0x0c, [0, 1, 97, 0, 7]⟩ 7 (by decide)
  obtain ⟨received, b', handled, -, repeated⟩ := law
  refine ⟨b, c, received, found, ?_⟩
  have seen : Op.Seen fresh.broker.nextToken 7 [.packet 1 ⟨PUBLISH, 4, [0, 1, 97, 0, 7]⟩] :=
    ⟨[], _, [], rfl, ⟨_, rfl, by decide⟩, by simp⟩
  rw [repeated seen] at handled
  exact handled

end Loop

end MioBroker
