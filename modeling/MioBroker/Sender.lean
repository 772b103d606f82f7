import MioBroker.Parsing
import MioBroker.Survivors

/-!
# When a packet loses its sender

The handlers look their sender up with `unwrap`. That fails for a sender that is gone, and a
sender can be gone in the middle of its own batch: a PUBLISH that is forwarded to its sender
may exhaust the sender's window, and then `deliver_to` erases it.
-/
namespace MioBroker

open Rust

/-- The handler of the packet looks its sender up with `unwrap`. -/
def Packet.NeedsSender (b : Broker) (p : Packet) : Prop :=
  (p.ptype = CONNECT ∧ ∃ q, parseConnect p.body = .ok (some q)) ∨
  (p.ptype = SUBSCRIBE ∧ ∃ pid topics, parseSubscribe p.body = .ok (some (pid, topics)) ∧
    b.hitsOf topics = []) ∨
  (p.ptype = UNSUBSCRIBE ∧ ∃ q, parseUnsubscribe p.body = .ok (some q)) ∨
  (p.ptype = PUBLISH ∧ (publishQos p.flags = 1 ∨ publishQos p.flags = 2) ∧
    ∃ q, parsePublish p.flags p.body = .ok (some q)) ∨
  (p.ptype ∈ [PUBACK, PUBREC, PUBREL, PUBCOMP] ∧ 2 ≤ p.body.length) ∨
  p.ptype ∈ [PINGREQ, DISCONNECT]

namespace Broker

variable {b b' : Broker} {t : Token} {p : Packet} {body : Bytes}

theorem modifyClient_panics (f : Client → Client) :
    (b.modifyClient t f).Panics ↔ b.clients.get? t = none := by
  simp only [modifyClient]
  cases found : b.clients.get? t <;> simp

theorem receiveQos2_panics (pid : UInt16) :
    (b.receiveQos2 t pid).Panics ↔ b.clients.get? t = none := by
  simp only [receiveQos2]
  cases found : b.clients.get? t <;> simp

theorem connect_panics : (b.handleConnect t body).Panics ↔
    b.clients.get? t = none ∧ ∃ q, parseConnect body = .ok (some q) := by
  obtain ⟨r, parse⟩ := parseConnect_total body
  rw [handleConnect, parse, Run.ok_bind]
  cases r with
  -- A body the parser turns away is dropped before any client is looked up.
  | none => simp
  | some q =>
    by_cases clean : q.cleanSession = true
    · -- Erasing the session leaves the client table alone, so the lookup is the one of `b`.
      obtain ⟨_, frame⟩ := b.eraseSession_frame q.cid
      simp only [clean, if_true, Run.panics_bind, modifyClient_panics]
      rw [frame]
      simp
    · simp only [clean, Bool.false_eq_true, if_false]
      cases b.sessions.get? q.cid with
      | none =>
        simp only [Run.panics_bind, modifyClient_panics, Except.ok.injEq, Option.some.injEq,
          exists_eq', and_true, or_iff_left_iff_imp]
        rintro ⟨d, -, panics⟩
        split at panics <;> exact absurd panics (Run.panics_ok _)
      | some sess =>
        -- Nor do the restored subscriptions touch it, and the replay after it never indexes.
        obtain ⟨_, _, frame⟩ := restoreSubs_frame sess.subs b t
        simp only [Run.panics_bind, modifyClient_panics, Except.ok.injEq, Option.some.injEq,
          exists_eq', and_true]
        rw [frame]
        simp only [or_iff_left_iff_imp]
        rintro ⟨d, -, panics⟩
        split at panics <;> exact absurd panics (Run.panics_ok _)

theorem deliverEach_present (retain : Bool) (msgs : List (Str × Bytes × UInt8)) (c : Client)
    (found : b.clients.get? t = some c) (done : deliverEach t retain msgs b = (b', .ok ())) :
    ∃ d, b'.clients.get? t = some d := by
  induction msgs generalizing b c with
  | nil =>
    cases done
    exact ⟨c, found⟩
  | cons m msgs ih =>
    obtain ⟨topic, payload, qos⟩ := m
    simp only [deliverEach] at done
    cases result : c.offer b.now topic payload qos retain with
    -- Only a queued message lets the loop go on; the other two end it with an error.
    | queued d =>
      rw [deliverTo_queued b t topic payload qos retain c d found result] at done
      exact ih d (HashMap.get?_insert_self _ _ _) done
    | refused =>
      rw [deliverTo_refused b t topic payload qos retain c found result] at done
      cases done
    | dropped =>
      rw [deliverTo_dropped b t topic payload qos retain c found result] at done
      cases done

theorem deliverEach_absent (retain : Bool) (msgs : List (Str × Bytes × UInt8))
    (found : b.clients.get? t = none) :
    deliverEach t retain msgs b = (b, if msgs = [] then .ok () else .error ()) := by
  cases msgs with
  | nil => rfl
  | cons m msgs =>
    obtain ⟨topic, payload, qos⟩ := m
    simp [deliverEach, deliverTo_absent b t topic payload qos retain found]

theorem subscribeLoop_present (topics : List (Str × UInt8)) (c : Client)
    (found : b.clients.get? t = some c) (done : subscribeLoop t topics b = (b', .ok ())) :
    ∃ d, b'.clients.get? t = some d := by
  induction topics generalizing b c with
  | nil =>
    cases done
    exact ⟨c, found⟩
  | cons e topics ih =>
    obtain ⟨filter, qos⟩ := e
    obtain ⟨_, _, added⟩ := b.addSub_frame filter t qos
    -- Adding the subscription writes the subscription table only.
    have found' : (b.addSub filter t qos).clients.get? t = some c := by
      rw [added]
      exact found
    simp only [subscribeLoop] at done
    split at done
    next d delivered =>
      obtain ⟨c', there⟩ := deliverEach_present true _ c found' delivered
      exact ih c' there done
    next => cases done

/-- Without its sender a SUBSCRIBE only gets through if no retained message matches. -/
theorem subscribeLoop_absent (topics : List (Str × UInt8)) (found : b.clients.get? t = none) :
    (subscribeLoop t topics b).1.clients.get? t = none ∧
      ((subscribeLoop t topics b).2 = .ok () ↔ b.hitsOf topics = []) := by
  induction topics generalizing b with
  | nil => simp [subscribeLoop, hitsOf, found]
  | cons e topics ih =>
    obtain ⟨filter, qos⟩ := e
    obtain ⟨_, _, added⟩ := b.addSub_frame filter t qos
    have found' : (b.addSub filter t qos).clients.get? t = none := by
      rw [added]
      exact found
    have same_hits : (b.addSub filter t qos).retainedHits filter qos = b.retainedHits filter qos := by
      rw [added]
      rfl
    have same_rest : (b.addSub filter t qos).hitsOf topics = b.hitsOf topics := by
      rw [added]
      rfl
    have whole : b.hitsOf ((filter, qos) :: topics) =
        b.retainedHits filter qos ++ b.hitsOf topics := by
      simp [hitsOf]
    simp only [subscribeLoop, deliverEach_absent true _ found', same_hits, whole,
      List.append_eq_nil_iff]
    by_cases none_hit : b.retainedHits filter qos = []
    · simp only [none_hit, if_true, true_and]
      rw [← same_rest]
      exact ih found'
    · simp [none_hit, found']

theorem subscribe_panics : (b.handleSubscribe t body).Panics ↔
    b.clients.get? t = none ∧ ∃ pid topics, parseSubscribe body = .ok (some (pid, topics)) ∧
      b.hitsOf topics = [] := by
  obtain ⟨r, parse⟩ := parseSubscribe_total body
  rw [handleSubscribe, parse, Run.ok_bind]
  cases r with
  | none => simp
  | some q =>
    obtain ⟨pid, topics⟩ := q
    simp only [Except.ok.injEq, Option.some.injEq, Prod.mk.injEq]
    cases found : b.clients.get? t with
    | some c =>
      simp only [reduceCtorEq, false_and, iff_false]
      split
      next d looped =>
        obtain ⟨c', there⟩ := subscribeLoop_present topics c found looped
        rw [Run.panics_bind, modifyClient_panics, there]
        simp
      next => simp
    | none =>
      obtain ⟨gone, through⟩ := subscribeLoop_absent topics found
      simp only [true_and]
      split
      next d looped =>
        rw [looped] at gone through
        rw [Run.panics_bind, modifyClient_panics]
        simp only at gone
        simp only [gone, true_or, true_iff]
        exact ⟨pid, topics, ⟨rfl, rfl⟩, through.mp rfl⟩
      next d e looped =>
        rw [looped] at through
        simp only [reduceCtorEq, false_iff] at through
        simp only [Run.pure_eq, Run.panics_ok, false_iff]
        rintro ⟨pid', topics', ⟨rfl, rfl⟩, none_hit⟩
        exact through none_hit

theorem unsubscribe_panics : (b.handleUnsubscribe t body).Panics ↔
    b.clients.get? t = none ∧ ∃ q, parseUnsubscribe body = .ok (some q) := by
  obtain ⟨r, parse⟩ := parseUnsubscribe_total body
  rw [handleUnsubscribe, parse, Run.ok_bind]
  cases r with
  | none => simp
  | some q =>
    obtain ⟨pid, filters⟩ := q
    obtain ⟨_, _, frame⟩ := b.unsubscribe_frame t filters
    simp only
    rw [Run.panics_bind, modifyClient_panics, frame]
    simp

theorem publishFast_panics {flags : UInt8} : (b.publishFast t (publishQos flags) body).Panics ↔
    b.clients.get? t = none ∧ (publishQos flags = 1 ∨ publishQos flags = 2) ∧
      ∃ q, parsePublish flags body = .ok (some q) := by
  obtain ⟨r, parse⟩ := parsePublish_total flags body
  have pid_of : publishQos flags > 0 → parsePidOnly body = .ok (r.bind PublishPacket.pid) :=
    fun reliable => parsePidOnly_eq reliable parse
  simp only [publishFast, parse, Except.ok.injEq]
  split
  next one =>
    rw [pid_of (by rw [one]; decide)]
    cases r with
    | none => simp
    | some q =>
      obtain ⟨pid, has_pid⟩ := Option.isSome_iff_exists.mp
        ((parsePublish_fields parse).2.2.mpr (by rw [one]; decide))
      simp [has_pid, Run.panics_bind, modifyClient_panics, one]
  next not_one =>
    split
    next two =>
      rw [pid_of (by rw [two]; decide)]
      cases r with
      | none => simp
      | some q =>
        obtain ⟨pid, has_pid⟩ := Option.isSome_iff_exists.mp
          ((parsePublish_fields parse).2.2.mpr (by rw [two]; decide))
        simp [has_pid, Run.panics_bind, receiveQos2_panics, two]
    next not_two => simp [not_one, not_two]

theorem acknowledge_panics {flags : UInt8} {q : PublishPacket}
    (parse : parsePublish flags body = .ok (some q)) :
    (b.acknowledge t q).Panics ↔
      b.clients.get? t = none ∧ (publishQos flags = 1 ∨ publishQos flags = 2) := by
  obtain ⟨qos, -, pid⟩ := parsePublish_fields parse
  simp only [acknowledge, qos]
  cases has_pid : q.pid with
  | none =>
    have unreliable : ¬publishQos flags > 0 := fun reliable => by simp [has_pid, reliable] at pid
    have zero : publishQos flags = 0 := by simpa using unreliable
    simp [zero]
  | some p =>
    simp only
    split
    next one =>
      cases found : b.clients.get? t <;> simp [modifyClient, found, one, Except.map]
    next not_one =>
      split
      next two => simp [receiveQos2_panics, two]
      next not_two => simp [not_one, not_two]

theorem publish_panics (healthy : b.Healthy) (isPublish : p.ptype = PUBLISH) :
    (b.handlePublish t p.flags p.body).Panics ↔
      b.clients.get? t = none ∧ (publishQos p.flags = 1 ∨ publishQos p.flags = 2) ∧
        ∃ q, parsePublish p.flags p.body = .ok (some q) := by
  simp only [handlePublish]
  split
  · exact publishFast_panics
  · obtain ⟨r, parse⟩ := parsePublish_total p.flags p.body
    rw [publishRouted, parse, Run.ok_bind]
    cases r with
    | none => simp
    | some q =>
      simp only [Run.panics_bind, acknowledge_panics parse, Except.ok.injEq, Option.some.injEq,
        exists_eq', and_true, or_iff_left_iff_imp]
      rintro ⟨⟨d, dup⟩, acked, panics⟩
      cases dup with
      | true => exact absurd panics (Run.panics_ok _)
      | false =>
        have healthy' := (acknowledge_acts isPublish parse acked).healthy healthy
        obtain ⟨e, n, published, -⟩ := d.publish_spec healthy'.indexed q.topic q.payload q.qos q.retain
        simp [published] at panics

theorem ack_panics {bad : String} {f : Client → UInt16 → Client} :
    (b.handleAck t body bad f).Panics ↔ b.clients.get? t = none ∧ 2 ≤ body.length := by
  simp only [handleAck]
  split
  next long =>
    obtain ⟨pid, pid_ok⟩ := u16At_ok body 0 (by omega)
    simp [pid_ok, Run.panics_bind, modifyClient_panics, long]
  next short => simp [short]

/-- Handling a packet panics exactly when its sender is gone and its handler needs it. -/
theorem dispatch_panics (healthy : b.Healthy) :
    (b.dispatch t p).Panics ↔ b.clients.get? t = none ∧ p.NeedsSender b := by
  simp only [dispatch, Packet.NeedsSender]
  split
  next type =>
    rw [connect_panics]
    simp +decide [type]
  split
  next type =>
    rw [subscribe_panics]
    simp +decide [type]
  split
  next type =>
    rw [unsubscribe_panics]
    simp +decide [type]
  split
  next type =>
    rw [publish_panics healthy type]
    simp +decide [type]
  split
  next type =>
    rw [handlePuback, ack_panics]
    simp +decide [type]
  split
  next type =>
    rw [handlePubrec, ack_panics]
    simp +decide [type]
  split
  next type =>
    rw [handlePubrel, ack_panics]
    simp +decide [type]
  split
  next type =>
    rw [handlePubcomp, ack_panics]
    simp +decide [type]
  split
  next type =>
    rw [handlePingreq, Run.panics_bind, modifyClient_panics]
    simp +decide [type]
  split
  next type =>
    rw [handleDisconnect, Run.panics_bind, modifyClient_panics]
    simp +decide [type]
  · simp_all

/-! ### When the sender goes -/

/-- The PUBLISH is forwarded to its own sender more often than the sender has room for. -/
def DropsSender (b : Broker) (t : Token) (p : Packet) : Prop :=
  ∃ call c, b.packetCall t p = some call ∧ call.broker.clients.get? t = some c ∧
    (IN_FLIGHT_CAP < c.inFlight.size +
        Client.reliableCount (call.broker.forwards t call.topic call.qos) ∨
      WRITE_QUEUE_CAP < c.reliable +
        Client.reliableCount (call.broker.forwards t call.topic call.qos))

theorem modifyClient_present {f : Client → Client} (done : b.modifyClient t f = .ok b') :
    ∃ c, b'.clients.get? t = some c := by
  obtain ⟨c, -, rfl⟩ := modifyClient_found done
  exact ⟨f c, HashMap.get?_insert_self _ _ _⟩

theorem flushSession_present {cid : Str} {c : Client} (found : b.clients.get? t = some c)
    (done : b.flushSession t cid = (b', .ok ())) : ∃ d, b'.clients.get? t = some d := by
  have erase : ∀ d : Broker, (d.eraseSession cid).clients = d.clients := by
    intro d
    obtain ⟨_, frame⟩ := d.eraseSession_frame cid
    rw [frame]
  simp only [flushSession] at done
  split at done
  · split at done
    next d delivered =>
      cases done
      rw [erase]
      exact deliverEach_present false _ c found delivered
    next => cases done
  · cases done
    rw [erase]
    exact ⟨c, found⟩

theorem connect_present
    (done : b.handleConnect t body = .ok (b', .ok ())) : ∃ d, b'.clients.get? t = some d := by
  obtain ⟨r, -, done⟩ := Run.bind_ok.mp done
  cases r with
  | none => cases done
  | some q =>
    obtain ⟨d, modified, done⟩ := Run.bind_ok.mp done
    obtain ⟨e, there⟩ := modifyClient_present modified
    split at done
    · cases done
      exact ⟨e, there⟩
    · split at done
      next f flushed =>
        cases done
        obtain ⟨g, present⟩ := flushSession_present there flushed
        exact ⟨g, present⟩
      next => cases done

/-- Only a PUBLISH can go through and leave its sender erased. -/
theorem dispatch_present (notPublish : p.ptype ≠ PUBLISH) (done : b.dispatch t p = .ok (b', .ok ())) :
    ∃ d, b'.clients.get? t = some d := by
  have ack : ∀ {bad : String} {f : Client → UInt16 → Client},
      b.handleAck t p.body bad f = .ok (b', .ok ()) → ∃ d, b'.clients.get? t = some d := by
    intro bad f done
    simp only [handleAck] at done
    split at done
    · obtain ⟨pid, -, done⟩ := Run.bind_ok.mp done
      obtain ⟨d, modified, done⟩ := Run.bind_ok.mp done
      cases done
      exact modifyClient_present modified
    · cases done
  simp only [dispatch, if_neg notPublish] at done
  split at done
  · exact connect_present done
  split at done
  · obtain ⟨r, -, done⟩ := Run.bind_ok.mp done
    cases r with
    | none => cases done
    | some q =>
      simp only at done
      split at done
      · obtain ⟨d, modified, done⟩ := Run.bind_ok.mp done
        cases done
        exact modifyClient_present modified
      · cases done
  split at done
  · obtain ⟨r, -, done⟩ := Run.bind_ok.mp done
    cases r with
    | none => cases done
    | some q =>
      obtain ⟨d, modified, done⟩ := Run.bind_ok.mp done
      cases done
      exact modifyClient_present modified
  split at done
  · exact ack done
  split at done
  · exact ack done
  split at done
  · exact ack done
  split at done
  · exact ack done
  split at done
  · obtain ⟨d, modified, done⟩ := Run.bind_ok.mp done
    cases done
    exact modifyClient_present modified
  split at done
  · obtain ⟨d, modified, done⟩ := Run.bind_ok.mp done
    cases done
  · cases done

theorem publishFast_present {c : Client} {qos : UInt8} {r : Reply}
    (found : b.clients.get? t = some c) (done : b.publishFast t qos body = .ok (b', r)) :
    ∃ d, b'.clients.get? t = some d := by
  simp only [publishFast] at done
  split at done
  · obtain ⟨r, -, done⟩ := Run.bind_ok.mp done
    cases r with
    | none =>
      cases done
      exact ⟨c, found⟩
    | some pid =>
      obtain ⟨d, modified, done⟩ := Run.bind_ok.mp done
      cases done
      obtain ⟨e, present⟩ := modifyClient_present modified
      exact ⟨e, present⟩
  · split at done
    · obtain ⟨r, -, done⟩ := Run.bind_ok.mp done
      cases r with
      | none =>
        cases done
        exact ⟨c, found⟩
      | some pid =>
        obtain ⟨⟨d, dup⟩, received, done⟩ := Run.bind_ok.mp done
        cases done
        have there := modifyClient_present (receiveQos2_found received)
        cases dup <;> exact there
    · cases done
      exact ⟨c, found⟩

theorem acknowledge_present {c : Client} {q : PublishPacket} {dup : Bool}
    (found : b.clients.get? t = some c) (done : b.acknowledge t q = .ok (b', dup)) :
    ∃ d, b'.clients.get? t = some d := by
  rcases acknowledge_cases done with rfl | ⟨pid, -, answered⟩ | ⟨pid, -, received⟩
  · exact ⟨c, found⟩
  · exact modifyClient_present answered
  · exact modifyClient_present received

/-- A connected sender is gone after its packet exactly when the packet drops it. -/
theorem dispatch_drops {c : Client} (healthy : b.Healthy) (found : b.clients.get? t = some c)
    (done : b.dispatch t p = .ok (b', .ok ())) :
    b'.clients.get? t = none ↔ b.DropsSender t p := by
  by_cases isPublish : p.ptype = PUBLISH
  · have published : b.handlePublish t p.flags p.body = .ok (b', .ok ()) := by
      rw [dispatch, isPublish] at done
      exact done
    simp only [handlePublish] at published
    split at published
    next fast =>
      obtain ⟨d, there⟩ := publishFast_present found published
      simp [there, DropsSender, packetCall, fast]
    next routed =>
      replace routed : b.noRouting p.flags = false := by simpa using routed
      obtain ⟨r, parse, published⟩ := Run.bind_ok.mp published
      cases r with
      | none => cases published
      | some q =>
        obtain ⟨⟨d, dup⟩, acked, published⟩ := Run.bind_ok.mp published
        obtain ⟨e, there⟩ := acknowledge_present found acked
        cases dup with
        | true =>
          cases published
          simp [there, DropsSender, packetCall, isPublish, routed, parse, acked]
        | false =>
          have healthy' := (acknowledge_acts isPublish parse acked).healthy healthy
          obtain ⟨f, n, run, spec⟩ := d.publish_spec healthy'.indexed q.topic q.payload q.qos q.retain
          simp only [Bool.false_eq_true, if_false, run, Run.ok_bind, Run.pure_eq,
            Except.ok.injEq, Prod.mk.injEq, and_true] at published
          have slot : b'.clients.get? t = Client.serve d.now q.topic q.payload
              (d.forwards t q.topic q.qos) (some e) := by
            rw [← published, ← there]
            exact spec.slots t
          have capped := healthy'.capped t e there
          rw [slot, Client.serve_eq_none_iff _ _ _ _ e capped.queue capped.window]
          simp [DropsSender, packetCall, isPublish, routed, parse, acked, there]
  · obtain ⟨d, there⟩ := dispatch_present isPublish done
    simp [there, DropsSender, packetCall, isPublish]

/-- A packet brings no connection back. -/
theorem dispatch_absent {r : Reply} {k : Token} (healthy : b.Healthy)
    (absent : b.clients.get? k = none) (done : b.dispatch t p = .ok (b', r)) :
    b'.clients.get? k = none := by
  refine ((dispatch_acts healthy done).invariant
    (fun s => s.Healthy ∧ s.clients.get? k = none) ?_ ⟨healthy, absent⟩).2
  rintro s a s' ⟨healthy, absent⟩ ok next
  refine ⟨healthy.act a next, ?_⟩
  by_contra there
  obtain ⟨d, found⟩ := Option.ne_none_iff_exists'.mp there
  rcases a.survivor healthy next found with ⟨h₁, h₂, rfl, -⟩ | ⟨c, before, -⟩
  · exact ok.1.1.elim
  · simp [absent] at before

/-! ### Batches -/

theorem dispatchAll_append {pre post : List Packet} (done : dispatchAll t pre b = .ok (b', .ok ())) :
    dispatchAll t (pre ++ post) b = dispatchAll t post b' := by
  induction pre generalizing b with
  | nil =>
    cases done
    rfl
  | cons p pre ih =>
    simp only [dispatchAll] at done
    obtain ⟨⟨d, r⟩, first, done⟩ := Run.bind_ok.mp done
    rw [List.cons_append, dispatchAll, first, Run.ok_bind]
    cases r with
    | error e => cases done
    | ok => exact ih done

theorem dispatchAll_healthy {pkts : List Packet} {r : Reply} (healthy : b.Healthy)
    (done : dispatchAll t pkts b = .ok (b', r)) : b'.Healthy := by
  induction pkts generalizing b with
  | nil =>
    cases done
    exact healthy
  | cons p pkts ih =>
    simp only [dispatchAll] at done
    obtain ⟨⟨d, r⟩, first, done⟩ := Run.bind_ok.mp done
    have healthy' := (dispatch_acts healthy first).healthy healthy
    cases r with
    | error e =>
      cases done
      exact healthy'
    | ok => exact ih healthy' done

theorem dispatchAll_absent {pkts : List Packet} {r : Reply} (healthy : b.Healthy)
    (absent : b.clients.get? t = none) (done : dispatchAll t pkts b = .ok (b', r)) :
    b'.clients.get? t = none := by
  induction pkts generalizing b with
  | nil =>
    cases done
    exact absent
  | cons p pkts ih =>
    simp only [dispatchAll] at done
    obtain ⟨⟨d, r⟩, first, done⟩ := Run.bind_ok.mp done
    have gone := dispatch_absent healthy absent first
    cases r with
    | error e =>
      cases done
      exact gone
    | ok => exact ih ((dispatch_acts healthy first).healthy healthy) gone done

/-- The broker with other bytes in the read buffer of a client. -/
def withBuffer (b : Broker) (t : Token) (c : Client) (buf : Bytes) : Broker :=
  { b with clients := b.clients.insert t { c with readBuf := buf } }

theorem healthy_withBuffer {c : Client} (healthy : b.Healthy) (found : b.clients.get? t = some c)
    (buf : Bytes) : (b.withBuffer t c buf).Healthy :=
  ⟨healthy.indexed, healthy.modify t _ ((healthy.capped t c found).change 0 (.buffer buf))⟩

end Broker
end MioBroker
