import MioBroker.Caps
import MioBroker.Dedup
import MioBroker.Overflow
import MioBroker.Resume

/-!
# The retained table

An operation calls `publish` at most once, and nothing else writes the retained table: it holds
the last retained message of every topic. SUBSCRIBE hands the matching ones over.
-/
namespace MioBroker

open Rust

/-! ### The call an operation makes -/

/-- The act does not call `publish`. -/
def Act.Quiet : Act → Prop
  | .publish _ _ _ _ => False
  | _ => True

/-- What comes before a call of `publish`: the answer to the sender, or the rest of a queue and the
entry in the log of wills. -/
def Act.Prelude : Act → Prop
  | .change _ (.reply _) => True
  | .change _ (.publishQos2 _) => True
  | .change _ (.write _) => True
  | .logWill _ _ => True
  | _ => False

theorem Act.Prelude.quiet {a : Act} (before : a.Prelude) : a.Quiet := by
  cases a with
  | publish topic payload qos retain => exact before.elim
  | _ => trivial

theorem Acts.quiet_one {b b' : Broker} (a : Act) (quiet : a.Quiet) (done : a.run b = .ok b') :
    Acts (fun _ a => a.Quiet) b b' := .one a quiet done

namespace Broker

variable {b b' : Broker} {t : Token} {call : PublishCall}

/-- The call of `publish` that the call stands for, and that nothing before or after it in the
operation publishes. -/
structure Calls (b : Broker) (call : PublishCall) (b' : Broker) : Prop where
  made : ∃ e n, call.broker.publish call.topic call.payload call.qos call.retain = .ok (e, n) ∧
    Acts (fun _ a => a.Quiet) b call.broker ∧ Acts (fun _ a => a.Quiet) e b'

theorem acknowledge_prelude {q : PublishPacket} {dup : Bool}
    (done : b.acknowledge t q = .ok (b', dup)) : Acts (fun _ a => a.Prelude) b b' := by
  -- Acknowledging changes the publisher at most once, by an answer.
  rcases acknowledge_cases done with rfl | ⟨pid, -, answered⟩ | ⟨pid, -, received⟩
  · exact .refl b'
  · exact .one (.change t (.reply (buildPuback pid))) trivial answered
  · exact .one (.change t (.publishQos2 pid)) trivial received

theorem willCall_prelude (called : b.willCall t = some call) :
    Acts (fun _ a => a.Prelude) b call.broker := by
  obtain ⟨c, w, -, -, -, rfl⟩ := willCall_some called
  exact .one (.logWill t w) trivial rfl

theorem removeClient_calls (called : b.willCall t = some call) (done : b.removeClient t = .ok b') :
    b.Calls call b' := by
  obtain ⟨-, -, -, -, willed⟩ := afterWill_eq called
  have logged : Acts (fun _ a => a.Quiet) b call.broker :=
    (willCall_prelude called).mono fun _ _ before => before.quiet
  rw [removeClient_eq] at done
  obtain ⟨d, left, done⟩ := Run.bind_ok.mp done
  obtain ⟨e, persisted, done⟩ := Run.bind_ok.mp done
  cases done
  rw [willed] at left
  cases published : call.broker.publish call.topic call.payload call.qos call.retain with
  | error _ =>
    rw [published] at left
    cases left
  | ok result =>
    rw [published] at left
    cases left
    -- behind the will the session is stored and the record dropped
    have stored : Acts (fun _ a => a.Quiet) result.1 e := .quiet_one (.persist t) trivial persisted
    have dropped := stored.trans (.quiet_one (.drop t) trivial rfl)
    exact ⟨result.1, result.2, published, logged, dropped.trans (save_acts _ trivial)⟩

theorem dispatch_calls {p : Packet} {r : Reply} (called : b.packetCall t p = some call)
    (done : b.dispatch t p = .ok (b', r)) : b.Calls call b' := by
  obtain ⟨isPublish, routed, q, d, parse, acked, rfl⟩ := packetCall_some called
  -- not the fast path: acknowledge, `publish`, count
  rw [dispatch_isPublish isPublish, handlePublish, routed] at done
  simp only [Bool.false_eq_true, if_false, publishRouted, parse, Run.ok_bind, acked] at done
  obtain ⟨⟨e, n⟩, published, done⟩ := Run.bind_ok.mp done
  cases done
  refine ⟨e, n, published, (acknowledge_prelude acked).mono fun _ _ before => before.quiet, ?_⟩
  exact .quiet_one (.account { e.countPublish with deadPruned := 0 }) trivial rfl

end Broker

/-- What an operation does before the call it announces. -/
theorem Op.prelude {op : Op} {b : Broker} {call : PublishCall} (called : op.publishCall b = some call) :
    Acts (fun _ a => a.Prelude) b call.broker := by
  cases op with
  | packet t p =>
    obtain ⟨-, -, q, d, -, acked, rfl⟩ := Broker.packetCall_some called
    exact Broker.acknowledge_prelude acked
  | remove t => exact Broker.willCall_prelude called
  | flush t ws =>
    obtain ⟨c, found, -, called⟩ := Op.publishCall_flush called
    -- the flush found the connection dead, so its will follows
    exact Acts.trans (.one (.change t (.write ws)) trivial (Broker.modifyClient_ok found _))
      (Broker.willCall_prelude called)
  | publish topic payload qos retain =>
    cases called
    exact .refl b
  | _ => cases called

/-- An operation makes the call it announces. -/
theorem Op.calls {op : Op} {b b' : Broker} {out : Outcome} {call : PublishCall}
    (called : op.publishCall b = some call) (done : op.run b = .ok (b', out)) : b.Calls call b' := by
  cases op with
  | packet t p =>
    obtain ⟨r, dispatched⟩ := Op.packet_ok done
    exact Broker.dispatch_calls called dispatched
  | remove t =>
    obtain ⟨d, removed, done⟩ := Run.bind_ok.mp done
    cases done
    exact Broker.removeClient_calls called removed
  | flush t ws =>
    obtain ⟨d, flushed, done⟩ := Run.bind_ok.mp done
    cases done
    obtain ⟨c, found, dead, called⟩ := Op.publishCall_flush called
    simp only [Broker.flushWrites, found, Run.unwrap_some, Run.ok_bind, if_pos dead] at flushed
    obtain ⟨e, n, published, before, after⟩ := (Broker.removeClient_calls called flushed).made
    -- The write comes before the removal, and publishes nothing.
    have written := Acts.quiet_one (.change t (.write ws)) trivial (Broker.modifyClient_ok found _)
    exact ⟨e, n, published, written.trans before, after⟩
  | publish topic payload qos retain =>
    cases called
    obtain ⟨result, published, done⟩ := Run.bind_ok.mp done
    cases done
    exact ⟨result.1, result.2, published, .refl b, .refl result.1⟩
  | _ => cases called

/-- An operation that announces no call makes none. -/
theorem Op.quiet {op : Op} {b b' : Broker} {out : Outcome} (healthy : b.Healthy)
    (uncalled : op.publishCall b = none) (done : op.run b = .ok (b', out)) :
    Acts (fun _ a => a.Quiet) b b' := by
  refine (op.acts healthy done).mono fun s a ok => ?_
  cases a with
  | publish topic payload qos retain =>
    have announced : op.publishCall b = some _ := ok.2
    rw [uncalled] at announced
    cases announced
  | _ => trivial

/-! ### What writes the table -/

theorem Act.retained_quiet {a : Act} {b b' : Broker} (healthy : b.Healthy) (quiet : a.Quiet)
    (done : a.run b = .ok b') : b'.retained = b.retained := by
  refine (Act.framed healthy done).retained ?_
  rintro topic payload qos retain rfl
  exact quiet.elim

theorem Acts.retained_quiet {b b' : Broker} (healthy : b.Healthy)
    (acts : Acts (fun _ a => a.Quiet) b b') : b'.retained = b.retained := by
  refine acts.keeps healthy (fun s => s.retained = b.retained) ?_ rfl
  intro s a s' healthy same quiet done
  exact (Act.retained_quiet healthy quiet done).trans same

/-- What a retained message makes the entry of its topic. -/
def PublishCall.entry (call : PublishCall) : Option (Bytes × UInt8) :=
  if call.payload.isEmpty then none else some (call.payload, call.qos)

/-- The entry of a topic after a call. -/
def PublishCall.stored (call : PublishCall) (old : Option (Bytes × UInt8)) (topic : Str) :
    Option (Bytes × UInt8) :=
  if call.retain = true ∧ call.topic = topic then call.entry else old

theorem Broker.storeRetained_get? (b : Broker) (topic k : Str) (payload : Bytes) (qos : UInt8)
    (retain : Bool) : (b.storeRetained topic payload qos retain).retained.get? k =
      PublishCall.stored ⟨b, topic, payload, qos, retain⟩ (b.retained.get? k) k := by
  simp only [storeRetained, PublishCall.stored, PublishCall.entry]
  cases retain with
  | false => rfl
  | true =>
    simp only [if_true, true_and]
    split
    · -- an empty payload clears the topic
      rw [HashMap.get?_erase]
      exact if_congr eq_comm rfl rfl
    · rw [HashMap.get?_insert]
      exact if_congr eq_comm rfl rfl

/-- The table after an operation. -/
theorem Op.retained {op : Op} {b b' : Broker} {out : Outcome} (healthy : b.Healthy)
    (done : op.run b = .ok (b', out)) (topic : Str) :
    b'.retained.get? topic =
      ((op.publishCall b).elim (b.retained.get? topic) fun call =>
        call.stored (b.retained.get? topic) topic) := by
  cases called : op.publishCall b with
  | none => rw [(op.quiet healthy called done).retained_quiet healthy, Option.elim_none]
  | some call =>
    obtain ⟨e, n, published, before, after⟩ := (op.calls called done).made
    have healthy' := Broker.healthy_publishCall healthy op called
    have spec := Broker.publish_ok healthy'.indexed published
    have published' : e.Healthy := by
      refine healthy'.act (.publish call.topic call.payload call.qos call.retain) ?_
      simp only [Act.run, published, Run.ok_bind, Run.pure_eq]
    rw [after.retained_quiet published', spec.retained, Broker.storeRetained_get?,
      before.retained_quiet healthy, Option.elim_some]

/-! ### Retained delivery -/

/-- The queue entry is the packet `build_forward` makes of the message; reliable messages carry an
id. -/
def Carries (retain : Bool) (m : Str × Bytes × UInt8) (entry : Bool × Bytes) : Prop :=
  ∃ pid, entry = (m.2.2 != 0, buildForward m.1.bytes m.2.1 m.2.2 pid false retain) ∧
    pid.isSome = (m.2.2 != 0)

/-- A message that finds room in window and queue goes to the end of the queue. -/
theorem Client.offer_room (c : Client) (now : Instant) (m : Str × Bytes × UInt8) (retain : Bool)
    (queue : c.writeQueue.length < WRITE_QUEUE_CAP)
    (window : m.2.2 ≠ 0 → c.inFlight.size < IN_FLIGHT_CAP) :
    ∃ d entry, c.offer now m.1 m.2.1 m.2.2 retain = .queued d ∧ d.writeQueue = c.writeQueue ++ [entry] ∧
      Carries retain m entry ∧ d.inFlight.size = c.inFlight.size + reliableMessages [m] := by
  obtain ⟨topic, payload, qos⟩ := m
  by_cases unreliable : qos = 0
  · subst unreliable
    exact ⟨_, _, c.offer_qos0_room now topic payload retain queue, rfl, ⟨none, rfl, rfl⟩, rfl⟩
  · -- the id is free, so the window grows by one
    obtain ⟨next, pid, alloc, -, free⟩ := c.allocPid_room (window unreliable)
    have made : c.offer now topic payload qos retain = .queued { c with
        nextPid := next
        writeQueue := c.writeQueue ++ [(true, buildForward topic.bytes payload qos (some pid) false retain)]
        inFlight := c.inFlight.insert pid
          ⟨buildForward topic.bytes payload qos (some pid) false retain, now, 0, qos == 2, false⟩ } := by
      simp only [offer, if_neg unreliable, alloc, queueQos1, makeRoom_short _ _ queue]
    refine ⟨_, _, made, rfl, ⟨some pid, ?_, ?_⟩, ?_⟩
    · simp [unreliable]
    · simp [unreliable]
    · rw [HashMap.size_insert_new _ _ _ free]
      simp [reliableMessages, unreliable]

namespace Broker

variable {b : Broker} {t : Token} {c : Client}

/-- Deliveries that find room in window and queue all succeed, in order. -/
theorem deliverEach_room (retain : Bool) (msgs : List (Str × Bytes × UInt8))
    (found : b.clients.get? t = some c)
    (queue : c.writeQueue.length + msgs.length ≤ WRITE_QUEUE_CAP)
    (window : c.inFlight.size + reliableMessages msgs ≤ IN_FLIGHT_CAP) :
    (deliverEach t retain msgs b).2 = .ok () ∧
      ∃ d sent, (deliverEach t retain msgs b).1.clients.get? t = some d ∧
        d.writeQueue = c.writeQueue ++ sent ∧ msgs.Forall₂ (Carries retain) sent ∧
        d.inFlight.size = c.inFlight.size + reliableMessages msgs := by
  induction msgs generalizing b c with
  | nil => exact ⟨rfl, c, [], found, by simp, .nil, rfl⟩
  | cons m msgs ih =>
    have count : reliableMessages (m :: msgs) = reliableMessages [m] + reliableMessages msgs := by
      simp only [reliableMessages, ← List.countP_append, List.singleton_append]
    rw [List.length_cons] at queue
    rw [count] at window
    -- the first message takes one place, and a reliable one a window entry
    obtain ⟨e, entry, queued, first, carries, size⟩ := c.offer_room b.now m retain (by omega) (by
      intro reliable
      have one : reliableMessages [m] = 1 := by simp [reliableMessages, reliable]
      omega)
    obtain ⟨done, d, sent, there, rest, all, total⟩ := ih (b := { b with
      clients := b.clients.insert t e
      sysPubSent := b.sysPubSent + 1
      deliverLog := b.deliverLog ++ [e.delivery m.1 m.2.1 m.2.2] }) (c := e)
      (HashMap.get?_insert_self _ _ _) (by rw [first, List.length_append, List.length_singleton]; omega)
      (by omega)
    rw [deliverEach, deliverTo_queued b t m.1 m.2.1 m.2.2 retain c e found queued]
    refine ⟨done, d, entry :: sent, there, ?_, .cons carries all, by omega⟩
    rw [rest, first, List.append_assoc, List.singleton_append]

/-- One filter after the other: the retained messages it matches. -/
theorem subscribeLoop_room (topics : List (Str × UInt8)) (found : b.clients.get? t = some c)
    (queue : c.writeQueue.length + (b.hitsOf topics).length ≤ WRITE_QUEUE_CAP)
    (window : c.inFlight.size + reliableMessages (b.hitsOf topics) ≤ IN_FLIGHT_CAP) :
    (subscribeLoop t topics b).2 = .ok () ∧
      ∃ d sent, (subscribeLoop t topics b).1.clients.get? t = some d ∧
        d.writeQueue = c.writeQueue ++ sent ∧ (b.hitsOf topics).Forall₂ (Carries true) sent := by
  induction topics generalizing b c with
  | nil => exact ⟨rfl, c, [], found, by simp, .nil⟩
  | cons e topics ih =>
    obtain ⟨filter, qos⟩ := e
    obtain ⟨subsExact, subsWild, added⟩ := b.addSub_frame filter t qos
    have hits : b.hitsOf ((filter, qos) :: topics) = b.retainedHits filter qos ++ b.hitsOf topics := by
      simp [hitsOf]
    have count : reliableMessages (b.retainedHits filter qos ++ b.hitsOf topics) =
        reliableMessages (b.retainedHits filter qos) + reliableMessages (b.hitsOf topics) := by
      simp only [reliableMessages, List.countP_append]
    rw [hits, List.length_append] at queue
    rw [hits, count] at window
    have same_hits : (b.addSub filter t qos).retainedHits filter qos = b.retainedHits filter qos := by
      rw [added]
      rfl
    have there : (b.addSub filter t qos).clients.get? t = some c := by rw [added]; exact found
    obtain ⟨done, d, sent, found', queue', carried, size⟩ :=
      deliverEach_room true (b.retainedHits filter qos) there (by omega) (by omega)
    obtain ⟨clients, pubSent, log, frame⟩ := deliverEach_frame t true (b.retainedHits filter qos)
      (b.addSub filter t qos)
    simp only [subscribeLoop, same_hits]
    generalize deliverEach t true (b.retainedHits filter qos) (b.addSub filter t qos) = result
      at done found' frame
    obtain ⟨e, answer⟩ := result
    simp only at done found' frame
    subst done
    -- the deliveries leave the retained table alone
    have later : e.hitsOf topics = b.hitsOf topics := by
      rw [frame, added]
      rfl
    have length := carried.length_eq
    obtain ⟨done, f, sent', found'', queue'', carried'⟩ := ih found'
      (by rw [queue', List.length_append, later]; omega) (by rw [later]; omega)
    rw [later] at carried'
    refine ⟨done, f, sent ++ sent', found'', ?_, ?_⟩
    · rw [queue'', queue', List.append_assoc]
    · rw [hits]
      exact List.rel_append carried carried'

/-- The retained messages of a filter: one for every topic it matches. -/
theorem retainedHits_spec (b : Broker) (filter : Str) (qos : UInt8) :
    ((b.retainedHits filter qos).map Prod.fst).Nodup ∧
      ∀ topic payload q, (topic, payload, q) ∈ b.retainedHits filter qos ↔
        topicMatches filter topic = true ∧
          ∃ stored, b.retained.get? topic = some (payload, stored) ∧ q = min stored qos := by
  constructor
  · simp only [retainedHits, List.map_map]
    exact b.retained.nodup_keys.sublist (List.filter_sublist.map Prod.fst)
  · intro topic payload q
    simp only [retainedHits, List.mem_map, List.mem_filter]
    constructor
    · rintro ⟨⟨k, m, stored⟩, ⟨member, matches'⟩, same⟩
      cases same
      exact ⟨matches', stored, (HashMap.mem_iter _ _ _).mp member, rfl⟩
    · rintro ⟨matches', stored, found, rfl⟩
      exact ⟨(topic, payload, stored), ⟨(HashMap.mem_iter _ _ _).mpr found, matches'⟩, rfl⟩

/-- SUBSCRIBE with room for everything it is answered with. -/
theorem dispatch_subscribe_room {p : Packet} {pid : UInt16} {topics : List (Str × UInt8)}
    (isSubscribe : p.ptype = SUBSCRIBE) (parse : parseSubscribe p.body = .ok (some (pid, topics)))
    (found : b.clients.get? t = some c)
    (queue : c.writeQueue.length + (b.hitsOf topics).length < WRITE_QUEUE_CAP)
    (window : c.inFlight.size + reliableMessages (b.hitsOf topics) ≤ IN_FLIGHT_CAP) :
    ∃ b' d sent, b.dispatch t p = .ok (b', .ok ()) ∧ b'.clients.get? t = some d ∧
      d.writeQueue = c.writeQueue ++ sent ++ [(false, buildSuback pid (topics.map Prod.snd))] ∧
      (b.hitsOf topics).Forall₂ (Carries true) sent := by
  have handled : b.dispatch t p = b.handleSubscribe t p.body := by
    simp [dispatch, isSubscribe, show SUBSCRIBE ≠ CONNECT by decide]
  obtain ⟨done, d, sent, there, queued, carried⟩ :=
    subscribeLoop_room topics found (Nat.le_of_lt queue) window
  rw [handled, handleSubscribe, parse, Run.ok_bind]
  simp only
  generalize subscribeLoop t topics b = result at done there
  obtain ⟨e, answer⟩ := result
  simp only at done there
  subst done
  have length := carried.length_eq
  simp only
  -- the SUBACK comes last and needs one place more
  have room : d.writeQueue.length < WRITE_QUEUE_CAP := by
    rw [queued, List.length_append, ← length]
    exact queue
  rw [modifyClient_ok there, Run.ok_bind]
  refine ⟨_, _, sent, rfl, HashMap.get?_insert_self _ _ _, ?_, carried⟩
  rw [Client.reply, Client.queueQos0_ok d _ room, queued]

/-- A retained PUBLISH takes no short cut: it is routed unless its id was received before. -/
theorem packetCall_retained {p : Packet} {q : PublishPacket} (isPublish : p.ptype = PUBLISH)
    (parse : parsePublish p.flags p.body = .ok (some q)) (retain : q.retain = true)
    (found : b.clients.get? t = some c) :
    (∃ call, b.packetCall t p = some call ∧ call.topic = q.topic ∧ call.payload = q.payload ∧
        call.qos = q.qos ∧ call.retain = true) ↔
      ¬(q.qos = 2 ∧ ∃ pid, q.pid = some pid ∧ c.receivedQos2.contains pid = true) := by
  have flag : publishRetain p.flags = true := (parsePublish_fields parse).2.1 ▸ retain
  -- the fast path is for packets without the RETAIN bit
  have routed : b.noRouting p.flags = false := by simp [noRouting, flag]
  -- the answer to the sender tells whether the id is a duplicate
  have acked : ∃ d, b.acknowledge t q =
      .ok (d, decide (q.qos = 2 ∧ ∃ pid, q.pid = some pid ∧ c.receivedQos2.contains pid = true)) := by
    simp only [acknowledge]
    cases id : q.pid with
    | none => exact ⟨b, by simp⟩
    | some pid =>
      by_cases qos1 : q.qos = 1
      · simp [qos1, modifyClient_ok found, Except.map]
      · by_cases qos2 : q.qos = 2
        · simp [qos2, receiveQos2_ok found]
        · simp [qos1, qos2]
  obtain ⟨d, acked⟩ := acked
  by_cases repeated : q.qos = 2 ∧ ∃ pid, q.pid = some pid ∧ c.receivedQos2.contains pid = true
  · simp [packetCall, isPublish, routed, parse, acked, repeated]
  · rw [decide_eq_false repeated] at acked
    simp only [packetCall, isPublish, routed, parse, acked, and_self, if_true]
    exact ⟨fun _ => repeated, fun _ => ⟨_, rfl, rfl, rfl, rfl, retain⟩⟩

end Broker

/-! ### Runs -/

namespace Loop

/-- The calls of `publish` a run makes, in order. -/
def routed : Loop → List Io → List PublishCall
  | _, [] => []
  | s, io :: ios => ((s.op io).publishCall s.broker).toList ++ match s.step io with
    | .ok t => t.routed ios
    | .error _ => []

theorem routed_append {s t : Loop} {ios : List Io} (path : AdmittedRun s ios t) (more : List Io) :
    s.routed (ios ++ more) = s.routed ios ++ t.routed more := by
  induction path generalizing more with
  | nil => rfl
  | snoc io _ _ next ih =>
    rw [List.append_assoc, ih, ih]
    simp [routed, next]

/-- The last retained message of a topic among the calls. -/
def lastRetained (calls : List PublishCall) (topic : Str) : Option PublishCall :=
  (calls.filter fun call => call.retain && call.topic == topic).getLast?

/-- One more call. -/
theorem lastRetained_concat (calls : List PublishCall) (call : PublishCall) (topic : Str) :
    lastRetained (calls ++ [call]) topic =
      if call.retain = true ∧ call.topic = topic then some call else lastRetained calls topic := by
  rw [lastRetained, List.filter_append, List.filter_singleton]
  by_cases counts : call.retain = true ∧ call.topic = topic
  · simp [counts]
  · have dropped : (call.retain && call.topic == topic) = false := by
      simpa [Bool.and_eq_false_iff] using counts
    rw [dropped, if_neg counts]
    simp [lastRetained]

/-- The last retained message of a topic decides its entry; without one it is as at the start. -/
theorem retained_run {s₀ s : Loop} {ios : List Io} (start : s₀.Initial) (run : AdmittedRun s₀ ios s)
    (topic : Str) : s.broker.retained.get? topic =
      (lastRetained (s₀.routed ios) topic).elim (s₀.broker.retained.get? topic) PublishCall.entry := by
  induction run with
  | nil => rfl
  | @snoc ios u v io before admitted next ih =>
    have healthy := Reachable.healthy ⟨s₀, ios, start, before⟩
    obtain ⟨b, out, ran, rfl⟩ := step_ok.mp next
    have single : u.routed [io] = ((u.op io).publishCall u.broker).toList := by
      rw [routed, next]
      exact List.append_nil _
    -- one step makes one call at most
    rw [routed_append before, single, Op.retained healthy ran, ih]
    cases (u.op io).publishCall u.broker with
    | none => simp
    | some call =>
      rw [Option.elim_some, Option.toList_some, lastRetained_concat, PublishCall.stored]
      split <;> rfl

/-- A client publishes `x`, then `y` at QoS 1, both retained, to topic `t`. -/
def twice : List Io :=
  [Io.listen, .connection] ++ List.replicate 3 Io.quiet ++
    [Io.read (connectBytes 2 97 ++ [0x31, 4, 0, 1, 116, 120, 0x33, 6, 0, 1, 116, 0, 1, 121])] ++
    List.replicate 4 Io.quiet

/-- In every run the retained table is the last routed retained message of every topic, a message
without payload leaving nothing; before the first one, what was loaded. A retained PUBLISH is
routed unless its id was received before, other messages do not touch the table, and a SUBSCRIBE
with room is answered with one retained copy of every message its filters match. -/
theorem retained_last (s₀ s : Loop) (ios : List Io) (start : s₀.Initial)
    (run : AdmittedRun s₀ ios s) :
    (∀ topic, s.broker.retained.get? topic =
      (lastRetained (s₀.routed ios) topic).elim (s₀.broker.retained.get? topic) PublishCall.entry) ∧
    (∀ t p q c, p.ptype = PUBLISH → parsePublish p.flags p.body = .ok (some q) → q.retain = true →
      s.broker.clients.get? t = some c →
      ((∃ call, (Op.packet t p).publishCall s.broker = some call ∧ call.topic = q.topic ∧
          call.payload = q.payload ∧ call.qos = q.qos ∧ call.retain = true) ↔
        ¬(q.qos = 2 ∧ ∃ pid, q.pid = some pid ∧ c.receivedQos2.contains pid = true))) ∧
    (∀ io s', s.admits io = true → s.step io = .ok s' →
      (∀ call, (s.op io).publishCall s.broker = some call → call.retain = false) →
      ∀ topic, s'.broker.retained.get? topic = s.broker.retained.get? topic) ∧
    ∀ t p c pid topics, p.ptype = SUBSCRIBE → parseSubscribe p.body = .ok (some (pid, topics)) →
      s.broker.clients.get? t = some c →
      c.writeQueue.length + (s.broker.hitsOf topics).length < WRITE_QUEUE_CAP →
      c.inFlight.size + reliableMessages (s.broker.hitsOf topics) ≤ IN_FLIGHT_CAP →
      ∃ b' d hits sent, s.broker.dispatch t p = .ok (b', .ok ()) ∧ b'.clients.get? t = some d ∧
        d.writeQueue = c.writeQueue ++ sent ++ [(false, buildSuback pid (topics.map Prod.snd))] ∧
        (List.flatten hits).Forall₂ (Carries true) sent ∧
        topics.Forall₂ (fun e msgs => (msgs.map Prod.fst).Nodup ∧
          ∀ topic payload q, (topic, payload, q) ∈ msgs ↔ topicMatches e.1 topic = true ∧
            ∃ stored, s.broker.retained.get? topic = some (payload, stored) ∧ q = min stored e.2) hits := by
  have reached : s.Reachable := ⟨s₀, ios, start, run⟩
  refine ⟨retained_run start run, ?_, ?_, ?_⟩
  · intro t p q c isPublish parse retain found
    exact Broker.packetCall_retained isPublish parse retain found
  · intro io s' _ next plain topic
    obtain ⟨b, out, ran, rfl⟩ := step_ok.mp next
    rw [Op.retained reached.healthy ran]
    -- A step without a retained publish leaves the table as it is.
    cases called : (s.op io).publishCall s.broker with
    | none => rfl
    | some call => simp [PublishCall.stored, plain call called]
  · intro t p c pid topics isSubscribe parse found queue window
    obtain ⟨b', d, sent, done, there, queued, carried⟩ :=
      Broker.dispatch_subscribe_room isSubscribe parse found queue window
    refine ⟨b', d, topics.map fun e => s.broker.retainedHits e.1 e.2, sent, done, there, queued,
      ?_, ?_⟩
    · rw [← List.flatMap_def]
      exact carried
    · rw [List.forall₂_map_right_iff, List.forall₂_same]
      exact fun e _ => s.broker.retainedHits_spec e.1 e.2

/-- The last retained message of a client that published two to one topic. -/
theorem retained_last_twice : ∃ s, AdmittedRun fresh twice s ∧
    s.broker.retained.get? topicT = some ([121], 1) := by
  obtain ⟨s, done, -⟩ := exists_after twice (fun _ => true) (by decide +kernel)
  have last := (retained_last fresh s twice fresh_initial (after_path done)).1 topicT
  exact ⟨s, after_path done, last.trans (by decide +kernel)⟩

end Loop

end MioBroker
