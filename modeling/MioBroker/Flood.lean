import MioBroker.Codec
import MioBroker.Subscribing

/-!
# More retained messages than fit

Retained delivery runs before any acknowledgement can come in, so a SUBSCRIBE has one window and
one queue for everything its filters match. What does not fit ends the connection.
-/
namespace MioBroker

open Rust

namespace Client

/-- The record behind deliveries that all succeeded: reliable messages stay in the window, the
queue grows up to its cap. -/
structure Takes (retain : Bool) (c : Client) (msgs : List (Str × Bytes × UInt8)) (d : Client) :
    Prop where
  capped : d.Capped
  queue : d.writeQueue.length = min WRITE_QUEUE_CAP (c.writeQueue.length + msgs.length)
  window : d.inFlight.size = c.inFlight.size + reliableMessages msgs
  entries : ∀ e ∈ d.writeQueue, e ∈ c.writeQueue ∨ ∃ m ∈ msgs, Carries retain m e

variable {retain : Bool} {c d e : Client} {msgs more : List (Str × Bytes × UInt8)}

theorem Takes.none (capped : c.Capped) : c.Takes retain [] c where
  capped := capped
  queue := (Nat.min_eq_right capped.queue).symm
  window := rfl
  entries := fun _ member => .inl member

theorem Takes.one (capped : c.Capped) {now : Instant} {m : Str × Bytes × UInt8}
    (done : c.offer now m.1 m.2.1 m.2.2 retain = .queued d) : c.Takes retain [m] d := by
  -- An offer may evict, so old entries are a sublist and only the last one is new.
  have carried : ∀ e ∈ d.writeQueue, e ∈ c.writeQueue ∨ ∃ m' ∈ [m], Carries retain m' e := by
    obtain ⟨entry, sub, carries⟩ := offer_carries done
    intro e member
    refine (List.mem_append.mp (sub.subset member)).imp_right fun new => ?_
    exact ⟨m, List.mem_singleton_self m, List.mem_singleton.mp new ▸ carries⟩
  have capped' := capped_of_offer capped _ _ _ _ _ done
  by_cases unreliable : m.2.2 = 0
  · rw [unreliable] at done
    obtain ⟨room, inFlight, -, length⟩ := offer_qos0_counts _ _ _ _ _ _ done
    refine ⟨capped', ?_, ?_, carried⟩
    · rw [length, List.length_singleton]
      omega
    · rw [inFlight]
      simp [reliableMessages, unreliable]
  · obtain ⟨size, -, length⟩ := offer_reliable_counts _ _ _ _ _ _ _ unreliable capped.queue done
    refine ⟨capped', by rw [length, List.length_singleton], ?_, carried⟩
    rw [size]
    simp [reliableMessages, unreliable]

theorem Takes.trans (first : c.Takes retain msgs d) (second : d.Takes retain more e) :
    c.Takes retain (msgs ++ more) e := by
  refine ⟨second.capped, ?_, ?_, fun entry member => ?_⟩
  · rw [second.queue, first.queue, List.length_append]
    omega
  · rw [second.window, first.window]
    simp only [reliableMessages, List.countP_append]
    omega
  · rcases second.entries entry member with old | ⟨m, new, carries⟩
    · rcases first.entries entry old with old | ⟨m, new, carries⟩
      · exact .inl old
      · exact .inr ⟨m, List.mem_append_left _ new, carries⟩
    · exact .inr ⟨m, List.mem_append_right _ new, carries⟩

end Client

namespace Broker

variable {b : Broker} {t : Token} {c : Client}

theorem deliverEach_takes (retain : Bool) (msgs : List (Str × Bytes × UInt8))
    (found : b.clients.get? t = some c) (capped : c.Capped)
    (done : (deliverEach t retain msgs b).2 = .ok ()) :
    ∃ d, (deliverEach t retain msgs b).1.clients.get? t = some d ∧ c.Takes retain msgs d := by
  induction msgs generalizing b c with
  | nil => exact ⟨c, found, .none capped⟩
  | cons m msgs ih =>
    rw [deliverEach] at done ⊢
    cases result : c.offer b.now m.1 m.2.1 m.2.2 retain with
    | queued e =>
      have first := Client.Takes.one capped result
      rw [deliverTo_queued b t m.1 m.2.1 m.2.2 retain c e found result] at done ⊢
      obtain ⟨d, there, rest⟩ := ih (HashMap.get?_insert_self _ _ _) first.capped done
      exact ⟨d, there, first.trans rest⟩
    -- A message that is not queued ends the loop with an error.
    | refused =>
      rw [deliverTo_refused b t m.1 m.2.1 m.2.2 retain c found result] at done
      cases done
    | dropped =>
      rw [deliverTo_dropped b t m.1 m.2.1 m.2.2 retain c found result] at done
      cases done

/-- One filter after the other: the retained messages it matches. -/
theorem subscribeLoop_takes (topics : List (Str × UInt8)) (found : b.clients.get? t = some c)
    (capped : c.Capped) (done : (subscribeLoop t topics b).2 = .ok ()) :
    ∃ d, (subscribeLoop t topics b).1.clients.get? t = some d ∧
      c.Takes true (b.hitsOf topics) d := by
  induction topics generalizing b c with
  | nil => exact ⟨c, found, .none capped⟩
  | cons e topics ih =>
    obtain ⟨filter, qos⟩ := e
    obtain ⟨subsExact, subsWild, added⟩ := b.addSub_frame filter t qos
    have there : (b.addSub filter t qos).clients.get? t = some c := by rw [added]; exact found
    have same_hits : (b.addSub filter t qos).retainedHits filter qos = b.retainedHits filter qos := by
      rw [added]
      rfl
    have hits : b.hitsOf ((filter, qos) :: topics) = b.retainedHits filter qos ++ b.hitsOf topics := by
      simp [hitsOf]
    obtain ⟨clients, pubSent, log, frame⟩ := deliverEach_frame t true (b.retainedHits filter qos)
      (b.addSub filter t qos)
    simp only [subscribeLoop, same_hits] at done ⊢
    have first := deliverEach_takes true (b.retainedHits filter qos) there capped
    generalize deliverEach t true (b.retainedHits filter qos) (b.addSub filter t qos) = result
      at done first frame ⊢
    obtain ⟨f, ⟨⟩ | ⟨⟩⟩ := result
    · cases done
    · obtain ⟨d, found', takes⟩ := first rfl
      -- the deliveries leave the retained table alone
      have later : f.hitsOf topics = b.hitsOf topics := by
        simp only at frame
        rw [frame, added]
        rfl
      obtain ⟨g, found'', rest⟩ := ih found' takes.capped done
      rw [later] at rest
      exact ⟨g, found'', hits ▸ takes.trans rest⟩

/-- A SUBACK is no PUBLISH. -/
theorem not_carries_suback (retain : Bool) (m : Str × Bytes × UInt8) (pid : UInt16)
    (grants : List UInt8) : ¬Carries retain m (false, buildSuback pid grants) := by
  rintro ⟨id, same, -⟩
  obtain ⟨unreliable, packets⟩ := Prod.mk.injEq .. ▸ same
  have zero : m.2.2 = 0 := by simpa using unreliable.symm
  rw [zero] at packets
  have first := congrArg List.head? packets
  cases retain <;> cases first

/-- The SUBSCRIBE is answered with its SUBACK on the connection it came in on, and every retained
message its filters match is queued. -/
def Served (b : Broker) (t : Token) (p : Packet) (pid : UInt16) (topics : List (Str × UInt8)) : Prop :=
  ∃ b' d, b.dispatch t p = .ok (b', .ok ()) ∧ b'.clients.get? t = some d ∧
    (false, buildSuback pid (topics.map Prod.snd)) ∈ d.writeQueue ∧
    ∀ m ∈ b.hitsOf topics, ∃ entry ∈ d.writeQueue, Carries true m entry

/-- What is served has found room for everything. -/
theorem Served.room {p : Packet} {pid : UInt16} {topics : List (Str × UInt8)}
    (isSubscribe : p.ptype = SUBSCRIBE) (parse : parseSubscribe p.body = .ok (some (pid, topics)))
    (found : b.clients.get? t = some c) (queue : c.writeQueue = []) (window : c.inFlight.size = 0)
    (served : b.Served t p pid topics) : (b.hitsOf topics).length < WRITE_QUEUE_CAP ∧
      reliableMessages (b.hitsOf topics) ≤ IN_FLIGHT_CAP := by
  obtain ⟨b', d, dispatched, there, suback, -⟩ := served
  have capped : c.Capped := ⟨by simp [Client.Bounded, queue], by omega⟩
  have handled : b.dispatch t p = b.handleSubscribe t p.body := by
    simp [dispatch, isSubscribe, show SUBSCRIBE ≠ CONNECT by decide]
  rw [handled, handleSubscribe, parse, Run.ok_bind] at dispatched
  have taken := subscribeLoop_takes topics found capped
  simp only at dispatched
  generalize subscribeLoop t topics b = result at dispatched taken
  obtain ⟨f, ⟨⟩ | ⟨⟩⟩ := result
  · cases dispatched
  · obtain ⟨e, found', takes⟩ := taken rfl
    simp only at dispatched
    rw [modifyClient_ok found', Run.ok_bind] at dispatched
    cases dispatched
    rw [HashMap.get?_insert_self] at there
    cases there
    have length := takes.queue
    rw [queue, List.length_nil, Nat.zero_add] at length
    refine ⟨?_, ?_⟩
    · -- a SUBACK that found the queue full is not in it
      by_contra crowded
      have full : WRITE_QUEUE_CAP ≤ e.writeQueue.length := by omega
      rw [Client.reply, Client.queueQos0_full e _ full] at suback
      rcases takes.entries _ suback with old | ⟨m, -, carries⟩
      · rw [queue] at old
        cases old
      · exact not_carries_suback _ _ _ _ carries
    · have size := takes.window
      have le := takes.capped.window
      omega

end Broker

/-- A SUBSCRIBE from a client with nothing queued and nothing in flight is served, the connection
kept, exactly if fewer than 8192 retained messages match its filters, and no more than 256 of them
go out reliably; a message counts once for every filter it matches. -/
theorem subscribe_served_iff (b : Broker) (t : Token) (c : Client) (p : Packet) (pid : UInt16)
    (topics : List (Str × UInt8)) (isSubscribe : p.ptype = SUBSCRIBE)
    (parse : parseSubscribe p.body = .ok (some (pid, topics))) (found : b.clients.get? t = some c)
    (queue : c.writeQueue = []) (window : c.inFlight.size = 0) :
    b.Served t p pid topics ↔ (b.hitsOf topics).length < WRITE_QUEUE_CAP ∧
      reliableMessages (b.hitsOf topics) ≤ IN_FLIGHT_CAP := by
  refine ⟨Broker.Served.room isSubscribe parse found queue window, ?_⟩
  rintro ⟨room, enough⟩
  obtain ⟨b', d, sent, dispatched, there, queued, carried⟩ :=
    Broker.dispatch_subscribe_room isSubscribe parse found (by simpa [queue] using room) (by omega)
  refine ⟨b', d, dispatched, there, by rw [queued]; simp, fun m member => ?_⟩
  obtain ⟨entry, inside, carries⟩ := forall₂_partner carried.flip member
  exact ⟨entry, by rw [queued]; simp [inside], carries⟩

/-- A SUBSCRIBE for `#` to a broker that retains a message with QoS 1 and one with QoS 0. -/
theorem subscribe_served_two :
    let retained : HashMap Str (Bytes × UInt8) :=
      ((HashMap.new default).insert ⟨[97], by decide⟩ ([7], 1)).insert ⟨[98], by decide⟩ ([8], 0)
    let b := ({ Broker.new ⟨default, default, default, default⟩ 0 ⟨none, none⟩ with retained }).accept
      default default
    (b.hitsOf [(⟨[35], by decide⟩, 1)]).length = 2 ∧ reliableMessages (b.hitsOf [(⟨[35], by decide⟩, 1)]) = 1 ∧
      b.Served 1 ⟨SUBSCRIBE, 2, [0, 1, 0, 1, 35, 1]⟩ 1 [(⟨[35], by decide⟩, 1)] := by
  intro retained b
  have hits : (b.hitsOf [(⟨[35], by decide⟩, 1)]).length = 2 := by decide +kernel
  have reliable : reliableMessages (b.hitsOf [(⟨[35], by decide⟩, 1)]) = 1 := by decide +kernel
  exact ⟨hits, reliable, (subscribe_served_iff b 1 (.accepted 1 default default) _ _ _ rfl rfl
    (HashMap.get?_insert_self _ _ _) rfl rfl).mpr ⟨hits ▸ by decide, reliable ▸ by decide⟩⟩

/-! ### A table that is too large -/

theorem validate_replicate (n : Nat) : Utf8.validate (List.replicate n 97) = true := by
  induction n with
  | zero => rfl
  | succ n ih => exact ih

/-- `n` times the letter a. -/
def letters (n : Nat) : Str := ⟨List.replicate n 97, validate_replicate n⟩

theorem letters_injective {m n : Nat} (same : letters m = letters n) : m = n := by
  have := congrArg (fun s : Str => s.bytes.length) same
  simpa [letters] using this

/-- `n` retained QoS 1 messages without contents. -/
def crowd : Nat → HashMap Str (Bytes × UInt8)
  | 0 => .new default
  | n + 1 => (crowd n).insert (letters n) ([], 1)

theorem crowd_found {n : Nat} {topic : Str} {m : Bytes × UInt8}
    (found : (crowd n).get? topic = some m) : m = ([], 1) ∧ ∃ i < n, topic = letters i := by
  induction n with
  | zero => cases found
  | succ n ih =>
    rw [crowd, HashMap.get?_insert] at found
    split at found
    next same => exact ⟨(Option.some.inj found).symm, n, Nat.lt_succ_self n, same⟩
    next =>
      obtain ⟨same, i, below, named⟩ := ih found
      exact ⟨same, i, Nat.lt_succ_of_lt below, named⟩

theorem size_crowd (n : Nat) : (crowd n).size = n := by
  induction n with
  | zero => rfl
  | succ n ih =>
    have fresh : (crowd n).get? (letters n) = none := by
      refine Option.eq_none_iff_forall_ne_some.mpr fun m found => ?_
      obtain ⟨-, i, below, same⟩ := crowd_found found
      exact Nat.ne_of_gt below (letters_injective same)
    rw [crowd, HashMap.size_insert_new _ _ _ fresh, ih]

theorem fits_crowd {n : Nat} (few : n ≤ 65535) : StateFits (crowd n) (.new default) where
  retainedCount := (size_crowd n).trans_le few
  retained := by
    intro topic payload qos found
    obtain ⟨same, i, below, rfl⟩ := crowd_found found
    cases same
    refine ⟨?_, Nat.zero_le _, by decide⟩
    simp only [letters, Str.length, List.length_replicate]
    omega
  sessionCount := Nat.zero_le _
  sessions := fun _ _ found => by cases found

theorem validate_hash : Utf8.validate [35] = true := by decide

/-- `#` -/
def everything : Str := ⟨[35], validate_hash⟩

theorem topicMatches_everything (topic : Str) : topicMatches everything topic = true := by
  have one : levels everything = [hashLevel] := by decide
  rw [topicMatches, one]
  rfl

/-- Every retained message matches `#`. -/
theorem Broker.hits_everything {b : Broker} {n : Nat} (crowded : b.retained.Equiv (crowd n)) :
    reliableMessages (b.hitsOf [(everything, 1)]) = n := by
  have size : b.retained.size = n := by
    rw [← size_crowd n]
    refine Nat.le_antisymm (HashMap.size_le_of_keys fun k v found => ?_)
      (HashMap.size_le_of_keys fun k v found => ?_)
    · exact ⟨v, (crowded k).symm.trans found⟩
    · exact ⟨v, (crowded k).trans found⟩
  -- Every stored message has QoS 1, and so has the request.
  have reliable : ∀ m ∈ b.retainedHits everything 1, m.2.2 ≠ 0 := by
    rintro ⟨topic, payload, qos⟩ member
    obtain ⟨-, stored, found, rfl⟩ := ((b.retainedHits_spec everything 1).2 topic payload qos).mp member
    obtain ⟨same, -⟩ := crowd_found ((crowded topic).symm.trans found)
    cases same
    exact (by decide : min (1 : UInt8) 1 ≠ 0)
  have all : (b.retainedHits everything 1).length = b.retained.iter.length := by
    rw [Broker.retainedHits, List.length_map,
      List.filter_eq_self.mpr fun (e : Str × Bytes × UInt8) _ => topicMatches_everything e.1]
  rw [hitsOf, List.flatMap_singleton, reliableMessages, List.countP_eq_length.mpr (by simpa using reliable),
    all, HashMap.length_iter, size]

namespace Loop

/-- A process that starts with `n` retained messages in its state file. -/
theorem exists_crowded {n : Nat} (few : n ≤ 65535) :
    ∃ s₀ : Loop, s₀.Initial ∧ s₀.broker.retained.Equiv (crowd n) := by
  have read := deserializeState_serialize ⟨default, default, default, default⟩ (fits_crowd few)
  refine ⟨init ⟨default, default, default, default⟩ 0
    ⟨some (serializeState (crowd n) (.new default)), none⟩ (millis 10000), ⟨_, _, _, _, rfl⟩, ?_⟩
  simp only [init, Broker.loadState, Broker.new, read]
  exact insertAll_equiv _ _

/-- One connection is accepted. -/
theorem exists_accepted {s₀ : Loop} (start : s₀.Initial) :
    ∃ s : Loop, s.Reachable ∧ s.broker = s₀.broker.accept default default := by
  obtain ⟨s₁, set⟩ : ∃ s₁ : Loop, s₁ = { s₀ with pc := .events [.listener] } := ⟨_, rfl⟩
  -- The poll reports the listener alone, and the accept follows it.
  have polled : s₀.step .listen = .ok s₁ := by
    rw [step_ok, set]
    refine ⟨s₀.broker, .ok [], ?_, ?_⟩
    · simp [op, next, start.pc, Io.listen, Op.run]
    · simp [pcAfter, next, start.pc, Io.listen, Os.quiet]
  have accepted : s₁.step .connection = .ok { s₁ with broker := s₀.broker.accept default default } := by
    rw [step_ok, set]
    exact ⟨_, _, rfl, rfl⟩
  refine ⟨{ s₁ with broker := s₀.broker.accept default default },
    ⟨s₀, [Io.listen] ++ [Io.connection], start,
      .snoc Io.connection (.single Io.listen ?_ polled) ?_ accepted⟩, rfl⟩
  · simp [admits, start.pc, Io.listen, Os.quiet, eventsAdmitted]
  · rw [set]
    rfl

/-- A SUBSCRIBE for `#` with QoS 1, the first packet on a new connection, is not served when 257
messages with QoS 1 are retained. -/
theorem subscribe_punished : ¬∀ (s : Loop) (t : Token) (c : Client) (p : Packet) (pid : UInt16)
    (topics : List (Str × UInt8)), s.Reachable → p.ptype = SUBSCRIBE →
    parseSubscribe p.body = .ok (some (pid, topics)) → s.broker.clients.get? t = some c →
    c.writeQueue = [] → c.inFlight.size = 0 → s.broker.Served t p pid topics := by
  intro spared
  obtain ⟨s₀, start, crowded⟩ := exists_crowded (n := 257) (by decide)
  obtain ⟨s, reached, accepted⟩ := exists_accepted start
  have there : s.broker.clients.get? s₀.broker.nextToken =
      some (.accepted s₀.broker.nextToken default default) := by
    rw [accepted]
    exact HashMap.get?_insert_self _ _ _
  -- The filter matches all 257 retained messages, one more than the window holds.
  have hits : reliableMessages (s.broker.hitsOf [(everything, 1)]) = 257 :=
    Broker.hits_everything (by rw [accepted]; exact crowded)
  have parse : parseSubscribe [0, 1, 0, 1, 35, 1] = .ok (some (1, [(everything, 1)])) := rfl
  have served := spared s _ _ ⟨SUBSCRIBE, 2, [0, 1, 0, 1, 35, 1]⟩ 1 [(everything, 1)] reached rfl
    parse there rfl rfl
  have fits := (Broker.Served.room rfl parse there rfl rfl served).2
  rw [hits] at fits
  exact absurd fits (by decide)

end Loop
end MioBroker
