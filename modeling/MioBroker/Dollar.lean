import MioBroker.Matching
import MioBroker.Retained
import MioBroker.Scenario

/-!
# Topics that start with `$`

No routing path looks at the first character of a topic. A leading wildcard sees the statistics of
the broker like any other message.
-/
namespace MioBroker

open Rust

/-- The topic starts with `$`. -/
def Dollar (topic : Str) : Prop := topic.bytes.head? = some 36

/-- The filter starts with the level `+` or `#`. -/
def LeadingWildcard (filter : Str) : Prop :=
  (levels filter).head? = some plusLevel ∨ (levels filter).head? = some hashLevel

instance (topic : Str) : Decidable (Dollar topic) := inferInstanceAs (Decidable (_ = _))

instance (filter : Str) : Decidable (LeadingWildcard filter) := inferInstanceAs (Decidable (_ ∨ _))

/-! ### The first level -/

theorem levels_ne_nil (s : Str) : levels s ≠ [] := List.splitOn_ne_nil _ _

theorem topicMatches_hash_first {filter : Str} {fs : List Level} (first : levels filter = hashLevel :: fs)
    (topic : Str) : topicMatches filter topic = true := by
  simp [topicMatches, first, matchLevels]

/-- Any other first level is compared with the first level of the topic. -/
theorem topicMatches_first {filter : Str} {f : Level} {fs : List Level}
    (first : levels filter = f :: fs) (plain : f ≠ hashLevel) (topic : Str) :
    topicMatches filter topic = true ↔
      (f = plusLevel ∨ (levels topic).head? = some f) ∧ matchLevels fs (levels topic).tail = true := by
  rw [topicMatches, first]
  cases here : levels topic with
  | nil => exact absurd here (levels_ne_nil topic)
  | cons t ts =>
    rw [matchLevels_cons f t fs ts plain, Admits, List.head?_cons, List.tail_cons, Option.some_inj]
    exact and_congr_left fun _ => or_congr_right eq_comm

theorem ne_of_dollar {f : Level} (dollar : f.head? = some 36) : f ≠ hashLevel ∧ f ≠ plusLevel := by
  constructor
  · rintro rfl
    cases dollar
  · rintro rfl
    cases dollar

/-- What matching comes to by the first level of the filter. -/
structure FirstLevel (filter topic : Str) : Prop where
  hash : ∀ fs, levels filter = hashLevel :: fs → topicMatches filter topic = true
  plus : ∀ fs, levels filter = plusLevel :: fs →
    (topicMatches filter topic = true ↔ matchLevels fs (levels topic).tail = true)
  dollar : ∀ f fs, levels filter = f :: fs → f.head? = some 36 →
    (topicMatches filter topic = true ↔
      (levels topic).head? = some f ∧ matchLevels fs (levels topic).tail = true)

theorem firstLevel (filter topic : Str) : FirstLevel filter topic := by
  refine ⟨fun fs first => topicMatches_hash_first first topic, fun fs first => ?_,
    fun f fs first dollar => ?_⟩
  · rw [topicMatches_first first (by decide) topic, and_iff_right (.inl rfl)]
  · rw [topicMatches_first first (ne_of_dollar dollar).1 topic, or_iff_right (ne_of_dollar dollar).2]

/-! ### The routing paths -/

/-- The message was routed by the filters that match its topic and by nothing else: a connection is
offered it once for each such subscription, a stored session gets it at the QoS of its first one. -/
structure Broker.Routed (b b' : Broker) (topic : Str) (payload : Bytes) (srcQos : UInt8) : Prop where
  live : ∀ t, b'.clients.get? t = Client.serve b.now topic payload
    (((b.subsOf t).filter fun sub => topicMatches sub.1 topic).map fun sub =>
      min srcQos sub.2).reverse (b.clients.get? t)
  offline : ∀ cid, b'.sessions.get? cid =
    if srcQos > 0 then (b.sessions.get? cid).map fun sess =>
      match sess.subs.find? fun sub => topicMatches sub.1 topic with
      | some sub => sess.push (topic, payload, min srcQos sub.2)
      | none => sess
    else b.sessions.get? cid

theorem Broker.Published.routed {b b' : Broker} {topic : Str} {payload : Bytes} {srcQos : UInt8}
    {retain : Bool} (spec : Published b b' topic payload srcQos retain) :
    b.Routed b' topic payload srcQos := by
  refine ⟨fun t => ?_, spec.sessions⟩
  rw [spec.slots t, b.forwards_subsOf]

/-- The statistics of the broker are published on such topics. -/
theorem Broker.dollar_sysTopics (b : Broker) : ∀ e ∈ b.sysTopics, Dollar e.1 := by
  intro e member
  simp only [sysTopics, List.map_cons, List.map_nil, List.mem_cons, List.not_mem_nil, or_false]
    at member
  rcases member with rfl | rfl | rfl | rfl | rfl | rfl | rfl | rfl | rfl <;> rfl

/-- The queued messages of a session are capped by its first subscription that matches, too. -/
theorem Broker.mem_flushList {sess : SessionState} {m : Str × Bytes × UInt8} (queued : m ∈ sess.offline) :
    (m.1, m.2.1, match sess.subs.find? fun sub => topicMatches sub.1 m.1 with
      | some sub => min m.2.2 sub.2
      | none => m.2.2) ∈ flushList sess := by
  refine List.mem_map.mpr ⟨m, queued, ?_⟩
  rw [firstMatch]
  cases sess.subs.find? fun sub => topicMatches sub.1 m.1 <;> rfl

/-- A topic that starts with `$` is a topic like any other. -/
theorem dollar_topics_alike (s : Loop) (reached : s.Reachable) (topic : Str) :
    (∀ filter, FirstLevel filter topic) ∧
    (∀ payload srcQos retain, ∃ b' n, s.broker.publish topic payload srcQos retain = .ok (b', n, 0) ∧
      s.broker.Routed b' topic payload srcQos) ∧
    ((∀ e ∈ s.broker.sysTopics, Dollar e.1) ∧
      ∀ payload todo scan os s', s.pc = .sysPublish ((topic, payload) :: todo) scan →
        s.step (.go os) = .ok s' → s.broker.Routed s'.broker topic payload 0) ∧
    (∀ filter qos payload q, (topic, payload, q) ∈ s.broker.retainedHits filter qos ↔
      topicMatches filter topic = true ∧
        ∃ stored, s.broker.retained.get? topic = some (payload, stored) ∧ q = min stored qos) ∧
    ∀ cid sess payload q, s.broker.sessions.get? cid = some sess → (topic, payload, q) ∈ sess.offline →
      (topic, payload, match sess.subs.find? fun sub => topicMatches sub.1 topic with
        | some sub => min q sub.2
        | none => q) ∈ Broker.flushList sess := by
  have indexed := reached.healthy.indexed
  refine ⟨fun filter => firstLevel filter topic, fun payload srcQos retain => ?_,
    ⟨s.broker.dollar_sysTopics, fun payload todo scan os s' here done => ?_⟩,
    fun filter qos => (s.broker.retainedHits_spec filter qos).2 topic,
    fun cid sess payload q _ queued => Broker.mem_flushList queued⟩
  · obtain ⟨b', n, run, spec⟩ := s.broker.publish_spec indexed topic payload srcQos retain
    exact ⟨b', n, run, spec.routed⟩
  · obtain ⟨b, out, ran, rfl⟩ := Loop.step_ok.mp done
    simp only [Loop.op, Loop.next, here, Op.run] at ran
    obtain ⟨⟨b', n⟩, run, same⟩ := Run.bind_ok.mp ran
    cases same
    exact (Broker.publish_ok indexed run).routed

/-- `$SYS/broker/uptime` -/
def uptime : Str := .fromUtf8Lossy (Broker.ascii "$SYS/broker/uptime")

/-- A client subscribes to `#`. -/
def everywhere : List Io :=
  [Io.listen, .connection] ++ List.replicate 3 Io.quiet ++
    [Io.read (connectBytes 2 97 ++ [0x82, 6, 0, 1, 0, 1, 35, 0])] ++ List.replicate 10 Io.quiet

/-- It is served the uptime. -/
theorem dollar_topics_alike_everywhere : ∃ s : Loop, s.Reachable ∧
    s.broker.subsOf 1 = [(.fromUtf8Lossy [35], 0)] ∧ ∃ b' n,
      s.broker.publish uptime [48] 0 true = .ok (b', n, 0) ∧ s.broker.Routed b' uptime [48] 0 := by
  obtain ⟨s, done, subscribed⟩ := Loop.exists_after everywhere
    (fun s => decide (s.broker.subsOf 1 = [(.fromUtf8Lossy [35], 0)])) (by decide +kernel)
  have reached := Loop.after_reachable done
  exact ⟨s, reached, of_decide_eq_true subscribed,
    (dollar_topics_alike s reached uptime).2.1 [48] 0 true⟩

/-- No message on the topic is queued for a subscription that starts with a wildcard. -/
structure Broker.HidesFromWildcards (b : Broker) (topic : Str) : Prop where
  live : ∀ payload srcQos retain b' n, b.publish topic payload srcQos retain = .ok (b', n) →
    ∀ t, (∀ sub ∈ b.subsOf t, LeadingWildcard sub.1) → b'.clients.get? t = b.clients.get? t
  offline : ∀ payload srcQos retain b' n, b.publish topic payload srcQos retain = .ok (b', n) →
    ∀ cid sess, b.sessions.get? cid = some sess → (∀ sub ∈ sess.subs, LeadingWildcard sub.1) →
      b'.sessions.get? cid = some sess
  retained : ∀ filter qos, LeadingWildcard filter → ∀ e ∈ b.retainedHits filter qos, e.1 ≠ topic

/-- Subscribed to `#`, then handed the uptime. -/
theorem dollar_topics_seen : ¬∀ s : Loop, s.Reachable → ∀ topic, Dollar topic →
    s.broker.HidesFromWildcards topic := by
  intro claim
  obtain ⟨s, done, checked⟩ := Loop.exists_after everywhere
    (fun s => decide (∀ sub ∈ s.broker.subsOf 1, LeadingWildcard sub.1) &&
      match s.broker.publish uptime [48] 0 true with
      | .ok (b', _) => decide ((b'.clients.get? 1).map (fun c => c.writeQueue.length) ≠
        (s.broker.clients.get? 1).map fun c => c.writeQueue.length)
      | .error _ => false) (by decide +kernel)
  rw [Bool.and_eq_true, decide_eq_true_eq] at checked
  obtain ⟨leading, published⟩ := checked
  split at published
  next b' n run =>
    have hidden := (claim s (Loop.after_reachable done) uptime (by decide)).live _ _ _ _ _ run 1 leading
    rw [hidden] at published
    exact of_decide_eq_true published rfl
  next => cases published

end MioBroker
