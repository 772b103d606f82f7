import MioBroker.Discipline
import MioBroker.Retained
import MioBroker.Retry
import MioBroker.Tables

/-!
# QoS stays within 0, 1 and 2

The state file refuses a QoS of 3, the parsers of CONNECT, SUBSCRIBE and PUBLISH do not. As long as
no will, no requested subscription and no retained message brings one, none is stored or sent: every
delivery takes the minimum with the QoS of a subscription.
-/
namespace MioBroker

open Rust

theorem qos_le_two {qos : UInt8} (coded : qos ≤ 3) (other : qos ≠ 3) : qos ≤ 2 := by
  rcases qos_cases coded with rfl | rfl | rfl | rfl
  · decide
  · decide
  · decide
  · exact absurd rfl other

theorem qos_ne_three {qos : UInt8} (low : qos ≤ 2) : qos ≠ 3 := by
  rintro rfl
  exact absurd low (by decide)

theorem min_le_two {p q : UInt8} (low : p ≤ 2 ∨ q ≤ 2) : min p q ≤ 2 := by
  rcases low with low | low
  · exact UInt8.le_trans Std.min_le_left low
  · exact UInt8.le_trans Std.min_le_right low

/-! ### The bits of a packet -/

theorem qosBits_buildForward {qos : UInt8} (coded : qos ≤ 3) (topic payload : Bytes)
    (pid : Option UInt16) (dup retain : Bool) :
    qosBits (buildForward topic payload qos pid dup retain) = qos :=
  forwardFlags_qos coded dup retain

/-- The DUP bit is not one of them. -/
theorem qosBits_dup (first : UInt8) (rest : Bytes) :
    qosBits ((first ||| 0x08) :: rest) = qosBits (first :: rest) := by
  -- the mask does not meet bit 3
  have masked : (first ||| 0x08) &&& 0x06 = first &&& 0x06 := by
    rw [← UInt8.toNat_inj]
    simp only [UInt8.toNat_and, UInt8.toNat_or]
    rw [Nat.and_or_distrib_right]
    simp
  rw [qosBits, qosBits, masked]

theorem InFlight.qosBits_retransmit {entry : InFlight} (pid : UInt16) (low : qosBits entry.pkt ≠ 3) :
    qosBits (entry.retransmit pid) ≠ 3 := by
  simp only [retransmit]
  split
  next first rest same =>
    rw [qosBits_dup, ← same]
    split
    · exact (by decide : (((PUBREL <<< 4) ||| 0x02) &&& 0x06) >>> 1 ≠ (3 : UInt8))
    · exact low
  next => decide

/-! ### The invariant -/

namespace Client

/-- Neither the will nor any packet of the connection has a QoS of 3. -/
structure Low (c : Client) : Prop where
  will : c.willQos ≤ 2
  stocked : c.Stocked (fun e => qosBits e.2 ≠ 3) fun _ entry => qosBits entry.pkt ≠ 3

theorem low_accepted (t : Token) (h₁ h₂ : RandomState UInt16) : (accepted t h₁ h₂).Low :=
  ⟨(by decide : (0 : UInt8) ≤ 2), fun _ member => (by cases member),
    fun _ _ found => (by simp [accepted] at found)⟩

theorem Low.offer {c d : Client} (low : c.Low) {now : Instant} {topic : Str} {payload : Bytes}
    {qos : UInt8} {retain : Bool} (graded : qos ≤ 2)
    (done : c.offer now topic payload qos retain = .queued d) : d.Low := by
  have coded : qos ≤ 3 := UInt8.le_trans graded (by decide)
  constructor
  · rw [(offered_of_offer c d now topic payload qos retain done).frame]
    exact low.will
  · refine low.stocked.offer (fun _ => ?_) (fun _ pid => ?_) done
    · -- QoS 0 goes out without an entry, the others with one for the same packet
      rw [qosBits_buildForward (by decide)]
      decide
    · simp only [qosBits_buildForward coded]
      exact ⟨qos_ne_three graded, qos_ne_three graded⟩

end Client

/-- A CONNECT sets no will of QoS 3, an answer has no QoS, and no packet is sent again with QoS 3. -/
def Change.Low : Change → Prop
  | .connect p => p.willQos ≤ 2
  | .reply pkt => qosBits pkt = 0
  | .retry _ pkt _ => qosBits pkt ≠ 3
  | _ => True

theorem Change.Low.answer {ch : Change} (low : ch.Low) {pkt : Bytes} (answers : ch.answer = some pkt) :
    qosBits pkt ≠ 3 := by
  cases ch with
  | reply sent =>
    cases answers
    rw [show qosBits pkt = 0 from low]
    decide
  | connect p =>
    cases answers
    decide
  | publishQos2 pid =>
    cases answers
    exact (by decide : ((PUBREC <<< 4) &&& 0x06) >>> 1 ≠ (3 : UInt8))
  | pubrec pid =>
    cases answers
    exact (by decide : (((PUBREL <<< 4) ||| 0x02) &&& 0x06) >>> 1 ≠ (3 : UInt8))
  | pubrel pid =>
    cases answers
    exact (by decide : ((PUBCOMP <<< 4) &&& 0x06) >>> 1 ≠ (3 : UInt8))
  | _ => cases answers

theorem Client.Low.change {c : Client} (low : c.Low) (now : Instant) {ch : Change} (graded : ch.Low) :
    (ch.apply now c).Low := by
  constructor
  · by_cases connects : ∃ p, ch = .connect p
    · obtain ⟨p, rfl⟩ := connects
      rw [Change.apply, applyConnect, reply_frame]
      exact graded
    · rw [Change.willQos now c fun p same => connects ⟨p, same⟩]
      exact low.will
  · refine low.stocked.change now (fun pkt answers => graded.answer answers) ?_ ?_
    · rintro pid pkt scanned rfl
      exact graded
    · intro pid e e' kept pkt _
      rw [pkt]
      exact kept

/-- No QoS of 3 is stored, and none is on its way. -/
structure Broker.Low (b : Broker) : Prop where
  subs : ∀ sub ∈ b.subs, sub.qos ≤ 2
  retained : ∀ topic e, b.retained.get? topic = some e → e.2 ≤ 2
  sessions : ∀ cid sess, b.sessions.get? cid = some sess → sess.Graded
  clients : ∀ t c, b.clients.get? t = some c → c.Low

/-- The act brings no QoS of 3 in. A `publish` may: only a retained one stores it. -/
def Act.Low : Act → Prop
  | .change _ ch => ch.Low
  | .deliver _ _ _ qos _ => qos ≤ 2
  | .publish _ payload qos retain => retain = true → payload.isEmpty = false → qos ≤ 2
  | .addSub _ _ qos => qos ≤ 2
  | _ => True

theorem SessionState.Graded.enqueue {sess : SessionState} (graded : sess.Graded) (topic : Str)
    (payload : Bytes) (qos : UInt8) : (sess.enqueue topic payload qos).Graded := by
  constructor
  · rw [subs_enqueue]
    exact graded.subs
  · intro m member
    simp only [SessionState.enqueue] at member
    split at member
    next sub first =>
      rw [push, Broker.addCapped] at member
      split at member
      · rcases List.mem_append.mp member with old | new
        · exact graded.offline m old
        · -- whatever QoS was published, the subscription bounds it
          rw [List.mem_singleton.mp new]
          exact min_le_two (.inr (graded.subs sub (List.mem_of_find?_eq_some first)))
      · exact graded.offline m member
    next => exact graded.offline m member

namespace Broker

variable {b b' : Broker}

theorem Low.forwards (low : b.Low) {t : Token} {topic : Str} {srcQos q : UInt8}
    (member : q ∈ b.forwards t topic srcQos) : q ≤ 2 := by
  obtain ⟨s, chosen, rfl⟩ := List.mem_map.mp (List.mem_reverse.mp member)
  exact min_le_two (.inr (low.subs s (List.mem_filter.mp chosen).1))

theorem Low.departure (low : b.Low) {t : Token} {c : Client} (found : b.clients.get? t = some c)
    {offline : List (Str × Bytes × UInt8)}
    (decoded : (c.reliablePackets.mapM fun e => decodeQueued e.2) = .ok offline) :
    (b.departure t c offline).Graded := by
  have before : ((b.sessions.get? c.clientId).getD ⟨[], []⟩).Graded := by
    cases stored : b.sessions.get? c.clientId with
    | none => exact ⟨fun _ member => (by cases member), fun _ member => (by cases member)⟩
    | some sess => exact low.sessions _ sess stored
  constructor
  · intro sub member
    rcases (mem_foldl_addMissing _ _ _).mp member with old | own
    · exact before.subs sub old
    · obtain ⟨s, chosen, rfl⟩ := List.mem_map.mp own
      exact low.subs s (List.mem_filter.mp chosen).1
  · intro m member
    rw [Broker.departure, foldl_addCapped] at member
    rcases List.mem_append.mp member with old | new
    · exact before.offline m old
    · -- what is read back has the QoS its flags had, and no queued packet has QoS 3
      obtain ⟨e, queued, same⟩ := mapM_decode_bits decoded (List.mem_of_mem_take new)
      rw [same]
      exact qos_le_two (qosBits_le _)
        ((low.clients t c found).stocked.queue e (List.mem_filter.mp queued).1)

theorem Low.act {a : Act} (low : b.Low) (healthy : b.Healthy) (graded : a.Low)
    (done : a.run b = .ok b') : b'.Low := by
  constructor
  · intro sub member
    rcases (Act.subs_origin healthy done member).1 with old | rfl
    · exact low.subs sub old
    · exact graded
  · -- `publish` alone stores a retained message
    intro topic e stored
    by_cases quiet : a.Quiet
    · rw [Act.retained_quiet healthy quiet done] at stored
      exact low.retained topic e stored
    · cases a with
      | publish name payload qos retain =>
        have spec := Act.publish_ok healthy.indexed done
        rw [spec.retained, storeRetained_get?, PublishCall.stored, PublishCall.entry] at stored
        split at stored
        next retained =>
          split at stored
          · cases stored
          next nonempty =>
            cases stored
            exact graded retained.1 (by simpa using nonempty)
        next => exact low.retained topic e stored
      | _ => exact absurd trivial quiet
  · intro cid sess stored
    rcases Act.session_origin healthy done stored with
      old | ⟨topic, payload, qos, retain, before, -, there, rfl⟩ |
        ⟨t, c, offline, -, found, -, -, decoded, rfl⟩
    · exact low.sessions cid sess old
    · exact (low.sessions cid before there).enqueue topic payload qos
    · exact low.departure found decoded
  · by_cases quiet : a.Quiet
    · refine Act.each_client Client.Low healthy done Client.low_accepted ?_ ?_ low.clients
      · rintro t ch c rfl kept
        exact kept.change b.now graded
      · intro c d topic payload qos retain offered kept queued
        cases a with
        | deliver t name bytes qos' retain' => exact kept.offer (offered.2.2 ▸ graded) queued
        | publish name bytes qos' retain' => exact quiet.elim
        | _ => exact offered.elim
    · cases a with
      | publish topic payload qos retain =>
        have spec := Act.publish_ok healthy.indexed done
        -- its QoS may be 3; each forward has at most that of the subscription
        intro t c found
        have served := spec.slots t
        rw [found] at served
        cases before : b.clients.get? t with
        | none =>
          rw [before, Client.serve_none] at served
          cases served
        | some c₀ =>
          rw [before] at served
          exact Client.serve_induction Client.Low b.now topic payload _ c₀ c
            (fun _ _ q member kept queued => kept.offer (low.forwards member) queued)
            (low.clients t c₀ before) served.symm
      | _ => exact absurd trivial quiet

end Broker

/-! ### Operations and runs -/

/-- No will and no requested subscription of QoS 3, and no retained message of QoS 3 with a payload. -/
structure Packet.Graded (p : Packet) : Prop where
  will : p.ptype = CONNECT → ∀ q, parseConnect p.body = .ok (some q) → q.willQos ≤ 2
  filters : p.ptype = SUBSCRIBE → ∀ pid topics, parseSubscribe p.body = .ok (some (pid, topics)) →
    ∀ e ∈ topics, e.2 ≤ 2
  retained : p.ptype = PUBLISH → ∀ q, parsePublish p.flags p.body = .ok (some q) → q.retain = true →
    q.payload.isEmpty = false → q.qos ≤ 2

/-- The packet an operation handles has no QoS of 3 that is kept. -/
def Op.Graded (op : Op) : Prop := ∀ t p, op = .packet t p → p.Graded

namespace Broker

variable {b b' : Broker} {op : Op} {out : Outcome}

theorem Low.requests (low : b.Low) (graded : op.Graded) {e : Str × UInt8}
    (member : e ∈ op.requests b) : e.2 ≤ 2 := by
  cases op with
  | packet t p =>
    simp only [Op.requests, Broker.requests] at member
    split at member
    · split at member
      next q parse =>
        split at member
        · cases member
        · cases stored : b.sessions.get? q.cid with
          | none => simp [stored] at member
          | some sess =>
            rw [stored] at member
            exact (low.sessions q.cid sess stored).subs e member
      next => cases member
    · split at member
      next isSubscribe =>
        split at member
        next pid topics parse => exact (graded t p rfl).filters isSubscribe pid topics parse e member
        next => cases member
      next => cases member
  | _ => cases member

theorem Low.messages (low : b.Low) {m : Str × Bytes × UInt8} (member : m ∈ op.messages b) :
    m.2.2 ≤ 2 := by
  cases op with
  | packet t p =>
    rcases packetMessages_cases member with ⟨q, sess, -, -, -, stored, flushed⟩ | ⟨pid, topics, -, -, hits⟩
    · obtain ⟨m', there, rfl⟩ := List.mem_map.mp flushed
      -- A stored message is graded, and its grant can only lower it.
      have queued := (low.sessions q.cid sess stored).offline m' there
      split
      · exact min_le_two (.inl queued)
      · exact queued
    · obtain ⟨e, -, hit⟩ := List.mem_flatMap.mp hits
      obtain ⟨r, there, rfl⟩ := List.mem_map.mp hit
      have stored := (HashMap.mem_iter _ _ _).mp (List.mem_filter.mp there).1
      exact min_le_two (.inl (low.retained r.1 r.2 stored))
  | _ => cases member

theorem Low.willCall (low : b.Low) {t : Token} {call : PublishCall} (made : b.willCall t = some call) :
    call.qos ≤ 2 := by
  obtain ⟨c, w, found, -, set, rfl⟩ := willCall_some made
  simp only [Client.will] at set
  split at set
  · cases set
    exact (low.clients t c found).will
  · cases set

theorem Low.call (low : b.Low) (healthy : b.Healthy) (sound : op.Sound) (graded : op.Graded)
    {call : PublishCall} (made : op.publishCall b = some call) (retain : call.retain = true)
    (nonempty : call.payload.isEmpty = false) : call.qos ≤ 2 := by
  cases op with
  | packet t p =>
    obtain ⟨isPublish, -, q, d, parse, -, rfl⟩ := packetCall_some made
    exact (graded t p rfl).retained isPublish q parse retain nonempty
  | remove t => exact low.willCall made
  | flush t ws =>
    obtain ⟨c, found, -, called⟩ := Op.publishCall_flush made
    -- The will is read behind the write, which touches neither it nor the tables.
    have written : { b with clients := b.clients.insert t (c.writeLoop ws).1 }.Low :=
      low.act (a := .change t (.write ws)) healthy trivial (modifyClient_ok found _)
    exact written.willCall called
  | publish topic payload qos retain =>
    cases made
    rw [show qos = 0 from sound]
    exact (by decide : (0 : UInt8) ≤ 2)
  | _ => cases made

theorem Low.run (low : b.Low) (healthy : b.Healthy) (sound : op.Sound) (graded : op.Graded)
    (again : ∀ t pid pkt scanned, op = .retry t pid pkt scanned → qosBits pkt ≠ 3)
    (done : op.run b = .ok (b', out)) : b'.Low := by
  refine (op.acts_complying healthy done).keeps healthy Broker.Low ?_ low
  rintro s a s' healthy' low' ⟨ok, answers⟩ next
  refine low'.act healthy' ?_ next
  -- what the operation starts with bounds what its acts bring in
  cases a with
  | change t ch =>
    cases ch with
    | connect q =>
      obtain ⟨p, rfl, isConnect, parse⟩ := Op.permits_connect ok.1
      exact (graded t p rfl).will isConnect q parse
    | reply pkt => exact answers
    | retry pid pkt scanned =>
      cases Op.permits_retry ok.1
      exact again t pid pkt scanned rfl
    | _ => trivial
  | deliver t topic payload qos retain => exact low.messages ok.2.1
  | publish topic payload qos retain =>
    exact fun retained nonempty => low.call healthy sound graded ok.2 retained nonempty
  | addSub filter t qos => exact low.requests graded answers
  | _ => trivial

theorem low_startup (start : b.Startup) : b.Low := by
  obtain ⟨h, now, file, rfl⟩ := start
  have read : (∀ topic e, ((Broker.new h now file).loadState h).retained.get? topic = some e → e.2 ≤ 2) ∧
      ∀ cid sess, ((Broker.new h now file).loadState h).sessions.get? cid = some sess → sess.Graded := by
    simp only [loadState]
    split
    · split
      next retained sessions read => exact deserializeState_graded read
      next => simp [Broker.new]
    · simp [Broker.new]
  have start : ((Broker.new h now file).loadState h).Startup := ⟨h, now, file, rfl⟩
  refine ⟨fun sub member => ?_, read.1, read.2, fun t c found => ?_⟩
  · rw [start.unsubscribed] at member
    cases member
  · cases (start.unconnected t).symm.trans found

theorem Low.scan (low : b.Low) (retryAfter : Nat) :
    ∀ e ∈ (b.scan retryAfter).retry, qosBits e.2.2 ≠ 3 := by
  intro e member
  obtain ⟨⟨t, c⟩, there, member⟩ := List.mem_flatMap.mp member
  obtain ⟨⟨pid, entry⟩, overdue, rfl⟩ := List.mem_map.mp member
  have listed := (List.mem_filter.mp (List.mem_filter.mp overdue).1).1
  exact entry.qosBits_retransmit pid ((low.clients t c ((HashMap.mem_iter _ _ _).mp there)).stocked.window
    pid entry ((HashMap.mem_iter _ _ _).mp listed))

/-- No QoS above 2 is stored in any table, no PUBLISH in a queue has QoS bits 11, and a window entry
is marked QoS 2 exactly when its packet says so. -/
structure Graded (b : Broker) : Prop where
  subs : ∀ sub ∈ b.subs, sub.qos ≤ 2
  retained : ∀ topic e, b.retained.get? topic = some e → e.2 ≤ 2
  wills : ∀ t c, b.clients.get? t = some c → c.willQos ≤ 2
  sessions : ∀ cid sess, b.sessions.get? cid = some sess →
    (∀ sub ∈ sess.subs, sub.2 ≤ 2) ∧ ∀ m ∈ sess.offline, m.2.2 ≤ 2
  queues : ∀ t c, b.clients.get? t = some c → ∀ e ∈ c.writeQueue,
    packetType e.2 = PUBLISH → qosBits e.2 ≠ 3
  windows : ∀ t c, b.clients.get? t = some c → ∀ pid entry, c.inFlight.get? pid = some entry →
    (entry.qos2 = true ↔ qosBits entry.pkt = 2)

theorem Low.graded (low : b.Low) (genuine : b.Genuine) : b.Graded := by
  refine ⟨low.subs, low.retained, fun t c found => (low.clients t c found).will,
    fun cid sess stored => ⟨(low.sessions cid sess stored).subs, (low.sessions cid sess stored).offline⟩,
    fun t c found e queued _ => (low.clients t c found).stocked.queue e queued, ?_⟩
  intro t c found pid entry inWindow
  obtain ⟨f, -, -, qos2, pkt⟩ := (genuine.clients t c found).window pid entry inWindow
  rw [qos2, pkt, Forward.encode, qosBits_buildForward f.coded, beq_iff_eq]

end Broker

namespace Loop

/-- In every run in which no client brings in a QoS of 3 to keep, QoS values stay within 0, 1 and 2. -/
theorem qos_graded (s₀ s : Loop) (ios : List Io) (start : s₀.Initial)
    (run : RunWith (fun _ op => op.Graded) s₀ ios s) : s.broker.Graded := by
  -- The packets that the scan holds back are graded along with the tables.
  have kept : s.Genuine ∧ s.broker.Low ∧ ∀ e ∈ s.pc.retries, qosBits e.2.2 ≠ 3 := by
    refine run.invariant
      (fun s => s.Genuine ∧ s.broker.Low ∧ ∀ e ∈ s.pc.retries, qosBits e.2.2 ≠ 3) ?_ ?_
    · rintro s io t ⟨genuine, low, again⟩ ⟨-, graded⟩ next
      have after := genuine.step next
      obtain ⟨b, out, ran, rfl⟩ := step_ok.mp next
      have low' : b.Low := low.run genuine.healthy (op_sound genuine.pc io) graded
        (fun t pid pkt scanned same => again _ (op_retry same)) ran
      refine ⟨after, low', fun e listed => ?_⟩
      rcases retries_pcAfter listed with old | ⟨-, scanned⟩
      · exact again e old
      · exact low'.scan s.retryAfter e scanned
    · refine ⟨genuine_initial start, Broker.low_startup start.startup, fun _ listed => ?_⟩
      rw [start.pc] at listed
      cases listed
  exact kept.2.1.graded kept.1.broker

end Loop

/-- A check of `Graded`. -/
def Op.graded : Op → Bool
  | .packet _ p =>
    (p.ptype != CONNECT || match parseConnect p.body with
      | .ok (some q) => q.willQos ≤ 2
      | _ => true) &&
    (p.ptype != SUBSCRIBE || match parseSubscribe p.body with
      | .ok (some (_, topics)) => topics.all fun e => e.2 ≤ 2
      | _ => true) &&
    (p.ptype != PUBLISH || match parsePublish p.flags p.body with
      | .ok (some q) => q.qos ≤ 2
      | _ => true)
  | _ => true

theorem Op.graded_sound {op : Op} (checked : op.graded = true) : op.Graded := by
  rintro t p rfl
  simp only [graded, Bool.and_eq_true, Bool.or_eq_true, bne_iff_ne, ne_eq] at checked
  obtain ⟨⟨wills, filters⟩, published⟩ := checked
  constructor
  · intro kind q parse
    simpa [kind, parse] using wills
  · intro kind pid topics parse e member
    have low := filters.resolve_left (not_not.mpr kind)
    simp only [parse, List.all_eq_true, decide_eq_true_eq] at low
    exact low e member
  · intro kind q parse _ _
    simpa [kind, parse] using published

namespace Loop

/-- A QoS 2 message is on its way to a subscriber of QoS 2. -/
theorem qos_graded_answered : ∃ s c, AdmittedRun fresh (answered [] 0) s ∧
    s.broker.clients.get? 1 = some c ∧ c.inFlight.size = 1 ∧ s.broker.Graded := by
  have ran : (Machine.runChecked step (fun s io => s.admits io && (s.op io).graded) fresh
      (answered [] 0)).any (fun s => (s.broker.clients.get? 1).any fun c => c.inFlight.size == 1) =
        true := by decide +kernel
  obtain ⟨s, done, ended⟩ := (Option.any_eq_true _ _).mp ran
  obtain ⟨c, found, size⟩ := (Option.any_eq_true _ _).mp ended
  have path := (Machine.runChecked_path _ _ _ _ _ done).mono
    (fun s io ok => (Bool.and_eq_true _ _).mp ok)
  exact ⟨s, c, path.mono fun _ _ ok => ok.1, found, beq_iff_eq.mp size,
    qos_graded fresh s _ fresh_initial (path.mono fun _ _ ok => ⟨ok.1, Op.graded_sound ok.2⟩)⟩

/-- A client subscribes to `t` with QoS bits 11 and publishes to it with QoS bits 11. -/
theorem qos_three : ¬∀ s : Loop, s.Reachable → s.broker.Graded := by
  intro claim
  obtain ⟨s, done, checked⟩ := exists_after ([Io.listen, .connection] ++ List.replicate 3 Io.quiet ++
      [Io.read (connectBytes 2 97 ++ [0x82, 6, 0, 1, 0, 1, 116, 3, 0x36, 5, 0, 1, 116, 0, 1])] ++
      List.replicate 3 Io.quiet)
    (fun s => (s.broker.clients.get? 1).any fun c => c.writeQueue.any fun e =>
      packetType e.2 == PUBLISH && qosBits e.2 == 3) (by decide +kernel)
  simp only [Option.any_eq_true, List.any_eq_true, Bool.and_eq_true, beq_iff_eq] at checked
  obtain ⟨c, found, e, queued, isPublish, three⟩ := checked
  exact (claim s (after_reachable done)).queues 1 c found e queued isPublish three

end Loop

end MioBroker
