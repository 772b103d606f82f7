import MioBroker.Overflow

/-!
# A full queue costs subscriptions

`deliver_to` answers `Err` for an unreliable message that finds the queue full, although the
client stays connected; `publish` prunes the subscription on every `Err`.
-/
namespace MioBroker

open Rust

namespace Client

/-- An unreliable message of `qs` finds the queue full while the client is still there: every
message before it took a place, or there was none left. -/
def Refuses (c : Client) (qs : List UInt8) : Prop :=
  ∃ j : Nat, qs[j]? = some 0 ∧ WRITE_QUEUE_CAP ≤ c.writeQueue.length + j ∧
    c.inFlight.size + reliableCount (qs.take j) ≤ IN_FLIGHT_CAP ∧
    c.reliable + reliableCount (qs.take j) ≤ WRITE_QUEUE_CAP

theorem reliableCount_take_le (qs : List UInt8) (j : Nat) :
    reliableCount (qs.take j) ≤ reliableCount qs :=
  (List.take_sublist j qs).countP_le

/-- A client that survives misses a message exactly when it refuses one. -/
theorem failures_pos_iff_refuses (now : Instant) (topic : Str) (payload : Bytes) (qs : List UInt8)
    (c d : Client) (capped : c.Capped) (served : serve now topic payload qs (some c) = some d) :
    failures now topic payload qs (some c) ≠ 0 ↔ c.Refuses qs := by
  rw [ne_eq, failures_eq_zero_iff now topic payload qs c d capped.queue served]
  -- A client that was served had room for the reliable messages of the whole batch.
  have room : ¬(IN_FLIGHT_CAP < c.inFlight.size + reliableCount qs ∨
      WRITE_QUEUE_CAP < c.reliable + reliableCount qs) := by
    rw [← serve_eq_none_iff now topic payload qs c capped.queue capped.window, served]
    simp
  constructor
  · intro missed
    push Not at missed
    obtain ⟨j, unreliable, full⟩ := missed
    have fewer := reliableCount_take_le qs j
    exact ⟨j, unreliable, full, by omega, by omega⟩
  · rintro ⟨j, unreliable, full, -, -⟩ all
    have := all j unreliable
    omega

end Client

namespace Broker

/-- Every subscription entry of the connection is still there. -/
def KeepsSubs (b b' : Broker) (t : Token) : Prop :=
  ∀ sub : Subscription, sub.token = t → b.subs.count sub ≤ b'.subs.count sub

theorem KeepsSubs.refl (b : Broker) (t : Token) : KeepsSubs b b t := fun _ _ => Nat.le_refl _

theorem KeepsSubs.trans {a b c : Broker} {t : Token} (first : KeepsSubs a b t)
    (second : KeepsSubs b c t) : KeepsSubs a c t :=
  fun sub own => Nat.le_trans (first sub own) (second sub own)

theorem count_own (subs : List Subscription) (t : Token) (sub : Subscription) (own : sub.token = t) :
    (subs.filter fun s => s.token = t).count sub = subs.count sub :=
  List.count_filter (by simpa using own)

/-- A call that leaves the connection in place keeps its subscriptions exactly when nothing
forwarded to it fails. -/
theorem Published.keepsSubs_iff {b b' : Broker} {topic : Str} {payload : Bytes} {qos : UInt8}
    {retain : Bool} (spec : Published b b' topic payload qos retain) (t : Token) :
    KeepsSubs b b' t ↔
      Client.failures b.now topic payload (b.forwards t topic qos) (b.clients.get? t) = 0 := by
  -- One subscription is pruned for each message the client did not take.
  have pruned := spec.pruned t
  rw [List.countP_eq_length_filter, List.countP_eq_length_filter] at pruned
  have subperm : (b'.subs.filter fun s => s.token = t).Subperm (b.subs.filter fun s => s.token = t) :=
    spec.subperm.filter _
  constructor
  · intro kept
    have other : (b.subs.filter fun s => s.token = t).Subperm (b'.subs.filter fun s => s.token = t) := by
      rw [List.subperm_ext_iff]
      intro sub member
      have own : sub.token = t := by simpa using (List.mem_filter.mp member).2
      rw [count_own _ t sub own, count_own _ t sub own]
      exact kept sub own
    have := other.length_le
    omega
  · intro complete sub own
    -- A sublist of the same length up to order is the whole list.
    have perm := subperm.perm_of_length_le (by omega)
    rw [← count_own _ t sub own, ← count_own b'.subs t sub own]
    exact Nat.le_of_eq (perm.count_eq sub).symm

end Broker

/-- Some connection refuses an unreliable forward of the call. -/
def PublishCall.Refused (call : PublishCall) (t : Token) : Prop :=
  ∃ c, call.broker.clients.get? t = some c ∧
    c.Refuses (call.broker.forwards t call.topic call.qos)

/-- What a call must do to a connection: a refused message leaves it connected, and as long as
it is connected it keeps its subscriptions. -/
def PublishCall.Spares (call : PublishCall) (b' : Broker) (t : Token) : Prop :=
  (call.Refused t → b'.clients.contains t = true) ∧
    (b'.clients.contains t = true → call.broker.KeepsSubs b' t)

theorem PublishCall.spares_iff {call : PublishCall} (healthy : call.broker.Healthy) {b' : Broker}
    (spec : Broker.Published call.broker b' call.topic call.payload call.qos call.retain)
    {t : Token} {c : Client} (found : call.broker.clients.get? t = some c) :
    call.Spares b' t ↔ ¬call.Refused t := by
  have capped := healthy.capped t c found
  have slot := spec.slots t
  rw [found] at slot
  have kept := spec.keepsSubs_iff t
  rw [found] at kept
  constructor
  · rintro ⟨stays, keeps⟩ refused
    have there := stays refused
    obtain ⟨d, found'⟩ := (HashMap.contains_iff _ _).mp there
    obtain ⟨c', same, refuses⟩ := refused
    cases found.symm.trans same
    exact (Client.failures_pos_iff_refuses _ _ _ _ c d capped (slot.symm.trans found')).mpr refuses
      (kept.mp (keeps there))
  · intro unrefused
    refine ⟨fun refused => absurd refused unrefused, fun there => kept.mpr ?_⟩
    obtain ⟨d, found'⟩ := (HashMap.contains_iff _ _).mp there
    by_contra missed
    exact unrefused ⟨c, found, (Client.failures_pos_iff_refuses _ _ _ _ c d capped
      (slot.symm.trans found')).mp missed⟩

/-- An `Err` of `deliver_to` means that the connection is gone, unless it is a refusal. -/
theorem Broker.deliverTo_err_iff {b : Broker} {t : Token} {c : Client} {topic : Str}
    {payload : Bytes} {qos : UInt8} {retain : Bool} (found : b.clients.get? t = some c) :
    ((b.deliverTo t topic payload qos retain).2 = .error () →
      (b.deliverTo t topic payload qos retain).1.clients.contains t = false) ↔
        ¬(qos = 0 ∧ WRITE_QUEUE_CAP ≤ c.writeQueue.length) := by
  cases result : c.offer b.now topic payload qos retain with
  | queued d =>
    rw [deliverTo_queued b t topic payload qos retain c d found result]
    simp only [reduceCtorEq, false_implies, true_iff]
    rintro ⟨rfl, full⟩
    rw [Client.offer_qos0_full c b.now topic payload retain full] at result
    cases result
  | refused =>
    rw [deliverTo_refused b t topic payload qos retain c found result]
    have there : b.clients.contains t = true := (HashMap.contains_iff _ _).mpr ⟨c, found⟩
    simp only [there, reduceCtorEq, imp_false, not_true_eq_false, false_iff, not_not]
    -- Only a message below QoS 1 can be refused without the client being dropped.
    have unreliable : qos = 0 := by
      by_contra isReliable
      exact Client.offer_reliable_ne_refused c _ _ _ _ _ isReliable result
    subst unreliable
    refine ⟨rfl, Nat.not_lt.mp fun room => ?_⟩
    rw [Client.offer_qos0_room c b.now topic payload retain room] at result
    cases result
  | dropped =>
    rw [deliverTo_dropped b t topic payload qos retain c found result]
    simp only [HashMap.contains_eq_false, HashMap.get?_erase_self, implies_true, true_iff]
    rintro ⟨rfl, full⟩
    rw [Client.offer_qos0_full c b.now topic payload retain full] at result
    cases result

/-! ### Runs -/

/-- UNSUBSCRIBE of the filter. -/
def Packet.Unsubscribes (p : Packet) (filter : Str) : Prop :=
  p.ptype = UNSUBSCRIBE ∧ ∃ pid filters, parseUnsubscribe p.body = .ok (some (pid, filters)) ∧
    filter ∈ filters

/-- One act on the subscriptions of a connection that is there before and after. -/
theorem Act.keepsSub {a : Act} {b b' : Broker} (healthy : b.Healthy) (done : a.run b = .ok b')
    {k : Token} {c d : Client} (before : b.clients.get? k = some c)
    (found : b'.clients.get? k = some d)
    (unrefused : ∀ topic payload qos retain, a = .publish topic payload qos retain →
      ¬PublishCall.Refused ⟨b, topic, payload, qos, retain⟩ k)
    (sub : Subscription) (own : sub.token = k) :
    b.subs.count sub ≤ b'.subs.count sub ∨
      ∃ filters, a = .unsubscribe k filters ∧ sub.filter ∈ filters := by
  rcases Act.subs_cases healthy done with ⟨same, -⟩ | ⟨topic, payload, qos, retain, rfl, spec⟩ |
    ⟨filter, t, qos, -, subs⟩ | ⟨t, filters, rfl, subs⟩ | ⟨t, -, clients, subs⟩
  · exact .inl (Nat.le_of_eq (by rw [same]))
  · -- a message that is not refused prunes nothing of a connection that stays
    have spared := (PublishCall.spares_iff healthy spec before).mpr (unrefused _ _ _ _ rfl)
    exact .inl (spared.2 ((HashMap.contains_iff _ _).mpr ⟨d, found⟩) sub own)
  · rw [subs]
    exact .inl (by simp only [List.count_append]; omega)
  · rw [subs]
    by_cases named : t = k ∧ sub.filter ∈ filters
    · exact .inr ⟨filters, by rw [named.1], named.2⟩
    · refine .inl (Nat.le_of_eq (List.count_filter ?_).symm)
      simp only [Bool.not_eq_true', Bool.and_eq_false_iff, beq_eq_false_iff_ne, own]
      by_cases same : k = t
      · right
        simpa using fun member => named ⟨same.symm, member⟩
      · exact .inl same
  · rw [clients] at found
    rw [subs]
    have other : k ≠ t := fun same => by simp [same] at found
    exact .inl (Nat.le_of_eq (List.count_filter (by simpa [own] using other)).symm)

/-- One operation on the subscriptions of a connection that is there before and after. -/
theorem Op.keepsSub {op : Op} {b b' : Broker} {out : Outcome} (healthy : b.Healthy)
    (done : op.run b = .ok (b', out)) {k : Token} {d : Client} (given : k < b.nextToken)
    (found : b'.clients.get? k = some d)
    (unrefused : ∀ call, op.publishCall b = some call → ¬call.Refused k)
    (sub : Subscription) (own : sub.token = k) :
    b.subs.count sub ≤ b'.subs.count sub ∨ ∃ p, op = .packet k p ∧ p.Unsubscribes sub.filter := by
  refine ((op.acts healthy done).keeps healthy (fun s => k < s.nextToken ∧
    ∀ e, s.clients.get? k = some e → b.subs.count sub ≤ s.subs.count sub ∨
      ∃ p, op = .packet k p ∧ p.Unsubscribes sub.filter) ?_
    ⟨given, fun _ _ => .inl (Nat.le_refl _)⟩).2 d found
  rintro s a s' healthy ⟨given, kept⟩ ⟨permitted, announced⟩ next
  refine ⟨Nat.lt_of_lt_of_le given (Act.nextToken_le healthy next), fun e' after => ?_⟩
  -- a connection that is there now was there before this act
  cases before : s.clients.get? k with
  | none =>
    rw [Act.absent healthy next given before] at after
    cases after
  | some e =>
    rcases kept e before with le | unsubscribed
    · rcases Act.keepsSub healthy next before after (fun topic payload qos retain same => by
        subst same
        exact unrefused _ announced) sub own with le' | ⟨filters, rfl, named⟩
      · exact .inl (Nat.le_trans le le')
      · right
        obtain ⟨p, pid, rfl, type, parse⟩ := Op.permits_unsubscribe permitted
        exact ⟨p, rfl, type, pid, filters, parse, named⟩
    · exact .inr unsubscribed

namespace Loop

/-- No forward of the step is refused. -/
def Accepts (s : Loop) (io : Io) : Prop :=
  ∀ call, (s.op io).publishCall s.broker = some call → ∀ t, ¬call.Refused t

/-- The subscriptions of a connection over a run that refuses nothing. -/
theorem path_keepsSub {s s' : Loop} {ios : List Io} (healthy : s.broker.Healthy)
    (path : Machine.Path step (fun s io => s.admits io = true ∧ s.Accepts io) s ios s')
    {k : Token} (given : k < s.broker.nextToken) (sub : Subscription) (own : sub.token = k) :
    s'.broker.Healthy ∧ k < s'.broker.nextToken ∧ ∀ d, s'.broker.clients.get? k = some d →
      s.broker.subs.count sub ≤ s'.broker.subs.count sub ∨
        ∃ p, Op.packet k p ∈ s.trace ios ∧ p.Unsubscribes sub.filter := by
  induction path with
  | nil => exact ⟨healthy, given, fun _ _ => .inl (Nat.le_refl _)⟩
  | @snoc ios t u io before ok next ih =>
    obtain ⟨healthy', given', kept⟩ := ih
    obtain ⟨b, out, ran, rfl⟩ := step_ok.mp next
    have acts := (t.op io).acts healthy' ran
    refine ⟨acts.healthy healthy', Nat.lt_of_lt_of_le given' (Op.nextToken_le healthy' ran),
      fun d found => ?_⟩
    rw [trace_append before]
    have last : t.op io ∈ t.trace [io] := by simp [trace]
    -- A client that is gone before the last step cannot come back: its token is spent.
    cases there : t.broker.clients.get? k with
    | none =>
      rw [Op.absent healthy' ran given' there] at found
      cases found
    | some c =>
      rcases kept c there with le | ⟨p, member, unsubscribes⟩
      · rcases Op.keepsSub healthy' ran given' found (fun call made => ok.2 call made k) sub own with
          le' | ⟨p, same, unsubscribes⟩
        · exact .inl (Nat.le_trans le le')
        · exact .inr ⟨p, List.mem_append_right _ (same ▸ last), unsubscribes⟩
      · exact .inr ⟨p, List.mem_append_left _ member, unsubscribes⟩

end Loop

/-- In every reachable state a call of `publish` spares a connection exactly when it does not
refuse it a forward; `deliver_to` answers `Err` for a connection that stays exactly when an
unreliable message meets its full queue; and over every run whose calls refuse nothing, an
entry of a connection that stays disappears only through an UNSUBSCRIBE of its filter. -/
theorem overflow_spares_iff (s : Loop) (reached : s.Reachable) :
    (∀ (op : Op) call, op.publishCall s.broker = some call → ∀ b' n,
      call.broker.publish call.topic call.payload call.qos call.retain = .ok (b', n) →
      ∀ t, call.broker.clients.contains t = true → (call.Spares b' t ↔ ¬call.Refused t)) ∧
    (∀ t c topic payload qos retain, s.broker.clients.get? t = some c →
      (((s.broker.deliverTo t topic payload qos retain).2 = .error () →
        (s.broker.deliverTo t topic payload qos retain).1.clients.contains t = false) ↔
          ¬(qos = 0 ∧ WRITE_QUEUE_CAP ≤ c.writeQueue.length))) ∧
    ∀ ios s', Machine.Path Loop.step (fun s io => s.admits io = true ∧ s.Accepts io) s ios s' →
      ∀ t, s.broker.clients.contains t = true → s'.broker.clients.contains t = true →
      ∀ sub : Subscription, sub.token = t →
        s.broker.subs.count sub ≤ s'.broker.subs.count sub ∨
          ∃ p, Op.packet t p ∈ s.trace ios ∧ p.Unsubscribes sub.filter := by
  refine ⟨?_, ?_, ?_⟩
  · intro op call made b' n published t connected
    obtain ⟨c, found⟩ := (HashMap.contains_iff _ _).mp connected
    have healthy := Broker.healthy_publishCall reached.healthy op made
    have spec := Broker.publish_ok healthy.indexed published
    exact PublishCall.spares_iff healthy spec found
  · intro t c topic payload qos retain found
    exact Broker.deliverTo_err_iff found
  · intro ios s' path t before after sub own
    obtain ⟨c, found⟩ := (HashMap.contains_iff _ _).mp before
    obtain ⟨d, found'⟩ := (HashMap.contains_iff _ _).mp after
    exact (Loop.path_keepsSub reached.healthy path (reached.numbered t c found) sub own).2.2 d found'

theorem overflow_spares_iff_greeted : ∃ s : Loop, s.Reachable ∧ s.broker.subs.length = 2 ∧
    ∀ b' n, s.broker.publish topicU [] 0 false = .ok (b', n) →
      (PublishCall.Spares ⟨s.broker, topicU, [], 0, false⟩ b' 1 ↔
        ¬PublishCall.Refused ⟨s.broker, topicU, [], 0, false⟩ 1) := by
  obtain ⟨s, scan, c, done, -, filled, found, -⟩ := exists_filled
  have reached := Loop.after_reachable done
  refine ⟨s, reached, by rw [filled.subs]; rfl, fun b' n published => ?_⟩
  exact (overflow_spares_iff s reached).1 (.publish topicU [] 0 false) _ rfl b' n published 1
    ((HashMap.contains_iff _ _).mpr ⟨c, found⟩)

/-! ### A client that answers nothing while it pings -/

def ping : Packet := ⟨PINGREQ, 0, []⟩

theorem frameLoop_pings (fuel n : Nat) (rest : Bytes) (pkts : List Packet) :
    frameLoop (fuel + n) ((List.replicate n [0xc0, 0]).flatten ++ rest) pkts =
      frameLoop fuel rest (pkts ++ List.replicate n ping) := by
  induction n generalizing pkts with
  | zero => simp
  | succ n ih =>
    rw [List.replicate_succ, List.flatten_cons, ← Nat.add_assoc]
    have first : ∀ b, frameLoop (fuel + n + 1) (0xc0 :: 0 :: b) pkts =
        frameLoop (fuel + n) b (pkts ++ [ping]) := by
      intro b
      rfl
    simp only [List.cons_append, List.nil_append]
    rw [first, ih, List.append_assoc]
    rfl

theorem length_pings (n : Nat) : (List.replicate n ([0xc0, 0] : Bytes)).flatten.length = 2 * n := by
  simp [Nat.mul_comm]

/-- Fills the queue with PINGRESP, then publishes to `u`. -/
def pingFlood : Bytes :=
  (List.replicate 8192 [0xc0, 0]).flatten ++ [0x30, 3, 0, 1, 117]

def publishU : Packet := ⟨PUBLISH, 0, [0, 1, 117]⟩

theorem frame_pingFlood : (frame pingFlood).pkts = List.replicate 8192 ping ++ [publishU] ∧
    (frame pingFlood).bad = none := by
  have len : pingFlood.length = 8197 + 8192 := by
    rw [pingFlood, List.length_append, length_pings]
    rfl
  rw [frame, len, pingFlood, frameLoop_pings]
  exact ⟨rfl, rfl⟩

namespace Filled

variable {k n : Nat} {b : Broker}

/-- At least `n` packets are queued, or the queue is full. -/
def Queued (n : Nat) (b : Broker) : Prop :=
  ∀ c, b.clients.get? 1 = some c → min WRITE_QUEUE_CAP n ≤ c.writeQueue.length

theorem ping (filled : Filled k b) (queued : Queued n b) :
    ∃ b', b.dispatch 1 ping = .ok (b', .ok ()) ∧ Filled k b' ∧ Queued (n + 1) b' := by
  obtain ⟨c, found, -⟩ := filled.client
  have done : b.dispatch 1 MioBroker.ping =
      .ok ({ b with clients := b.clients.insert 1 (c.reply buildPingresp) }, .ok ()) := by
    have handled : b.dispatch 1 MioBroker.ping = b.handlePingreq 1 := rfl
    simp [handled, Broker.handlePingreq, Broker.modifyClient, found]
  have offered := c.offered_reply buildPingresp
  refine ⟨_, done, filled.modify found ((filled.healthy.capped 1 c found).change b.now (.reply _))
    (c.inFlight_reply _) (c.reliable_reply _) offered.sameIdentity offered.cleanDisconnect, ?_⟩
  · intro d found'
    simp only [HashMap.get?_insert_self, Option.some.injEq] at found'
    have before := queued c found
    rw [← found']
    simp only [Client.reply, Client.queueQos0]
    split
    · simp only
      omega
    · rw [List.length_append, List.length_singleton]
      omega

theorem pings (filled : Filled k b) (queued : Queued n b) (m : Nat) :
    ∃ b', Broker.dispatchAll 1 (List.replicate m MioBroker.ping) b = .ok (b', .ok ()) ∧
      Filled k b' ∧ Queued (n + m) b' := by
  induction m generalizing b n with
  | zero => exact ⟨b, rfl, filled, queued⟩
  | succ m ih =>
    obtain ⟨d, first, filled', queued'⟩ := filled.ping queued
    obtain ⟨b', rest, full⟩ := ih filled' queued'
    refine ⟨b', ?_, by rw [← Nat.add_assoc, Nat.add_right_comm]; exact full⟩
    rw [List.replicate_succ, Broker.dispatchAll, first, Run.ok_bind]
    exact rest

end Filled

/-- 8192 PINGREQ packets and a PUBLISH to a topic the sender subscribes to at QoS 0. -/
theorem refusal_prunes :
    ¬∀ s : Loop, s.Reachable → ∀ (op : Op) call, op.publishCall s.broker = some call → ∀ b' n,
      call.broker.publish call.topic call.payload call.qos call.retain = .ok (b', n) →
      ∀ t, call.broker.clients.contains t = true → call.Spares b' t := by
  intro claim
  obtain ⟨ios, s, n, next, failed, path, -, here, filled⟩ :=
    exists_batch pingFlood _ (List.append_ne_nil_of_right_ne_nil _ (List.cons_ne_nil _ _))
      (by rw [pingFlood, List.length_append, length_pings]; decide) frame_pingFlood
  -- The pings fill the write queue with answers, none of which can be given up.
  obtain ⟨b, done, filled', queued⟩ := filled.pings (n := 0) (fun c _ => by simp) 8192
  have reached : Loop.Reachable { s with broker := b, pc := .packets 1 [publishU] n next failed } :=
    ⟨_, _, Loop.fresh_initial, path.append (Loop.packets_path _ _ s here done).1⟩
  obtain ⟨c, found, window, reliable, -⟩ := filled'.client
  obtain ⟨b', m, published, spec⟩ :=
    b.publish_spec filled'.healthy.indexed topicU [] 0 false
  have call : (Op.packet 1 publishU).publishCall b = some ⟨b, topicU, [], 0, false⟩ := by
    have routed : b.noRouting publishU.flags = false := by simp [Broker.noRouting, filled'.subs]
    have parse : parsePublish publishU.flags publishU.body =
        .ok (some ⟨topicU, 0, none, [], false⟩) := rfl
    have isPublish : publishU.ptype = PUBLISH := rfl
    simp [Op.publishCall, Broker.packetCall, isPublish, routed, parse, Broker.acknowledge]
  have forwards : b.forwards 1 topicU 0 = [0] := by
    rw [Broker.forwards, filled'.subs]
    decide +kernel
  -- The only message of the batch then meets a full queue.
  have refused : PublishCall.Refused ⟨b, topicU, [], 0, false⟩ 1 := by
    refine ⟨c, found, 0, ?_, ?_, ?_, ?_⟩
    · simp only [forwards]
      rfl
    · have full := queued c found
      simpa [WRITE_QUEUE_CAP] using full
    · rw [window]
      exact Nat.zero_le _
    · rw [reliable]
      exact Nat.zero_le _
  exact (PublishCall.spares_iff filled'.healthy spec found).mp
    (claim _ reached _ _ call b' _ published 1 ((HashMap.contains_iff _ _).mpr ⟨c, found⟩)) refused

end MioBroker
