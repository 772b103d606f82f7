import MioBroker.Removal
import MioBroker.Subscribing

/-!
# One subscription per client and filter

`add_sub` pushes without looking, and `remove_client` merges by filter and QoS together. A client
that asks for a filter it holds, or that holds another QoS than its stored session, gets a second
entry, and every further entry is a further copy of every message.
-/
namespace MioBroker

open Rust

namespace Broker

/-- How many entries a connection has for a filter. -/
def subCount (b : Broker) (t : Token) (filter : Str) : Nat :=
  b.subs.countP fun s => s.token = t && s.filter = filter

/-- How many entries a list of filters has for one. -/
def filterCount (filters : List (Str × UInt8)) (filter : Str) : Nat :=
  filters.countP fun e => e.1 = filter

/-- No connection and no session has two entries for a filter. -/
structure Single (b : Broker) : Prop where
  subs : ∀ t filter, b.subCount t filter ≤ 1
  sessions : ∀ cid sess, b.sessions.get? cid = some sess → ∀ filter, filterCount sess.subs filter ≤ 1

theorem filterCount_subsOf (b : Broker) (t : Token) (filter : Str) :
    filterCount (b.subsOf t) filter = b.subCount t filter := by
  simp only [filterCount, subsOf, subCount, List.countP_map, List.countP_filter]
  apply List.countP_congr
  intro s _
  simp [and_comm]

theorem countP_entries (t k : Token) (filter : Str) (filters : List (Str × UInt8)) :
    (entries t filters).countP (fun s => s.token = k && s.filter = filter) =
      if t = k then filterCount filters filter else 0 := by
  rw [entries, List.countP_map]
  split
  next same =>
    subst same
    apply List.countP_congr
    intro e _
    simp
  next other =>
    rw [List.countP_eq_zero]
    intro e _
    simp [other]

/-- Merging keeps filters apart where both sides agree on the QoS. -/
theorem filterCount_merge {own subs : List (Str × UInt8)} (apart : ∀ f, filterCount own f ≤ 1)
    (before : ∀ f, filterCount subs f ≤ 1) (agree : ∀ x ∈ own, ∀ y ∈ subs, x.1 = y.1 → x = y)
    (filter : Str) : filterCount (own.foldl addMissing subs) filter ≤ 1 := by
  induction own generalizing subs with
  | nil => exact before filter
  | cons s own ih =>
    have apart' : ∀ f, filterCount own f ≤ 1 := fun f =>
      Nat.le_trans (List.sublist_cons_self s own).countP_le (apart f)
    rw [List.foldl_cons, addMissing]
    split
    -- the very entry is stored already, and nothing is pushed
    next there => exact ih apart' before fun x member => agree x (List.mem_cons_of_mem _ member)
    next absent =>
      -- no entry for this filter is there yet, and none is to come
      have unstored : ∀ y ∈ subs, s.1 ≠ y.1 := by
        intro y member same
        rw [← agree s List.mem_cons_self y member same] at member
        exact absent (by simpa using member)
      have unheld : ∀ x ∈ own, x.1 ≠ s.1 := by
        intro x member same
        have two := apart s.1
        have one : 0 < own.countP fun e => decide (e.1 = s.1) :=
          List.countP_pos_iff.mpr ⟨x, member, by simpa using same⟩
        rw [filterCount, List.countP_cons_of_pos (by simp)] at two
        omega
      refine ih apart' (fun f => ?_) fun x member y there same => ?_
      · rw [filterCount, List.countP_append]
        by_cases same : s.1 = f
        · have none_there : subs.countP (fun e => decide (e.1 = f)) = 0 := by
            rw [List.countP_eq_zero]
            intro y member
            simpa [← same] using (unstored y member).symm
          rw [none_there, Nat.zero_add]
          exact List.countP_le_length
        · have old := before f
          rw [filterCount] at old
          simpa [same] using old
      · rcases List.mem_append.mp there with old | new
        · exact agree x (List.mem_cons_of_mem _ member) y old same
        · rw [List.mem_singleton.mp new] at same
          exact absurd same (unheld x member)

end Broker

/-! ### Steps and runs -/

/-- What a connection asks for is new, and a persistent client that is removed while a session is
stored for it holds the filters of that session at the same QoS. -/
structure Op.Novel (b : Broker) (op : Op) : Prop where
  asks : ∀ t p, op = .packet t p → ∀ e ∈ b.requests p,
    Broker.filterCount (b.requests p) e.1 = 1 ∧ b.subCount t e.1 = 0
  departs : ∀ d t c, op.removal b = some (d, t) → d.clients.get? t = some c → c.Persistent →
    ∀ sub ∈ d.subs, sub.token = t → ∀ e ∈ d.sessionSubs c.clientId, sub.filter = e.1 → sub.qos = e.2

namespace Broker

variable {b b' : Broker} {out : Outcome}

theorem Single.subs_op {op : Op} (single : b.Single) (healthy : b.Healthy) (novel : op.Novel b)
    (done : op.run b = .ok (b', out)) (t : Token) (filter : Str) : b'.subCount t filter ≤ 1 := by
  by_cases asks : ∃ k p, op = .packet k p ∧ (p.ptype = CONNECT ∨ p.ptype = SUBSCRIBE)
  · obtain ⟨k, p, rfl, asks⟩ := asks
    obtain ⟨r, dispatched⟩ := Op.packet_ok done
    obtain ⟨n, added⟩ := dispatch_subs asks dispatched
    rw [subCount, added, List.countP_append, countP_entries]
    have held := single.subs t filter
    rw [subCount] at held
    split
    next own =>
      subst own
      -- The requests that are granted are the first ones, so none is granted twice.
      have some_taken : filterCount ((b.requests p).take n) filter ≤ filterCount (b.requests p) filter :=
        (List.take_sublist n _).countP_le
      by_cases asked : ∃ e ∈ b.requests p, e.1 = filter
      · obtain ⟨e, member, rfl⟩ := asked
        obtain ⟨one, none_held⟩ := novel.asks k p rfl e member
        rw [subCount] at none_held
        omega
      · have none_asked : filterCount (b.requests p) filter = 0 := by
          rw [filterCount, List.countP_eq_zero]
          intro e member
          simpa using fun same => asked ⟨e, member, same⟩
        omega
    next => omega
  · -- No other packet adds a subscription.
    have fewer := Op.subs_subperm healthy done fun k p same kind => asks ⟨k, p, same, kind⟩
    exact Nat.le_trans (fewer.countP_le _) (single.subs t filter)

theorem Single.sessions_op {op : Op} (single : b.Single) (healthy : b.Healthy) (novel : op.Novel b)
    (done : op.run b = .ok (b', out)) {cid : Str} {sess : SessionState}
    (stored : b'.sessions.get? cid = some sess) (filter : Str) : filterCount sess.subs filter ≤ 1 := by
  cases removal : op.removal b with
  | none =>
    obtain ⟨before, there, same⟩ := Op.session_staying healthy removal done stored
    rw [same]
    exact single.sessions cid before there filter
  | some r =>
    obtain ⟨d, t⟩ := r
    obtain ⟨removed, -, -, start⟩ := Op.removal_run cid removal done
    -- A failed flush has written to the client before it is removed, and no table else.
    have tables : d.subs = b.subs ∧ d.sessions = b.sessions ∧ d.Healthy := by
      rcases start with rfl | ⟨c, ws, found, rfl⟩
      · exact ⟨rfl, rfl, healthy⟩
      · exact ⟨rfl, rfl, healthy.indexed,
          healthy.modify t _ ((healthy.capped t c found).change b.now (.write ws))⟩
    obtain ⟨subs, sessions, healthy'⟩ := tables
    rcases removeClient_session healthy' removed stored with
      ⟨before, there, same⟩ | ⟨c, e, found, persistent, rfl, willed, -, merged⟩
    · rw [same]
      rw [sessions] at there
      exact single.sessions cid before there filter
    · -- The will may have pruned subscriptions on the way, but has added none.
      have fewer := willed.subs
      have same := willed.sessionSubs c.clientId
      rw [merged]
      refine filterCount_merge (fun f => ?_) (fun f => ?_) ?_ filter
      · rw [filterCount_subsOf]
        have held := single.subs t f
        rw [subCount, ← subs] at held
        exact Nat.le_trans (fewer.countP_le _) held
      · rw [same, sessionSubs, sessions]
        cases before : b.sessions.get? c.clientId with
        | none => exact Nat.zero_le _
        | some sess => exact single.sessions _ sess before f
      · intro x own y there agree
        obtain ⟨sub, member, rfl⟩ := List.mem_map.mp own
        obtain ⟨member, token⟩ := List.mem_filter.mp member
        rw [same] at there
        have qos := novel.departs d t c removal found persistent sub (fewer.subset member)
          (by simpa using token) y there agree
        exact Prod.ext agree qos

theorem Single.op {op : Op} (single : b.Single) (healthy : b.Healthy) (novel : op.Novel b)
    (done : op.run b = .ok (b', out)) : b'.Single :=
  ⟨single.subs_op healthy novel done, fun _ _ stored => single.sessions_op healthy novel done stored⟩

/-- Two matching entries of a connection are for two filters. -/
theorem Single.forwards (single : b.Single) (t : Token) (topic : Str) (qos : UInt8) :
    ∃ filters : List Str, filters.Nodup ∧ filters.length = (b.forwards t topic qos).length ∧
      ∀ f ∈ filters, topicMatches f topic = true ∧ b.subCount t f = 1 := by
  refine ⟨(b.subs.filter fun s => s.token = t && matching topic s).map Subscription.filter, ?_, ?_, ?_⟩
  · rw [List.nodup_iff_count_le_one]
    intro f
    refine Nat.le_trans ?_ (single.subs t f)
    rw [List.count, List.countP_map, List.countP_filter, subCount]
    refine List.countP_mono_left fun s _ chosen => ?_
    simp only [Function.comp_apply, Bool.and_eq_true, beq_iff_eq, decide_eq_true_eq] at chosen ⊢
    exact ⟨chosen.2.1, chosen.1⟩
  · simp [Broker.forwards]
  · intro f member
    obtain ⟨s, inside, rfl⟩ := List.mem_map.mp member
    obtain ⟨there, chosen⟩ := List.mem_filter.mp inside
    rw [Bool.and_eq_true, decide_eq_true_eq] at chosen
    refine ⟨chosen.2, Nat.le_antisymm (single.subs t s.filter) ?_⟩
    exact List.countP_pos_iff.mpr ⟨s, there, by simp [chosen.1]⟩

end Broker

namespace Loop

/-- In every run that starts with one entry per filter in every session, and in which whatever is
asked for is new, there is one entry per filter, and one `publish` queues one copy per matching
filter at most. -/
theorem filters_single (s₀ s : Loop) (ios : List Io) (start : s₀.Initial)
    (apart : ∀ cid sess, s₀.broker.sessions.get? cid = some sess →
      ∀ filter, Broker.filterCount sess.subs filter ≤ 1)
    (run : RunWith (fun b op => op.Novel b) s₀ ios s) :
    (∀ t filter, s.broker.clients.contains t = true → s.broker.subCount t filter ≤ 1) ∧
    (∀ cid sess, s.broker.sessions.get? cid = some sess →
      ∀ filter, Broker.filterCount sess.subs filter ≤ 1) ∧
    ∀ io call e n t c d, (s.op io).publishCall s.broker = some call →
      call.broker.publish call.topic call.payload call.qos call.retain = .ok (e, n) →
      call.broker.clients.get? t = some c → e.clients.get? t = some d →
      ∃ (filters : List Str) (sent : List (Bool × Bytes)), filters.Nodup ∧
        (∀ f ∈ filters, topicMatches f call.topic = true ∧ s.broker.subCount t f = 1) ∧
        sent.length ≤ filters.length ∧ d.writeQueue.Sublist (c.writeQueue ++ sent) := by
  -- Single filters are kept by every step that asks for novel ones.
  have both : s.broker.Healthy ∧ s.broker.Single := by
    refine run.invariant (fun s => s.broker.Healthy ∧ s.broker.Single) ?_ ?_
    · rintro s io t ⟨healthy, single⟩ ⟨-, novel⟩ next
      obtain ⟨b, out, ran, rfl⟩ := step_ok.mp next
      exact ⟨healthy.op _ ran, single.op healthy novel ran⟩
    · refine ⟨start.startup.healthy, fun t filter => ?_, apart⟩
      rw [Broker.subCount, start.startup.unsubscribed]
      exact Nat.zero_le _
  obtain ⟨healthy, single⟩ := both
  refine ⟨fun t filter _ => single.subs t filter, single.sessions, ?_⟩
  intro io call e n t c d called published found after
  obtain ⟨subs, -⟩ := Broker.publishCall_frame called
  have healthy' := Broker.healthy_publishCall healthy _ called
  have spec := Broker.publish_ok healthy'.indexed published
  have served := spec.slots t
  rw [after, found] at served
  obtain ⟨taken, sent, among, carried, queue⟩ := Client.serve_carries served.symm
  obtain ⟨filters, nodup, length, matching⟩ := single.forwards t call.topic call.qos
  have same : call.broker.forwards t call.topic call.qos = s.broker.forwards t call.topic call.qos := by
    rw [Broker.forwards, Broker.forwards, subs]
  refine ⟨filters, sent, nodup, matching, ?_, queue⟩
  rw [← carried.length_eq, length, ← same]
  exact among.length_le

end Loop

/-- A check of `Novel` for operations that remove no connection. -/
def Op.novel (b : Broker) (op : Op) : Bool :=
  (op.removal b).isNone && match op with
  | .packet t p => (b.requests p).all fun e =>
      Broker.filterCount (b.requests p) e.1 == 1 && b.subCount t e.1 == 0
  | _ => true

theorem Op.novel_sound {b : Broker} {op : Op} (checked : op.novel b = true) : op.Novel b := by
  obtain ⟨unremoved, asks⟩ := (Bool.and_eq_true _ _).mp checked
  constructor
  · rintro t p rfl e member
    simpa using List.all_eq_true.mp asks e member
  · intro d t c removal
    rw [removal] at unremoved
    cases unremoved

namespace Loop

/-- One subscription, one copy. -/
theorem filters_single_subscribed : ∃ s c, AdmittedRun fresh subscribed s ∧
    s.broker.clients.get? 1 = some c ∧ s.broker.subCount 1 topicT ≤ 1 ∧ s.broker.subs.length = 1 := by
  have ran : (Machine.runChecked step (fun s io => s.admits io && (s.op io).novel s.broker) fresh
      subscribed).any (fun s => (s.broker.clients.get? 1).isSome && s.broker.subs.length == 1) = true := by
    decide +kernel
  obtain ⟨s, done, ended⟩ := (Option.any_eq_true _ _).mp ran
  obtain ⟨connected, one⟩ := (Bool.and_eq_true _ _).mp ended
  obtain ⟨c, found⟩ := Option.isSome_iff_exists.mp connected
  have path := (Machine.runChecked_path _ _ _ _ _ done).mono
    (fun s io ok => (Bool.and_eq_true _ _).mp ok)
  have single := filters_single fresh s subscribed fresh_initial (fun cid sess stored => by
    have none_stored : fresh.broker.sessions.isEmpty = true := by decide +kernel
    rw [(HashMap.isEmpty_iff _).mp none_stored] at stored
    cases stored) (path.mono fun _ _ ok => ⟨ok.1, Op.novel_sound ok.2⟩)
  exact ⟨s, c, path.mono fun _ _ ok => ok.1, found,
    single.1 1 topicT ((HashMap.contains_iff _ _).mpr ⟨c, found⟩), by simpa using one⟩

/-- A client subscribes to `t` at QoS 1, and again at QoS 0. -/
theorem filters_doubled :
    ¬∀ s : Loop, s.Reachable →
      (∀ t filter, s.broker.clients.contains t = true → s.broker.subCount t filter ≤ 1) ∧
      (∀ cid sess, s.broker.sessions.get? cid = some sess →
        ∀ filter, Broker.filterCount sess.subs filter ≤ 1) := by
  intro claim
  obtain ⟨s, done, checked⟩ := exists_after ([Io.listen, .connection] ++ List.replicate 3 Io.quiet ++
      [Io.read (connectBytes 2 97 ++ [0x82, 6, 0, 1, 0, 1, 116, 1, 0x82, 6, 0, 2, 0, 1, 116, 0])] ++
      List.replicate 3 Io.quiet)
    (fun s => s.broker.clients.contains 1 && s.broker.subCount 1 topicT == 2) (by decide +kernel)
  obtain ⟨connected, two⟩ := (Bool.and_eq_true _ _).mp checked
  have one := (claim s (after_reachable done)).1 1 topicT connected
  rw [beq_iff_eq.mp two] at one
  omega

end Loop

end MioBroker
