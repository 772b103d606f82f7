import MioBroker.Delivery
import MioBroker.Index

/-!
# What one `publish` does

The delivery loop removes subscriptions while it runs. It goes through the positions from the
highest down, so what is still to come has not moved, and every client is served exactly the
messages its matching subscriptions call for.
-/
namespace MioBroker

open Rust

namespace Broker

/-- The QoS of the messages the positions `idxs` stand for, as far as they go to `t`. -/
def jobs (subs : List Subscription) (srcQos : UInt8) (t : Token) (idxs : List Nat) : List UInt8 :=
  idxs.filterMap fun i => subs[i]?.bind fun s => if s.token = t then some (min srcQos s.qos) else none

/-- The QoS of the messages one `publish` forwards to `t`, in the order they are delivered. -/
def forwards (b : Broker) (t : Token) (topic : Str) (srcQos : UInt8) : List UInt8 :=
  ((b.subs.filter fun s => s.token = t && matching topic s).map fun s => min srcQos s.qos).reverse

/-- The forwards to `t`, by what it is subscribed to. -/
theorem forwards_subsOf (b : Broker) (t : Token) (topic : Str) (srcQos : UInt8) :
    b.forwards t topic srcQos =
      (((b.subsOf t).filter fun sub => topicMatches sub.1 topic).map fun sub =>
        min srcQos sub.2).reverse := by
  simp only [forwards, subsOf, List.filter_map, List.map_map, List.filter_filter]
  congr 2
  exact List.filter_congr fun s _ => by simp [matching, Bool.and_comm]

theorem jobs_positions (b : Broker) (srcQos : UInt8) (t : Token) (topic : Str) :
    jobs b.subs srcQos t (positions (matching topic) b.subs).reverse =
      b.forwards t topic srcQos := by
  rw [jobs, List.filterMap_reverse, filterMap_positions, forwards, ← List.filter_filter]
  congr 1
  induction b.subs.filter (matching topic) with
  | nil => rfl
  | cons s rest ih =>
    by_cases same : s.token = t
    · simp [same, ih]
    · simp [same, ih]

theorem jobs_congr (subs subs' : List Subscription) (srcQos : UInt8) (t : Token) (idxs : List Nat)
    (same : ∀ i ∈ idxs, subs'[i]? = subs[i]?) :
    jobs subs' srcQos t idxs = jobs subs srcQos t idxs := by
  apply List.filterMap_congr
  intro i member
  rw [same i member]

/-- The outcome of a sequence of deliveries that forwards `qs t` to each client `t`. -/
structure Delivered (b b' : Broker) (topic : Str) (payload : Bytes) (qs : Token → List UInt8)
    (dead : Nat) : Prop where
  frame : b' = { b with
    clients := b'.clients, subs := b'.subs, sysPubSent := b'.sysPubSent
    deliverLog := b'.deliverLog }
  slots : ∀ t, b'.clients.get? t =
    Client.serve b.now topic payload (qs t) (b.clients.get? t)
  subperm : b'.subs.Subperm b.subs
  pruned : ∀ t, b'.subs.countP (·.token = t) +
    Client.failures b.now topic payload (qs t) (b.clients.get? t) = b.subs.countP (·.token = t)
  unpruned : dead = 0 → b'.subs = b.subs
  kept : (∀ t, Client.failures b.now topic payload (qs t) (b.clients.get? t) = 0) → b'.subs = b.subs

/-- One more failed delivery. -/
private theorem countP_swapRemove (subs : List Subscription) (i : Nat) (lt : i < subs.length)
    (t : Token) :
    (swapRemove subs i).countP (·.token = t) + (if subs[i].token = t then 1 else 0) =
      subs.countP (·.token = t) := by
  have whole := (swapRemove_perm subs i lt).countP_eq (fun s => decide (s.token = t))
  rw [← whole, List.countP_cons]
  simp

theorem deliverAll_spec (topic : Str) (payload : Bytes) (srcQos : UInt8) (idxs : List Nat)
    (b : Broker) (delivered dead : Nat) (descending : idxs.Pairwise (· > ·))
    (inside : ∀ i ∈ idxs, i < b.subs.length) :
    ∃ b' delivered' dead',
      deliverAll topic payload srcQos idxs b delivered dead = .ok (b', delivered', dead + dead') ∧
      Delivered b b' topic payload (fun t => jobs b.subs srcQos t idxs) dead' := by
  induction idxs generalizing b delivered dead with
  | nil =>
    exact ⟨b, delivered, 0, rfl, rfl, fun t => rfl, List.Subperm.refl _, fun t => rfl,
      fun _ => rfl, fun _ => rfl⟩
  | cons i idxs ih =>
    have lt := inside i (by simp)
    obtain ⟨below, descending⟩ := List.pairwise_cons.mp descending
    have job : ∀ t, jobs b.subs srcQos t (i :: idxs) =
        if b.subs[i].token = t then min srcQos b.subs[i].qos :: jobs b.subs srcQos t idxs
        else jobs b.subs srcQos t idxs := by
      intro t
      simp only [jobs, List.filterMap_cons, List.getElem?_eq_getElem lt, Option.bind_some]
      split <;> split <;> simp_all
    obtain ⟨clients, sent, log, answer, one, slots, failed⟩ :=
      b.deliverTo_spec b.subs[i].token topic payload (min srcQos b.subs[i].qos)
    -- one delivery in front of those to come
    have served : ∀ t, Client.serve b.now topic payload (jobs b.subs srcQos t (i :: idxs))
        (b.clients.get? t) =
          Client.serve b.now topic payload (jobs b.subs srcQos t idxs) (clients.get? t) := by
      intro t
      rw [job, slots]
      by_cases same : b.subs[i].token = t
      · rw [if_pos same, if_pos same.symm, Client.serve_cons]
      · rw [if_neg same, if_neg (Ne.symm same)]
    have missed : ∀ t, Client.failures b.now topic payload (jobs b.subs srcQos t (i :: idxs))
        (b.clients.get? t) = (if b.subs[i].token = t then lost answer else 0) +
          Client.failures b.now topic payload (jobs b.subs srcQos t idxs) (clients.get? t) := by
      intro t
      rw [job, slots]
      by_cases same : b.subs[i].token = t
      · subst same
        rw [if_pos rfl, if_pos rfl, if_pos rfl, Client.failures_cons, failed]
      · rw [if_neg same, if_neg (Ne.symm same), if_neg same, Nat.zero_add]
    rw [deliverAll, Run.index_of_lt b.subs i lt, Run.ok_bind, one]
    cases answer with
    | ok =>
      obtain ⟨b', delivered', dead', run, spec⟩ :=
        ih { b with clients := clients, sysPubSent := sent, deliverLog := log } (delivered + 1) dead
          descending
          fun j member => inside j (by simp [member])
      refine ⟨b', delivered', dead', run, spec.frame, fun t => ?_, spec.subperm, fun t => ?_,
        spec.unpruned, fun none_failed => spec.kept fun t => ?_⟩
      · rw [spec.slots t, served]
      · rw [← spec.pruned t, missed]
        simp [lost]
      · have whole := none_failed t
        rw [missed] at whole
        exact (Nat.add_eq_zero_iff.mp whole).2
    | error =>
      have below' : ∀ j ∈ idxs, j < (swapRemove b.subs i).length := by
        intro j member
        have := below j member
        rw [length_swapRemove b.subs i lt]
        omega
      obtain ⟨b', delivered', dead', run, spec⟩ :=
        ih { b with clients := clients, sysPubSent := sent, deliverLog := log, subs := swapRemove b.subs i }
          delivered (dead + 1) descending below'
      -- the positions to come are below the hole, so they still mean the same subscriptions
      have stable : ∀ t, jobs (swapRemove b.subs i) srcQos t idxs = jobs b.subs srcQos t idxs :=
        fun t => jobs_congr _ _ _ _ _ fun j member =>
          getElem?_swapRemove_lt b.subs i j lt (below j member)
      refine ⟨b', delivered', dead' + 1, ?_, spec.frame, fun t => ?_, ?_, fun t => ?_, by omega,
        fun none_failed => ?_⟩
      · rw [← Nat.add_assoc, Nat.add_right_comm]
        exact run
      · rw [spec.slots t, stable, served]
      · exact spec.subperm.trans
          ((List.subperm_cons_self).trans (swapRemove_perm b.subs i lt).subperm)
      · have rest := spec.pruned t
        have count := countP_swapRemove b.subs i lt t
        simp only [stable] at rest
        rw [missed]
        simp only [lost]
        omega
      · have whole := none_failed b.subs[i].token
        rw [missed, if_pos rfl] at whole
        simp [lost] at whole

end Broker

/-! ### The offline queues -/

namespace SessionState

/-- One more message for a session that is away, while there is room. -/
def push (sess : SessionState) (m : Str × Bytes × UInt8) : SessionState :=
  { sess with offline := Broker.addCapped sess.offline m }

/-- What a routed message does to a stored session. -/
def enqueue (sess : SessionState) (topic : Str) (payload : Bytes) (srcQos : UInt8) : SessionState :=
  match Broker.firstMatch sess.subs topic with
  | some sub => sess.push (topic, payload, min srcQos sub.2)
  | none => sess

@[simp] theorem subs_enqueue (sess : SessionState) (topic : Str) (payload : Bytes) (srcQos : UInt8) :
    (sess.enqueue topic payload srcQos).subs = sess.subs := by
  simp only [enqueue]
  split <;> rfl

end SessionState

namespace Broker

theorem queueOffline_frame (topic : Str) (payload : Bytes) (srcQos : UInt8) (b : Broker)
    (target : Str × UInt8) :
    ∃ sessions dirty, queueOffline topic payload srcQos b target =
      { b with sessions := sessions, dirty := dirty } := by
  simp only [queueOffline]
  split
  · split
    · exact ⟨_, _, rfl⟩
    · exact ⟨_, _, rfl⟩
  · exact ⟨_, _, rfl⟩

theorem queueOffline_get? (topic : Str) (payload : Bytes) (srcQos : UInt8) (b : Broker)
    (target : Str × UInt8) (cid : Str) :
    (queueOffline topic payload srcQos b target).sessions.get? cid =
      if cid = target.1 then
        (b.sessions.get? cid).map (·.push (topic, payload, min srcQos target.2))
      else b.sessions.get? cid := by
  by_cases same : cid = target.1
  · subst same
    simp only [queueOffline, if_true]
    cases found : b.sessions.get? target.1 with
    | none => simp [found]
    | some sess =>
      by_cases room : sess.offline.length < OFFLINE_CAP
      · simp [room, SessionState.push, addCapped]
      · simp [room, found, SessionState.push, addCapped]
  · -- Another id is written to, or none where the backlog is full.
    simp only [queueOffline, if_neg same]
    split
    · split
      · exact HashMap.get?_insert_ne _ _ same
      · rfl
    · rfl

theorem foldl_queueOffline_frame (topic : Str) (payload : Bytes) (srcQos : UInt8)
    (targets : List (Str × UInt8)) (b : Broker) :
    ∃ sessions dirty, targets.foldl (queueOffline topic payload srcQos) b =
      { b with sessions := sessions, dirty := dirty } := by
  induction targets generalizing b with
  | nil => exact ⟨_, _, rfl⟩
  | cons target rest ih =>
    obtain ⟨sessions, dirty, first⟩ := queueOffline_frame topic payload srcQos b target
    obtain ⟨sessions', dirty', all⟩ := ih (queueOffline topic payload srcQos b target)
    rw [List.foldl_cons, all, first]
    exact ⟨_, _, rfl⟩

theorem foldl_queueOffline_other (topic : Str) (payload : Bytes) (srcQos : UInt8)
    (targets : List (Str × UInt8)) (b : Broker) (cid : Str)
    (absent : cid ∉ targets.map Prod.fst) :
    (targets.foldl (queueOffline topic payload srcQos) b).sessions.get? cid =
      b.sessions.get? cid := by
  induction targets generalizing b with
  | nil => rfl
  | cons target rest ih =>
    simp only [List.map_cons, List.mem_cons, not_or] at absent
    rw [List.foldl_cons, ih _ absent.2, queueOffline_get?, if_neg absent.1]

/-- Every session is a target at most once, so it gets at most one copy. -/
theorem foldl_queueOffline_target (topic : Str) (payload : Bytes) (srcQos : UInt8)
    (targets : List (Str × UInt8)) (b : Broker) (distinct : (targets.map Prod.fst).Nodup)
    (cid : Str) (q : UInt8) (member : (cid, q) ∈ targets) :
    (targets.foldl (queueOffline topic payload srcQos) b).sessions.get? cid =
      (b.sessions.get? cid).map (·.push (topic, payload, min srcQos q)) := by
  induction targets generalizing b with
  | nil => simp at member
  | cons target rest ih =>
    simp only [List.map_cons, List.nodup_cons] at distinct
    rw [List.foldl_cons]
    rcases List.mem_cons.mp member with rfl | later
    · rw [foldl_queueOffline_other _ _ _ _ _ _ distinct.1, queueOffline_get?, if_pos rfl]
    · have differ : cid ≠ target.1 := fun eq => distinct.1 (eq ▸ List.mem_map_of_mem later)
      rw [ih _ distinct.2 later, queueOffline_get?, if_neg differ]

theorem storeOffline_frame (b : Broker) (topic : Str) (payload : Bytes) (srcQos : UInt8) :
    ∃ sessions dirty, b.storeOffline topic payload srcQos =
      { b with sessions := sessions, dirty := dirty } := by
  simp only [storeOffline]
  split
  · exact foldl_queueOffline_frame _ _ _ _ _
  · exact ⟨_, _, rfl⟩

/-- Offline delivery, session by session. -/
theorem storeOffline_get? (b : Broker) (topic : Str) (payload : Bytes) (srcQos : UInt8)
    (reliable : srcQos > 0) (cid : Str) :
    (b.storeOffline topic payload srcQos).sessions.get? cid =
      (b.sessions.get? cid).map (·.enqueue topic payload srcQos) := by
  simp only [storeOffline, if_pos reliable]
  generalize chosen : (b.sessions.iter.filterMap fun e =>
    (firstMatch e.2.subs topic).map fun sub => (e.1, sub.2)) = targets
  -- The targets are collected before any session is written.
  have origin : ∀ k q, (k, q) ∈ targets ↔
      ∃ sess sub, b.sessions.get? k = some sess ∧ firstMatch sess.subs topic = some sub ∧ sub.2 = q := by
    intro k q
    rw [← chosen, List.mem_filterMap]
    constructor
    · rintro ⟨e, member, target⟩
      obtain ⟨sub, matched, same⟩ := Option.map_eq_some_iff.mp target
      cases same
      exact ⟨e.2, sub, (HashMap.mem_iter _ _ _).mp member, matched, rfl⟩
    · rintro ⟨sess, sub, found, matched, rfl⟩
      exact ⟨(k, sess), (HashMap.mem_iter _ _ _).mpr found, by simp [matched]⟩
  -- Each session is a target at most once.
  have distinct : (targets.map Prod.fst).Nodup := by
    refine b.sessions.nodup_keys.sublist ?_
    rw [← chosen, HashMap.keys]
    induction b.sessions.iter with
    | nil => simp
    | cons e rest ih =>
      rw [List.filterMap_cons]
      split
      · exact ih.cons _
      next target chosen =>
        obtain ⟨sub, -, rfl⟩ := Option.map_eq_some_iff.mp chosen
        exact ih.cons_cons _
  cases found : b.sessions.get? cid with
  | none =>
    rw [foldl_queueOffline_other, found]
    · rfl
    · intro member
      obtain ⟨entry, inside, rfl⟩ := List.mem_map.mp member
      obtain ⟨sess, sub, there, -⟩ := (origin entry.1 entry.2).mp inside
      simp [found] at there
  | some sess =>
    simp only [Option.map_some, SessionState.enqueue]
    cases matched : firstMatch sess.subs topic with
    | none =>
      rw [foldl_queueOffline_other, found]
      intro member
      obtain ⟨entry, inside, rfl⟩ := List.mem_map.mp member
      obtain ⟨sess', sub, there, other, -⟩ := (origin entry.1 entry.2).mp inside
      cases found.symm.trans there
      simp [matched] at other
    | some sub =>
      have member : (cid, sub.2) ∈ targets := (origin _ _).mpr ⟨sess, sub, found, matched, rfl⟩
      rw [foldl_queueOffline_target topic payload srcQos targets b distinct cid sub.2 member, found]
      rfl

/-! ### The whole call -/

theorem storeRetained_frame (b : Broker) (topic : Str) (payload : Bytes) (srcQos : UInt8)
    (retain : Bool) :
    ∃ retained dirty, b.storeRetained topic payload srcQos retain =
      { b with retained := retained, dirty := dirty } := by
  simp only [storeRetained]
  split
  · split <;> exact ⟨_, _, rfl⟩
  · exact ⟨_, _, rfl⟩

/-- What a call of `publish` does to the broker. -/
structure Published (b b' : Broker) (topic : Str) (payload : Bytes) (srcQos : UInt8)
    (retain : Bool) : Prop where
  frame : b' = { b with
    clients := b'.clients, subs := b'.subs, subsExact := b'.subsExact, subsWild := b'.subsWild
    deadPruned := b'.deadPruned, retained := b'.retained, sessions := b'.sessions
    dirty := b'.dirty, sysPubSent := b'.sysPubSent, deliverLog := b'.deliverLog }
  indexed : b'.Indexed
  slots : ∀ t, b'.clients.get? t =
    Client.serve b.now topic payload (b.forwards t topic srcQos) (b.clients.get? t)
  subperm : b'.subs.Subperm b.subs
  pruned : ∀ t, b'.subs.countP (·.token = t) +
    Client.failures b.now topic payload (b.forwards t topic srcQos) (b.clients.get? t) =
      b.subs.countP (·.token = t)
  kept : (∀ t, Client.failures b.now topic payload (b.forwards t topic srcQos)
    (b.clients.get? t) = 0) → b'.subs = b.subs
  retained : b'.retained = (b.storeRetained topic payload srcQos retain).retained
  sessions : ∀ cid, b'.sessions.get? cid =
    if srcQos > 0 then (b.sessions.get? cid).map (·.enqueue topic payload srcQos)
    else b.sessions.get? cid

/-- The live part of `publish` never panics; it serves every connection its forwards. -/
theorem deliverLive_spec (b : Broker) (indexed : b.Indexed) (topic : Str) (payload : Bytes)
    (srcQos : UInt8) :
    ∃ b' n dead, b.deliverLive topic payload srcQos = .ok (b', n) ∧
      b'.Indexed ∧ ∃ c, Delivered b c topic payload (fun t => b.forwards t topic srcQos) dead ∧
        b' = { c with
          deadPruned := b.deadPruned + dead
          subsExact := b'.subsExact
          subsWild := b'.subsWild } := by
  obtain ⟨idxs, kept, sorted⟩ := b.sorted_candidates indexed topic
  have descending : (positions (matching topic) b.subs).reverse.Pairwise (· > ·) :=
    List.pairwise_reverse.mpr (sorted_positions _ _)
  -- All indices are in bounds, so no round panics.
  have inside : ∀ i ∈ (positions (matching topic) b.subs).reverse, i < b.subs.length := by
    intro i member
    obtain ⟨s, found, -⟩ := (mem_positions _ _ _).mp (List.mem_reverse.mp member)
    exact (List.getElem?_eq_some_iff.mp found).1
  obtain ⟨c, delivered, dead, run, spec⟩ :=
    deliverAll_spec topic payload srcQos _ b 0 0 descending inside
  simp only [jobs_positions] at spec
  have pruned : c.deadPruned = b.deadPruned := by rw [spec.frame]
  rw [deliverLive, kept, Run.ok_bind]
  simp only
  rw [sorted, run, Run.ok_bind, Run.pure_eq]
  simp only [Nat.zero_add]
  -- The index is rebuilt only after a pruning; without one the old index still fits.
  by_cases lost : dead > 0
  · refine ⟨_, _, dead, rfl, ?_, c, spec, ?_⟩
    · rw [if_pos lost]
      exact indexed_rebuildIndex _
    · rw [if_pos lost, rebuildIndex_frame, pruned]
  · refine ⟨_, _, dead, rfl, ?_, c, spec, ?_⟩
    · rw [if_neg lost, Indexed]
      simp only
      rw [spec.unpruned (by omega), spec.frame]
      exact indexed
    · rw [if_neg lost, pruned]

/-- `publish` never panics on an indexed broker, and keeps it indexed. -/
theorem publish_spec (b : Broker) (indexed : b.Indexed) (topic : Str) (payload : Bytes)
    (srcQos : UInt8) (retain : Bool) :
    ∃ b' n, b.publish topic payload srcQos retain = .ok (b', n, 0) ∧
      Published b b' topic payload srcQos retain := by
  obtain ⟨table, dirty, stored⟩ := b.storeRetained_frame topic payload srcQos retain
  rw [publish, stored]
  simp only
  by_cases nowhere : (b.subs.isEmpty && b.sessions.isEmpty) = true
  · obtain ⟨no_subs, no_sessions⟩ := by simpa using nowhere
    refine ⟨{ b with retained := table, dirty := dirty }, 0, by rw [if_pos nowhere]; rfl, ?_⟩
    refine ⟨rfl, indexed, fun t => ?_, List.Subperm.refl _, fun t => ?_, fun _ => rfl, by rw [stored],
      fun cid => ?_⟩
    · simp [forwards, no_subs, Client.serve]
    · simp [forwards, no_subs, Client.failures]
    · have none_there := (HashMap.isEmpty_iff _).mp no_sessions cid
      simp [none_there]
  · obtain ⟨d, n, dead, live, indexed', c, spec, after⟩ :=
      deliverLive_spec { b with retained := table, dirty := dirty } indexed topic payload srcQos
    obtain ⟨sessions, dirty', offline⟩ := d.storeOffline_frame topic payload srcQos
    -- Retaining the message moves no subscription.
    have same_forwards : ∀ t, forwards { b with retained := table, dirty := dirty } t topic srcQos =
        b.forwards t topic srcQos := fun t => rfl
    refine ⟨d.storeOffline topic payload srcQos, n, ?_, ?_⟩
    · rw [if_neg nowhere, live]
      rfl
    · -- The live deliveries leave the sessions to what is stored offline.
      have sessions_d : d.sessions = b.sessions := by rw [after, spec.frame]
      constructor
      · rw [offline, after, spec.frame]
      · rw [offline]
        exact indexed'
      · intro t
        rw [offline, after]
        exact spec.slots t
      · rw [offline, after]
        exact spec.subperm
      · intro t
        rw [offline, after]
        exact spec.pruned t
      · intro none_failed
        rw [offline, after]
        exact spec.kept none_failed
      · rw [offline, after, spec.frame, stored]
      · intro cid
        by_cases reliable : srcQos > 0
        · rw [if_pos reliable, storeOffline_get? d topic payload srcQos reliable, sessions_d]
        · rw [if_neg reliable, storeOffline, if_neg reliable, sessions_d]

/-- What a `publish` that returns has done. -/
theorem publish_ok {b b' : Broker} (indexed : b.Indexed) {topic : Str} {payload : Bytes}
    {srcQos : UInt8} {retain : Bool} {counts : Nat × Nat}
    (done : b.publish topic payload srcQos retain = .ok (b', counts)) :
    Published b b' topic payload srcQos retain := by
  obtain ⟨d, n, run, spec⟩ := b.publish_spec indexed topic payload srcQos retain
  cases run.symm.trans done
  exact spec

end Broker
end MioBroker
