import MioBroker.Copies
import MioBroker.Restart

/-!
# The QoS of what is queued for a session

A live subscriber gets a copy for each of its matching subscriptions, so the best copy goes out with
the highest of their QoS. A session that is away gets a single copy, at the QoS of the first match.
-/

/-- The maximum of bytes is the one of their order. -/
instance UInt8.lawfulMax : Std.LawfulOrderLeftLeaningMax UInt8 where
  max_eq_left a b le := by
    change (if a ≤ b then b else a) = a
    split
    next other => exact UInt8.le_antisymm le other
    next => rfl
  max_eq_right a b gt := by
    change (if a ≤ b then b else a) = b
    rw [if_pos ((UInt8.le_total a b).resolve_right gt)]

namespace MioBroker

open Rust

theorem min_mono_right {s p q : UInt8} (le : p ≤ q) : min s p ≤ min s q :=
  Std.le_min_iff.mpr ⟨Std.min_le_left, UInt8.le_trans Std.min_le_right le⟩

/-- The QoS of the subscriptions that match. -/
def grants (subs : List (Str × UInt8)) (topic : Str) : List UInt8 :=
  (subs.filter fun sub => topicMatches sub.1 topic).map Prod.snd

theorem mem_grants {subs : List (Str × UInt8)} {topic : Str} {q : UInt8} :
    q ∈ grants subs topic ↔ ∃ sub ∈ subs, topicMatches sub.1 topic = true ∧ sub.2 = q := by
  simp [grants, and_assoc]

/-- The highest of them, in whatever order they are listed. -/
theorem max_grants_perm {subs subs' : List (Str × UInt8)} (perm : subs.Perm subs') (topic : Str) :
    (grants subs topic).max? = (grants subs' topic).max? := by
  have same : (grants subs topic).Perm (grants subs' topic) := (perm.filter _).map _
  cases best : (grants subs topic).max? with
  | none =>
    rw [List.max?_eq_none_iff] at best
    rw [List.max?_eq_none_iff.mpr (List.nil_perm.mp (best ▸ same))]
  | some q =>
    obtain ⟨member, above⟩ := List.max?_eq_some_iff.mp best
    refine (List.max?_eq_some_iff.mpr ⟨same.subset member, fun p inside => ?_⟩).symm
    exact above p (same.symm.subset inside)

namespace SessionState

variable {sess old new : SessionState} {topic : Str} {payload : Bytes} {srcQos : UInt8}

/-- What a message does to a session that is granted what a live subscriber would be. -/
def owe (sess : SessionState) (topic : Str) (payload : Bytes) (srcQos : UInt8) : SessionState :=
  match (grants sess.subs topic).max? with
  | some q => sess.push (topic, payload, min srcQos q)
  | none => sess

/-- No matching subscription outranks the first one, for a message of this QoS. -/
def FirstBest (sess : SessionState) (topic : Str) (srcQos : UInt8) : Prop :=
  ∀ first, Broker.firstMatch sess.subs topic = some first →
    ∀ sub ∈ sess.subs, topicMatches sub.1 topic = true → min srcQos sub.2 ≤ min srcQos first.2

theorem firstMatch_grants {first : Str × UInt8} (found : Broker.firstMatch sess.subs topic = some first) :
    first.2 ∈ grants sess.subs topic :=
  mem_grants.mpr ⟨first, List.mem_of_find?_eq_some found, by simpa using List.find?_some found, rfl⟩

theorem grants_nil_iff :
    grants sess.subs topic = [] ↔ Broker.firstMatch sess.subs topic = none := by
  rw [grants, List.map_eq_nil_iff, List.filter_eq_nil_iff, Broker.firstMatch, List.find?_eq_none]

/-- While there is room, the first match decides as the highest would exactly if it is the best. -/
theorem enqueue_eq_owe_iff (payload : Bytes) (room : sess.offline.length < OFFLINE_CAP) :
    sess.enqueue topic payload srcQos = sess.owe topic payload srcQos ↔ sess.FirstBest topic srcQos := by
  cases found : Broker.firstMatch sess.subs topic with
  | none =>
    have nothing : (grants sess.subs topic).max? = none :=
      List.max?_eq_none_iff.mpr (grants_nil_iff.mpr found)
    simp [enqueue, owe, found, nothing, FirstBest]
  | some first =>
    obtain ⟨q, best⟩ : ∃ q, (grants sess.subs topic).max? = some q :=
      Option.isSome_iff_exists.mp (List.isSome_max?_of_mem (firstMatch_grants found))
    obtain ⟨member, above⟩ := List.max?_eq_some_iff.mp best
    -- Both put one message at the end, so they differ in its QoS or not at all.
    have decided : sess.enqueue topic payload srcQos = sess.owe topic payload srcQos ↔
        min srcQos first.2 = min srcQos q := by
      simp [enqueue, owe, found, best, push, Broker.addCapped, room]
    rw [decided]
    constructor
    · intro same other found' sub inside hit
      cases found.symm.trans found'
      rw [same]
      exact min_mono_right (above sub.2 (mem_grants.mpr ⟨sub, inside, hit, rfl⟩))
    · intro firstBest
      obtain ⟨sub, inside, hit, rfl⟩ := mem_grants.mp member
      exact UInt8.le_antisymm (min_mono_right (above first.2 (firstMatch_grants found)))
        (firstBest first found sub inside hit)

/-- A full queue takes nothing, whatever the QoS. -/
theorem enqueue_full (full : ¬sess.offline.length < OFFLINE_CAP) :
    sess.enqueue topic payload srcQos = sess.owe topic payload srcQos := by
  have unchanged : ∀ m, sess.push m = sess := fun m => by
    rw [push, Broker.addCapped, if_neg full]
  simp only [enqueue, owe, unchanged]
  split <;> split <;> rfl

/-! ### While a session waits -/

/-- More subscriptions and more messages, behind those that were there. -/
structure Grown (old new : SessionState) : Prop where
  subs : old.subs <+: new.subs
  offline : old.offline <+: new.offline

theorem Grown.refl (sess : SessionState) : sess.Grown sess := ⟨List.prefix_rfl, List.prefix_rfl⟩

theorem Grown.trans {mid : SessionState} (first : old.Grown mid) (second : mid.Grown new) :
    old.Grown new :=
  ⟨first.subs.trans second.subs, first.offline.trans second.offline⟩

theorem grown_enqueue (sess : SessionState) (topic : Str) (payload : Bytes) (srcQos : UInt8) :
    sess.Grown (sess.enqueue topic payload srcQos) :=
  ⟨(subs_enqueue sess topic payload srcQos).symm ▸ List.prefix_rfl,
    Broker.stored_enqueue sess topic payload srcQos⟩

/-- The first match stays the first match. -/
theorem Grown.firstMatch (grown : old.Grown new) {first : Str × UInt8}
    (found : Broker.firstMatch old.subs topic = some first) :
    Broker.firstMatch new.subs topic = some first := by
  obtain ⟨more, same⟩ := grown.subs
  rw [Broker.firstMatch] at found ⊢
  rw [← same, List.find?_append, found]
  rfl

/-- What was queued at the QoS of the first match is flushed at that QoS: the second minimum is with
the same number. -/
theorem Grown.flushList (grown : old.Grown new) {n : Nat} {first : Str × UInt8}
    (queued : old.offline[n]? = some (topic, payload, min srcQos first.2))
    (found : Broker.firstMatch old.subs topic = some first) :
    (Broker.flushList new)[n]? = some (topic, payload, min srcQos first.2) := by
  have idempotent : min (min srcQos first.2) first.2 = min srcQos first.2 :=
    UInt8.le_antisymm Std.min_le_left (Std.le_min_iff.mpr ⟨UInt8.le_refl _, Std.min_le_right⟩)
  obtain ⟨more, same⟩ := grown.offline
  have there : new.offline[n]? = some (topic, payload, min srcQos first.2) := by
    rw [← same, List.getElem?_append_left (List.getElem?_eq_some_iff.mp queued).1]
    exact queued
  simp [Broker.flushList, there, grown.firstMatch found, idempotent]

end SessionState

/-- Acts that take no session away leave the one stored under `cid`, with what they add. -/
theorem Act.session_grown {a : Act} {b b' : Broker} (healthy : b.Healthy) (done : a.run b = .ok b')
    {cid : Str} {sess : SessionState} (kept : a ≠ .eraseSession cid)
    (stored : b.sessions.get? cid = some sess) :
    ∃ sess', b'.sessions.get? cid = some sess' ∧ sess.Grown sess' := by
  rcases Act.sessions_cases healthy done with ⟨same, -⟩ | ⟨topic, payload, qos, retain, rfl, spec⟩ |
    ⟨erased, rfl, left⟩ | ⟨t, c, offline, rfl, -, -, -, sessions⟩
  · exact ⟨sess, same ▸ stored, .refl sess⟩
  · have after := spec.sessions cid
    rw [stored] at after
    split at after
    · exact ⟨_, after, SessionState.grown_enqueue sess topic payload qos⟩
    · exact ⟨sess, after, .refl sess⟩
  · have differ : cid ≠ erased := fun same => kept (same ▸ rfl)
    exact ⟨sess, by rw [left, if_neg differ, stored], .refl sess⟩
  · rw [sessions, HashMap.get?_insert]
    split
    next same =>
      -- another connection of the client leaves: what it held comes behind
      subst same
      obtain ⟨new, subs, -⟩ := Broker.foldl_addMissing (b.subsOf t) sess.subs
      refine ⟨_, rfl, ?_, ?_⟩
      · simp only [Broker.departure, stored, Option.getD_some, subs]
        exact List.prefix_append _ _
      · simp only [Broker.departure, stored, Option.getD_some, Broker.foldl_addCapped]
        exact List.prefix_append _ _
    next => exact ⟨sess, stored, .refl sess⟩

namespace Broker

/-- What can happen while the session of `cid` waits to be resumed: any acts that do not take it
away, and restarts from a file that holds the tables. -/
inductive Waits (cid : Str) : Broker → Broker → Prop
  | refl (b : Broker) : Waits cid b b
  | act {b b' d : Broker} {a : Act} : Waits cid b b' → a ≠ .eraseSession cid → a.run b' = .ok d →
      Waits cid b d
  | restart {b b' : Broker} (h : Hashers) (now : Instant) (fault : Option (Option Bytes)) : Waits cid b b' →
      StateFits b'.retained b'.sessions →
      Waits cid b ((new h now ⟨some (serializeState b'.retained b'.sessions), fault⟩).loadState h)

variable {b b' : Broker} {cid : Str} {sess : SessionState}

theorem loadState_sessions {h : Hashers} {now : Instant} {fault : Option (Option Bytes)}
    (fits : StateFits b.retained b.sessions) (cid : Str) :
    ((new h now ⟨some (serializeState b.retained b.sessions), fault⟩).loadState h).sessions.get? cid =
      b.sessions.get? cid := by
  simp only [loadState, new, deserializeState_serialize h fits]
  exact insertAll_equiv b.sessions h.sessions cid

theorem Waits.grown (waits : Waits cid b b') (healthy : b.Healthy)
    (stored : b.sessions.get? cid = some sess) :
    b'.Healthy ∧ ∃ sess', b'.sessions.get? cid = some sess' ∧ sess.Grown sess' := by
  induction waits with
  | refl => exact ⟨healthy, sess, stored, .refl sess⟩
  | act _ kept done ih =>
    obtain ⟨healthy', mid, there, grown⟩ := ih
    obtain ⟨sess', there', more⟩ := Act.session_grown healthy' done kept there
    exact ⟨healthy'.act _ done, sess', there', grown.trans more⟩
  | restart h now fault _ fits ih =>
    obtain ⟨-, mid, there, grown⟩ := ih
    exact ⟨healthy_startup h now _, mid, (loadState_sessions fits cid).trans there, grown⟩

/-- A message with a QoS above 0 is queued for every stored session at the QoS a live subscriber
would get it with, and goes out with it when the session is resumed; the order of the subscriptions
does not matter. -/
def GrantsOffline (b : Broker) (topic : Str) (payload : Bytes) (srcQos : UInt8) (retain : Bool) : Prop :=
  ∃ b' n, b.publish topic payload srcQos retain = .ok (b', n) ∧
    (∀ cid, b'.sessions.get? cid = (b.sessions.get? cid).map (·.owe topic payload srcQos)) ∧
    ∀ cid sess subs q, b.sessions.get? cid = some sess → sess.offline.length < OFFLINE_CAP →
      subs.Perm sess.subs → (grants subs topic).max? = some q → ∀ later, Waits cid b' later →
      ∃ resumed, later.sessions.get? cid = some resumed ∧
        (flushList resumed)[sess.offline.length]? = some (topic, payload, min srcQos q)

variable {topic : Str} {payload : Bytes} {srcQos : UInt8} {retain : Bool}

theorem GrantsOffline.firstBest (granted : b.GrantsOffline topic payload srcQos retain)
    (healthy : b.Healthy) (reliable : srcQos > 0) (stored : b.sessions.get? cid = some sess)
    (room : sess.offline.length < OFFLINE_CAP) : sess.FirstBest topic srcQos := by
  obtain ⟨b', n, done, tables, -⟩ := granted
  have after := (publish_ok healthy.indexed done).sessions cid
  rw [if_pos reliable, tables cid, stored] at after
  exact (SessionState.enqueue_eq_owe_iff payload room).mp (Option.some.inj after).symm

end Broker

open Broker

/-- What is queued for sessions is what the live path would grant, and is delivered as such, exactly
if in every session with room no matching subscription outranks the first one that matches. -/
theorem offline_qos_iff (b : Broker) (reached : Act.Reachable b) (topic : Str) (payload : Bytes)
    (srcQos : UInt8) (retain : Bool) (reliable : srcQos > 0) :
    b.GrantsOffline topic payload srcQos retain ↔
      ∀ cid sess, b.sessions.get? cid = some sess → sess.offline.length < OFFLINE_CAP →
        sess.FirstBest topic srcQos := by
  have healthy := reached.healthy
  refine ⟨fun granted cid sess => granted.firstBest healthy reliable, fun best => ?_⟩
  obtain ⟨b', n, done, spec⟩ := b.publish_spec healthy.indexed topic payload srcQos retain
  have tables : ∀ cid, b'.sessions.get? cid = (b.sessions.get? cid).map (·.owe topic payload srcQos) := by
    intro cid
    rw [spec.sessions, if_pos reliable]
    refine Option.map_congr fun sess stored => ?_
    by_cases room : sess.offline.length < OFFLINE_CAP
    · exact (SessionState.enqueue_eq_owe_iff payload room).mpr (best cid sess stored room)
    · exact SessionState.enqueue_full room
  refine ⟨b', (n, 0), done, tables, fun cid sess subs q stored room perm highest later waits => ?_⟩
  rw [max_grants_perm perm] at highest
  have healthy' : b'.Healthy := healthy.act (.publish topic payload srcQos retain) (by
    rw [Act.run, done]
    rfl)
  obtain ⟨first, found⟩ : ∃ first, firstMatch sess.subs topic = some first := by
    refine Option.ne_none_iff_exists'.mp fun nothing => ?_
    rw [SessionState.grants_nil_iff.mpr nothing] at highest
    cases highest
  have queued : b'.sessions.get? cid =
      some { sess with offline := sess.offline ++ [(topic, payload, min srcQos q)] } := by
    rw [tables, stored]
    simp [SessionState.owe, highest, SessionState.push, addCapped, room]
  obtain ⟨-, resumed, there, grown⟩ := waits.grown healthy' queued
  refine ⟨resumed, there, ?_⟩
  -- the highest and the first grant the message the same
  obtain ⟨sub, inside, hit, rfl⟩ := mem_grants.mp (List.max?_eq_some_iff.mp highest).1
  have same : min srcQos sub.2 = min srcQos first.2 :=
    UInt8.le_antisymm (best cid sess stored room first found sub inside hit)
      (min_mono_right ((List.max?_eq_some_iff.mp highest).2 _ (SessionState.firstMatch_grants found)))
  rw [same] at grown ⊢
  exact grown.flushList (by simp) found

/-- A broker that starts with these sessions in its state file. -/
theorem exists_stored (sessions : HashMap Str SessionState) (fits : StateFits (.new default) sessions) :
    ∃ b, Act.Reachable b ∧ b.sessions.Equiv sessions := by
  refine ⟨_, .initial ⟨⟨default, default, default, default⟩, 0,
    ⟨some (serializeState (.new default) sessions), none⟩, rfl⟩, fun cid => ?_⟩
  simp only [loadState, new, deserializeState_serialize _ fits]
  exact insertAll_equiv sessions _ cid

/-- The session table with one entry, under the id `s`. -/
def loneSession (sess : SessionState) : HashMap Str SessionState :=
  (HashMap.new default).insert ⟨[115], by decide⟩ sess

theorem loneSession_fits {sess : SessionState} (fits : sess.Fits ⟨[115], by decide⟩) :
    StateFits (.new default) (loneSession sess) where
  retainedCount := Nat.zero_le _
  retained := fun _ _ _ found => by cases found
  sessionCount := by
    rw [loneSession, HashMap.size_insert_new _ _ _ rfl]
    decide
  sessions := by
    intro cid sess' found
    rw [loneSession, HashMap.get?_insert] at found
    split at found
    next same =>
      cases found
      exact same ▸ fits
    next => cases found

/-- Subscribed to `#` with QoS 0, and then to `a` with QoS 1. -/
def overlapping : SessionState := ⟨[(⟨[35], by decide⟩, 0), (⟨[97], by decide⟩, 1)], []⟩

/-- Subscribed to `a`, then to `#` with QoS 0. -/
def refined : SessionState := ⟨[(⟨[97], by decide⟩, 1), (⟨[35], by decide⟩, 0)], []⟩

/-- A QoS 1 message to `a`, which both subscriptions match. -/
theorem offline_qos_refined : ∃ b : Broker, b.sessions.Equiv (loneSession refined) ∧
    b.GrantsOffline ⟨[97], by decide⟩ [120] 1 false := by
  obtain ⟨b, reached, same⟩ := exists_stored (loneSession refined) (loneSession_fits
    ⟨by decide, by decide, by decide, by decide, fun m member => by cases member⟩)
  refine ⟨b, same, (offline_qos_iff b reached _ _ _ _ (by decide)).mpr ?_⟩
  intro cid sess stored room first found sub inside hit
  rw [same cid, loneSession, HashMap.get?_insert] at stored
  split at stored
  next =>
    cases stored
    cases found
    have both : ∀ sub ∈ refined.subs, min (1 : UInt8) sub.2 ≤ min 1 1 := by decide
    exact both sub inside
  next => cases stored

/-- The same message, for a session whose subscription to `#` came first. -/
theorem offline_downgraded : ¬∀ (b : Broker) (topic : Str) (payload : Bytes) (srcQos : UInt8)
    (retain : Bool), Act.Reachable b → srcQos > 0 → b.GrantsOffline topic payload srcQos retain := by
  intro always
  obtain ⟨b, reached, same⟩ := exists_stored (loneSession overlapping) (loneSession_fits
    ⟨by decide, by decide, by decide, by decide, fun m member => by cases member⟩)
  have granted := always b ⟨[97], by decide⟩ [120] 1 false reached (by decide)
  have best := granted.firstBest reached.healthy (by decide)
    ((same _).trans (HashMap.get?_insert_self _ _ _)) (by decide)
  exact absurd (best (⟨[35], by decide⟩, 0) rfl (⟨[97], by decide⟩, 1) (by decide) (by decide)) (by decide)

end MioBroker
