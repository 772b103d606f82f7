import MioBroker.Awaiting
import MioBroker.Handover

/-!
# Where the copies of a message are

A reliable message of a persistent client is in flight at its connection or stored with its
session. Every accepted delivery adds a copy, and no operation takes one away but those that
acknowledge, connect or disconnect.
-/
namespace MioBroker

open Rust

/-- A connection of the persistent client `cid`. -/
def Client.Belongs (c : Client) (cid : Str) : Prop := c.Persistent ∧ c.clientId = cid

instance (c : Client) (cid : Str) : Decidable (c.Belongs cid) := inferInstanceAs (Decidable (_ ∧ _))

/-- The unacknowledged copies of a message in flight at a connection of `cid`. -/
def Client.awaitingFor (c : Client) (cid : Str) (m : Str × Bytes) : Nat :=
  if c.Belongs cid then c.awaiting m else 0

/-- `deliver_to` accepted the message for `cid`, to be sent reliably. -/
def Delivery.Carries (d : Delivery) (cid : Str) (m : Str × Bytes) : Prop :=
  d.clientId = cid ∧ d.cleanSession = false ∧ (d.topic, d.payload) = m ∧ d.qos ≠ 0

instance (d : Delivery) (cid : Str) (m : Str × Bytes) : Decidable (d.Carries cid m) :=
  inferInstanceAs (Decidable (_ ∧ _))

theorem Client.SameIdentity.belongs {c d : Client} (same : SameIdentity c d) (cid : Str) :
    d.Belongs cid ↔ c.Belongs cid := by
  simp only [Belongs, Persistent, same.clientId, same.cleanSession]

theorem Client.SameIdentity.awaitingFor {c d : Client} (same : SameIdentity c d) {m : Str × Bytes}
    (kept : d.awaiting m = c.awaiting m) (cid : Str) : d.awaitingFor cid m = c.awaitingFor cid m := by
  simp only [Client.awaitingFor, same.belongs, kept]

namespace Broker

/-- The copies in flight. -/
def live (b : Broker) (cid : Str) (m : Str × Bytes) : Nat :=
  b.clients.sum fun _ c => c.awaitingFor cid m

/-- The copies in the session. -/
def stored (b : Broker) (cid : Str) (m : Str × Bytes) : Nat := (b.offlineOf cid).countP (isMessage m)

/-- The deliveries `deliver_to` has accepted so far. -/
def accepted (b : Broker) (cid : Str) (m : Str × Bytes) : Nat :=
  b.deliverLog.countP fun d => d.Carries cid m

/-- From `b` to `b'` every accepted delivery has added a copy in flight and no copy was lost; nobody
has become a connection of `cid`, and no session of it has appeared. -/
structure Grows (cid : Str) (m : Str × Bytes) (b b' : Broker) : Prop where
  copies : b.live cid m + b'.accepted cid m ≤ b'.live cid m + b.accepted cid m
  logged : b.accepted cid m ≤ b'.accepted cid m
  stored : b.stored cid m ≤ b'.stored cid m
  members : ∀ t d, b'.clients.get? t = some d → d.Belongs cid →
    ∃ c, b.clients.get? t = some c ∧ c.Belongs cid
  unstored : b.sessions.get? cid = none → b'.sessions.get? cid = none

namespace Grows

variable {cid : Str} {m : Str × Bytes} {b b' b'' : Broker}

theorem trans (first : Grows cid m b b') (second : Grows cid m b' b'') : Grows cid m b b'' := by
  refine ⟨?_, Nat.le_trans first.logged second.logged, Nat.le_trans first.stored second.stored,
    fun t d found belongs => ?_, fun none_there => second.unstored (first.unstored none_there)⟩
  · have one := first.copies
    have two := second.copies
    omega
  · obtain ⟨c, there, belongs⟩ := second.members t d found belongs
    exact first.members t c there belongs

/-- Nothing that counts has changed. -/
theorem same (clients : b'.clients = b.clients) (log : b'.deliverLog = b.deliverLog)
    (sessions : b'.sessions.get? cid = b.sessions.get? cid) : Grows cid m b b' := by
  refine ⟨?_, Nat.le_of_eq (by simp only [accepted, log]), ?_,
    fun t d found belongs => ⟨d, clients ▸ found, belongs⟩, fun none_there => ?_⟩
  · simp only [live, accepted, clients, log]
    exact Nat.le_refl _
  · simp only [Broker.stored, offlineOf, sessions]
    exact Nat.le_refl _
  · rw [sessions, none_there]

theorem refl (b : Broker) : Grows cid m b b := same rfl rfl rfl

end Grows

variable {cid : Str} {m : Str × Bytes} {b b' : Broker} {t : Token}

theorem live_insert (cid : Str) (m : Str × Bytes) {c : Client} (found : b.clients.get? t = some c)
    (d : Client) :
    live { b with clients := b.clients.insert t d } cid m + c.awaitingFor cid m =
      b.live cid m + d.awaitingFor cid m := by
  have more := b.clients.sum_insert t d fun _ c => c.awaitingFor cid m
  rw [HashMap.share_some found] at more
  exact more

theorem live_erase (cid : Str) (m : Str × Bytes) {c : Client} (found : b.clients.get? t = some c) :
    live { b with clients := b.clients.erase t } cid m + c.awaitingFor cid m = b.live cid m := by
  have less := b.clients.sum_erase t fun _ c => c.awaitingFor cid m
  rw [HashMap.share_some found] at less
  exact less

/-- Putting a record of the same identity in place of another. -/
theorem members_insert {c d : Client} (found : b.clients.get? t = some c)
    (same : Client.SameIdentity c d) (k : Token) (e : Client)
    (there : (b.clients.insert t d).get? k = some e) (belongs : e.Belongs cid) :
    ∃ c, b.clients.get? k = some c ∧ c.Belongs cid := by
  rw [HashMap.get?_insert] at there
  split at there
  next own =>
    cases there
    exact ⟨c, own ▸ found, (same.belongs cid).mp belongs⟩
  next => exact ⟨e, there, belongs⟩

/-- A record changes, but neither its identity nor the copies in flight. -/
theorem modify_grows {c d : Client} (found : b.clients.get? t = some c)
    (same : Client.SameIdentity c d) (kept : d.awaiting m = c.awaiting m) :
    Grows cid m b { b with clients := b.clients.insert t d } := by
  have counts := live_insert cid m found d
  rw [same.awaitingFor kept cid] at counts
  refine ⟨?_, Nat.le_refl _, Nat.le_refl _, members_insert found same, id⟩
  rw [Nat.add_right_cancel counts]
  exact Nat.le_refl _

/-- The record of somebody else changes. -/
theorem modify_foreign {c d : Client} (found : b.clients.get? t = some c) (before : ¬c.Belongs cid)
    (after : ¬d.Belongs cid) : Grows cid m b { b with clients := b.clients.insert t d } := by
  have counts := live_insert cid m found d
  simp only [Client.awaitingFor, if_neg before, if_neg after, Nat.add_zero] at counts
  refine ⟨?_, Nat.le_refl _, Nat.le_refl _, fun k e there belongs => ?_, id⟩
  · rw [counts]
    exact Nat.le_refl _
  · rw [HashMap.get?_insert] at there
    split at there
    · cases there
      exact absurd belongs after
    · exact ⟨e, there, belongs⟩

/-- The connection `t` is not one of `cid`, or it survives in `b'`. -/
def Spared (cid : Str) (b b' : Broker) : Prop :=
  ∀ t c, b.clients.get? t = some c → c.Belongs cid → b'.clients.get? t ≠ none

/-- A delivery that does not drop a connection of `cid`. -/
theorem deliverTo_grows (nonempty : cid.isEmpty = false) (topic : Str) (payload : Bytes) (qos : UInt8)
    (retain : Bool) (spared : Spared cid b (b.deliverTo t topic payload qos retain).1) :
    Grows cid m b (b.deliverTo t topic payload qos retain).1 := by
  cases found : b.clients.get? t with
  | none =>
    rw [deliverTo_absent b t topic payload qos retain found]
    exact .refl b
  | some c =>
    cases result : c.offer b.now topic payload qos retain with
    | queued d =>
      rw [deliverTo_queued b t topic payload qos retain c d found result]
      simp only
      have same := (Client.offered_of_offer c d _ _ _ _ _ result).sameIdentity
      have counts := live_insert cid m found d
      have waits := Client.awaiting_offer result m
      have belongs := same.belongs cid
      have logged : accepted { b with
          clients := b.clients.insert t d
          sysPubSent := b.sysPubSent + 1
          deliverLog := b.deliverLog ++ [d.delivery topic payload qos] } cid m =
          b.accepted cid m + if (d.delivery topic payload qos).Carries cid m then 1 else 0 := by
        simp [accepted, List.countP_append, List.countP_singleton]
      refine ⟨?_, logged ▸ Nat.le_add_right _ _, Nat.le_refl _, members_insert found same, id⟩
      rw [logged]
      have copied : c.awaitingFor cid m + (if (d.delivery topic payload qos).Carries cid m then 1 else 0) ≤
          d.awaitingFor cid m := by
        by_cases own : c.Belongs cid
        · simp only [Client.awaitingFor, if_pos own, if_pos (belongs.mpr own)]
          refine Nat.le_trans (Nat.add_le_add_left ?_ _) waits
          split
          next carries => rw [if_pos ⟨carries.2.2.1, carries.2.2.2⟩]
          next => exact Nat.zero_le _
        · -- a delivery to somebody else is logged under another id, or as one of a clean session
          have other : ¬(d.delivery topic payload qos).Carries cid m := by
            rintro ⟨id, persistent, -⟩
            refine own (belongs.mp ⟨⟨persistent, ?_⟩, id⟩)
            rw [show d.clientId = cid from id]
            exact nonempty
          simp only [Client.awaitingFor, if_neg own, if_neg other]
          exact Nat.zero_le _
      have counts' : live { b with
          clients := b.clients.insert t d
          sysPubSent := b.sysPubSent + 1
          deliverLog := b.deliverLog ++ [d.delivery topic payload qos] } cid m + c.awaitingFor cid m =
          b.live cid m + d.awaitingFor cid m := counts
      omega
    | refused =>
      rw [deliverTo_refused b t topic payload qos retain c found result]
      exact .refl b
    | dropped =>
      rw [deliverTo_dropped b t topic payload qos retain c found result] at spared ⊢
      have other : ¬c.Belongs cid := fun belongs =>
        spared t c found belongs (HashMap.get?_erase_self _ _)
      have counts := live_erase cid m found
      rw [Client.awaitingFor, if_neg other, Nat.add_zero] at counts
      refine ⟨?_, Nat.le_refl _, Nat.le_refl _, fun k e there belongs => ?_, id⟩
      · rw [counts]
        exact Nat.le_refl _
      · rw [HashMap.get?_erase] at there
        split at there
        · cases there
        · exact ⟨e, there, belongs⟩

/-! ### One call of `publish` -/

/-- A connection that is gone is not served again. -/
theorem deliverAll_absent {topic : Str} {payload : Bytes} {srcQos : UInt8} {idxs : List Nat}
    {delivered dead : Nat} {n : Nat × Nat}
    (done : deliverAll topic payload srcQos idxs b delivered dead = .ok (b', n))
    (gone : b.clients.get? t = none) : b'.clients.get? t = none := by
  induction idxs generalizing b delivered dead with
  | nil =>
    cases done
    exact gone
  | cons i idxs ih =>
    obtain ⟨s, -, done⟩ := Run.bind_ok.mp done
    -- A delivery makes no client, under whichever token it goes.
    have still : ∀ k, (b.deliverTo k topic payload (min srcQos s.qos) false).1.clients.get? t = none := by
      intro k
      by_cases own : t = k
      · rw [← own, deliverTo_absent b t topic payload _ false gone]
        exact gone
      · rw [deliverTo_get?_ne b k t topic payload _ false own]
        exact gone
    have here := still s.token
    split at done
    next d same =>
      rw [same] at here
      exact ih done here
    next d same =>
      rw [same] at here
      exact ih (show deliverAll topic payload srcQos idxs { d with subs := swapRemove d.subs i }
        delivered (dead + 1) = .ok (b', n) from done) here

theorem deliverAll_grows (nonempty : cid.isEmpty = false) {topic : Str} {payload : Bytes}
    {srcQos : UInt8} {idxs : List Nat} {delivered dead : Nat} {n : Nat × Nat}
    (done : deliverAll topic payload srcQos idxs b delivered dead = .ok (b', n))
    (spared : Spared cid b b') : Grows cid m b b' := by
  induction idxs generalizing b delivered dead with
  | nil =>
    cases done
    exact .refl _
  | cons i idxs ih =>
    obtain ⟨s, -, done⟩ := Run.bind_ok.mp done
    have grows := fun first => b.deliverTo_grows (t := s.token) (m := m) nonempty topic payload
      (min srcQos s.qos) false first
    -- who is dropped now will not be there in the end
    have rest : ∀ d e : Broker, (Spared cid b d → Grows cid m b d) → Grows cid m d e →
        (∀ k, d.clients.get? k = none → b'.clients.get? k = none) →
        (Spared cid e b' → Grows cid m e b') → Grows cid m b b' := by
      intro d e delivered pruned absent later
      have first := (delivered fun k c found belongs gone =>
        spared k c found belongs (absent k gone)).trans pruned
      refine first.trans (later fun k c found belongs => ?_)
      obtain ⟨f, there, member⟩ := first.members k c found belongs
      exact spared k f there member
    split at done
    next d same =>
      rw [same] at grows
      exact rest d d grows (.refl d) (fun k gone => deliverAll_absent done gone) (ih done)
    next d same =>
      rw [same] at grows
      exact rest d { d with subs := swapRemove d.subs i } grows (.same rfl rfl rfl)
        (fun k gone => deliverAll_absent done gone) (ih done)

/-- Another message for a stored session leaves the others where they are. -/
theorem stored_enqueue (sess : SessionState) (topic : Str) (payload : Bytes) (srcQos : UInt8) :
    sess.offline <+: (sess.enqueue topic payload srcQos).offline := by
  simp only [SessionState.enqueue]
  split
  · simp only [SessionState.push, addCapped]
    split
    · exact List.prefix_append _ _
    · exact List.prefix_refl _
  · exact List.prefix_refl _

/-- Sessions change by one more message at most. -/
theorem grows_of_enqueue (topic : Str) (payload : Bytes) (srcQos : UInt8)
    (clients : b'.clients = b.clients) (log : b'.deliverLog = b.deliverLog)
    (sessions : b'.sessions.get? cid = b.sessions.get? cid ∨
      b'.sessions.get? cid = (b.sessions.get? cid).map (·.enqueue topic payload srcQos)) :
    Grows cid m b b' := by
  rcases sessions with kept | enqueued
  · exact .same clients log kept
  · refine ⟨?_, Nat.le_of_eq (by simp only [accepted, log]), ?_,
      fun t d found belongs => ⟨d, clients ▸ found, belongs⟩, fun none_there => ?_⟩
    · simp only [live, accepted, clients, log]
      exact Nat.le_refl _
    · simp only [Broker.stored, offlineOf, enqueued]
      cases b.sessions.get? cid with
      | none => exact Nat.le_refl _
      | some sess => exact (stored_enqueue sess topic payload srcQos).sublist.countP_le
    · rw [enqueued, none_there]
      rfl

theorem publish_grows (nonempty : cid.isEmpty = false) {topic : Str} {payload : Bytes} {srcQos : UInt8}
    {retain : Bool} {n : Nat × Nat} (done : b.publish topic payload srcQos retain = .ok (b', n))
    (spared : Spared cid b b') : Grows cid m b b' := by
  obtain ⟨retained, dirty, stored⟩ := b.storeRetained_frame topic payload srcQos retain
  -- Storing the message leaves clients, sessions and the log alone.
  have first : Grows cid m b (b.storeRetained topic payload srcQos retain) := by
    apply Grows.same <;> rw [stored]
  simp only [publish] at done
  split at done
  · cases done
    exact first
  · obtain ⟨⟨d, delivered⟩, live, done⟩ := Run.bind_ok.mp done
    cases done
    obtain ⟨_, _, offline⟩ := d.storeOffline_frame topic payload srcQos
    -- The backlog of the session can only grow.
    have last : Grows cid m d (d.storeOffline topic payload srcQos) := by
      refine grows_of_enqueue topic payload srcQos (by rw [offline]) (by rw [offline]) ?_
      by_cases reliable : srcQos > 0
      · exact .inr (d.storeOffline_get? topic payload srcQos reliable cid)
      · refine .inl ?_
        rw [storeOffline, if_neg reliable]
    refine first.trans (Grows.trans ?_ last)
    obtain ⟨idxs, -, live⟩ := Run.bind_ok.mp live
    obtain ⟨⟨e, count, dead⟩, all, live⟩ := Run.bind_ok.mp live
    cases live
    -- Rebuilding the index after a pruning touches none of the three either.
    have same : ∀ (dead : Nat), Grows cid m e (if dead > 0 then
        rebuildIndex { e with deadPruned := e.deadPruned + dead }
        else { e with deadPruned := e.deadPruned + dead }) := by
      intro dead
      split
      · apply Grows.same <;> rw [rebuildIndex_frame]
      · exact .same rfl rfl rfl
    refine (deliverAll_grows nonempty all fun k c found belongs gone => ?_).trans (same dead)
    rw [stored] at found
    refine spared k c found belongs ?_
    rw [offline]
    simp only
    split
    · rw [rebuildIndex_frame]
      exact gone
    · exact gone

/-! ### Acts -/

/-- A delivery drops its receiver only. -/
theorem spared_deliver {topic : Str} {payload : Bytes} {qos : UInt8} {retain : Bool}
    (kept : ∀ c, b.clients.get? t = some c → c.Belongs cid →
      c.offer b.now topic payload qos retain ≠ .dropped) :
    Spared cid b (b.deliverTo t topic payload qos retain).1 := by
  intro k c found belongs gone
  by_cases own : k = t
  · subst own
    cases result : c.offer b.now topic payload qos retain with
    | queued d =>
      rw [deliverTo_queued b k topic payload qos retain c d found result] at gone
      simp at gone
    | refused =>
      rw [deliverTo_refused b k topic payload qos retain c found result] at gone
      cases found.symm.trans gone
    | dropped => exact kept c found belongs result
  · rw [deliverTo_get?_ne b t k topic payload qos retain own] at gone
    cases found.symm.trans gone

/-- A call that overflows no connection of `cid` drops none. -/
theorem spared_publish (healthy : b.Healthy) {topic : Str} {payload : Bytes} {qos : UInt8} {retain : Bool}
    {n : Nat × Nat} (done : b.publish topic payload qos retain = .ok (b', n))
    (fits : ∀ t c, b.clients.get? t = some c → c.Belongs cid →
      ¬PublishCall.OverflowsAt ⟨b, topic, payload, qos, retain⟩ t c) : Spared cid b b' := by
  intro t c found belongs gone
  have spec := Broker.publish_ok healthy.indexed done
  have capped := healthy.capped t c found
  rw [spec.slots, found] at gone
  exact fits t c found belongs
    ((Client.serve_eq_none_iff _ _ _ _ c capped.queue capped.window).mp gone)

end Broker

/-- Nobody becomes a connection of `cid` but by its CONNECT. -/
theorem Change.foreign {c : Client} {ch : Change} {cid : Str} (now : Instant) (before : ¬c.Belongs cid)
    (elsewhere : ∀ q, ch = .connect q → q.cid ≠ cid) : ¬(ch.apply now c).Belongs cid := by
  by_cases connects : ∃ q, ch = .connect q
  · obtain ⟨q, rfl⟩ := connects
    rintro ⟨-, id⟩
    refine elsewhere q rfl (Eq.trans ?_ id)
    rw [Change.apply, Client.applyConnect, Client.reply_frame]
  · have same := Change.sameIdentity now c fun q isConnect => connects ⟨q, isConnect⟩
    exact fun belongs => before ((same.belongs cid).mp belongs)

/-- The connection `t` is not one of `cid`. -/
def Broker.Foreign (cid : Str) (b : Broker) (t : Token) : Prop :=
  ∀ c, b.clients.get? t = some c → ¬c.Belongs cid

/-- Acts that keep every copy. -/
def Act.Keeps (cid : Str) (b : Broker) : Act → Prop
  | .change t ch => (b.Foreign cid t ∧ ∀ q, ch = .connect q → q.cid ≠ cid) ∨
      (∀ q, ch ≠ .connect q) ∧ ∀ c m, ch.settles c m = 0
  | .deliver t topic payload qos retain => ∀ c, b.clients.get? t = some c → c.Belongs cid →
      c.offer b.now topic payload qos retain ≠ .dropped
  | .publish topic payload qos retain => ∀ t c, b.clients.get? t = some c → c.Belongs cid →
      ¬PublishCall.OverflowsAt ⟨b, topic, payload, qos, retain⟩ t c
  | .accept _ _ => b.clients.get? b.nextToken = none
  | .persist t => b.Foreign cid t
  | .drop t => b.Foreign cid t
  | .eraseSession k => k ≠ cid
  | _ => True

theorem Act.grows {a : Act} {b b' : Broker} {cid : Str} {m : Str × Bytes}
    (nonempty : cid.isEmpty = false) (healthy : b.Healthy) (keeps : a.Keeps cid b)
    (done : a.run b = .ok b') :
    Broker.Grows cid m b b' := by
  cases a with
  | change t ch =>
    obtain ⟨c, found, rfl⟩ := Broker.modifyClient_found done
    rcases keeps with ⟨foreign, elsewhere⟩ | ⟨notConnect, unsettled⟩
    · exact Broker.modify_foreign found (foreign c found)
        (Change.foreign b.now (foreign c found) elsewhere)
    · have waits := c.awaiting_change b.now ch m
      rw [unsettled, Nat.add_zero] at waits
      exact Broker.modify_grows found (Change.sameIdentity b.now c notConnect) waits
  | deliver t topic payload qos retain =>
    cases done
    exact b.deliverTo_grows nonempty topic payload qos retain (Broker.spared_deliver keeps)
  | publish topic payload qos retain =>
    obtain ⟨⟨d, n⟩, published, done⟩ := Run.bind_ok.mp done
    cases done
    exact Broker.publish_grows nonempty published (Broker.spared_publish healthy published keeps)
  | addSub filter t qos =>
    cases done
    obtain ⟨_, _, frame⟩ := b.addSub_frame filter t qos
    apply Broker.Grows.same <;> rw [frame]
  | unsubscribe t filters =>
    cases done
    obtain ⟨_, _, frame⟩ := b.unsubscribe_frame t filters
    apply Broker.Grows.same <;> rw [frame]
  | eraseSession k =>
    cases done
    obtain ⟨_, frame⟩ := b.eraseSession_frame k
    refine .same (by rw [frame]) (by rw [frame]) ?_
    rw [b.eraseSession_get?, if_neg (Ne.symm keeps)]
  | accept h₁ h₂ =>
    cases done
    have more := b.clients.sum_insert b.nextToken (.accepted b.nextToken h₁ h₂)
      fun _ c => c.awaitingFor cid m
    -- A fresh record is clean and belongs to no session.
    have clean : ¬(Client.accepted b.nextToken h₁ h₂).Belongs cid := fun belongs => by
      cases belongs.1.1
    rw [HashMap.share_none keeps] at more
    simp only [Client.awaitingFor, if_neg clean, Nat.add_zero] at more
    refine ⟨?_, Nat.le_refl _, Nat.le_refl _, fun t d found belongs => ?_, id⟩
    · have same : (b.accept h₁ h₂).live cid m = b.live cid m := more
      exact Nat.le_of_eq (by rw [same]; rfl)
    · simp only [Broker.accept, HashMap.get?_insert] at found
      split at found
      · cases found
        exact absurd belongs clean
      · exact ⟨d, found, belongs⟩
  | logWill t will =>
    cases done
    exact .same rfl rfl rfl
  | persist t =>
    rcases Broker.persistSession_ok done with ⟨rfl, -⟩ | ⟨c, offline, found, persistent, -, rfl⟩
    · exact .refl _
    · refine .same rfl rfl (HashMap.get?_insert_ne _ _ fun own => ?_)
      exact keeps c found ⟨persistent, own.symm⟩
  | drop t =>
    cases done
    obtain ⟨_, _, frame⟩ := b.dropClient_frame t
    have less := b.clients.sum_erase t fun _ c => c.awaitingFor cid m
    -- Whoever is dropped here was not of this id, so nothing is lost with it.
    have nothing : b.clients.share (fun _ c => c.awaitingFor cid m) t = 0 := by
      cases found : b.clients.get? t with
      | none => exact HashMap.share_none found _
      | some c => rw [HashMap.share_some found, Client.awaitingFor, if_neg (keeps c found)]
    rw [nothing, Nat.add_zero] at less
    rw [frame]
    refine ⟨?_, Nat.le_refl _, Nat.le_refl _, fun k d found belongs => ?_, id⟩
    · exact Nat.le_of_eq (congrArg (· + b.accepted cid m) less.symm)
    · simp only [HashMap.get?_erase] at found
      split at found
      · cases found
      · exact ⟨d, found, belongs⟩
  | account after =>
    cases done
    exact .same rfl rfl rfl

end MioBroker
