import MioBroker.Genuine
import MioBroker.Scenario

/-!
# What a disconnect hands over

`remove_client` saves the reliable packets of the queue of a persistent client as messages of its
session. The queue may hold packets it cannot read, and several copies of one message.
-/
namespace MioBroker

open Rust

/-- The reliable packets of the queue, in order, are the ones built from `sent`. -/
def Client.Holds (c : Client) (sent : List Queued) : Prop :=
  c.reliablePackets = sent.map fun x => (true, x.encode)

theorem Client.Genuine.holds {c : Client} (genuine : c.Genuine) : ∃ sent, c.Holds sent := by
  have all : ∀ e ∈ c.reliablePackets, ∃ x : Queued, e = (true, x.encode) := by
    rintro ⟨r, pkt⟩ member
    obtain ⟨there, isReliable⟩ := List.mem_filter.mp member
    obtain ⟨x, same⟩ := genuine.queue _ there isReliable
    exact ⟨x, Prod.ext isReliable same⟩
  unfold Client.Holds
  generalize c.reliablePackets = packets at all
  induction packets with
  | nil => exact ⟨[], rfl⟩
  | cons e packets ih =>
    obtain ⟨x, rfl⟩ := all e List.mem_cons_self
    obtain ⟨sent, rfl⟩ := ih fun e member => all e (List.mem_cons_of_mem _ member)
    exact ⟨x :: sent, rfl⟩

namespace PublishCall

/-- The reliable copies a call forwards to one connection. -/
def copies (call : PublishCall) (t : Token) : List (Str × Bytes × UInt8) :=
  ((call.broker.forwards t call.topic call.qos).filter (· ≠ 0)).map fun q =>
    (call.topic, call.payload, q)

/-- They exceed the window or the queue of the connection. -/
def OverflowsAt (call : PublishCall) (t : Token) (c : Client) : Prop :=
  IN_FLIGHT_CAP < c.inFlight.size +
      Client.reliableCount (call.broker.forwards t call.topic call.qos) ∨
    WRITE_QUEUE_CAP < c.reliable +
      Client.reliableCount (call.broker.forwards t call.topic call.qos)

instance (call : PublishCall) (t : Token) (c : Client) : Decidable (call.OverflowsAt t c) :=
  inferInstanceAs (Decidable (_ ∨ _))

end PublishCall

namespace Broker

/-- The first part of `remove_client`. -/
def afterWill (b : Broker) (t : Token) : Run Broker :=
  if !((b.clients.get? t).map Client.cleanDisconnect).getD false then b.publishLwt t else pure b

/-- The queued messages of a session, none if there is no session. -/
def offlineOf (b : Broker) (cid : Str) : List (Str × Bytes × UInt8) :=
  ((b.sessions.get? cid).map SessionState.offline).getD []

/-- The will of the connection costs it its own entry. -/
def WillOverflows (b : Broker) (t : Token) (c : Client) : Prop :=
  ∃ call, b.willCall t = some call ∧ call.OverflowsAt t c

/-- The reliable copies of its will a connection is sent itself and keeps. -/
def ownWill (b : Broker) (t : Token) (c : Client) : List (Str × Bytes × UInt8) :=
  match b.willCall t with
  | some call => if call.OverflowsAt t c then [] else call.copies t
  | none => []

/-- `remove_client` hands over one entry for every message that is queued, as far as the
session has room: those in the queue, in order, and the copies of the client's own will. -/
def Survives (b : Broker) (t : Token) (c : Client) (sent : List Queued) : Prop :=
  ∃ d b', b.afterWill t = .ok d ∧ b.removeClient t = .ok b' ∧
    b'.offlineOf c.clientId = d.offlineOf c.clientId ++
      (Queued.owed sent ++ b.ownWill t c).take (OFFLINE_CAP - (d.offlineOf c.clientId).length)

/-- Every packet of the queue can be read back and none is there twice; when the client's own
will costs it its entry, no message is queued. -/
structure Storable (b : Broker) (t : Token) (c : Client) (sent : List Queued) : Prop where
  short : ¬b.WillOverflows t c → ∀ x ∈ sent, x.Short
  fresh : ¬b.WillOverflows t c → sent.Pairwise fun y x => ¬x.CopyOf y
  will : ∀ m ∈ b.ownWill t c, 4 + m.1.length + m.2.1.length < 128
  spared : b.WillOverflows t c → ∀ x ∈ sent, x.message = none

/-! ### The will -/

theorem removeClient_eq (b : Broker) (t : Token) : b.removeClient t = (do
    let d ← b.afterWill t
    let e ← d.persistSession t
    pure (e.dropClient t).save) := by
  rw [removeClient, afterWill]
  split <;> rfl

theorem afterWill_none {b : Broker} {t : Token} (uncalled : b.willCall t = none) :
    b.afterWill t = .ok b := by
  rw [afterWill]
  split
  next unclean =>
    rw [publishLwt]
    split
    next w set =>
      obtain ⟨c, found, will⟩ := Option.bind_eq_some_iff.mp set
      have flag : c.cleanDisconnect = false := by simpa [found] using unclean
      simp [willCall, found, flag, will] at uncalled
    next => rfl
  next => rfl

theorem afterWill_eq {b : Broker} {t : Token} {call : PublishCall} (called : b.willCall t = some call) :
    call.broker.clients = b.clients ∧ call.broker.sessions = b.sessions ∧ call.broker.subs = b.subs ∧
      call.broker.deliverLog = b.deliverLog ∧
      b.afterWill t = (call.broker.publish call.topic call.payload call.qos call.retain).map Prod.fst := by
  obtain ⟨c, w, found, flag, set, rfl⟩ := willCall_some called
  refine ⟨rfl, rfl, rfl, rfl, ?_⟩
  have there : (b.clients.get? t).bind Client.will = some w := by rw [found]; exact set
  rw [afterWill, found, Option.map_some, Option.getD_some, flag, Bool.not_false, if_pos rfl,
    publishLwt, there]
  simp only
  cases publish { b with willLog := b.willLog ++ [(t, w)] } w.topic w.message w.qos w.retain <;> rfl

theorem afterWill_some {b : Broker} {t : Token} (healthy : b.Healthy) {call : PublishCall}
    (called : b.willCall t = some call) :
    call.broker.clients = b.clients ∧ call.broker.sessions = b.sessions ∧ call.broker.subs = b.subs ∧
      ∃ d, b.afterWill t = .ok d ∧
        Published call.broker d call.topic call.payload call.qos call.retain := by
  have healthy' : call.broker.Healthy := healthy_publishCall healthy (.remove t) called
  obtain ⟨clients, sessions, subs, -, willed⟩ := afterWill_eq called
  obtain ⟨d, n, run, spec⟩ := call.broker.publish_spec healthy'.indexed call.topic call.payload
    call.qos call.retain
  exact ⟨clients, sessions, subs, d, by rw [willed, run]; rfl, spec⟩

/-! ### Reading the queue back -/

/-- The packets and what they are read back as. -/
abbrev ReadBack : List Queued → List (Str × Bytes × UInt8) → Prop :=
  List.Forall₂ fun x m => decodeQueued x.encode = .ok m

theorem readBack_short {sent : List Queued} (short : ∀ x ∈ sent, x.Short) :
    ReadBack sent (sent.filterMap Queued.message) := by
  induction sent with
  | nil => exact .nil
  | cons x sent ih =>
    obtain ⟨m, carried⟩ := Queued.message_of_short (short x (by simp))
    rw [List.filterMap_cons_some carried]
    exact .cons ((x.decode_iff m carried).mpr (short x (by simp)))
      (ih fun y member => short y (by simp [member]))

theorem short_of_readBack {sent : List Queued} (read : ReadBack sent (sent.filterMap Queued.message)) :
    ∀ x ∈ sent, x.Short := by
  induction sent with
  | nil => simp
  | cons x sent ih =>
    cases carried : x.message with
    | none =>
      -- then fewer messages than packets would be read back
      rw [List.filterMap_cons_none carried] at read
      have same := read.length_eq
      have le := List.length_filterMap_le Queued.message sent
      rw [List.length_cons] at same
      omega
    | some m =>
      rw [List.filterMap_cons_some carried] at read
      obtain ⟨first, rest⟩ := List.forall₂_cons.mp read
      exact List.forall_mem_cons.mpr ⟨(x.decode_iff m carried).mp first, ih rest⟩

variable {b d : Broker} {t : Token} {c : Client}

/-- The offline queue behind a removal that read the queue back as `offline`. -/
theorem offlineOf_departed (d : Broker) (t : Token) (c : Client) (offline : List (Str × Bytes × UInt8)) :
    offlineOf (save (dropClient { d with
      sessions := d.sessions.insert c.clientId (d.departure t c offline), dirty := true } t)) c.clientId =
      d.offlineOf c.clientId ++ offline.take (OFFLINE_CAP - (d.offlineOf c.clientId).length) := by
  obtain ⟨_, _, _, saved⟩ := save_frame (dropClient { d with
    sessions := d.sessions.insert c.clientId (d.departure t c offline), dirty := true } t)
  obtain ⟨_, _, dropped⟩ := dropClient_frame { d with
    sessions := d.sessions.insert c.clientId (d.departure t c offline), dirty := true } t
  rw [saved, dropped]
  simp only [offlineOf, HashMap.get?_insert_self, Option.map_some, Option.getD_some, departure]
  rw [foldl_addCapped]
  cases d.sessions.get? c.clientId <;> rfl

/-- What a removal leaves in the session of a persistent client. -/
theorem removeClient_offline (willed : b.afterWill t = .ok d) (found : d.clients.get? t = some c)
    (persistent : c.Persistent) {sent : List Queued} (holds : c.Holds sent)
    (queue : List (Str × Bytes × UInt8)) :
    (∃ b', b.removeClient t = .ok b' ∧ b'.offlineOf c.clientId = queue) ↔
      ∃ offline, ReadBack sent offline ∧ queue = d.offlineOf c.clientId ++
        offline.take (OFFLINE_CAP - (d.offlineOf c.clientId).length) := by
  have stored := d.offlineOf_departed t c
  rw [removeClient_eq, willed, Run.ok_bind, persistSession_persistent found persistent, holds]
  -- What the queue is read back as is fixed entry by entry.
  have read : ∀ offline, ((sent.map fun x => (true, x.encode)).mapM fun e => decodeQueued e.2) =
      .ok offline ↔ ReadBack sent offline := by
    intro offline
    rw [Run.mapM_ok, List.forall₂_map_left_iff]
  constructor
  · rintro ⟨b', removed, rfl⟩
    cases decoded : (sent.map fun x => (true, x.encode)).mapM fun e => decodeQueued e.2 with
    | error e =>
      rw [decoded] at removed
      cases removed
    | ok offline =>
      rw [decoded] at removed
      cases removed
      exact ⟨offline, (read offline).mp decoded, stored offline⟩
  · rintro ⟨offline, readable, rfl⟩
    rw [(read offline).mpr readable]
    exact ⟨_, rfl, stored offline⟩

theorem removeClient_gone (willed : b.afterWill t = .ok d) (gone : d.clients.get? t = none)
    (cid : Str) (queue : List (Str × Bytes × UInt8)) :
    (∃ b', b.removeClient t = .ok b' ∧ b'.offlineOf cid = queue) ↔ queue = d.offlineOf cid := by
  have unkept : d.persistSession t = .ok d :=
    persistSession_other fun c found => by rw [gone] at found; cases found
  obtain ⟨_, _, _, saved⟩ := save_frame (d.dropClient t)
  obtain ⟨_, _, dropped⟩ := d.dropClient_frame t
  have same : (d.dropClient t).save.offlineOf cid = d.offlineOf cid := by
    rw [saved, dropped]
    rfl
  rw [removeClient_eq, willed, Run.ok_bind, unkept, Run.ok_bind, Run.pure_eq]
  constructor
  · rintro ⟨b', removed, rfl⟩
    cases removed
    exact same
  · rintro rfl
    exact ⟨_, rfl, same⟩

end Broker

/-- What the copies of one `publish` add to the queue of a connection. -/
theorem Client.serve_packets {now : Instant} {topic : Str} {payload : Bytes} {qs : List UInt8}
    (coded : ∀ q ∈ qs, q ≤ 3) {c d : Client}
    (served : serve now topic payload qs (some c) = some d) :
    ∃ fs : List Forward,
      d.reliablePackets = c.reliablePackets ++ fs.map (fun f => (true, f.encode)) ∧
      fs.map Forward.message = (qs.filter (· ≠ 0)).map (fun q => (topic, payload, q)) ∧
      ∀ f ∈ fs, f.dup = false := by
  induction qs generalizing c with
  | nil =>
    cases served
    exact ⟨[], by simp, rfl, by simp⟩
  | cons q qs ih =>
    have rest := fun q' member => coded q' (List.mem_cons_of_mem q member)
    simp only [serve] at served
    by_cases unreliable : q = 0
    · subst unreliable
      -- A forward below QoS 1 leaves no reliable packet behind.
      have skipped : ((0 : UInt8) :: qs).filter (· ≠ 0) = qs.filter (· ≠ 0) := by simp
      rw [skipped]
      split at served
      next e queued =>
        obtain ⟨room, -⟩ := offer_qos0_counts c e now topic payload false queued
        rw [offer_qos0_room c now topic payload false room] at queued
        cases queued
        obtain ⟨fs, packets, messages, fresh⟩ := ih rest served
        refine ⟨fs, ?_, messages, fresh⟩
        rw [packets]
        simp [reliablePackets]
      next => exact ih rest served
      next => cases served
    · split at served
      next e queued =>
        obtain ⟨pid, next, queue, -, -, -, rfl, filtered, -⟩ :=
          offer_reliable c e now topic payload q false unreliable queued
        obtain ⟨fs, packets, messages, fresh⟩ := ih rest served
        refine ⟨⟨topic, payload, q, pid, false, false, unreliable, coded q (by simp)⟩ :: fs, ?_, ?_,
          List.forall_mem_cons.mpr ⟨rfl, fresh⟩⟩
        · rw [packets]
          simp only [reliablePackets] at filtered ⊢
          rw [List.filter_append, filtered, List.append_assoc]
          rfl
        · rw [List.map_cons, messages]
          simp [unreliable, Forward.message]
      next refused =>
        exact absurd refused (offer_reliable_ne_refused c now topic payload q false unreliable)
      next => cases served

namespace Broker

variable {b d : Broker} {t : Token} {c : Client}

/-- The connection behind its own will: gone, or with the copies of the will in its queue. -/
theorem afterWill_slot (healthy : b.Healthy) (genuine : b.Genuine) (found : b.clients.get? t = some c) :
    ∃ d, b.afterWill t = .ok d ∧
      (b.WillOverflows t c → d.clients.get? t = none ∧ b.ownWill t c = []) ∧
      (¬b.WillOverflows t c → ∃ (c' : Client) (fs : List Forward),
        d.clients.get? t = some c' ∧ Client.Offered c c' ∧
        c'.reliablePackets = c.reliablePackets ++ fs.map (fun f => (true, f.encode)) ∧
        fs.map Forward.message = b.ownWill t c) := by
  cases called : b.willCall t with
  | none =>
    refine ⟨b, afterWill_none called, fun ⟨call, made, _⟩ => ?_, fun _ => ?_⟩
    · rw [called] at made
      cases made
    · exact ⟨c, [], found, .refl c, by simp, by simp [ownWill, called]⟩
  | some call =>
    obtain ⟨clients, -, -, d, willed, spec⟩ := afterWill_some healthy called
    have healthy' := healthy_publishCall healthy (.remove t) called
    have found' : call.broker.clients.get? t = some c := clients ▸ found
    have capped := healthy.capped t c found
    have slot := spec.slots t
    rw [found'] at slot
    have dropped := Client.serve_eq_none_iff call.broker.now call.topic call.payload
      (call.broker.forwards t call.topic call.qos) c capped.queue capped.window
    -- There is one call to speak of, so the two notions of overflow agree.
    have overflows : b.WillOverflows t c ↔ call.OverflowsAt t c :=
      ⟨fun ⟨_, made, exceeds⟩ => Option.some.inj (called.symm.trans made) ▸ exceeds,
        fun exceeds => ⟨call, called, exceeds⟩⟩
    refine ⟨d, willed, fun exceeds => ?_, fun fits => ?_⟩
    · exact ⟨slot.trans (dropped.mpr (overflows.mp exceeds)),
        by simp [ownWill, called, overflows.mp exceeds]⟩
    · -- Its own will fits, so the departing client ends with the forwards behind its queue.
      have kept : ¬call.OverflowsAt t c := fun exceeds => fits (overflows.mpr exceeds)
      obtain ⟨c', served⟩ := Option.ne_none_iff_exists'.mp fun gone => kept (dropped.mp gone)
      have coded : ∀ q ∈ call.broker.forwards t call.topic call.qos, q ≤ 3 :=
        fun q member => UInt8.le_trans (forwards_le member) (genuine.willCall_qos called)
      obtain ⟨fs, packets, messages, -⟩ := Client.serve_packets coded served
      exact ⟨c', fs, slot.trans served, Client.offered_of_serve _ _ _ _ _ _ served, packets,
        by rw [messages, ownWill, called]; exact (if_neg kept).symm⟩

/-- The client's own will fits: everything depends on how the queue is read back. -/
theorem survives_of_fits (healthy : b.Healthy) (genuine : b.Genuine)
    (found : b.clients.get? t = some c) (persistent : c.Persistent) {sent : List Queued}
    (holds : c.Holds sent) (fits : ¬b.WillOverflows t c) (willed : b.afterWill t = .ok d) :
    ∃ own : List Forward, own.map Forward.message = b.ownWill t c ∧
      (b.Survives t c sent ↔ ∃ offline, ReadBack (sent ++ own.map Queued.publish) offline ∧
        offline.take (OFFLINE_CAP - (d.offlineOf c.clientId).length) =
          (Queued.owed sent ++ b.ownWill t c).take
            (OFFLINE_CAP - (d.offlineOf c.clientId).length)) := by
  obtain ⟨e, willed', -, slot⟩ := afterWill_slot healthy genuine found
  cases willed.symm.trans willed'
  obtain ⟨c', fs, found', offered, packets, messages⟩ := slot fits
  have same : c'.clientId = c.clientId ∧ c'.cleanSession = c.cleanSession := by
    rw [offered.frame]
    exact ⟨rfl, rfl⟩
  have persistent' : c'.Persistent := by
    rw [Client.Persistent, same.1, same.2]
    exact persistent
  -- The forwards of the will join the queue before it is read back.
  have holds' : c'.Holds (sent ++ fs.map Queued.publish) := by
    rw [Client.Holds, packets, holds, List.map_append, List.map_map]
    rfl
  have removed := removeClient_offline willed found' persistent' holds'
  rw [same.1] at removed
  refine ⟨fs, messages, ?_, ?_⟩
  · rintro ⟨d', b', willed', done, stored⟩
    cases willed.symm.trans willed'
    obtain ⟨offline, read, same⟩ := (removed _).mp ⟨b', done, stored⟩
    exact ⟨offline, read, (List.append_cancel_left same).symm⟩
  · rintro ⟨offline, read, same⟩
    obtain ⟨b', done, stored⟩ := (removed _).mpr ⟨offline, read, rfl⟩
    exact ⟨d, b', willed, done, by rw [stored, same]⟩

/-- The client is dropped by its own will, and nothing is stored. -/
theorem survives_of_overflow (healthy : b.Healthy) (genuine : b.Genuine)
    (found : b.clients.get? t = some c) (exceeds : b.WillOverflows t c) (willed : b.afterWill t = .ok d)
    (sent : List Queued) :
    b.ownWill t c = [] ∧ (b.Survives t c sent ↔
      (Queued.owed sent).take (OFFLINE_CAP - (d.offlineOf c.clientId).length) = []) := by
  obtain ⟨e, willed', gone, -⟩ := afterWill_slot healthy genuine found
  cases willed.symm.trans willed'
  obtain ⟨absent, uncopied⟩ := gone exceeds
  have removed := removeClient_gone willed absent c.clientId
  refine ⟨uncopied, ?_, fun nothing => ?_⟩
  · rintro ⟨d', b', willed', done, stored⟩
    cases willed.symm.trans willed'
    have same := (removed _).mp ⟨b', done, stored⟩
    rw [uncopied, List.append_nil] at same
    exact List.append_right_eq_self.mp same
  · obtain ⟨b', done, stored⟩ := (removed _).mpr rfl
    refine ⟨d, b', willed, done, ?_⟩
    rw [stored, uncopied, List.append_nil, nothing, List.append_nil]

theorem Storable.survives {sent : List Queued} (storable : b.Storable t c sent) (healthy : b.Healthy)
    (genuine : b.Genuine) (found : b.clients.get? t = some c) (persistent : c.Persistent)
    (holds : c.Holds sent) : b.Survives t c sent := by
  obtain ⟨d, willed, -⟩ := afterWill_slot healthy genuine found
  by_cases exceeds : b.WillOverflows t c
  · refine (survives_of_overflow healthy genuine found exceeds willed sent).2.mpr ?_
    rw [(Queued.owed_eq_nil sent).mpr (storable.spared exceeds), List.take_nil]
  · obtain ⟨own, messages, survives⟩ :=
      survives_of_fits healthy genuine found persistent holds exceeds willed
    have short_own : ∀ x ∈ own.map Queued.publish, x.Short := by
      intro x member
      obtain ⟨f, there, rfl⟩ := List.mem_map.mp member
      exact storable.will f.message (messages ▸ List.mem_map_of_mem there)
    refine survives.mpr ⟨(sent ++ own.map Queued.publish).filterMap Queued.message,
      readBack_short fun x member => ?_, ?_⟩
    · exact (List.mem_append.mp member).elim (storable.short exceeds x) (short_own x)
    · rw [List.filterMap_append, Queued.filterMap_publish, messages, Queued.owed,
        Queued.distinct_of_pairwise (storable.fresh exceeds)]

/-- With room for all, what survives was storable. -/
theorem storable_of_survives {sent : List Queued} (survived : b.Survives t c sent) (healthy : b.Healthy)
    (genuine : b.Genuine) (found : b.clients.get? t = some c) (persistent : c.Persistent)
    (holds : c.Holds sent) (willed : b.afterWill t = .ok d)
    (room : (d.offlineOf c.clientId).length + sent.length + (b.ownWill t c).length ≤ OFFLINE_CAP) :
    b.Storable t c sent := by
  have few := Queued.length_owed_le sent
  by_cases exceeds : b.WillOverflows t c
  · obtain ⟨uncopied, survives⟩ := survives_of_overflow healthy genuine found exceeds willed sent
    have empty := survives.mp survived
    rw [List.take_of_length_le (by omega)] at empty
    exact ⟨fun fits => absurd exceeds fits, fun fits => absurd exceeds fits,
      by rw [uncopied]; simp, fun _ => (Queued.owed_eq_nil sent).mp empty⟩
  · obtain ⟨own, messages, survives⟩ :=
      survives_of_fits healthy genuine found persistent holds exceeds willed
    have length : own.length = (b.ownWill t c).length := by rw [← messages, List.length_map]
    obtain ⟨offline, read, same⟩ := survives.mp survived
    have count := read.length_eq
    rw [List.length_append, List.length_map] at count
    rw [List.take_of_length_le (by omega),
      List.take_of_length_le (by rw [List.length_append]; omega)] at same
    subst same
    -- as many messages are stored as there are packets, so every packet is one of its own
    rw [List.length_append] at count
    have full : sent.length = (Queued.owed sent).length := by omega
    have all := Nat.le_antisymm (Queued.length_distinct_le [] sent)
      (Nat.le_trans (Nat.le_of_eq full) (List.length_filterMap_le _ _))
    have fresh := ((Queued.distinct_eq_self [] sent).mp all).2
    rw [Queued.owed, Queued.distinct_of_pairwise fresh, ← messages, ← Queued.filterMap_publish,
      ← List.filterMap_append] at read
    have short := short_of_readBack read
    refine ⟨fun _ x member => short x (List.mem_append_left _ member), fun _ => fresh,
      fun m member => ?_, fun full => absurd full exceeds⟩
    rw [← messages] at member
    obtain ⟨f, there, rfl⟩ := List.mem_map.mp member
    exact short (.publish f) (List.mem_append_right _ (List.mem_map_of_mem there))

end Broker

/-- In every reachable state: the queue of a persistent client holds packets built by
`build_forward` and PUBRELs. `remove_client` hands over one entry for every message queued when
every packet is short and none is a copy, and, with room for all, only then. -/
theorem handover_iff (s : Loop) (reached : s.Reachable) (t : Token) (c : Client)
    (found : s.broker.clients.get? t = some c) (persistent : c.Persistent) :
    (∃ sent, c.Holds sent) ∧ ∀ sent, c.Holds sent →
      (s.broker.Storable t c sent → s.broker.Survives t c sent) ∧
      ((∀ d, s.broker.afterWill t = .ok d → (d.offlineOf c.clientId).length + sent.length +
          (s.broker.ownWill t c).length ≤ OFFLINE_CAP) →
        s.broker.Survives t c sent → s.broker.Storable t c sent) := by
  have genuine := reached.genuine
  have healthy := genuine.healthy
  refine ⟨(genuine.broker.clients t c found).holds, fun sent holds => ?_⟩
  obtain ⟨d, willed, -⟩ := Broker.afterWill_slot healthy genuine.broker found
  constructor
  · intro storable
    exact storable.survives healthy genuine.broker found persistent holds
  · intro room survived
    exact Broker.storable_of_survives survived healthy genuine.broker found persistent holds willed
      (room d willed)

/-- Client `a` connects, subscribes to `t` at QoS 1, publishes a QoS 1 message of `n` bytes to `t`
and disconnects, all in one chunk; `rem` is the remaining length of its PUBLISH. -/
def parting (rem : Bytes) (n : Nat) : List Io :=
  [Io.listen, .connection] ++ List.replicate 3 Io.quiet ++
    [Io.read (connectBytes 0 97 ++ [0x82, 6, 0, 1, 0, 1, 116, 1] ++
      (0x32 :: rem ++ [0, 1, 116, 0, 1] ++ List.replicate n 120) ++ [0xe0, 0])] ++
    List.replicate 4 Io.quiet

/-- The PUBLISH of one byte to `t` as it is forwarded. -/
def forwardX : Forward :=
  ⟨.fromUtf8Lossy [116], [120], 1, 1, false, false, by decide, by decide⟩

theorem handover_iff_parting : ∃ (s : Loop) (c : Client), s.broker.clients.get? 1 = some c ∧
    s.broker.Survives 1 c [.publish forwardX] := by
  obtain ⟨s, done, checked⟩ := Loop.exists_after (parting [6] 1) (fun s =>
    (s.broker.willCall 1).isNone && (s.broker.clients.get? 1).any fun c : Client =>
      decide (c.Persistent ∧ c.reliablePackets = [(true, forwardX.encode)])) (by decide +kernel)
  simp only [Bool.and_eq_true, Option.any_eq_true, decide_eq_true_eq, Option.isNone_iff_eq_none]
    at checked
  obtain ⟨unwilled, c, found, persistent, holds⟩ := checked
  refine ⟨s, c, found, ?_⟩
  refine ((handover_iff s (Loop.after_reachable done) 1 c found persistent).2 [.publish forwardX]
    holds).1 ?_
  have fits : ¬s.broker.WillOverflows 1 c := by
    rintro ⟨call, made, -⟩
    rw [unwilled] at made
    cases made
  refine ⟨fun _ => by decide, fun _ => List.pairwise_singleton _ _, ?_, fun full => absurd full fits⟩
  simp [Broker.ownWill, unwilled]

/-- With a message of 126 bytes the length of the forwarded PUBLISH takes two bytes. -/
theorem handover_fails :
    ¬∀ s : Loop, s.Reachable → ∀ t c, s.broker.clients.get? t = some c → c.Persistent →
      ∀ sent, c.Holds sent → s.broker.Survives t c sent := by
  intro claim
  obtain ⟨s, done, checked⟩ := Loop.exists_after (parting [0x83, 1] 126) (fun s =>
    (match s.broker.removeClient 1 with
      | .error _ => true
      | .ok _ => false) && (s.broker.clients.get? 1).any fun c : Client => decide c.Persistent)
    (by decide +kernel)
  simp only [Bool.and_eq_true, Option.any_eq_true, decide_eq_true_eq] at checked
  obtain ⟨panicked, c, found, persistent⟩ := checked
  have reached := Loop.after_reachable done
  obtain ⟨sent, holds⟩ := (reached.genuine.broker.clients 1 c found).holds
  obtain ⟨-, b', -, removed, -⟩ := claim s reached 1 c found persistent sent holds
  rw [removed] at panicked
  cases panicked

end MioBroker
