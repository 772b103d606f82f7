import MioBroker.Codec
import MioBroker.Handover

/-!
# What a restart brings back

The state file limits lengths and counts to 16 bits and refuses QoS 3, and the broker does not.
As long as nothing beyond these limits is put into the tables, what is saved is what is loaded.
-/
namespace MioBroker

open Rust

/-- The removal an operation contains: the state `remove_client` starts in, and whom it removes. -/
def Op.removal (b : Broker) : Op → Option (Broker × Token)
  | .remove t => some (b, t)
  | .flush t ws =>
    match b.clients.get? t with
    | some c =>
      if (c.writeLoop ws).2 = .dead then
        some ({ b with clients := b.clients.insert t (c.writeLoop ws).1 }, t)
      else none
    | none => none
  | _ => none

/-- What a call of `publish` puts into the tables fits the file. -/
structure PublishCall.Fits (call : PublishCall) : Prop where
  retained : call.retain = true → call.payload.isEmpty = false →
    Message.Fits call.topic call.payload call.qos ∧
      (call.broker.retained.contains call.topic = false → call.broker.retained.size < 65535)
  offline : ∀ cid sess sub, call.qos > 0 → call.broker.sessions.get? cid = some sess →
    Broker.firstMatch sess.subs call.topic = some sub → sess.offline.length < OFFLINE_CAP →
    Message.Fits call.topic call.payload (min call.qos sub.2)

namespace Broker

/-- The subscriptions of a session, none if there is no session. -/
def sessionSubs (b : Broker) (cid : Str) : List (Str × UInt8) :=
  ((b.sessions.get? cid).map SessionState.subs).getD []

/-- What `remove_client` reads back from a packet fits the file. -/
def PacketFits (pkt : Bytes) : Prop :=
  ∀ m, decodeQueued pkt = .ok m → Message.Fits m.1 m.2.1 m.2.2

/-- The session of a persistent client that leaves now fits the file. -/
structure EntryFits (b : Broker) (t : Token) (c : Client) : Prop where
  cid : c.clientId.length ≤ 65535
  count : b.sessions.contains c.clientId = false → b.sessions.size < 65535
  subs : ∀ sub ∈ b.subsOf t, sub.1.length ≤ 65535 ∧ sub.2 ≤ 2
  subCount : ((b.subsOf t).foldl addMissing (b.sessionSubs c.clientId)).length ≤ 65535
  queue : ∀ e ∈ c.reliablePackets.take (OFFLINE_CAP - (b.offlineOf c.clientId).length),
    PacketFits e.2

/-- The session `remove_client` stores for a persistent client, after its own will, fits the
file. -/
structure DepartureFits (b : Broker) (t : Token) (c : Client) : Prop where
  entry : b.EntryFits t c
  will : ∀ call, b.willCall t = some call → ¬call.OverflowsAt t c →
    ∀ m ∈ call.copies t, ∀ pid, PacketFits (buildForward m.1.bytes m.2.1 m.2.2 (some pid) false false)

end Broker

/-- Everything an operation puts into the tables fits the file. -/
structure Op.Fits (b : Broker) (op : Op) : Prop where
  published : ∀ call, op.publishCall b = some call → call.Fits
  removed : ∀ d t c, op.removal b = some (d, t) → d.clients.get? t = some c → c.Persistent →
    d.DepartureFits t c

namespace Broker

/-- The tables fit the file, and the offline queues are within their cap. -/
structure Restorable (b : Broker) : Prop where
  fits : StateFits b.retained b.sessions
  capped : ∀ cid sess, b.sessions.get? cid = some sess → sess.offline.length ≤ OFFLINE_CAP

variable {b b' : Broker} {t : Token} {c : Client}

theorem Restorable.of_tables (restorable : b.Restorable) (retained : b'.retained = b.retained)
    (sessions : b'.sessions = b.sessions) : b'.Restorable := by
  constructor
  · rw [retained, sessions]
    exact restorable.fits
  · rw [sessions]
    exact restorable.capped

/-! ### Publishing -/

theorem length_addCapped (offline : List (Str × Bytes × UInt8)) (m : Str × Bytes × UInt8)
    (capped : offline.length ≤ OFFLINE_CAP) : (addCapped offline m).length ≤ OFFLINE_CAP := by
  simp only [addCapped]
  split
  next room =>
    rw [List.length_append, List.length_singleton]
    omega
  next => exact capped

theorem length_offline_enqueue (sess : SessionState) (topic : Str) (payload : Bytes) (srcQos : UInt8) :
    sess.offline.length ≤ (sess.enqueue topic payload srcQos).offline.length := by
  simp only [SessionState.enqueue, SessionState.push, addCapped]
  split
  · split <;> simp
  · exact Nat.le_refl _

/-- A message queued for a stored session. -/
theorem enqueue_fits {cid : Str} {sess : SessionState} {topic : Str} {payload : Bytes}
    {srcQos : UInt8} (fits : sess.Fits cid) (capped : sess.offline.length ≤ OFFLINE_CAP)
    (message : ∀ sub, firstMatch sess.subs topic = some sub → sess.offline.length < OFFLINE_CAP →
      Message.Fits topic payload (min srcQos sub.2)) :
    (sess.enqueue topic payload srcQos).Fits cid ∧
      (sess.enqueue topic payload srcQos).offline.length ≤ OFFLINE_CAP := by
  simp only [SessionState.enqueue]
  split
  next sub matched =>
    have within := length_addCapped sess.offline (topic, payload, min srcQos sub.2) capped
    refine ⟨⟨fits.cid, fits.subCount, fits.subs, Nat.le_trans within (by decide), ?_⟩, within⟩
    simp only [SessionState.push, addCapped]
    split
    -- The backlog takes the message only below its cap; a full one is left as it is.
    next room =>
      intro m member
      rcases List.mem_append.mp member with old | new
      · exact fits.offline m old
      · rw [List.mem_singleton] at new
        subst new
        exact message sub matched room
    next => exact fits.offline
  next => exact ⟨fits, capped⟩

theorem storeRetained_fits (topic : Str) (payload : Bytes) (srcQos : UInt8) (retain : Bool)
    {sessions : HashMap Str SessionState} (fits : StateFits b.retained sessions)
    (message : retain = true → payload.isEmpty = false → Message.Fits topic payload srcQos ∧
      (b.retained.contains topic = false → b.retained.size < 65535)) :
    StateFits (b.storeRetained topic payload srcQos retain).retained sessions := by
  simp only [storeRetained]
  split
  next retained =>
    split
    · -- An empty payload clears the topic, which can only shrink the table.
      refine ⟨Nat.le_trans (HashMap.size_erase_le _ _) fits.retainedCount, fun k p q found => ?_,
        fits.sessionCount, fits.sessions⟩
      rw [HashMap.get?_erase] at found
      split at found
      · cases found
      · exact fits.retained k p q found
    -- A topic that is already there is overwritten, so only a new one needs room.
    next full =>
      obtain ⟨legal, room⟩ := message retained (by simpa using full)
      refine ⟨HashMap.size_insert_le _ fits.retainedCount room, fun k p q found => ?_,
        fits.sessionCount, fits.sessions⟩
      rw [HashMap.get?_insert] at found
      split at found
      next same =>
        cases found
        exact same ▸ legal
      next => exact fits.retained k p q found
  next => exact fits

theorem Restorable.publish {topic : Str} {payload : Bytes} {qos : UInt8} {retain : Bool}
    (restorable : b.Restorable) (spec : Published b b' topic payload qos retain)
    (call : PublishCall.Fits ⟨b, topic, payload, qos, retain⟩) : b'.Restorable := by
  -- A publish makes no session: it only adds to the backlog of those there are.
  have origin : ∀ cid sess, b'.sessions.get? cid = some sess → ∃ before,
      b.sessions.get? cid = some before ∧ sess.Fits cid ∧ sess.offline.length ≤ OFFLINE_CAP := by
    intro cid sess found
    rw [spec.sessions cid] at found
    split at found
    next reliable =>
      obtain ⟨before, there, rfl⟩ := Option.map_eq_some_iff.mp found
      exact ⟨before, there, enqueue_fits (restorable.fits.sessions cid before there)
        (restorable.capped cid before there)
        fun sub matched room => call.offline cid before sub reliable there matched room⟩
    next => exact ⟨sess, found, restorable.fits.sessions cid sess found, restorable.capped cid sess found⟩
  have stored := storeRetained_fits topic payload qos retain restorable.fits call.retained
  rw [← spec.retained] at stored
  refine ⟨⟨stored.retainedCount, stored.retained, ?_, fun cid sess found => ?_⟩, fun cid sess found => ?_⟩
  · refine Nat.le_trans (HashMap.size_le_of_keys fun cid sess found => ?_) restorable.fits.sessionCount
    obtain ⟨before, there, -⟩ := origin cid sess found
    exact ⟨before, there⟩
  · exact (origin cid sess found).choose_spec.2.1
  · exact (origin cid sess found).choose_spec.2.2

/-! ### Leaving -/

/-- Subscriptions are added once each, behind those that were there. -/
theorem foldl_addMissing (l old : List (Str × UInt8)) :
    ∃ new, l.foldl addMissing old = old ++ new ∧ new.Nodup ∧ ∀ s, s ∈ new ↔ s ∈ l ∧ s ∉ old := by
  induction l generalizing old with
  | nil => exact ⟨[], by simp, List.nodup_nil, by simp⟩
  | cons a l ih =>
    rw [List.foldl_cons, addMissing]
    split
    -- What the session already holds is skipped.
    next there =>
      have inside : a ∈ old := List.contains_iff_mem.mp there
      obtain ⟨new, same, distinct, members⟩ := ih old
      refine ⟨new, same, distinct, fun s => (members s).trans ?_⟩
      simp only [List.mem_cons]
      constructor
      · exact fun ⟨member, fresh⟩ => ⟨.inr member, fresh⟩
      · rintro ⟨rfl | member, fresh⟩
        · exact absurd inside fresh
        · exact ⟨member, fresh⟩
    -- A new entry goes to the end, and shadows its later copies in the list.
    next missing =>
      have outside : a ∉ old := fun inside => missing (List.contains_iff_mem.mpr inside)
      obtain ⟨new, same, distinct, members⟩ := ih (old ++ [a])
      refine ⟨a :: new, by rw [same]; simp, List.nodup_cons.mpr ⟨?_, distinct⟩, fun s => ?_⟩
      · simp [members]
      · simp only [List.mem_cons, members, List.mem_append, List.not_mem_nil, or_false, not_or]
        constructor
        · rintro (rfl | ⟨member, fresh, -⟩)
          · exact ⟨.inl rfl, outside⟩
          · exact ⟨.inr member, fresh⟩
        · rintro ⟨rfl | member, fresh⟩
          · exact .inl rfl
          · by_cases same : s = a
            · exact .inl same
            · exact .inr ⟨member, fresh, same⟩

theorem length_foldl_addMissing_le {l l' old : List (Str × UInt8)} (subset : ∀ s ∈ l, s ∈ l') :
    (l.foldl addMissing old).length ≤ (l'.foldl addMissing old).length := by
  obtain ⟨new, same, distinct, members⟩ := foldl_addMissing l old
  obtain ⟨new', same', -, members'⟩ := foldl_addMissing l' old
  have le := (List.subperm_of_subset distinct fun s member =>
    (members' s).mpr ⟨subset s ((members s).mp member).1, ((members s).mp member).2⟩).length_le
  rw [same, same', List.length_append, List.length_append]
  omega

theorem departure_fits (restorable : b.Restorable) (fits : b.EntryFits t c)
    {offline : List (Str × Bytes × UInt8)}
    (read : (c.reliablePackets.mapM fun e => decodeQueued e.2) = .ok offline) :
    (b.departure t c offline).Fits c.clientId ∧
      (b.departure t c offline).offline.length ≤ OFFLINE_CAP := by
  -- With or without a session before, the departure starts from what that held.
  have subs_eq : (b.departure t c offline).subs =
      (b.subsOf t).foldl addMissing (b.sessionSubs c.clientId) := by
    simp only [departure, sessionSubs]
    cases b.sessions.get? c.clientId <;> rfl
  have offline_eq : (b.departure t c offline).offline = b.offlineOf c.clientId ++
      offline.take (OFFLINE_CAP - (b.offlineOf c.clientId).length) := by
    simp only [departure, offlineOf, foldl_addCapped]
    cases b.sessions.get? c.clientId <;> rfl
  have old_subs : ∀ sub ∈ b.sessionSubs c.clientId, sub.1.length ≤ 65535 ∧ sub.2 ≤ 2 := by
    simp only [sessionSubs]
    cases found : b.sessions.get? c.clientId with
    | none => simp
    | some sess => exact (restorable.fits.sessions _ sess found).subs
  have old_offline : (b.offlineOf c.clientId).length ≤ OFFLINE_CAP ∧
      ∀ m ∈ b.offlineOf c.clientId, Message.Fits m.1 m.2.1 m.2.2 := by
    simp only [offlineOf]
    cases found : b.sessions.get? c.clientId with
    | none => simp
    | some sess =>
      exact ⟨restorable.capped _ sess found, (restorable.fits.sessions _ sess found).offline⟩
  -- The backlog is filled from the queue only up to the room that is left in it.
  have within : (b.departure t c offline).offline.length ≤ OFFLINE_CAP := by
    rw [offline_eq, List.length_append, List.length_take]
    have := old_offline.1
    omega
  refine ⟨⟨fits.cid, by rw [subs_eq]; exact fits.subCount, ?_, Nat.le_trans within (by decide), ?_⟩,
    within⟩
  · intro sub member
    obtain ⟨new, same, -, members⟩ := foldl_addMissing (b.subsOf t) (b.sessionSubs c.clientId)
    rw [subs_eq, same] at member
    rcases List.mem_append.mp member with old | added
    · exact old_subs sub old
    · exact fits.subs sub ((members sub).mp added).1
  · intro m member
    rw [offline_eq] at member
    rcases List.mem_append.mp member with old | added
    · exact old_offline.2 m old
    · obtain ⟨e, there, decoded⟩ := Run.mem_take_mapM read added
      exact fits.queue e there m decoded

end Broker

/-- What the forwards of one `publish` add to the reliable packets of a connection. -/
theorem Client.serve_reliablePackets {now : Instant} {topic : Str} {payload : Bytes} {qs : List UInt8}
    {c d : Client} (served : serve now topic payload qs (some c) = some d) :
    ∃ new, d.reliablePackets = c.reliablePackets ++ new ∧ ∀ e ∈ new, ∃ q ∈ qs, q ≠ 0 ∧
      ∃ pid, e.2 = buildForward topic.bytes payload q (some pid) false false := by
  refine serve_induction (fun f => ∃ new, f.reliablePackets = c.reliablePackets ++ new ∧
      ∀ e ∈ new, ∃ q ∈ qs, q ≠ 0 ∧
        ∃ pid, e.2 = buildForward topic.bytes payload q (some pid) false false)
    now topic payload qs c d ?_ ⟨[], by simp, by simp⟩ served
  rintro f g q member ⟨new, packets, built⟩ queued
  -- A forward below QoS 1 adds nothing to the reliable packets; any other adds itself.
  by_cases unreliable : q = 0
  · subst unreliable
    obtain ⟨room, -⟩ := offer_qos0_counts f g now topic payload false queued
    rw [offer_qos0_room f now topic payload false room] at queued
    cases queued
    refine ⟨new, ?_, built⟩
    rw [← packets]
    simp [reliablePackets]
  · obtain ⟨pid, next, queue, -, -, -, rfl, filtered, -⟩ :=
      offer_reliable f g now topic payload q false unreliable queued
    refine ⟨new ++ [(true, buildForward topic.bytes payload q (some pid) false false)], ?_,
      fun e there => ?_⟩
    · simp only [reliablePackets] at packets filtered ⊢
      rw [List.filter_append, filtered, packets, List.append_assoc]
      rfl
    · rcases List.mem_append.mp there with old | last
      · exact built e old
      · rw [List.mem_singleton] at last
        subst last
        exact ⟨q, member, unreliable, pid, rfl⟩

namespace Broker

variable {b b' d : Broker} {t : Token} {c : Client}

theorem willCall_broker {call : PublishCall} (called : b.willCall t = some call) :
    ∃ log, call.broker = { b with willLog := log } := by
  obtain ⟨c, w, -, -, -, rfl⟩ := willCall_some called
  exact ⟨_, rfl⟩

/-- The entry of a client that is still there after its own will. -/
theorem DepartureFits.afterWill (healthy : b.Healthy) {call : PublishCall}
    (called : b.willCall t = some call)
    (spec : Published call.broker d call.topic call.payload call.qos call.retain)
    (found : b.clients.get? t = some c) (fits : b.DepartureFits t c) {c' : Client}
    (there : d.clients.get? t = some c') : d.EntryFits t c' := by
  obtain ⟨log, same⟩ := willCall_broker called
  have healthy' := healthy_publishCall healthy (.remove t) called
  have capped := healthy.capped t c found
  have found' : call.broker.clients.get? t = some c := by rw [same]; exact found
  have served := spec.slots t
  rw [there, found'] at served
  have offered := Client.offered_of_serve _ _ _ _ _ _ served.symm
  have cid : c'.clientId = c.clientId := by rw [offered.frame]
  have sessions : ∀ k, d.sessions.get? k = if call.qos > 0 then
      (b.sessions.get? k).map (·.enqueue call.topic call.payload call.qos) else b.sessions.get? k := by
    intro k
    rw [spec.sessions k, same]
  -- Publishing the will opens no session, so the table has the same keys.
  have keys : ∀ k, d.sessions.contains k = b.sessions.contains k := by
    intro k
    simp only [HashMap.contains, sessions k]
    split
    · rw [Option.isSome_map]
    · rfl
  have subs : ∀ s ∈ d.subsOf t, s ∈ b.subsOf t := by
    intro s member
    obtain ⟨sub, inside, rfl⟩ := List.mem_map.mp member
    obtain ⟨inside, own⟩ := List.mem_filter.mp inside
    have before := spec.subperm.subset inside
    rw [same] at before
    exact List.mem_map.mpr ⟨sub, List.mem_filter.mpr ⟨before, own⟩, rfl⟩
  have stored : d.sessionSubs c.clientId = b.sessionSubs c.clientId := by
    simp only [sessionSubs, sessions]
    split
    · cases b.sessions.get? c.clientId with
      | none => rfl
      | some sess => simp
    · rfl
  -- The backlog can only have grown, so less of the queue still fits behind it.
  have longer : (b.offlineOf c.clientId).length ≤ (d.offlineOf c.clientId).length := by
    simp only [offlineOf, sessions]
    split
    · cases b.sessions.get? c.clientId with
      | none => exact Nat.le_refl _
      | some sess => exact length_offline_enqueue sess _ _ _
    · exact Nat.le_refl _
  refine ⟨cid ▸ fits.entry.cid, ?_, fun sub member => fits.entry.subs sub (subs sub member), ?_, ?_⟩
  · intro absent
    rw [keys, cid] at absent
    refine Nat.lt_of_le_of_lt (HashMap.size_le_of_keys fun k v present => ?_) (fits.entry.count absent)
    have member : d.sessions.contains k = true := (HashMap.contains_iff _ _).mpr ⟨v, present⟩
    rw [keys] at member
    exact (HashMap.contains_iff _ _).mp member
  · rw [cid, stored]
    exact Nat.le_trans (length_foldl_addMissing_le subs) fits.entry.subCount
  · -- The queue is what it was and then what the will itself put into it.
    obtain ⟨new, packets, built⟩ := Client.serve_reliablePackets served.symm
    have kept : ¬call.OverflowsAt t c := by
      intro exceeds
      have gone := (Client.serve_eq_none_iff call.broker.now call.topic call.payload
        (call.broker.forwards t call.topic call.qos) c capped.queue capped.window).mpr exceeds
      rw [gone] at served
      cases served
    intro e member
    rw [cid, packets, List.take_append] at member
    rcases List.mem_append.mp member with old | own
    · exact fits.entry.queue e (List.take_subset_take_left _ (by omega) old)
    · obtain ⟨q, forward, reliable, pid, same_packet⟩ := built e (List.mem_of_mem_take own)
      rw [same_packet]
      refine fits.will call called kept (call.topic, call.payload, q) ?_ pid
      exact List.mem_map.mpr ⟨q, List.mem_filter.mpr ⟨forward, by simpa using reliable⟩, rfl⟩

theorem Restorable.persist (restorable : b.Restorable)
    (fits : ∀ c, b.clients.get? t = some c → c.Persistent → b.EntryFits t c)
    (done : b.persistSession t = .ok b') : b'.Restorable := by
  rcases persistSession_ok done with ⟨rfl, -⟩ | ⟨c, offline, found, persistent, read, rfl⟩
  · exact restorable
  · have entry := fits c found persistent
    obtain ⟨legal, within⟩ := departure_fits restorable entry read
    -- Only the entry of the departing client is written.
    refine ⟨⟨restorable.fits.retainedCount, restorable.fits.retained,
      HashMap.size_insert_le _ restorable.fits.sessionCount entry.count, fun cid sess there => ?_⟩,
      fun cid sess there => ?_⟩ <;>
    · rw [HashMap.get?_insert] at there
      split at there
      next same =>
        cases there
        subst same
        first | exact legal | exact within
      next => first
        | exact restorable.fits.sessions cid sess there
        | exact restorable.capped cid sess there

/-- A removal whose will and whose session entry fit. -/
theorem Restorable.remove (restorable : b.Restorable) (healthy : b.Healthy)
    (published : ∀ call, b.willCall t = some call → call.Fits)
    (removed : ∀ c, b.clients.get? t = some c → c.Persistent → b.DepartureFits t c)
    (done : b.removeClient t = .ok b') : b'.Restorable := by
  rw [removeClient_eq] at done
  obtain ⟨d, willed, done⟩ := Run.bind_ok.mp done
  obtain ⟨e, persisted, done⟩ := Run.bind_ok.mp done
  cases done
  have stored : e.Restorable := by
    cases called : b.willCall t with
    | none =>
      cases (afterWill_none called).symm.trans willed
      exact restorable.persist (fun c found persistent => (removed c found persistent).entry) persisted
    | some call =>
      obtain ⟨-, -, -, d', willed', spec⟩ := afterWill_some healthy called
      cases willed'.symm.trans willed
      have fits := published call called
      obtain ⟨log, same⟩ := willCall_broker called
      have before : call.broker.Restorable :=
        restorable.of_tables (by rw [same]) (by rw [same])
      refine (before.publish spec fits).persist (fun c' there persistent => ?_) persisted
      -- a client that is still there was there before, with the same identity
      have served := spec.slots t
      rw [there] at served
      cases found : call.broker.clients.get? t with
      | none => rw [found, Client.serve_none] at served; cases served
      | some c =>
        rw [found] at served
        have offered := Client.offered_of_serve _ _ _ _ _ _ served.symm
        have persistent' : c.Persistent := by
          rw [offered.frame] at persistent
          exact persistent
        rw [same] at found
        exact (removed c found persistent').afterWill healthy called spec found there
  obtain ⟨_, _, _, saved⟩ := save_frame (e.dropClient t)
  obtain ⟨_, _, dropped⟩ := e.dropClient_frame t
  rw [saved, dropped]
  exact ⟨stored.fits, stored.capped⟩

theorem Restorable.act {a : Act} (restorable : b.Restorable) (healthy : b.Healthy)
    (done : a.run b = .ok b') (unpersisted : ∀ t, a ≠ .persist t)
    (calls : ∀ topic payload qos retain, a = .publish topic payload qos retain →
      PublishCall.Fits ⟨b, topic, payload, qos, retain⟩) : b'.Restorable := by
  rcases Act.sessions_cases healthy done with ⟨same, silent⟩ | ⟨topic, payload, qos, retain, rfl, spec⟩ |
    ⟨cid, rfl, erased⟩ | ⟨t, _, _, rfl, -⟩
  · exact restorable.of_tables ((Act.framed healthy done).retained silent) same
  · exact restorable.publish spec (calls _ _ _ _ rfl)
  · have retained := (Act.framed healthy done).retained (by simp)
    -- A clean session erases an entry and leaves the others as they were.
    have left : ∀ k sess, b'.sessions.get? k = some sess → b.sessions.get? k = some sess := by
      intro k sess found
      rw [erased] at found
      split at found
      · cases found
      · exact found
    refine ⟨⟨retained ▸ restorable.fits.retainedCount, retained ▸ restorable.fits.retained, ?_,
      fun k sess found => restorable.fits.sessions k sess (left k sess found)⟩,
      fun k sess found => restorable.capped k sess (left k sess found)⟩
    exact Nat.le_trans (HashMap.size_le_of_keys fun k sess found => ⟨sess, left k sess found⟩)
      restorable.fits.sessionCount
  · exact absurd rfl (unpersisted t)

theorem Restorable.flush {ws : List WriteResult} (restorable : b.Restorable) (healthy : b.Healthy)
    (fits : (Op.flush t ws).Fits b) (done : b.flushWrites t ws = .ok b') : b'.Restorable := by
  simp only [flushWrites] at done
  obtain ⟨c, found, done⟩ := Run.bind_ok.mp done
  replace found := Run.unwrap_ok found
  split at done
  -- A socket that failed under the write takes its client with it, as a removal does.
  next dead =>
    have removal : (Op.flush t ws).removal b =
        some ({ b with clients := b.clients.insert t (c.writeLoop ws).1 }, t) := by
      simp [Op.removal, found, dead]
    have called : (Op.flush t ws).publishCall b =
        { b with clients := b.clients.insert t (c.writeLoop ws).1 }.willCall t := by
      simp [Op.publishCall, found, dead]
    have written : ({ b with clients := b.clients.insert t (c.writeLoop ws).1 } : Broker).Restorable :=
      ⟨restorable.fits, restorable.capped⟩
    have capped := (healthy.capped t c found).change b.now (.write ws)
    refine written.remove ⟨healthy.indexed, healthy.modify t _ capped⟩
      (fun call made => fits.published call (called.trans made))
      (fun d there persistent => fits.removed _ _ d removal there persistent) done
  next alive =>
    cases done
    exact ⟨restorable.fits, restorable.capped⟩

/-- An operation that stores nothing beyond the limits of the file. -/
theorem Restorable.op {op : Op} {out : Outcome} (restorable : b.Restorable) (healthy : b.Healthy)
    (fits : op.Fits b) (done : op.run b = .ok (b', out)) : b'.Restorable := by
  -- Only a removal and a failed flush persist a session; the rest goes act by act.
  by_cases removes : ∃ t, op.permits (.persist t)
  · obtain ⟨t, permitted⟩ := removes
    rcases Op.permits_removal permitted (.inl rfl) with rfl | ⟨ws, rfl⟩
    · obtain ⟨d, removed, done⟩ := Run.bind_ok.mp done
      cases done
      exact restorable.remove healthy fits.published (fun c => fits.removed b t c rfl) removed
    · obtain ⟨d, flushed, done⟩ := Run.bind_ok.mp done
      cases done
      exact restorable.flush healthy fits flushed
  · refine (op.acts healthy done).keeps healthy Broker.Restorable ?_ restorable
    intro s a s' healthy kept ok next
    refine kept.act healthy next ?_ ?_
    · rintro t rfl
      exact removes ⟨t, ok.1⟩
    · rintro topic payload qos retain rfl
      exact fits.published _ ok.2

/-- A new process that finds the saved tables in its state file loads them as they were. -/
def Restores (b : Broker) : Prop :=
  ∀ h now fault, ∃ retained sessions,
    deserializeState h (serializeState b.retained b.sessions) = some (retained, sessions) ∧
    retained.Equiv b.retained ∧ sessions.Equiv b.sessions ∧
    ((new h now ⟨some (serializeState b.retained b.sessions), fault⟩).loadState h).retained = retained ∧
    ((new h now ⟨some (serializeState b.retained b.sessions), fault⟩).loadState h).sessions = sessions

theorem Restorable.restores (restorable : b.Restorable) : b.Restores := by
  intro h now fault
  have read := deserializeState_serialize h restorable.fits
  refine ⟨_, _, read, insertAll_equiv b.retained h.retained, insertAll_equiv b.sessions h.sessions,
    ?_, ?_⟩ <;> simp [loadState, new, read]

theorem restorable_new (h : Hashers) (now : Instant) (fault : Option (Option Bytes)) :
    ((new h now ⟨none, fault⟩).loadState h).Restorable := by
  refine ⟨⟨Nat.zero_le _, ?_, Nat.zero_le _, ?_⟩, ?_⟩ <;> simp [loadState, new]

end Broker

namespace Loop

/-- A process started without a state file. -/
def Blank (s : Loop) : Prop := ∃ h now fault retryAfter, s = init h now ⟨none, fault⟩ retryAfter

/-- In a run in which nothing beyond the limits of the file is stored, every state is one a
restart brings back. -/
theorem restart_restores (start s : Loop) (ios : List Io) (blank : start.Blank)
    (run : RunWith (fun b op => op.Fits b) start ios s) : s.broker.Restores := by
  have both : s.broker.Healthy ∧ s.broker.Restorable := by
    refine Machine.Path.invariant (fun s => s.broker.Healthy ∧ s.broker.Restorable) ?_ run ?_
    · rintro s io t ⟨healthy, restorable⟩ ⟨-, fits⟩ done
      obtain ⟨b, out, ran, rfl⟩ := step_ok.mp done
      exact ⟨healthy.op _ ran, restorable.op healthy fits ran⟩
    · obtain ⟨h, now, fault, retryAfter, rfl⟩ := blank
      exact ⟨Broker.healthy_startup h now ⟨none, fault⟩, Broker.restorable_new h now fault⟩
  exact both.2.restores

end Loop

/-- A check that finds an operation within the limits while no session is stored. -/
def Op.fitsPlainly (b : Broker) (op : Op) : Bool :=
  (op.removal b).isNone && (op.publishCall b).all fun call =>
    call.broker.sessions.isEmpty && decide (call.topic.length ≤ 65535 ∧ call.payload.length ≤ 65535 ∧
      call.qos ≤ 2 ∧ call.broker.retained.size < 65535)

theorem Op.fits_of_plainly {b : Broker} {op : Op} (checked : op.fitsPlainly b = true) : op.Fits b := by
  simp only [fitsPlainly, Bool.and_eq_true, Option.isNone_iff_eq_none] at checked
  obtain ⟨unremoved, published⟩ := checked
  constructor
  · intro call made
    simp only [made, Option.all_some, Bool.and_eq_true, decide_eq_true_eq] at published
    obtain ⟨empty, topic, payload, qos, room⟩ := published
    refine ⟨fun _ _ => ⟨⟨topic, payload, qos⟩, fun _ => room⟩, fun cid sess sub _ found => ?_⟩
    rw [(HashMap.isEmpty_iff _).mp empty cid] at found
    cases found
  · intro d t c removal
    rw [unremoved] at removal
    cases removal

namespace Loop

/-- A connection sends one PUBLISH of `x` to `t` with the retain flag, a packet id and the given
flags. -/
def publishOnce (first : UInt8) : List Io :=
  [Io.listen, .connection] ++ List.replicate 3 Io.quiet ++
    [Io.read [first, 6, 0, 1, 116, 0, 1, 120]] ++ List.replicate 2 Io.quiet

/-- A QoS 1 message is retained and comes back. -/
theorem restart_restores_qos1 : ∃ s : Loop, s.broker.retained.isEmpty = false ∧ s.broker.Restores := by
  have ran : (Machine.runChecked step (fun s io => s.admits io && (s.op io).fitsPlainly s.broker) fresh
      (publishOnce 0x33)).any (fun s => !s.broker.retained.isEmpty) = true := by decide +kernel
  obtain ⟨s, done, stored⟩ := (Option.any_eq_true _ _).mp ran
  refine ⟨s, by simpa using stored, restart_restores fresh s (publishOnce 0x33) ⟨_, _, _, _, rfl⟩ ?_⟩
  refine (Machine.runChecked_path _ _ _ _ _ done).mono fun s io ok => ?_
  obtain ⟨admitted, plainly⟩ := (Bool.and_eq_true _ _).mp ok
  exact ⟨admitted, Op.fits_of_plainly plainly⟩

/-- A retained PUBLISH with QoS bits 3 makes the file unreadable. -/
theorem restart_loses :
    ¬∀ s : Loop, Machine.Reaches step Blank (fun s io => s.admits io = true) s → s.broker.Restores := by
  intro claim
  obtain ⟨s, done, checked⟩ := exists_after (publishOnce 0x37) (fun s =>
    (deserializeState ⟨default, default, default, default⟩
      (serializeState s.broker.retained s.broker.sessions)).isNone) (by decide +kernel)
  have reached : Machine.Reaches step Blank (fun s io => s.admits io = true) s :=
    ⟨fresh, publishOnce 0x37, ⟨_, _, _, _, rfl⟩, after_path done⟩
  obtain ⟨retained, sessions, read, -⟩ := claim s reached ⟨default, default, default, default⟩ 0 none
  rw [read] at checked
  cases checked

end Loop
end MioBroker
