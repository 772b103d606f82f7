import MioBroker.Custody
import MioBroker.Resume

/-!
# Leaving and coming back

What a persistent client is owed moves from its window to its session when it leaves, and back
when it returns. A copy that was written to the socket and not acknowledged is in the window
only, and is not moved.
-/
namespace MioBroker

open Rust

/-! ### Leaving -/

namespace Broker

variable {cid : Str} {m : Str × Bytes} {b b' d : Broker} {t : Token} {c : Client} {n : Nat}

/-- A connection can be removed without loss: every copy is in the queue too, and can be read back,
the copies of its own will included. -/
structure Departs (b : Broker) (t : Token) (c : Client) : Prop where
  queued : c.Recoverable
  will : ∀ x ∈ b.ownWill t c, 4 + x.1.length + x.2.1.length < 128

/-- The connection behind its own will. -/
theorem afterWill_departs (nonempty : cid.isEmpty = false) (healthy : b.Healthy) (genuine : b.Genuine)
    (found : b.clients.get? t = some c) (belongs : c.Belongs cid) (departs : b.Departs t c)
    (spared : ∀ call, b.willCall t = some call → ∀ k e, call.broker.clients.get? k = some e →
      e.Belongs cid → ¬call.OverflowsAt k e) (willed : b.afterWill t = .ok d) :
    Grows cid m b d ∧ ∃ e, d.clients.get? t = some e ∧ e.Belongs cid ∧ e.Recoverable ∧ e.Genuine := by
  have own := genuine.clients t c found
  cases called : b.willCall t with
  -- Without a will the client leaves as it was.
  | none =>
    rw [afterWill_none called] at willed
    cases willed
    exact ⟨.refl b, c, found, belongs, departs.queued, own⟩
  | some call =>
    obtain ⟨clients, sessions, -, log, run⟩ := afterWill_eq called
    have healthy' := healthy_publishCall healthy (.remove t) called
    obtain ⟨d', k, published, spec⟩ := call.broker.publish_spec healthy'.indexed call.topic
      call.payload call.qos call.retain
    have same : d' = d := by
      rw [run, published] at willed
      exact Except.ok.inj willed
    subst same
    have fits := spared call called
    refine ⟨(Grows.same clients log (by rw [sessions])).trans
      (publish_grows nonempty published (spared_publish healthy' published fits)), ?_⟩
    have found' : call.broker.clients.get? t = some c := clients ▸ found
    have capped := healthy'.capped t c found'
    -- The departing client is spared by its own will, so it is there to be persisted.
    have room := fits t c found' belongs
    have slot := spec.slots t
    rw [found'] at slot
    obtain ⟨e, served⟩ := Option.ne_none_iff_exists'.mp fun gone =>
      room ((Client.serve_eq_none_iff _ _ _ _ c capped.queue capped.window).mp gone)
    have kept := Client.serve_induction (fun e => e.Recoverable ∧ e.Genuine) call.broker.now call.topic
      call.payload (call.broker.forwards t call.topic call.qos) c e (fun e f q member before queued => ?_)
      ⟨departs.queued, own⟩ served
    · exact ⟨e, slot.trans served,
        ((Client.offered_of_serve _ _ _ _ _ _ served).sameIdentity.belongs cid).mpr belongs, kept⟩
    · -- What the will forwards to its own client is part of what departs.
      have copy : q ≠ 0 → (call.topic, call.payload, q) ∈ b.ownWill t c := by
        intro reliable
        rw [ownWill, called]
        simp only [if_neg room, PublishCall.copies]
        exact List.mem_map.mpr ⟨q, List.mem_filter.mpr ⟨member, by simpa using reliable⟩, rfl⟩
      exact ⟨before.1.offer (fun reliable => departs.will _ (copy reliable)) queued,
        before.2.offer (UInt8.le_trans (forwards_le member) (genuine.willCall_qos called)) queued⟩

/-- A connection of the client that is removed hands over what it is owed, as far as its session has
room. -/
theorem remove_custody (nonempty : cid.isEmpty = false) (healthy : b.Healthy) (genuine : b.Genuine)
    (found : b.clients.get? t = some c) (belongs : c.Belongs cid) (departs : b.Departs t c)
    (spared : ∀ call, b.willCall t = some call → ∀ k e, call.broker.clients.get? k = some e →
      e.Belongs cid → ¬call.OverflowsAt k e) (custody : b.Custody cid m n)
    (done : b.removeClient t = .ok b') :
    Sole cid b' ∧ (OFFLINE_CAP ≤ (b'.offlineOf cid).length ∨
      n + (b'.accepted cid m - b.accepted cid m) ≤ b'.live cid m + b'.stored cid m) := by
  rw [removeClient_eq] at done
  obtain ⟨d, willed, done⟩ := Run.bind_ok.mp done
  obtain ⟨e, persisted, done⟩ := Run.bind_ok.mp done
  cases done
  obtain ⟨grows, f, there, member, recoverable, own⟩ :=
    afterWill_departs (m := m) nonempty healthy genuine found belongs departs spared willed
  obtain ⟨sole, counted⟩ := custody.grows grows
  have unstored := sole.unstored t f there member
  rw [sole.live there member, stored_none unstored, Nat.add_zero] at counted
  rw [persistSession_persistent there member.1] at persisted
  cases decoded : f.reliablePackets.mapM fun e => decodeQueued e.2 with
  | error _ =>
    rw [decoded] at persisted
    cases persisted
  | ok offline =>
    rw [decoded] at persisted
    cases persisted
    -- All that waits in the queue is read back into the backlog.
    have waits := Client.awaiting_le_readBack own recoverable decoded m
    have queue := d.offlineOf_departed t f offline
    rw [member.2] at queue
    obtain ⟨_, _, _, saved⟩ := save_frame (dropClient { d with
      sessions := d.sessions.insert cid (d.departure t f offline), dirty := true } t)
    obtain ⟨_, _, dropped⟩ := dropClient_frame { d with
      sessions := d.sessions.insert cid (d.departure t f offline), dirty := true } t
    have clients : (save (dropClient { d with
        sessions := d.sessions.insert cid (d.departure t f offline), dirty := true } t)).clients =
        d.clients.erase t := by rw [saved, dropped]
    have log : (save (dropClient { d with
        sessions := d.sessions.insert cid (d.departure t f offline), dirty := true } t)).deliverLog =
        d.deliverLog := by rw [saved, dropped]
    rw [member.2]
    generalize save (dropClient { d with
      sessions := d.sessions.insert cid (d.departure t f offline), dirty := true } t) = b' at *
    -- It was the only client of this id, and its slot is erased.
    have gone : ∀ k g, b'.clients.get? k = some g → ¬g.Belongs cid := by
      intro k g here belongs
      rw [clients, HashMap.get?_erase] at here
      split at here
      · cases here
      next other => exact other (sole.one k t g f here there belongs member)
    refine ⟨.of_absent gone, ?_⟩
    have none_before : d.offlineOf cid = [] := by simp [offlineOf, unstored]
    rw [none_before, List.nil_append, List.length_nil, Nat.sub_zero] at queue
    -- A backlog at its cap may have cut messages off; below it none is lost.
    by_cases full : OFFLINE_CAP ≤ offline.length
    · refine .inl ?_
      rw [queue, List.length_take]
      omega
    · refine .inr ?_
      have logged : b'.accepted cid m = d.accepted cid m := by rw [accepted, log, accepted]
      rw [logged, stored, queue, List.take_of_length_le (by omega)]
      omega

end Broker

/-! ### Coming back -/

/-- Deliveries to one connection come to a QoS 0 message that finds the queue full. -/
def stalls : Nat → Nat → Nat → List UInt8 → Bool
  | _, _, _, [] => false
  | window, reliable, queued, qos :: rest =>
    if qos = 0 then
      if queued < WRITE_QUEUE_CAP then stalls window reliable (queued + 1) rest else true
    else if window < IN_FLIGHT_CAP ∧ reliable < WRITE_QUEUE_CAP then
      stalls (window + 1) (reliable + 1) (min WRITE_QUEUE_CAP (queued + 1)) rest
    else false

namespace Client

def stalls (c : Client) (qs : List UInt8) : Bool :=
  MioBroker.stalls c.inFlight.size c.reliable c.writeQueue.length qs

theorem stalls_queued {c d : Client} (capped : c.Capped) (now : Instant) (topic : Str)
    (payload : Bytes) (qos : UInt8) (retain : Bool) (qs : List UInt8)
    (done : c.offer now topic payload qos retain = .queued d) : c.stalls (qos :: qs) = d.stalls qs := by
  by_cases unreliable : qos = 0
  · subst unreliable
    obtain ⟨room, window, reliable, queue⟩ := offer_qos0_counts c d now topic payload retain done
    simp [stalls, MioBroker.stalls, room, window, reliable, queue]
  · obtain ⟨window, reliable, queue⟩ :=
      offer_reliable_counts c d now topic payload qos retain unreliable capped.queue done
    have room := (offer_reliable_iff c now topic payload qos retain unreliable capped.queue).mp ⟨d, done⟩
    simp [stalls, MioBroker.stalls, unreliable, room, window, reliable, queue]

theorem stalls_refused {c : Client} (now : Instant) (topic : Str) (payload : Bytes)
    (qos : UInt8) (retain : Bool) (qs : List UInt8)
    (done : c.offer now topic payload qos retain = .refused) : c.stalls (qos :: qs) = true := by
  have unreliable : qos = 0 := by
    by_contra isReliable
    exact offer_reliable_ne_refused c now topic payload qos retain isReliable done
  subst unreliable
  have full : ¬c.writeQueue.length < WRITE_QUEUE_CAP := fun room => by
    rw [offer_qos0_room c now topic payload retain room] at done
    cases done
  simp [stalls, MioBroker.stalls, full]

end Client

namespace Broker

variable {cid : Str} {m : Str × Bytes} {b b' : Broker} {t : Token} {c : Client}

/-- How direct deliveries end that no refused QoS 0 message stops: all are accepted, or the
connection is dropped. -/
theorem deliverEach_unstalled (retain : Bool) (msgs : List (Str × Bytes × UInt8))
    (found : b.clients.get? t = some c) (capped : c.Capped)
    (flows : c.stalls (msgs.map fun x => x.2.2) = false) :
    ∃ sent e, sent <+: msgs ∧
      e.deliverLog = b.deliverLog ++ sent.map (fun x => c.delivery x.1 x.2.1 x.2.2) ∧
      e.sessions = b.sessions ∧ (∀ k, k ≠ t → e.clients.get? k = b.clients.get? k) ∧
      ((deliverEach t retain msgs b = (e, .ok ()) ∧ sent = msgs ∧
          ∃ d, e.clients.get? t = some d ∧ Client.SameIdentity c d ∧
            ∀ m, c.awaiting m + msgs.countP (isMessage m) ≤ d.awaiting m) ∨
        (deliverEach t retain msgs b = (e, .error ()) ∧ e.clients.get? t = none)) := by
  induction msgs generalizing b c with
  | nil =>
    exact ⟨[], b, List.prefix_refl _, by simp, rfl, fun _ _ => rfl,
      .inl ⟨rfl, rfl, c, found, .refl c, fun m => Nat.le_refl _⟩⟩
  | cons x msgs ih =>
    obtain ⟨topic, payload, qos⟩ := x
    simp only [deliverEach]
    cases result : c.offer b.now topic payload qos retain with
    -- The first message is queued, and the rest is delivered to the record after it.
    | queued d =>
      have same := (Client.offered_of_offer c d _ _ _ _ _ result).sameIdentity
      rw [List.map_cons, Client.stalls_queued capped b.now topic payload qos retain _ result] at flows
      obtain ⟨sent, e, within, log, sessions, others, ending⟩ := ih
        (b := { b with
          clients := b.clients.insert t d
          sysPubSent := b.sysPubSent + 1
          deliverLog := b.deliverLog ++ [d.delivery topic payload qos] })
        (HashMap.get?_insert_self _ _ _)
        (Client.capped_of_offer capped b.now topic payload qos retain result) flows
      rw [deliverTo_queued b t topic payload qos retain c d found result]
      refine ⟨(topic, payload, qos) :: sent, e, (List.prefix_cons_inj _).mpr within, ?_, sessions,
        fun k other => (others k other).trans (HashMap.get?_insert_ne _ _ other), ?_⟩
      · rw [log, List.append_assoc]
        simp only [Client.delivery, same.clientId, same.cleanSession]
        rfl
      · rcases ending with ⟨done, all, f, there, identity, counts⟩ | ⟨done, gone⟩
        · refine .inl ⟨done, by rw [all], f, there, same.trans identity, fun m => ?_⟩
          have waits := Client.awaiting_offer result m
          have rest := counts m
          have head : List.countP (isMessage m) ((topic, payload, qos) :: msgs) =
              msgs.countP (isMessage m) + if (topic, payload) = m ∧ qos ≠ 0 then 1 else 0 := by
            rw [List.countP_cons]
            congr 1
            simp only [isMessage, decide_eq_true_eq, Prod.ext_iff, and_assoc]
          omega
        · exact .inr ⟨done, gone⟩
    -- A refusal is a stall, which the assumption rules out.
    | refused =>
      rw [List.map_cons, Client.stalls_refused b.now topic payload qos retain _ result] at flows
      cases flows
    -- An overflow drops the client, and the rest of the messages with it.
    | dropped =>
      rw [deliverTo_dropped b t topic payload qos retain c found result]
      exact ⟨[], { b with clients := b.clients.erase t }, List.nil_prefix, by simp, rfl,
        fun k other => HashMap.get?_erase_ne _ other, .inr ⟨rfl, HashMap.get?_erase_self _ _⟩⟩

/-- A CONNECT that hands the client over whole: a connection of the client keeps its identity, the
client has no other connection when it resumes its session, no refused QoS 0 message stops the
flush, and no reliable message is flushed at QoS 0. -/
structure Reconnects (cid : Str) (b : Broker) (t : Token) (q : ConnectPacket) : Prop where
  same : ∀ c, b.clients.get? t = some c → c.Belongs cid → q.cid = cid
  alone : q.cid = cid → q.cleanSession = false →
    ∀ k c, b.clients.get? k = some c → c.Belongs cid → k = t
  flows : q.cid = cid → q.cleanSession = false → ∀ sess c, b.sessions.get? cid = some sess →
    b.clients.get? t = some c →
      (c.applyConnect q b.now).stalls ((flushList sess).map fun x => x.2.2) = false
  reliable : q.cid = cid → q.cleanSession = false → ∀ sess, b.sessions.get? cid = some sess →
    ∀ x ∈ sess.offline, x.2.2 ≠ 0 → ∀ sub, firstMatch sess.subs x.1 = some sub → sub.2 ≠ 0

theorem isMessage_flush {sess : SessionState} {x : Str × Bytes × UInt8} :
    isMessage m (match firstMatch sess.subs x.1 with
      | some sub => (x.1, x.2.1, min x.2.2 sub.2)
      | none => x) = true ↔
      isMessage m x = true ∧ ∀ sub, firstMatch sess.subs x.1 = some sub → sub.2 ≠ 0 := by
  -- A grant of 0 pulls the message down to QoS 0, where it no longer counts.
  have least : ∀ p q : UInt8, min p q = 0 ↔ p = 0 ∨ q = 0 := by
    intro p q
    have cases_ : min p q = if p ≤ q then p else q := rfl
    rw [cases_, ← UInt8.toNat_inj, ← UInt8.toNat_inj, ← UInt8.toNat_inj]
    split
    next le =>
      rw [UInt8.le_iff_toNat_le] at le
      simp only [UInt8.toNat_zero]
      omega
    next gt =>
      rw [UInt8.le_iff_toNat_le] at gt
      simp only [UInt8.toNat_zero]
      omega
  cases firstMatch sess.subs x.1 with
  | none => simp
  | some sub =>
    simp only [isMessage, decide_eq_true_eq, ne_eq, least, not_or, Option.some.injEq, forall_eq',
      and_assoc]

/-- The flush sends no more copies of a message than the session holds. -/
theorem countP_flush_le (sess : SessionState) :
    (flushList sess).countP (isMessage m) ≤ sess.offline.countP (isMessage m) := by
  rw [flushList, List.countP_map]
  exact List.countP_mono_left fun x _ flushed => (isMessage_flush.mp flushed).1

/-- It sends them all unless one is turned into a QoS 0 message. -/
theorem countP_le_flush {sess : SessionState} (reliable : ∀ x ∈ sess.offline, x.2.2 ≠ 0 →
    ∀ sub, firstMatch sess.subs x.1 = some sub → sub.2 ≠ 0) :
    sess.offline.countP (isMessage m) ≤ (flushList sess).countP (isMessage m) := by
  rw [flushList, List.countP_map]
  refine List.countP_mono_left fun x member counts => isMessage_flush.mpr ⟨counts, ?_⟩
  have positive : x.2.2 ≠ 0 := by
    simp only [isMessage, decide_eq_true_eq] at counts
    exact counts.2.2
  exact reliable x member positive

/-- Nobody but `t` is a connection of the client. -/
theorem Sole.of_alone (alone : ∀ k c, b'.clients.get? k = some c → c.Belongs cid → k = t)
    (unstored : b'.sessions.get? cid = none) : Sole cid b' :=
  ⟨fun k l c d found there belongs member => (alone k c found belongs).trans (alone l d there member).symm,
    fun _ _ _ _ => unstored⟩

/-- The client starts over: it is owed nothing. -/
theorem clean_sole {body : Bytes} {q : ConnectPacket} {r : Reply}
    (parse : parseConnect body = .ok (some q)) (own : q.cid = cid) (clean : q.cleanSession = true)
    (sole : Sole cid b) (done : b.handleConnect t body = .ok (b', r)) : Sole cid b' := by
  obtain ⟨_, frame⟩ := b.eraseSession_frame cid
  rw [handleConnect, parse, Run.ok_bind] at done
  simp only [clean, if_true] at done
  obtain ⟨d, modified, done⟩ := Run.bind_ok.mp done
  cases done
  obtain ⟨c, found, rfl⟩ := modifyClient_found modified
  rw [own] at found ⊢
  have clients : (b.eraseSession cid).clients = b.clients := by rw [frame]
  refine sole.mono (fun k e there belongs => ?_) fun _ => ?_
  · simp only [countConnect, clients, HashMap.get?_insert] at there
    split at there
    · cases there
      -- The record is clean now, and a clean record belongs to no session.
      have unclean := belongs.1.1
      rw [Client.applyConnect, Client.reply_frame] at unclean
      simp [clean] at unclean
    · exact ⟨e, there, belongs⟩
  · simp only [countConnect, b.eraseSession_get?, if_pos]

/-- What the client is owed when its persistent CONNECT comes: in flight at this very connection when
there is no session, in the session otherwise. -/
theorem Custody.before_resume {n : Nat} (custody : b.Custody cid m n)
    (alone : ∀ k c, b.clients.get? k = some c → c.Belongs cid → k = t)
    (found : b.clients.get? t = some c) :
    (b.sessions.get? cid = none → n ≤ c.awaiting m) ∧
      ∀ sess, b.sessions.get? cid = some sess →
        (∀ k d, b.clients.get? k = some d → ¬d.Belongs cid) ∧ n ≤ sess.offline.countP (isMessage m) := by
  obtain ⟨sole, counted⟩ := custody
  constructor
  · intro unstored
    rw [stored_none unstored] at counted
    by_cases belongs : c.Belongs cid
    · rw [sole.live found belongs] at counted
      exact counted
    · rw [live_absent fun k d there member => ?_] at counted
      · exact Nat.le_trans counted (Nat.zero_le _)
      · have same := alone k d there member
        subst same
        cases found.symm.trans there
        exact belongs member
  · intro sess stored
    have absent : ∀ k d, b.clients.get? k = some d → ¬d.Belongs cid := by
      intro k d there member
      cases (sole.unstored k d there member).symm.trans stored
    refine ⟨absent, ?_⟩
    rw [live_absent absent, Nat.zero_add, Broker.stored, offlineOf, stored] at counted
    exact counted

/-- Deliveries to a connection of the client are accepted for it, the reliable ones counted. -/
theorem accepted_deliveries (belongs : c.Belongs cid) {sent : List (Str × Bytes × UInt8)}
    (log : b'.deliverLog = b.deliverLog ++ sent.map fun x => c.delivery x.1 x.2.1 x.2.2) :
    b'.accepted cid m = b.accepted cid m + sent.countP (isMessage m) := by
  rw [accepted, log, List.countP_append, ← accepted, List.countP_map]
  congr 1
  refine List.countP_congr fun x _ => ?_
  simp only [Function.comp, Delivery.Carries, Client.delivery, belongs.1.1, belongs.2, isMessage,
    Prod.ext_iff, true_and, and_assoc]

/-- Once the session is taken out, the one connection of the client holds all it is owed. -/
theorem resumed (m : Str × Bytes)
    (only : ∀ k d, b.clients.get? k = some d → d.Belongs cid → k = t)
    (found : b.clients.get? t = some c) (belongs : c.Belongs cid) :
    Sole cid (b.eraseSession cid).countConnect ∧
      (b.eraseSession cid).countConnect.accepted cid m = b.accepted cid m ∧
      (b.eraseSession cid).countConnect.live cid m = c.awaiting m := by
  obtain ⟨_, frame⟩ := b.eraseSession_frame cid
  have clients : (b.eraseSession cid).countConnect.clients = b.clients := by rw [countConnect, frame]
  have logged : (b.eraseSession cid).countConnect.deliverLog = b.deliverLog := by
    rw [countConnect, frame]
  have erased : (b.eraseSession cid).countConnect.sessions.get? cid = none := by
    simp only [countConnect, b.eraseSession_get?, if_pos]
  have sole := Sole.of_alone (by rw [clients]; exact only) erased
  exact ⟨sole, by rw [accepted, logged, accepted], sole.live (by rw [clients]; exact found) belongs⟩

/-- The client resumes its session: what it is owed is in flight again, or still in the session when
the connection is dropped on the way. -/
theorem resume_custody {n : Nat} {body : Bytes} {q : ConnectPacket} {r : Reply}
    (nonempty : cid.isEmpty = false) (healthy : b.Healthy) (parse : parseConnect body = .ok (some q))
    (own : q.cid = cid) (persistent : q.cleanSession = false) (reconnects : b.Reconnects cid t q)
    (custody : b.Custody cid m n) (done : b.handleConnect t body = .ok (b', r)) :
    b'.Custody cid m (max n (b'.accepted cid m - b.accepted cid m)) := by
  obtain ⟨c, found⟩ : ∃ c, b.clients.get? t = some c := by
    refine Option.ne_none_iff_exists'.mp fun gone => ?_
    obtain ⟨e, panicked⟩ := connect_panics.mpr ⟨gone, q, parse⟩
    cases panicked.symm.trans done
  have alone := reconnects.alone own persistent
  obtain ⟨unstored, stored⟩ := custody.before_resume alone found
  obtain ⟨d, clients, sessions, log, -, handled⟩ := connect_before_flush found parse persistent
  -- from here on the connection is one of the client, with what it had in flight before
  obtain ⟨e, connected⟩ : ∃ e, e = c.applyConnect q b.now := ⟨_, rfl⟩
  have belongs : e.Belongs cid := by
    rw [connected, Client.applyConnect, Client.reply_frame]
    exact ⟨⟨persistent, own ▸ nonempty⟩, own⟩
  have waits : e.awaiting m = c.awaiting m := by
    rw [connected]
    exact c.awaiting_change b.now (.connect q) m
  rw [← connected] at clients
  have there : d.clients.get? t = some e := by
    rw [clients]
    exact HashMap.get?_insert_self _ _ _
  have others : ∀ k, k ≠ t → d.clients.get? k = b.clients.get? k := by
    intro k other
    rw [clients]
    exact HashMap.get?_insert_ne _ _ other
  have accepted_d : d.accepted cid m = b.accepted cid m := by rw [accepted, log, accepted]
  have only : ∀ s : Broker, (∀ k, k ≠ t → s.clients.get? k = b.clients.get? k) →
      ∀ k f, s.clients.get? k = some f → f.Belongs cid → k = t := by
    intro s same k f here member
    by_contra other
    exact other (alone k f ((same k other).symm.trans here) member)
  rw [handled, own] at done
  simp only [flushSession, sessions] at done
  cases session : b.sessions.get? cid with
  | none =>
    -- nothing was stored: all it is owed is in flight at this connection already
    rw [session] at done
    cases done
    obtain ⟨sole, logged, live⟩ := resumed m (only d others) there belongs
    refine ⟨sole, ?_⟩
    rw [logged, accepted_d, Nat.sub_self, Nat.max_zero, live, waits]
    exact Nat.le_trans (unstored session) (Nat.le_add_right _ _)
  | some sess =>
    obtain ⟨absent, counted⟩ := stored sess session
    have capped := (healthy.capped t c found).change b.now (.connect q)
    have flows := reconnects.flows own persistent sess c session found
    rw [← connected] at flows
    have capped' : e.Capped := connected ▸ capped
    obtain ⟨sent, f, within, log', sessions', others', ending⟩ :=
      deliverEach_unstalled (b := d) false (flushList sess) there capped' flows
    have accepted_f : f.accepted cid m = b.accepted cid m + sent.countP (isMessage m) := by
      rw [accepted_deliveries belongs log', accepted_d]
    have same_others : ∀ k, k ≠ t → f.clients.get? k = b.clients.get? k :=
      fun k other => (others' k other).trans (others k other)
    rw [session] at done
    rcases ending with ⟨flushed, all, g, here, identity, copies⟩ | ⟨flushed, gone⟩
    · -- the whole session is in flight before it is erased
      simp only [flushed] at done
      cases done
      obtain ⟨sole, logged, live⟩ :=
        resumed m (only f same_others) here ((identity.belongs cid).mpr belongs)
      refine ⟨sole, ?_⟩
      have reliable := countP_le_flush (m := m) (reconnects.reliable own persistent sess session)
      have enough := copies m
      rw [logged, accepted_f, live]
      subst all
      omega
    · -- the connection was dropped on the way, and the session is left as it was stored
      simp only [flushed] at done
      cases done
      have nobody : ∀ k g, b'.clients.get? k = some g → ¬g.Belongs cid := by
        intro k g here member
        by_cases other : k = t
        · subst other
          cases gone.symm.trans here
        · exact absent k g ((same_others k other).symm.trans here) member
      refine ⟨.of_absent nobody, ?_⟩
      have kept : b'.stored cid m = sess.offline.countP (isMessage m) := by
        simp [Broker.stored, offlineOf, sessions', sessions, session]
      have few : sent.countP (isMessage m) ≤ (flushList sess).countP (isMessage m) :=
        within.sublist.countP_le
      have bound := countP_flush_le (m := m) sess
      rw [accepted_f, kept]
      omega

end Broker

/-- What the client is owed behind its CONNECT is there. -/
theorem Op.connect_custody {cid : Str} {m : Str × Bytes} {b b' : Broker} {t : Token} {p : Packet}
    {q : ConnectPacket} {out : Outcome} {n : Nat} (nonempty : cid.isEmpty = false) (healthy : b.Healthy)
    (isConnect : p.ptype = CONNECT) (parse : parseConnect p.body = .ok (some q)) (own : q.cid = cid)
    (reconnects : b.Reconnects cid t q) (done : (Op.packet t p).run b = .ok (b', out))
    (custody : b.Custody cid m n) : b'.Custody cid m ((Op.packet t p).owes cid m b b' n) := by
  obtain ⟨r, dispatched⟩ := Op.packet_ok done
  have handled : b.handleConnect t p.body = .ok (b', r) := by
    simpa [Broker.dispatch, isConnect] using dispatched
  have connects : (Op.packet t p).connectPacket = some q := by
    simp [connectPacket, isConnect, parse]
  cases clean : q.cleanSession with
  | true =>
    have nothing : (Op.packet t p).owes cid m b b' n = 0 := by
      simp [owes, restarts, connects, own, clean]
    rw [nothing]
    exact ⟨Broker.clean_sole parse own clean custody.sole handled, Nat.zero_le _⟩
  | false =>
    refine (Broker.resume_custody nonempty healthy parse own clean reconnects custody handled).mono ?_
    simp only [owes, restarts, resumes, connects, Option.any_some, own, clean, decide_true,
      Bool.and_false, Bool.false_or, Bool.not_false, Bool.and_self, if_true]
    split
    · exact Nat.zero_le _
    · exact Nat.sub_le _ _

end MioBroker
