import MioBroker.Removal
import MioBroker.Retained

/-!
# A session is kept for a client that is away

CONNECT takes the session of a persistent client away and `remove_client` stores it again. A second
connection of the same client is not looked for, and a flush that stops halfway leaves the session
where it was, so a connected client can have a session that nobody drains.
-/
namespace MioBroker

open Rust

/-- No client has a session while it is connected with clean session = 0. -/
def Broker.Apart (b : Broker) : Prop :=
  ∀ t c, b.clients.get? t = some c → c.cleanSession = false → b.sessions.get? c.clientId = none

/-- The flush of a resumed session is not stopped by a refused QoS 0 message, and a persistent
connection is removed only while its client has no other one, or the will costs it all others. -/
structure Op.Orderly (b : Broker) (op : Op) : Prop where
  resumes : ∀ t p q c sess, op = .packet t p → p.ptype = CONNECT → parseConnect p.body = .ok (some q) →
    q.cleanSession = false → b.sessions.get? q.cid = some sess → b.clients.get? t = some c →
      (c.applyConnect q b.now).stalls ((Broker.flushList sess).map fun x => x.2.2) = false
  departs : ∀ d t c, op.removal b = some (d, t) → d.clients.get? t = some c → c.Persistent →
    ¬d.WillExpels t t c → ∀ k e, d.clients.get? k = some e → k ≠ t → e.cleanSession = false →
      e.clientId = c.clientId → d.WillExpels t k e

namespace Client

theorem stalls_dropped {c : Client} (capped : c.Capped) (now : Instant) (topic : Str)
    (payload : Bytes) (qos : UInt8) (retain : Bool) (qs : List UInt8)
    (done : c.offer now topic payload qos retain = .dropped) : c.stalls (qos :: qs) = false := by
  have isReliable : qos ≠ 0 := by
    rintro rfl
    by_cases room : c.writeQueue.length < WRITE_QUEUE_CAP
    · rw [offer_qos0_room c now topic payload retain room] at done
      cases done
    · rw [offer_qos0_full c now topic payload retain (Nat.not_lt.mp room)] at done
      cases done
  have full : ¬(c.inFlight.size < IN_FLIGHT_CAP ∧ c.reliable < WRITE_QUEUE_CAP) := by
    rw [← offer_reliable_iff c now topic payload qos retain isReliable capped.queue, done]
    simp
  simp only [stalls, MioBroker.stalls, if_neg isReliable, if_neg full]

end Client

namespace Broker

variable {b b' : Broker} {t : Token} {c : Client}

/-- Direct deliveries that a refused QoS 0 message stops leave the connection there. -/
theorem deliverEach_stalled (retain : Bool) (msgs : List (Str × Bytes × UInt8))
    (found : b.clients.get? t = some c) (capped : c.Capped)
    (halts : c.stalls (msgs.map fun x => x.2.2) = true) :
    ∃ e d, deliverEach t retain msgs b = (e, .error ()) ∧ e.sessions = b.sessions ∧
      e.clients.get? t = some d ∧ Client.SameIdentity c d := by
  induction msgs generalizing b c with
  | nil => cases halts
  | cons x msgs ih =>
    obtain ⟨topic, payload, qos⟩ := x
    simp only [deliverEach]
    rw [List.map_cons] at halts
    cases result : c.offer b.now topic payload qos retain with
    | queued d =>
      have same := (Client.offered_of_offer c d _ _ _ _ _ result).sameIdentity
      rw [Client.stalls_queued capped b.now topic payload qos retain _ result] at halts
      rw [deliverTo_queued b t topic payload qos retain c d found result]
      obtain ⟨e, f, done, sessions, there, identity⟩ := ih
        (b := { b with
          clients := b.clients.insert t d
          sysPubSent := b.sysPubSent + 1
          deliverLog := b.deliverLog ++ [d.delivery topic payload qos] })
        (HashMap.get?_insert_self _ _ _)
        (Client.capped_of_offer capped b.now topic payload qos retain result) halts
      exact ⟨e, f, done, sessions, there, same.trans identity⟩
    | refused =>
      rw [deliverTo_refused b t topic payload qos retain c found result]
      exact ⟨b, c, rfl, rfl, found, .refl c⟩
    -- An overflow drops the client, which is no stall.
    | dropped =>
      rw [Client.stalls_dropped capped b.now topic payload qos retain _ result] at halts
      cases halts

/-! ### One step -/

namespace Apart

theorem act {a : Act} (apart : b.Apart) (healthy : b.Healthy) (stays : ∀ t, a ≠ .persist t)
    (clean : ∀ t q, a = .change t (.connect q) → q.cleanSession = true) (done : a.run b = .ok b') :
    b'.Apart := by
  -- no session appears, and nobody becomes a persistent client
  have unstored : ∀ cid, b.sessions.get? cid = none → b'.sessions.get? cid = none := by
    intro cid absent
    by_contra present
    obtain ⟨sess, stored⟩ := Option.ne_none_iff_exists'.mp present
    rcases Act.session_origin healthy done stored with
      there | ⟨_, _, _, _, before, -, there, -⟩ | ⟨t, _, _, same, -⟩
    · rw [absent] at there
      cases there
    · rw [absent] at there
      cases there
    · exact stays t same
  intro k d found persistent
  rcases Act.survivor healthy done found with ⟨h₁, h₂, -, -, rfl⟩ | ⟨c, there, ⟨ch, rfl, rfl⟩ | fed⟩
  · cases persistent
  · -- only a CONNECT changes who a connection belongs to
    by_cases connects : ∃ q, ch = .connect q
    · obtain ⟨q, rfl⟩ := connects
      rw [Change.apply, Client.applyConnect, Client.reply_frame] at persistent
      cases (clean k q rfl).symm.trans persistent
    · have same := Change.sameIdentity b.now c fun q same => connects ⟨q, same⟩
      rw [same.cleanSession] at persistent
      rw [same.clientId]
      exact unstored _ (apart k c there persistent)
  · have same := fed.offered.sameIdentity
    rw [same.cleanSession] at persistent
    rw [same.clientId]
    exact unstored _ (apart k c there persistent)

theorem call {op : Op} {call : PublishCall} (apart : b.Apart) (healthy : b.Healthy)
    (called : op.publishCall b = some call) : call.broker.Apart := by
  refine (Op.prelude called).keeps healthy Broker.Apart ?_ apart
  intro s a s' healthy apart before next
  refine apart.act healthy ?_ ?_ next
  · rintro t rfl
    exact before.elim
  · rintro t q rfl
    exact before.elim

end Apart

/-- A removal of a persistent connection stores a session, so the client must have no other. -/
theorem apart_removal {d : Broker} (apart : d.Apart) (healthy : d.Healthy)
    (done : d.removeClient t = .ok b') :
    b'.Apart ↔ ∀ c, d.clients.get? t = some c → c.Persistent → ¬d.WillExpels t t c →
      ∀ k e, d.clients.get? k = some e → k ≠ t → e.cleanSession = false →
        e.clientId = c.clientId → d.WillExpels t k e := by
  obtain ⟨w, -, willed, clients, sessions⟩ := removeClient_spec healthy done
  constructor
  · intro apart' c found persistent stays k e there other unclean same
    by_contra kept
    -- both are there behind the will
    obtain ⟨c', found'⟩ := Option.ne_none_iff_exists'.mp
      fun gone => stays ((willed.expelled t c found).mp gone)
    obtain ⟨e', there'⟩ := Option.ne_none_iff_exists'.mp
      fun gone => kept ((willed.expelled k e there).mp gone)
    obtain ⟨c₀, before, offered⟩ := willed.survivors t c' found'
    cases found.symm.trans before
    obtain ⟨e₀, before', offered'⟩ := willed.survivors k e' there'
    cases there.symm.trans before'
    -- the session `remove_client` stores is the one the other connection must not have
    rcases sessions with ⟨-, unkept⟩ | ⟨f, offline, found'', -, -, stored⟩
    · refine unkept c' found' ⟨?_, ?_⟩
      · rw [offered.sameIdentity.cleanSession]
        exact persistent.1
      · rw [offered.sameIdentity.clientId]
        exact persistent.2
    · cases found'.symm.trans found''
      have absent := apart' k e' (by rw [clients, if_neg other, there'])
        (offered'.sameIdentity.cleanSession.trans unclean)
      rw [stored, offered'.sameIdentity.clientId, same, ← offered.sameIdentity.clientId,
        HashMap.get?_insert_self] at absent
      cases absent
  · intro alone k e' there unclean
    rw [clients] at there
    split at there
    · cases there
    next other =>
      obtain ⟨e, before, offered⟩ := willed.survivors k e' there
      rw [offered.sameIdentity.cleanSession] at unclean
      rw [offered.sameIdentity.clientId]
      have absent : w.sessions.get? e.clientId = none :=
        (willed.stored _).mpr (apart k e before unclean)
      rcases sessions with ⟨same, -⟩ | ⟨c', offline, found', persistent, -, stored⟩
      · rw [same]
        exact absent
      · obtain ⟨c, found, left⟩ := willed.survivors t c' found'
        -- a session appears for the client that leaves, and for nobody else
        rw [stored, HashMap.get?_insert]
        split
        next own =>
          rw [left.sameIdentity.clientId] at own
          rw [Client.Persistent, left.sameIdentity.cleanSession, left.sameIdentity.clientId] at persistent
          have stays : ¬d.WillExpels t t c := by
            intro expelled
            rw [(willed.expelled t c found).mpr expelled] at found'
            cases found'
          have gone := (willed.expelled k e before).mpr
            (alone c found persistent stays k e before other unclean own)
          rw [gone] at there
          cases there
        next => exact absent

/-- A persistent CONNECT is handled for a connection. -/
theorem handleConnect_connected {q : ConnectPacket} {body : Bytes} {r : Reply}
    (parse : parseConnect body = .ok (some q)) (persistent : q.cleanSession = false)
    (done : b.handleConnect t body = .ok (b', r)) : ∃ c, b.clients.get? t = some c := by
  simp only [handleConnect, parse, Run.ok_bind, persistent, Bool.false_eq_true, if_false] at done
  obtain ⟨d, modified, -⟩ := Run.bind_ok.mp done
  obtain ⟨c, found, -⟩ := modifyClient_found modified
  split at found
  next sess _ =>
    obtain ⟨_, _, restored⟩ := restoreSubs_frame sess.subs b t
    rw [restored] at found
    exact ⟨c, found⟩
  next => exact ⟨c, found⟩

/-- Whoever else is connected has no session as long as none is added. -/
theorem Apart.of_others {s : Broker} (apart : b.Apart)
    (others : ∀ k, k ≠ t → s.clients.get? k = b.clients.get? k)
    (absent : ∀ cid, b.sessions.get? cid = none → s.sessions.get? cid = none)
    (own : ∀ f, s.clients.get? t = some f → s.sessions.get? f.clientId = none) : s.Apart := by
  intro k f connected unclean
  by_cases mine : k = t
  · subst mine
    exact own f connected
  · rw [others k mine] at connected
    exact absent _ (apart k f connected unclean)

/-- The end of a CONNECT: the session of the client it named is taken away. -/
theorem Apart.erase {s : Broker} {cid : Str} (apart : b.Apart) (sessions : s.sessions = b.sessions)
    (others : ∀ k, k ≠ t → s.clients.get? k = b.clients.get? k)
    (own : ∀ f, s.clients.get? t = some f → f.clientId = cid) :
    ((s.eraseSession cid).countConnect).Apart := by
  obtain ⟨_, frame⟩ := s.eraseSession_frame cid
  have clients' : (s.eraseSession cid).countConnect.clients = s.clients := by
    rw [countConnect, frame]
  have sessions' : ∀ k, (s.eraseSession cid).countConnect.sessions.get? k =
      if k = cid then none else b.sessions.get? k := by
    intro k
    rw [countConnect, ← sessions]
    exact s.eraseSession_get? cid k
  -- The session of this id is gone, so whatever client is left at the token is apart.
  refine apart.of_others (fun k other => by rw [clients', others k other]) ?_ ?_
  · intro k absent
    rw [sessions', absent]
    split <;> rfl
  · intro f found
    rw [clients'] at found
    rw [sessions', own f found, if_pos rfl]

/-- A persistent CONNECT takes the session away unless its flush is stopped. -/
theorem apart_connect {q : ConnectPacket} {body : Bytes} {r : Reply} (apart : b.Apart)
    (healthy : b.Healthy) (found : b.clients.get? t = some c)
    (parse : parseConnect body = .ok (some q)) (persistent : q.cleanSession = false)
    (done : b.handleConnect t body = .ok (b', r)) :
    b'.Apart ↔ ∀ sess, b.sessions.get? q.cid = some sess →
      (c.applyConnect q b.now).stalls ((flushList sess).map fun x => x.2.2) = false := by
  obtain ⟨d, clients, sessions, -, -, handled⟩ := connect_before_flush found parse persistent
  rw [handled] at done
  have there : d.clients.get? t = some (c.applyConnect q b.now) := by
    rw [clients, HashMap.get?_insert_self]
  have capped : (c.applyConnect q b.now).Capped := (healthy.capped t c found).change b.now (.connect q)
  have named : (c.applyConnect q b.now).clientId = q.cid ∧
      (c.applyConnect q b.now).cleanSession = false := by
    rw [Client.applyConnect, Client.reply_frame]
    exact ⟨rfl, persistent⟩
  have elsewhere : ∀ k, k ≠ t → d.clients.get? k = b.clients.get? k := fun k other => by
    rw [clients, HashMap.get?_insert_ne _ _ other]
  cases stored : b.sessions.get? q.cid with
  | none =>
    -- nothing to flush
    have flushed : d.flushSession t q.cid = (d.eraseSession q.cid, .ok ()) := by
      simp only [flushSession, sessions, stored]
    rw [flushed] at done
    cases done
    refine ⟨fun _ sess there => (by cases there), fun _ => apart.erase sessions elsewhere ?_⟩
    intro f found
    cases there.symm.trans found
    exact named.1
  | some sess =>
    simp only [flushSession, sessions, stored] at done
    cases flows : (c.applyConnect q b.now).stalls ((flushList sess).map fun x => x.2.2) with
    | false =>
      refine ⟨fun _ sess' same => by cases same; exact flows, fun _ => ?_⟩
      obtain ⟨-, e, -, -, same, others, ⟨ended, -, f, left, identity, -⟩ | ⟨ended, gone⟩⟩ :=
        deliverEach_unstalled false (flushList sess) there capped flows
      · -- all is delivered, and the session erased
        rw [ended] at done
        cases done
        refine apart.erase (same.trans sessions)
          (fun k other => (others k other).trans (elsewhere k other)) ?_
        intro f' found
        cases left.symm.trans found
        exact identity.clientId.trans named.1
      · -- the connection does not survive the flush
        rw [ended] at done
        cases done
        refine apart.of_others (fun k other => (others k other).trans (elsewhere k other))
          (fun cid absent => by rw [same, sessions, absent]) fun f found => ?_
        rw [gone] at found
        cases found
    | true =>
      -- the flush stops, the session stays, and so does the connection
      obtain ⟨e, f, ended, same, left, identity⟩ :=
        deliverEach_stalled false (flushList sess) there capped flows
      rw [ended] at done
      cases done
      refine ⟨fun apart' => ?_, fun all => absurd (all sess rfl) (by rw [flows]; decide)⟩
      have absent := apart' t f left (identity.cleanSession.trans named.2)
      rw [same, sessions, identity.clientId, named.1, stored] at absent
      cases absent

/-- An operation keeps sessions and connections apart exactly when it is orderly. -/
theorem Apart.op_iff {op : Op} {out : Outcome} (apart : b.Apart) (healthy : b.Healthy)
    (done : op.run b = .ok (b', out)) : b'.Apart ↔ op.Orderly b := by
  cases removal : op.removal b with
  | some r =>
    obtain ⟨d, t⟩ := r
    obtain ⟨removed, -, -, start⟩ := Op.removal_run default removal done
    -- a write before the removal changes neither identities nor sessions
    have before : d.Apart ∧ d.Healthy := by
      rcases start with rfl | ⟨c, ws, found, rfl⟩
      · exact ⟨apart, healthy⟩
      · have run : (Act.change t (.write ws)).run b =
            .ok { b with clients := b.clients.insert t (c.writeLoop ws).1 } := modifyClient_ok found _
        exact ⟨apart.act healthy (by simp) (by simp) run, healthy.act _ run⟩
    rw [apart_removal before.1 before.2 removed]
    constructor
    · intro alone
      constructor
      · rintro t p q c sess rfl
        cases removal
      · intro d' t' c same
        cases removal.symm.trans same
        exact alone c
    · intro orderly c
      exact orderly.departs d t c removal
  | none =>
    have unremoved : ∀ d t, op.removal b ≠ some (d, t) := by simp [removal]
    by_cases resumes : ∃ t p q, op = .packet t p ∧ p.ptype = CONNECT ∧
        parseConnect p.body = .ok (some q) ∧ q.cleanSession = false
    · obtain ⟨t, p, q, rfl, isConnect, parse, persistent⟩ := resumes
      obtain ⟨r, dispatched⟩ := Op.packet_ok done
      have handled : b.handleConnect t p.body = .ok (b', r) := by
        simpa [dispatch, isConnect] using dispatched
      obtain ⟨c, found⟩ := handleConnect_connected parse persistent handled
      rw [apart_connect apart healthy found parse persistent handled]
      constructor
      · intro flows
        refine ⟨?_, fun d t c same => absurd same (unremoved d t)⟩
        rintro t' p' q' c' sess ⟨⟩ - parse' - stored found'
        cases parse.symm.trans parse'
        cases found.symm.trans found'
        exact flows sess stored
      · intro orderly sess stored
        exact orderly.resumes t p q c sess rfl isConnect parse persistent stored found
    · -- neither a removal nor a resumption: no act of the operation can break it
      have kept : b'.Apart := by
        refine (Op.acts_staying healthy removal done).keeps healthy Broker.Apart ?_ apart
        rintro s a s' healthy apart ⟨ok, stays⟩ next
        refine apart.act healthy (fun t => (stays t).1) (fun t q same => ?_) next
        obtain ⟨p, rfl, isConnect, parse⟩ := Op.permits_connect (same ▸ ok.1)
        cases clean : q.cleanSession with
        | true => rfl
        | false => exact absurd ⟨t, p, q, rfl, isConnect, parse, clean⟩ resumes
      refine ⟨fun _ => ⟨?_, fun d t c same => absurd same (unremoved d t)⟩, fun _ => kept⟩
      intro t p q c sess same isConnect parse persistent
      exact absurd ⟨t, p, q, same, isConnect, parse, persistent⟩ resumes

end Broker

namespace Loop

/-- In every run: no operation leaves a client both a session and a persistent connection, and
`publish` queues for no client that is connected, exactly when every operation is orderly. -/
theorem sessions_apart (s₀ : Loop) (ios : List Io) (start : s₀.Initial) :
    Throughout s₀ ios (fun _ s io s' => s'.broker.Apart ∧
      ∀ call, (s.op io).publishCall s.broker = some call → call.broker.Apart) ↔
    Throughout s₀ ios fun _ s io _ => (s.op io).Orderly s.broker := by
  refine Machine.EachStep.invariant_iff (fun s => s.broker.Apart) ?_ (fun _ _ _ _ => And.left) ?_
  · intro t c found
    cases (start.startup.unconnected t).symm.trans found
  · intro before s io s' path apart admitted next
    have healthy := (Reachable.healthy ⟨s₀, before, start, path⟩)
    obtain ⟨b, out, ran, rfl⟩ := step_ok.mp next
    rw [← apart.op_iff healthy ran]
    exact ⟨And.left, fun after => ⟨after, fun call called => apart.call healthy called⟩⟩

end Loop

/-- A check of `Orderly`; it allows no second connection at all. -/
def Op.orderly (b : Broker) (op : Op) : Bool :=
  ((op.removal b).all fun r => (r.1.clients.get? r.2).all fun c => r.1.clients.iter.all fun e =>
    e.1 == r.2 || e.2.cleanSession || e.2.clientId != c.clientId) &&
  match op with
  | .packet t _ => op.connectPacket.all fun q => (b.sessions.get? q.cid).all fun sess =>
      (b.clients.get? t).all fun c =>
        !(c.applyConnect q b.now).stalls ((Broker.flushList sess).map fun x => x.2.2)
  | _ => true

theorem Op.orderly_sound {b : Broker} {op : Op} (checked : op.orderly b = true) : op.Orderly b := by
  obtain ⟨departs, resumes⟩ := (Bool.and_eq_true _ _).mp checked
  constructor
  · rintro t p q c sess rfl isConnect parse - stored found
    simpa [connectPacket, isConnect, parse, stored, found] using resumes
  · intro d t c removal found _ _ k e there other unclean same
    rw [removal, Option.all_some, found, Option.all_some, List.all_eq_true] at departs
    have apart := departs (k, e) ((HashMap.mem_iter _ _ _).mpr there)
    simp [other, unclean, same] at apart

namespace Loop

/-- Client `a` connects, goes away and comes back. -/
def returning : List Io :=
  [Io.listen, .connection] ++ List.replicate 3 Io.quiet ++
    [Io.read (connectBytes 0 97), .quiet, .quiet] ++ List.replicate 11 Io.quiet ++
    [Io.read [], .quiet] ++ List.replicate 7 Io.quiet ++ [Io.listen, .connection] ++
    List.replicate 3 Io.quiet ++ [Io.read (connectBytes 0 97), .quiet, .quiet]

/-- Its session is stored while it is away, and only then. -/
theorem sessions_apart_returning : (∃ s c, AdmittedRun fresh returning s ∧
      s.broker.clients.get? 2 = some c ∧ c.clientId = clientA ∧ c.cleanSession = false) ∧
    Throughout fresh returning (fun _ s io s' => s'.broker.Apart ∧
      ∀ call, (s.op io).publishCall s.broker = some call → call.broker.Apart) := by
  have ran : (Machine.runChecked step (fun s io => s.admits io && (s.op io).orderly s.broker) fresh
      returning).any (fun s => (s.broker.clients.get? 2).any fun c =>
        c.clientId == clientA && !c.cleanSession) = true := by decide +kernel
  obtain ⟨s, done, ended⟩ := (Option.any_eq_true _ _).mp ran
  simp only [Option.any_eq_true, Bool.and_eq_true, beq_iff_eq, Bool.not_eq_true'] at ended
  obtain ⟨c, found, named, persistent⟩ := ended
  have path := (Machine.runChecked_path _ _ _ _ _ done).mono
    (fun s io ok => (Bool.and_eq_true _ _).mp ok)
  constructor
  · exact ⟨s, c, path.mono fun _ _ ok => ok.1, found, named, persistent⟩
  · refine (sessions_apart fresh returning fresh_initial).mpr ?_
    -- Every operation of the run was checked to be orderly.
    have each : Throughout fresh returning fun _ s io _ =>
        s.admits io = true ∧ (s.op io).orderly s.broker = true := Machine.EachStep.of_path path
    intro before io rest u v cut run admitted next
    exact Op.orderly_sound (each before io rest u v cut run admitted next).2

/-- Client `a` connects twice, and one of the two connections ends. -/
theorem sessions_overlap : ¬∀ s : Loop, s.Reachable → s.broker.Apart := by
  intro claim
  obtain ⟨s, done, checked⟩ := exists_after ([Io.listen, .connection, .connection] ++
      List.replicate 3 Io.quiet ++ [Io.read (connectBytes 0 97), .quiet, .quiet] ++
      [Io.read (connectBytes 0 97), .quiet, .quiet] ++ List.replicate 12 Io.quiet ++ [Io.read [], .quiet])
    (fun s => s.broker.sessions.contains clientA && (s.broker.clients.get? 1).any fun c =>
      c.clientId == clientA && !c.cleanSession) (by decide +kernel)
  simp only [Option.any_eq_true, Bool.and_eq_true, beq_iff_eq, Bool.not_eq_true'] at checked
  obtain ⟨stored, c, found, named, persistent⟩ := checked
  have absent := claim s (after_reachable done) 1 c found persistent
  obtain ⟨sess, there⟩ := (HashMap.contains_iff _ _).mp stored
  rw [named, there] at absent
  cases absent

end Loop

end MioBroker
