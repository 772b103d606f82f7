import MioBroker.Feed
import MioBroker.Parsing

/-!
# Packets as acts

A packet is handled by acts that it permits; one that overflows nothing contains no act that
erases a connection from inside `deliver_to`.
-/
namespace MioBroker

open Rust

/-- Bookkeeping leaves the dirty flag and the file alone, or saves. -/
def Broker.Audited (b after : Broker) : Prop :=
  after.dirty = b.dirty ∧ after.stateFile.content = b.stateFile.content ∨ after = b.save

/-- The act is announced: a `publish` is the given call, and a direct delivery is one of the
given messages, which erases a connection only under the given condition. -/
def Act.Announced (s : Broker) (call : Option PublishCall)
    (messages : List (Str × Bytes × UInt8)) (overflows : Prop) : Act → Prop
  | .publish topic payload qos retain => call = some ⟨s, topic, payload, qos, retain⟩
  | .deliver t topic payload qos retain =>
    (topic, payload, qos) ∈ messages ∧
      (Act.Erases s (.deliver t topic payload qos retain) → overflows)
  | .account after => s.Audited after
  | _ => True

/-- The act is one the operation permits, and the operation in `b` announces it. -/
def Op.conforms (op : Op) (b : Broker) (s : Broker) (a : Act) : Prop :=
  op.permits a ∧ a.Announced s (op.publishCall b) (op.messages b) (op.Overflows b)

theorem Op.conforms_account (op : Op) (b s after : Broker) (audited : s.Audited after) :
    op.conforms b s (.account after) := by
  refine ⟨?_, audited⟩
  cases op <;> trivial

/-- An answer to the sender has no QoS, a subscription added is one of those asked for, and the clock
is not turned back. -/
def Act.Answers (requests : List (Str × UInt8)) (s : Broker) : Act → Prop
  | .change _ (.reply pkt) => qosBits pkt = 0
  | .addSub filter _ qos => (filter, qos) ∈ requests
  | .account after => s.now ≤ after.now
  | _ => True

/-- The act conforms, and it answers what the operation is asked for. -/
def Op.complies (op : Op) (b : Broker) (s : Broker) (a : Act) : Prop :=
  op.conforms b s a ∧ a.Answers (op.requests b) s

theorem Op.complies_account (op : Op) (b s after : Broker) (audited : s.Audited after)
    (clock : s.now ≤ after.now) : op.complies b s (.account after) :=
  ⟨op.conforms_account b s after audited, clock⟩

namespace Broker

variable {b b' : Broker} {t : Token} {p : Packet} {r : Reply}

theorem dispatch_isPublish (isPublish : p.ptype = PUBLISH) :
    b.dispatch t p = b.handlePublish t p.flags p.body := by
  simp [dispatch, isPublish, show PUBLISH ≠ CONNECT by decide, show PUBLISH ≠ SUBSCRIBE by decide,
    show PUBLISH ≠ UNSUBSCRIBE by decide]

theorem modify_acts {ok : Broker → Act → Prop} (ch : Change) (admitted : ok b (.change t ch))
    (done : b.modifyClient t (fun c => ch.apply b.now c) = .ok b') : Acts ok b b' :=
  .one (.change t ch) admitted done

theorem modifyClient_ok {c : Client} (found : b.clients.get? t = some c) (f : Client → Client) :
    b.modifyClient t f = .ok { b with clients := b.clients.insert t (f c) } := by
  simp only [modifyClient, found]

theorem modifyClient_found {f : Client → Client} (done : b.modifyClient t f = .ok b') :
    ∃ c, b.clients.get? t = some c ∧ b' = { b with clients := b.clients.insert t (f c) } := by
  simp only [modifyClient] at done
  split at done
  next c found =>
    cases done
    exact ⟨c, found, rfl⟩
  next => cases done

theorem restoreSubs_acts (subs : List (Str × UInt8)) (b : Broker) (t : Token) :
    Acts (fun _ a => ∃ e ∈ subs, a = .addSub e.1 t e.2) b (b.restoreSubs t subs) := by
  induction subs generalizing b with
  | nil => exact .refl b
  | cons sub subs ih =>
    have first : Acts (fun _ a => ∃ e ∈ sub :: subs, a = .addSub e.1 t e.2) b
        (b.addSub sub.1 t sub.2) := .one (.addSub sub.1 t sub.2) ⟨sub, List.mem_cons_self, rfl⟩ rfl
    refine first.trans ((ih _).mono fun s a ok => ?_)
    obtain ⟨e, member, same⟩ := ok
    exact ⟨e, List.mem_cons_of_mem _ member, same⟩

theorem addSub_frame (b : Broker) (filter : Str) (t : Token) (qos : UInt8) :
    ∃ subsExact subsWild, b.addSub filter t qos =
      { b with subs := b.subs ++ [⟨filter, t, qos⟩], subsExact, subsWild } := by
  rw [addSub, subs_indexSub]
  exact ⟨_, _, rfl⟩

theorem restoreSubs_frame (subs : List (Str × UInt8)) (b : Broker) (t : Token) :
    ∃ subsExact subsWild, b.restoreSubs t subs =
      { b with
        subs := b.subs ++ subs.map fun sub => ⟨sub.1, t, sub.2⟩
        subsExact, subsWild } := by
  induction subs generalizing b with
  | nil => exact ⟨b.subsExact, b.subsWild, by simp [restoreSubs]⟩
  | cons sub subs ih =>
    obtain ⟨_, _, first⟩ := b.addSub_frame sub.1 t sub.2
    obtain ⟨subsExact, subsWild, rest⟩ := ih (b.addSub sub.1 t sub.2)
    refine ⟨subsExact, subsWild, ?_⟩
    have unfolded : b.restoreSubs t (sub :: subs) = (b.addSub sub.1 t sub.2).restoreSubs t subs := rfl
    rw [unfolded, rest, first]
    simp

theorem flushSession_acts (b : Broker) (healthy : b.Healthy) (t : Token) (cid : Str) :
    Acts (fun s a => ((∃ m ∈ ((b.sessions.get? cid).map flushList).getD [],
          a = .deliver t m.1 m.2.1 m.2.2 false) ∨ a = .eraseSession cid) ∧
        (a.Erases s → b.overrunsAt t
          ((((b.sessions.get? cid).map flushList).getD []).map fun m => m.2.2)))
      b (b.flushSession t cid).1 := by
  simp only [flushSession]
  cases found : b.sessions.get? cid with
  -- Without a stored session there is nothing to send, and erasing it changes nothing.
  | none => exact .one (.eraseSession cid) ⟨.inr rfl, fun erased => erased.elim⟩ rfl
  | some sess =>
    obtain ⟨acts, -⟩ := deliverEach_acts t false (flushList sess) [] b healthy
    simp only [List.append_nil] at acts
    -- The stored messages are delivered one by one before the session is erased.
    have delivered : Acts (fun s a => ((∃ m ∈ flushList sess,
          a = .deliver t m.1 m.2.1 m.2.2 false) ∨ a = .eraseSession cid) ∧
        (a.Erases s → b.overrunsAt t ((flushList sess).map fun m => m.2.2)))
        b (deliverEach t false (flushList sess) b).1 :=
      acts.mono fun s a ok => ⟨.inl ok.1, ok.2⟩
    simp only [Option.map_some, Option.getD_some]
    split
    next d same =>
      rw [same] at delivered
      exact delivered.trans (.one (.eraseSession cid) ⟨.inr rfl, fun erased => erased.elim⟩ rfl)
    next d same =>
      rw [same] at delivered
      exact delivered

theorem connect_acts (healthy : b.Healthy) (isConnect : p.ptype = CONNECT)
    (done : b.handleConnect t p.body = .ok (b', r)) : Acts ((Op.packet t p).complies b) b b' := by
  obtain ⟨parsed, parse, done⟩ := Run.bind_ok.mp done
  cases parsed with
  | none =>
    cases done
    exact .refl b
  | some q =>
    have counted : ∀ s : Broker, Acts ((Op.packet t p).complies b) s s.countConnect :=
      fun s => .one (.account s.countConnect)
        (Op.complies_account _ _ _ _ (.inl ⟨rfl, rfl⟩) (Nat.le_refl _)) rfl
    have erase : ∀ s, (Op.packet t p).complies b s (.eraseSession q.cid) :=
      fun s => ⟨⟨⟨isConnect, q, parse, rfl⟩, trivial⟩, trivial⟩
    have connect : ∀ s, (Op.packet t p).complies b s (.change t (.connect q)) :=
      fun s => ⟨⟨⟨rfl, isConnect, parse⟩, trivial⟩, trivial⟩
    by_cases clean : q.cleanSession = true
    · simp only [clean, if_true] at done
      obtain ⟨d, modified, done⟩ := Run.bind_ok.mp done
      cases done
      have erased : Acts ((Op.packet t p).complies b) b (b.eraseSession q.cid) :=
        .one (.eraseSession q.cid) (erase b) rfl
      exact erased.trans ((modify_acts (.connect q) (connect _) modified).trans (counted d))
    · simp only [clean] at done
      obtain ⟨d, modified, done⟩ := Run.bind_ok.mp done
      -- the subscriptions restored first leave clients and sessions alone
      obtain ⟨c, restored, frame⟩ : ∃ c : Broker,
          Acts ((Op.packet t p).complies b) b c ∧ c.now = b.now ∧ c.clients = b.clients ∧
            c.sessions = b.sessions ∧ c.modifyClient t (fun k => k.applyConnect q c.now) = .ok d := by
        cases found : b.sessions.get? q.cid with
        | none =>
          rw [found] at modified
          exact ⟨b, .refl b, rfl, rfl, rfl, modified⟩
        | some sess =>
          rw [found] at modified
          obtain ⟨subsExact, subsWild, restored⟩ := restoreSubs_frame sess.subs b t
          refine ⟨b.restoreSubs t sess.subs, ?_, by rw [restored], by rw [restored], by rw [restored],
            modified⟩
          refine (restoreSubs_acts sess.subs b t).mono fun s a added => ?_
          obtain ⟨e, member, rfl⟩ := added
          refine ⟨⟨⟨rfl, .inl isConnect⟩, trivial⟩, ?_⟩
          have asked : (Op.packet t p).requests b = sess.subs := by
            simp [Op.requests, requests, isConnect, parse, clean, found]
          rw [Act.Answers, asked]
          exact member
      obtain ⟨now, clients, sessions, modified⟩ := frame
      have to_d : Acts ((Op.packet t p).complies b) b d :=
        restored.trans (modify_acts (.connect q) (connect c) modified)
      obtain ⟨k, found, d_eq⟩ := modifyClient_found modified
      rw [clients] at found
      have flushed := flushSession_acts d (to_d.healthy healthy) t q.cid
      have from_d : Acts ((Op.packet t p).complies b) d (d.flushSession t q.cid).1 := by
        refine flushed.mono fun s a ok => ?_
        have messages : (Op.packet t p).messages b =
            ((d.sessions.get? q.cid).map flushList).getD [] := by
          rw [d_eq]
          simp [Op.messages, packetMessages, isConnect, parse, clean, sessions]
        rw [← messages] at ok
        rcases ok.1 with ⟨m, member, rfl⟩ | rfl
        · refine ⟨⟨⟨rfl, .inl isConnect⟩, member, fun erased => ?_⟩, trivial⟩
          obtain ⟨k', found', exceeds⟩ := ok.2 erased
          rw [d_eq] at found'
          simp only [HashMap.get?_insert_self, Option.some.injEq] at found'
          subst found'
          refine .inr ⟨k.applyConnect q b.now, ?_, ?_⟩
          · simp [Op.sender, packetSender, found, isConnect, parse]
          · rw [← now]
            exact exceeds
        · exact ⟨⟨⟨isConnect, q, parse, rfl⟩, trivial⟩, trivial⟩
      have all := to_d.trans from_d
      generalize d.flushSession t q.cid = result at done all
      rcases result with ⟨e, ⟨⟩ | ⟨⟨⟩⟩⟩
      · cases done
        exact all
      · cases done
        exact all.trans (counted e)

theorem deliverEach_frame (t : Token) (retain : Bool) (msgs : List (Str × Bytes × UInt8))
    (b : Broker) :
    ∃ clients sysPubSent deliverLog,
      (deliverEach t retain msgs b).1 = { b with clients, sysPubSent, deliverLog } := by
  induction msgs generalizing b with
  | nil => exact ⟨_, _, _, rfl⟩
  | cons m msgs ih =>
    obtain ⟨clients, sent, log, one⟩ := deliverTo_frame b t m.1 m.2.1 m.2.2 retain
    simp only [deliverEach]
    generalize b.deliverTo t m.1 m.2.1 m.2.2 retain = result at one ⊢
    rcases result with ⟨d, ⟨⟨⟩⟩ | ⟨⟨⟩⟩⟩
    · exact ⟨clients, sent, log, one⟩
    · obtain ⟨clients', sent', log', rest⟩ := ih d
      simp only at one ⊢
      rw [rest, one]
      exact ⟨_, _, _, rfl⟩

theorem subscribeLoop_acts (t : Token) (topics : List (Str × UInt8)) (b : Broker)
    (healthy : b.Healthy) :
    Acts (fun s a => ((∃ e ∈ topics, a = .addSub e.1 t e.2) ∨
        ∃ m ∈ b.hitsOf topics, a = .deliver t m.1 m.2.1 m.2.2 true) ∧
        (a.Erases s → b.overrunsAt t ((b.hitsOf topics).map fun m => m.2.2)))
      b (subscribeLoop t topics b).1 := by
  induction topics generalizing b with
  | nil => exact .refl b
  | cons e topics ih =>
    obtain ⟨filter, qos⟩ := e
    obtain ⟨subsExact, subsWild, added⟩ := b.addSub_frame filter t qos
    have first : Acts (fun s a => ((∃ e ∈ (filter, qos) :: topics, a = .addSub e.1 t e.2) ∨
        ∃ m ∈ b.hitsOf ((filter, qos) :: topics), a = .deliver t m.1 m.2.1 m.2.2 true) ∧
        (a.Erases s → b.overrunsAt t ((b.hitsOf ((filter, qos) :: topics)).map fun m => m.2.2)))
        b (b.addSub filter t qos) :=
      .one (.addSub filter t qos) ⟨.inl ⟨_, List.mem_cons_self, rfl⟩, fun erased => erased.elim⟩ rfl
    have healthy' := first.healthy healthy
    -- Adding a filter moves no retained message.
    have same_hits : (b.addSub filter t qos).retainedHits filter qos = b.retainedHits filter qos := by
      rw [added]
      rfl
    have same_clients : ∀ qs, (b.addSub filter t qos).overrunsAt t qs → b.overrunsAt t qs := by
      rw [added]
      exact fun qs exceeds => exceeds
    obtain ⟨acts, after⟩ := deliverEach_acts t true (b.retainedHits filter qos)
      ((b.hitsOf topics).map fun m => m.2.2)
      (b.addSub filter t qos) healthy'
    -- The messages of the whole packet are those of this filter and then the rest.
    have whole : b.hitsOf ((filter, qos) :: topics) =
        b.retainedHits filter qos ++ b.hitsOf topics := by
      simp [hitsOf]
    rw [← List.map_append, ← whole] at acts after
    obtain ⟨clients, sent, log, frame⟩ := deliverEach_frame t true (b.retainedHits filter qos)
      (b.addSub filter t qos)
    have delivered := first.trans (acts.mono fun s a ok => by
      obtain ⟨⟨m, member, same⟩, erased⟩ := ok
      exact ⟨.inr ⟨m, whole ▸ List.mem_append_left _ member, same⟩,
        fun gone => same_clients _ (erased gone)⟩)
    simp only [subscribeLoop, same_hits]
    have healthy'' := acts.healthy healthy'
    generalize deliverEach t true (b.retainedHits filter qos) (b.addSub filter t qos) = result
      at after frame delivered healthy''
    rcases result with ⟨d, ⟨⟨⟩⟩ | ⟨⟨⟩⟩⟩
    · exact delivered
    · -- Delivering touches clients and counters, so the rest finds the same messages.
      have same_rest : d.hitsOf topics = b.hitsOf topics := by
        simp only at frame
        rw [frame, added]
        rfl
      refine delivered.trans ((ih d healthy'').mono fun s a ok => ?_)
      rw [same_rest] at ok
      refine ⟨ok.1.imp ?_ ?_, fun erased => same_clients _ (after rfl (ok.2 erased))⟩
      · rintro ⟨e, member, same⟩
        exact ⟨e, List.mem_cons_of_mem _ member, same⟩
      · rintro ⟨m, member, same⟩
        exact ⟨m, whole ▸ List.mem_append_right _ member, same⟩

theorem subscribe_acts (healthy : b.Healthy) (isSubscribe : p.ptype = SUBSCRIBE)
    (done : b.handleSubscribe t p.body = .ok (b', r)) :
    Acts ((Op.packet t p).complies b) b b' := by
  obtain ⟨parsed, parse, done⟩ := Run.bind_ok.mp done
  cases parsed with
  | none =>
    cases done
    exact .refl b
  | some q =>
    obtain ⟨pid, topics⟩ := q
    -- SUBACK comes last: the retained messages are queued before it.
    have looped : Acts ((Op.packet t p).complies b) b (subscribeLoop t topics b).1 := by
      refine (subscribeLoop_acts t topics b healthy).mono fun s a ok => ?_
      have notConnect : SUBSCRIBE ≠ CONNECT := by decide
      have messages : (Op.packet t p).messages b = b.hitsOf topics := by
        simp [Op.messages, packetMessages, isSubscribe, notConnect, parse]
      rw [← messages] at ok
      rcases ok.1 with ⟨e, member, rfl⟩ | ⟨m, member, rfl⟩
      · refine ⟨⟨⟨rfl, .inr isSubscribe⟩, trivial⟩, ?_⟩
        have asked : (Op.packet t p).requests b = topics := by
          simp [Op.requests, requests, isSubscribe, notConnect, parse]
        rw [Act.Answers, asked]
        exact member
      · refine ⟨⟨⟨rfl, .inr isSubscribe⟩, member, fun erased => ?_⟩, trivial⟩
        obtain ⟨c, found, exceeds⟩ := ok.2 erased
        exact .inr ⟨c, by simp [Op.sender, packetSender, found, isSubscribe, notConnect], exceeds⟩
    simp only at done
    generalize subscribeLoop t topics b = result at done looped
    rcases result with ⟨d, ⟨⟩ | ⟨⟨⟩⟩⟩
    · cases done
      exact looped
    · obtain ⟨e, modified, done⟩ := Run.bind_ok.mp done
      cases done
      exact looped.trans (modify_acts (.reply (buildSuback pid (topics.map Prod.snd)))
        ⟨⟨⟨rfl, .suback pid _⟩, trivial⟩, rfl⟩ modified)

theorem unsubscribe_acts (isUnsubscribe : p.ptype = UNSUBSCRIBE)
    (done : b.handleUnsubscribe t p.body = .ok (b', r)) :
    Acts ((Op.packet t p).complies b) b b' := by
  obtain ⟨parsed, parse, done⟩ := Run.bind_ok.mp done
  cases parsed with
  | none =>
    cases done
    exact .refl b
  | some q =>
    obtain ⟨pid, filters⟩ := q
    obtain ⟨d, modified, done⟩ := Run.bind_ok.mp done
    cases done
    have removed : Acts ((Op.packet t p).complies b) b (b.unsubscribe t filters) :=
      .one (.unsubscribe t filters) ⟨⟨⟨rfl, isUnsubscribe, pid, parse⟩, trivial⟩, trivial⟩ rfl
    exact removed.trans
      (modify_acts (.reply (buildUnsuback pid)) ⟨⟨⟨rfl, .unsuback pid⟩, trivial⟩, rfl⟩ modified)

theorem receiveQos2_found {dup : Bool} {pid : UInt16} (done : b.receiveQos2 t pid = .ok (b', dup)) :
    b.modifyClient t (fun c => (c.receiveQos2 pid).1) = .ok b' := by
  simp only [receiveQos2] at done
  simp only [modifyClient]
  cases found : b.clients.get? t with
  | none =>
    rw [found] at done
    cases done
  | some c =>
    rw [found] at done
    cases done
    rfl

/-- Acknowledging a PUBLISH answers its sender, for QoS 2 after recording the id, or does nothing. -/
theorem acknowledge_cases {q : PublishPacket} {dup : Bool} (done : b.acknowledge t q = .ok (b', dup)) :
    b' = b ∨
      (∃ pid, q.qos = 1 ∧ b.modifyClient t (fun c => c.reply (buildPuback pid)) = .ok b') ∨
      ∃ pid, q.qos = 2 ∧ b.modifyClient t (fun c => (c.receiveQos2 pid).1) = .ok b' := by
  simp only [acknowledge] at done
  split at done
  next pid _ =>
    split at done
    next isQos1 =>
      cases modified : b.modifyClient t fun c => c.reply (buildPuback pid) with
      | error e =>
        rw [modified] at done
        cases done
      | ok d =>
        rw [modified] at done
        cases done
        exact .inr (.inl ⟨pid, isQos1, modified⟩)
    next =>
      split at done
      next isQos2 => exact .inr (.inr ⟨pid, isQos2, receiveQos2_found done⟩)
      next =>
        cases done
        exact .inl rfl
  next =>
    cases done
    exact .inl rfl

theorem countPublish_acts {op : Op} (s b : Broker) : Acts (op.complies b) s s.countPublish :=
  .one (.account s.countPublish) (op.complies_account _ _ _ (.inl ⟨rfl, rfl⟩) (Nat.le_refl _)) rfl

theorem publishFast_acts (isPublish : p.ptype = PUBLISH)
    (done : b.publishFast t (publishQos p.flags) p.body = .ok (b', r)) :
    Acts ((Op.packet t p).complies b) b b' := by
  simp only [publishFast] at done
  split at done
  · obtain ⟨parsed, -, done⟩ := Run.bind_ok.mp done
    cases parsed with
    | none =>
      cases done
      exact .refl b
    | some pid =>
      obtain ⟨d, modified, done⟩ := Run.bind_ok.mp done
      cases done
      -- With nobody to route to, the answer is all there is.
      have replied : Acts ((Op.packet t p).complies b) b d :=
        modify_acts (.reply (buildPuback pid)) ⟨⟨⟨rfl, .puback pid⟩, trivial⟩, rfl⟩ modified
      exact replied.trans (countPublish_acts d b)
  · split at done
    next isQos2 =>
      obtain ⟨parsed, -, done⟩ := Run.bind_ok.mp done
      cases parsed with
      | none =>
        cases done
        exact .refl b
      | some pid =>
        obtain ⟨⟨d, dup⟩, received, done⟩ := Run.bind_ok.mp done
        cases done
        have replied : Acts ((Op.packet t p).complies b) b d :=
          modify_acts (.publishQos2 pid) ⟨⟨⟨rfl, isPublish, isQos2⟩, trivial⟩, trivial⟩
            (receiveQos2_found received)
        cases dup
        · exact replied.trans (countPublish_acts d b)
        · exact replied
    · cases done
      exact countPublish_acts b b

/-- An overflow inside `publish` is one its call announces. -/
theorem erases_overflows {call : PublishCall} (healthy : call.broker.Healthy)
    (erased : Act.Erases call.broker (.publish call.topic call.payload call.qos call.retain)) :
    call.Overflows := by
  obtain ⟨t, c, found, gone⟩ := erased
  have capped := healthy.capped t c found
  exact ⟨t, c, found, (Client.serve_eq_none_iff _ _ _ _ c capped.queue capped.window).mp gone⟩

/-- What the operation announces covers every connection erased inside `deliver_to`. -/
theorem conforms_erases {op : Op} {s : Broker} {a : Act} (healthy : s.Healthy)
    (ok : op.conforms b s a) (erased : a.Erases s) : op.Overflows b := by
  cases a with
  | publish topic payload qos retain =>
    exact .inl ⟨_, ok.2, erases_overflows healthy erased⟩
  | deliver t topic payload qos retain => exact ok.2.2 erased
  | _ => exact erased.elim

theorem acknowledge_acts (isPublish : p.ptype = PUBLISH) {q : PublishPacket} {dup : Bool}
    (parse : parsePublish p.flags p.body = .ok (some q))
    (done : b.acknowledge t q = .ok (b', dup)) : Acts ((Op.packet t p).complies b) b b' := by
  have qos := (parsePublish_fields parse).1
  rcases acknowledge_cases done with rfl | ⟨pid, -, answered⟩ | ⟨pid, isQos2, received⟩
  · exact .refl b'
  · exact modify_acts (.reply (buildPuback pid)) ⟨⟨⟨rfl, .puback pid⟩, trivial⟩, rfl⟩ answered
  · exact modify_acts (.publishQos2 pid) ⟨⟨⟨rfl, isPublish, qos ▸ isQos2⟩, trivial⟩, trivial⟩ received

theorem publishRouted_acts (isPublish : p.ptype = PUBLISH)
    (routed : b.noRouting p.flags = false)
    (done : b.publishRouted t p.flags p.body = .ok (b', r)) :
    Acts ((Op.packet t p).complies b) b b' := by
  obtain ⟨parsed, parse, done⟩ := Run.bind_ok.mp done
  cases parsed with
  | none =>
    cases done
    exact .refl b
  | some q =>
    obtain ⟨⟨d, dup⟩, acked, done⟩ := Run.bind_ok.mp done
    have to_d := acknowledge_acts isPublish parse acked
    cases dup with
    -- A duplicate at QoS 2 is acknowledged and not forwarded again.
    | true =>
      cases done
      exact to_d
    | false =>
      obtain ⟨⟨e, n⟩, published, done⟩ := Run.bind_ok.mp done
      cases done
      -- The publish runs on the broker that has acknowledged.
      have call : (Op.packet t p).publishCall b = some ⟨d, q.topic, q.payload, q.qos, q.retain⟩ := by
        simp [Op.publishCall, packetCall, isPublish, routed, parse, acked]
      have to_e : Acts ((Op.packet t p).complies b) d e :=
        .one (.publish q.topic q.payload q.qos q.retain) ⟨⟨⟨isPublish, q.pid, parse⟩, call⟩, trivial⟩
          (by simp [Act.run, published])
      exact (to_d.trans to_e).trans
        (.one (.account { e.countPublish with deadPruned := 0 })
          (Op.complies_account _ _ _ _ (.inl ⟨rfl, rfl⟩) (Nat.le_refl _)) rfl)

theorem ack_acts {bad : String} {f : Client → UInt16 → Client} (ch : UInt16 → Change)
    (same : ∀ pid c, f c pid = (ch pid).apply b.now c)
    (admitted : ∀ pid, u16At p.body 0 = .ok pid →
      Act.changes p (ch pid) ∧ (Act.change t (ch pid)).Answers ((Op.packet t p).requests b) b)
    (done : b.handleAck t p.body bad f = .ok (b', r)) : Acts ((Op.packet t p).complies b) b b' := by
  simp only [handleAck] at done
  split at done
  · obtain ⟨pid, parse, done⟩ := Run.bind_ok.mp done
    obtain ⟨d, modified, done⟩ := Run.bind_ok.mp done
    cases done
    simp only [same] at modified
    exact modify_acts (ch pid) ⟨⟨⟨rfl, (admitted pid parse).1⟩, trivial⟩, (admitted pid parse).2⟩ modified
  · cases done
    exact .refl b

/-- A packet is handled by acts it permits. -/
theorem dispatch_acts (healthy : b.Healthy) (done : b.dispatch t p = .ok (b', r)) :
    Acts ((Op.packet t p).complies b) b b' := by
  simp only [dispatch] at done
  split at done
  next type => exact connect_acts healthy type done
  split at done
  next type => exact subscribe_acts healthy type done
  split at done
  next type => exact unsubscribe_acts type done
  split at done
  next type =>
    simp only [handlePublish] at done
    split at done
    next => exact publishFast_acts type done
    next routed => exact publishRouted_acts type (by simpa using routed) done
  split at done
  next type => exact ack_acts .acked (fun _ _ => rfl) (fun _ parse => ⟨⟨.inl type, parse⟩, trivial⟩) done
  split at done
  next type => exact ack_acts .pubrec (fun _ _ => rfl) (fun _ parse => ⟨⟨type, parse⟩, trivial⟩) done
  split at done
  next type => exact ack_acts .pubrel (fun _ _ => rfl) (fun _ parse => ⟨⟨type, parse⟩, trivial⟩) done
  split at done
  next type => exact ack_acts .acked (fun _ _ => rfl) (fun _ parse => ⟨⟨.inr type, parse⟩, trivial⟩) done
  split at done
  next =>
    obtain ⟨d, modified, done⟩ := Run.bind_ok.mp done
    cases done
    exact modify_acts (.reply buildPingresp) ⟨⟨⟨rfl, .pingresp⟩, trivial⟩, rfl⟩ modified
  split at done
  next type =>
    obtain ⟨d, modified, done⟩ := Run.bind_ok.mp done
    cases done
    exact modify_acts .disconnect ⟨⟨⟨rfl, type⟩, trivial⟩, trivial⟩ modified
  · cases done
    exact .refl b

end Broker
end MioBroker
