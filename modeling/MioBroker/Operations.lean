import MioBroker.PacketActs

/-!
# Operations as acts

Disconnection and the sockets, and from them the statement every invariant rests on: an
operation of the event loop is a sequence of acts it permits.
-/
namespace MioBroker

open Rust

namespace Broker

variable {b b' : Broker} {t : Token} {p : Packet} {r : Reply}

theorem save_frame (b : Broker) :
    ∃ stateFile dirty lastSave, b.save = { b with stateFile, dirty, lastSave } := by
  simp only [save]
  split
  · exact ⟨_, _, _, rfl⟩
  · split <;> exact ⟨_, _, _, rfl⟩

theorem save_now (b : Broker) : b.now ≤ b.save.now := by
  obtain ⟨_, _, _, saved⟩ := b.save_frame
  rw [saved]

theorem save_acts {ok : Broker → Act → Prop} (b : Broker) (admitted : ok b (.account b.save)) :
    Acts ok b b.save := by
  refine .one (.account b.save) admitted ?_
  obtain ⟨stateFile, dirty, lastSave, same⟩ := b.save_frame
  rw [same]
  rfl

theorem publishLwt_acts
    (unclean : ∀ c, b.clients.get? t = some c → c.cleanDisconnect = false)
    (done : b.publishLwt t = .ok b') :
    Acts (fun s a => a.removes t ∧ a.Announced s (b.willCall t) [] False ∧ a.Answers [] s) b b' := by
  simp only [publishLwt] at done
  split at done
  next will found =>
    obtain ⟨⟨d, n⟩, published, done⟩ := Run.bind_ok.mp done
    cases done
    obtain ⟨c, connected, set⟩ := Option.bind_eq_some_iff.mp found
    have call : b.willCall t = some ⟨{ b with willLog := b.willLog ++ [(t, will)] }, will.topic,
        will.message, will.qos, will.retain⟩ := by
      simp [willCall, connected, unclean c connected, set]
    -- The will is logged before it is published.
    have logged : Acts (fun s a => a.removes t ∧ a.Announced s (b.willCall t) [] False ∧ a.Answers [] s)
        b { b with willLog := b.willLog ++ [(t, will)] } :=
      .one (.logWill t will) ⟨rfl, trivial, trivial⟩ rfl
    exact logged.trans (.one (.publish will.topic will.message will.qos will.retain)
      ⟨trivial, call, trivial⟩ (by simp [Act.run, published]))
  next =>
    cases done
    exact .refl b

/-- The four parts of a removal, as states. -/
theorem removeClient_parts (done : b.removeClient t = .ok b') :
    ∃ d e,
      ((∀ c, b.clients.get? t = some c → c.cleanDisconnect = false) ∧ b.publishLwt t = .ok d ∨
        (∃ c, b.clients.get? t = some c ∧ c.cleanDisconnect = true) ∧ d = b) ∧
      d.persistSession t = .ok e ∧ b' = (e.dropClient t).save := by
  -- Both branches persist the session, drop the client and save.
  have tail : ∀ d : Broker, (do
      let e ← d.persistSession t
      pure (e.dropClient t).save) = Except.ok b' →
      ∃ e, d.persistSession t = .ok e ∧ b' = (e.dropClient t).save := by
    intro d rest
    obtain ⟨e, persisted, rest⟩ := Run.bind_ok.mp rest
    cases rest
    exact ⟨e, persisted, rfl⟩
  simp only [removeClient] at done
  split at done
  next unclean =>
    obtain ⟨d, lwt, rest⟩ := Run.bind_ok.mp done
    obtain ⟨e, persisted, saved⟩ := tail d rest
    refine ⟨d, e, .inl ⟨fun c found => ?_, lwt⟩, persisted, saved⟩
    simpa [found] using unclean
  next clean =>
    obtain ⟨e, persisted, saved⟩ := tail b done
    refine ⟨b, e, .inr ⟨?_, rfl⟩, persisted, saved⟩
    cases found : b.clients.get? t with
    | none => simp [found] at clean
    | some c => exact ⟨c, rfl, by simpa [found] using clean⟩

theorem removeClient_acts (done : b.removeClient t = .ok b') :
    Acts (fun s a => a.removes t ∧ a.Announced s (b.willCall t) [] False ∧ a.Answers [] s) b b' := by
  obtain ⟨d, e, lwt, persisted, rfl⟩ := removeClient_parts done
  have to_d : Acts (fun s a => a.removes t ∧ a.Announced s (b.willCall t) [] False ∧ a.Answers [] s)
      b d := by
    rcases lwt with ⟨unclean, lwt⟩ | ⟨-, rfl⟩
    · exact publishLwt_acts unclean lwt
    · exact .refl _
  have to_e := to_d.trans (.one (.persist t) ⟨rfl, trivial, trivial⟩ persisted)
  have dropped := to_e.trans (.one (.drop t) ⟨rfl, trivial, trivial⟩ rfl)
  exact dropped.trans (save_acts _ ⟨trivial, .inr rfl, save_now _⟩)

theorem flushWrites_acts {ws : List WriteResult}
    (done : b.flushWrites t ws = .ok b') : Acts ((Op.flush t ws).complies b) b b' := by
  simp only [flushWrites] at done
  obtain ⟨c, found, done⟩ := Run.bind_ok.mp done
  replace found := Run.unwrap_ok found
  have written : Acts ((Op.flush t ws).complies b) b
      { b with clients := b.clients.insert t (c.writeLoop ws).1 } := by
    exact .one (.change t (.write ws)) ⟨⟨.inl rfl, trivial⟩, trivial⟩ (Broker.modifyClient_ok found _)
  split at done
  -- The call of the will is read off the record that the write has left.
  next dead =>
    have same_call : (Op.flush t ws).publishCall b =
        { b with clients := b.clients.insert t (c.writeLoop ws).1 }.willCall t := by
      simp [Op.publishCall, found, dead]
    refine written.trans ((removeClient_acts done).mono fun s a ok => ?_)
    obtain ⟨removing, announced, answers⟩ := ok
    cases a <;> first
      | exact removing.elim
      | exact ⟨⟨.inr (.inr removing), trivial⟩, trivial⟩
      | exact ⟨⟨.inr (.inr removing), same_call.trans announced⟩, trivial⟩
      | exact Op.complies_account _ _ _ _ announced answers
  -- A write that goes on arms the socket for what is left to do.
  next alive =>
    cases done
    generalize (if (c.writeLoop ws).2 = .wroteAll then Interest.readable else .readableWritable) = interest
    refine written.trans (Acts.trans (b := { b with
      clients := (b.clients.insert t (c.writeLoop ws).1).insert t { (c.writeLoop ws).1 with interest } })
      (.one (.change t (.rearm interest)) ⟨⟨.inr (.inl ⟨interest, rfl⟩), trivial⟩, trivial⟩ ?_)
      (.one (.account { b with sysMsgsSent := b.sysMsgsSent + 1 })
        (Op.complies_account _ _ _ _ (.inl ⟨rfl, rfl⟩) (Nat.le_refl _)) rfl))
    simp [Act.run, modifyClient, Change.apply]

theorem readChunk_acts {read : ReadResult} {out : Except Unit Bool}
    (done : b.readChunk t read = .ok (b', out)) :
    Acts (fun _ a => ∃ buf, a = .change t (.buffer buf) ∨ a = .change t .alive) b b' := by
  simp only [readChunk] at done
  obtain ⟨c, found, done⟩ := Run.bind_ok.mp done
  replace found := Run.unwrap_ok found
  cases read with
  | wouldBlock =>
    cases done
    exact .refl b
  | err =>
    cases done
    exact .refl b
  | ok chunk =>
    cases chunk with
    -- An empty read is the end of the stream; the buffer stays.
    | nil =>
      cases done
      exact .refl b
    | cons x xs =>
      cases done
      exact .one (.change t (.buffer (c.readBuf ++ x :: xs))) ⟨_, .inl rfl⟩
        (Broker.modifyClient_ok found _)

theorem beginBatch_acts {out : Except String (List Packet)}
    (done : b.beginBatch t = .ok (b', out)) :
    Acts (fun _ a => ∃ buf, a = .change t (.buffer buf) ∨ a = .change t .alive) b b' := by
  simp only [beginBatch] at done
  obtain ⟨c, found, done⟩ := Run.bind_ok.mp done
  replace found := Run.unwrap_ok found
  split at done
  · cases done
    exact .refl b
  · -- The packets are taken off the buffer even when what follows them is refused.
    have tailed : Acts (fun _ a => ∃ buf, a = .change t (.buffer buf) ∨ a = .change t .alive) b
        { b with clients := b.clients.insert t { c with readBuf := (frame c.readBuf).rest } } := by
      exact .one (.change t (.buffer (frame c.readBuf).rest)) ⟨_, .inl rfl⟩
        (Broker.modifyClient_ok found _)
    split at done
    · cases done
      exact tailed
    · cases done
      refine tailed.trans (.one (.change t .alive) ⟨[], .inr rfl⟩ ?_)
      simp [Act.run, modifyClient, Change.apply]

theorem receive_acts {read : ReadResult} {out : Outcome}
    (done : b.receive t read = .ok (b', out)) :
    Acts (fun _ a => ∃ buf, a = .change t (.buffer buf) ∨ a = .change t .alive) b b' := by
  simp only [receive] at done
  obtain ⟨⟨d, chunk⟩, first, done⟩ := Run.bind_ok.mp done
  have to_d := readChunk_acts first
  rcases chunk with ⟨⟩ | ⟨⟨⟩ | ⟨⟩⟩
  · cases done
    exact to_d
  · cases done
    exact to_d
  · obtain ⟨⟨e, pkts⟩, second, done⟩ := Run.bind_ok.mp done
    have to_e := to_d.trans (beginBatch_acts second)
    cases pkts <;>
    · cases done
      exact to_e

end Broker

theorem Op.packet_ok {b b' : Broker} {t : Token} {p : Packet} {out : Outcome}
    (done : (Op.packet t p).run b = .ok (b', out)) : ∃ r, b.dispatch t p = .ok (b', r) := by
  obtain ⟨⟨d, r⟩, dispatched, done⟩ := Run.bind_ok.mp done
  cases r <;>
  · cases done
    exact ⟨_, dispatched⟩

/-- Every operation is a sequence of acts it permits and announces, and these answer what it is
asked for. -/
theorem Op.acts_complying (op : Op) {b b' : Broker} {out : Outcome} (healthy : b.Healthy)
    (done : op.run b = .ok (b', out)) : Acts (op.complies b) b b' := by
  -- Counters and the clock are the one thing these operations touch.
  have account : ∀ s : Broker, b.Audited s → b.now ≤ s.now → (Act.account s).run b = .ok s →
      Acts (op.complies b) b s :=
    fun s audited clock same => .one (.account s) (op.complies_account _ _ _ audited clock) same
  cases op with
  | idle =>
    cases done
    exact .refl b
  | tick dt fault =>
    cases done
    exact account _ (.inl ⟨rfl, rfl⟩) (Nat.le_add_right _ _) rfl
  | accept h₁ h₂ =>
    cases done
    exact .one (.accept h₁ h₂) ⟨⟨rfl, trivial⟩, trivial⟩ rfl
  | receive t read =>
    refine (Broker.receive_acts done).mono fun s a => ?_
    rintro ⟨buf, rfl | rfl⟩
    · exact ⟨⟨⟨buf, .inl rfl⟩, trivial⟩, trivial⟩
    · exact ⟨⟨⟨buf, .inr rfl⟩, trivial⟩, trivial⟩
  | packet t p =>
    obtain ⟨⟨d, r⟩, dispatched, done⟩ := Run.bind_ok.mp done
    have acts := Broker.dispatch_acts healthy dispatched
    cases r <;>
    · cases done
      exact acts
  | endBatch n =>
    cases done
    exact account _ (.inl ⟨rfl, rfl⟩) (Nat.le_refl _) rfl
  | remove t =>
    obtain ⟨d, removed, done⟩ := Run.bind_ok.mp done
    cases done
    refine (Broker.removeClient_acts removed).mono fun s a ok => ?_
    obtain ⟨removing, announced, answers⟩ := ok
    cases a <;> first
      | exact removing.elim
      | exact ⟨⟨removing, announced⟩, answers⟩
  | flush t ws =>
    obtain ⟨d, flushed, done⟩ := Run.bind_ok.mp done
    cases done
    exact Broker.flushWrites_acts flushed
  | quiesce t =>
    cases done
    simp only [Broker.quiesce]
    split
    next c found =>
      exact .one (.change t (.rearm .readable)) ⟨⟨rfl, trivial⟩, trivial⟩ (Broker.modifyClient_ok found _)
    next => exact .refl b
  | publish topic payload qos retain =>
    obtain ⟨⟨d, n⟩, published, done⟩ := Run.bind_ok.mp done
    cases done
    exact .one (.publish topic payload qos retain) ⟨⟨rfl, rfl⟩, trivial⟩ (by simp [Act.run, published])
  | sysPublished =>
    cases done
    exact account _ (.inl ⟨rfl, rfl⟩) (Nat.le_refl _) rfl
  | retry t pid pkt scanned =>
    have result : (b.retry t pid pkt scanned).1 = b' := congrArg Prod.fst (Except.ok.inj done)
    subst result
    simp only [Broker.retry]
    cases found : b.clients.get? t with
    | none => exact .refl b
    | some c =>
      refine .one (.change t (.retry pid pkt scanned)) ⟨⟨rfl, trivial⟩, trivial⟩ ?_
      simp only [Act.run, Broker.modifyClient, found, Change.apply]
      rcases c.queueQos1 pkt with ⟨d, ⟨⟨⟩⟩ | ⟨⟨⟩⟩⟩ <;> rfl
  | save =>
    cases done
    exact Broker.save_acts b (Op.complies_account _ _ _ _ (.inr rfl) b.save_now)

theorem Op.acts (op : Op) {b b' : Broker} {out : Outcome} (healthy : b.Healthy)
    (done : op.run b = .ok (b', out)) : Acts (op.conforms b) b b' :=
  (op.acts_complying healthy done).mono fun _ _ ok => ok.1

/-- Every operation keeps caps and index in order. -/
theorem Broker.Healthy.op {b b' : Broker} {out : Outcome} (healthy : b.Healthy) (op : Op)
    (done : op.run b = .ok (b', out)) : b'.Healthy := (op.acts healthy done).healthy healthy

/-- A call of `publish` finds caps and index in order. -/
theorem Broker.healthy_publishCall {b : Broker} (healthy : b.Healthy) (op : Op) {call : PublishCall}
    (made : op.publishCall b = some call) : call.broker.Healthy := by
  have will : ∀ (d : Broker) (t : Token), d.Healthy → d.willCall t = some call →
      call.broker.Healthy := by
    intro d t healthy made
    obtain ⟨c, w, -, -, -, rfl⟩ := Broker.willCall_some made
    exact ⟨healthy.indexed, healthy.capped⟩
  cases op with
  | packet t p =>
    obtain ⟨isPublish, -, q, d, parse, acked, rfl⟩ := Broker.packetCall_some made
    exact (Broker.acknowledge_acts isPublish parse acked).healthy healthy
  | remove t => exact will b t healthy made
  | flush t ws =>
    obtain ⟨c, found, -, called⟩ := Op.publishCall_flush made
    have capped := (healthy.capped t c found).change b.now (.write ws)
    exact will { b with clients := b.clients.insert t (c.writeLoop ws).1 } t
      ⟨healthy.indexed, healthy.modify t _ capped⟩ called
  | publish topic payload qos retain =>
    cases made
    exact healthy
  | _ => cases made

end MioBroker
