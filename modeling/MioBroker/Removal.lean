import MioBroker.AtLeastOnce

/-!
# What a removal does

`remove_client` publishes the will, stores the session and drops the connection. What each part
leaves of connections, subscriptions and sessions is said here; without a removal an operation
drops nothing and stores no session.
-/
namespace MioBroker

open Rust

namespace Broker

variable {b b' d : Broker} {t : Token}

/-- The will of `t` costs the connection `k` its entry. -/
def WillExpels (b : Broker) (t k : Token) (e : Client) : Prop :=
  ∃ call, b.willCall t = some call ∧ call.OverflowsAt k e

/-- The state behind the will of `t`. -/
structure Willed (b : Broker) (t : Token) (d : Broker) : Prop where
  subs : d.subs.Subperm b.subs
  filters : ∀ cid, (d.sessions.get? cid).map SessionState.subs = (b.sessions.get? cid).map SessionState.subs
  survivors : ∀ k e', d.clients.get? k = some e' → ∃ e, b.clients.get? k = some e ∧ Client.Offered e e'
  expelled : ∀ k e, b.clients.get? k = some e → (d.clients.get? k = none ↔ b.WillExpels t k e)

theorem willed_of_afterWill (healthy : b.Healthy) (done : b.afterWill t = .ok d) : b.Willed t d := by
  cases called : b.willCall t with
  | none =>
    cases (afterWill_none called).symm.trans done
    refine ⟨.refl _, fun _ => rfl, fun k e there => ⟨e, there, .refl e⟩, fun k e there => ?_⟩
    constructor
    · intro gone
      rw [there] at gone
      cases gone
    · rintro ⟨call, made, -⟩
      rw [called] at made
      cases made
  | some call =>
    obtain ⟨clients, sessions, subs, d', done', spec⟩ := afterWill_some healthy called
    cases done'.symm.trans done
    refine ⟨subs ▸ spec.subperm, fun cid => ?_, fun k e' there => ?_, fun k e there => ?_⟩
    · rw [spec.sessions, sessions]
      split
      · cases b.sessions.get? cid <;> simp
      · rfl
    · obtain ⟨e, before, fed⟩ := spec.fed k e' there
      exact ⟨e, clients ▸ before, fed.offered⟩
    · -- The clients that the will loses are those it overflows.
      have capped := healthy.capped k e there
      rw [spec.slots k, clients, there,
        Client.serve_eq_none_iff _ _ _ _ e capped.queue capped.window]
      constructor
      · exact fun exceeds => ⟨call, called, exceeds⟩
      · rintro ⟨call', made, exceeds⟩
        cases called.symm.trans made
        exact exceeds

namespace Willed

theorem stored (willed : b.Willed t d) (cid : Str) :
    d.sessions.get? cid = none ↔ b.sessions.get? cid = none := by
  rw [← Option.map_eq_none_iff (f := SessionState.subs), willed.filters, Option.map_eq_none_iff]

theorem sessionSubs (willed : b.Willed t d) (cid : Str) : d.sessionSubs cid = b.sessionSubs cid := by
  rw [Broker.sessionSubs, Broker.sessionSubs, willed.filters]

end Willed

/-- The tables behind a removal. -/
theorem removeClient_spec (healthy : b.Healthy) (done : b.removeClient t = .ok b') :
    ∃ d, b.afterWill t = .ok d ∧ b.Willed t d ∧
      (∀ k, b'.clients.get? k = if k = t then none else d.clients.get? k) ∧
      (b'.sessions = d.sessions ∧ (∀ c, d.clients.get? t = some c → ¬c.Persistent) ∨
        ∃ c offline, d.clients.get? t = some c ∧ c.Persistent ∧
          (c.reliablePackets.mapM fun e => decodeQueued e.2) = .ok offline ∧
          b'.sessions = d.sessions.insert c.clientId (d.departure t c offline)) := by
  rw [removeClient_eq] at done
  obtain ⟨d, willed, done⟩ := Run.bind_ok.mp done
  obtain ⟨e, persisted, done⟩ := Run.bind_ok.mp done
  cases done
  obtain ⟨_, _, _, saved⟩ := save_frame (e.dropClient t)
  obtain ⟨_, _, dropped⟩ := e.dropClient_frame t
  refine ⟨d, willed, willed_of_afterWill healthy willed, fun k => ?_, ?_⟩
  · obtain ⟨_, _, rfl⟩ := d.persistSession_frame e t persisted
    rw [saved, dropped, HashMap.get?_erase]
  · rw [saved, dropped]
    rcases persistSession_ok persisted with ⟨rfl, other⟩ | ⟨c, offline, found, persistent, decoded, rfl⟩
    · exact .inl ⟨rfl, other⟩
    · exact .inr ⟨c, offline, found, persistent, decoded, rfl⟩

/-- A session behind a removal: one that was there, with the same filters, or the one of the client
removed, which was still there behind its will. -/
theorem removeClient_session {cid : Str} {sess : SessionState} (healthy : b.Healthy)
    (done : b.removeClient t = .ok b') (stored : b'.sessions.get? cid = some sess) :
    (∃ before, b.sessions.get? cid = some before ∧ sess.subs = before.subs) ∨
      ∃ c d, b.clients.get? t = some c ∧ c.Persistent ∧ c.clientId = cid ∧ b.Willed t d ∧
        ¬b.WillExpels t t c ∧ sess.subs = (d.subsOf t).foldl addMissing (d.sessionSubs cid) := by
  obtain ⟨d, -, willed, -, sessions⟩ := removeClient_spec healthy done
  -- The will adds to backlogs and leaves the filters of a session alone.
  have old : d.sessions.get? cid = some sess →
      ∃ before, b.sessions.get? cid = some before ∧ sess.subs = before.subs := by
    intro there
    have filters := willed.filters cid
    rw [there] at filters
    obtain ⟨before, found, same⟩ := Option.map_eq_some_iff.mp filters.symm
    exact ⟨before, found, same.symm⟩
  rcases sessions with ⟨same, -⟩ | ⟨c', offline, there, persistent, -, same⟩
  · exact .inl (old (same ▸ stored))
  · rw [same, HashMap.get?_insert] at stored
    split at stored
    next own =>
      cases stored
      -- The record that is persisted is the one the will has left.
      obtain ⟨c, found, offered⟩ := willed.survivors t c' there
      rw [Client.Persistent, offered.frame] at persistent
      refine .inr ⟨c, d, found, persistent, ?_, willed, ?_, ?_⟩
      · rw [own, offered.frame]
      · intro expelled
        rw [(willed.expelled t c found).mpr expelled] at there
        cases there
      · rw [own, departure, sessionSubs]
        cases d.sessions.get? c'.clientId <;> rfl
    next => exact .inl (old stored)

end Broker

/-- Without a removal, an operation consists of acts that drop no connection and store no session. -/
theorem Op.acts_staying {op : Op} {b b' : Broker} {out : Outcome} (healthy : b.Healthy)
    (unremoved : op.removal b = none) (done : op.run b = .ok (b', out)) :
    Acts (fun s a => op.conforms b s a ∧ ∀ t, a ≠ .persist t ∧ a ≠ .drop t) b b' := by
  by_cases flushes : ∃ t ws, op = .flush t ws
  · obtain ⟨t, ws, rfl⟩ := flushes
    obtain ⟨d, flushed, done⟩ := Run.bind_ok.mp done
    cases done
    simp only [Broker.flushWrites] at flushed
    obtain ⟨c, found, flushed⟩ := Run.bind_ok.mp flushed
    replace found := Run.unwrap_ok found
    split at flushed
    -- A failed write removes the client, so it is excluded here.
    next dead => simp [removal, found, dead] at unremoved
    next alive =>
      cases flushed
      generalize (if (c.writeLoop ws).2 = .wroteAll then Interest.readable else .readableWritable) =
        interest
      refine Acts.trans (b := { b with clients := b.clients.insert t (c.writeLoop ws).1 })
        (.one (.change t (.write ws)) ⟨⟨.inl rfl, trivial⟩, by simp⟩ ?_) (Acts.trans (b := { b with
          clients := (b.clients.insert t (c.writeLoop ws).1).insert t
            { (c.writeLoop ws).1 with interest } })
        (.one (.change t (.rearm interest)) ⟨⟨.inr (.inl ⟨interest, rfl⟩), trivial⟩, by simp⟩ ?_)
        (.one (.account { b with sysMsgsSent := b.sysMsgsSent + 1 })
          ⟨Op.conforms_account _ _ _ _ (.inl ⟨rfl, rfl⟩), by simp⟩ rfl))
      · exact Broker.modifyClient_ok found _
      · simp [Act.run, Broker.modifyClient, Change.apply]
  · -- Only a removal persists and drops.
    have stays : ∀ t, op ≠ .remove t ∧ ∀ ws, op ≠ .flush t ws := by
      refine fun t => ⟨?_, fun ws same => flushes ⟨t, ws, same⟩⟩
      rintro rfl
      cases unremoved
    refine (op.acts healthy done).mono fun s a ok => ⟨ok, fun t => ⟨?_, ?_⟩⟩
    all_goals
      rintro rfl
    · rcases Op.permits_removal ok.1 (.inl rfl) with same | ⟨ws, same⟩
      · exact (stays t).1 same
      · exact (stays t).2 ws same
    · rcases Op.permits_removal ok.1 (.inr (.inl rfl)) with same | ⟨ws, same⟩
      · exact (stays t).1 same
      · exact (stays t).2 ws same

/-- The filters of a session that an operation without removal leaves behind were there before. -/
theorem Op.session_staying {op : Op} {b b' : Broker} {out : Outcome} (healthy : b.Healthy)
    (unremoved : op.removal b = none) (done : op.run b = .ok (b', out)) {cid : Str}
    {sess : SessionState} (stored : b'.sessions.get? cid = some sess) :
    ∃ before, b.sessions.get? cid = some before ∧ sess.subs = before.subs := by
  refine (Op.acts_staying healthy unremoved done).keeps healthy (fun s =>
    ∀ cid sess, s.sessions.get? cid = some sess →
      ∃ before, b.sessions.get? cid = some before ∧ sess.subs = before.subs) ?_
    (fun cid sess there => ⟨sess, there, rfl⟩) cid sess stored
  rintro s a s' healthy kept ⟨-, stays⟩ next cid sess there
  rcases Act.session_origin healthy next there with
    old | ⟨topic, payload, qos, retain, before, -, found, rfl⟩ | ⟨t, c, offline, same, -⟩
  · exact kept cid sess old
  · obtain ⟨first, found', same⟩ := kept cid before found
    exact ⟨first, found', by rw [SessionState.subs_enqueue, same]⟩
  · exact absurd same (stays t).1

end MioBroker
