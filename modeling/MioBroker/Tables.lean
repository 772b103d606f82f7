import MioBroker.Connections
import MioBroker.Pruning

/-!
# Subscriptions, connections and sessions

Every subscription belongs to a connection, and a persistent client that leaves finds its
subscriptions in its session, as long as `deliver_to` erases no connection.
-/
namespace MioBroker

open Rust

/-- Where a subscription comes from, and that the acts of a closing leave none behind. -/
theorem Act.subs_origin {a : Act} {b b' : Broker} (healthy : b.Healthy) (done : a.run b = .ok b')
    {sub : Subscription} (member : sub ∈ b'.subs) :
    (sub ∈ b.subs ∨ a = .addSub sub.filter sub.token sub.qos) ∧ a ≠ .drop sub.token := by
  -- Only a SUBSCRIBE adds, and a drop leaves nothing of its token.
  rcases Act.subs_cases healthy done with ⟨same, undropped⟩ | ⟨topic, payload, qos, retain, rfl, spec⟩ |
    ⟨filter, t, qos, rfl, subs⟩ | ⟨t, filters, rfl, subs⟩ | ⟨t, rfl, -, subs⟩
  · exact ⟨.inl (same ▸ member), undropped sub.token⟩
  · exact ⟨.inl (spec.subperm.subset member), by simp⟩
  · refine ⟨?_, by simp⟩
    rw [subs] at member
    rcases List.mem_append.mp member with old | new
    · exact .inl old
    · rw [List.mem_singleton] at new
      subst new
      exact .inr rfl
  · rw [subs] at member
    exact ⟨.inl (List.mem_of_mem_filter member), by simp⟩
  · rw [subs] at member
    obtain ⟨old, other⟩ := List.mem_filter.mp member
    refine ⟨.inl old, fun same => ?_⟩
    cases same
    simp at other

namespace Broker

/-- Every subscription belongs to a connection. -/
def Rooted (b : Broker) : Prop := ∀ sub ∈ b.subs, ∃ c, b.clients.get? sub.token = some c

theorem Rooted.act {a : Act} {b b' : Broker} (rooted : b.Rooted) (healthy : b.Healthy)
    (done : a.run b = .ok b') (spared : ¬a.Erases b)
    (adds : ∀ filter t qos, a = .addSub filter t qos → ∃ c, b.clients.get? t = some c) :
    b'.Rooted := by
  intro sub member
  obtain ⟨origin, undropped⟩ := Act.subs_origin healthy done member
  have before : ∃ c, b.clients.get? sub.token = some c := by
    rcases origin with old | added
    · exact rooted sub old
    · exact adds _ _ _ added
  obtain ⟨c, found⟩ := before
  exact Act.stays healthy done (fun erased => spared erased.erases) undropped found

theorem Rooted.op {op : Op} {b b' : Broker} {out : Outcome} (rooted : b.Rooted) (healthy : b.Healthy)
    (done : op.run b = .ok (b', out)) (calm : ¬op.Overflows b)
    (sender : ∀ t p, op = .packet t p → ∃ c, b.clients.get? t = some c) : b'.Rooted := by
  refine (op.invariant healthy done calm
    (fun s => s.Rooted ∧ ∀ t p, op = .packet t p → ∃ c, s.clients.get? t = some c) ?_
    ⟨rooted, sender⟩).1
  rintro s a s' healthy ⟨rooted, sender⟩ ok spared next
  constructor
  · refine rooted.act healthy next spared fun filter t qos same => ?_
    subst same
    -- only a packet of the connection itself adds subscriptions
    obtain ⟨p, rfl⟩ := Op.permits_addSub ok.1
    exact sender _ p rfl
  · intro t p same
    obtain ⟨c, found⟩ := sender t p same
    refine Act.stays healthy next (fun erased => spared erased.erases) (fun dropped => ?_) found
    have closing := Op.closing_of_removal (dropped ▸ ok.1) (.inr (.inl rfl))
    rw [same] at closing
    cases closing

/-! ### What a removal stores -/

theorem mem_foldl_addMissing (own subs : List (Str × UInt8)) (x : Str × UInt8) :
    x ∈ own.foldl addMissing subs ↔ x ∈ subs ∨ x ∈ own := by
  induction own generalizing subs with
  | nil => simp
  | cons s own ih =>
    have one : x ∈ addMissing subs s ↔ x ∈ subs ∨ x = s := by
      simp only [addMissing]
      split
      next there =>
        have inside : s ∈ subs := by simpa using there
        exact ⟨.inl, fun h => h.elim id fun same => same ▸ inside⟩
      next => simp
    rw [List.foldl_cons, ih, one, List.mem_cons]
    exact or_assoc

variable {b b' : Broker} {t : Token} {c : Client}

/-- The will of a departing client, as long as it costs the client neither its entry nor a
subscription. -/
theorem publishLwt_spares (healthy : b.Healthy) (found : b.clients.get? t = some c)
    (unclean : c.cleanDisconnect = false) (done : b.publishLwt t = .ok b')
    (calm : ∀ call, b.willCall t = some call → ¬call.Overflows ∧ ¬call.Refused t) :
    ∃ d, b'.clients.get? t = some d ∧ Client.Offered c d ∧ KeepsSubs b b' t := by
  simp only [publishLwt, found, Option.bind_some] at done
  split at done
  next will set =>
    obtain ⟨⟨d, n⟩, published, done⟩ := Run.bind_ok.mp done
    cases done
    have call : b.willCall t = some ⟨{ b with willLog := b.willLog ++ [(t, will)] }, will.topic,
        will.message, will.qos, will.retain⟩ := by
      simp [willCall, found, unclean, set]
    obtain ⟨fits, unrefused⟩ := calm _ call
    have healthy' : ({ b with willLog := b.willLog ++ [(t, will)] } : Broker).Healthy :=
      ⟨healthy.indexed, healthy.capped⟩
    obtain ⟨e, m, run, spec⟩ := publish_spec { b with willLog := b.willLog ++ [(t, will)] }
      healthy.indexed will.topic will.message will.qos will.retain
    cases run.symm.trans published
    -- The will overflows nobody, and so not the one that leaves it.
    have there : ∃ e, d.clients.get? t = some e := by
      refine Option.ne_none_iff_exists'.mp fun gone => fits (erases_overflows healthy' ⟨t, c, found, ?_⟩)
      rw [← found]
      exact (spec.slots t).symm.trans gone
    obtain ⟨e, after⟩ := there
    obtain ⟨c', before, fed⟩ := spec.fed t e after
    cases found.symm.trans before
    have spared := (PublishCall.spares_iff healthy' spec found).mpr unrefused
    exact ⟨e, after, fed.offered, spared.2 ((HashMap.contains_iff _ _).mpr ⟨e, after⟩)⟩
  next =>
    cases done
    exact ⟨c, found, .refl c, .refl b t⟩

/-- A persistent client that is removed finds its subscriptions in its session. -/
theorem removeClient_stores (healthy : b.Healthy) (found : b.clients.get? t = some c)
    (persistent : c.cleanSession = false) (named : c.clientId.isEmpty = false)
    (done : b.removeClient t = .ok b')
    (calm : ∀ call, b.willCall t = some call → ¬call.Overflows ∧ ¬call.Refused t) :
    ∃ sess, b'.sessions.get? c.clientId = some sess ∧
      ∀ sub ∈ b.subs, sub.token = t → (sub.filter, sub.qos) ∈ sess.subs := by
  obtain ⟨d, e, lwt, persisted, rfl⟩ := removeClient_parts done
  have kept : ∃ c', d.clients.get? t = some c' ∧ Client.Offered c c' ∧ KeepsSubs b d t := by
    rcases lwt with ⟨unclean, lwt⟩ | ⟨-, rfl⟩
    · exact publishLwt_spares healthy found (unclean c found) lwt calm
    · exact ⟨c, found, .refl c, .refl _ t⟩
  obtain ⟨c', found', offered, kept⟩ := kept
  have same : c'.cleanSession = false ∧ c'.clientId = c.clientId := by
    rw [offered.frame]
    exact ⟨persistent, rfl⟩
  simp only [persistSession, found', same.1, same.2, named, Bool.not_false, Bool.and_self,
    if_true] at persisted
  obtain ⟨offline, -, persisted⟩ := Run.bind_ok.mp persisted
  cases persisted
  obtain ⟨_, _, _, saved⟩ := save_frame (dropClient _ t)
  rw [saved]
  obtain ⟨_, _, dropped⟩ := dropClient_frame { d with
    sessions := d.sessions.insert c.clientId
      ⟨(d.subsOf t).foldl addMissing ((d.sessions.get? c.clientId).getD ⟨[], []⟩).subs,
        offline.foldl addCapped ((d.sessions.get? c.clientId).getD ⟨[], []⟩).offline⟩
    dirty := true } t
  rw [dropped]
  refine ⟨_, HashMap.get?_insert_self _ _ _, fun sub member own => ?_⟩
  -- No subscription was pruned, so each is still there to be persisted.
  have still : sub ∈ d.subs := by
    have positive := List.count_pos_iff.mpr member
    have := kept sub own
    exact List.count_pos_iff.mp (by omega)
  refine (mem_foldl_addMissing _ _ _).mpr (.inr ?_)
  exact List.mem_map.mpr ⟨sub, List.mem_filter.mpr ⟨still, by simpa using own⟩, rfl⟩

end Broker

/-- A connection that an operation takes away without overflowing anything was closed by
`remove_client`. -/
theorem Op.closes {op : Op} {b b' : Broker} {out : Outcome} (healthy : b.Healthy)
    (done : op.run b = .ok (b', out)) (calm : ¬op.Overflows b) {t : Token} {c : Client}
    (found : b.clients.get? t = some c) (gone : b'.clients.get? t = none) :
    ∃ (d : Broker) (c' : Client), d.removeClient t = .ok b' ∧ op.publishCall b = d.willCall t ∧
      d.Healthy ∧ d.subs = b.subs ∧ d.clients.get? t = some c' ∧ c'.clientId = c.clientId ∧
      c'.cleanSession = c.cleanSession := by
  -- Without an overflow the client can only have been closed.
  have closing : op.closing = some t := by
    by_contra unclosed
    obtain ⟨d, there⟩ := op.stays healthy done calm unclosed found
    rw [gone] at there
    cases there
  cases op with
  | remove k =>
    cases closing
    obtain ⟨d, removed, done⟩ := Run.bind_ok.mp done
    cases done
    exact ⟨b, c, removed, rfl, healthy, rfl, found, rfl, rfl⟩
  | flush k ws =>
    cases closing
    obtain ⟨d, flushed, done⟩ := Run.bind_ok.mp done
    cases done
    simp only [Broker.flushWrites, found, Run.unwrap_some, Run.ok_bind] at flushed
    split at flushed
    next dead =>
      have capped := (healthy.capped t c found).change b.now (.write ws)
      refine ⟨_, (c.writeLoop ws).1, flushed, ?_, ⟨healthy.indexed, healthy.modify t _ capped⟩, rfl,
        HashMap.get?_insert_self _ _ _, ?_, ?_⟩
      · simp [Op.publishCall, found, dead]
      · rw [(Client.writeLoop_frame ws c).1]
      · rw [(Client.writeLoop_frame ws c).1]
    next alive =>
      cases flushed
      simp at gone
  | _ => cases closing

namespace Loop

theorem CalmRun.rooted {s₀ s : Loop} {ios : List Io} (start : s₀.Initial) (path : CalmRun s₀ ios s) :
    s.broker.Rooted := by
  refine (path.invariant (fun s => s.Sane ∧ s.broker.Rooted) ?_ ⟨sane_initial start, ?_⟩).2
  · rintro s io t ⟨sane, rooted⟩ ok done
    refine ⟨sane.step ok.2 done, ?_⟩
    obtain ⟨b, out, ran, rfl⟩ := step_ok.mp done
    refine rooted.op sane.healthy ran ok.2 fun k p same => ?_
    obtain ⟨todo, n, next, failed, here⟩ := op_packet same
    have attended := sane.attended
    rw [here] at attended
    exact attended.1
  · intro sub member
    rw [start.startup.unsubscribed] at member
    cases member

end Loop

/-- In a run in which `deliver_to` erases no connection, every subscription belongs to a
connection, and a step that takes a persistent client away stores all its subscriptions, unless
the client's own will meets its full queue. -/
theorem tables_whole (s₀ : Loop) (ios : List Io) (s : Loop) (start : s₀.Initial)
    (path : Loop.CalmRun s₀ ios s) :
    (∀ sub ∈ s.broker.subs, s.broker.clients.contains sub.token = true) ∧
    ∀ io s', s.admits io = true → s.Calm io → s.step io = .ok s' →
      ∀ t c, s.broker.clients.get? t = some c → s'.broker.clients.contains t = false →
      (∀ sub ∈ s'.broker.subs, sub.token ≠ t) ∧
      ((∀ call, (s.op io).publishCall s.broker = some call → ¬call.Refused t) →
        c.cleanSession = false → c.clientId.isEmpty = false →
        ∃ sess, s'.broker.sessions.get? c.clientId = some sess ∧
          ∀ sub ∈ s.broker.subs, sub.token = t → (sub.filter, sub.qos) ∈ sess.subs) := by
  constructor
  · intro sub member
    exact (HashMap.contains_iff _ _).mpr (path.rooted start sub member)
  · intro io s' admitted calm done t c found gone
    have sane := path.sane (Loop.sane_initial start)
    -- Every subscription belongs to a client, after the step as well.
    have rooted' := Loop.CalmRun.rooted start (path.snoc io ⟨admitted, calm⟩ done)
    have gone' := (HashMap.contains_eq_false _ _).mp gone
    refine ⟨fun sub member same => ?_, fun unrefused persistent named => ?_⟩
    · obtain ⟨d, there⟩ := rooted' sub member
      rw [same, gone'] at there
      cases there
    · obtain ⟨b, out, ran, rfl⟩ := Loop.step_ok.mp done
      obtain ⟨d, c', removed, call, healthy, subs, found', id, clean⟩ :=
        Op.closes sane.healthy ran calm found gone'
      rw [← id, ← subs]
      refine Broker.removeClient_stores healthy found' (clean.trans persistent) (by rw [id]; exact named)
        removed fun call' made => ?_
      rw [← call] at made
      exact ⟨fun exceeds => calm (.inl ⟨call', made, exceeds⟩), unrefused call' made⟩

/-- A persistent client with two subscriptions hangs up. -/
theorem tables_whole_hangUp : ∃ s s' : Loop, s.step .quiet = .ok s' ∧ s.broker.subs.length = 2 ∧
    (∀ sub ∈ s.broker.subs, s.broker.clients.contains sub.token = true ∧ sub.token = 1) ∧
    (∀ sub ∈ s'.broker.subs, sub.token ≠ 1) ∧
    ∃ c sess, s.broker.clients.get? 1 = some c ∧ s'.broker.sessions.get? c.clientId = some sess ∧
      ∀ sub ∈ s.broker.subs, sub.token = 1 → (sub.filter, sub.qos) ∈ sess.subs := by
  obtain ⟨s, path, checked⟩ := Loop.exists_calm (greet ++ [.read []]) (fun s =>
    decide (s.broker.subs.length = 2) && (s.broker.subs.all fun sub => sub.token = 1) && s.calmly .quiet &&
      (((s.op .quiet).publishCall s.broker).all fun call =>
        (call.broker.forwards 1 call.topic call.qos).isEmpty) &&
      ((s.broker.clients.get? 1).any fun c => !c.cleanSession && !c.clientId.isEmpty) &&
      (s.step .quiet).toOption.any fun s' => !s'.broker.clients.contains 1) (by decide +kernel)
  simp only [Bool.and_eq_true, decide_eq_true_eq, List.all_eq_true, Option.all_eq_true, Option.any_eq_true,
    Bool.not_eq_true'] at checked
  obtain ⟨⟨⟨⟨⟨two, own⟩, calm⟩, silent⟩, c, found, persistent, named⟩, s', stepped, gone⟩ := checked
  have done : s.step .quiet = .ok s' := by
    cases result : s.step .quiet with
    | error e =>
      rw [result] at stepped
      cases stepped
    | ok u =>
      rw [result] at stepped
      cases stepped
      rfl
  obtain ⟨rooted, removal⟩ := tables_whole Loop.fresh _ s Loop.fresh_initial path
  obtain ⟨taken, stored⟩ := removal .quiet s' s.admits_quiet (Loop.calm_of_calmly calm) done 1 c found gone
  -- nothing is forwarded to the client itself
  have unrefused : ∀ call, (s.op .quiet).publishCall s.broker = some call → ¬call.Refused 1 := by
    rintro call made ⟨d, -, j, unreliable, -⟩
    rw [List.isEmpty_iff.mp (silent call made)] at unreliable
    cases unreliable
  obtain ⟨sess, there, kept⟩ := stored unrefused persistent named
  exact ⟨s, s', done, two, fun sub member => ⟨rooted sub member, own sub member⟩, taken, c, sess, found,
    there, kept⟩

/-- The last of 257 PUBLISH packets to a topic the sender subscribes to at QoS 1. -/
theorem tables_broken :
    ¬∀ s : Loop, s.Reachable → ∀ io s', s.admits io = true → s.step io = .ok s' →
      ∀ t c, s.broker.clients.get? t = some c → s'.broker.clients.contains t = false →
      (∀ sub ∈ s'.broker.subs, sub.token ≠ t) ∧
      (c.cleanSession = false → c.clientId.isEmpty = false →
        ∃ sess, s'.broker.sessions.get? c.clientId = some sess ∧
          ∀ sub ∈ s.broker.subs, sub.token = t → (sub.filter, sub.qos) ∈ sess.subs) := by
  intro claim
  obtain ⟨ios, s, s', path, -, admitted, step, full, lost⟩ := exists_self_overflow
  obtain ⟨c, found, -⟩ := full.client
  have whole := claim s ⟨_, _, Loop.fresh_initial, path⟩ .quiet s' admitted step 1 c found
    ((HashMap.contains_eq_false _ _).mpr lost.gone)
  obtain ⟨sub, member, token⟩ := lost.orphan
  exact whole.1 sub member token

end MioBroker
