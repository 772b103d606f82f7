import MioBroker.Genuine
import MioBroker.Retained
import MioBroker.Tables

/-!
# Who holds a subscription

A subscription is there because its connection asked for it, in a SUBSCRIBE or with the session it
resumed, and has not unsubscribed since. What `publish` queues for a connection, it queues for one
of these.
-/
namespace MioBroker

open Rust

namespace Broker

variable {b b' : Broker} {t : Token} {p : Packet} {r : Reply}

/-- The entries of `subs` for these filters. -/
def entries (t : Token) (filters : List (Str × UInt8)) : List Subscription :=
  filters.map fun e => ⟨e.1, t, e.2⟩

theorem modifyClient_subs {f : Client → Client} (done : b.modifyClient t f = .ok b') :
    b'.subs = b.subs := by
  obtain ⟨c, -, rfl⟩ := modifyClient_found done
  rfl

theorem deliverEach_subs (t : Token) (retain : Bool) (msgs : List (Str × Bytes × UInt8)) (b : Broker) :
    (deliverEach t retain msgs b).1.subs = b.subs := by
  obtain ⟨_, _, _, frame⟩ := deliverEach_frame t retain msgs b
  rw [frame]

/-- The filters a SUBSCRIBE adds: all of them, or those up to the one whose retained delivery
fails. -/
theorem subscribeLoop_subs (topics : List (Str × UInt8)) (b : Broker) :
    ∃ n, (subscribeLoop t topics b).1.subs = b.subs ++ entries t (topics.take n) ∧
      ((subscribeLoop t topics b).2 = .ok () → topics.take n = topics) := by
  induction topics generalizing b with
  | nil => exact ⟨0, by simp [subscribeLoop, entries], fun _ => rfl⟩
  | cons e topics ih =>
    obtain ⟨filter, qos⟩ := e
    obtain ⟨_, _, added⟩ := b.addSub_frame filter t qos
    simp only [subscribeLoop]
    generalize hits : (b.addSub filter t qos).retainedHits filter qos = msgs
    have delivered := deliverEach_subs t true msgs (b.addSub filter t qos)
    generalize deliverEach t true msgs (b.addSub filter t qos) = result at delivered
    have first : result.1.subs = b.subs ++ entries t [(filter, qos)] := by
      rw [delivered, added]
      rfl
    rcases result with ⟨d, ⟨⟨⟩⟩ | ⟨⟨⟩⟩⟩
    · -- the loop ends here, with this filter added already
      exact ⟨1, first, fun done => by cases done⟩
    · obtain ⟨n, rest, whole⟩ := ih d
      refine ⟨n + 1, ?_, fun done => by rw [List.take_succ_cons, whole done]⟩
      rw [rest, first, List.append_assoc]
      rfl

theorem handleSubscribe_subs (isSubscribe : p.ptype = SUBSCRIBE)
    (done : b.handleSubscribe t p.body = .ok (b', r)) :
    ∃ n, b'.subs = b.subs ++ entries t ((b.requests p).take n) ∧
      (r = .ok () → (b.requests p).take n = b.requests p) := by
  obtain ⟨parsed, parse, done⟩ := Run.bind_ok.mp done
  -- What was asked for is what the parser has read.
  have asked : b.requests p = (parsed.map Prod.snd).getD [] := by
    rw [requests, isSubscribe, if_neg (by decide), if_pos rfl, parse]
    cases parsed <;> rfl
  rw [asked]
  cases parsed with
  | none =>
    cases done
    exact ⟨0, by simp [entries], fun _ => rfl⟩
  | some q =>
    obtain ⟨pid, topics⟩ := q
    obtain ⟨n, added, whole⟩ := subscribeLoop_subs (t := t) topics b
    simp only at done
    generalize subscribeLoop t topics b = result at done added whole
    rcases result with ⟨d, ⟨⟩ | ⟨⟨⟩⟩⟩
    · cases done
      exact ⟨n, added, fun answered => by cases answered⟩
    · obtain ⟨e, modified, done⟩ := Run.bind_ok.mp done
      cases done
      exact ⟨n, (modifyClient_subs modified).trans added, fun _ => whole rfl⟩

theorem flushSession_subs (b : Broker) (t : Token) (cid : Str) :
    (b.flushSession t cid).1.subs = b.subs := by
  have erased : ∀ s : Broker, (s.eraseSession cid).subs = s.subs := by
    intro s
    obtain ⟨_, frame⟩ := s.eraseSession_frame cid
    rw [frame]
  simp only [flushSession]
  split
  next sess stored =>
    have delivered := deliverEach_subs t false (flushList sess) b
    split
    -- a session that is flushed whole is erased, another one left; neither is a subscription
    next d same =>
      rw [same] at delivered
      exact (erased d).trans delivered
    next d same =>
      rw [same] at delivered
      exact delivered
  next => exact erased b

theorem handleConnect_subs (isConnect : p.ptype = CONNECT)
    (done : b.handleConnect t p.body = .ok (b', r)) : b'.subs = b.subs ++ entries t (b.requests p) := by
  obtain ⟨parsed, parse, done⟩ := Run.bind_ok.mp done
  cases parsed with
  | none =>
    cases done
    simp [requests, isConnect, parse, entries]
  | some q =>
    simp only at done
    by_cases clean : q.cleanSession = true
    · simp only [clean, if_true] at done
      obtain ⟨d, modified, done⟩ := Run.bind_ok.mp done
      cases done
      obtain ⟨_, erased⟩ := b.eraseSession_frame q.cid
      have same : d.subs = b.subs := (modifyClient_subs modified).trans (by rw [erased])
      simp [requests, isConnect, parse, clean, entries, countConnect, same]
    · simp only [clean] at done
      obtain ⟨d, modified, done⟩ := Run.bind_ok.mp done
      have asked : b.requests p = ((b.sessions.get? q.cid).map SessionState.subs).getD [] := by
        simp [requests, isConnect, parse, clean]
      -- the subscriptions are restored before the flush, and stay if it fails
      have restored : d.subs = b.subs ++ entries t (b.requests p) := by
        rw [modifyClient_subs modified, asked]
        cases stored : b.sessions.get? q.cid with
        | none => simp [entries]
        | some sess =>
          obtain ⟨_, _, frame⟩ := restoreSubs_frame sess.subs b t
          simp only [Bool.false_eq_true, if_false, frame]
          rfl
      have flushed := d.flushSession_subs t q.cid
      generalize d.flushSession t q.cid = result at done flushed
      rcases result with ⟨e, ⟨⟩ | ⟨⟨⟩⟩⟩ <;>
      · cases done
        exact flushed.trans restored

/-- What a CONNECT or SUBSCRIBE adds to `subs`. -/
theorem dispatch_subs (asks : p.ptype = CONNECT ∨ p.ptype = SUBSCRIBE)
    (done : b.dispatch t p = .ok (b', r)) :
    ∃ n, b'.subs = b.subs ++ entries t ((b.requests p).take n) := by
  rcases asks with isConnect | isSubscribe
  · have handled : b.dispatch t p = b.handleConnect t p.body := by simp [dispatch, isConnect]
    refine ⟨(b.requests p).length, ?_⟩
    rw [List.take_length]
    exact handleConnect_subs isConnect (handled.symm.trans done)
  · have handled : b.dispatch t p = b.handleSubscribe t p.body := by
      simp [dispatch, isSubscribe, show SUBSCRIBE ≠ CONNECT by decide]
    obtain ⟨n, added, -⟩ := handleSubscribe_subs isSubscribe (handled.symm.trans done)
    exact ⟨n, added⟩

/-- An UNSUBSCRIBE leaves no entry of its sender for a filter it names. -/
theorem dispatch_unsubscribes {filter : Str} (unsubscribes : p.Unsubscribes filter)
    (done : b.dispatch t p = .ok (b', r)) {sub : Subscription} (member : sub ∈ b'.subs)
    (own : sub.token = t) : sub.filter ≠ filter := by
  obtain ⟨isUnsubscribe, pid, filters, parse, named⟩ := unsubscribes
  have handled : b.dispatch t p = b.handleUnsubscribe t p.body := by
    simp [dispatch, isUnsubscribe, show UNSUBSCRIBE ≠ CONNECT by decide,
      show UNSUBSCRIBE ≠ SUBSCRIBE by decide]
  rw [handled, handleUnsubscribe, parse, Run.ok_bind] at done
  obtain ⟨d, modified, done⟩ := Run.bind_ok.mp done
  cases done
  rw [modifyClient_subs modified] at member
  obtain ⟨_, _, frame⟩ := b.unsubscribe_frame t filters
  rw [frame] at member
  rintro rfl
  have left := (List.mem_filter.mp member).2
  simp [own, named] at left

end Broker

/-- Only `add_sub` adds a subscription. -/
theorem Act.subs_subperm {a : Act} {b b' : Broker} (healthy : b.Healthy) (done : a.run b = .ok b')
    (other : ∀ filter t qos, a ≠ .addSub filter t qos) : b'.subs.Subperm b.subs := by
  rcases Act.subs_cases healthy done with ⟨same, -⟩ | ⟨topic, payload, qos, retain, -, spec⟩ |
    ⟨filter, t, qos, added, -⟩ | ⟨t, filters, -, subs⟩ | ⟨t, -, -, subs⟩
  · rw [same]
  · exact spec.subperm
  · exact absurd added (other filter t qos)
  · rw [subs]
    exact List.filter_sublist.subperm
  · rw [subs]
    exact List.filter_sublist.subperm

/-- An operation that handles neither CONNECT nor SUBSCRIBE adds none. -/
theorem Op.subs_subperm {op : Op} {b b' : Broker} {out : Outcome} (healthy : b.Healthy)
    (done : op.run b = .ok (b', out))
    (other : ∀ t p, op = .packet t p → ¬(p.ptype = CONNECT ∨ p.ptype = SUBSCRIBE)) :
    b'.subs.Subperm b.subs := by
  refine (op.acts healthy done).keeps healthy (fun s => s.subs.Subperm b.subs) ?_ (.refl _)
  intro s a s' healthy fewer ok next
  refine (Act.subs_subperm healthy next ?_).trans fewer
  rintro filter t qos rfl
  obtain ⟨p, rfl⟩ := Op.permits_addSub ok.1
  exact other t p rfl ok.1.2

/-- A subscription behind an operation was there before, and its connection did not unsubscribe, or
a packet of the connection asked for it. -/
theorem Op.subs_origin {op : Op} {b b' : Broker} {out : Outcome} (healthy : b.Healthy)
    (done : op.run b = .ok (b', out)) {sub : Subscription} (member : sub ∈ b'.subs) :
    (sub ∈ b.subs ∧ ∀ p, op = .packet sub.token p → ¬p.Unsubscribes sub.filter) ∨
      ∃ p, op = .packet sub.token p ∧ (sub.filter, sub.qos) ∈ b.requests p := by
  by_cases asks : ∃ t p, op = .packet t p ∧ (p.ptype = CONNECT ∨ p.ptype = SUBSCRIBE)
  · obtain ⟨t, p, rfl, asks⟩ := asks
    obtain ⟨r, dispatched⟩ := Op.packet_ok done
    obtain ⟨n, added⟩ := Broker.dispatch_subs asks dispatched
    rw [added] at member
    rcases List.mem_append.mp member with old | new
    · refine .inl ⟨old, fun q same unsubscribes => ?_⟩
      cases same
      have kind := unsubscribes.1
      rcases asks with type | type <;> simp +decide [type] at kind
    · obtain ⟨e, inside, rfl⟩ := List.mem_map.mp new
      exact .inr ⟨p, rfl, List.mem_of_mem_take inside⟩
  · -- no other packet adds one, and an UNSUBSCRIBE leaves none it names
    have fewer := Op.subs_subperm healthy done fun t p same kind => asks ⟨t, p, same, kind⟩
    refine .inl ⟨fewer.subset member, fun p same unsubscribes => ?_⟩
    subst same
    obtain ⟨r, dispatched⟩ := Op.packet_ok done
    exact Broker.dispatch_unsubscribes unsubscribes dispatched member rfl rfl

/-! ### Tokens in use -/

/-- The connections whose batches are being handled. -/
def Pc.senders : Pc → List Token
  | .packets t _ _ next failed => t :: (next.senders ++ failed.senders)
  | .close _ next => next.senders
  | _ => []

namespace Broker

/-- Every subscription carries a token that was handed out. -/
def Allotted (b : Broker) : Prop := ∀ sub ∈ b.subs, sub.token < b.nextToken

/-- The state a call is made in differs from the state before in records of connections only. -/
theorem publishCall_frame {b : Broker} {op : Op} {call : PublishCall}
    (called : op.publishCall b = some call) : call.broker.subs = b.subs ∧
      ∀ t c, call.broker.clients.get? t = some c → ∃ d, b.clients.get? t = some d := by
  refine (Op.prelude called).invariant (fun s => s.subs = b.subs ∧
    ∀ t c, s.clients.get? t = some c → ∃ d, b.clients.get? t = some d) ?_ ⟨rfl, fun t c found => ⟨c, found⟩⟩
  rintro s a s' ⟨subs, connected⟩ before next
  cases a with
  -- Before a publish only the record of the publisher can have changed.
  | change t ch =>
    obtain ⟨e, there, rfl⟩ := modifyClient_found next
    refine ⟨subs, fun k c found => ?_⟩
    rw [HashMap.get?_insert] at found
    split at found
    next same => exact connected k e (same ▸ there)
    next => exact connected k c found
  | logWill t will =>
    cases next
    exact ⟨subs, connected⟩
  | _ => exact before.elim

end Broker

/-- A token is handed out by an accept only. -/
theorem Op.nextToken_eq {op : Op} {b b' : Broker} {out : Outcome} (healthy : b.Healthy)
    (done : op.run b = .ok (b', out)) (other : ∀ h₁ h₂, op ≠ .accept h₁ h₂) :
    b'.nextToken = b.nextToken := by
  refine (op.acts healthy done).keeps healthy (fun s => s.nextToken = b.nextToken) ?_ rfl
  intro s a s' healthy same ok next
  refine Eq.trans ?_ same
  refine (Act.framed healthy next).nextToken fun h₁ h₂ accepts => ?_
  obtain ⟨g₁, g₂, accept⟩ := Op.permits_accept (accepts ▸ ok.1)
  exact other g₁ g₂ accept

namespace Loop

theorem senders_afterReceive {t k : Token} {next failed : Pc} {out : Outcome}
    (member : k ∈ (afterReceive t next failed out).senders) :
    k = t ∨ k ∈ next.senders ∨ k ∈ failed.senders := by
  cases out with
  | ok pkts => simpa [afterReceive, Pc.senders] using member
  | error _ => exact .inr (.inr member)

/-- A batch starts with a read of its connection. -/
theorem senders_pcAfter {s : Loop} {io : Io} {b : Broker} {out : Outcome} {k : Token}
    (member : k ∈ (s.pcAfter io b out).senders) :
    k ∈ s.pc.senders ∨ ∃ r, s.op io = .receive k r := by
  cases io with
  | tick dt fault => exact .inl member
  | go os =>
    simp only [pcAfter, op] at member ⊢
    cases here : s.pc with
    | events todo =>
      cases todo with
      | nil => simp [next, here, Pc.senders] at member
      | cons e todo =>
        cases e with
        | listener =>
          simp only [next, here] at member
          split at member <;> cases member
        | client t readable writable =>
          simp only [next, here] at member ⊢
          split at member
          next readable =>
            rcases senders_afterReceive member with rfl | none_due | none_due
            · exact .inr ⟨os.read, by rw [if_pos readable]⟩
            · cases none_due
            · cases none_due
          next => cases member
    | packets t todo n next' failed =>
      -- The packets of a batch leave the senders of both its continuations as they are.
      have later : k ∈ next'.senders ++ failed.senders →
          k ∈ (Pc.packets t todo n next' failed).senders := List.mem_cons_of_mem _
      cases todo with
      | nil =>
        simp only [next, here] at member
        exact .inl (later (List.mem_append_left _ member))
      | cons p todo =>
        simp only [next, here] at member
        cases out with
        | ok pkts => exact .inl member
        | error _ => exact .inl (later (List.mem_append_right _ member))
    | close t next' =>
      simp only [next, here] at member
      exact .inl member
    | sweep todo scan =>
      cases todo with
      | nil => simp [next, here, Pc.senders] at member
      | cons t todo =>
        simp only [next, here] at member ⊢
        split at member
        next there =>
          rcases senders_afterReceive member with rfl | none_due | none_due
          · exact .inr ⟨os.read, by rw [if_pos there]⟩
          · cases none_due
          · cases none_due
        next => cases member
    | sysTopics scan =>
      simp only [next, here] at member
      split at member <;> cases member
    | retry todo scan =>
      cases todo with
      | nil => simp [next, here, Pc.senders] at member
      | cons e todo =>
        simp only [next, here] at member
        cases out <;> cases member
    | flushPending todo scan => cases todo <;> simp [next, here, Pc.senders] at member
    | flushForwards todo scan => cases todo <;> simp [next, here, Pc.senders] at member
    | sysPublish todo scan => cases todo <;> simp [next, here, Pc.senders] at member
    | reap todo scan => cases todo <;> simp [next, here, Pc.senders] at member
    | giveUp todo => cases todo <;> simp [next, here, Pc.senders] at member
    | _ => simp [next, here, Pc.senders] at member

/-- Connections, subscriptions and batches use tokens that were handed out. -/
structure Allotted (s : Loop) : Prop where
  healthy : s.broker.Healthy
  numbered : s.broker.Numbered
  subs : s.broker.Allotted
  senders : ∀ t ∈ s.pc.senders, t < s.broker.nextToken

theorem op_sender {s : Loop} {io : Io} {t : Token} {p : Packet} (op : s.op io = .packet t p) :
    t ∈ s.pc.senders := by
  obtain ⟨todo, n, next, failed, here⟩ := op_packet op
  rw [here]
  exact List.mem_cons_self

theorem Allotted.step {s t : Loop} {io : Io} (allotted : s.Allotted) (done : s.step io = .ok t) :
    t.Allotted := by
  obtain ⟨b, out, ran, rfl⟩ := step_ok.mp done
  have healthy := allotted.healthy
  have given := Op.nextToken_le healthy ran
  have numbered := allotted.numbered.op healthy ran
  refine ⟨healthy.op _ ran, numbered, fun sub member => ?_, fun k member => ?_⟩
  · rcases Op.subs_origin healthy ran member with ⟨old, -⟩ | ⟨p, op, -⟩
    · exact Nat.lt_of_lt_of_le (allotted.subs sub old) given
    · exact Nat.lt_of_lt_of_le (allotted.senders _ (op_sender op)) given
  · -- tokens are never taken back
    rcases senders_pcAfter member with old | ⟨r, op⟩
    · exact Nat.lt_of_lt_of_le (allotted.senders k old) given
    · -- a read that went through found the connection
      rw [op] at ran
      obtain ⟨c, found⟩ := Broker.receive_present healthy ran
      exact numbered k c found

theorem allotted_initial {s : Loop} (start : s.Initial) : s.Allotted := by
  refine ⟨start.startup.healthy, Broker.numbered_startup start.startup, ?_, ?_⟩
  · intro sub member
    rw [start.startup.unsubscribed] at member
    cases member
  · intro t member
    rw [start.pc] at member
    cases member

theorem AdmittedRun.allotted {s t : Loop} {ios : List Io} (run : AdmittedRun s ios t)
    (allotted : s.Allotted) : t.Allotted :=
  run.invariant Allotted (fun _ _ _ before _ done => before.step done) allotted

/-! ### Runs -/

/-- In the run from `x` the connection sent a packet that asked for the filter at this QoS, and no
UNSUBSCRIBE naming the filter since. -/
def Holds (x : Loop) (ios : List Io) (t : Token) (filter : Str) (qos : UInt8) : Prop :=
  ∃ before io after u v p, ios = before ++ io :: after ∧ AdmittedRun x before u ∧ u.step io = .ok v ∧
    u.op io = .packet t p ∧ (filter, qos) ∈ u.broker.requests p ∧
    ∀ p', Op.packet t p' ∈ v.trace after → ¬p'.Unsubscribes filter

/-- The connection was accepted in the run, and `x` is the state behind its acceptance, from which
the inputs `rest` follow. -/
def Accepted (s₀ : Loop) (ios : List Io) (t : Token) (x : Loop) (rest : List Io) : Prop :=
  ∃ before io w h₁ h₂, ios = before ++ io :: rest ∧ AdmittedRun s₀ before w ∧
    w.op io = .accept h₁ h₂ ∧ w.broker.nextToken = t ∧ w.step io = .ok x

/-- A subscription was there before the run, or is one that its connection holds. -/
theorem holds_of_member {x s : Loop} {ios : List Io} (healthy : x.broker.Healthy)
    (run : AdmittedRun x ios s) {sub : Subscription} (member : sub ∈ s.broker.subs) :
    sub ∈ x.broker.subs ∨ Holds x ios sub.token sub.filter sub.qos := by
  induction run with
  | nil => exact .inl member
  | @snoc ios u v io before admitted next ih =>
    have healthy' := before.invariant (fun s => s.broker.Healthy) (fun s io t holds _ done => by
      obtain ⟨b, out, ran, rfl⟩ := step_ok.mp done
      exact holds.op _ ran) healthy
    obtain ⟨b, out, ran, same⟩ := step_ok.mp next
    have member' : sub ∈ b.subs := by rw [same] at member; exact member
    rcases Op.subs_origin healthy' ran member' with ⟨old, kept⟩ | ⟨p, op, asked⟩
    · rcases ih old with inherited | ⟨ios₁, io₁, ios₂, u₁, v₁, p, rfl, path, first, op, asked, since⟩
      · exact .inl inherited
      · refine .inr ⟨ios₁, io₁, ios₂ ++ [io], u₁, v₁, p, by simp, path, first, op, asked,
          fun p' sent => ?_⟩
        -- The run is deterministic, so the split is the one that the packet was sent at.
        obtain ⟨w, path₁, path₂⟩ := before.split
        obtain ⟨w', -, next', rest⟩ := path₂.uncons
        cases path₁.unique path
        cases next'.symm.trans first
        rw [trace_append rest, trace_single] at sent
        rcases List.mem_append.mp sent with earlier | last
        · exact since p' earlier
        · exact kept p' (List.mem_singleton.mp last).symm
    · exact .inr ⟨ios, io, [], u, v, p, rfl, before, next, op, asked, fun p' sent => by cases sent⟩

/-- A connection that is there was accepted in the run. -/
theorem accepted_of_connected {s₀ s : Loop} {ios : List Io} (start : s₀.Initial)
    (run : AdmittedRun s₀ ios s) {t : Token} {c : Client} (found : s.broker.clients.get? t = some c) :
    ∃ x rest, Accepted s₀ ios t x rest := by
  induction run generalizing c with
  | nil => cases (start.startup.unconnected t).symm.trans found
  | @snoc ios u v io before admitted next ih =>
    have allotted := AdmittedRun.allotted before (allotted_initial start)
    obtain ⟨b, out, ran, same⟩ := step_ok.mp next
    have found' : b.clients.get? t = some c := by rw [same] at found; exact found
    -- a token handed out before belongs to nobody new
    by_cases given : t < u.broker.nextToken
    · cases there : u.broker.clients.get? t with
      | none =>
        rw [Op.absent allotted.healthy ran given there] at found'
        cases found'
      | some d =>
        obtain ⟨x, rest, ios₁, io₁, w, h₁, h₂, rfl, path, op, token, first⟩ := ih there
        exact ⟨x, rest ++ [io], ios₁, io₁, w, h₁, h₂, by simp, path, op, token, first⟩
    · -- the token is new, so this step handed it out
      have taken : t < v.broker.nextToken := (allotted.step next).numbered t c found
      rw [same] at taken
      by_cases accepts : ∃ h₁ h₂, u.op io = .accept h₁ h₂
      · obtain ⟨h₁, h₂, op⟩ := accepts
        rw [op] at ran
        cases ran
        have below : t < u.broker.nextToken + 1 := taken
        have token := Nat.le_antisymm (Nat.not_lt.mp given) (Nat.le_of_lt_succ below)
        exact ⟨v, [], ios, io, u, h₁, h₂, rfl, before, op, token, next⟩
      · have unmoved := Op.nextToken_eq allotted.healthy ran fun h₁ h₂ op => accepts ⟨h₁, h₂, op⟩
        simp only [unmoved] at taken
        exact absurd taken given

/-- The subscriptions of a connection date from the time after it was accepted. -/
theorem holds_of_accepted {s₀ s x : Loop} {ios rest : List Io} {t : Token} (start : s₀.Initial)
    (run : AdmittedRun s₀ ios s) (accepted : Accepted s₀ ios t x rest) {sub : Subscription}
    (member : sub ∈ s.broker.subs) (own : sub.token = t) : Holds x rest t sub.filter sub.qos := by
  obtain ⟨before, io, w, h₁, h₂, rfl, path, op, token, next⟩ := accepted
  obtain ⟨w', path₁, path₂⟩ := run.split
  cases path₁.unique path
  obtain ⟨x', -, next', path₃⟩ := path₂.uncons
  cases next'.symm.trans next
  have allotted := path.allotted (allotted_initial start)
  rcases holds_of_member (allotted.step next).healthy path₃ member with old | held
  · -- the token was free when the connection was accepted
    obtain ⟨b, out, ran, same⟩ := step_ok.mp next
    rw [op] at ran
    cases ran
    rw [same] at old
    have given := allotted.subs sub old
    rw [own, token] at given
    exact absurd given (Nat.lt_irrefl t)
  · exact own ▸ held

end Loop

/-! ### What is queued -/

theorem forall₂_partner {α β : Type} {R : α → β → Prop} {l : List α} {r : List β}
    (pairs : List.Forall₂ R l r) {b : β} (member : b ∈ r) : ∃ a ∈ l, R a b := by
  induction pairs with
  | nil => cases member
  | cons related _ ih =>
    rcases List.mem_cons.mp member with rfl | later
    · exact ⟨_, List.mem_cons_self, related⟩
    · obtain ⟨a, inside, same⟩ := ih later
      exact ⟨a, List.mem_cons_of_mem _ inside, same⟩

namespace Client

theorem queueQos1_sublist {c d : Client} {pkt : Bytes} (done : c.queueQos1 pkt = (d, .ok ())) :
    d.writeQueue.Sublist (c.writeQueue ++ [(true, pkt)]) := by
  have shorter := sublist_makeRoom c.writeQueue.length c.writeQueue
  simp only [queueQos1] at done
  split at done
  next queue made =>
    rw [made] at shorter
    cases done
    exact shorter.append_right _
  next => cases done

/-- An accepted message goes to the end of the queue; older unreliable ones may make room for it. -/
theorem offer_carries {c d : Client} {now : Instant} {m : Str × Bytes × UInt8} {retain : Bool}
    (done : c.offer now m.1 m.2.1 m.2.2 retain = .queued d) :
    ∃ entry, d.writeQueue.Sublist (c.writeQueue ++ [entry]) ∧ Carries retain m entry := by
  obtain ⟨topic, payload, qos⟩ := m
  by_cases unreliable : qos = 0
  · subst unreliable
    by_cases room : c.writeQueue.length < WRITE_QUEUE_CAP
    · rw [offer_qos0_room c now topic payload retain room] at done
      cases done
      exact ⟨_, List.Sublist.refl _, none, rfl, rfl⟩
    · rw [offer_qos0_full c now topic payload retain (Nat.not_lt.mp room)] at done
      cases done
  · -- a reliable message needs an id first, and then a place in the queue
    by_cases room : c.inFlight.size < IN_FLIGHT_CAP
    · obtain ⟨next, pid, alloc, -⟩ := allocPid_room c room
      simp only [offer, if_neg unreliable, alloc] at done
      split at done
      next e queued =>
        have queue := queueQos1_sublist queued
        cases done
        refine ⟨_, queue, some pid, ?_, ?_⟩
        · simp [unreliable]
        · simp [unreliable]
      next => cases done
    · simp [offer, unreliable, allocPid_full c (Nat.not_lt.mp room)] at done

/-- The queue of a connection behind the deliveries of one `publish`: some of the forwards, in
order, behind what was there. -/
theorem serve_carries {now : Instant} {topic : Str} {payload : Bytes} {qs : List UInt8} {c d : Client}
    (served : serve now topic payload qs (some c) = some d) :
    ∃ (taken : List UInt8) (sent : List (Bool × Bytes)), taken.Sublist qs ∧
      taken.Forall₂ (fun q => Carries false (topic, payload, q)) sent ∧
      d.writeQueue.Sublist (c.writeQueue ++ sent) := by
  induction qs generalizing c with
  | nil =>
    cases served
    exact ⟨[], [], .slnil, .nil, by simp⟩
  | cons q qs ih =>
    simp only [serve] at served
    split at served
    next e queued =>
      obtain ⟨entry, first, carries⟩ := offer_carries (m := (topic, payload, q)) queued
      obtain ⟨taken, sent, among, all, queue⟩ := ih served
      refine ⟨q :: taken, entry :: sent, among.cons_cons q, .cons carries all, ?_⟩
      rw [← List.singleton_append, ← List.append_assoc]
      exact queue.trans (first.append_right sent)
    -- a refused forward is skipped, and the next one tried
    next =>
      obtain ⟨taken, sent, among, all, queue⟩ := ih served
      exact ⟨taken, sent, among.cons q, all, queue⟩
    next => cases served

end Client

namespace Loop

/-- In every run a call of `publish` queues a message for a connection only for a matching filter
that the connection itself asked for after it was accepted and has not unsubscribed from; the
forward QoS is the lower one of the message's and the filter's. -/
theorem routing_sound (s₀ s s' : Loop) (ios : List Io) (io : Io) (start : s₀.Initial)
    (run : AdmittedRun s₀ ios s) (next : s.step io = .ok s') (call : PublishCall)
    (called : (s.op io).publishCall s.broker = some call) :
    s.broker.Calls call s'.broker ∧ ∀ e n t c d,
      call.broker.publish call.topic call.payload call.qos call.retain = .ok (e, n) →
      call.broker.clients.get? t = some c → e.clients.get? t = some d →
      ∃ x rest, Accepted s₀ ios t x rest ∧
        (∃ sent, d.writeQueue.Sublist (c.writeQueue ++ sent) ∧
          ∀ entry ∈ sent, ∃ filter qos, Holds x rest t filter qos ∧
            topicMatches filter call.topic = true ∧
            Carries false (call.topic, call.payload, min call.qos qos) entry) ∧
        ((∀ filter qos, Holds x rest t filter qos → topicMatches filter call.topic = false) → d = c) := by
  have reached : s.Reachable := ⟨s₀, ios, start, run⟩
  obtain ⟨b, out, ran, rfl⟩ := step_ok.mp next
  refine ⟨Op.calls called ran, fun e n t c d published found after => ?_⟩
  obtain ⟨subs, connected⟩ := Broker.publishCall_frame called
  obtain ⟨f, there⟩ := connected t c found
  obtain ⟨x, rest, accepted⟩ := accepted_of_connected start run there
  have healthy := Broker.healthy_publishCall reached.healthy _ called
  have spec := Broker.publish_ok healthy.indexed published
  have served := spec.slots t
  rw [after, found] at served
  -- every forward is due to a subscription the connection holds
  have held : ∀ q ∈ call.broker.forwards t call.topic call.qos, ∃ filter qos,
      Holds x rest t filter qos ∧ topicMatches filter call.topic = true ∧ q = min call.qos qos := by
    intro q member
    obtain ⟨sub, inside, rfl⟩ := List.mem_map.mp (List.mem_reverse.mp member)
    obtain ⟨inside, chosen⟩ := List.mem_filter.mp inside
    rw [Bool.and_eq_true, decide_eq_true_eq] at chosen
    rw [subs] at inside
    exact ⟨sub.filter, sub.qos, holds_of_accepted start run accepted inside chosen.1, chosen.2, rfl⟩
  refine ⟨x, rest, accepted, ?_, fun none_matches => ?_⟩
  · obtain ⟨taken, sent, among, carried, queue⟩ := Client.serve_carries served.symm
    refine ⟨sent, queue, fun entry member => ?_⟩
    obtain ⟨q, forwarded, carries⟩ := forall₂_partner carried member
    obtain ⟨filter, qos, holds, matched, rfl⟩ := held q (among.subset forwarded)
    exact ⟨filter, qos, holds, matched, carries⟩
  · -- no filter matches: not even the queue changes
    have nothing : call.broker.forwards t call.topic call.qos = [] := by
      refine List.eq_nil_iff_forall_not_mem.mpr fun q member => ?_
      obtain ⟨filter, qos, holds, matched, -⟩ := held q member
      rw [none_matches filter qos holds] at matched
      cases matched
    rw [nothing] at served
    exact Option.some.inj served

/-- A client that subscribed to `t` is about to publish to it. -/
def subscribed : List Io :=
  [Io.listen, .connection] ++ List.replicate 3 Io.quiet ++
    [Io.read (connectBytes 2 97 ++ [0x82, 6, 0, 1, 0, 1, 116, 1, 0x34, 5, 0, 1, 116, 0, 1])] ++
    List.replicate 2 Io.quiet

theorem routing_sound_subscribed : ∃ s call x rest filter qos, AdmittedRun fresh subscribed s ∧
    (s.op .quiet).publishCall s.broker = some call ∧ Accepted fresh subscribed 1 x rest ∧
    Holds x rest 1 filter qos ∧ topicMatches filter call.topic = true := by
  obtain ⟨s, done, checked⟩ := exists_after subscribed (fun s =>
    ((s.op .quiet).publishCall s.broker).any fun call =>
      (s.step .quiet).toBool &&
      match call.broker.publish call.topic call.payload call.qos call.retain with
      | .ok (e, _) => (call.broker.clients.get? 1).any fun c => (e.clients.get? 1).any fun d =>
          c.writeQueue.length != d.writeQueue.length
      | .error _ => false) (by decide +kernel)
  obtain ⟨call, called, checked⟩ := (Option.any_eq_true _ _).mp checked
  obtain ⟨stepped, checked⟩ := (Bool.and_eq_true _ _).mp checked
  cases next : s.step .quiet with
  | error e =>
    rw [next] at stepped
    cases stepped
  | ok s' =>
    split at checked
    next e n published =>
      obtain ⟨c, found, checked⟩ := (Option.any_eq_true _ _).mp checked
      obtain ⟨d, after, longer⟩ := (Option.any_eq_true _ _).mp checked
      obtain ⟨x, rest, accepted, -, unchanged⟩ := (routing_sound fresh s s' subscribed .quiet
        fresh_initial (after_path done) next call called).2 e n 1 c d published found after
      -- Without a matching subscription the queue would not have grown.
      by_contra unheld
      have same : d = c := unchanged fun filter qos holds => by
        by_contra matched
        exact unheld ⟨s, call, x, rest, filter, qos, after_path done, called, accepted, holds,
          by simpa using matched⟩
      simp [same] at longer
    next => cases checked

end Loop

end MioBroker
