import MioBroker.Connections

/-!
# Last wills

What the packets of a connection say about its will, and that `publish` is called with it
exactly once, when the connection goes without a DISCONNECT.
-/
namespace MioBroker

open Rust

def ConnectPacket.will (p : ConnectPacket) : Option Will :=
  if p.willFlag then some ⟨p.willTopic, p.willMessage, p.willQos, p.willRetain⟩ else none

namespace Op

/-- The will of a connection after an operation, given the one before it. -/
def nextWill (t : Token) (will : Option Will) : Op → Option Will
  | .packet k p =>
    if k = t ∧ p.ptype = CONNECT then
      match parseConnect p.body with
      | .ok (some q) => q.will
      | _ => will
    else will
  | _ => will

/-- The operation handles a DISCONNECT of the connection. -/
def disconnects (t : Token) : Op → Bool
  | .packet k p => decide (k = t ∧ p.ptype = DISCONNECT)
  | _ => false

end Op

/-- The will the latest CONNECT of a connection set. -/
def lastWill (t : Token) (ops : List Op) : Option Will := ops.foldl (Op.nextWill t) none

def sentDisconnect (t : Token) (ops : List Op) : Bool := ops.any (Op.disconnects t)

/-- The wills of a connection that were passed to `publish`. -/
def Broker.willsOf (b : Broker) (t : Token) : List Will :=
  (b.willLog.filter fun e => e.1 = t).map Prod.snd

/-- What becomes of the will of a connection that leaves. -/
def Client.bequest (c : Client) : List Will := if c.cleanDisconnect then [] else c.will.toList

namespace Op

variable {op : Op} {b b' : Broker} {out : Outcome}

/-- A connection keeps its identity under an operation that is no CONNECT of its own, and its
DISCONNECT flag under one that is no DISCONNECT of its own. -/
theorem testament (healthy : b.Healthy) (numbered : b.Numbered) (done : op.run b = .ok (b', out))
    {k : Token} {c d : Client} (before : b.clients.get? k = some c)
    (after : b'.clients.get? k = some d) :
    ((∀ q, ¬op.permits (.change k (.connect q))) → Client.SameIdentity c d) ∧
      (¬op.permits (.change k .disconnect) → d.cleanDisconnect = c.cleanDisconnect) := by
  -- Only CONNECT writes the will, and only DISCONNECT the flag.
  have given := numbered k c before
  refine op.record_invariant healthy done given (fun e =>
    ((∀ q, ¬op.permits (.change k (.connect q))) → Client.SameIdentity c e) ∧
      (¬op.permits (.change k .disconnect) → e.cleanDisconnect = c.cleanDisconnect)) ?_ ?_ ?_ d after
  · rintro now ch e permitted ⟨identity, flag⟩
    refine ⟨fun notConnect => (identity notConnect).trans ?_, fun stays => ?_⟩
    · exact Change.sameIdentity _ _ fun q same => notConnect q (same ▸ permitted)
    · rw [← flag stays]
      exact Change.cleanDisconnect _ _ fun same => stays (same ▸ permitted)
  · rintro s a e f topic payload qos retain - - queued ⟨identity, flag⟩
    have offered := Client.offered_of_offer e f s.now topic payload qos retain queued
    refine ⟨fun notConnect => (identity notConnect).trans offered.sameIdentity, fun stays => ?_⟩
    rw [← flag stays]
    exact offered.cleanDisconnect
  · intro e same
    cases before.symm.trans same
    exact ⟨fun _ => .refl c, fun _ => rfl⟩

/-- Wills are published by closings only. -/
theorem willLog_of_open (healthy : b.Healthy) (done : op.run b = .ok (b', out))
    (unclosing : op.closing = none) : b'.willLog = b.willLog := by
  refine (op.acts healthy done).keeps healthy (fun s => s.willLog = b.willLog) ?_ rfl
  intro s a s' healthy same ok next
  refine ((Act.framed healthy next).willLog ?_).trans same
  -- Only an operation that can close a connection logs a will.
  rintro t will rfl
  cases unclosing.symm.trans (Op.closing_of_removal ok.1 (.inr (.inr ⟨will, rfl⟩)))

end Op

namespace Broker

variable {b b' : Broker} {t : Token}

/-- CONNECT sets the will it carries, whatever the session flush does afterwards. -/
theorem connect_will {body : Bytes} {q : ConnectPacket} {r : Reply} (healthy : b.Healthy)
    (parse : parseConnect body = .ok (some q)) (done : b.handleConnect t body = .ok (b', r))
    {d : Client} (found : b'.clients.get? t = some d) : d.will = q.will := by
  have set : ∀ c : Client, (c.applyConnect q b.now).will = q.will := by
    intro c
    rw [Client.applyConnect, Client.reply_frame]
    rfl
  rw [handleConnect, parse, Run.ok_bind] at done
  simp only at done
  by_cases clean : q.cleanSession = true
  · simp only [clean, if_true] at done
    obtain ⟨e, modified, done⟩ := Run.bind_ok.mp done
    cases done
    obtain ⟨c, -, rfl⟩ := modifyClient_found modified
    obtain ⟨_, frame⟩ := b.eraseSession_frame q.cid
    rw [frame] at found
    simp only [countConnect, HashMap.get?_insert_self, Option.some.injEq] at found
    rw [← found]
    exact set c
  · simp only [clean] at done
    obtain ⟨e, modified, done⟩ := Run.bind_ok.mp done
    -- the record right after the fields are set, before the flush
    have set_e : e.Healthy ∧ ∀ c, e.clients.get? t = some c → c.will = q.will := by
      cases stored : b.sessions.get? q.cid with
      | none =>
        rw [stored] at modified
        refine ⟨healthy.act (.change t (.connect q)) modified, fun c there => ?_⟩
        obtain ⟨c', -, rfl⟩ := modifyClient_found modified
        simp only [HashMap.get?_insert_self, Option.some.injEq] at there
        rw [← there]
        exact set c'
      | some sess =>
        rw [stored] at modified
        have restored := (restoreSubs_acts sess.subs b t).healthy healthy
        refine ⟨restored.act (.change t (.connect q)) modified, fun c there => ?_⟩
        obtain ⟨c', -, rfl⟩ := modifyClient_found modified
        obtain ⟨_, _, frame⟩ := restoreSubs_frame sess.subs b t
        simp only [HashMap.get?_insert_self, Option.some.injEq] at there
        rw [← there, frame]
        exact set c'
    have flushed := (flushSession_acts e set_e.1 t q.cid).invariant
      (fun s => s.Healthy ∧ ∀ c, s.clients.get? t = some c → c.will = q.will)
      (fun s a s' before ok next => by
        obtain ⟨healthy, kept⟩ := before
        refine ⟨healthy.act a next, fun c' there => ?_⟩
        rcases Act.survivor healthy next there with ⟨_, _, rfl, -⟩ | ⟨c, before, ⟨ch, rfl, -⟩ | fed⟩
        · rcases ok.1 with ⟨_, _, same⟩ | same
          · cases same
          · cases same
        · rcases ok.1 with ⟨_, _, same⟩ | same
          · cases same
          · cases same
        · rw [fed.offered.sameIdentity.will]
          exact kept c before) set_e
    generalize e.flushSession t q.cid = result at done flushed
    rcases result with ⟨f, ⟨⟩ | ⟨⟨⟩⟩⟩
    · cases done
      exact flushed.2 d found
    · cases done
      exact flushed.2 d found

/-- A removal publishes what its connection leaves, and nothing else. -/
theorem removeClient_wills (healthy : b.Healthy) (done : b.removeClient t = .ok b') :
    b'.clients.get? t = none ∧ b'.willLog = b.willLog ++
      (((b.clients.get? t).map Client.bequest).getD []).map (Prod.mk t) := by
  obtain ⟨d, e, lwt, persisted, rfl⟩ := removeClient_parts done
  obtain ⟨_, _, rfl⟩ := persistSession_frame d e t persisted
  obtain ⟨_, _, _, saved⟩ := save_frame (dropClient _ t)
  rw [saved]
  obtain ⟨_, _, dropped⟩ := dropClient_frame { d with sessions := _, dirty := _ } t
  rw [dropped]
  refine ⟨HashMap.get?_erase_self _ _, ?_⟩
  simp only
  rcases lwt with ⟨unclean, lwt⟩ | ⟨⟨c, found, clean⟩, rfl⟩
  · cases found : b.clients.get? t with
    | none =>
      simp only [publishLwt, found, Option.bind_none] at lwt
      cases lwt
      simp
    | some c =>
      simp only [publishLwt, found, Option.bind_some] at lwt
      -- An unclean departure bequeaths the will as it is set.
      have kept : c.bequest = c.will.toList := by
        rw [Client.bequest, unclean c found]
        rfl
      split at lwt
      next will set =>
        obtain ⟨⟨f, n⟩, published, lwt⟩ := Run.bind_ok.mp lwt
        cases lwt
        obtain ⟨g, m, run, spec⟩ := publish_spec { b with willLog := b.willLog ++ [(t, will)] }
          healthy.indexed will.topic will.message will.qos will.retain
        cases run.symm.trans published
        rw [spec.frame]
        simp [kept, set]
      next unset =>
        cases lwt
        simp [kept, unset]
  · simp [found, Client.bequest, clean]

end Broker

namespace Op

variable {op : Op} {b b' : Broker} {out : Outcome}

/-- Closings publish the will of the connection that goes, once. -/
theorem willLog_of_closing (healthy : b.Healthy) (done : op.run b = .ok (b', out)) {t : Token}
    (closing : op.closing = some t) :
    (∃ d, b'.clients.get? t = some d ∧ b'.willLog = b.willLog) ∨
      (b'.clients.get? t = none ∧ b'.willLog = b.willLog ++
        (((b.clients.get? t).map Client.bequest).getD []).map (Prod.mk t)) := by
  cases op with
  | remove k =>
    cases closing
    obtain ⟨d, removed, done⟩ := Run.bind_ok.mp done
    cases done
    exact .inr (Broker.removeClient_wills healthy removed)
  | flush k ws =>
    cases closing
    obtain ⟨d, flushed, done⟩ := Run.bind_ok.mp done
    cases done
    simp only [Broker.flushWrites] at flushed
    obtain ⟨c, found, flushed⟩ := Run.bind_ok.mp flushed
    replace found := Run.unwrap_ok found
    split at flushed
    next dead =>
      -- `remove_client` runs on the record after the writes, which leave the will alone
      right
      have capped := (healthy.capped t c found).change b.now (.write ws)
      have written : Broker.Healthy { b with clients := b.clients.insert t (c.writeLoop ws).1 } :=
        ⟨healthy.indexed, healthy.modify t _ capped⟩
      obtain ⟨gone, log⟩ := Broker.removeClient_wills written flushed
      have same : ((c.writeLoop ws).1).bequest = c.bequest := by
        rw [(Client.writeLoop_frame ws c).1]
        rfl
      refine ⟨gone, log.trans ?_⟩
      simp [found, same]
    next alive =>
      cases flushed
      exact .inl ⟨_, HashMap.get?_insert_self _ _ _, rfl⟩
  | _ => cases closing

/-- A connection that was not there before the operation was accepted by it. -/
theorem newcomer (healthy : b.Healthy) (done : op.run b = .ok (b', out)) {t : Token} {d : Client}
    (before : b.clients.get? t = none) (after : b'.clients.get? t = some d) :
    b.nextToken ≤ t ∧ d.will = none ∧ d.cleanDisconnect = false := by
  -- A token that was given out and is gone stays gone.
  have unborn : b.nextToken ≤ t := by
    by_contra given
    rw [Op.absent healthy done (Nat.not_le.mp given) before] at after
    cases after
  -- The one act that makes a client is the accept.
  have accepting : (∃ h₁ h₂, op = .accept h₁ h₂) ∨ b'.clients.get? t = none := by
    refine (op.acts healthy done).keeps healthy (fun s =>
      (∃ h₁ h₂, op = .accept h₁ h₂) ∨ s.clients.get? t = none) ?_ (.inr before)
    intro s a s' healthy either ok next
    rcases either with accepting | gone
    · exact .inl accepting
    · cases there : s'.clients.get? t with
      | none => exact .inr rfl
      | some e =>
        rcases Act.survivor healthy next there with ⟨h₁, h₂, rfl, -⟩ | ⟨c, found, -⟩
        · exact .inl (Op.permits_accept ok.1)
        · rw [gone] at found
          cases found
  rcases accepting with ⟨h₁, h₂, rfl⟩ | gone
  · cases done
    simp only [Broker.accept, HashMap.get?_insert] at after
    split at after
    · cases after
      exact ⟨unborn, rfl, rfl⟩
    · rw [before] at after
      cases after
  · rw [gone] at after
    cases after

/-- Only its own packets say something about a connection. -/
theorem unsaid {t : Token} (other : ∀ p, op ≠ .packet t p) (will : Option Will) :
    op.nextWill t will = will ∧ op.disconnects t = false := by
  cases op with
  | packet k p =>
    have other : k ≠ t := fun own => other p (own ▸ rfl)
    exact ⟨if_neg fun both => other both.1, by simp [disconnects, other]⟩
  | _ => exact ⟨rfl, rfl⟩

/-- Will and DISCONNECT flag of a connection follow the packets it sends. -/
theorem testament_next (healthy : b.Healthy) (numbered : b.Numbered)
    (done : op.run b = .ok (b', out)) {t : Token} {c d : Client}
    (before : b.clients.get? t = some c) (after : b'.clients.get? t = some d) :
    d.will = op.nextWill t c.will ∧ d.cleanDisconnect = (c.cleanDisconnect || op.disconnects t) := by
  obtain ⟨identity, flag⟩ := Op.testament healthy numbered done before after
  by_cases sends : ∃ p, op = .packet t p
  · obtain ⟨p, rfl⟩ := sends
    obtain ⟨r, dispatched⟩ := Op.packet_ok done
    constructor
    · by_cases isConnect : p.ptype = CONNECT
      · obtain ⟨parsed, parse⟩ := parseConnect_total p.body
        rw [nextWill, if_pos ⟨rfl, isConnect⟩, parse]
        cases parsed with
        | none =>
          refine (identity fun q permitted => ?_).will
          have := permitted.2.2
          rw [parse] at this
          cases this
        | some q =>
          rw [Broker.dispatch, if_pos isConnect] at dispatched
          exact Broker.connect_will healthy parse dispatched after
      · rw [nextWill, if_neg (fun both => isConnect both.2)]
        exact (identity fun q permitted => isConnect permitted.2.1).will
    · by_cases isDisconnect : p.ptype = DISCONNECT
      · have sent : disconnects t (.packet t p) = true := by simp [disconnects, isDisconnect]
        have handled : b.dispatch t p = b.handleDisconnect t := by
          rw [Broker.dispatch, isDisconnect]
          rfl
        rw [handled] at dispatched
        obtain ⟨f, modified, dispatched⟩ := Run.bind_ok.mp dispatched
        cases dispatched
        obtain ⟨c', -, rfl⟩ := Broker.modifyClient_found modified
        simp only [HashMap.get?_insert_self, Option.some.injEq] at after
        rw [← after, sent, Bool.or_true]
      · have unsent : disconnects t (.packet t p) = false := by simp [disconnects, isDisconnect]
        rw [unsent, Bool.or_false]
        exact flag fun permitted => isDisconnect permitted.2
  · -- CONNECT and DISCONNECT are handled for their packets only
    obtain ⟨will, sent⟩ := unsaid (fun p same => sends ⟨p, same⟩) c.will
    have notConnect : ∀ q, ¬op.permits (.change t (.connect q)) := by
      intro q permitted
      obtain ⟨p, same, -⟩ := Op.permits_connect permitted
      exact sends ⟨p, same⟩
    have stays : ¬op.permits (.change t .disconnect) := by
      intro permitted
      obtain ⟨p, same, -⟩ := Op.permits_ofPacket rfl permitted
      exact sends ⟨p, same⟩
    rw [will, sent, Bool.or_false]
    exact ⟨(identity notConnect).will, flag stays⟩

/-- A connection the operation does not close leaves nothing: it stays, or was not there. -/
theorem bequest_of_open (healthy : b.Healthy) (calm : ¬op.Overflows b)
    (done : op.run b = .ok (b', out)) {t : Token} (staying : op.closing ≠ some t) :
    (if b'.clients.get? t = none then ((b.clients.get? t).map Client.bequest).getD [] else []) =
      [] := by
  split
  next gone =>
    cases before : b.clients.get? t with
    | none => rfl
    | some c =>
      obtain ⟨d, after⟩ := op.stays healthy done calm staying before
      rw [gone] at after
      cases after
  next => rfl

/-- The wills published for a connection grow when it goes, by the one it leaves. -/
theorem willsOf_eq (op : Op) (healthy : b.Healthy) (calm : ¬op.Overflows b)
    (done : op.run b = .ok (b', out)) (t : Token) :
    b'.willsOf t = b.willsOf t ++
      if b'.clients.get? t = none then ((b.clients.get? t).map Client.bequest).getD [] else [] := by
  cases closing : op.closing with
  | none =>
    rw [bequest_of_open healthy calm done (by simp [closing]), List.append_nil, Broker.willsOf,
      Op.willLog_of_open healthy done closing, ← Broker.willsOf]
  | some k =>
    rcases Op.willLog_of_closing healthy done closing with ⟨d, there, same⟩ | ⟨gone, same⟩
    · -- the flush went through: the connection is still in the table
      have unsaid : (if b'.clients.get? t = none then ((b.clients.get? t).map Client.bequest).getD []
          else []) = [] := by
        by_cases own : k = t
        · subst own
          rw [if_neg (by simp [there])]
        · exact bequest_of_open healthy calm done (fun same => own (by simpa [closing] using same))
      rw [unsaid, List.append_nil, Broker.willsOf, same, ← Broker.willsOf]
    · rw [Broker.willsOf, same, List.filter_append, List.map_append, ← Broker.willsOf]
      by_cases own : t = k
      · subst own
        simp [gone, List.filter_map, Function.comp_def]
      · -- the wills of the connection that was closed are another's
        have others : ((((b.clients.get? k).map Client.bequest).getD []).map (Prod.mk k)).filter
            (fun e => decide (e.1 = t)) = [] := by
          simp [List.filter_map, Function.comp_def, Ne.symm own]
        rw [others, bequest_of_open healthy calm done
          (fun same => own (Option.some.inj (same.symm.trans closing)))]
        rfl

end Op

/-- The wills of a connection so far, given the will it set and whether it sent DISCONNECT. -/
structure Broker.Ledger (b : Broker) (t : Token) (will : Option Will) (sent : Bool) : Prop where
  /-- a token not handed out yet has said nothing -/
  unborn : b.nextToken ≤ t → will = none ∧ sent = false
  /-- the record of a connection is up to date, and its will is not published -/
  connected : ∀ c, b.clients.get? t = some c →
    c.will = will ∧ c.cleanDisconnect = sent ∧ b.willsOf t = []
  gone : b.clients.get? t = none → b.willsOf t = if sent then [] else will.toList

theorem Broker.Ledger.op {op : Op} {b b' : Broker} {out : Outcome} {t : Token} {will : Option Will}
    {sent : Bool} (ledger : b.Ledger t will sent) (healthy : b.Healthy) (numbered : b.Numbered)
    (calm : ¬op.Overflows b) (sender : ∀ k p, op = .packet k p → ∃ c, b.clients.get? k = some c)
    (done : op.run b = .ok (b', out)) :
    b'.Ledger t (op.nextWill t will) (sent || op.disconnects t) := by
  -- only a connection speaks
  have silent : b.clients.get? t = none → op.nextWill t will = will ∧ op.disconnects t = false := by
    intro absent
    refine Op.unsaid (fun p same => ?_) will
    obtain ⟨c, found⟩ := sender t p same
    rw [absent] at found
    cases found
  have spoken : ∀ c d, b.clients.get? t = some c → b'.clients.get? t = some d →
      d.will = op.nextWill t will ∧ d.cleanDisconnect = (sent || op.disconnects t) := by
    intro c d before after
    obtain ⟨same, flag, -⟩ := ledger.connected c before
    rw [← same, ← flag]
    exact Op.testament_next healthy numbered done before after
  -- what was published so far for a connection that is there
  have unpublished : ∀ d, b'.clients.get? t = some d → b.willsOf t = [] := by
    intro d after
    cases before : b.clients.get? t with
    | some c => exact (ledger.connected c before).2.2
    | none =>
      obtain ⟨unborn, -⟩ := Op.newcomer healthy done before after
      obtain ⟨unset, unsent⟩ := ledger.unborn unborn
      rw [ledger.gone before, unset, unsent]
      rfl
  have log := op.willsOf_eq healthy calm done t
  constructor
  · -- tokens are handed out in increasing order
    intro unborn
    have before := Nat.le_trans (Op.nextToken_le healthy done) unborn
    have absent : b.clients.get? t = none := by
      by_contra there
      obtain ⟨c, found⟩ := Option.ne_none_iff_exists'.mp there
      exact absurd before (Nat.not_le.mpr (numbered t c found))
    obtain ⟨unset, unsent⟩ := ledger.unborn before
    obtain ⟨same, unsaid⟩ := silent absent
    rw [same, unsaid, unset, unsent]
    exact ⟨rfl, rfl⟩
  · intro d after
    have fresh : b'.willsOf t = [] := by
      rw [log, unpublished d after, if_neg (by simp [after])]
      rfl
    cases before : b.clients.get? t with
    | some c =>
      obtain ⟨same, flag⟩ := spoken c d before after
      exact ⟨same, flag, fresh⟩
    | none =>
      -- just accepted: neither the record nor the trace says anything
      obtain ⟨unborn, unset', unsent'⟩ := Op.newcomer healthy done before after
      obtain ⟨unset, unsent⟩ := ledger.unborn unborn
      obtain ⟨same, unsaid⟩ := silent before
      rw [same, unsaid, unset, unsent]
      exact ⟨unset', unsent', fresh⟩
  · intro gone
    rw [log, if_pos gone]
    cases before : b.clients.get? t with
    | none =>
      obtain ⟨same, unsaid⟩ := silent before
      rw [same, unsaid, ledger.gone before]
      simp
    | some c =>
      -- it goes now, and what it leaves is what its record said before the operation
      obtain ⟨same, flag, unpublished⟩ := ledger.connected c before
      have unsaid : op.nextWill t will = will ∧ op.disconnects t = false := by
        -- the sender of a packet stays
        refine Op.unsaid (fun p same => ?_) will
        subst same
        obtain ⟨d, after⟩ := Op.stays healthy done calm (fun same => by cases same) before
        rw [gone] at after
        cases after
      rw [unsaid.1, unsaid.2, unpublished]
      simp [Client.bequest, same, flag]

namespace Loop

theorem lastWill_snoc (t : Token) (ops : List Op) (op : Op) :
    lastWill t (ops ++ [op]) = op.nextWill t (lastWill t ops) := by
  simp [lastWill]

theorem sentDisconnect_snoc (t : Token) (ops : List Op) (op : Op) :
    sentDisconnect t (ops ++ [op]) = (sentDisconnect t ops || op.disconnects t) := by
  simp [sentDisconnect]

theorem CalmRun.ledger {s₀ s : Loop} {ios : List Io} (start : s₀.Initial) (path : CalmRun s₀ ios s)
    (t : Token) :
    s.Sane ∧ s.broker.Ledger t (lastWill t (s₀.trace ios)) (sentDisconnect t (s₀.trace ios)) := by
  induction path with
  | nil =>
    refine ⟨sane_initial start, ?_⟩
    obtain ⟨h, now, file, retryAfter, rfl⟩ := start
    obtain ⟨_, _, loaded⟩ := (Broker.new h now file).loadState_frame h
    rw [init, loaded]
    exact ⟨fun _ => ⟨rfl, rfl⟩, fun c found => (by cases found), fun _ => rfl⟩
  | @snoc ios u v io before ok next ih =>
    obtain ⟨sane, ledger⟩ := ih
    refine ⟨sane.step ok.2 next, ?_⟩
    rw [trace_append before, trace_single, lastWill_snoc, sentDisconnect_snoc]
    obtain ⟨b, out, ran, rfl⟩ := step_ok.mp next
    refine ledger.op sane.healthy sane.numbered ok.2 (fun k p same => ?_) ran
    obtain ⟨todo, n, next, failed, here⟩ := op_packet same
    -- A packet step is in the middle of a batch, whose client is there.
    have attended := sane.attended
    rw [here] at attended
    exact attended.1

end Loop

/-- At the end of every run in which `deliver_to` erases no connection: the will of a
connection that is there was not published; the will of one that is gone was published once,
as its latest CONNECT set it, or never if it set none or sent DISCONNECT. -/
theorem will_published_once (s₀ : Loop) (ios : List Io) (s : Loop) (start : s₀.Initial)
    (path : Loop.CalmRun s₀ ios s) (t : Token) :
    s.broker.willsOf t =
      if s.broker.clients.contains t || sentDisconnect t (s₀.trace ios) then []
      else (lastWill t (s₀.trace ios)).toList := by
  obtain ⟨-, ledger⟩ := path.ledger start t
  cases found : s.broker.clients.get? t with
  | some c =>
    have there : s.broker.clients.contains t = true := (HashMap.contains_iff _ _).mpr ⟨c, found⟩
    rw [(ledger.connected c found).2.2, there]
    rfl
  | none =>
    have gone : s.broker.clients.contains t = false := (HashMap.contains_eq_false _ _).mpr found
    rw [ledger.gone found, gone, Bool.false_or]

/-- The client with the will is cut off. -/
def hangUp : List Io := greet ++ [.read [], .quiet]

theorem will_published_once_hangUp : ∃ s : Loop, s.broker.clients.contains 1 = false ∧
    s.broker.willsOf 1 = [willW] := by
  obtain ⟨s, path, checked⟩ := Loop.exists_calm hangUp
    (fun s => !s.broker.clients.contains 1 &&
      decide (lastWill 1 (Loop.fresh.trace hangUp) = some willW ∧
        sentDisconnect 1 (Loop.fresh.trace hangUp) = false))
    (by decide +kernel)
  simp only [Bool.and_eq_true, Bool.not_eq_true', decide_eq_true_eq] at checked
  obtain ⟨gone, set, unsent⟩ := checked
  refine ⟨s, gone, ?_⟩
  rw [will_published_once Loop.fresh hangUp s Loop.fresh_initial path 1, gone, unsent, set]
  rfl

/-- Nothing publishes the will of a connection that is gone. -/
theorem Op.willsOf_gone {op : Op} {b b' : Broker} {out : Outcome} (healthy : b.Healthy)
    (done : op.run b = .ok (b', out)) {t : Token} (gone : b.clients.get? t = none) :
    b'.willsOf t = b.willsOf t := by
  cases closing : op.closing with
  | none => rw [Broker.willsOf, Op.willLog_of_open healthy done closing, ← Broker.willsOf]
  | some k =>
    rcases Op.willLog_of_closing healthy done closing with ⟨d, -, same⟩ | ⟨-, same⟩
    · rw [Broker.willsOf, same, ← Broker.willsOf]
    · rw [Broker.willsOf, same, List.filter_append, List.map_append, ← Broker.willsOf]
      by_cases own : t = k
      · subst own
        simp [gone]
      · simp [List.filter_map, Function.comp_def, Ne.symm own]

/-- The will of a client that is dropped by its own PUBLISH is not published, then or later. -/
theorem will_lost :
    ¬∀ (s₀ : Loop) (ios : List Io) (s : Loop), s₀.Initial →
      Machine.Path Loop.step (fun s io => s.admits io = true) s₀ ios s → ∀ t,
      s.broker.clients.contains t = false → sentDisconnect t (s₀.trace ios) = false →
      ∃ more s', Machine.Path Loop.step (fun s io => s.admits io = true) s more s' ∧
        s'.broker.willsOf t = (lastWill t (s₀.trace ios)).toList := by
  intro claim
  obtain ⟨ios, s, s', path, trace, admitted, step, full, lost⟩ := exists_self_overflow
  have said : lastWill 1 (Loop.fresh.trace greet) = some willW ∧
      sentDisconnect 1 (Loop.fresh.trace greet) = false := by
    decide +kernel
  -- A PUBLISH changes nothing about the will, so it is still set after the flood.
  have mute : Op.nextWill 1 (some willW) (.packet 1 selfPublish) = some willW := by
    decide +kernel
  have set : lastWill 1 (Loop.fresh.trace (ios ++ [.quiet])) = some willW := by
    rw [trace, lastWill, List.foldl_append, ← lastWill, said.1, List.foldl_cons]
    generalize 257 = n
    induction n with
    | zero => rfl
    | succ n ih =>
      rw [List.replicate_succ', List.foldl_append, ih]
      exact mute
  have unsent : sentDisconnect 1 (Loop.fresh.trace (ios ++ [.quiet])) = false := by
    rw [trace, sentDisconnect, List.any_append, ← sentDisconnect, said.2, List.any_cons]
    generalize 257 = n
    have other : selfPublish.ptype ≠ DISCONNECT := by decide
    simp [Op.disconnects, other]
  obtain ⟨more, s'', later, published⟩ := claim _ _ _ Loop.fresh_initial (path.snoc _ admitted step) 1
    ((HashMap.contains_eq_false _ _).mpr lost.gone) unsent
  have given : 1 < s'.broker.nextToken := by
    obtain ⟨c, found, -⟩ := full.client
    have reached : s.Reachable := ⟨_, _, Loop.fresh_initial, path⟩
    obtain ⟨b, out, ran, rfl⟩ := Loop.step_ok.mp step
    exact Nat.lt_of_lt_of_le (reached.numbered 1 c found) (Op.nextToken_le reached.healthy ran)
  -- Client 1 is gone for good, and a client that is gone publishes no will.
  have never := later.invariant (fun s => s.broker.Healthy ∧ 1 < s.broker.nextToken ∧
    s.broker.clients.get? 1 = none ∧ s.broker.willsOf 1 = [])
    (fun u io v ⟨healthy, given, gone, none_yet⟩ _ next => by
      obtain ⟨b, out, ran, rfl⟩ := Loop.step_ok.mp next
      exact ⟨healthy.op _ ran, Nat.lt_of_lt_of_le given (Op.nextToken_le healthy ran),
        Op.absent healthy ran given gone, (Op.willsOf_gone healthy ran gone).trans none_yet⟩)
    ⟨lost.healthy, given, lost.gone, by simp [Broker.willsOf, lost.unwilled]⟩
  rw [never.2.2.2, set] at published
  cases published

end MioBroker
