import MioBroker.Reconnect

/-!
# At-least-once delivery to persistent clients

Every accepted message that is not acknowledged is in flight while its client is connected and
stored while it is not, as long as no operation loses a copy. `remove_client` saves the queue
and not the window, so a client that leaves between the write and its acknowledgement loses the
message.
-/
namespace MioBroker

open Rust

/-! ### One operation -/

/-- An operation that loses no copy of a message to the client: `deliver_to` drops no connection of
it, its acknowledgements and its CONNECTs are in order, and a connection of it is removed only while
every copy it has not acknowledged is still queued. -/
structure Op.Preserves (cid : Str) (b : Broker) (op : Op) : Prop where
  spares : op.Spares cid b
  answers : op.Answers cid b
  connects : ∀ t p q, op = .packet t p → p.ptype = CONNECT → parseConnect p.body = .ok (some q) →
    b.Reconnects cid t q
  departs : ∀ d t c, op.removal b = some (d, t) → d.clients.get? t = some c → c.Belongs cid →
    d.Departs t c

section Operation

variable {cid : Str} {m : Str × Bytes} {b b' d : Broker} {op : Op} {out : Outcome} {t : Token} {n : Nat}

/-- The state a removal starts in, and what it consists of. -/
theorem Op.removal_run (cid : Str) (removing : op.removal b = some (d, t))
    (done : op.run b = .ok (b', out)) :
    d.removeClient t = .ok b' ∧ op.publishCall b = d.willCall t ∧ op.resumes cid = false ∧
      (d = b ∨ ∃ c ws, b.clients.get? t = some c ∧
        d = { b with clients := b.clients.insert t (c.writeLoop ws).1 }) := by
  cases op with
  | remove k =>
    cases removing
    obtain ⟨e, removed, done⟩ := Run.bind_ok.mp done
    cases done
    exact ⟨removed, rfl, rfl, .inl rfl⟩
  | flush k ws =>
    simp only [removal] at removing
    split at removing
    next c found =>
      split at removing
      -- A failed write removes the client as it has left it.
      next dead =>
        cases removing
        obtain ⟨e, flushed, done⟩ := Run.bind_ok.mp done
        cases done
        simp only [Broker.flushWrites, found, Run.unwrap, Run.ok_bind, dead, if_true] at flushed
        exact ⟨flushed, by simp [publishCall, found, dead], rfl, .inr ⟨c, ws, found, rfl⟩⟩
      next => cases removing
    next => cases removing
  | _ => cases removing

/-- A removal of a connection of the client. -/
theorem Op.removal_custody {c : Client} (nonempty : cid.isEmpty = false) (healthy : b.Healthy)
    (genuine : b.Genuine) (preserves : op.Preserves cid b) (removal : op.removal b = some (d, t))
    (found : d.clients.get? t = some c) (belongs : c.Belongs cid) (done : op.run b = .ok (b', out))
    (custody : b.Custody cid m n) : b'.Custody cid m (op.owes cid m b b' n) := by
  obtain ⟨removed, called, unresumed, start⟩ := Op.removal_run cid removal done
  obtain ⟨healthy', genuine', kept, logged⟩ : d.Healthy ∧ d.Genuine ∧ d.Custody cid m n ∧
      d.accepted cid m = b.accepted cid m := by
    rcases start with rfl | ⟨e, ws, before, rfl⟩
    · exact ⟨healthy, genuine, custody, rfl⟩
    · have run : (Act.change t (.write ws)).run b =
          .ok { b with clients := b.clients.insert t (e.writeLoop ws).1 } := by
        simp [Act.run, Broker.modifyClient, before, Change.apply]
      have sound : Act.Sound (.change t (.write ws)) := trivial
      refine ⟨healthy.act _ run, genuine.act healthy sound run, ?_, rfl⟩
      exact (custody.grows (Broker.write_grows before ws)).mono (Nat.le_add_right _ _)
  obtain ⟨sole, ending⟩ := Broker.remove_custody nonempty healthy' genuine' found belongs
    (preserves.departs d t c removal found belongs)
    (fun call made => preserves.spares.published call (called.trans made)) kept removed
  refine ⟨sole, ?_⟩
  rcases ending with full | counted
  · simp [owes, full]
  · rw [logged] at counted
    exact Nat.le_trans (Op.owes_le n unresumed) (Nat.le_trans (Nat.sub_le _ _) counted)

/-- What the client is owed behind an operation that loses no copy is there. -/
theorem Op.custody (nonempty : cid.isEmpty = false) (healthy : b.Healthy) (numbered : b.Numbered)
    (genuine : b.Genuine) (preserves : op.Preserves cid b) (done : op.run b = .ok (b', out))
    (custody : b.Custody cid m n) : b'.Custody cid m (op.owes cid m b b' n) := by
  have plainly := fun plain : op.Plain cid b =>
    plain.custody nonempty healthy numbered preserves.spares done custody
  -- whoever is removed is a connection of the client or not
  have removes : ∀ d t, op.removal b = some (d, t) → ¬d.Foreign cid t →
      b'.Custody cid m (op.owes cid m b b' n) := by
    intro d t removal member
    simp only [Broker.Foreign, not_forall, not_not] at member
    obtain ⟨c, found, belongs⟩ := member
    exact Op.removal_custody nonempty healthy genuine preserves removal found belongs done custody
  cases op with
  | packet t p =>
    by_cases isAck : p.ptype = PUBACK ∨ p.ptype = PUBREC ∨ p.ptype = PUBCOMP
    · exact Op.ack_custody isAck preserves.answers done custody
    simp only [not_or] at isAck
    by_cases isConnect : p.ptype = CONNECT
    · obtain ⟨parsed, parse⟩ := parseConnect_total p.body
      cases parsed with
      | none =>
        have unread : (Op.packet t p).resumes cid = false := by
          simp [resumes, connectPacket, isConnect, parse]
        obtain ⟨r, dispatched⟩ := Op.packet_ok done
        have same : b' = b := by
          simp only [Broker.dispatch, isConnect, if_true, Broker.handleConnect, parse, Run.ok_bind]
            at dispatched
          cases dispatched
          rfl
        subst same
        refine custody.mono (Nat.le_trans (Op.owes_le n unread) ?_)
        rw [Nat.sub_self]
        exact Nat.sub_le _ _
      | some q =>
        have reconnects := preserves.connects t p q rfl isConnect parse
        by_cases own : q.cid = cid
        · exact Op.connect_custody nonempty healthy isConnect parse own reconnects done custody
        · refine plainly ⟨isAck.1, isAck.2.1, isAck.2.2, fun _ =>
            ⟨fun c found belongs => own (reconnects.same c found belongs), fun q' parse' => ?_⟩⟩
          cases parse.symm.trans parse'
          exact own
    · exact plainly ⟨isAck.1, isAck.2.1, isAck.2.2, fun same => absurd same isConnect⟩
  | remove t =>
    by_cases foreign : b.Foreign cid t
    · exact plainly foreign
    · exact removes b t rfl foreign
  | flush t ws =>
    by_cases plain : (Op.flush t ws).Plain cid b
    · exact plainly plain
    obtain ⟨member, closing⟩ := not_or.mp plain
    obtain ⟨⟨d, k⟩, removing⟩ := Option.ne_none_iff_exists'.mp closing
    refine removes d k removing fun foreign => member fun c found belongs => ?_
    -- the write has not changed who the connection belongs to
    simp only [removal, found] at removing
    split at removing
    · cases removing
      have same : Client.SameIdentity c ((Change.write ws).apply b.now c) :=
        Change.sameIdentity b.now c fun p writes => by cases writes
      exact foreign _ (HashMap.get?_insert_self _ _ _) ((same.belongs cid).mpr belongs)
    · cases removing
  | _ => exact plainly trivial

end Operation

/-! ### Runs -/

/-- The process and what the client is owed of one message: the accepted deliveries it has neither
acknowledged nor given up. -/
structure Ledger where
  loop : Loop
  owed : Nat

namespace Ledger

def step (cid : Str) (m : Str × Bytes) (l : Ledger) (io : Io) : Run Ledger := do
  let s ← l.loop.step io
  pure ⟨s, (l.loop.op io).owes cid m l.loop.broker s.broker l.owed⟩

theorem step_ok {cid : Str} {m : Str × Bytes} {l l' : Ledger} {io : Io}
    (done : l.step cid m io = .ok l') :
    l.loop.step io = .ok l'.loop ∧
      l'.owed = (l.loop.op io).owes cid m l.loop.broker l'.loop.broker l.owed := by
  obtain ⟨s, stepped, done⟩ := Run.bind_ok.mp done
  cases done
  exact ⟨stepped, rfl⟩

/-- Operations that are admitted and lose no copy. -/
def Careful (cid : Str) (l : Ledger) (io : Io) : Prop :=
  l.loop.admits io = true ∧ (l.loop.op io).Preserves cid l.loop.broker

end Ledger

/-- In every run whose operations lose no copy: every message accepted for a persistent client that
it has not acknowledged, and that neither a clean session nor a full offline queue has settled, is in
flight while the client is connected and in its session while it is not. -/
theorem at_least_once (cid : Str) (nonempty : cid.isEmpty = false) (m : Str × Bytes) (s : Loop)
    (start : s.Initial) (ios : List Io) (l : Ledger)
    (run : Machine.Path (Ledger.step cid m) (Ledger.Careful cid) ⟨s, 0⟩ ios l) :
    l.loop.broker.Covers cid m l.owed := by
  have kept : l.loop.Reachable ∧ l.loop.broker.Custody cid m l.owed := by
    refine run.invariant (fun l => l.loop.Reachable ∧ l.loop.broker.Custody cid m l.owed) ?_ ?_
    · rintro l io l' ⟨reached, custody⟩ ⟨admitted, preserves⟩ done
      obtain ⟨stepped, owed⟩ := Ledger.step_ok done
      refine ⟨reached.next admitted stepped, ?_⟩
      obtain ⟨b, out, ran, same⟩ := Loop.step_ok.mp stepped
      have genuine := reached.genuine
      rw [owed, same]
      exact Op.custody nonempty genuine.healthy reached.numbered genuine.broker preserves ran custody
    · refine ⟨Machine.Reaches.initial start, .of_absent fun t c found => ?_, Nat.zero_le _⟩
      cases (start.startup.unconnected t).symm.trans found
  exact kept.2.sole.covers.mpr kept.2.counted

/-- A check that finds an operation careful while the client sends no acknowledgement, finds no
session on its CONNECT and leaves without a will. -/
def Op.preservesPlainly (cid : Str) (b : Broker) (op : Op) : Bool :=
  ((op.publishCall b).all fun call => call.broker.clients.iter.all fun e =>
    !decide (call.OverflowsAt e.1 e.2)) &&
  ((op.removal b).all fun r => (r.1.willCall r.2).isNone && (r.1.clients.get? r.2).all fun c =>
    c.inFlight.iter.all fun e =>
      c.writeQueue.contains (true, e.2.pkt) && decide (e.2.pkt.length < 130)) &&
  match op with
  | .packet t p => decide (p.ptype ≠ PUBACK ∧ p.ptype ≠ PUBCOMP) &&
      ((b.clients.get? t).all fun c => !c.overruns ((b.packetMessages p).map fun x => x.2.2)) &&
      (decide (p.ptype ≠ CONNECT) ||
        (b.sessions.get? cid).isNone && b.clients.iter.all fun e => !decide (e.2.Belongs cid))
  | _ => true

theorem Op.preserves_of_plainly {cid : Str} {b : Broker} {op : Op}
    (checked : op.preservesPlainly cid b = true) : op.Preserves cid b := by
  simp only [preservesPlainly, Bool.and_eq_true] at checked
  obtain ⟨⟨calls, removals⟩, packets⟩ := checked
  refine ⟨⟨fun call made t c found _ exceeds => ?_, ?_⟩, ?_, ?_, ?_⟩
  · rw [made, Option.all_some, List.all_eq_true] at calls
    have fits := calls (t, c) ((HashMap.mem_iter _ _ _).mpr found)
    simp [exceeds] at fits
  · rintro t p c rfl - found -
    simp only [found, Option.all_some, Bool.and_eq_true, Bool.not_eq_true'] at packets
    exact packets.1.2
  · cases op with
    | packet t p =>
      intro c pid entry _ _ _ _
      simp only [Bool.and_eq_true, decide_eq_true_eq] at packets
      exact ⟨fun isPuback => absurd isPuback packets.1.1.1,
        fun isPubcomp => absurd isPubcomp packets.1.1.2⟩
    | _ => trivial
  · rintro t p q rfl isConnect -
    simp only [isConnect, ne_eq, not_true_eq_false, decide_false, Bool.false_or, Bool.and_eq_true,
      Option.isNone_iff_eq_none, List.all_eq_true] at packets
    obtain ⟨-, unstored, nobody⟩ := packets
    -- The check goes through the whole table, so nobody is of this id.
    have absent : ∀ k c, b.clients.get? k = some c → ¬c.Belongs cid := by
      intro k c found belongs
      have other := nobody (k, c) ((HashMap.mem_iter _ _ _).mpr found)
      simp [belongs] at other
    refine ⟨fun c found belongs => absurd belongs (absent t c found),
      fun _ _ k c found belongs => absurd belongs (absent k c found),
      fun _ _ sess c stored _ => ?_, fun _ _ sess stored => ?_⟩
    · cases unstored.symm.trans stored
    · cases unstored.symm.trans stored
  · intro d t c removing found _
    simp only [removing, Option.all_some, Bool.and_eq_true, Option.isNone_iff_eq_none, found,
      List.all_eq_true, decide_eq_true_eq, List.contains_iff_mem] at removals
    obtain ⟨unwilled, queued⟩ := removals
    refine ⟨fun pid entry there _ => ?_, by simp [Broker.ownWill, unwilled]⟩
    obtain ⟨listed, short⟩ := queued (pid, entry) ((HashMap.mem_iter _ _ _).mpr there)
    exact ⟨.inl listed, short⟩

namespace Ledger

/-- The one byte `x` on `t`. -/
def messageX : Str × Bytes := (forwardX.topic, forwardX.payload)

/-- The ledger of client `a` behind a run, if every input passes the check and nothing panics. -/
def after (check : Ledger → Io → Bool) (ios : List Io) : Option Ledger :=
  Machine.runChecked (step connectA.cid messageX) check ⟨Loop.fresh, 0⟩ ios

/-- Client `a` is sent `x`, which is still queued when it disconnects. -/
theorem at_least_once_parting :
    ∃ l : Ledger, l.owed = 1 ∧ l.loop.broker.Covers connectA.cid messageX 1 := by
  obtain ⟨l, done, checked⟩ := (Option.any_eq_true _ _).mp (show (after (fun l io => l.loop.admits io &&
      (l.loop.op io).preservesPlainly connectA.cid l.loop.broker) (parting [6] 1 ++ [.quiet])).any
      (fun l => decide (l.owed = 1)) = true by decide +kernel)
  have owed : l.owed = 1 := by simpa using checked
  refine ⟨l, owed, owed ▸ at_least_once connectA.cid (by decide) messageX Loop.fresh Loop.fresh_initial
    (parting [6] 1 ++ [.quiet]) l ?_⟩
  refine (Machine.runChecked_path _ _ _ _ _ done).mono fun l io ok => ?_
  obtain ⟨admitted, plainly⟩ := (Bool.and_eq_true _ _).mp ok
  exact ⟨admitted, Op.preserves_of_plainly plainly⟩

/-- Client `a` is sent `x`, and all of it is written when the connection ends. -/
def unacknowledged : List Io :=
  [Io.listen, .connection] ++ List.replicate 3 Io.quiet ++
    [Io.read (connectBytes 0 97 ++ [0x82, 6, 0, 1, 0, 1, 116, 1] ++ [0x32, 6, 0, 1, 116, 0, 1, 120])] ++
    List.replicate 5 Io.quiet ++ [Io.write [.ok 100]] ++ List.replicate 9 Io.quiet ++ [Io.read [], .quiet]

/-- Nobody has acknowledged `x`, and it is nowhere. -/
theorem written_lost :
    ¬∀ (cid : Str) (m : Str × Bytes) (s : Loop) (ios : List Io) (l : Ledger), cid.isEmpty = false →
      s.Initial → Machine.Path (step cid m) (fun l io => l.loop.admits io = true) ⟨s, 0⟩ ios l →
        l.loop.broker.Covers cid m l.owed := by
  intro claim
  obtain ⟨l, done, checked⟩ := (Option.any_eq_true _ _).mp (show (after (fun l io => l.loop.admits io)
      unacknowledged).any (fun l => decide (l.owed = 1) && l.loop.broker.clients.isEmpty &&
        decide (l.loop.broker.stored connectA.cid messageX = 0)) = true by decide +kernel)
  simp only [Bool.and_eq_true, decide_eq_true_eq] at checked
  obtain ⟨⟨owed, empty⟩, unstored⟩ := checked
  have covered := claim connectA.cid messageX Loop.fresh unacknowledged l (by decide) Loop.fresh_initial
    (Machine.runChecked_path _ _ _ _ _ done)
  have missing := covered.away fun t c found => by
    rw [(HashMap.isEmpty_iff _).mp empty t] at found
    cases found
  rw [owed, unstored] at missing
  cases missing

end Ledger
end MioBroker
