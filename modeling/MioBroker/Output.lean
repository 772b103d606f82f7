import MioBroker.Survivors
import MioBroker.Scenario

/-!
# Partly written output

Unsent data lives in the queue and in the coalesced batch. A batch that is not fully written
is flushed again when the queue fills up or when the socket reports that it is writable; the
second is what the registered interest is for.
-/
namespace MioBroker

open Rust

namespace Client

/-- Bytes are left to be written. -/
def Unwritten (c : Client) : Prop := c.writeOff < c.writePending.length ∨ c.writeQueue ≠ []

/-- The next scan flushes the client, or its socket is watched for writability. -/
def Watched (c : Client) : Prop := c.writeQueue ≠ [] ∨ c.interest = .readableWritable

/-- A partly written batch is watched for. -/
structure Linked (c : Client) : Prop where
  offset : c.writeOff ≤ c.writePending.length
  armed : c.writeOff < c.writePending.length → c.interest = .readableWritable

theorem Linked.watched {c : Client} (linked : c.Linked) (unwritten : c.Unwritten) : c.Watched := by
  rcases unwritten with partly | queued
  · exact .inr (linked.armed partly)
  · exact .inl queued

theorem linked_accepted (t : Token) (h₁ h₂ : RandomState UInt16) : (accepted t h₁ h₂).Linked :=
  ⟨Nat.le_refl _, fun lt => absurd lt (Nat.lt_irrefl _)⟩

/-- Two records agree on batch and interest. -/
def SameLink (c d : Client) : Prop :=
  d.writePending = c.writePending ∧ d.writeOff = c.writeOff ∧ d.interest = c.interest

theorem Linked.congr {c d : Client} (linked : c.Linked) (same : SameLink c d) : d.Linked := by
  obtain ⟨pending, off, interest⟩ := same
  constructor
  · rw [pending, off]
    exact linked.offset
  · rw [pending, off, interest]
    exact linked.armed

theorem Offered.sameLink {c d : Client} (offered : Offered c d) : SameLink c d := by
  rw [offered.frame]
  exact ⟨rfl, rfl, rfl⟩

theorem sameLink_reply (c : Client) (pkt : Bytes) : SameLink c (c.reply pkt) := by
  rw [reply_frame]
  exact ⟨rfl, rfl, rfl⟩

end Client

/-- Changes that are not about writing to the socket. -/
def Change.KeepsLink : Change → Prop
  | .write _ => False
  | .rearm _ => False
  | _ => True

theorem Change.sameLink {ch : Change} (keeps : ch.KeepsLink) (now : Instant) (c : Client) :
    Client.SameLink c (ch.apply now c) := by
  have unwritten : ∀ ws, ch ≠ .write ws := by
    rintro ws rfl
    exact keeps.elim
  have unarmed : ∀ interest, ch ≠ .rearm interest := by
    rintro interest rfl
    exact keeps.elim
  by_cases connects : ∃ p, ch = .connect p
  · obtain ⟨p, rfl⟩ := connects
    exact Client.sameLink_reply _ _
  · obtain ⟨_, _, _, _, _, _, _, _, _, _, same, -, -, -, -, link⟩ :=
      ch.frame now c fun p same => connects ⟨p, same⟩
    rw [same]
    exact link unwritten unarmed

namespace Client

theorem refill_offset {c d : Client} (offset : c.writeOff ≤ c.writePending.length)
    (done : c.refill = some d) : d.writeOff ≤ d.writePending.length := by
  simp only [refill] at done
  split at done
  · split at done
    · cases done
    · cases done
      exact Nat.zero_le _
  · cases done
    exact offset

/-- Nothing is left exactly when the batch is written and the queue is empty. -/
theorem refill_none {c : Client} (done : c.refill = none) :
    c.writeOff = c.writePending.length ∧ c.writeQueue = [] := by
  simp only [refill] at done
  split at done
  next written =>
    split at done
    next empty => exact ⟨written, List.isEmpty_iff.mp empty⟩
    next => cases done
  next => cases done

/-- After the write loop the offset is still inside the batch, and at its end if all is
written. -/
theorem writeLoop_offset (ws : List WriteResult) (c : Client)
    (offset : c.writeOff ≤ c.writePending.length) :
    (c.writeLoop ws).1.writeOff ≤ (c.writeLoop ws).1.writePending.length ∧
      ((c.writeLoop ws).2 = .wroteAll →
        (c.writeLoop ws).1.writeOff = (c.writeLoop ws).1.writePending.length) := by
  induction ws generalizing c with
  | nil =>
    rw [writeLoop]
    split
    next done => exact ⟨offset, fun _ => (refill_none done).1⟩
    next d done => exact ⟨refill_offset offset done, fun all => by cases all⟩
  | cons w ws ih =>
    rw [writeLoop]
    split
    next done => exact ⟨offset, fun _ => (refill_none done).1⟩
    next d done =>
      have inside := refill_offset offset done
      cases w with
      | wouldBlock => exact ⟨inside, fun all => by cases all⟩
      | err => exact ⟨inside, fun all => by cases all⟩
      | ok n =>
        simp only
        split
        · exact ⟨inside, fun all => by cases all⟩
        · -- A partial write leaves the offset inside the buffer, and the loop goes on.
          refine ih _ ?_
          simp only [List.length_drop]
          omega

/-- A flush that does not end in an error leaves the interest in order. -/
theorem linked_flushed (ws : List WriteResult) (c : Client)
    (offset : c.writeOff ≤ c.writePending.length) :
    Linked { (c.writeLoop ws).1 with
      interest := if (c.writeLoop ws).2 = .wroteAll then .readable else .readableWritable } := by
  obtain ⟨inside, all⟩ := writeLoop_offset ws c offset
  refine ⟨inside, fun partly => ?_⟩
  simp only at partly ⊢
  split
  next wrote =>
    rw [all wrote] at partly
    exact absurd partly (Nat.lt_irrefl _)
  next => rfl

end Client

namespace Broker

/-- Every partly written batch is watched for. -/
def Linked (b : Broker) : Prop := ∀ t c, b.clients.get? t = some c → c.Linked

/-- Acts that do not write to sockets keep the link state of every connection but `t`. -/
theorem linked_acts {ok : Broker → Act → Prop} {b b' : Broker} (healthy : b.Healthy)
    (acts : Acts ok b b') (except : Token → Prop)
    (keeps : ∀ s t ch, ok s (.change t ch) → ch.KeepsLink)
    (linked : ∀ t c, ¬except t → b.clients.get? t = some c → c.Linked) :
    ∀ t c, ¬except t → b'.clients.get? t = some c → c.Linked := by
  refine acts.keeps healthy (fun s => ∀ t c, ¬except t → s.clients.get? t = some c → c.Linked) ?_ linked
  intro s a s' healthy linked admitted done t d outside found
  rcases a.survivor healthy done found with ⟨h₁, h₂, -, -, rfl⟩ | ⟨c, before, same⟩
  · exact Client.linked_accepted t h₁ h₂
  · have linked_c := linked t c outside before
    rcases same with ⟨ch, rfl, rfl⟩ | fed
    · exact linked_c.congr (Change.sameLink (keeps s t ch admitted) _ c)
    · exact linked_c.congr fed.offered.sameLink

theorem linked_flush {b b' : Broker} {t : Token} {ws : List WriteResult} (healthy : b.Healthy)
    (done : b.flushWrites t ws = .ok b') (linked : b.Linked) : b'.Linked := by
  simp only [flushWrites] at done
  obtain ⟨c, found, done⟩ := Run.bind_ok.mp done
  replace found := Run.unwrap_ok found
  split at done
  next dead =>
    -- the connection is removed, the others only receive what its will delivers
    have healthy' : Healthy { b with clients := b.clients.insert t (c.writeLoop ws).1 } :=
      ⟨healthy.indexed, healthy.modify t _ ((healthy.capped t c found).change 0 (.write ws))⟩
    intro k d there
    have others := linked_acts healthy' (removeClient_acts done) (· = t)
      (fun s t ch ok => ok.1.elim) fun k d outside there => by
        rw [HashMap.get?_insert_ne _ _ outside] at there
        exact linked k d there
    refine others k d ?_ there
    rintro rfl
    obtain ⟨e, f, -, -, rfl⟩ := removeClient_parts done
    obtain ⟨_, _, _, saved⟩ := (f.dropClient k).save_frame
    obtain ⟨_, _, dropped⟩ := f.dropClient_frame k
    rw [saved, dropped] at there
    simp at there
  next alive =>
    cases done
    intro k d there
    simp only [HashMap.insert_insert, HashMap.get?_insert] at there
    split at there
    next same =>
      cases there
      exact Client.linked_flushed ws c (linked t c found).offset
    next => exact linked k d there

/-- An operation keeps the link state in order unless it stops watching a partly written
batch. -/
theorem Linked.op {b b' : Broker} {out : Outcome} (linked : b.Linked) (healthy : b.Healthy) (op : Op)
    (written : ∀ t c, op = .quiesce t → b.clients.get? t = some c →
      c.writeOff = c.writePending.length) (done : op.run b = .ok (b', out)) : b'.Linked := by
  -- An operation without a write or a rearm keeps the link act by act.
  have by_acts : (∀ t ch, op.permits (.change t ch) → ch.KeepsLink) → b'.Linked := by
    intro keeps t c found
    exact linked_acts healthy (op.acts healthy done) (fun _ => False)
      (fun s t ch ok => keeps t ch ok.1) (fun t c _ there => linked t c there) t c id found
  cases op with
  | flush t ws =>
    obtain ⟨d, flushed, done⟩ := Run.bind_ok.mp done
    cases done
    exact linked_flush healthy flushed linked
  | quiesce t =>
    cases done
    intro k d there
    simp only [quiesce] at there
    split at there
    next c found =>
      simp only [HashMap.get?_insert] at there
      split at there
      next same =>
        cases there
        refine ⟨(linked t c found).offset, fun partly => ?_⟩
        rw [written t c rfl found] at partly
        exact absurd partly (Nat.lt_irrefl _)
      next => exact linked k d there
    next => exact linked k d there
  | packet t p =>
    apply by_acts
    rintro k ch ⟨-, changes⟩
    cases ch <;> first
      | exact changes.elim
      | trivial
  | receive t read =>
    apply by_acts
    rintro k ch ⟨buf, same | same⟩ <;>
    · cases same
      trivial
  | retry t pid pkt scanned =>
    apply by_acts
    intro k ch same
    cases same
    trivial
  | accept h₁ h₂ =>
    apply by_acts
    intro k ch same
    cases same
  | publish topic payload qos retain =>
    apply by_acts
    intro k ch same
    cases same
  | _ => exact by_acts fun k ch permitted => permitted.elim

end Broker
namespace Loop

/-- A WRITABLE event is about to be handled for a connection whose queue is empty although its
batch is not fully written. -/
def Abandons (s : Loop) (io : Io) : Prop :=
  ∃ t todo os c, s.pc = .writable t true todo ∧ io = .go os ∧ s.broker.clients.get? t = some c ∧
    c.writeQueue = [] ∧ c.writeOff < c.writePending.length

/-- The interest is taken back in one place only. -/
theorem op_quiesce {s : Loop} {io : Io} {t : Token} (op : s.op io = .quiesce t) {c : Client}
    (found : s.broker.clients.get? t = some c) :
    ∃ todo os, s.pc = .writable t true todo ∧ io = .go os ∧ c.writeQueue = [] := by
  have grounds := s.op_grounds io
  rw [op] at grounds
  obtain ⟨todo, here, empty⟩ := grounds
  cases io with
  | tick dt fault => cases op
  | go os => exact ⟨todo, os, here, rfl, empty c found⟩

/-- One step of a run that abandons nothing. -/
theorem linked_step {s t : Loop} {io : Io} (healthy : s.broker.Healthy) (linked : s.broker.Linked)
    (kept : ¬s.Abandons io) (done : s.step io = .ok t) : t.broker.Linked := by
  obtain ⟨b, out, ran, rfl⟩ := step_ok.mp done
  refine linked.op healthy _ (fun k c op found => ?_) ran
  obtain ⟨todo, os, here, rfl, empty⟩ := op_quiesce op found
  by_contra partly
  exact kept ⟨k, todo, os, c, here, rfl, found, empty,
    Nat.lt_of_le_of_ne (linked k c found).offset partly⟩

end Loop

/-- At the end of a run in which no WRITABLE event meets a connection with an empty queue and a
partly written batch, unwritten bytes are always going to be flushed; and at the end of any run
a WRITABLE event is answered with a flush exactly when it is not of that kind. -/
theorem unwritten_watched (s₀ : Loop) (ios : List Io) (s : Loop) (start : s₀.Initial)
    (path : Machine.Path Loop.step (fun s io => s.admits io = true) s₀ ios s) :
    (Machine.Path Loop.step (fun s io => s.admits io = true ∧ ¬s.Abandons io) s₀ ios s →
      ∀ t c, s.broker.clients.get? t = some c → c.Unwritten → c.Watched) ∧
    ∀ t todo os c, s.pc = .writable t true todo → s.broker.clients.get? t = some c →
      c.writeOff < c.writePending.length →
      (s.op (.go os) = .flush t os.writes ↔ ¬s.Abandons (.go os)) := by
  constructor
  · intro path t c found unwritten
    obtain ⟨h, now, file, retryAfter, rfl⟩ := start
    -- The buffer of a client and its interest are tied together along the whole run.
    have both := path.invariant (fun s => s.broker.Healthy ∧ s.broker.Linked)
      (fun s io t ⟨healthy, linked⟩ ok done => by
        obtain ⟨b, out, ran, after⟩ := Loop.step_ok.mp done
        refine ⟨?_, Loop.linked_step healthy linked ok.2 done⟩
        rw [after]
        exact healthy.op _ ran)
      ⟨Broker.healthy_startup h now file, fun t c there => by
        obtain ⟨_, _, loaded⟩ := (Broker.new h now file).loadState_frame h
        rw [Loop.init, loaded] at there
        cases there⟩
    exact (both.2 t c found).watched unwritten
  · intro t todo os c here found partly
    simp only [Loop.op, Loop.next, here, if_true, found]
    cases queue : c.writeQueue with
    | nil =>
      simp only [List.isEmpty_nil, Bool.not_true, Bool.false_eq_true, if_false, reduceCtorEq,
        false_iff, not_not]
      exact ⟨t, todo, os, c, here, rfl, found, queue, partly⟩
    | cons e rest =>
      simp only [List.isEmpty_cons, Bool.not_false, if_true, true_iff]
      rintro ⟨t', todo', os', c', here', same, found', empty, -⟩
      cases here.symm.trans here'
      cases found.symm.trans found'
      simp [queue] at empty

/-- A connection whose CONNACK is cut after two bytes. -/
def shortWrite : List Io :=
  [Io.listen, .connection] ++ List.replicate 3 Io.quiet ++ [Io.read (connectBytes 2 97)] ++
    List.replicate 3 Io.quiet ++ [Io.write [.ok 2]]

theorem unwritten_watched_shortWrite : ∃ (s : Loop) (c : Client),
    s.broker.clients.get? 1 = some c ∧ c.writeOff = 2 ∧ c.writePending.length = 4 ∧ c.Watched := by
  -- the run never stands at a writable event
  have run : ∃ s, Machine.runChecked Loop.step (fun s io => s.admits io &&
      match s.pc with
      | .writable _ _ _ => false
      | _ => true) Loop.fresh shortWrite = some s ∧
      ((s.broker.clients.get? 1).any fun c : Client =>
        decide (c.writeOff = 2 ∧ c.writePending.length = 4)) = true :=
    (Option.any_eq_true _ _).mp (by decide +kernel)
  obtain ⟨s, done, checked⟩ := run
  obtain ⟨c, found, partly⟩ := (Option.any_eq_true _ _).mp checked
  rw [decide_eq_true_eq] at partly
  have path := Machine.runChecked_path _ _ _ _ _ done
  refine ⟨s, c, found, partly.1, partly.2, (unwritten_watched Loop.fresh shortWrite s
    Loop.fresh_initial (path.mono fun s io ok => (Bool.and_eq_true _ _ ▸ ok).1)).1
    (path.mono fun s io ok => ?_) 1 c found (.inl (by omega))⟩
  rw [Bool.and_eq_true] at ok
  refine ⟨ok.1, ?_⟩
  rintro ⟨t, todo, os, c, here, -⟩
  simp [here] at ok

/-- The cut CONNACK's connection is reported writable. -/
def cutConnack : List Io :=
  shortWrite ++ List.replicate 6 Io.quiet ++ [Io.poll [.client 1 false true]] ++
    List.replicate 13 Io.quiet

/-- Nothing is due before the next poll. -/
def Loop.idles (s : Loop) : Bool :=
  match s.pc with
  | .poll => true
  | _ => false

/-- The loop comes back to its poll with two bytes of the CONNACK unwritten, nothing queued and
no interest in writability. -/
theorem unwritten_abandoned :
    ¬∀ s : Loop, s.Reachable → s.pc = .poll → ∀ t c, s.broker.clients.get? t = some c →
      c.Unwritten → c.Watched := by
  intro claim
  obtain ⟨s, done, checked⟩ := Loop.exists_after cutConnack (fun s =>
    s.idles && (s.broker.clients.get? 1).any fun c : Client =>
        decide (c.writeOff < c.writePending.length ∧ c.writeQueue = [] ∧ c.interest = .readable))
    (by decide +kernel)
  simp only [Bool.and_eq_true, Option.any_eq_true, decide_eq_true_eq] at checked
  obtain ⟨polling, c, found, partly, empty, interest⟩ := checked
  -- Back at the poll nothing else is due, and the client waits for reads alone.
  have at_poll : s.pc = .poll := by
    rw [Loop.idles] at polling
    split at polling
    next here => exact here
    next => cases polling
  rcases claim s (Loop.after_reachable done) at_poll 1 c found (.inl partly) with queued | armed
  · exact queued empty
  · rw [interest] at armed
    cases armed

end MioBroker
