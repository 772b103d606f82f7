import MioBroker.Genuine
import MioBroker.Scenario

/-!
# Retransmission

What is sent again is chosen in the scan over all connections and queued at the end of the round.
In between the sweep reads every socket, so an acknowledgement can come between the choice and
the queueing.
-/
namespace MioBroker

open Rust

/-! ### Where packets with the DUP bit come from -/

namespace Client

/-- How often a packet is in the queue. -/
def copies (c : Client) (pkt : Bytes) : Nat := c.writeQueue.countP fun e => e.2 = pkt

theorem copies_le_of_sublist {c d : Client} (rest : d.writeQueue.Sublist c.writeQueue) (pkt : Bytes) :
    d.copies pkt ≤ c.copies pkt := rest.countP_le

theorem copies_reply (c : Client) {sent pkt : Bytes} (other : sent ≠ pkt) :
    (c.reply sent).copies pkt = c.copies pkt := by
  simp only [reply, queueQos0]
  split
  · rfl
  · simp [copies, List.countP_append, other]

theorem copies_queueQos1 (c : Client) (sent pkt : Bytes) :
    (c.queueQos1 sent).1.copies pkt ≤ c.copies pkt + if sent = pkt then 1 else 0 := by
  have rest := (sublist_makeRoom c.writeQueue.length c.writeQueue).countP_le (p := fun e => e.2 = pkt)
  simp only [queueQos1]
  split
  next queue made =>
    rw [made] at rest
    simp only [copies, List.countP_append, List.countP_singleton] at rest ⊢
    split <;> simp_all
  next queue made =>
    rw [made] at rest
    exact Nat.le_trans rest (Nat.le_add_right _ _)

theorem isDup_buildForward (topic payload : Bytes) {qos : UInt8} (coded : qos ≤ 3)
    (pid : Option UInt16) (retain : Bool) :
    isDup (buildForward topic payload qos pid false retain) = false := by
  have flags : (forwardFlags qos false retain &&& 0x08 != 0) = false := by
    rcases qos_cases coded with rfl | rfl | rfl | rfl <;> cases retain <;> decide
  exact flags

/-- A message that is delivered is not marked DUP. -/
theorem copies_offer {c d : Client} {now : Instant} {topic : Str} {payload : Bytes} {qos : UInt8}
    {retain : Bool} (coded : qos ≤ 3) (done : c.offer now topic payload qos retain = .queued d)
    {pkt : Bytes} (dup : isDup pkt = true) : d.copies pkt ≤ c.copies pkt := by
  -- A first transmission never carries the DUP flag, so it is no copy of `pkt`.
  have other : ∀ pid, buildForward topic.bytes payload qos pid false retain ≠ pkt := by
    rintro pid rfl
    simp [isDup_buildForward topic.bytes payload coded pid retain] at dup
  by_cases unreliable : qos = 0
  · subst unreliable
    by_cases room : c.writeQueue.length < WRITE_QUEUE_CAP
    · rw [offer_qos0_room c now topic payload retain room] at done
      cases done
      simp [copies, List.countP_append, other]
    · rw [offer_qos0_full c now topic payload retain (Nat.not_lt.mp room)] at done
      cases done
  · by_cases room : c.inFlight.size < IN_FLIGHT_CAP
    · obtain ⟨next, pid, alloc, -⟩ := allocPid_room c room
      simp only [offer, if_neg unreliable, alloc] at done
      have queued := ({ c with nextPid := next } : Client).copies_queueQos1
        (buildForward topic.bytes payload qos (some pid) false retain) pkt
      rw [if_neg (other _)] at queued
      split at done
      next e made =>
        rw [made] at queued
        cases done
        exact queued
      next => cases done
    · simp only [offer, if_neg unreliable, allocPid_full c (Nat.not_lt.mp room)] at done
      cases done

theorem copies_restartTimer (c : Client) (pid : UInt16) (now : Instant) (pkt : Bytes) :
    (c.restartTimer pid now).copies pkt = c.copies pkt := by
  rw [copies, writeQueue_restartTimer, copies]

theorem copies_retry (c : Client) (now : Instant) (pid : UInt16) (sent : Bytes) (scanned : Instant)
    (pkt : Bytes) : ((Change.retry pid sent scanned).apply now c).copies pkt ≤
      c.copies pkt + if sent = pkt then 1 else 0 := by
  have queued := c.copies_queueQos1 sent pkt
  simp only [Change.apply]
  split
  next d made =>
    rw [made] at queued
    rw [copies_restartTimer]
    exact queued
  next d made =>
    rw [made] at queued
    exact queued

/-- Of all that a connection is sent in answer to something, nothing is marked DUP. -/
theorem copies_change (c : Client) (now : Instant) {ch : Change} {pkt : Bytes}
    (dup : isDup pkt = true) (plain : ∀ sent, ch = .reply sent → isDup sent = false)
    (untimed : ∀ pid scanned, ch ≠ .retry pid pkt scanned) :
    (ch.apply now c).copies pkt ≤ c.copies pkt := by
  -- Answers are not marked as duplicates either.
  have reply : ∀ (d : Client) (sent : Bytes), isDup sent = false →
      (d.reply sent).copies pkt = d.copies pkt := by
    intro d sent unmarked
    refine copies_reply d ?_
    rintro rfl
    simp [unmarked] at dup
  cases ch with
  | reply sent => exact Nat.le_of_eq (reply c sent (plain sent rfl))
  | connect p => exact Nat.le_of_eq (reply _ buildConnack rfl)
  | buffer buf => exact Nat.le_refl _
  | alive =>
    simp only [Change.apply, refreshKeepalive]
    split <;> exact Nat.le_refl _
  | publishQos2 pid =>
    obtain ⟨received, same, -⟩ := c.receiveQos2_spec pid
    rw [Change.apply, same, reply _ (buildPubrec pid) rfl]
    exact Nat.le_refl _
  | acked pid => exact Nat.le_refl _
  | pubrec pid =>
    simp only [Change.apply, Client.pubrec]
    split
    · split
      · exact Nat.le_of_eq (reply _ (buildPubrel pid) rfl)
      · exact Nat.le_refl _
    · exact Nat.le_refl _
  | pubrel pid => exact Nat.le_of_eq (reply _ (buildPubcomp pid) rfl)
  | disconnect => exact Nat.le_refl _
  | retry pid sent scanned =>
    -- The one change that queues a marked packet is a retry, of another packet here.
    have other : sent ≠ pkt := fun same => untimed pid scanned (by rw [same])
    have queued := c.copies_retry now pid sent scanned pkt
    rw [if_neg other] at queued
    exact queued
  | write ws => exact copies_le_of_sublist (writeLoop_frame ws c).2.sublist pkt
  | rearm interest => exact Nat.le_refl _

end Client

/-- How often a packet is in the queue of a connection. -/
def Broker.copies (b : Broker) (t : Token) (pkt : Bytes) : Nat :=
  ((b.clients.get? t).map fun c => c.copies pkt).getD 0

theorem Broker.copies_some {b : Broker} {t : Token} {c : Client} (found : b.clients.get? t = some c)
    (pkt : Bytes) : b.copies t pkt = c.copies pkt := by
  rw [copies, found]
  rfl

/-- A packet marked DUP is queued by a retransmission of exactly this packet. -/
theorem Op.copies_grow {op : Op} {b b' : Broker} {out : Outcome} (healthy : b.Healthy)
    (genuine : b.Genuine) (sound : op.Sound) (done : op.run b = .ok (b', out)) {t : Token}
    {pkt : Bytes} (dup : isDup pkt = true) (grown : b.copies t pkt < b'.copies t pkt) :
    ∃ pid scanned, op = .retry t pid pkt scanned := by
  by_contra other
  have untimed : ∀ pid scanned, op ≠ .retry t pid pkt scanned := fun pid scanned same =>
    other ⟨pid, scanned, same⟩
  -- Act by act the copies do not grow, for want of a retry that queues the packet.
  have kept := (op.acts healthy done).keeps healthy
    (fun s => ∀ d, s.clients.get? t = some d → d.copies pkt ≤ b.copies t pkt) ?_ fun d found => ?_
  · cases after : b'.clients.get? t with
    | none => simp [Broker.copies, after] at grown
    | some d =>
      rw [Broker.copies_some after] at grown
      exact Nat.not_lt.mpr (kept d after) grown
  · intro s a s' healthy kept ok next d found
    rcases Act.survivor healthy next found with ⟨_, _, -, -, rfl⟩ | ⟨c, before, ⟨ch, rfl, rfl⟩ | fed⟩
    · exact Nat.zero_le _
    · refine Nat.le_trans (c.copies_change s.now dup (fun sent same => ?_) fun pid scanned same => ?_)
        (kept c before)
      · subst same
        obtain ⟨p, -, protocol⟩ := Op.permits_ofPacket rfl ok.1
        exact protocol.not_dup
      · subst same
        exact untimed pid scanned (Op.permits_retry ok.1)
    · have coded := genuine.sound_act sound ok
      exact fed.invariant (fun c => c.copies pkt ≤ b.copies t pkt)
        (fun c d topic payload qos retain among kept queued =>
          Nat.le_trans (Client.copies_offer (coded.offers among) queued dup) kept) (kept c before)
  · exact Nat.le_of_eq (Broker.copies_some found pkt).symm

/-! ### What becomes of an entry of the window -/

/-- The entry is about the same message and awaits the same acknowledgement. -/
structure InFlight.SamePhase (e f : InFlight) : Prop where
  pkt : f.pkt = e.pkt
  qos2 : f.qos2 = e.qos2
  awaitPubcomp : f.awaitPubcomp = e.awaitPubcomp

theorem InFlight.SamePhase.trans {e f g : InFlight} (first : e.SamePhase f) (second : f.SamePhase g) :
    e.SamePhase g :=
  ⟨second.pkt.trans first.pkt, second.qos2.trans first.qos2,
    second.awaitPubcomp.trans first.awaitPubcomp⟩

theorem InFlight.SamePhase.retransmit {e f : InFlight} (same : e.SamePhase f) (pid : UInt16) :
    f.retransmit pid = e.retransmit pid := by
  simp only [InFlight.retransmit, same.pkt, same.qos2, same.awaitPubcomp]

/-- A PUBREC would move the entry on. -/
def InFlight.awaitsPubrec (e : InFlight) : Bool := e.qos2 && !e.awaitPubcomp

namespace Client

/-- The window tracks the entry in the phase it was in. -/
def Tracks (c : Client) (pid : UInt16) (e : InFlight) : Prop :=
  ∃ f, c.inFlight.get? pid = some f ∧ e.SamePhase f

/-- What a change does under one packet id: an acknowledgement takes the entry away, a PUBREC moves
it on, a retransmission restarts its timer. -/
theorem entry_change (c : Client) (now : Instant) (ch : Change) (pid : UInt16) :
    (ch.apply now c).inFlight.get? pid = c.inFlight.get? pid ∨
      (ch = .acked pid ∧ (ch.apply now c).inFlight.get? pid = none) ∨
      (ch = .pubrec pid ∧ ∃ e, c.inFlight.get? pid = some e ∧ e.awaitsPubrec = true) ∨
      ∃ pkt scanned e, ch = .retry pid pkt scanned ∧ c.inFlight.get? pid = some e ∧
        (ch.apply now c).inFlight.get? pid =
          some { e with sentAt := scanned, retries := e.retries + 1 } := by
  have untouched : (ch.apply now c).inFlight = c.inFlight →
      (ch.apply now c).inFlight.get? pid = c.inFlight.get? pid := fun same => by rw [same]
  cases ch with
  | reply sent => exact .inl (untouched (inFlight_reply c sent))
  | connect p => exact .inl (untouched (inFlight_reply _ _))
  | buffer buf => exact .inl rfl
  | alive =>
    refine .inl (untouched ?_)
    simp only [Change.apply, refreshKeepalive]
    split <;> rfl
  | publishQos2 k =>
    obtain ⟨received, same, -⟩ := c.receiveQos2_spec k
    refine .inl (untouched ?_)
    rw [Change.apply, same]
    exact inFlight_reply _ _
  -- PUBACK and PUBCOMP free the entry of their own id only.
  | acked k =>
    rw [Change.apply, HashMap.get?_erase]
    split
    next own => exact .inr (.inl ⟨by rw [own], rfl⟩)
    next => exact .inl rfl
  -- PUBREC moves an entry on, and only one that waits for it.
  | pubrec k =>
    simp only [Change.apply, Client.pubrec]
    split
    next e there =>
      split
      next moves =>
        by_cases own : pid = k
        · subst own
          exact .inr (.inr (.inl ⟨rfl, e, there, moves⟩))
        · exact .inl (by rw [inFlight_reply, HashMap.get?_insert_ne _ _ own])
      next => exact .inl rfl
    next => exact .inl rfl
  | pubrel k => exact .inl (untouched (inFlight_reply _ _))
  | disconnect => exact .inl rfl
  -- A retry restarts the timer of its entry, provided its packet was queued.
  | retry k sent scanned =>
    have queued := inFlight_queueQos1 c sent
    simp only [Change.apply]
    split
    next d made =>
      rw [made] at queued
      simp only [restartTimer]
      split
      next e there =>
        rw [queued] at there
        by_cases own : pid = k
        · subst own
          exact .inr (.inr (.inr ⟨sent, scanned, e, rfl, there, HashMap.get?_insert_self _ _ _⟩))
        · exact .inl (by rw [HashMap.get?_insert_ne _ _ own, queued])
      next => exact .inl (by rw [queued])
    next d made =>
      rw [made] at queued
      exact .inl (by rw [queued])
  | write ws => exact .inl (untouched (inFlight_writeLoop ws c))
  | rearm interest => exact .inl rfl

/-- Only acknowledgements of its own id touch an entry. -/
theorem Tracks.change {c : Client} {pid : UInt16} {e : InFlight} (tracks : c.Tracks pid e)
    (now : Instant) {ch : Change} (unacked : ch ≠ .acked pid)
    (unreceived : ch = .pubrec pid → e.awaitsPubrec = false) : (ch.apply now c).Tracks pid e := by
  obtain ⟨f, found, same⟩ := tracks
  rcases c.entry_change now ch pid with stays | ⟨acked, -⟩ | ⟨received, g, there, moves⟩ |
    ⟨pkt, scanned, g, -, there, after⟩
  · exact ⟨f, stays.trans found, same⟩
  · exact absurd acked unacked
  · -- an entry that moves on is another one
    cases found.symm.trans there
    have settled := unreceived received
    rw [InFlight.awaitsPubrec, ← same.qos2, ← same.awaitPubcomp] at settled
    rw [InFlight.awaitsPubrec, settled] at moves
    cases moves
  · cases found.symm.trans there
    exact ⟨_, after, same.pkt, same.qos2, same.awaitPubcomp⟩

/-- A message that is delivered takes no entry's place. -/
theorem offer_spares {c d : Client} {now : Instant} {topic : Str} {payload : Bytes} {qos : UInt8}
    {retain : Bool} (done : c.offer now topic payload qos retain = .queued d) {pid : UInt16}
    {e : InFlight} (found : c.inFlight.get? pid = some e) : d.inFlight.get? pid = some e := by
  by_cases unreliable : qos = 0
  · subst unreliable
    rw [(offer_qos0_counts c d now topic payload retain done).2.1]
    exact found
  · obtain ⟨k, next, queue, -, free, -, rfl, -⟩ :=
      offer_reliable c d now topic payload qos retain unreliable done
    have other : pid ≠ k := by
      rintro rfl
      rw [found] at free
      cases free
    exact (HashMap.get?_insert_ne _ _ other).trans found

theorem Tracks.offer {c d : Client} {pid : UInt16} {e : InFlight} (tracks : c.Tracks pid e)
    {now : Instant} {topic : Str} {payload : Bytes} {qos : UInt8} {retain : Bool}
    (done : c.offer now topic payload qos retain = .queued d) : d.Tracks pid e := by
  obtain ⟨f, found, same⟩ := tracks
  exact ⟨f, offer_spares done found, same⟩

end Client

/-- The operation handles an acknowledgement that ends the phase of this entry. -/
def Op.Acknowledges (b : Broker) (t : Token) (pid : UInt16) (op : Op) : Prop :=
  ∃ p, op = .packet t p ∧ u16At p.body 0 = .ok pid ∧
    (p.ptype = PUBACK ∨ p.ptype = PUBCOMP ∨
      p.ptype = PUBREC ∧ ∃ c e, b.clients.get? t = some c ∧ c.inFlight.get? pid = some e ∧
        e.awaitsPubrec = true)

/-- Without its acknowledgement an entry stays as long as its connection does. -/
theorem Op.tracks {op : Op} {b b' : Broker} {out : Outcome} (healthy : b.Healthy)
    (done : op.run b = .ok (b', out)) {t : Token} (given : t < b.nextToken) {pid : UInt16}
    (unacked : ¬op.Acknowledges b t pid) {e : InFlight}
    (before : ∀ c, b.clients.get? t = some c → c.Tracks pid e) :
    ∀ d, b'.clients.get? t = some d → d.Tracks pid e := by
  intro d after
  -- A token that is gone stays gone, so the client was there before as well.
  obtain ⟨c₀, found⟩ : ∃ c, b.clients.get? t = some c := by
    refine Option.ne_none_iff_exists'.mp fun gone => ?_
    rw [op.absent healthy done given gone] at after
    cases after
  refine op.record_invariant healthy done given (fun c => c.Tracks pid e) ?_ ?_ before d after
  · intro now ch c permitted tracks
    refine tracks.change now (fun same => ?_) fun same => ?_
    · subst same
      obtain ⟨p, rfl, kind, parse⟩ := Op.permits_ofPacket rfl permitted
      exact unacked ⟨p, rfl, parse, kind.imp_right .inl⟩
    · subst same
      obtain ⟨p, rfl, kind, parse⟩ := Op.permits_ofPacket rfl permitted
      by_contra awaiting
      obtain ⟨f, there, same⟩ := before c₀ found
      refine unacked ⟨p, rfl, parse, .inr (.inr ⟨kind, c₀, f, found, there, ?_⟩)⟩
      rw [InFlight.awaitsPubrec, same.qos2, same.awaitPubcomp]
      exact Bool.eq_true_of_not_eq_false awaiting
  · intro s a c d topic payload qos retain _ _ queued tracks
    exact tracks.offer queued

/-! ### From the scan to the queue -/

namespace Loop

/-- Whatever is still to be sent again is what its entry of the window calls for. -/
structure Punctual (s : Loop) : Prop where
  genuine : s.Genuine
  numbered : s.broker.Numbered
  due : ∀ r ∈ s.pc.retries, r.1 < s.broker.nextToken ∧
    ∃ e, r.2.2 = e.retransmit r.2.1 ∧ ∀ c, s.broker.clients.get? r.1 = some c → c.Tracks r.2.1 e

/-- The step handles no acknowledgement for an entry that is about to be sent again. -/
def Prompt (s : Loop) (io : Io) : Prop :=
  ∀ r ∈ s.pc.retries, ¬(s.op io).Acknowledges s.broker r.1 r.2.1

theorem punctual_initial {s : Loop} (start : s.Initial) : s.Punctual := by
  refine ⟨genuine_initial start, Broker.numbered_startup start.startup, fun r listed => ?_⟩
  rw [start.pc] at listed
  cases listed

/-- The scan lists what it finds in the windows. -/
theorem due_of_scan {b : Broker} {retryAfter : Nat} {r : Token × UInt16 × Bytes}
    (listed : r ∈ (b.scan retryAfter).retry) :
    ∃ c e, b.clients.get? r.1 = some c ∧ c.inFlight.get? r.2.1 = some e ∧
      r.2.2 = e.retransmit r.2.1 := by
  obtain ⟨⟨t, c⟩, there, member⟩ := List.mem_flatMap.mp listed
  obtain ⟨⟨pid, e⟩, overdue, rfl⟩ := List.mem_map.mp member
  have inWindow := (List.mem_filter.mp (List.mem_filter.mp overdue).1).1
  exact ⟨c, e, (HashMap.mem_iter _ _ _).mp there, (HashMap.mem_iter _ _ _).mp inWindow, rfl⟩

theorem Punctual.step {s t : Loop} {io : Io} (punctual : s.Punctual) (prompt : s.Prompt io)
    (done : s.step io = .ok t) : t.Punctual := by
  have genuine := punctual.genuine.step done
  obtain ⟨b, out, ran, rfl⟩ := step_ok.mp done
  have healthy := punctual.genuine.healthy
  have numbered := punctual.numbered.op healthy ran
  refine ⟨genuine, numbered, fun r listed => ?_⟩
  rcases retries_pcAfter listed with old | ⟨idle, scanned⟩
  · obtain ⟨given, e, same, tracks⟩ := punctual.due r old
    exact ⟨Nat.lt_of_lt_of_le given ((s.op io).nextToken_le healthy ran), e, same,
      Op.tracks healthy ran given (prompt r old) tracks⟩
  · obtain ⟨c, e, found, inWindow, same⟩ := due_of_scan scanned
    refine ⟨numbered r.1 c found, e, same, fun d there => ?_⟩
    cases found.symm.trans there
    exact ⟨e, inWindow, rfl, rfl, rfl⟩

/-- The runs in which nothing is acknowledged between its scan and its retransmission. -/
abbrev PromptRun : Loop → List Io → Loop → Prop :=
  Machine.Path step fun s io => s.admits io = true ∧ s.Prompt io

end Loop

/-- The packet repeats the phase the entry with this id is in: the PUBLISH while that awaits
PUBACK or PUBREC, the PUBREL while it awaits PUBCOMP. -/
inductive Client.Repeats (c : Client) (pid : UInt16) (pkt : Bytes) : Prop
  | publish (e : InFlight) (f : Forward) (found : c.inFlight.get? pid = some e)
      (sent : e.pkt = f.encode) (id : f.pid = pid) (again : pkt = f.duplicate.encode)
      (awaiting : (e.qos2 && e.awaitPubcomp) = false)
  | pubrel (e : InFlight) (found : c.inFlight.get? pid = some e)
      (again : pkt = (Queued.pubrel pid).encode) (awaiting : (e.qos2 && e.awaitPubcomp) = true)

namespace Loop

theorem op_retry {s : Loop} {io : Io} {t : Token} {pid : UInt16} {pkt : Bytes} {scanned : Instant}
    (op : s.op io = .retry t pid pkt scanned) : (t, pid, pkt) ∈ s.pc.retries := by
  have grounds := s.op_grounds io
  rw [op] at grounds
  obtain ⟨todo, scan, here, -⟩ := grounds
  rw [here]
  exact List.mem_cons_self

/-- In such a run a packet marked DUP is queued only when the window calls for it. -/
theorem retransmission_due (s₀ : Loop) (ios : List Io) (s : Loop) (start : s₀.Initial)
    (path : PromptRun s₀ ios s) (io : Io) (s' : Loop) (done : s.step io = .ok s') (t : Token)
    (pkt : Bytes) (dup : isDup pkt = true) (queued : s.broker.copies t pkt < s'.broker.copies t pkt) :
    ∃ c pid, s.broker.clients.get? t = some c ∧ c.Repeats pid pkt := by
  have punctual : s.Punctual :=
    path.invariant Punctual (fun _ _ _ before ok done => before.step ok.2 done)
      (punctual_initial start)
  obtain ⟨b, out, ran, rfl⟩ := step_ok.mp done
  -- Only a retry step queues a marked packet, and what it queues was scanned before.
  obtain ⟨pid, scanned, op⟩ := Op.copies_grow punctual.genuine.healthy punctual.genuine.broker
    (op_sound punctual.genuine.pc io) ran dup queued
  obtain ⟨-, e, same, tracks⟩ := punctual.due _ (op_retry op)
  obtain ⟨c, found⟩ : ∃ c, s.broker.clients.get? t = some c := by
    refine Option.ne_none_iff_exists'.mp fun gone => Nat.lt_irrefl (s.broker.copies t pkt) ?_
    rw [op] at ran
    simp only [Op.run, Broker.retry, gone, Run.pure_eq, Except.ok.injEq, Prod.mk.injEq] at ran
    rw [← ran.1] at queued
    exact queued
  obtain ⟨f, inWindow, phase⟩ := tracks c found
  obtain ⟨forward, id, -, -, sent⟩ := (punctual.genuine.broker.clients t c found).window pid f inWindow
  refine ⟨c, pid, found, ?_⟩
  -- The entry is still in the phase it was scanned in, so the packet is still its own.
  have again : pkt = f.retransmit pid := same.trans (phase.retransmit pid).symm
  rw [retransmit_encode sent] at again
  by_cases awaiting : (f.qos2 && f.awaitPubcomp) = true
  · rw [if_pos awaiting] at again
    exact .pubrel f inWindow again awaiting
  · rw [if_neg awaiting] at again
    exact .publish f forward inWindow sent id again (Bool.eq_false_of_not_eq_true awaiting)

/-! ### Runs -/

/-- The operation is an acknowledgement. -/
def acks : Op → Bool
  | .packet _ p => p.ptype == PUBACK || p.ptype == PUBREC || p.ptype == PUBCOMP
  | _ => false

theorem prompt_of_not_acks {s : Loop} {io : Io} (silent : acks (s.op io) = false) : s.Prompt io := by
  rintro r - ⟨p, same, -, kind⟩
  rw [same] at silent
  rcases kind with kind | kind | ⟨kind, -⟩ <;> simp [acks, kind] at silent

/-- A client subscribes to `t` at QoS 2 and publishes to it; then more than ten seconds pass, and
the next round reads `chunk`. -/
def overdue (chunk : ReadResult) (rest : Nat) : List Io :=
  [Io.listen, .connection] ++ List.replicate 3 Io.quiet ++
    [Io.read (connectBytes 2 97 ++ [0x82, 6, 0, 1, 0, 1, 116, 2, 0x34, 5, 0, 1, 116, 0, 1])] ++
    List.replicate 12 Io.quiet ++ [Io.tick (secs 11) none] ++ List.replicate 3 Io.quiet ++
    [Io.go { Os.quiet with read := chunk }] ++ List.replicate rest Io.quiet

/-- The forward of the client's PUBLISH, marked DUP. -/
def forwardAgain : Bytes := [0x3c, 5, 0, 1, 116, 0, 1]

/-- The step that sends the PUBLISH again to a client that answers nothing. -/
theorem retransmission_due_silent : ∃ (s : Loop) (c : Client) (pid : UInt16),
    s.broker.clients.get? 1 = some c ∧ c.Repeats pid forwardAgain := by
  obtain ⟨s, done, checked⟩ := (Option.any_eq_true _ _).mp
    (show ((Machine.runChecked step (fun s io => s.admits io && !acks (s.op io)) fresh
      (overdue .wouldBlock 15)).any fun s => s.steps .quiet fun s' =>
        decide (s.broker.copies 1 forwardAgain < s'.broker.copies 1 forwardAgain)) = true
      by decide +kernel)
  have path : PromptRun fresh (overdue .wouldBlock 15) s :=
    (Machine.runChecked_path _ _ _ _ _ done).mono fun s io ok => by
      rw [Bool.and_eq_true, Bool.not_eq_true'] at ok
      exact ⟨ok.1, prompt_of_not_acks ok.2⟩
  obtain ⟨s', step, queued⟩ := steps_ok checked
  exact ⟨s, retransmission_due fresh _ s fresh_initial path .quiet s' step 1 forwardAgain (by decide)
    (of_decide_eq_true queued)⟩

/-- The PUBREC is read in the sweep: PUBREL is queued, and the PUBLISH behind it. -/
theorem retransmission_stale : ¬∀ s : Loop, s.Reachable → ∀ io s', s.admits io = true →
    s.step io = .ok s' → ∀ t pkt, isDup pkt = true → s.broker.copies t pkt < s'.broker.copies t pkt →
      ∃ c pid, s.broker.clients.get? t = some c ∧ c.Repeats pid pkt := by
  intro claim
  obtain ⟨s, done, checked⟩ := exists_after (overdue (.ok [0x50, 2, 0, 1]) 17) (fun s =>
    (s.broker.clients.get? 1).any (fun c => c.inFlight.iter.all fun e => e.2.qos2 && e.2.awaitPubcomp) &&
    s.steps .quiet fun s' =>
      decide (s.broker.copies 1 forwardAgain < s'.broker.copies 1 forwardAgain)) (by decide +kernel)
  rw [Bool.and_eq_true] at checked
  obtain ⟨awaiting, stepped⟩ := checked
  obtain ⟨s', step, queued⟩ := steps_ok stepped
  obtain ⟨c, pid, found, repeats⟩ := claim s (after_reachable done) .quiet s' s.admits_quiet
    step 1 forwardAgain (by decide) (of_decide_eq_true queued)
  rw [found, Option.any_some, List.all_eq_true] at awaiting
  -- The entry was PUBRECed after its scan, so the PUBLISH that is queued is stale by then.
  cases repeats with
  | publish e f inWindow _ _ _ released =>
    have pubcomp := awaiting (pid, e) ((HashMap.mem_iter _ _ _).mpr inWindow)
    rw [released] at pubcomp
    cases pubcomp
  | pubrel e _ again _ => cases again

end Loop

end MioBroker
