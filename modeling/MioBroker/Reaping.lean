import MioBroker.Errands
import MioBroker.Retry

/-!
# Who is disconnected at the end of a round

Keepalive and retries are looked at in the scan, before the sweep reads the sockets; the removals
come after it. A removal is justified when the reason it was decided on still holds.
-/
namespace MioBroker

open Rust

/-! ### The reasons -/

/-- The keepalive deadline is in the past. -/
def Client.Expired (c : Client) (now : Instant) : Prop :=
  ∃ d, c.keepaliveDeadline = some d ∧ d < now

/-- The entry with this id has used up its retries, and its retry interval is over. -/
def Client.Spent (c : Client) (now : Instant) (retryAfter : Nat) (pid : UInt16) : Prop :=
  ∃ e, c.inFlight.get? pid = some e ∧ QOS1_MAX_RETRIES ≤ e.retries ∧ retryAfter ≤ now - e.sentAt

namespace Client

theorem Expired.later {c d : Client} {now later : Instant} (expired : c.Expired now)
    (le : now ≤ later) (same : d.keepaliveDeadline = c.keepaliveDeadline) : d.Expired later := by
  obtain ⟨deadline, set, past⟩ := expired
  exact ⟨deadline, same.trans set, Nat.lt_of_lt_of_le past le⟩

theorem Spent.later {c : Client} {now later : Instant} {retryAfter : Nat} {pid : UInt16}
    (spent : c.Spent now retryAfter pid) (le : now ≤ later) : c.Spent later retryAfter pid := by
  obtain ⟨e, inWindow, used, elapsed⟩ := spent
  exact ⟨e, inWindow, used, Nat.le_trans elapsed (Nat.sub_le_sub_right le _)⟩

end Client

/-- What moves a keepalive deadline: data that is framed without error, and CONNECT. -/
def Op.Revives (b : Broker) (t : Token) : Op → Prop
  | .receive k (.ok chunk) => k = t ∧ chunk ≠ [] ∧ ∃ c, b.clients.get? t = some c ∧
      (c.readBuf ++ chunk).length ≤ READ_CAP ∧ (frame (c.readBuf ++ chunk)).bad = none
  | .packet k p => k = t ∧ p.ptype = CONNECT ∧ ∃ q, parseConnect p.body = .ok (some q)
  | _ => False

namespace Broker

/-- A read that brings no data is the end of it. -/
theorem receive_data {b b' : Broker} {t : Token} {r : ReadResult} {out : Outcome} {c : Client}
    (found : b.clients.get? t = some c) (done : b.receive t r = .ok (b', out)) :
    b'.clients.get? t = some c ∨ ∃ chunk, r = .ok chunk ∧ chunk ≠ [] ∧
      (READ_CAP < (c.readBuf ++ chunk).length ∧
          b'.clients.get? t = some { c with readBuf := c.readBuf ++ chunk } ∨
        (c.readBuf ++ chunk).length ≤ READ_CAP ∧
          ∃ out', beginBatch { b with
              clients := b.clients.insert t { c with readBuf := c.readBuf ++ chunk } } t =
            .ok (b', out')) := by
  obtain ⟨⟨d, data⟩, first, done⟩ := Run.bind_ok.mp done
  simp only [readChunk, found, Run.unwrap_some, Run.ok_bind] at first
  cases r with
  | wouldBlock =>
    cases first
    cases done
    exact .inl found
  | err =>
    cases first
    cases done
    exact .inl found
  | ok chunk =>
    cases chunk with
    | nil =>
      cases first
      cases done
      exact .inl found
    | cons x xs =>
      refine .inr ⟨x :: xs, rfl, by simp, ?_⟩
      -- A buffer above its cap is refused before it is framed.
      by_cases flooded : (c.readBuf ++ x :: xs).length > READ_CAP
      · simp only [if_pos flooded, Run.pure_eq] at first
        cases first
        cases done
        exact .inl ⟨flooded, HashMap.get?_insert_self _ _ _⟩
      · simp only [if_neg flooded, Run.pure_eq] at first
        cases first
        obtain ⟨⟨e, batch⟩, second, done⟩ := Run.bind_ok.mp done
        refine .inr ⟨Nat.not_lt.mp flooded, batch, ?_⟩
        cases batch <;>
        · cases done
          exact second

/-- Reads that do not revive the connection leave its deadline alone. -/
theorem receive_deadline {b b' : Broker} {t : Token} {r : ReadResult} {out : Outcome} {c : Client}
    (found : b.clients.get? t = some c) (silent : ¬(Op.receive t r).Revives b t)
    (done : b.receive t r = .ok (b', out)) {d : Client} (after : b'.clients.get? t = some d) :
    d.keepaliveDeadline = c.keepaliveDeadline := by
  rcases receive_data found done with same | ⟨chunk, rfl, data, ⟨-, same⟩ | ⟨room, _, begun⟩⟩
  · cases same.symm.trans after
    rfl
  · cases same.symm.trans after
    rfl
  · -- what is read within the cap is not framed
    have bad : (frame (c.readBuf ++ chunk)).bad ≠ none := fun framed =>
      silent ⟨rfl, data, c, found, room, framed⟩
    obtain ⟨n, bad⟩ := Option.ne_none_iff_exists'.mp bad
    simp only [beginBatch, HashMap.get?_insert_self, Run.unwrap_some, Run.ok_bind, bad] at begun
    split at begun
    · cases begun
      rw [HashMap.get?_insert_self] at after
      cases after
      rfl
    · cases begun
      rw [HashMap.get?_insert_self] at after
      cases after
      rfl

end Broker

/-! ### One operation -/

namespace Op

variable {op : Op} {b b' : Broker} {out : Outcome}

/-- A connection whose deadline is in the past and that is not revived stays expired. -/
theorem expired (healthy : b.Healthy) (done : op.run b = .ok (b', out)) {t : Token}
    (given : t < b.nextToken) (silent : ¬op.Revives b t)
    (before : ∀ c, b.clients.get? t = some c → c.Expired b.now) :
    ∀ d, b'.clients.get? t = some d → d.Expired b'.now := by
  intro d after
  obtain ⟨c, found⟩ : ∃ c, b.clients.get? t = some c := by
    refine Option.ne_none_iff_exists'.mp fun gone => ?_
    rw [op.absent healthy done given gone] at after
    cases after
  refine (before c found).later (op.now_le healthy done) ?_
  by_cases reads : ∃ r, op = .receive t r
  · obtain ⟨r, rfl⟩ := reads
    exact Broker.receive_deadline found silent done after
  · -- besides reads, CONNECT alone sets the deadline
    refine op.record_invariant healthy done given (fun e => e.keepaliveDeadline = c.keepaliveDeadline)
      ?_ ?_ (fun e there => by cases found.symm.trans there; rfl) d after
    · intro now ch e permitted same
      refine (ch.keepaliveDeadline now e (fun q connects => ?_) fun alive => ?_).trans same
      · subst connects
        obtain ⟨p, rfl, isConnect, parse⟩ := permits_connect permitted
        exact silent ⟨rfl, isConnect, q, parse⟩
      · subst alive
        rcases permits_change permitted with ⟨p, -, changes⟩ | ⟨r, rfl, -⟩ |
          ⟨ws, -, same | ⟨interest, same⟩⟩ | ⟨-, same⟩ | ⟨pid, pkt, scanned, -, same⟩
        · exact changes.elim
        · exact reads ⟨r, rfl⟩
        all_goals cases same
    · intro s a e f topic payload qos retain _ _ queued same
      rw [(Client.offered_of_offer e f s.now topic payload qos retain queued).frame]
      exact same

/-- An entry that is neither acknowledged nor sent again stays as it is, and out of retries if it
was. -/
theorem spent (healthy : b.Healthy) (done : op.run b = .ok (b', out)) {t : Token}
    (given : t < b.nextToken) {pid : UInt16} (unacked : ¬op.Acknowledges b t pid)
    (unsent : ∀ pkt scanned, op ≠ .retry t pid pkt scanned) {retryAfter : Nat} {c : Client}
    (found : b.clients.get? t = some c) (before : c.Spent b.now retryAfter pid) :
    ∀ d, b'.clients.get? t = some d → d.Spent b'.now retryAfter pid := by
  intro d after
  obtain ⟨e, inWindow, used, elapsed⟩ := before
  have kept : d.inFlight.get? pid = some e := by
    refine op.record_invariant healthy done given (fun f => f.inFlight.get? pid = some e)
      ?_ ?_ (fun f there => by cases found.symm.trans there; exact inWindow) d after
    · intro now ch f permitted same
      -- what a change can do to the entry: leave it, end it, move it on or send it again
      rcases f.entry_change now ch pid with stays | ⟨rfl, -⟩ | ⟨rfl, g, there, moves⟩ |
        ⟨pkt, scanned, -, rfl, -, -⟩
      · exact stays.trans same
      · obtain ⟨p, rfl, kind, parse⟩ := permits_ofPacket rfl permitted
        exact absurd ⟨p, rfl, parse, kind.imp_right .inl⟩ unacked
      · obtain ⟨p, rfl, kind, parse⟩ := permits_ofPacket rfl permitted
        cases same.symm.trans there
        exact absurd ⟨p, rfl, parse, .inr (.inr ⟨kind, c, e, found, inWindow, moves⟩)⟩ unacked
      · exact absurd (permits_retry permitted) (unsent pkt scanned)
    · intro s a f g topic payload qos retain _ _ queued same
      exact Client.offer_spares queued same
  exact Client.Spent.later ⟨e, kept, used, elapsed⟩ (op.now_le healthy done)

/-- A packet acknowledges one id. -/
theorem Acknowledges.unique {t k : Token} {pid other : UInt16} (first : op.Acknowledges b t pid)
    (second : op.Acknowledges b k other) : pid = other := by
  obtain ⟨p, rfl, parse, -⟩ := first
  obtain ⟨q, same, parse', -⟩ := second
  cases same
  exact Except.ok.inj (parse.symm.trans parse')

end Op

/-! ### From the scan to the removal -/

namespace Loop

/-- The entry speaks for giving the connection up, and is not about to be sent again. -/
def Exhausted (s : Loop) (t : Token) (c : Client) (pid : UInt16) : Prop :=
  c.Spent s.broker.now s.retryAfter pid ∧ ∀ pkt, (t, pid, pkt) ∉ s.pc.retries

/-- Of all connections still to be removed in this round, the reasons hold. -/
structure Evident (s : Loop) : Prop where
  healthy : s.broker.Healthy
  numbered : s.broker.Numbered
  expired : ∀ t ∈ dying.left s.pc, t < s.broker.nextToken ∧
    ∀ c, s.broker.clients.get? t = some c → c.Expired s.broker.now
  exhausted : ∀ g ∈ exhausting.left s.pc, g.1 < s.broker.nextToken ∧
    ∀ c, s.broker.clients.get? g.1 = some c → ∃ pid, s.Exhausted g.1 c pid

/-- The step takes no reason away: it does not revive a connection that is to be reaped, and when it
acknowledges a message of a connection that is to be given up, another entry still speaks for it. -/
structure Timely (s : Loop) (io : Io) : Prop where
  unrevived : ∀ t ∈ dying.left s.pc, ¬(s.op io).Revives s.broker t
  unsettled : ∀ g ∈ exhausting.left s.pc, ∀ c, s.broker.clients.get? g.1 = some c →
    ∀ pid, (s.op io).Acknowledges s.broker g.1 pid → ∃ other, other ≠ pid ∧ s.Exhausted g.1 c other

/-- A removal after the sweep has its reason at the moment it is made. -/
def Justified (s : Loop) (io : Io) : Prop :=
  ∀ t c, s.op io = .remove t → s.broker.clients.get? t = some c →
    match s.pc with
    | .reap _ _ => c.Expired s.broker.now
    | .giveUp _ => ∃ pid, c.Spent s.broker.now s.retryAfter pid
    | _ => True

theorem expired_of_scan {b : Broker} {retryAfter : Nat} {t : Token} (listed : t ∈ (b.scan retryAfter).dead)
    {c : Client} (found : b.clients.get? t = some c) : c.Expired b.now := by
  obtain ⟨⟨k, d⟩, member, rfl⟩ := List.mem_map.mp listed
  obtain ⟨inTable, late⟩ := List.mem_filter.mp member
  cases ((HashMap.mem_iter _ _ _).mp inTable).symm.trans found
  simp only at late
  split at late
  next deadline set => exact ⟨deadline, set, of_decide_eq_true late⟩
  next => cases late

/-- The scan gives up for an entry it does not send again. -/
theorem exhausted_of_scan {b : Broker} {retryAfter : Nat} {g : Token × UInt16}
    (listed : g ∈ (b.scan retryAfter).giveUp) {c : Client} (found : b.clients.get? g.1 = some c) :
    c.Spent b.now retryAfter g.2 ∧ ∀ pkt, (g.1, g.2, pkt) ∉ (b.scan retryAfter).retry := by
  obtain ⟨⟨t, d⟩, there, member⟩ := List.mem_flatMap.mp listed
  obtain ⟨⟨pid, e⟩, overdue, rfl⟩ := List.mem_map.mp member
  cases ((HashMap.mem_iter _ _ _).mp there).symm.trans found
  obtain ⟨waiting, used⟩ := List.mem_filter.mp overdue
  obtain ⟨inWindow, elapsed⟩ := List.mem_filter.mp waiting
  have entry := (HashMap.mem_iter _ _ _).mp inWindow
  refine ⟨⟨e, entry, of_decide_eq_true used, ?_⟩, fun pkt again => ?_⟩
  · simpa using elapsed
  · obtain ⟨⟨k, f⟩, present, member⟩ := List.mem_flatMap.mp again
    obtain ⟨⟨id, h⟩, left, same⟩ := List.mem_map.mp member
    cases same
    cases ((HashMap.mem_iter _ _ _).mp present).symm.trans found
    -- the scan sends again while retries are left, and gives up when none is
    obtain ⟨waiting, unused⟩ := List.mem_filter.mp left
    cases ((HashMap.mem_iter _ _ _).mp (List.mem_filter.mp waiting).1).symm.trans entry
    exact absurd (of_decide_eq_true used) (Nat.not_le.mpr (of_decide_eq_true unused))

theorem evident_initial {s : Loop} (start : s.Initial) : s.Evident := by
  refine ⟨start.startup.healthy, Broker.numbered_startup start.startup, ?_, ?_⟩
  · intro t listed
    rw [start.pc] at listed
    cases listed
  · intro g listed
    rw [start.pc] at listed
    cases listed

/-- A timely step leaves another reason where it takes one. -/
theorem Evident.reason {s : Loop} (evident : s.Evident) {io : Io} (timely : s.Timely io)
    {g : Token × UInt16} (listed : g ∈ exhausting.left s.pc) {c : Client}
    (found : s.broker.clients.get? g.1 = some c) :
    ∃ pid, s.Exhausted g.1 c pid ∧ ¬(s.op io).Acknowledges s.broker g.1 pid := by
  obtain ⟨pid, exhausted⟩ := (evident.exhausted g listed).2 c found
  by_cases acked : (s.op io).Acknowledges s.broker g.1 pid
  · obtain ⟨other, apart, exhausted⟩ := timely.unsettled g listed c found pid acked
    exact ⟨other, exhausted, fun too => apart (too.unique acked)⟩
  · exact ⟨pid, exhausted, acked⟩

theorem Evident.step {s s' : Loop} {io : Io} (evident : s.Evident) (timely : s.Timely io)
    (done : s.step io = .ok s') : s'.Evident := by
  obtain ⟨b, out, ran, rfl⟩ := step_ok.mp done
  have healthy := evident.healthy
  have numbered := evident.numbered.op healthy ran
  have given : ∀ t, t < s.broker.nextToken → t < b.nextToken := fun t before =>
    Nat.lt_of_lt_of_le before ((s.op io).nextToken_le healthy ran)
  refine ⟨healthy.op _ ran, numbered, ?_, ?_⟩
  · intro t listed
    rcases dying.left_pcAfter listed with old | ⟨-, scanned⟩
    · -- decided before: the step did not revive it
      obtain ⟨before, expired⟩ := evident.expired t old
      exact ⟨given t before, Op.expired healthy ran before (timely.unrevived t old) expired⟩
    · have dead : t ∈ (b.scan s.retryAfter).dead := scanned
      obtain ⟨⟨k, c⟩, member, rfl⟩ := List.mem_map.mp dead
      have there := (HashMap.mem_iter _ _ _).mp (List.mem_filter.mp member).1
      exact ⟨numbered k c there, fun c found => expired_of_scan dead found⟩
  · intro g listed
    rcases exhausting.left_pcAfter listed with old | ⟨scanning, scanned⟩
    · -- decided before: one of its entries is untouched by the step
      have before := (evident.exhausted g old).1
      refine ⟨given g.1 before, fun d after => ?_⟩
      obtain ⟨c, found⟩ : ∃ c, s.broker.clients.get? g.1 = some c := by
        refine Option.ne_none_iff_exists'.mp fun gone => ?_
        rw [(s.op io).absent healthy ran before gone] at after
        cases after
      obtain ⟨pid, ⟨spent, unsent⟩, unacked⟩ := evident.reason timely old found
      refine ⟨pid, Op.spent healthy ran before unacked ?_ found spent d after, fun pkt again => ?_⟩
      · exact fun pkt scanned op => unsent pkt (op_retry op)
      · rcases retries_pcAfter again with still | ⟨scanning, -⟩
        · exact unsent pkt still
        · -- before a scan nothing is left to be done
          rw [scanning] at old
          cases old
    · obtain ⟨⟨t, c⟩, there, member⟩ := List.mem_flatMap.mp scanned
      obtain ⟨e, -, rfl⟩ := List.mem_map.mp member
      refine ⟨numbered t c ((HashMap.mem_iter _ _ _).mp there), fun d after => ⟨e.1, ?_⟩⟩
      obtain ⟨spent, unsent⟩ := exhausted_of_scan scanned after
      refine ⟨spent, fun pkt again => ?_⟩
      rcases retries_pcAfter again with still | ⟨-, fresh⟩
      · rw [scanning] at still
        cases still
      · exact unsent pkt fresh

theorem Evident.justified {s : Loop} (evident : s.Evident) (io : Io) : s.Justified io := by
  intro t c removes found
  cases io with
  | tick dt fault => cases removes
  | go os =>
    split
    -- A reaped client was on the list of the expired, and an abandoned one of the spent.
    next todo scan here =>
      cases todo with
      | nil => simp [op, next, here] at removes
      | cons k todo =>
        simp only [op, next, here, Op.remove.injEq] at removes
        subst removes
        have listed : k ∈ dying.left s.pc := by
          rw [here]
          exact List.mem_cons_self
        exact (evident.expired k listed).2 c found
    next todo here =>
      cases todo with
      | nil => simp [op, next, here] at removes
      | cons g todo =>
        have listed : g ∈ exhausting.left s.pc := by
          rw [here]
          exact List.mem_cons_self
        simp only [op, next, here] at removes
        split at removes
        · cases removes
          obtain ⟨pid, spent, -⟩ := (evident.exhausted g listed).2 c found
          exact ⟨pid, spent⟩
        · cases removes
    next => trivial

/-- In every run whose steps are all timely, whoever is reaped at the end of a round has run out of
time, and whoever is given up still has an exhausted message. -/
theorem removals_justified (s₀ : Loop) (ios : List Io) (start : s₀.Initial)
    (timely : Throughout s₀ ios fun _ s io _ => s.Timely io) :
    Throughout s₀ ios fun _ s io _ => s.Justified io := by
  intro before io after s s' cut path admitted next
  have evident : s.Evident := by
    refine Machine.EachStep.always (evident_initial start) ?_ timely cut path
    exact fun _ _ _ _ _ evident _ next timely => evident.step timely next
  exact evident.justified io

/-! ### Runs -/

/-- The operation reads nothing and handles no packet. -/
def hushed : Op → Bool
  | .receive _ (.ok _) => false
  | .packet _ _ => false
  | _ => true

/-- A check of `Timely`: nothing is read while somebody is to be removed. -/
def timely (s : Loop) (io : Io) : Bool :=
  hushed (s.op io) || (dying.left s.pc).isEmpty && (exhausting.left s.pc).isEmpty

theorem timely_sound {s : Loop} {io : Io} (checked : s.timely io = true) : s.Timely io := by
  rcases (Bool.or_eq_true _ _).mp checked with quiet | nobody
  · constructor
    · -- without a read and without a packet nothing is revived or settled
      rintro t - revives
      cases same : s.op io with
      | receive k r =>
        cases r with
        | ok chunk => simp [same, hushed] at quiet
        | _ => simp [same, Op.Revives] at revives
      | packet k p => simp [same, hushed] at quiet
      | _ => simp [same, Op.Revives] at revives
    · rintro g - c - pid ⟨p, same, -⟩
      simp [same, hushed] at quiet
  · obtain ⟨noReap, noGiveUp⟩ := (Bool.and_eq_true _ _).mp nobody
    rw [List.isEmpty_iff] at noReap noGiveUp
    exact ⟨by simp [noReap], by simp [noGiveUp]⟩

/-- A client with a keepalive of one second connects, more than that passes, and the next sweep
reads `chunk`. -/
def lapsed (chunk : ReadResult) (rest : Nat) : List Io :=
  [Io.listen, .connection] ++ List.replicate 3 Io.quiet ++
    [Io.read [0x10, 13, 0, 4, 77, 81, 84, 84, 4, 2, 0, 1, 0, 1, 97]] ++ List.replicate 10 Io.quiet ++
    [Io.tick (secs 2) none] ++ List.replicate 3 Io.quiet ++ [Io.go { Os.quiet with read := chunk }] ++
    List.replicate rest Io.quiet

/-- A silent client is reaped, and rightly. -/
theorem removals_justified_silent : ∃ s c, AdmittedRun fresh (lapsed .wouldBlock 4) s ∧
    s.op .quiet = .remove 1 ∧ s.broker.clients.get? 1 = some c ∧ c.Expired s.broker.now := by
  obtain ⟨s', done, -⟩ := (Option.any_eq_true _ _).mp
    (show ((Machine.runChecked step (fun s io => s.admits io && s.timely io) fresh
      (lapsed .wouldBlock 4 ++ [.quiet])).any fun _ => true) = true by decide +kernel)
  have path := (Machine.runChecked_path _ _ _ _ _ done).mono
    (fun s io ok => (Bool.and_eq_true _ _).mp ok)
  have each := removals_justified fresh _ fresh_initial fun before io after t u cut run admitted next =>
    timely_sound (Machine.EachStep.of_path path before io after t u cut run admitted next).2
  -- The step at hand is the last one of the checked run.
  obtain ⟨s, before, rest⟩ := path.split
  obtain ⟨u, ok, next, -⟩ := rest.uncons
  have reached : AdmittedRun fresh (lapsed .wouldBlock 4) s := before.mono fun _ _ ok => ok.1
  have justified := each _ .quiet [] s u rfl reached ok.1 next
  obtain ⟨v, done, checked⟩ := exists_after (lapsed .wouldBlock 4) (fun s =>
    s.broker.clients.contains 1 && match s.pc, s.op .quiet with
      | .reap _ _, .remove t => t == 1
      | _, _ => false) (by decide +kernel)
  cases (after_path done).unique reached
  obtain ⟨there, removing⟩ := (Bool.and_eq_true _ _).mp checked
  obtain ⟨c, found⟩ := (HashMap.contains_iff _ _).mp there
  split at removing
  next todo scan t here removes =>
    cases beq_iff_eq.mp removing
    have expired := justified 1 c removes found
    rw [here] at expired
    exact ⟨s, c, reached, removes, found, expired⟩
  next => cases removing

/-- The removal that comes next has no reason. -/
def groundless (s : Loop) : Bool :=
  match s.op .quiet, s.step .quiet with
  | .remove t, .ok _ => (s.broker.clients.get? t).any fun c =>
    match s.pc with
    | .reap _ _ => c.keepaliveDeadline.all fun d => decide (s.broker.now ≤ d)
    | .giveUp _ => c.inFlight.iter.all fun e => decide (e.2.retries < QOS1_MAX_RETRIES)
    | _ => false
  | _, _ => false

theorem groundless_after {ios : List Io} (checked : (after ios).any groundless = true) :
    ¬Throughout fresh (ios ++ [.quiet]) fun _ s io _ => s.Justified io := by
  intro each
  obtain ⟨s, done, unfounded⟩ := (Option.any_eq_true _ _).mp checked
  simp only [groundless] at unfounded
  split at unfounded
  next t s' removes next =>
    obtain ⟨c, found, unfounded⟩ := (Option.any_eq_true _ _).mp unfounded
    -- The check found a removal without grounds at this very step.
    have justified := each ios .quiet [] s s' rfl (after_path done) s.admits_quiet next t c removes found
    split at unfounded
    next here =>
      rw [here] at justified
      obtain ⟨d, set, past⟩ := justified
      rw [set, Option.all_some] at unfounded
      exact absurd past (Nat.not_lt.mpr (of_decide_eq_true unfounded))
    next here =>
      rw [here] at justified
      obtain ⟨pid, e, inWindow, used, -⟩ := justified
      rw [List.all_eq_true] at unfounded
      have fresh := unfounded (pid, e) ((HashMap.mem_iter _ _ _).mpr inWindow)
      exact absurd used (Nat.not_le.mpr (of_decide_eq_true fresh))
    next => cases unfounded
  next => cases unfounded

/-- A client that subscribes and publishes at QoS 1 acknowledges nothing through all retries, and
is then heard with `chunk`. -/
def forsaken (chunk : ReadResult) (rest : Nat) : List Io :=
  [Io.listen, .connection] ++ List.replicate 3 Io.quiet ++
    [Io.read (connectBytes 2 97 ++ [0x82, 6, 0, 1, 0, 1, 116, 1, 0x32, 5, 0, 1, 116, 0, 1])] ++
    List.replicate 12 Io.quiet ++ [Io.tick (secs 11) none] ++ List.replicate 23 Io.quiet ++
    [Io.tick (secs 11) none] ++ List.replicate 25 Io.quiet ++ [Io.tick (secs 11) none] ++
    List.replicate 25 Io.quiet ++ [Io.tick (secs 11) none] ++ List.replicate 4 Io.quiet ++
    [Io.go { Os.quiet with read := chunk }] ++ List.replicate rest Io.quiet

/-- A PINGREQ or the overdue PUBACK that the sweep reads comes too late. -/
theorem removals_stale :
    (¬Throughout fresh (lapsed (.ok [0xC0, 0]) 6 ++ [.quiet]) fun _ s io _ => s.Justified io) ∧
    ¬Throughout fresh (forsaken (.ok [0x40, 2, 0, 1]) 18 ++ [.quiet]) fun _ s io _ => s.Justified io :=
  ⟨groundless_after (by decide +kernel), groundless_after (by decide +kernel)⟩

end Loop

end MioBroker
