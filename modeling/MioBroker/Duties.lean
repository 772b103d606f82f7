import MioBroker.Output
import MioBroker.Reaping

/-!
# What a round owes

What the scan finds is done before the round ends, and every connection is read once. A duty is
one of these tasks; it is met by an operation, or its connection is gone.
-/
namespace MioBroker

open Rust

/-- A program point that the loop comes to. -/
def Pc.Formed : Pc → Prop
  | .packets t _ _ next failed =>
    (∃ writable todo, next = .writable t writable todo ∧ failed = .close t (.events todo)) ∨
      ∃ todo scan, next = .sweep todo scan ∧ failed = .close t (.sweep todo scan)
  | .close _ next => (∃ todo, next = .events todo) ∨ (∃ todo scan, next = .sweep todo scan) ∨
      ∃ todo scan, next = .retry todo scan
  | _ => True

namespace Loop

theorem formed_afterReceive {t : Token} {next failed : Pc} {out : Outcome} (failure : failed.Formed)
    (forks : (Pc.packets t [] 0 next failed).Formed) : (afterReceive t next failed out).Formed := by
  cases out with
  | ok pkts => exact forks
  | error _ => exact failure

theorem formed_pcAfter {s : Loop} (formed : s.pc.Formed) (io : Io) (b : Broker) (out : Outcome) :
    (s.pcAfter io b out).Formed := by
  cases io with
  | tick dt fault => exact formed
  | go os =>
    simp only [pcAfter]
    cases here : s.pc with
    | events todo =>
      cases todo with
      | nil => simp only [next, here, Pc.Formed]
      | cons e todo =>
        cases e with
        | listener =>
          simp only [next, here]
          cases os.accept <;> trivial
        | client t readable writable =>
          cases readable with
          | false => simp [next, here, Pc.Formed]
          | true =>
            simp only [next, here, if_true]
            exact formed_afterReceive (.inl ⟨todo, rfl⟩) (.inl ⟨writable, todo, rfl, rfl⟩)
    | packets t todo n next' failed =>
      rw [here] at formed
      cases todo with
      | nil =>
        simp only [next, here]
        rcases formed with ⟨writable, todo, rfl, -⟩ | ⟨todo, scan, rfl, -⟩ <;> trivial
      | cons p todo =>
        simp only [next, here]
        cases out with
        | ok _ => exact formed
        | error _ =>
          rcases formed with ⟨writable, todo, -, rfl⟩ | ⟨todo, scan, -, rfl⟩
          · exact .inl ⟨todo, rfl⟩
          · exact .inr (.inl ⟨todo, scan, rfl⟩)
    | close t next' =>
      rw [here] at formed
      simp only [next, here]
      rcases formed with ⟨todo, rfl⟩ | ⟨todo, scan, rfl⟩ | ⟨todo, scan, rfl⟩ <;> trivial
    | sweep todo scan =>
      cases todo with
      | nil => simp only [next, here, Pc.Formed]
      | cons t todo =>
        simp only [next, here]
        split
        · exact formed_afterReceive (.inr (.inl ⟨todo, scan, rfl⟩)) (.inr ⟨todo, scan, rfl, rfl⟩)
        · trivial
    | sysTopics scan =>
      simp only [next, here]
      split <;> trivial
    | retry todo scan =>
      cases todo with
      | nil => simp only [next, here, Pc.Formed]
      | cons e todo =>
        simp only [next, here]
        cases out with
        | ok _ => trivial
        | error _ => exact .inr (.inr ⟨todo, scan, rfl⟩)
    | flushPending todo scan => cases todo <;> simp only [next, here, Pc.Formed]
    | flushForwards todo scan => cases todo <;> simp only [next, here, Pc.Formed]
    | sysPublish todo scan => cases todo <;> simp only [next, here, Pc.Formed]
    | reap todo scan => cases todo <;> simp only [next, here, Pc.Formed]
    | giveUp todo => cases todo <;> simp only [next, here, Pc.Formed]
    | _ => simp only [next, here, Pc.Formed]

theorem Reachable.formed {s : Loop} (reached : s.Reachable) : s.pc.Formed := by
  refine Machine.Reaches.invariant (fun s => s.pc.Formed) ?_ ?_ reached
  · intro s start
    rw [start.pc]
    trivial
  · intro s io t formed _ done
    obtain ⟨b, out, -, rfl⟩ := step_ok.mp done
    exact formed_pcAfter formed io b out

end Loop

theorem Broker.removeClient_erases {b b' : Broker} {t : Token} (done : b.removeClient t = .ok b') :
    b'.clients.get? t = none := by
  obtain ⟨d, e, -, -, rfl⟩ := removeClient_parts done
  obtain ⟨_, _, _, saved⟩ := (e.dropClient t).save_frame
  obtain ⟨_, _, dropped⟩ := e.dropClient_frame t
  rw [saved, dropped]
  exact HashMap.get?_erase_self _ _

/-- Who is gone stays away. -/
theorem Loop.gone_run {s u : Loop} {ios : List Io} {t : Token} (healthy : s.broker.Healthy)
    (run : s.AdmittedRun ios u) (given : t < s.broker.nextToken) (gone : s.broker.clients.get? t = none) :
    u.broker.clients.get? t = none := by
  refine (run.invariant (fun s => s.broker.Healthy ∧ t < s.broker.nextToken ∧
    s.broker.clients.get? t = none) ?_ ⟨healthy, given, gone⟩).2.2
  rintro s io s' ⟨healthy, given, gone⟩ - done
  obtain ⟨b, out, ran, rfl⟩ := step_ok.mp done
  exact ⟨healthy.op _ ran, Nat.lt_of_lt_of_le given (Op.nextToken_le healthy ran),
    Op.absent healthy ran given gone⟩

/-- One kind of duty: which connection it is about, what meets it, and what is due in each part of a
round. Where a list is worked off, an entry is met or still due. -/
structure Duty (α : Type) where
  token : α → Token
  Met : Op → α → Prop
  flushPending : List Token → Scan → α → Prop
  sweep : List Token → Scan → α → Prop
  unreaped : Scan → α → Prop
  reap : List Token → Scan → α → Prop
  retry : List (Token × UInt16 × Bytes) → Scan → α → Prop
  giveUp : List (Token × UInt16) → α → Prop
  flushed : ∀ t todo scan x, flushPending (t :: todo) scan x →
    (token x = t ∧ ∀ ws, Met (.flush t ws) x) ∨ flushPending todo scan x
  toSweep : ∀ todo scan x, flushPending [] scan x → token x ∈ todo → sweep todo scan x
  swept : ∀ t todo scan x, sweep (t :: todo) scan x →
    (token x = t ∧ ∀ r, Met (.receive t r) x) ∨ sweep todo scan x
  toSys : ∀ scan x, sweep [] scan x → unreaped scan x
  toReap : ∀ scan x, unreaped scan x → reap scan.dead scan x
  reaped : ∀ t todo scan x, reap (t :: todo) scan x → Met (.remove t) x ∨ reap todo scan x
  toRetry : ∀ scan x, reap [] scan x → retry scan.retry scan x
  retried : ∀ t pid pkt todo scan x, retry ((t, pid, pkt) :: todo) scan x →
    (∀ now, Met (.retry t pid pkt now) x) ∨ retry todo scan x
  toGiveUp : ∀ scan x, retry [] scan x → giveUp scan.giveUp x
  givenUp : ∀ t pid todo x, giveUp ((t, pid) :: todo) x → (token x = t ∧ Met (.remove t) x) ∨ giveUp todo x
  ended : ∀ x, ¬giveUp [] x

namespace Duty

variable {α : Type} (duty : Duty α) {x : α}

/-- What is due at a program point. -/
def due : Pc → α → Prop
  | .packets _ _ _ next _ => due next
  | .close _ next => due next
  | .flushPending todo scan => duty.flushPending todo scan
  | .sweep todo scan => duty.sweep todo scan
  | .flushForwards _ scan => duty.unreaped scan
  | .sysTopics scan => duty.unreaped scan
  | .sysPublish _ scan => duty.unreaped scan
  | .reap todo scan => duty.reap todo scan
  | .retry todo scan => duty.retry todo scan
  | .giveUp todo => duty.giveUp todo
  | _ => fun _ => False

/-- A step meets the duty, or finds the connection gone, or leaves the duty due. -/
theorem step {s s' : Loop} {io : Io} (formed : s.pc.Formed) (done : s.step io = .ok s')
    (due : duty.due s.pc x) : duty.Met (s.op io) x ∨ s.broker.clients.get? (duty.token x) = none ∨
      duty.due s'.pc x := by
  obtain ⟨b, out, ran, rfl⟩ := Loop.step_ok.mp done
  cases io with
  | tick dt fault => exact .inr (.inr due)
  | go os =>
    simp only [Loop.op, Loop.pcAfter] at ran ⊢
    -- A connection that is not looked up is not there.
    have gone : ∀ {t : Token}, duty.token x = t → ¬s.broker.clients.contains t = true →
        s.broker.clients.get? (duty.token x) = none := by
      intro t same absent
      rw [same, Option.eq_none_iff_forall_ne_some]
      exact fun c found => absent ((HashMap.contains_iff _ _).mpr ⟨c, found⟩)
    cases here : s.pc with
    | packets t todo n next failed =>
      rw [here] at due formed
      cases todo with
      | nil =>
        simp only [Loop.next, here]
        exact .inr (.inr due)
      | cons p todo =>
        simp only [Loop.next, here]
        refine .inr (.inr ?_)
        cases out with
        | ok _ => exact due
        | error _ =>
          rcases formed with ⟨writable, todo, rfl, -⟩ | ⟨todo, scan, rfl, rfl⟩
          · cases due
          · exact due
    | close t next =>
      rw [here] at due
      simp only [Loop.next, here]
      exact .inr (.inr due)
    | flushPending todo scan =>
      rw [here] at due
      cases todo with
      | nil =>
        simp only [Loop.next, here] at ran ⊢
        cases ran
        by_cases there : duty.token x ∈ s.broker.clients.keys
        · exact .inr (.inr (duty.toSweep _ scan x due there))
        · refine .inr (.inl (Option.eq_none_iff_forall_ne_some.mpr fun c found => there ?_))
          exact (HashMap.mem_keys _ _).mpr ⟨c, found⟩
      | cons t todo =>
        simp only [Loop.next, here]
        rcases duty.flushed t todo scan x due with ⟨same, met⟩ | due
        · split
          · exact .inl (met _)
          next absent => exact .inr (.inl (gone same absent))
        · exact .inr (.inr due)
    | sweep todo scan =>
      rw [here] at due
      cases todo with
      | nil =>
        simp only [Loop.next, here]
        exact .inr (.inr (duty.toSys scan x due))
      | cons t todo =>
        simp only [Loop.next, here]
        rcases duty.swept t todo scan x due with ⟨same, met⟩ | due
        · split
          · exact .inl (met _)
          next absent => exact .inr (.inl (gone same absent))
        · refine .inr (.inr ?_)
          split
          · cases out <;> exact due
          · exact due
    | flushForwards todo scan =>
      rw [here] at due
      cases todo <;> simp only [Loop.next, here] <;> exact .inr (.inr due)
    | sysTopics scan =>
      rw [here] at due
      simp only [Loop.next, here]
      refine .inr (.inr ?_)
      split
      · exact due
      · exact duty.toReap scan x due
    | sysPublish todo scan =>
      rw [here] at due
      cases todo with
      | nil =>
        simp only [Loop.next, here]
        exact .inr (.inr (duty.toReap scan x due))
      | cons e todo =>
        simp only [Loop.next, here]
        exact .inr (.inr due)
    | reap todo scan =>
      rw [here] at due
      cases todo with
      | nil =>
        simp only [Loop.next, here]
        exact .inr (.inr (duty.toRetry scan x due))
      | cons t todo =>
        simp only [Loop.next, here]
        exact (duty.reaped t todo scan x due).imp_right .inr
    | retry todo scan =>
      rw [here] at due
      cases todo with
      | nil =>
        simp only [Loop.next, here]
        exact .inr (.inr (duty.toGiveUp scan x due))
      | cons e todo =>
        obtain ⟨t, pid, pkt⟩ := e
        simp only [Loop.next, here]
        rcases duty.retried t pid pkt todo scan x due with met | due
        · exact .inl (met scan.now)
        · refine .inr (.inr ?_)
          cases out <;> exact due
    | giveUp todo =>
      rw [here] at due
      cases todo with
      | nil => exact absurd due (duty.ended x)
      | cons g todo =>
        obtain ⟨t, pid⟩ := g
        simp only [Loop.next, here]
        rcases duty.givenUp t pid todo x due with ⟨same, met⟩ | due
        · split
          · exact .inl met
          next absent => exact .inr (.inl (gone same absent))
        · exact .inr (.inr due)
    | _ =>
      rw [here] at due
      cases due

/-- Until the round is over the duty is met, or its connection is gone for good. -/
theorem run {s u : Loop} {ios : List Io} (reached : s.Reachable) (run : s.AdmittedRun ios u)
    (given : duty.token x < s.broker.nextToken) (due : duty.due s.pc x) :
    duty.token x < u.broker.nextToken ∧ ((∃ before io after v w, ios = before ++ io :: after ∧
      s.AdmittedRun before v ∧ duty.token x < v.broker.nextToken ∧ v.step io = .ok w ∧
      duty.Met (v.op io) x ∧ w.AdmittedRun after u) ∨
      u.broker.clients.get? (duty.token x) = none ∨ duty.due u.pc x) := by
  induction run with
  | nil => exact ⟨given, .inr (.inr due)⟩
  | @snoc ios v w io path admitted done ih =>
    obtain ⟨given, ih⟩ := ih
    have before : v.Reachable := Machine.Reaches.path reached path
    obtain ⟨b, out, ran, same⟩ := Loop.step_ok.mp done
    have later : duty.token x < w.broker.nextToken := by
      rw [same]
      exact Nat.lt_of_lt_of_le given ((v.op io).nextToken_le before.healthy ran)
    have absent : v.broker.clients.get? (duty.token x) = none →
        w.broker.clients.get? (duty.token x) = none := by
      intro gone
      rw [same]
      exact (v.op io).absent before.healthy ran given gone
    refine ⟨later, ?_⟩
    rcases ih with ⟨pre, jo, post, y, z, rfl, first, early, next, met, last⟩ | gone | due
    · exact .inl ⟨pre, jo, post ++ [io], y, z, by simp, first, early, next, met, .snoc io last admitted done⟩
    · exact .inr (.inl (absent gone))
    · rcases duty.step before.formed done due with met | gone | due
      · exact .inl ⟨ios, io, [], v, w, rfl, path, given, done, met, .nil⟩
      · exact .inr (.inl (absent gone))
      · exact .inr (.inr due)

/-- By the end of the round the duty is met, or its connection is gone. -/
theorem met_or_gone {s u : Loop} {ios : List Io} (reached : s.Reachable) (run : s.AdmittedRun ios u)
    (ended : u.pc = .poll) (given : duty.token x < s.broker.nextToken) (due : duty.due s.pc x) :
    (∃ op ∈ s.trace ios, duty.Met op x) ∨ u.broker.clients.get? (duty.token x) = none := by
  rcases (duty.run reached run given due).2 with
    ⟨before, io, after, v, w, rfl, first, -, next, met, -⟩ | gone | still
  · refine .inl ⟨v.op io, ?_, met⟩
    rw [Loop.trace_append first, Loop.trace]
    exact List.mem_append_right _ List.mem_cons_self
  · exact .inr gone
  · rw [ended] at still
    cases still

/-- A duty that is met by a removal takes its connection away. -/
theorem removed {s u : Loop} {ios : List Io} (reached : s.Reachable) (run : s.AdmittedRun ios u)
    (ended : u.pc = .poll) (given : duty.token x < s.broker.nextToken) (due : duty.due s.pc x)
    (removal : ∀ op, duty.Met op x → op = .remove (duty.token x)) :
    u.broker.clients.get? (duty.token x) = none := by
  rcases (duty.run reached run given due).2 with
    ⟨before, io, after, v, w, rfl, first, early, next, met, last⟩ | gone | still
  · have healthy : v.broker.Healthy := Loop.Reachable.healthy (Machine.Reaches.path reached first)
    obtain ⟨b, out, ran, rfl⟩ := Loop.step_ok.mp next
    have gone : b.clients.get? (duty.token x) = none := by
      rw [removal _ met] at ran
      obtain ⟨b', done, same⟩ := Run.bind_ok.mp ran
      cases same
      exact Broker.removeClient_erases done
    exact Loop.gone_run (healthy.op _ ran) last
      (Nat.lt_of_lt_of_le early ((v.op io).nextToken_le healthy ran)) gone
  · exact gone
  · rw [ended] at still
    cases still

end Duty

/-- Every connection is read. -/
def reading : Duty Token where
  token t := t
  Met op t := ∃ r, op = .receive t r
  flushPending _ _ _ := True
  sweep todo _ t := t ∈ todo
  unreaped _ _ := False
  reap _ _ _ := False
  retry _ _ _ := False
  giveUp _ _ := False
  flushed _ _ _ _ _ := .inr trivial
  toSweep _ _ _ _ there := there
  swept t todo _ x listed := by
    rcases List.mem_cons.mp listed with rfl | listed
    · exact .inl ⟨rfl, fun r => ⟨r, rfl⟩⟩
    · exact .inr listed
  toSys _ _ listed := by cases listed
  toReap _ _ := id
  reaped _ _ _ _ := .inr
  toRetry _ _ := id
  retried _ _ _ _ _ _ := .inr
  toGiveUp _ _ := id
  givenUp _ _ _ _ := .inr
  ended _ := id

/-- What was queued before the sweep is written. -/
def flushing : Duty Token where
  token t := t
  Met op t := ∃ ws, op = .flush t ws
  flushPending todo _ t := t ∈ todo
  sweep _ _ _ := False
  unreaped _ _ := False
  reap _ _ _ := False
  retry _ _ _ := False
  giveUp _ _ := False
  flushed t todo _ x listed := by
    rcases List.mem_cons.mp listed with rfl | listed
    · exact .inl ⟨rfl, fun ws => ⟨ws, rfl⟩⟩
    · exact .inr listed
  toSweep _ _ _ listed := by cases listed
  swept _ _ _ _ := .inr
  toSys _ _ := id
  toReap _ _ := id
  reaped _ _ _ _ := .inr
  toRetry _ _ := id
  retried _ _ _ _ _ _ := .inr
  toGiveUp _ _ := id
  givenUp _ _ _ _ := .inr
  ended _ := id

/-- Whoever is past the keepalive deadline is removed. -/
def reaping : Duty Token where
  token t := t
  Met op t := op = .remove t
  flushPending _ scan t := t ∈ scan.dead
  sweep _ scan t := t ∈ scan.dead
  unreaped scan t := t ∈ scan.dead
  reap todo _ t := t ∈ todo
  retry _ _ _ := False
  giveUp _ _ := False
  flushed _ _ _ _ := .inr
  toSweep _ _ _ listed _ := listed
  swept _ _ _ _ := .inr
  toSys _ _ := id
  toReap _ _ := id
  reaped t todo _ x listed := by
    rcases List.mem_cons.mp listed with rfl | listed
    · exact .inl rfl
    · exact .inr listed
  toRetry _ _ listed := by cases listed
  retried _ _ _ _ _ _ := .inr
  toGiveUp _ _ := id
  givenUp _ _ _ _ := .inr
  ended _ := id

/-- Whatever is overdue is sent again. -/
def repeating : Duty (Token × UInt16 × Bytes) where
  token x := x.1
  Met op x := ∃ now, op = .retry x.1 x.2.1 x.2.2 now
  flushPending _ scan x := x ∈ scan.retry
  sweep _ scan x := x ∈ scan.retry
  unreaped scan x := x ∈ scan.retry
  reap _ scan x := x ∈ scan.retry
  retry todo _ x := x ∈ todo
  giveUp _ _ := False
  flushed _ _ _ _ := .inr
  toSweep _ _ _ listed _ := listed
  swept _ _ _ _ := .inr
  toSys _ _ := id
  toReap _ _ := id
  reaped _ _ _ _ := .inr
  toRetry _ _ := id
  retried t pid pkt todo _ x listed := by
    rcases List.mem_cons.mp listed with rfl | listed
    · exact .inl fun now => ⟨now, rfl⟩
    · exact .inr listed
  toGiveUp _ _ listed := by cases listed
  givenUp _ _ _ _ := .inr
  ended _ := id

/-- Whoever has a message without retries left is removed. -/
def abandoning : Duty (Token × UInt16) where
  token x := x.1
  Met op x := op = .remove x.1
  flushPending _ scan x := x ∈ scan.giveUp
  sweep _ scan x := x ∈ scan.giveUp
  unreaped scan x := x ∈ scan.giveUp
  reap _ scan x := x ∈ scan.giveUp
  retry _ scan x := x ∈ scan.giveUp
  giveUp todo x := x ∈ todo
  flushed _ _ _ _ := .inr
  toSweep _ _ _ listed _ := listed
  swept _ _ _ _ := .inr
  toSys _ _ := id
  toReap _ _ := id
  reaped _ _ _ _ := .inr
  toRetry _ _ := id
  retried _ _ _ _ _ _ := .inr
  toGiveUp _ _ := id
  givenUp t pid todo x listed := by
    rcases List.mem_cons.mp listed with rfl | listed
    · exact .inl ⟨rfl, rfl⟩
    · exact .inr listed
  ended _ listed := by cases listed

namespace Loop

variable {u : Loop}

/-- The scan over all connections has just been made. -/
def Scanned (s : Loop) : Prop :=
  s.pc = .flushPending (s.broker.scan s.retryAfter).pending (s.broker.scan s.retryAfter)

section Round

variable {s : Loop} {ios : List Io} {t : Token} {c : Client} (reached : s.Reachable) (scanned : s.Scanned)
  (run : s.AdmittedRun ios u) (ended : u.pc = .poll) (found : s.broker.clients.get? t = some c)

include reached scanned run ended found

theorem connection_read (stays : u.broker.clients.get? t ≠ none) : ∃ r, .receive t r ∈ s.trace ios := by
  have due : reading.due s.pc t := by
    rw [scanned]
    trivial
  rcases reading.met_or_gone reached run ended (reached.numbered t c found) due with ⟨op, member, r, rfl⟩ | gone
  · exact ⟨r, member⟩
  · exact absurd gone stays

theorem connection_flushed (queued : c.writeQueue ≠ []) (stays : u.broker.clients.get? t ≠ none) :
    ∃ ws, .flush t ws ∈ s.trace ios := by
  have due : flushing.due s.pc t := by
    rw [scanned]
    refine List.mem_map.mpr ⟨(t, c), List.mem_filter.mpr ⟨(HashMap.mem_iter _ _ _).mpr found, ?_⟩, rfl⟩
    simpa using queued
  rcases flushing.met_or_gone reached run ended (reached.numbered t c found) due with ⟨op, member, ws, rfl⟩ | gone
  · exact ⟨ws, member⟩
  · exact absurd gone stays

theorem expired_removed (expired : c.Expired s.broker.now) : u.broker.clients.get? t = none := by
  obtain ⟨deadline, set, past⟩ := expired
  have due : reaping.due s.pc t := by
    rw [scanned]
    refine List.mem_map.mpr ⟨(t, c), List.mem_filter.mpr ⟨(HashMap.mem_iter _ _ _).mpr found, ?_⟩, rfl⟩
    simpa [set] using past
  exact reaping.removed reached run ended (reached.numbered t c found) due fun op met => met

omit reached scanned run ended found in
theorem mem_overdue {pid : UInt16} {e : InFlight} (inWindow : c.inFlight.get? pid = some e)
    (elapsed : s.retryAfter ≤ s.broker.now - e.sentAt) : (pid, e) ∈ c.overdue s.broker.now s.retryAfter :=
  List.mem_filter.mpr ⟨(HashMap.mem_iter _ _ _).mpr inWindow, by simpa using elapsed⟩

theorem spent_removed {pid : UInt16} (spent : c.Spent s.broker.now s.retryAfter pid) :
    u.broker.clients.get? t = none := by
  obtain ⟨e, inWindow, used, elapsed⟩ := spent
  have due : abandoning.due s.pc (t, pid) := by
    rw [scanned]
    refine List.mem_flatMap.mpr ⟨(t, c), (HashMap.mem_iter _ _ _).mpr found, List.mem_map.mpr ⟨(pid, e), ?_, rfl⟩⟩
    exact List.mem_filter.mpr ⟨mem_overdue inWindow elapsed, by simpa using used⟩
  exact abandoning.removed (x := (t, pid)) reached run ended (reached.numbered t c found) due fun op met => met

theorem overdue_repeated {pid : UInt16} {e : InFlight} (inWindow : c.inFlight.get? pid = some e)
    (left : e.retries < QOS1_MAX_RETRIES) (elapsed : s.retryAfter ≤ s.broker.now - e.sentAt) :
    u.broker.clients.get? t = none ∨ ∃ now, .retry t pid (e.retransmit pid) now ∈ s.trace ios := by
  have due : repeating.due s.pc (t, pid, e.retransmit pid) := by
    rw [scanned]
    refine List.mem_flatMap.mpr ⟨(t, c), (HashMap.mem_iter _ _ _).mpr found, List.mem_map.mpr ⟨(pid, e), ?_, rfl⟩⟩
    exact List.mem_filter.mpr ⟨mem_overdue inWindow elapsed, by simpa using left⟩
  rcases repeating.met_or_gone (x := (t, pid, e.retransmit pid)) reached run ended
    (reached.numbered t c found) due with ⟨op, member, now, rfl⟩ | gone
  · exact .inr ⟨now, member⟩
  · exact .inl gone

end Round

/-- By the end of a round every connection that it found is gone, or was read, and was written to if
something was queued for it. -/
theorem every_connection_served (s : Loop) (reached : s.Reachable) (scanned : s.Scanned) (ios : List Io)
    (u : Loop) (run : s.AdmittedRun ios u) (ended : u.pc = .poll) (t : Token) (c : Client)
    (found : s.broker.clients.get? t = some c) (stays : u.broker.clients.get? t ≠ none) :
    (∃ r, .receive t r ∈ s.trace ios) ∧ (c.writeQueue ≠ [] → ∃ ws, .flush t ws ∈ s.trace ios) :=
  ⟨connection_read reached scanned run ended found stays,
    fun queued => connection_flushed reached scanned run ended found queued stays⟩

/-- The scan comes next. -/
def scans (s : Loop) : Bool :=
  match s.pc with
  | .events [] => true
  | _ => false

theorem scanned_of_scans {s : Loop} {os : Os} (next : s.scans = true) (done : s.step (.go os) = .ok u) :
    u.Scanned := by
  have here : s.pc = .events [] := by
    unfold scans at next
    split at next
    next here => exact here
    next => cases next
  simp only [step, op, Loop.next, here, Op.run, pcAfter, Run.pure_eq, Run.ok_bind] at done
  cases done
  rfl

theorem poll_of_idles {s : Loop} (ended : s.idles = true) : s.pc = .poll := by
  unfold idles at ended
  split at ended
  next here => exact here
  next => cases ended

/-- A run from a scan to the end of its round, with a check of the two states. -/
theorem exists_round (before rest : List Io) (check : Loop → Loop → Bool)
    (passed : ((after before).any fun v => v.scans && (Machine.runChecked step admits v [.quiet]).any fun s =>
      (Machine.runChecked step admits s rest).any fun u => u.idles && check s u) = true) :
    ∃ s u, s.Reachable ∧ s.Scanned ∧ s.AdmittedRun rest u ∧ u.pc = .poll ∧ check s u = true := by
  obtain ⟨v, done, checked⟩ := (Option.any_eq_true _ _).mp passed
  obtain ⟨scans, checked⟩ := (Bool.and_eq_true _ _).mp checked
  obtain ⟨s, first, checked⟩ := (Option.any_eq_true _ _).mp checked
  obtain ⟨u, round, checked⟩ := (Option.any_eq_true _ _).mp checked
  obtain ⟨ended, checked⟩ := (Bool.and_eq_true _ _).mp checked
  have to_s : v.AdmittedRun [.quiet] s := Machine.runChecked_path _ _ _ _ _ first
  obtain ⟨s', -, next, last⟩ := to_s.uncons
  cases last.eq_of_nil rfl
  exact ⟨s, u, Machine.Reaches.path (after_reachable done) to_s, scanned_of_scans scans next,
    Machine.runChecked_path _ _ _ _ _ round, poll_of_idles ended, checked⟩

/-- One connection, with nothing to say. -/
theorem every_connection_served_silent : ∃ (s u : Loop) (ios : List Io), s.Reachable ∧ s.AdmittedRun ios u ∧
    u.pc = .poll ∧ ∃ r, .receive 1 r ∈ s.trace ios := by
  obtain ⟨s, u, reached, scanned, run, ended, checked⟩ := exists_round [.listen, .connection, .quiet]
    (List.replicate 10 .quiet)
    (fun s u => s.broker.clients.contains 1 && u.broker.clients.contains 1) (by decide +kernel)
  obtain ⟨there, stays⟩ := (Bool.and_eq_true _ _).mp checked
  obtain ⟨c, found⟩ := (HashMap.contains_iff _ _).mp there
  obtain ⟨d, later⟩ := (HashMap.contains_iff _ _).mp stays
  exact ⟨s, u, _, reached, run, ended,
    (every_connection_served s reached scanned _ u run ended 1 c found (by simp [later])).1⟩

end Loop
end MioBroker
