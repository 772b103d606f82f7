import MioBroker.Attempts
import MioBroker.Silence

/-!
# Deadlines are kept

The loop comes back to its scan, and what the scan finds is carried out in the same round. So whoever
is silent for longer than its keepalive, or never acknowledges a message, is removed in the end,
whatever everybody else does meanwhile.
-/
namespace MioBroker

open Rust

namespace Loop

variable {s s' : Loop} {io : Io}

/-- The events of a poll are left through the scan. -/
theorem scanned_of_leaving (formed : s.pc.Formed) (done : s.step io = .ok s')
    (inside : s.pc.stage = 10) : s'.pc.stage = 10 ∨ s'.Scanned := by
  obtain ⟨b, out, ran, rfl⟩ := step_ok.mp done
  cases io with
  | tick dt fault => exact .inl inside
  | go os =>
    simp only [op, pcAfter] at ran ⊢
    cases here : s.pc with
    | events todo =>
      cases todo with
      | nil =>
        simp only [next, here] at ran ⊢
        cases ran
        exact .inr rfl
      | cons e todo =>
        refine .inl ?_
        cases e with
        | listener =>
          simp only [next, here]
          split <;> rfl
        | client t readable writable =>
          simp only [next, here]
          split
          · cases out <;> rfl
          · rfl
    | writable t writable todo =>
      simp only [next, here]
      exact .inl rfl
    | packets t todo n next' failed =>
      rw [here] at formed inside
      rcases formed with ⟨writable, rest, rfl, rfl⟩ | ⟨rest, scan, rfl, rfl⟩
      · refine .inl ?_
        cases todo with
        | nil => simp only [next, here, Pc.stage]
        | cons p todo =>
          simp only [next, here]
          cases out <;> rfl
      · cases inside
    | close t next' =>
      rw [here] at inside
      simp only [next, here]
      exact .inl inside
    | _ => simp [here, Pc.stage] at inside

/-- A poll is left into its events. -/
theorem stage_of_poll (done : s.step io = .ok s') (here : s.pc = .poll) :
    s'.pc = .poll ∧ ¬s.Works io ∨ s'.pc.stage = 10 := by
  obtain ⟨b, out, -, rfl⟩ := step_ok.mp done
  cases io with
  | tick dt fault =>
    refine .inl ⟨here, ?_⟩
    rintro ⟨os, same, -⟩
    cases same
  | go os =>
    simp only [pcAfter, next, here]
    exact .inr rfl

section Endless

variable {state : Nat → Loop} {input : Nat → Io} (reached : (state 0).Reachable)
  (run : Machine.Endless step (fun s io => s.admits io = true) state input)
  (often : ∀ n, ∃ m ≥ n, (state m).Works (input m))

include reached run

/-- A token that was given is not given again. -/
theorem given_stays {n m : Nat} {t : Token} (given : t < (state n).broker.nextToken) (le : n ≤ m) :
    t < (state m).broker.nextToken := by
  induction m, le using Nat.le_induction with
  | base => exact given
  | succ m _ ih =>
    obtain ⟨b, out, ran, same⟩ := step_ok.mp (run.next m)
    rw [same]
    exact Nat.lt_of_lt_of_le ih (Op.nextToken_le (Reachable.healthy (run.reaches reached m)) ran)

/-- As long as a connection is there it keeps what every operation on the way keeps. -/
theorem client_keeps {n m : Nat} {t : Token} {c : Client} (found : (state n).broker.clients.get? t = some c)
    (le : n ≤ m) (P : Broker → Client → Prop) (start : P (state n).broker c)
    (keeps : ∀ j, n ≤ j → j < m → ∀ b out, ((state j).op (input j)).run (state j).broker = .ok (b, out) →
      t < (state j).broker.nextToken →
      (∀ d, (state j).broker.clients.get? t = some d → P (state j).broker d) →
      ∀ d, b.clients.get? t = some d → P b d) :
    ∀ d, (state m).broker.clients.get? t = some d → P (state m).broker d := by
  induction m, le using Nat.le_induction with
  | base =>
    intro d there
    cases found.symm.trans there
    exact start
  | succ m le ih =>
    have before := ih fun j from_n within => keeps j from_n (Nat.lt_succ_of_lt within)
    have given := given_stays reached run (Reachable.numbered (run.reaches reached n) t c found) le
    obtain ⟨b, out, ran, same⟩ := step_ok.mp (run.next m)
    rw [same]
    exact keeps m le (Nat.lt_succ_self m) b out ran given before

/-- Nothing appears again under a token whose connection is gone. -/
theorem gone_stays {n : Nat} {t : Token} {c : Client} (found : (state n).broker.clients.get? t = some c)
    {k : Nat} (after : n ≤ k) (gone : (state k).broker.clients.get? t = none) {m : Nat} (later : k ≤ m) :
    (state m).broker.clients.get? t = none := by
  induction m, later using Nat.le_induction with
  | base => exact gone
  | succ m le ih =>
    have given := given_stays reached run (Reachable.numbered (run.reaches reached n) t c found)
      (Nat.le_trans after le)
    obtain ⟨b, out, ran, same⟩ := step_ok.mp (run.next m)
    rw [same]
    exact Op.absent (Reachable.healthy (run.reaches reached m)) ran given ih

include often

/-- There is always another round. -/
theorem rounds_again (n : Nat) : ∃ m k, n ≤ m ∧ m ≤ k ∧ (state m).Scanned ∧ (state k).pc = .poll := by
  obtain ⟨a, after, polling⟩ := poll_recurs reached run often n
  obtain ⟨b, later, works⟩ := often a
  -- The first step that works takes the loop out of the poll.
  obtain ⟨c, from_a, inside⟩ : ∃ c, a ≤ c ∧ (state c).pc.stage = 10 := by
    by_cases here : (state b).pc = .poll
    · have left := (stage_of_poll (run.next b) here).resolve_left fun idle => idle.2 works
      exact ⟨b + 1, Nat.le_succ_of_le later, left⟩
    · obtain ⟨c, after, -, there, gone⟩ := Machine.crosses (fun c => (state c).pc = .poll) later polling here
      have left := (stage_of_poll (run.next c) there).resolve_left fun idle => gone idle.1
      exact ⟨c + 1, Nat.le_succ_of_le after, left⟩
  obtain ⟨k, from_c, ended⟩ := poll_recurs reached run often c
  obtain ⟨m, from_c', before, there, gone⟩ := Machine.crosses (fun m => (state m).pc.stage = 10) from_c inside
    (by simp [ended, Pc.stage])
  have formed := Reachable.formed (run.reaches reached m)
  have scanned := (scanned_of_leaving formed (run.next m) there).resolve_left gone
  exact ⟨m + 1, k, Nat.le_trans after (Nat.le_trans from_a (Nat.le_succ_of_le from_c')), before, scanned, ended⟩

end Endless

/-- A run of the endless one, with where its operations stand. -/
theorem path_between {state : Nat → Loop} {input : Nat → Io}
    (run : Machine.Endless step (fun s io => s.admits io = true) state input) {n m : Nat} (le : n ≤ m) :
    ∃ ios, (state n).AdmittedRun ios (state m) ∧
      ∀ op ∈ (state n).trace ios, ∃ j ≥ n, (state j).op (input j) = op := by
  induction m, le using Nat.le_induction with
  | base => exact ⟨[], .nil, by simp [trace]⟩
  | succ m le ih =>
    obtain ⟨ios, path, listed⟩ := ih
    refine ⟨ios ++ [input m], .snoc (input m) path (run.admitted m) (run.next m), fun op member => ?_⟩
    rw [trace_append path, trace_single, List.mem_append, List.mem_singleton] at member
    rcases member with old | rfl
    · exact listed op old
    · exact ⟨m, le, rfl⟩

/-- A client that stays silent once its keepalive is over is removed. -/
theorem silent_client_leaves (state : Nat → Loop) (input : Nat → Io) (reached : (state 0).Reachable)
    (run : Machine.Endless step (fun s io => s.admits io = true) state input)
    (often : ∀ n, ∃ m ≥ n, (state m).Works (input m)) (n : Nat) (t : Token) (c : Client)
    (found : (state n).broker.clients.get? t = some c) (expired : c.Expired (state n).broker.now)
    (silent : ∀ m ≥ n, ¬((state m).op (input m)).Revives (state m).broker t) :
    ∃ m ≥ n, (state m).broker.clients.get? t = none := by
  have late : ∀ m, n ≤ m → ∀ d, (state m).broker.clients.get? t = some d → d.Expired (state m).broker.now := by
    intro m le
    refine client_keeps reached run found le (fun b d => d.Expired b.now) expired ?_
    intro j from_n _ b out ran given before
    exact Op.expired (Reachable.healthy (run.reaches reached j)) ran given (silent j from_n) before
  obtain ⟨m, k, after, before, scanned, ended⟩ := rounds_again reached run often n
  cases there : (state m).broker.clients.get? t with
  | none => exact ⟨m, after, there⟩
  | some d =>
    obtain ⟨ios, path, -⟩ := path_between run before
    exact ⟨k, Nat.le_trans after before,
      expired_removed (run.reaches reached m) scanned path ended there (late m after d there)⟩

/-- A client with a keepalive of one second that says nothing for two. -/
theorem silent_client_leaves_lulled : ∃ (state : Nat → Loop) (c : Client), (state 0).Reachable ∧
    (state 0).broker.clients.get? 1 = some c ∧ ∃ m ≥ 0, (state m).broker.clients.get? 1 = none := by
  obtain ⟨s, reached, silent, late⟩ := exists_silent
    ([Io.listen, .connection] ++ List.replicate 3 Io.quiet ++
      [Io.read [0x10, 13, 0, 4, 77, 81, 84, 84, 4, 2, 0, 1, 0, 1, 97]] ++ List.replicate 10 Io.quiet ++
      [Io.tick (secs 2) none])
    (fun s => (s.broker.clients.get? 1).any fun c => c.keepaliveDeadline.any fun d => decide (d < s.broker.now))
    (by decide +kernel)
  obtain ⟨c, found, deadline⟩ := (Option.any_eq_true _ _).mp late
  obtain ⟨d, set, past⟩ := (Option.any_eq_true _ _).mp deadline
  exact ⟨s.lulled, c, reached, found, silent_client_leaves s.lulled lull reached silent.endless
    (lulled_often s) 0 1 c found ⟨d, set, of_decide_eq_true past⟩ fun m _ => silent.unrevived m 1⟩

/-! ### Messages that are never acknowledged -/

/-- Without an acknowledgement an entry changes only by being sent again. -/
theorem entry_stays {op : Op} {b b' : Broker} {out : Outcome} {t : Token} {pid : UInt16} {e : InFlight}
    (healthy : b.Healthy) (done : op.run b = .ok (b', out)) (given : t < b.nextToken)
    (unacked : ¬op.Acknowledges b t pid) (unsent : ∀ pkt now, op ≠ .retry t pid pkt now) {c : Client}
    (found : b.clients.get? t = some c) (inWindow : c.inFlight.get? pid = some e) :
    ∀ d, b'.clients.get? t = some d → d.inFlight.get? pid = some e := by
  refine op.record_invariant healthy done given (fun c => c.inFlight.get? pid = some e) ?_ ?_ ?_
  · intro now ch d permitted same
    rcases d.entry_change now ch pid with stays | ⟨rfl, -⟩ | ⟨rfl, f, there, moves⟩ |
      ⟨pkt, scanned, f, rfl, -⟩
    · exact stays.trans same
    · obtain ⟨p, rfl, kind, parse⟩ := Op.permits_ofPacket rfl permitted
      exact absurd ⟨p, rfl, parse, kind.imp_right .inl⟩ unacked
    · obtain ⟨p, rfl, kind, parse⟩ := Op.permits_ofPacket rfl permitted
      cases there.symm.trans same
      exact absurd ⟨p, rfl, parse, .inr (.inr ⟨kind, c, e, found, inWindow, moves⟩)⟩ unacked
    · exact absurd (Op.permits_retry permitted) (unsent pkt scanned)
  · intro s a d f topic payload qos retain _ _ queued same
    exact Client.offer_spares queued same
  · intro d there
    cases found.symm.trans there
    exact inWindow

/-- A retransmission counts, or its connection is closed next. -/
theorem entry_sent {t : Token} {pid : UInt16} {pkt : Bytes} {now : Instant} {e : InFlight} {c : Client}
    (sends : s.op io = .retry t pid pkt now) (done : s.step io = .ok s')
    (found : s.broker.clients.get? t = some c) (inWindow : c.inFlight.get? pid = some e) :
    (∃ d f, s'.broker.clients.get? t = some d ∧ d.inFlight.get? pid = some f ∧
      f.retries = e.retries + 1) ∨ ∃ next, s'.pc = .close t next := by
  obtain ⟨b, out, ran, rfl⟩ := step_ok.mp done
  have grounds := s.op_grounds io
  rw [sends] at ran grounds
  obtain ⟨todo, scan, here, -⟩ := grounds
  have window := Client.inFlight_queueQos1 c pkt
  simp only [Op.run, Broker.retry, found, Run.pure_eq, Except.ok.injEq] at ran
  cases queued : c.queueQos1 pkt with
  | mk d answer =>
    rw [queued] at ran window
    cases answer with
    | ok u =>
      cases ran
      have counted : (d.restartTimer pid now).inFlight.get? pid =
          some { e with sentAt := now, retries := e.retries + 1 } := by
        rw [← window] at inWindow
        simp only [Client.restartTimer, inWindow]
        exact HashMap.get?_insert_self _ _ _
      exact .inl ⟨d.restartTimer pid now, _, HashMap.get?_insert_self _ _ _, counted, rfl⟩
    | error u =>
      cases ran
      cases io with
      | tick dt fault => cases sends
      | go os =>
        simp only [pcAfter, next, here]
        exact .inr ⟨_, rfl⟩

section Unacknowledged

variable {state : Nat → Loop} {input : Nat → Io} (reached : (state 0).Reachable)
  (run : Machine.Endless step (fun s io => s.admits io = true) state input)
  (often : ∀ n, ∃ m ≥ n, (state m).Works (input m))

include run

theorem retryAfter_const (n : Nat) : (state n).retryAfter = (state 0).retryAfter := by
  induction n with
  | zero => rfl
  | succ n ih =>
    obtain ⟨b, out, -, same⟩ := step_ok.mp (run.next n)
    rw [same]
    exact ih

include reached

theorem now_le_of_le {n m : Nat} (le : n ≤ m) : (state n).broker.now ≤ (state m).broker.now := by
  induction m, le using Nat.le_induction with
  | base => exact le_rfl
  | succ m _ ih =>
    obtain ⟨b, out, ran, same⟩ := step_ok.mp (run.next m)
    rw [same]
    exact Nat.le_trans ih (Op.now_le (Reachable.healthy (run.reaches reached m)) ran)

include often in
omit reached in
/-- Until the loop goes on only time passes. -/
theorem goes_on (n : Nat) : ∃ m ≥ n, (∃ os, input m = .go os) ∧ (state m).pc = (state n).pc ∧
    ∃ now file, (state m).broker = { (state n).broker with now, stateFile := file } := by
  classical
  have goes : ∃ m, n ≤ m ∧ ∃ os, input m = .go os := by
    obtain ⟨m, later, os, given, -⟩ := often n
    exact ⟨m, later, os, given⟩
  obtain ⟨later, first⟩ := Nat.find_spec goes
  have waits : ∀ m, n ≤ m → m ≤ Nat.find goes → (state m).pc = (state n).pc ∧
      ∃ now file, (state m).broker = { (state n).broker with now, stateFile := file } := by
    intro m le
    induction m, le using Nat.le_induction with
    | base => exact fun _ => ⟨rfl, _, _, rfl⟩
    | succ m le ih =>
      intro within
      obtain ⟨here, now, file, broker⟩ := ih (Nat.le_of_succ_le within)
      obtain ⟨b, out, ran, same⟩ := step_ok.mp (run.next m)
      cases given : input m with
      | go os => exact absurd ⟨le, os, given⟩ (Nat.find_min goes within)
      | tick dt fault =>
        rw [given] at ran
        cases ran
        rw [same, given, broker]
        exact ⟨here, _, _, rfl⟩
  exact ⟨_, later, first, waits _ later le_rfl⟩

include often in
omit reached in
/-- A connection that is to be closed is gone after the next step. -/
theorem closing_leaves {n : Nat} {t : Token} {next' : Pc} (closing : (state n).pc = .close t next') :
    ∃ m ≥ n, (state m).broker.clients.get? t = none := by
  obtain ⟨m, later, ⟨os, given⟩, here, -⟩ := goes_on run often n
  obtain ⟨b, out, ran, same⟩ := step_ok.mp (run.next m)
  rw [given] at ran
  simp only [op, next, here.trans closing] at ran
  obtain ⟨e, removed, dropped⟩ := Run.bind_ok.mp ran
  cases dropped
  refine ⟨m + 1, Nat.le_succ_of_le later, ?_⟩
  rw [same]
  exact Broker.removeClient_erases removed

include often in
/-- A message that is not acknowledged is sent once more in the end, or its connection is gone. -/
theorem tried_again (passes : ∀ τ, ∃ m, τ ≤ (state m).broker.now) {n : Nat} {t : Token} {pid : UInt16}
    (unacked : ∀ m ≥ n, ¬((state m).op (input m)).Acknowledges (state m).broker t pid) {c : Client}
    {e : InFlight} (found : (state n).broker.clients.get? t = some c)
    (inWindow : c.inFlight.get? pid = some e) :
    ∃ m ≥ n, (state m).broker.clients.get? t = none ∨
      ∃ d f, (state m).broker.clients.get? t = some d ∧ d.inFlight.get? pid = some f ∧
        f.retries = e.retries + 1 := by
  -- Up to the next retransmission the entry stays as it is.
  have stays : ∀ m, n ≤ m →
      (∀ j, n ≤ j → j < m → ∀ pkt now, (state j).op (input j) ≠ .retry t pid pkt now) →
      ∀ d, (state m).broker.clients.get? t = some d → d.inFlight.get? pid = some e := by
    intro m le unsent
    refine client_keeps reached run found le (fun _ d => d.inFlight.get? pid = some e) inWindow ?_
    intro j from_n within b out ran given same d after
    have healthy := Reachable.healthy (run.reaches reached j)
    cases before : (state j).broker.clients.get? t with
    | none => cases (Op.absent healthy ran given before).symm.trans after
    | some c =>
      exact entry_stays healthy ran given (unacked j from_n) (unsent j from_n within) before (same c before)
        d after
  by_cases resent : ∃ j, n ≤ j ∧ ∃ pkt now, (state j).op (input j) = .retry t pid pkt now
  · classical
    obtain ⟨after, pkt, now, sends⟩ := Nat.find_spec resent
    have same := stays _ after fun j le lt pkt now sent =>
      Nat.find_min resent lt ⟨le, pkt, now, sent⟩
    cases there : (state (Nat.find resent)).broker.clients.get? t with
    | none => exact ⟨_, after, .inl there⟩
    | some d =>
      rcases entry_sent sends (run.next _) there (same d there) with counted | ⟨next, closing⟩
      · exact ⟨_, Nat.le_succ_of_le after, .inr counted⟩
      · obtain ⟨m, later, gone⟩ := closing_leaves run often closing
        exact ⟨m, Nat.le_trans (Nat.le_succ_of_le after) later, .inl gone⟩
  · have same := fun m le => stays m le fun j after _ pkt now sent => resent ⟨j, after, pkt, now, sent⟩
    -- Without one, the next scan after its time finds the entry as it is now.
    obtain ⟨a, late⟩ := passes (e.sentAt + (state 0).retryAfter)
    obtain ⟨m, k, after, before, scanned, ended⟩ := rounds_again reached run often (max n a)
    have from_n : n ≤ m := Nat.le_trans (Nat.le_max_left n a) after
    have elapsed : (state m).retryAfter ≤ (state m).broker.now - e.sentAt := by
      rw [retryAfter_const run m]
      have later := now_le_of_le reached run (Nat.le_trans (Nat.le_max_right n a) after)
      exact Nat.le_sub_of_add_le' (Nat.le_trans late later)
    cases there : (state m).broker.clients.get? t with
    | none => exact ⟨m, from_n, .inl there⟩
    | some d =>
      obtain ⟨ios, path, placed⟩ := path_between run before
      have left := same m from_n d there
      refine ⟨k, Nat.le_trans from_n before, .inl ?_⟩
      by_cases tries : e.retries < QOS1_MAX_RETRIES
      · rcases overdue_repeated (run.reaches reached m) scanned path ended there left tries elapsed with gone | ⟨now, sent⟩
        · exact gone
        · obtain ⟨j, later, here⟩ := placed _ sent
          exact absurd ⟨j, Nat.le_trans from_n later, _, now, here⟩ resent
      · exact spent_removed (run.reaches reached m) scanned path ended there
          ⟨e, left, Nat.le_of_not_lt tries, elapsed⟩

include often in
/-- A message that is not acknowledged is sent any number of times, or its connection is gone. -/
theorem tried_often (passes : ∀ τ, ∃ m, τ ≤ (state m).broker.now) {n : Nat} {t : Token} {pid : UInt16}
    (unacked : ∀ m ≥ n, ¬((state m).op (input m)).Acknowledges (state m).broker t pid) {c : Client}
    {e : InFlight} (found : (state n).broker.clients.get? t = some c)
    (inWindow : c.inFlight.get? pid = some e) (r : Nat) :
    ∃ m ≥ n, (state m).broker.clients.get? t = none ∨
      ∃ d f, (state m).broker.clients.get? t = some d ∧ d.inFlight.get? pid = some f ∧ r ≤ f.retries := by
  induction r with
  | zero => exact ⟨n, le_rfl, .inr ⟨c, e, found, inWindow, Nat.zero_le _⟩⟩
  | succ r ih =>
    obtain ⟨m, after, gone | ⟨d, f, there, under, tried⟩⟩ := ih
    · exact ⟨m, after, .inl gone⟩
    · obtain ⟨k, later, gone | ⟨d', f', there', under', once⟩⟩ := tried_again reached run often passes
        (fun k le => unacked k (Nat.le_trans after le)) there under
      · exact ⟨k, Nat.le_trans after later, .inl gone⟩
      · exact ⟨k, Nat.le_trans after later, .inr ⟨d', f', there', under', once ▸ Nat.succ_le_succ tried⟩⟩

/-- No entry is sent more often than that. -/
theorem tried_seldom {m : Nat} {t : Token} {pid : UInt16} {c : Client} {e : InFlight}
    (found : (state m).broker.clients.get? t = some c) (inWindow : c.inFlight.get? pid = some e) :
    ¬QOS1_MAX_RETRIES + 1 ≤ e.retries := fun many =>
  Nat.not_succ_le_self _ (Nat.le_trans many
    (Nat.le_of_lt_succ ((Reachable.limited (run.reaches reached m)).tried t c found pid e inWindow)))

end Unacknowledged

/-- A client that never acknowledges a message is removed, if time goes on. -/
theorem unacknowledged_client_leaves (state : Nat → Loop) (input : Nat → Io) (reached : (state 0).Reachable)
    (run : Machine.Endless step (fun s io => s.admits io = true) state input)
    (often : ∀ n, ∃ m ≥ n, (state m).Works (input m)) (passes : ∀ τ, ∃ m, τ ≤ (state m).broker.now)
    (n : Nat) (t : Token) (c : Client) (found : (state n).broker.clients.get? t = some c) (pid : UInt16)
    (e : InFlight) (inWindow : c.inFlight.get? pid = some e)
    (unacked : ∀ m ≥ n, ¬((state m).op (input m)).Acknowledges (state m).broker t pid) :
    ∃ m ≥ n, (state m).broker.clients.get? t = none := by
  obtain ⟨m, after, gone | ⟨d, f, there, under, many⟩⟩ :=
    tried_often reached run often passes unacked found inWindow (QOS1_MAX_RETRIES + 1)
  · exact ⟨m, after, gone⟩
  · exact absurd many (tried_seldom reached run there under)

/-- A subscriber that is sent a message with QoS 1 and says nothing any more. -/
theorem unacknowledged_client_leaves_lulled : ∃ (state : Nat → Loop) (c : Client) (e : InFlight),
    (state 0).Reachable ∧ (state 0).broker.clients.get? 1 = some c ∧ c.inFlight.get? 1 = some e ∧
    ∃ m ≥ 0, (state m).broker.clients.get? 1 = none := by
  obtain ⟨s, reached, silent, window⟩ := exists_silent
    ([Io.listen, .connection] ++ List.replicate 3 Io.quiet ++
      [Io.read (connectBytes 2 97 ++ [0x82, 6, 0, 1, 0, 1, 116, 1, 0x32, 5, 0, 1, 116, 0, 1])] ++
      List.replicate 12 Io.quiet)
    (fun s => (s.broker.clients.get? 1).any fun c => c.inFlight.contains 1) (by decide +kernel)
  obtain ⟨c, found, there⟩ := (Option.any_eq_true _ _).mp window
  obtain ⟨e, inWindow⟩ := (HashMap.contains_iff _ _).mp there
  exact ⟨s.lulled, c, e, reached, found, inWindow, unacknowledged_client_leaves s.lulled lull reached
    silent.endless (lulled_often s) silent.passes 0 1 c found 1 e inWindow fun m _ => silent.unacknowledged m 1 1⟩

end Loop
end MioBroker
