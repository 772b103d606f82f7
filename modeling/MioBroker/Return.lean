import Mathlib.Data.Prod.Lex
import Mathlib.Dynamics.PeriodicPts.Defs
import MioBroker.Duties
import MioBroker.Rust.Endless

/-!
# The loop comes back

Between two polls the loop only works off lists. Every step that is neither a pause nor a new
connection brings it nearer to the next poll, whatever the batches hold.
-/
namespace MioBroker

open Rust

namespace Pc

/-- Which part of a round is running; the poll comes last. -/
def stage : Pc → Nat
  | .poll => 0
  | .save => 1
  | .giveUp _ => 2
  | .retry _ _ => 3
  | .reap _ _ => 4
  | .sysPublish _ _ => 5
  | .sysTopics _ => 6
  | .flushForwards _ _ => 7
  | .sweep _ _ => 8
  | .flushPending _ _ => 9
  | .events _ => 10
  | .writable _ _ _ => 10
  | .close _ next => stage next
  | .packets _ _ _ _ failed => stage failed

/-- What is left of that part: an entry is read, closed and left. -/
def left : Pc → Nat
  | .giveUp todo => 3 * todo.length
  | .retry todo _ => 3 * todo.length
  | .reap todo _ => 3 * todo.length
  | .sysPublish todo _ => 3 * todo.length
  | .flushForwards todo _ => 3 * todo.length
  | .sweep todo _ => 3 * todo.length
  | .flushPending todo _ => 3 * todo.length
  | .events todo => 3 * todo.length
  | .writable _ _ todo => 3 * todo.length + 1
  | .close _ next => left next + 1
  | .packets _ _ _ _ failed => left failed + 1
  | _ => 0

/-- The packets left of a batch. -/
def batch : Pc → Nat
  | .packets _ todo _ _ _ => todo.length
  | _ => 0

/-- How far away the next poll is. -/
def rank (pc : Pc) : Nat ×ₗ Nat ×ₗ Nat := toLex (pc.stage, toLex (pc.left, pc.batch))

variable {pc pc' : Pc}

theorem rank_of_stage (lower : pc'.stage < pc.stage) : pc'.rank < pc.rank :=
  Prod.Lex.toLex_lt_toLex.mpr (.inl lower)

theorem rank_of_left (same : pc'.stage = pc.stage) (lower : pc'.left < pc.left) : pc'.rank < pc.rank :=
  Prod.Lex.toLex_lt_toLex.mpr (.inr ⟨same, Prod.Lex.toLex_lt_toLex.mpr (.inl lower)⟩)

theorem rank_of_batch (same : pc'.stage = pc.stage) (equal : pc'.left = pc.left)
    (lower : pc'.batch < pc.batch) : pc'.rank < pc.rank :=
  Prod.Lex.toLex_lt_toLex.mpr (.inr ⟨same, Prod.Lex.toLex_lt_toLex.mpr (.inr ⟨equal, lower⟩)⟩)

end Pc

namespace Loop

/-- The step is one of the loop, and not another connection that is accepted. -/
def Works (s : Loop) (io : Io) : Prop := ∃ os, io = .go os ∧ ∀ h₁ h₂, s.op io ≠ .accept h₁ h₂

variable {s s' : Loop} {io : Io}

theorem rank_afterReceive {pc : Pc} {t : Token} {next failed : Pc} (out : Outcome)
    (same : failed.stage = pc.stage) (lower : failed.left + 1 < pc.left) :
    (afterReceive t next failed out).rank < pc.rank := by
  cases out with
  | ok pkts => exact Pc.rank_of_left same lower
  | error _ => exact Pc.rank_of_left same (Nat.lt_of_succ_lt lower)

/-- A pause, or a connection that is accepted. -/
theorem rank_waits (done : s.step io = .ok s') (waits : ¬s.Works io) : s'.pc.rank = s.pc.rank := by
  obtain ⟨b, out, -, rfl⟩ := step_ok.mp done
  cases io with
  | tick dt fault => rfl
  | go os =>
    obtain ⟨h₁, h₂, accepts⟩ : ∃ h₁ h₂, s.op (.go os) = .accept h₁ h₂ := by
      by_contra none_accepted
      exact waits ⟨os, rfl, fun h₁ h₂ accepts => none_accepted ⟨h₁, h₂, accepts⟩⟩
    have grounds := s.op_grounds (.go os)
    rw [accepts] at grounds
    obtain ⟨todo, here⟩ := grounds
    simp only [op, next, here] at accepts
    simp only [pcAfter, next, here]
    cases answer : os.accept with
    | none => simp [answer] at accepts
    | some states => rfl

theorem rank_lower (formed : s.pc.Formed) (done : s.step io = .ok s') (works : s.Works io) :
    s.pc = .poll ∨ s'.pc.rank < s.pc.rank := by
  obtain ⟨b, out, -, rfl⟩ := step_ok.mp done
  obtain ⟨os, rfl, unaccepted⟩ := works
  simp only [op] at unaccepted
  simp only [pcAfter]
  cases here : s.pc with
  | poll => exact .inl rfl
  | events todo =>
    refine .inr ?_
    cases todo with
    | nil =>
      simp only [next, here]
      exact Pc.rank_of_stage (by simp [Pc.stage])
    | cons e todo =>
      cases e with
      | listener =>
        simp only [next, here] at unaccepted ⊢
        cases answer : os.accept with
        | none => exact Pc.rank_of_left rfl (by simp [Pc.left])
        | some states =>
          rw [answer] at unaccepted
          exact absurd rfl (unaccepted _ _)
      | client t readable writable =>
        cases readable with
        | true =>
          simp only [next, here, if_true]
          exact rank_afterReceive out rfl (by simp only [Pc.left, List.length_cons]; omega)
        | false =>
          simp only [next, here, Bool.false_eq_true, if_false]
          exact Pc.rank_of_left rfl (by simp only [Pc.left, List.length_cons]; omega)
  | writable t writable todo =>
    simp only [next, here]
    exact .inr (Pc.rank_of_left rfl (by simp [Pc.left]))
  | packets t todo n next' failed =>
    refine .inr ?_
    rw [here] at formed
    cases todo with
    | nil =>
      simp only [next, here]
      rcases formed with ⟨writable, todo, rfl, rfl⟩ | ⟨todo, scan, rfl, rfl⟩
      · exact Pc.rank_of_left rfl (by simp [Pc.left])
      · exact Pc.rank_of_left rfl (by simp only [Pc.left]; omega)
    | cons p todo =>
      simp only [next, here]
      cases out with
      | ok _ => exact Pc.rank_of_batch rfl rfl (by simp [Pc.batch])
      | error _ => exact Pc.rank_of_left rfl (by simp [Pc.left])
  | close t next' =>
    simp only [next, here]
    exact .inr (Pc.rank_of_left rfl (by simp [Pc.left]))
  | flushPending todo scan =>
    refine .inr ?_
    cases todo with
    | nil =>
      simp only [next, here]
      exact Pc.rank_of_stage (by simp [Pc.stage])
    | cons t todo =>
      simp only [next, here]
      exact Pc.rank_of_left rfl (by simp [Pc.left])
  | sweep todo scan =>
    refine .inr ?_
    cases todo with
    | nil =>
      simp only [next, here]
      exact Pc.rank_of_stage (by simp [Pc.stage])
    | cons t todo =>
      simp only [next, here]
      split
      · exact rank_afterReceive out rfl (by simp only [Pc.left, List.length_cons]; omega)
      · exact Pc.rank_of_left rfl (by simp [Pc.left])
  | flushForwards todo scan =>
    refine .inr ?_
    cases todo with
    | nil =>
      simp only [next, here]
      exact Pc.rank_of_stage (by simp [Pc.stage])
    | cons t todo =>
      simp only [next, here]
      exact Pc.rank_of_left rfl (by simp [Pc.left])
  | sysTopics scan =>
    refine .inr ?_
    simp only [next, here]
    split
    · exact Pc.rank_of_stage (by simp [Pc.stage])
    · exact Pc.rank_of_stage (by simp [Pc.stage])
  | sysPublish todo scan =>
    refine .inr ?_
    cases todo with
    | nil =>
      simp only [next, here]
      exact Pc.rank_of_stage (by simp [Pc.stage])
    | cons e todo =>
      simp only [next, here]
      exact Pc.rank_of_left rfl (by simp [Pc.left])
  | reap todo scan =>
    refine .inr ?_
    cases todo with
    | nil =>
      simp only [next, here]
      exact Pc.rank_of_stage (by simp [Pc.stage])
    | cons t todo =>
      simp only [next, here]
      exact Pc.rank_of_left rfl (by simp [Pc.left])
  | retry todo scan =>
    refine .inr ?_
    cases todo with
    | nil =>
      simp only [next, here]
      exact Pc.rank_of_stage (by simp [Pc.stage])
    | cons e todo =>
      simp only [next, here]
      cases out with
      | ok _ => exact Pc.rank_of_left rfl (by simp [Pc.left])
      | error _ => exact Pc.rank_of_left rfl (by simp only [Pc.left, List.length_cons]; omega)
  | giveUp todo =>
    refine .inr ?_
    cases todo with
    | nil =>
      simp only [next, here]
      exact Pc.rank_of_stage (by simp [Pc.stage])
    | cons e todo =>
      simp only [next, here]
      exact Pc.rank_of_left rfl (by simp [Pc.left])
  | save =>
    simp only [next, here]
    exact .inr (Pc.rank_of_stage (by decide))

theorem poll_recurs {state : Nat → Loop} {input : Nat → Io} (reached : (state 0).Reachable)
    (run : Machine.Endless step (fun s io => s.admits io = true) state input)
    (often : ∀ n, ∃ m ≥ n, (state m).Works (input m)) (n : Nat) : ∃ m ≥ n, (state m).pc = .poll := by
  revert n
  refine run.recurs reached wellFounded_lt (fun s => s.pc.rank) Works (fun s => s.pc = .poll) ?_ ?_ often
  · exact fun s io s' done waits => rank_waits done waits
  · exact fun s io s' reached done works => rank_lower (Reachable.formed reached) done works

/-- Whatever the operating system reports and clients send, the loop polls again and again, unless it
does nothing any more but accept connections. -/
theorem polls_again (state : Nat → Loop) (input : Nat → Io) (reached : (state 0).Reachable)
    (run : Machine.Endless step (fun s io => s.admits io = true) state input)
    (often : ∀ n, ∃ m ≥ n, (state m).Works (input m)) : ∀ n, ∃ m ≥ n, (state m).pc = .poll :=
  fun n => poll_recurs reached run often n

/-- A client connects and introduces itself; from then on nothing is reported. -/
def arrival (n : Nat) : Io :=
  ([Io.listen, .connection] ++ List.replicate 3 Io.quiet ++ [Io.read (connectBytes 2 97)]).getD n .quiet

/-- The states of this run. -/
def arrived : Nat → Loop
  | 0 => fresh
  | n + 1 => ((arrived n).step (arrival n)).toOption.getD (arrived n)

theorem arrived_ok {n : Nat} (ok : ((arrived n).step (arrival n)).isOk = true) :
    (arrived n).step (arrival n) = .ok (arrived (n + 1)) := by
  cases done : (arrived n).step (arrival n) with
  | ok t => rw [arrived, done, Except.toOption, Option.getD_some]
  | error e => simp [done, Except.isOk, Except.toBool] at ok

theorem works_quiet (s : Loop) : s.Works .quiet := by
  refine ⟨.quiet, rfl, fun h₁ h₂ accepts => ?_⟩
  have grounds := s.op_grounds .quiet
  rw [accepts] at grounds
  obtain ⟨todo, here⟩ := grounds
  simp [op, Io.quiet, next, here, Os.quiet] at accepts

theorem arrival_late {n : Nat} (late : 6 ≤ n) : arrival n = .quiet := by
  rw [arrival, List.getD_eq_getElem?_getD, List.getElem?_eq_none (by simpa using late), Option.getD_none]

/-- From its second round on the process repeats itself. -/
theorem arrived_period (n : Nat) : arrived (n + 28 + 12) = arrived (n + 28) := by
  induction n with
  | zero => rfl
  | succ n ih =>
    have step : ∀ m, 6 ≤ m → arrived (m + 1) = ((arrived m).step .quiet).toOption.getD (arrived m) := by
      intro m late
      rw [arrived, arrival_late late]
    have later := step (n + 28 + 12) (by omega)
    rw [ih, ← step (n + 28) (by omega)] at later
    rw [show n + 1 + 28 + 12 = n + 28 + 12 + 1 by omega, show n + 1 + 28 = n + 28 + 1 by omega]
    exact later

theorem polls_again_arrived : ∃ (state : Nat → Loop) (input : Nat → Io), (state 0).Reachable ∧
    Machine.Endless step (fun s io => s.admits io = true) state input ∧
    (state 5).op (input 5) = .receive 1 (.ok (connectBytes 2 97)) ∧ ∀ n, ∃ m ≥ n, (state m).pc = .poll := by
  have first : ∀ n < 40, ((arrived n).step (arrival n)).isOk = true ∧ (arrived n).admits (arrival n) = true := by
    decide +kernel
  have all : ∀ n, ((arrived n).step (arrival n)).isOk = true := by
    intro n
    induction n using Nat.strongRecOn with
    | _ n ih =>
      by_cases early : n < 40
      · exact (first n early).1
      · obtain ⟨k, rfl⟩ := Nat.exists_eq_add_of_le' (Nat.not_lt.mp early)
        have before := ih (k + 28) (by omega)
        rw [arrival_late (by omega)] at before ⊢
        rwa [arrived_period]
  have run : Machine.Endless step (fun s io => s.admits io = true) arrived arrival := by
    refine ⟨fun n => ?_, fun n => arrived_ok (all n)⟩
    by_cases early : n < 40
    · exact (first n early).2
    · rw [arrival_late (by omega)]
      exact admits_quiet _
  refine ⟨arrived, arrival, fresh_reachable, run, rfl, polls_again _ _ fresh_reachable run fun n => ?_⟩
  refine ⟨n + 6, Nat.le_add_right n 6, ?_⟩
  rw [arrival_late (Nat.le_add_left 6 n)]
  exact works_quiet _

end Loop
end MioBroker
