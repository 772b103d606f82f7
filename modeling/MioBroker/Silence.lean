import MioBroker.Buffers
import MioBroker.Handover
import MioBroker.Reaping
import MioBroker.Return

/-!
# A process that hears nothing

Time passes, nobody connects, nothing is read and everything is written. As long as no connection leaves a session or a will
behind, such a process goes on for ever.
-/
namespace MioBroker

open Rust

/-- A connection that leaves nothing behind. -/
structure Client.Traceless (c : Client) : Prop where
  clean : c.cleanSession = true
  unwilled : c.will = none

/-- No event and no packet is left to be handled. -/
def Pc.Vacant : Pc → Prop
  | .events todo => todo = []
  | .writable _ _ _ => False
  | .packets _ todo _ next failed => todo = [] ∧ next.Vacant ∧ failed.Vacant
  | .close _ next => next.Vacant
  | _ => True

namespace Broker

variable {b b' : Broker} {t : Token}

/-- Nothing is there to read. -/
theorem receive_wouldBlock (there : b.clients.contains t = true) :
    b.receive t .wouldBlock = .ok (b, .ok []) := by
  obtain ⟨c, found⟩ := (HashMap.contains_iff _ _).mp there
  simp only [receive, readChunk, found, Run.unwrap, Run.pure_eq, Run.ok_bind]

/-- A write that succeeds is no reason to close the connection. -/
theorem flushWrites_fine (there : b.clients.contains t = true) (n : Nat) :
    ∃ b', b.flushWrites t [.ok n] = .ok b' := by
  obtain ⟨c, found⟩ := (HashMap.contains_iff _ _).mp there
  have alive : (c.writeLoop [.ok n]).2 ≠ .dead := by
    rw [Client.writeLoop]
    split
    · simp
    · simp only
      split
      · simp
      · rw [Client.writeLoop]
        split <;> simp
  simp only [flushWrites, found, Run.unwrap, Run.ok_bind, if_neg alive]
  exact ⟨_, rfl⟩

theorem removeClient_traceless (traceless : ∀ c, b.clients.get? t = some c → c.Traceless) :
    ∃ b', b.removeClient t = .ok b' := by
  have uncalled : b.willCall t = none := by
    rw [willCall]
    split
    next c found =>
      split
      · rfl
      · rw [(traceless c found).unwilled]
        rfl
    next => rfl
  have unstored : b.persistSession t = .ok b := by
    rw [persistSession]
    split
    next c found => rw [(traceless c found).clean, Bool.not_true, Bool.false_and, if_neg Bool.false_ne_true]; rfl
    next => rfl
  rw [removeClient_eq, afterWill_none uncalled, Run.ok_bind, unstored]
  exact ⟨_, rfl⟩

end Broker

/-- Without packets nothing but the end of a connection happens to its identity. -/
theorem Op.traceless {op : Op} {b b' : Broker} {out : Outcome} (healthy : b.Healthy)
    (done : op.run b = .ok (b', out)) (unheard : ∀ t p, op ≠ .packet t p)
    (start : ∀ t c, b.clients.get? t = some c → c.Traceless) :
    ∀ t c, b'.clients.get? t = some c → c.Traceless := by
  refine (op.acts healthy done).keeps healthy
    (fun s => ∀ t c, s.clients.get? t = some c → c.Traceless) ?_ start
  intro s a s' healthy traceless ok next t d found
  rcases Act.survivor healthy next found with ⟨h₁, h₂, -, -, rfl⟩ | ⟨c, before, ⟨ch, rfl, rfl⟩ | fed⟩
  · exact ⟨rfl, rfl⟩
  · have same : Client.SameIdentity c (ch.apply s.now c) := by
      refine Change.sameIdentity s.now c fun q connects => ?_
      subst connects
      obtain ⟨p, heard, -⟩ := Op.permits_connect ok.1
      exact unheard t p heard
    exact ⟨same.cleanSession.trans (traceless t c before).clean, same.will.trans (traceless t c before).unwilled⟩
  · have same := fed.offered.sameIdentity
    exact ⟨same.cleanSession.trans (traceless t c before).clean, same.will.trans (traceless t c before).unwilled⟩

namespace Loop

/-- Nothing is to be handled that could fail. -/
structure Silent (s : Loop) : Prop where
  healthy : s.broker.Healthy
  vacant : s.pc.Vacant
  traceless : ∀ t c, s.broker.clients.get? t = some c → c.Traceless

variable {s s' : Loop}

/-- Nothing is reported, and the sockets take what they are given. -/
def hush : Io := .write [.ok 65536]

theorem admits_hush (s : Loop) : s.admits hush = true := by
  simp only [admits, hush, Io.write, Os.quiet, Bool.and_true]
  split <;> rfl

theorem works_hush (s : Loop) : s.Works hush := by
  refine ⟨_, rfl, fun h₁ h₂ accepts => ?_⟩
  have grounds := s.op_grounds hush
  rw [accepts] at grounds
  obtain ⟨todo, here⟩ := grounds
  simp [op, hush, Io.write, next, here, Os.quiet] at accepts

theorem Silent.runs (silent : s.Silent) :
    ∃ b out, (s.op hush).run s.broker = .ok (b, out) ∧ (s.pcAfter hush b out).Vacant := by
  have vacant := silent.vacant
  have flushed : ∀ t, ∃ b, (if s.broker.clients.contains t then Op.flush t [.ok 65536] else .idle).run
      s.broker = .ok (b, .ok []) := by
    intro t
    split
    next there =>
      obtain ⟨b, done⟩ := Broker.flushWrites_fine there 65536
      exact ⟨b, by rw [Op.run, done]; rfl⟩
    next => exact ⟨_, rfl⟩
  have removed : ∀ t, ∃ b, (Op.remove t).run s.broker = .ok (b, .ok []) := by
    intro t
    obtain ⟨b, done⟩ := Broker.removeClient_traceless (silent.traceless t)
    exact ⟨b, by rw [Op.run, done]; rfl⟩
  simp only [op, pcAfter, hush, Io.write, Os.quiet]
  cases here : s.pc with
  | poll => exact ⟨_, _, by simp only [next, here]; rfl, by simp only [next, here]; rfl⟩
  | events todo =>
    rw [here] at vacant
    cases vacant
    exact ⟨_, _, by simp only [next, here]; rfl, by simp only [next, here]; trivial⟩
  | writable t writable todo =>
    rw [here] at vacant
    cases vacant
  | packets t todo n next' failed =>
    rw [here] at vacant
    obtain ⟨rfl, after, -⟩ := vacant
    exact ⟨_, _, by simp only [next, here]; rfl, by simp only [next, here]; exact after⟩
  | close t next' =>
    rw [here] at vacant
    obtain ⟨b, done⟩ := removed t
    exact ⟨b, _, by simp only [next, here]; exact done, by simp only [next, here]; exact vacant⟩
  | flushPending todo scan =>
    cases todo with
    | nil => exact ⟨_, _, by simp only [next, here]; rfl, by simp only [next, here]; trivial⟩
    | cons t todo =>
      obtain ⟨b, done⟩ := flushed t
      exact ⟨b, _, by simp only [next, here]; exact done, by simp only [next, here]; trivial⟩
  | sweep todo scan =>
    cases todo with
    | nil => exact ⟨_, _, by simp only [next, here]; rfl, by simp only [next, here]; trivial⟩
    | cons t todo =>
      simp only [next, here]
      split
      next there =>
        exact ⟨_, _, Broker.receive_wouldBlock there, rfl, trivial, trivial⟩
      next => exact ⟨_, _, rfl, trivial⟩
  | flushForwards todo scan =>
    cases todo with
    | nil => exact ⟨_, _, by simp only [next, here]; rfl, by simp only [next, here]; trivial⟩
    | cons t todo =>
      obtain ⟨b, done⟩ := flushed t
      exact ⟨b, _, by simp only [next, here]; exact done, by simp only [next, here]; trivial⟩
  | sysTopics scan =>
    refine ⟨_, _, by simp only [next, here]; rfl, ?_⟩
    simp only [next, here]
    split <;> trivial
  | sysPublish todo scan =>
    cases todo with
    | nil => exact ⟨_, _, by simp only [next, here]; rfl, by simp only [next, here]; trivial⟩
    | cons e todo =>
      obtain ⟨b, n, done, -⟩ := s.broker.publish_spec silent.healthy.indexed e.1 e.2 0 true
      refine ⟨b, .ok [], ?_, by simp only [next, here]; trivial⟩
      simp only [next, here, Op.run, done, Run.ok_bind, Run.pure_eq]
  | reap todo scan =>
    cases todo with
    | nil => exact ⟨_, _, by simp only [next, here]; rfl, by simp only [next, here]; trivial⟩
    | cons t todo =>
      obtain ⟨b, done⟩ := removed t
      exact ⟨b, _, by simp only [next, here]; exact done, by simp only [next, here]; trivial⟩
  | retry todo scan =>
    cases todo with
    | nil => exact ⟨_, _, by simp only [next, here]; rfl, by simp only [next, here]; trivial⟩
    | cons e todo =>
      refine ⟨_, _, by simp only [next, here]; rfl, ?_⟩
      simp only [next, here]
      split <;> trivial
  | giveUp todo =>
    cases todo with
    | nil => exact ⟨_, _, by simp only [next, here]; rfl, by simp only [next, here]; trivial⟩
    | cons e todo =>
      simp only [next, here]
      split
      · obtain ⟨b, done⟩ := removed e.1
        exact ⟨b, _, done, trivial⟩
      · exact ⟨_, _, rfl, trivial⟩
  | save =>
    simp only [next, here]
    split <;> exact ⟨_, _, rfl, trivial⟩

/-- Nothing is heard. -/
theorem Silent.unheard (silent : s.Silent) (t : Token) (p : Packet) : s.op hush ≠ .packet t p := by
  intro heard
  have grounds := s.op_grounds hush
  rw [heard] at grounds
  obtain ⟨todo, n, next, failed, here⟩ := grounds
  have vacant := silent.vacant
  rw [here] at vacant
  cases vacant.1

theorem unread {t : Token} {r : ReadResult} (reads : s.op hush = .receive t r) :
    r = .wouldBlock := by
  have answer := s.op_given { Os.quiet with writes := [.ok 65536] }
  rw [show s.op (.go _) = .receive t r from reads] at answer
  exact answer

theorem Silent.hush (silent : s.Silent) : ∃ s', s.step Loop.hush = .ok s' ∧ s'.Silent := by
  obtain ⟨b, out, ran, vacant⟩ := silent.runs
  exact ⟨_, step_ok.mpr ⟨b, out, ran, rfl⟩, silent.healthy.op _ ran, vacant,
    Op.traceless silent.healthy ran silent.unheard silent.traceless⟩

/-- Every other step the process waits a second. -/
def lull (n : Nat) : Io := if n % 2 = 0 then .tick (secs 1) none else hush

theorem Silent.lull (silent : s.Silent) (n : Nat) : ∃ s', s.step (lull n) = .ok s' ∧ s'.Silent := by
  rw [Loop.lull]
  split
  · exact ⟨_, rfl, silent.healthy.op (.tick (secs 1) none) rfl, silent.vacant, silent.traceless⟩
  · exact silent.hush

/-- The states a process goes through that nobody talks to. -/
def lulled (s : Loop) : Nat → Loop
  | 0 => s
  | n + 1 => ((s.lulled n).step (lull n)).toOption.getD (s.lulled n)

theorem Silent.lulled (silent : s.Silent) (n : Nat) :
    (s.lulled n).Silent ∧ (s.lulled n).step (Loop.lull n) = .ok (s.lulled (n + 1)) := by
  have next : ∀ m, (s.lulled m).Silent →
      (s.lulled m).step (Loop.lull m) = .ok (s.lulled (m + 1)) ∧ (s.lulled (m + 1)).Silent := by
    intro m silent
    obtain ⟨s', done, silent'⟩ := silent.lull m
    rw [Loop.lulled, done]
    exact ⟨rfl, silent'⟩
  have here : (s.lulled n).Silent := by
    induction n with
    | zero => exact silent
    | succ n ih => exact (next n ih).2
  exact ⟨here, (next n here).1⟩

theorem Silent.endless (silent : s.Silent) :
    Machine.Endless step (fun s io => s.admits io = true) s.lulled Loop.lull where
  admitted n := by
    rw [Loop.lull]
    split
    · rfl
    · exact admits_hush _
  next n := (silent.lulled n).2

/-- Nobody gives a sign of life. -/
theorem Silent.unrevived (silent : s.Silent) (n : Nat) (t : Token) :
    ¬((s.lulled n).op (Loop.lull n)).Revives (s.lulled n).broker t := by
  have here := (silent.lulled n).1
  rw [Loop.lull]
  split
  · exact id
  · intro revives
    cases does : (s.lulled n).op Loop.hush with
    | receive k r =>
      rw [does, unread does] at revives
      exact revives
    | packet k p => exact here.unheard k p does
    | _ =>
      rw [does] at revives
      exact revives

/-- Nobody acknowledges anything. -/
theorem Silent.unacknowledged (silent : s.Silent) (n : Nat) (t : Token) (pid : UInt16) :
    ¬((s.lulled n).op (Loop.lull n)).Acknowledges (s.lulled n).broker t pid := by
  rw [Loop.lull]
  split
  · rintro ⟨p, same, -⟩
    cases same
  · rintro ⟨p, same, -⟩
    exact (silent.lulled n).1.unheard t p same

theorem lulled_often (s : Loop) (n : Nat) : ∃ m ≥ n, (s.lulled m).Works (lull m) := by
  refine ⟨2 * n + 1, by omega, ?_⟩
  rw [lull, if_neg (by omega)]
  exact works_hush _

/-- What is flushed is written. -/
theorem lulled_takes {n : Nat} {t : Token} {ws : List WriteResult}
    (flushes : (s.lulled n).op (Loop.lull n) = .flush t ws) : ws = [.ok 65536] := by
  rw [Loop.lull] at flushes
  split at flushes
  · cases flushes
  · have answer := (s.lulled n).op_given { Os.quiet with writes := [.ok 65536] }
    rw [show (s.lulled n).op (.go _) = .flush t ws from flushes] at answer
    exact answer

/-- Time goes on. -/
theorem Silent.passes (silent : s.Silent) (τ : Instant) : ∃ m, τ ≤ (s.lulled m).broker.now := by
  refine ⟨2 * τ, ?_⟩
  induction τ with
  | zero => exact Nat.zero_le _
  | succ n ih =>
    obtain ⟨before, first⟩ := silent.lulled (2 * n)
    obtain ⟨between, second⟩ := silent.lulled (2 * n + 1)
    obtain ⟨b, out, ran, same⟩ := step_ok.mp first
    obtain ⟨b', out', ran', same'⟩ := step_ok.mp second
    have later : (s.lulled (2 * n)).broker.now + secs 1 = b.now := by
      rw [Loop.lull, if_pos (by omega)] at ran
      cases ran
      rfl
    have kept := Op.now_le between.healthy ran'
    rw [same] at kept
    rw [show 2 * (n + 1) = 2 * n + 1 + 1 from rfl, same']
    exact Nat.le_trans (Nat.add_le_add ih (show 1 ≤ secs 1 by decide)) (later ▸ kept)

/-- A run that comes back to its poll, where nothing is to be handled. -/
theorem exists_silent (ios : List Io) (check : Loop → Bool)
    (passed : ((after ios).any fun s =>
      s.idles && (s.broker.clients.iter.all fun e => e.2.cleanSession && e.2.will.isNone) && check s) = true) :
    ∃ s, s.Reachable ∧ s.Silent ∧ check s = true := by
  obtain ⟨s, done, all⟩ := exists_after ios _ passed
  obtain ⟨both, checked⟩ := (Bool.and_eq_true _ _).mp all
  obtain ⟨ended, traceless⟩ := (Bool.and_eq_true _ _).mp both
  have reached := after_reachable done
  refine ⟨s, reached, ⟨reached.healthy, ?_, fun t c found => ?_⟩, checked⟩
  · rw [poll_of_idles ended]
    trivial
  · have both := List.all_eq_true.mp traceless _ ((HashMap.mem_iter _ _ _).mpr found)
    obtain ⟨clean, unwilled⟩ := (Bool.and_eq_true _ _).mp both
    exact ⟨clean, Option.isNone_iff_eq_none.mp unwilled⟩

end Loop
end MioBroker
