import MioBroker.Operations

/-!
# Runs of the process

A run of the event loop is a run of operations, and so a run of acts: whatever every act keeps
holds in every state the process reaches.
-/
namespace MioBroker

open Rust

/-- The broker of a process right after startup. -/
def Broker.Startup (b : Broker) : Prop := ∃ h now file, b = (Broker.new h now file).loadState h

namespace Broker.Startup

variable {b : Broker}

theorem healthy (start : b.Startup) : b.Healthy := by
  obtain ⟨h, now, file, rfl⟩ := start
  exact healthy_startup h now file

/-- The state file brings back retained messages and sessions, no connection and no
subscription. -/
theorem unconnected (start : b.Startup) (t : Token) : b.clients.get? t = none := by
  obtain ⟨h, now, file, rfl⟩ := start
  obtain ⟨_, _, loaded⟩ := (new h now file).loadState_frame h
  rw [loaded]
  rfl

theorem unsubscribed (start : b.Startup) : b.subs = [] := by
  obtain ⟨h, now, file, rfl⟩ := start
  obtain ⟨_, _, loaded⟩ := (new h now file).loadState_frame h
  rw [loaded]
  rfl

end Broker.Startup

/-- The states acts can lead to after startup, in whatever order and with whatever arguments. -/
def Act.Reachable : Broker → Prop := Machine.Reaches Act.run Broker.Startup fun _ _ => True

theorem Act.Reachable.healthy {b : Broker} (reached : Act.Reachable b) : b.Healthy := by
  refine Machine.Reaches.invariant Broker.Healthy ?_ ?_ reached
  · exact fun s start => start.healthy
  · exact fun s a t healthy _ done => healthy.act a done

namespace Loop

theorem Initial.startup {s : Loop} (start : s.Initial) : s.broker.Startup := by
  obtain ⟨h, now, file, retryAfter, rfl⟩ := start
  exact ⟨h, now, file, rfl⟩

theorem Initial.pc {s : Loop} (start : s.Initial) : s.pc = .poll := by
  obtain ⟨h, now, file, retryAfter, rfl⟩ := start
  rfl

/-- A step runs its operation and moves the program point. -/
theorem step_ok {s t : Loop} {io : Io} :
    s.step io = .ok t ↔ ∃ b out, (s.op io).run s.broker = .ok (b, out) ∧
      t = { s with broker := b, pc := s.pcAfter io b out } := by
  simp only [step]
  constructor
  · intro done
    obtain ⟨⟨b, out⟩, ran, done⟩ := Run.bind_ok.mp done
    cases done
    exact ⟨b, out, ran, rfl⟩
  · rintro ⟨b, out, ran, rfl⟩
    rw [ran]
    rfl

/-- The run from `s` to `t` on the inputs `ios`, every operation of it satisfying `ok`. -/
abbrev RunWith (ok : Broker → Op → Prop) : Loop → List Io → Loop → Prop :=
  Machine.Path step fun s io => s.admits io = true ∧ ok s.broker (s.op io)

/-- The runs whose every input the operating system can give. -/
abbrev AdmittedRun : Loop → List Io → Loop → Prop :=
  Machine.Path step fun s io => s.admits io = true

/-- `P` holds of every step on these inputs. -/
abbrev Throughout (s₀ : Loop) (ios : List Io) (P : List Io → Loop → Io → Loop → Prop) : Prop :=
  Machine.EachStep step (fun s io => s.admits io = true) s₀ ios P

/-- The operations of a run. -/
def trace : Loop → List Io → List Op
  | _, [] => []
  | s, io :: ios => s.op io :: match s.step io with
    | .ok t => t.trace ios
    | .error _ => []

theorem trace_single (s : Loop) (io : Io) : s.trace [io] = [s.op io] := by
  rw [trace]
  split <;> rfl

theorem trace_append {ok : Loop → Io → Prop} {s t : Loop} {ios : List Io}
    (path : Machine.Path step ok s ios t) (more : List Io) :
    s.trace (ios ++ more) = s.trace ios ++ t.trace more := by
  induction path generalizing more with
  | nil => rfl
  | snoc io _ _ next ih =>
    rw [List.append_assoc, ih, ih]
    simp [trace, next]

/-- What every act keeps holds at the end of every run. -/
theorem reachable_invariant (inv : Broker → Prop) (start : ∀ b, b.Startup → inv b)
    (kept : ∀ b (a : Act) b', b.Healthy → inv b → a.run b = .ok b' → inv b') {s : Loop}
    (reached : s.Reachable) : s.broker.Healthy ∧ inv s.broker := by
  refine Machine.Reaches.invariant (fun s => s.broker.Healthy ∧ inv s.broker) ?_ ?_ reached
  · exact fun s first => ⟨first.startup.healthy, start _ first.startup⟩
  · rintro s io t ⟨healthy, holds⟩ - done
    obtain ⟨b, out, ran, rfl⟩ := step_ok.mp done
    refine ⟨healthy.op _ ran, ((s.op io).acts healthy ran).keeps healthy inv ?_ holds⟩
    exact fun b a b' healthy holds _ done => kept b a b' healthy holds done

theorem Reachable.healthy {s : Loop} (reached : s.Reachable) : s.broker.Healthy :=
  (reachable_invariant (fun _ => True) (fun _ _ => trivial) (fun _ _ _ _ _ _ => trivial) reached).1

/-- The states of the process are states acts can lead to. -/
theorem Reachable.acts {s : Loop} (reached : s.Reachable) : Act.Reachable s.broker := by
  refine (reachable_invariant Act.Reachable (fun b start => .initial start)
    (fun b a b' _ before done => before.next (i := a) trivial done) reached).2

end Loop
end MioBroker
