import MioBroker.Runs

/-!
# Concrete runs

A process without a state file, and how a list of inputs that runs through shows that a state
is reachable.
-/
namespace MioBroker

open Rust

namespace Loop

/-- A process started without a state file. -/
def fresh : Loop := init ⟨default, default, default, default⟩ 0 ⟨none, none⟩ (millis 10000)

theorem fresh_initial : fresh.Initial := ⟨_, _, _, _, rfl⟩

theorem fresh_reachable : fresh.Reachable := Machine.Reaches.initial fresh_initial

/-- The state behind a list of inputs, if every input is admitted and nothing panics. -/
def after (ios : List Io) : Option Loop := Machine.runChecked step admits fresh ios

theorem after_path {ios : List Io} {s : Loop} (done : after ios = some s) :
    Machine.Path step (fun s io => s.admits io = true) fresh ios s :=
  Machine.runChecked_path step admits fresh s ios done

theorem after_reachable {ios : List Io} {s : Loop} (done : after ios = some s) : s.Reachable :=
  ⟨fresh, ios, fresh_initial, after_path done⟩

/-- A run that ends in a state passing a check. -/
theorem exists_after (ios : List Io) (check : Loop → Bool) (passed : (after ios).any check = true) :
    ∃ s, after ios = some s ∧ check s = true := by
  simpa [Option.any_eq_true] using passed

/-- The next step succeeds, into a state passing a check. -/
def steps (s : Loop) (io : Io) (check : Loop → Bool) : Bool :=
  match s.step io with
  | .ok t => check t
  | .error _ => false

theorem steps_ok {s : Loop} {io : Io} {check : Loop → Bool} (passed : s.steps io check = true) :
    ∃ t, s.step io = .ok t ∧ check t = true := by
  rw [steps] at passed
  split at passed
  next t done => exact ⟨t, done, passed⟩
  next => cases passed

end Loop

/-- The listener reports a connection, and nobody else anything. -/
def Pc.listens : Pc → Bool
  | .events [.listener] => true
  | _ => false

theorem Pc.eq_of_listens {pc : Pc} (listens : pc.listens = true) : pc = .events [.listener] := by
  unfold Pc.listens at listens
  split at listens
  next => rfl
  next => cases listens

/-- The operating system has nothing to report. -/
def Os.quiet : Os := ⟨[], none, .wouldBlock, []⟩

namespace Io

def quiet : Io := .go .quiet

/-- The poll reports a new connection. -/
def listen : Io := .go { Os.quiet with events := [.listener] }

def connection : Io := .go { Os.quiet with accept := some (default, default) }

/-- The poll reports these events. -/
def poll (events : List Event) : Io := .go { Os.quiet with events }

def read (chunk : Bytes) : Io := .go { Os.quiet with read := .ok chunk }

def write (ws : List WriteResult) : Io := .go { Os.quiet with writes := ws }

end Io

theorem Loop.admits_quiet (s : Loop) : s.admits .quiet = true := by
  simp only [admits, Io.quiet, Os.quiet, Bool.and_true]
  split <;> rfl

/-- CONNECT with level 4, keepalive 0, the given flags and a one-byte client id. -/
def connectBytes (flags id : UInt8) : Bytes :=
  [0x10, 13, 0, 4, 77, 81, 84, 84, 4, flags, 0, 0, 0, 1, id]

end MioBroker
