import MioBroker.Requests

/-!
# The QoS 0 core, abstractly

What a broker is for when there are no sessions, no wills, no retained messages and no
acknowledged deliveries: a list of subscriptions, and for every connection the packets waiting
to be sent to it, in order and without a bound.
-/
namespace MioBroker

open Rust

/-- A forwarded message: QoS 0, neither repeated nor retained. -/
def forwarded (topic : Str) (payload : Bytes) : Bytes :=
  let body := field topic.bytes ++ payload
  0x30 :: encodeRem body.length ++ body

/-- Packets for one connection only. -/
def addressed (t : Token) (pkts : List Bytes) (k : Token) : List Bytes := if k = t then pkts else []

@[simp] theorem addressed_self (t : Token) (pkts : List Bytes) : addressed t pkts t = pkts :=
  if_pos rfl

@[simp] theorem addressed_nil (t k : Token) : addressed t [] k = [] := ite_self []

theorem addressed_ne {t k : Token} (pkts : List Bytes) (other : k ≠ t) : addressed t pkts k = [] :=
  if_neg other

namespace Request

/-- The requests of the core: a SUBSCRIBE has at most 125 filters. -/
def Core (r : Request) : Prop :=
  r.WellFormed ∧ ∀ pid filters, r = .subscribe pid filters → filters.length ≤ 125

/-- The subscriptions behind a request of `t`. -/
def subscribed (t : Token) (subs : List (Str × Token)) : Request → List (Str × Token)
  | .subscribe _ filters => subs ++ filters.map fun f => (f, t)
  | .unsubscribe _ filters => subs.filter fun s => !(s.2 == t && filters.contains s.1)
  | .disconnect => subs.filter fun s => s.2 != t
  | _ => subs

/-- What the sender is answered. -/
def answer : Request → List Bytes
  | .connect .. => [[0x20, 2, 0, 0]]
  | .subscribe pid filters =>
    [0x90 :: encodeRem (2 + filters.length) ++ (u16ToBe pid ++ List.replicate filters.length 0)]
  | .unsubscribe pid _ => [[0xb0, 2] ++ u16ToBe pid]
  | .publish _ _ (some pid) _ => [[0x40, 2] ++ u16ToBe pid]
  | .publish _ _ none _ => []
  | .pingreq => [[0xd0, 0]]
  | .disconnect => []

/-- The subscriptions of `k` that match. -/
def copies (topic : Str) (subs : List (Str × Token)) (k : Token) : Nat :=
  subs.countP fun s => s.2 = k && topicMatches s.1 topic

/-- What is forwarded to `k`: one copy for every matching subscription. -/
def forwards (subs : List (Str × Token)) (k : Token) : Request → List Bytes
  | .publish _ topic _ payload => List.replicate (copies topic subs k) (forwarded topic payload)
  | _ => []

/-- All that a request of `t` makes the broker send to `k`. -/
def output (r : Request) (subs : List (Str × Token)) (t k : Token) : List Bytes :=
  addressed t r.answer k ++ r.forwards subs k

theorem output_answer (r : Request) (subs : List (Str × Token)) (t : Token)
    (silent : ∀ k, r.forwards subs k = []) : r.output subs t = addressed t r.answer := by
  funext k
  rw [Request.output, silent, List.append_nil]

end Request

/-- The state of the core. -/
structure Flat where
  subs : List (Str × Token)
  /-- `none` when there is no such connection -/
  queues : Token → Option (List Bytes)

namespace Flat

theorem ext {s s' : Flat} (subs : s.subs = s'.subs) (queues : ∀ k, s.queues k = s'.queues k) :
    s = s' := by
  cases s
  cases s'
  cases subs
  cases funext queues
  rfl

def empty : Flat := ⟨[], fun _ => none⟩

/-- A new connection. -/
def accept (s : Flat) (t : Token) : Flat :=
  { s with queues := fun k => if k = t then some [] else s.queues k }

/-- A connection handles one request. -/
def process (s : Flat) (t : Token) (r : Request) : Flat where
  subs := r.subscribed t s.subs
  queues := fun k =>
    match r with
    | .disconnect => if k = t then none else s.queues k
    | r => (s.queues k).map fun q => q ++ r.output s.subs t k

/-- With queues of this size nothing would be lost. -/
def Fits (cap : Nat) (s : Flat) (t : Token) (r : Request) : Prop :=
  ∀ k q, (s.process t r).queues k = some q → q.length ≤ cap

theorem fits_of_output {cap : Nat} {s : Flat} {t : Token} {r : Request}
    (room : ∀ k q, s.queues k = some q → q.length + (r.output s.subs t k).length ≤ cap) :
    s.Fits cap t r := by
  intro k q found
  cases r <;> simp only [process] at found
  case disconnect =>
    split at found
    · cases found
    · exact Nat.le_trans (Nat.le_add_right _ _) (room k q found)
  all_goals
    obtain ⟨before, there, rfl⟩ := Option.map_eq_some_iff.mp found
    rw [List.length_append]
    exact room k before there

/-- The same subscriptions and connections, whatever waits to be sent. -/
structure Alike (s s' : Flat) : Prop where
  subs : s.subs = s'.subs
  connected : ∀ k, (s.queues k).isSome = (s'.queues k).isSome

theorem Alike.accept {s s' : Flat} (alike : s.Alike s') (t : Token) :
    (s.accept t).Alike (s'.accept t) := by
  refine ⟨alike.subs, fun k => ?_⟩
  simp only [Flat.accept]
  split
  · rfl
  · exact alike.connected k

theorem Alike.process {s s' : Flat} (alike : s.Alike s') (t : Token) (r : Request) :
    (s.process t r).Alike (s'.process t r) := by
  refine ⟨congrArg (r.subscribed t) alike.subs, fun k => ?_⟩
  cases r <;> simp only [Flat.process, Option.isSome_map, alike.connected k]
  split
  · rfl
  · exact alike.connected k

/-- What a queue has got from one state to the next, when nothing was taken from it. -/
def appended (s s' : Flat) (k : Token) : List Bytes :=
  match s.queues k, s'.queues k with
  | some q, some q' => q'.drop q.length
  | _, _ => []

theorem appended_process (s : Flat) (t : Token) (r : Request) (k : Token) :
    s.appended (s.process t r) k = if (s.queues k).isSome then r.output s.subs t k else [] := by
  have gone : Request.disconnect.output s.subs t k = [] := by
    simp [Request.output, Request.answer, Request.forwards]
  generalize there : s.queues k = q
  cases q with
  | none => simp [appended, there]
  | some q =>
    cases r <;> simp only [appended, Flat.process, there, Option.map_some, List.drop_left,
      Option.isSome_some, if_true]
    -- a connection that ends gets nothing more, the others get nothing either
    by_cases own : k = t
    · simp only [if_pos own, gone]
    · simp only [if_neg own, List.drop_length, gone]

/-- What a request adds depends on the subscriptions and connections only. -/
theorem Alike.appended {s s' : Flat} (alike : s.Alike s') (t : Token) (r : Request) (k : Token) :
    s.appended (s.process t r) k = s'.appended (s'.process t r) k := by
  rw [appended_process, appended_process, alike.subs, alike.connected]

end Flat
end MioBroker
