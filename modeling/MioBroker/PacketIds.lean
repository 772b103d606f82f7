import MioBroker.Discipline
import MioBroker.Runs

/-!
# Packet ids over long runs

What happens to the window of a connection is a sequence of deliveries and changes. Between two
deliveries under the same packet id there is an acknowledgement with it, however often the counter
has wrapped around.
-/
namespace MioBroker

open Rust

/-- What happens to one connection. -/
inductive Client.Event
  | deliver (now : Instant) (topic : Str) (payload : Bytes) (qos : UInt8) (retain : Bool)
  | change (now : Instant) (ch : Change)

/-- What an event means for the packet ids. -/
inductive Mark
  | handedOut (pid : UInt16)
  | acked (pid : UInt16)
  deriving DecidableEq

namespace Client

variable {c d : Client} {e : Event} {pid : UInt16}

/-- `none` when the connection does not survive. -/
def Event.run (c : Client) : Event → Option Client
  | .deliver now topic payload qos retain =>
    match c.offer now topic payload qos retain with
    | .queued d => some d
    | .refused => some c
    | .dropped => none
  | .change now ch => some (ch.apply now c)

def Event.mark (c : Client) : Event → Option Mark
  | .deliver _ _ _ qos _ => if qos = 0 then none else c.allocPid.2.map .handedOut
  | .change _ (.acked pid) => some (.acked pid)
  | .change _ _ => none

/-- The ids handed out and acknowledged while the connection lasts. -/
def history : Client → List Event → List Mark
  | _, [] => []
  | c, e :: es =>
    match e.run c with
    | some d => (e.mark c).toList ++ history d es
    | none => []

/-- The connection after some events. -/
def after (c : Client) (es : List Event) : Option Client := es.foldlM Event.run c

/-- The message under an id stays in the window until the id is acknowledged. -/
theorem Event.run_spares (run : e.run c = some d) (held : ∃ f, c.inFlight.get? pid = some f) :
    (∃ f, d.inFlight.get? pid = some f) ∨ e.mark c = some (.acked pid) := by
  obtain ⟨f, found⟩ := held
  cases e with
  | deliver now topic payload qos retain =>
    simp only [Event.run] at run
    cases result : c.offer now topic payload qos retain with
    | queued d' =>
      rw [result] at run
      cases run
      exact .inl ⟨f, offer_spares result found⟩
    | refused =>
      rw [result] at run
      cases run
      exact .inl ⟨f, found⟩
    | dropped =>
      rw [result] at run
      cases run
  | change now ch =>
    cases run
    rcases c.entry_change now ch pid with stays | ⟨rfl, -⟩ | ⟨rfl, g, -, -⟩ |
      ⟨pkt, scanned, g, -, -, restarted⟩
    · exact .inl ⟨f, stays.trans found⟩
    · exact .inr rfl
    · obtain ⟨g, there, -⟩ := inWindow_pubrec found pid now
      exact .inl ⟨g, there⟩
    · exact .inl ⟨_, restarted⟩

/-- An id that is handed out was free, and its message is in the window from then on. -/
theorem Event.mark_handedOut (run : e.run c = some d) (handed : e.mark c = some (.handedOut pid)) :
    c.inFlight.get? pid = none ∧ ∃ f, d.inFlight.get? pid = some f := by
  cases e with
  | deliver now topic payload qos retain =>
    simp only [Event.mark] at handed
    split at handed
    · cases handed
    · next reliable =>
      obtain ⟨k, drawn, same⟩ := Option.map_eq_some_iff.mp handed
      cases same
      have room : c.inFlight.size < IN_FLIGHT_CAP := by
        by_contra full
        rw [allocPid_full c (Nat.not_lt.mp full)] at drawn
        cases drawn
      obtain ⟨next, k, alloc, -, free⟩ := allocPid_room c room
      rw [alloc] at drawn
      cases drawn
      refine ⟨free, ?_⟩
      simp only [Event.run, offer, if_neg reliable, alloc] at run
      split at run
      next made =>
        cases run
        split at made
        · cases made
          exact ⟨_, HashMap.get?_insert_self _ _ _⟩
        · cases made
      next made => split at made <;> cases made
      next => cases run
  | change now ch => cases ch <;> cases handed

/-- Where the mark of a history comes from: the first event, with or without marks before it, or a
later one. -/
theorem history_cases {es : List Event} {pre post : List Mark} {m : Mark}
    (split : c.history es = pre ++ m :: post) :
    ∃ e rest d, es = e :: rest ∧ e.run c = some d ∧
      (pre = [] ∧ e.mark c = some m ∧ d.history rest = post ∨
        e.mark c = none ∧ d.history rest = pre ++ m :: post ∨
        ∃ first pre', pre = first :: pre' ∧ e.mark c = some first ∧
          d.history rest = pre' ++ m :: post) := by
  have marked : c.history es ≠ [] := by simp [split]
  cases es with
  | nil => exact absurd rfl marked
  | cons e rest =>
    rw [history] at split marked
    cases run : e.run c with
    | none =>
      rw [run] at marked
      exact absurd rfl marked
    | some d =>
      rw [run] at split
      refine ⟨e, rest, d, rfl, run, ?_⟩
      simp only at split
      cases mark : e.mark c with
      | none =>
        rw [mark] at split
        exact .inr (.inl ⟨rfl, split⟩)
      | some first =>
        rw [mark] at split
        cases pre with
        | nil =>
          obtain ⟨rfl, later⟩ := List.cons.inj split
          exact .inl ⟨rfl, rfl, later⟩
        | cons _ pre =>
          obtain ⟨rfl, later⟩ := List.cons.inj split
          exact .inr (.inr ⟨first, pre, rfl, rfl, later⟩)

/-- An id in use is not handed out before it is acknowledged. -/
theorem handedOut_after_acked (es : List Event) (pre post : List Mark)
    (held : ∃ f, c.inFlight.get? pid = some f)
    (split : c.history es = pre ++ .handedOut pid :: post) : .acked pid ∈ pre := by
  induction es generalizing c pre with
  | nil =>
    obtain ⟨_, _, _, none_left, -⟩ := history_cases split
    cases none_left
  | cons e es ih =>
    obtain ⟨e, rest, d, same, run, place⟩ := history_cases split
    obtain ⟨rfl, rfl⟩ := List.cons.inj same
    have spares := Event.run_spares run held
    rcases place with ⟨-, mark, -⟩ | ⟨mark, later⟩ | ⟨first, pre, rfl, mark, later⟩
    · obtain ⟨f, found⟩ := held
      rw [(Event.mark_handedOut run mark).1] at found
      cases found
    · rw [mark] at spares
      exact ih pre (spares.resolve_right nofun) later
    · rcases spares with held | acked
      · exact List.mem_cons_of_mem _ (ih pre held later)
      · rw [mark] at acked
        cases acked
        exact List.mem_cons_self

/-- What a mark stands for. -/
theorem history_split (es : List Event) (pre post : List Mark) (m : Mark)
    (split : c.history es = pre ++ m :: post) :
    ∃ (d : Client) (e : Event) (d' : Client) (rest : List Event),
      e.run d = some d' ∧ e.mark d = some m ∧ d'.history rest = post := by
  induction es generalizing c pre with
  | nil =>
    obtain ⟨_, _, _, none_left, -⟩ := history_cases split
    cases none_left
  | cons e es ih =>
    obtain ⟨e, rest, d, same, run, place⟩ := history_cases split
    obtain ⟨rfl, rfl⟩ := List.cons.inj same
    rcases place with ⟨-, mark, later⟩ | ⟨-, later⟩ | ⟨_, pre, -, -, later⟩
    · exact ⟨c, e, d, es, run, mark, later⟩
    · exact ih pre later
    · exact ih pre later

/-! ### The connections of the broker -/

theorem after_snoc {es : List Event} (run : c.after es = some d) (e : Event) :
    c.after (es ++ [e]) = e.run d := by
  rw [after] at run
  rw [after, List.foldlM_append, run]
  exact bind_pure (Event.run d e)

theorem Fed.events {now : Instant} {offers : Str → Bytes → UInt8 → Prop} {start : Client}
    (fed : Fed now offers c d) (before : ∃ es, start.after es = some c) :
    ∃ es, start.after es = some d := by
  refine fed.invariant (fun d => ∃ es, start.after es = some d) ?_ before
  rintro c d topic payload qos retain - ⟨es, run⟩ queued
  refine ⟨es ++ [.deliver now topic payload qos retain], ?_⟩
  rw [after_snoc run, Event.run, queued]

end Client

/-- Every connection of the process is what events have made of an accepted one. -/
theorem Loop.Reachable.events {s : Loop} (reached : s.Reachable) {t : Token} {c : Client}
    (found : s.broker.clients.get? t = some c) :
    ∃ h₁ h₂ es, (Client.accepted t h₁ h₂).after es = some c := by
  refine (Loop.reachable_invariant (fun b => ∀ t c, b.clients.get? t = some c →
    ∃ h₁ h₂ es, (Client.accepted t h₁ h₂).after es = some c) ?_ ?_ reached).2 t c found
  · intro b start t c found
    rw [start.unconnected t] at found
    cases found
  · intro b a b' healthy before done t d found
    rcases Act.survivor healthy done found with ⟨h₁, h₂, -, -, rfl⟩ | ⟨c, there, step⟩
    · exact ⟨h₁, h₂, [], rfl⟩
    · obtain ⟨h₁, h₂, es, run⟩ := before t c there
      rcases step with ⟨ch, -, rfl⟩ | fed
      · exact ⟨h₁, h₂, es ++ [.change b.now ch], Client.after_snoc run _⟩
      · exact ⟨h₁, h₂, fed.events ⟨es, run⟩⟩

/-- Allocation fails only when the window is full, an id it finds is free, and over every sequence
of events an id is acknowledged before it is handed out again. -/
theorem packet_ids_fresh :
    (∀ c : Client, c.inFlight.size < IN_FLIGHT_CAP →
      ∃ d pid, c.allocPid = (d, some pid) ∧ 1 ≤ pid.toNat ∧ pid.toNat ≤ 65535 ∧
        c.inFlight.get? pid = none) ∧
    (∀ c : Client, c.allocPid.2 = none ↔ IN_FLIGHT_CAP ≤ c.inFlight.size) ∧
    ∀ (c : Client) (es : List Client.Event) (pre mid post : List Mark) (pid : UInt16),
      c.history es = pre ++ .handedOut pid :: (mid ++ .handedOut pid :: post) →
      .acked pid ∈ mid := by
  refine ⟨fun c room => ?_, fun c => ⟨fun failed => ?_, fun full => ?_⟩, ?_⟩
  · obtain ⟨next, pid, alloc, nonzero, free⟩ := c.allocPid_room room
    have positive : pid.toNat ≠ 0 := fun zero => nonzero (UInt16.toNat_inj.mp zero)
    have := pid.toNat_lt
    exact ⟨_, pid, alloc, by omega, by omega, free⟩
  · by_contra room
    obtain ⟨next, pid, alloc, -⟩ := c.allocPid_room (Nat.not_le.mp room)
    rw [alloc] at failed
    cases failed
  · rw [c.allocPid_full full]
  · intro c es pre mid post pid split
    obtain ⟨d, e, d', rest, run, mark, later⟩ := Client.history_split es pre _ _ split
    exact Client.handedOut_after_acked rest mid post (Client.Event.mark_handedOut run mark).2 later

end MioBroker
