import MioBroker.Overflow

/-!
# When a batch crashes the broker

The packet loop goes on after a PUBLISH has cost its sender its entry in the client map; the
next packet that looks the sender up aborts the process.
-/
namespace MioBroker

open Rust

namespace Broker

variable {b b' : Broker} {t : Token} {p : Packet} {body : Bytes}

/-- In the middle of a batch the sender is dropped by one of its own PUBLISH packets, and a
later packet whose handler needs the sender is reached. -/
def Orphaned (b : Broker) (t : Token) (pkts : List Packet) : Prop :=
  ∃ pre p mid q post b₁ b₂, pkts = pre ++ p :: (mid ++ q :: post) ∧
    dispatchAll t pre b = .ok (b₁, .ok ()) ∧ b₁.DropsSender t p ∧
    dispatchAll t (p :: mid) b₁ = .ok (b₂, .ok ()) ∧ q.NeedsSender b₂

/-- Once the sender is gone the batch panics at the first packet reached that needs it. -/
theorem dispatchAll_absent_panics (healthy : b.Healthy) (absent : b.clients.get? t = none)
    (pkts : List Packet) : (dispatchAll t pkts b).Panics ↔
      ∃ mid q post b₂, pkts = mid ++ q :: post ∧ dispatchAll t mid b = .ok (b₂, .ok ()) ∧
        q.NeedsSender b₂ := by
  constructor
  · intro panics
    induction pkts generalizing b with
    | nil => exact absurd panics (Run.panics_ok _)
    | cons p rest ih =>
      rw [dispatchAll, Run.panics_bind] at panics
      rcases panics with here | ⟨⟨d, r⟩, first, later⟩
      · exact ⟨[], p, rest, b, rfl, rfl, ((dispatch_panics healthy).mp here).2⟩
      · cases r with
        | error e => exact absurd later (Run.panics_ok _)
        | ok =>
          obtain ⟨mid, q, post, b₂, rfl, reached, needs⟩ :=
            ih ((dispatch_acts healthy first).healthy healthy) (dispatch_absent healthy absent first) later
          refine ⟨p :: mid, q, post, b₂, rfl, ?_, needs⟩
          rw [dispatchAll, first, Run.ok_bind]
          exact reached
  · rintro ⟨mid, q, post, b₂, rfl, reached, needs⟩
    rw [dispatchAll_append reached, dispatchAll, Run.panics_bind,
      dispatch_panics (dispatchAll_healthy healthy reached)]
    exact .inl ⟨dispatchAll_absent healthy absent reached, needs⟩

/-- A batch of a connected sender panics exactly when it is orphaned on the way. -/
theorem dispatchAll_panics {c : Client} (healthy : b.Healthy) (found : b.clients.get? t = some c)
    (pkts : List Packet) : (dispatchAll t pkts b).Panics ↔ b.Orphaned t pkts := by
  constructor
  · intro panics
    induction pkts generalizing b c with
    | nil => exact absurd panics (Run.panics_ok _)
    | cons p rest ih =>
      rw [dispatchAll, Run.panics_bind, dispatch_panics healthy] at panics
      rcases panics with ⟨absent, -⟩ | ⟨⟨d, r⟩, first, later⟩
      · simp [found] at absent
      · cases r with
        | error e => exact absurd later (Run.panics_ok _)
        | ok =>
          have healthy' := (dispatch_acts healthy first).healthy healthy
          cases there : d.clients.get? t with
          | some c' =>
            obtain ⟨pre, p', mid, q, post, b₁, b₂, rfl, reached, rest⟩ := ih healthy' there later
            refine ⟨p :: pre, p', mid, q, post, b₁, b₂, rfl, ?_, rest⟩
            rw [dispatchAll, first, Run.ok_bind]
            exact reached
          | none =>
            obtain ⟨mid, q, post, b₂, rfl, reached, needs⟩ :=
              (dispatchAll_absent_panics healthy' there rest).mp later
            refine ⟨[], p, mid, q, post, b, b₂, rfl, rfl,
              (dispatch_drops healthy found first).mp there, ?_, needs⟩
            rw [dispatchAll, first, Run.ok_bind]
            exact reached
  · rintro ⟨pre, p, mid, q, post, b₁, b₂, rfl, reached, drops, after, needs⟩
    have healthy₁ := dispatchAll_healthy healthy reached
    rw [dispatchAll_append reached, dispatchAll, Run.panics_bind]
    simp only [dispatchAll] at after
    obtain ⟨⟨d, r⟩, first, after⟩ := Run.bind_ok.mp after
    cases r with
    | error e => cases after
    | ok =>
      refine .inr ⟨(d, .ok ()), first, ?_⟩
      have healthy₂ := (dispatch_acts healthy₁ first).healthy healthy₁
      have gone : d.clients.get? t = none := by
        cases before : b₁.clients.get? t with
        | none => exact dispatch_absent healthy₁ before first
        | some c' => exact (dispatch_drops healthy₁ before first).mpr drops
      exact (dispatchAll_absent_panics healthy₂ gone _).mpr ⟨mid, q, post, b₂, rfl, after, needs⟩

theorem beginBatch_present {c : Client} (found : b.clients.get? t = some c) :
    ∃ b₁ r, b.beginBatch t = .ok (b₁, r) ∧ ∃ d, b₁.clients.get? t = some d := by
  simp only [beginBatch, found, Run.unwrap_some, Run.ok_bind]
  split
  · exact ⟨_, _, rfl, c, found⟩
  · split
    · exact ⟨_, _, rfl, _, HashMap.get?_insert_self _ _ _⟩
    · exact ⟨_, _, rfl, _, HashMap.get?_insert_self _ _ _⟩

theorem handlePackets_panics {c : Client} (healthy : b.Healthy) (found : b.clients.get? t = some c) :
    (b.handlePackets t).Panics ↔
      ∃ b₁ pkts, b.beginBatch t = .ok (b₁, .ok pkts) ∧ b₁.Orphaned t pkts := by
  obtain ⟨b₁, r, begun, d, there⟩ := beginBatch_present found
  have healthy₁ : b₁.Healthy := (beginBatch_acts begun).healthy healthy
  rw [handlePackets, begun, Run.ok_bind]
  cases r with
  | error e => simp
  | ok pkts =>
    simp only [Run.panics_bind]
    rw [dispatchAll_panics healthy₁ there]
    constructor
    · rintro (orphaned | ⟨⟨d, r⟩, -, panics⟩)
      · exact ⟨b₁, pkts, rfl, orphaned⟩
      · cases r <;> exact absurd panics (Run.panics_ok _)
    · rintro ⟨b₁', pkts', same, orphaned⟩
      cases same
      exact .inl orphaned

end Broker

/-- In every reachable state, for every connection and whatever is in its read buffer: handling
the batch runs to an answer unless the sender is dropped by a PUBLISH of this batch that is
forwarded to the sender itself more often than its window or queue has room for, and a later
packet that needs the sender is reached. -/
theorem batch_answers_iff (s : Loop) (reached : s.Reachable) (t : Token) (c : Client)
    (connected : s.broker.clients.get? t = some c) (buf : Bytes) :
    (∃ r, (s.broker.withBuffer t c buf).handlePackets t = .ok r) ↔
      ¬∃ b₁ pkts, (s.broker.withBuffer t c buf).beginBatch t = .ok (b₁, .ok pkts) ∧
        b₁.Orphaned t pkts := by
  rw [← Run.not_panics_iff, Broker.handlePackets_panics
    (Broker.healthy_withBuffer reached.healthy connected buf) (HashMap.get?_insert_self _ _ _)]

theorem batch_answers_iff_greeted : ∃ (s : Loop) (c : Client), s.Reachable ∧
    s.broker.clients.get? 1 = some c ∧
    ((∃ r, (s.broker.withBuffer 1 c flood).handlePackets 1 = .ok r) ↔
      ¬∃ b₁ pkts, (s.broker.withBuffer 1 c flood).beginBatch 1 = .ok (b₁, .ok pkts) ∧
        b₁.Orphaned 1 pkts) := by
  obtain ⟨s, scan, c, done, -, -, found, -⟩ := exists_filled
  exact ⟨s, c, Loop.after_reachable done, found,
    batch_answers_iff s (Loop.after_reachable done) 1 c found flood⟩

/-- 257 PUBLISH packets to a topic the sender subscribes to at QoS 1, and a PINGREQ. -/
theorem batch_panics :
    ¬∀ s : Loop, s.Reachable → ∀ t c, s.broker.clients.get? t = some c → ∀ buf : Bytes,
      ∃ r, (s.broker.withBuffer t c buf).handlePackets t = .ok r := by
  intro claim
  obtain ⟨s, scan, c, done, -, filled, found, -⟩ := exists_filled
  obtain ⟨r, answered⟩ := claim s (Loop.after_reachable done) 1 c found (flood ++ [0xc0, 0])
  obtain ⟨b₁, begun, filled₁, c₁, found₁⟩ := filled.batch found (flood ++ [0xc0, 0])
    (List.replicate 257 selfPublish ++ [⟨PINGREQ, 0, []⟩]) (by decide) (by decide +kernel)
  obtain ⟨b₂, fill, full, c₂, found₂⟩ := filled₁.publishes found₁ 256 (by decide)
  obtain ⟨b₃, last, -, lost, -⟩ := full.overflow found₂
  have crash :
      (Broker.dispatchAll 1 (List.replicate 257 selfPublish ++ [⟨PINGREQ, 0, []⟩]) b₁).Panics := by
    have all : Broker.dispatchAll 1 (List.replicate 256 selfPublish ++ [selfPublish]) b₁ =
        .ok (b₃, .ok ()) := by
      rw [Broker.dispatchAll_append fill, Broker.dispatchAll, last]
      rfl
    rw [List.replicate_succ', Broker.dispatchAll_append all, Broker.dispatchAll, Run.panics_bind,
      Broker.dispatch_panics lost.healthy]
    exact .inl ⟨lost.gone, .inr (.inr (.inr (.inr (.inr (by decide)))))⟩
  obtain ⟨e, panicked⟩ := crash
  rw [Broker.handlePackets, begun, Run.ok_bind] at answered
  simp only [panicked, Run.error_bind] at answered
  cases answered

end MioBroker
