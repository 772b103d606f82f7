import MioBroker.Discipline

/-!
# What a connection and a session may hold

Queue and window of a connection and the offline queue of a session have fixed caps. Each is
checked where something is pushed, and no other place makes one of them longer.
-/
namespace MioBroker

open Rust

namespace Client

/-- Packet id 0 is never used. -/
def Identified (c : Client) : Prop := ∀ pid e, c.inFlight.get? pid = some e → pid ≠ 0

/-- A change brings no new id into the window. -/
theorem Identified.change {c : Client} (identified : c.Identified) (now : Instant) (ch : Change) :
    (ch.apply now c).Identified := by
  intro pid f after
  by_cases received : ch = .pubrec pid
  · subst received
    cases found : c.inFlight.get? pid with
    | none =>
      have unchanged : c.pubrec pid now = c := pubrec_unexpected (by simp [found])
      rw [Change.apply, unchanged, found] at after
      cases after
    | some e => exact identified pid e found
  · obtain ⟨e, found, -⟩ := entry_before_change received after
    exact identified pid e found

theorem Identified.offer {c d : Client} (identified : c.Identified) {now : Instant} {topic : Str}
    {payload : Bytes} {qos : UInt8} {retain : Bool}
    (done : c.offer now topic payload qos retain = .queued d) : d.Identified := by
  by_cases unreliable : qos = 0
  · subst unreliable
    rw [Identified, (offer_qos0_counts c d now topic payload retain done).2.1]
    exact identified
  · -- `alloc_pid` skips 0
    obtain ⟨pid, next, queue, nonzero, -, -, rfl, -⟩ :=
      offer_reliable c d now topic payload qos retain unreliable done
    exact HashMap.forall_insert identified nonzero

end Client

namespace Broker

variable {b b' : Broker}

/-- `deliver_to` overwrites no entry of any window. -/
theorem deliverTo_spares (b : Broker) (t : Token) (topic : Str) (payload : Bytes) (qos : UInt8)
    (retain : Bool) {k : Token} {c d : Client} (found : b.clients.get? k = some c)
    (after : (b.deliverTo t topic payload qos retain).1.clients.get? k = some d) {pid : UInt16}
    {e : InFlight} (inWindow : c.inFlight.get? pid = some e) : d.inFlight.get? pid = some e := by
  by_cases own : k = t
  · subst own
    cases result : c.offer b.now topic payload qos retain with
    | queued d' =>
      rw [deliverTo_queued b k topic payload qos retain c d' found result] at after
      simp only [HashMap.get?_insert_self, Option.some.injEq] at after
      subst after
      exact Client.offer_spares result inWindow
    | refused =>
      rw [deliverTo_refused b k topic payload qos retain c found result, found] at after
      cases after
      exact inWindow
    | dropped =>
      rw [deliverTo_dropped b k topic payload qos retain c found result] at after
      simp at after
  · -- every other connection is as it was
    rw [deliverTo_get?_ne b t k topic payload qos retain own, found] at after
    cases after
    exact inWindow

/-- Windows use proper ids, and offline queues are within their cap. -/
structure InCaps (b : Broker) : Prop where
  identified : ∀ t c, b.clients.get? t = some c → c.Identified
  offline : ∀ cid sess, b.sessions.get? cid = some sess → sess.offline.length ≤ OFFLINE_CAP

theorem length_departure {t : Token} {c : Client} (offline : List (Str × Bytes × UInt8))
    (before : ∀ sess, b.sessions.get? c.clientId = some sess → sess.offline.length ≤ OFFLINE_CAP) :
    (b.departure t c offline).offline.length ≤ OFFLINE_CAP := by
  have old : ((b.sessions.get? c.clientId).getD ⟨[], []⟩).offline.length ≤ OFFLINE_CAP := by
    cases found : b.sessions.get? c.clientId with
    | none => exact Nat.zero_le _
    | some sess => exact before sess found
  -- only what is left of the cap is filled
  rw [departure, foldl_addCapped, List.length_append, List.length_take]
  omega

theorem length_enqueue {sess : SessionState} (topic : Str) (payload : Bytes) (qos : UInt8)
    (capped : sess.offline.length ≤ OFFLINE_CAP) :
    (sess.enqueue topic payload qos).offline.length ≤ OFFLINE_CAP := by
  simp only [SessionState.enqueue]
  split
  · exact length_addCapped _ _ capped
  · exact capped

/-- Every act keeps to the caps. -/
theorem InCaps.act {a : Act} (inCaps : b.InCaps) (healthy : b.Healthy) (done : a.run b = .ok b') :
    b'.InCaps := by
  constructor
  · apply Act.each_client Client.Identified healthy done
    · exact fun t h₁ h₂ pid e found => by simp [Client.accepted] at found
    · exact fun t ch c _ identified => identified.change b.now ch
    · exact fun c d topic payload qos retain _ identified queued => identified.offer queued
    · exact inCaps.identified
  · -- a session is as before, has one message more, or was just stored
    intro cid sess stored
    rcases Act.session_origin healthy done stored with
      old | ⟨topic, payload, qos, retain, before, -, there, rfl⟩ |
        ⟨t, c, offline, -, -, -, rfl, -, rfl⟩
    · exact inCaps.offline cid sess old
    · exact length_enqueue topic payload qos (inCaps.offline cid before there)
    · exact length_departure offline (inCaps.offline _)

theorem inCaps_empty {b : Broker} (start : b.Startup) (empty : b.sessions.isEmpty = true) :
    b.InCaps := by
  constructor
  · intro t c found
    cases (start.unconnected t).symm.trans found
  · intro cid sess stored
    rw [(HashMap.isEmpty_iff _).mp empty cid] at stored
    cases stored

end Broker

namespace Loop

/-- In every run that starts without sessions, queues, windows and offline queues are within
their caps, and `deliver_to` inserts under free ids. -/
theorem caps_hold (s₀ s : Loop) (ios : List Io) (start : s₀.Initial)
    (empty : s₀.broker.sessions.isEmpty = true) (run : AdmittedRun s₀ ios s) :
    (∀ t c, s.broker.clients.get? t = some c →
      c.writeQueue.length ≤ 8192 ∧ c.inFlight.size ≤ 256 ∧
        ∀ pid e, c.inFlight.get? pid = some e → 1 ≤ pid.toNat ∧ pid.toNat ≤ 65535) ∧
    (∀ cid sess, s.broker.sessions.get? cid = some sess → sess.offline.length ≤ 1024) ∧
    ∀ (b : Broker) t topic payload qos retain k c d pid e, b.clients.get? k = some c →
      (b.deliverTo t topic payload qos retain).1.clients.get? k = some d →
      c.inFlight.get? pid = some e → d.inFlight.get? pid = some e := by
  -- Both invariants are kept act by act, the second on top of the first.
  have both : s.broker.Healthy ∧ s.broker.InCaps := by
    refine run.invariant (fun s => s.broker.Healthy ∧ s.broker.InCaps) ?_ ?_
    · rintro s io t ⟨healthy, inCaps⟩ - next
      obtain ⟨b, out, ran, rfl⟩ := step_ok.mp next
      refine ⟨healthy.op _ ran, ((s.op io).acts healthy ran).keeps healthy Broker.InCaps ?_ inCaps⟩
      exact fun _ _ _ healthy inCaps _ done => inCaps.act healthy done
    · exact ⟨start.startup.healthy, Broker.inCaps_empty start.startup empty⟩
  obtain ⟨healthy, inCaps⟩ := both
  refine ⟨fun t c found => ⟨(healthy.capped t c found).queue, (healthy.capped t c found).window, ?_⟩,
    inCaps.offline, ?_⟩
  · intro pid e inWindow
    have nonzero : pid.toNat ≠ 0 := fun zero =>
      inCaps.identified t c found pid e inWindow (UInt16.toNat_inj.mp zero)
    have below := pid.toNat_lt
    omega
  · intro b t topic payload qos retain k c d pid e found after inWindow
    exact b.deliverTo_spares t topic payload qos retain found after inWindow

/-- The caps in a run with a message in flight. -/
theorem caps_hold_answered : ∃ s c, AdmittedRun fresh (answered [] 0) s ∧
    s.broker.clients.get? 1 = some c ∧ c.inFlight.size = 1 ∧ c.writeQueue.length ≤ 8192 := by
  obtain ⟨s, done, checked⟩ := exists_after (answered [] 0) (fun s =>
    (s.broker.clients.get? 1).any fun c => c.inFlight.size == 1) (by decide +kernel)
  obtain ⟨c, found, size⟩ := (Option.any_eq_true _ _).mp checked
  have within := caps_hold fresh s _ fresh_initial (by decide +kernel) (after_path done)
  exact ⟨s, c, after_path done, found, beq_iff_eq.mp size, (within.1 1 c found).1⟩

end Loop
end MioBroker
