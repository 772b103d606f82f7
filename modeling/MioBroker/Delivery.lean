import MioBroker.Window
import MioBroker.Handler

/-!
# Delivery to one client

`deliver_to` touches one entry of the client map only, so what a sequence of deliveries does
to a client can be said of that client alone: `offer` for one message, `serve` for the
messages one `publish` forwards to it.
-/
namespace MioBroker

open Rust

/-- What becomes of a client that is offered one message. -/
inductive Offer
  | queued (c : Client)
  /-- unreliable message, queue full: the client stays -/
  | refused
  /-- window or queue exhausted by reliable traffic: the client is erased -/
  | dropped

namespace Client

def offer (c : Client) (now : Instant) (topic : Str) (payload : Bytes) (qos : UInt8)
    (retain : Bool) : Offer :=
  if qos = 0 then
    match c.queueQos0 (buildForward topic.bytes payload 0 none false retain) with
    | (c, true) => .queued c
    | (_, false) => .refused
  else
    match c.allocPid with
    | (c, some pid) =>
      let pkt := buildForward topic.bytes payload qos (some pid) false retain
      match c.queueQos1 pkt with
      | (c, .ok ()) => .queued { c with inFlight := c.inFlight.insert pid ⟨pkt, now, 0, qos == 2, false⟩ }
      | (_, .error ()) => .dropped
    | (_, none) => .dropped

/-- The queue never exceeds its cap. -/
def Bounded (c : Client) : Prop := c.writeQueue.length ≤ WRITE_QUEUE_CAP

theorem reliable_le (c : Client) (bounded : c.Bounded) : c.reliable ≤ WRITE_QUEUE_CAP :=
  Nat.le_trans List.countP_le_length bounded

theorem offer_qos0_room (c : Client) (now : Instant) (topic : Str) (payload : Bytes) (retain : Bool)
    (room : c.writeQueue.length < WRITE_QUEUE_CAP) :
    c.offer now topic payload 0 retain = .queued { c with
      writeQueue := c.writeQueue ++ [(false, buildForward topic.bytes payload 0 none false retain)] } := by
  simp [offer, queueQos0_ok c _ room]

theorem offer_qos0_full (c : Client) (now : Instant) (topic : Str) (payload : Bytes) (retain : Bool)
    (full : WRITE_QUEUE_CAP ≤ c.writeQueue.length) :
    c.offer now topic payload 0 retain = .refused := by
  simp [offer, queueQos0_full c _ full]

/-- An accepted reliable message: a fresh packet id, one reliable entry at the end of the
queue, one window entry with the same packet. -/
theorem offer_reliable (c d : Client) (now : Instant) (topic : Str) (payload : Bytes) (qos : UInt8)
    (retain : Bool) (isReliable : qos ≠ 0) (done : c.offer now topic payload qos retain = .queued d) :
    ∃ pid next queue,
      pid ≠ 0 ∧ c.inFlight.get? pid = none ∧ c.inFlight.size < IN_FLIGHT_CAP ∧
      d = { c with
        nextPid := next
        writeQueue := queue ++ [(true, buildForward topic.bytes payload qos (some pid) false retain)]
        inFlight := c.inFlight.insert pid
          ⟨buildForward topic.bytes payload qos (some pid) false retain, now, 0, qos == 2, false⟩ } ∧
      queue.filter Prod.fst = c.writeQueue.filter Prod.fst ∧
      queue.length < WRITE_QUEUE_CAP ∧ queue.length ≤ c.writeQueue.length ∧
      (c.Bounded → queue.length + 1 = min WRITE_QUEUE_CAP (c.writeQueue.length + 1)) := by
  simp only [offer, if_neg isReliable] at done
  -- The id is drawn first: a full window gives none, and the client is dropped.
  by_cases room : c.inFlight.size < IN_FLIGHT_CAP
  · obtain ⟨next, pid, alloc, nonzero, fresh⟩ := allocPid_room c room
    rw [alloc] at done
    simp only at done
    split at done
    next e made =>
      obtain ⟨queue, rfl, filtered, short, le, exact_length⟩ := queueQos1_spec _ _ _ made
      cases done
      exact ⟨pid, next, queue, nonzero, fresh, room, rfl, filtered, short, le, exact_length⟩
    next => cases done
  · rw [allocPid_full c (Nat.not_lt.mp room)] at done
    cases done

/-- A reliable message is accepted exactly while window and queue have room. -/
theorem offer_reliable_iff (c : Client) (now : Instant) (topic : Str) (payload : Bytes) (qos : UInt8)
    (retain : Bool) (isReliable : qos ≠ 0) (bounded : c.Bounded) :
    (∃ d, c.offer now topic payload qos retain = .queued d) ↔
      c.inFlight.size < IN_FLIGHT_CAP ∧ c.reliable < WRITE_QUEUE_CAP := by
  by_cases room : c.inFlight.size < IN_FLIGHT_CAP
  · obtain ⟨next, pid, alloc, -⟩ := allocPid_room c room
    have same := queueQos1_ok_iff { c with nextPid := next }
      (buildForward topic.bytes payload qos (some pid) false retain) bounded
    simp only [offer, if_neg isReliable, alloc, room, true_and]
    rw [show c.reliable = ({ c with nextPid := next } : Client).reliable from rfl, ← same]
    rcases ({ c with nextPid := next } : Client).queueQos1 _ with ⟨d, r⟩
    rcases r with ⟨⟨⟩⟩ | ⟨⟨⟩⟩ <;> simp
  · simp [offer, isReliable, allocPid_full c (Nat.not_lt.mp room), room]

/-- A reliable message is queued or costs the client its connection; it is never refused. -/
theorem offer_reliable_ne_refused (c : Client) (now : Instant) (topic : Str) (payload : Bytes)
    (qos : UInt8) (retain : Bool) (isReliable : qos ≠ 0) :
    c.offer now topic payload qos retain ≠ .refused := by
  simp only [offer, if_neg isReliable]
  split
  · split <;> simp
  · simp

/-- Delivery leaves everything but queue, window and id counter alone. -/
structure Offered (c d : Client) : Prop where
  frame : d = { c with writeQueue := d.writeQueue, nextPid := d.nextPid, inFlight := d.inFlight }

theorem Offered.refl (c : Client) : Offered c c := ⟨rfl⟩

theorem Offered.trans {c d e : Client} (first : Offered c d) (second : Offered d e) :
    Offered c e := by
  constructor
  rw [second.frame, first.frame]

theorem offered_of_offer (c d : Client) (now : Instant) (topic : Str) (payload : Bytes)
    (qos : UInt8) (retain : Bool) (done : c.offer now topic payload qos retain = .queued d) :
    Offered c d := by
  by_cases unreliable : qos = 0
  · subst unreliable
    by_cases room : c.writeQueue.length < WRITE_QUEUE_CAP
    · rw [offer_qos0_room c now topic payload retain room] at done
      cases done
      exact ⟨rfl⟩
    · rw [offer_qos0_full c now topic payload retain (Nat.not_lt.mp room)] at done
      cases done
  · obtain ⟨pid, next, queue, -, -, -, rfl, -⟩ :=
      offer_reliable c d now topic payload qos retain unreliable done
    exact ⟨rfl⟩

/-- What the deliveries of one `publish` make of one client; `none` when it is gone. -/
def serve (now : Instant) (topic : Str) (payload : Bytes) : List UInt8 → Option Client → Option Client
  | [], slot => slot
  | _ :: _, none => none
  | q :: qs, some c =>
    match c.offer now topic payload q false with
    | .queued d => serve now topic payload qs (some d)
    | .refused => serve now topic payload qs (some c)
    | .dropped => none

/-- How many of these deliveries fail. -/
def failures (now : Instant) (topic : Str) (payload : Bytes) : List UInt8 → Option Client → Nat
  | [], _ => 0
  | _ :: qs, none => qs.length + 1
  | q :: qs, some c =>
    match c.offer now topic payload q false with
    | .queued d => failures now topic payload qs (some d)
    | .refused => failures now topic payload qs (some c) + 1
    | .dropped => qs.length + 1

@[simp] theorem serve_none (now : Instant) (topic : Str) (payload : Bytes) (qs : List UInt8) :
    serve now topic payload qs none = none := by
  cases qs <;> rfl

@[simp] theorem failures_none (now : Instant) (topic : Str) (payload : Bytes) (qs : List UInt8) :
    failures now topic payload qs none = qs.length := by
  cases qs <;> rfl

theorem serve_cons (now : Instant) (topic : Str) (payload : Bytes) (q : UInt8) (qs : List UInt8)
    (slot : Option Client) :
    serve now topic payload (q :: qs) slot =
      serve now topic payload qs (serve now topic payload [q] slot) := by
  cases slot with
  | none => simp
  | some c =>
    simp only [serve]
    cases c.offer now topic payload q false <;> simp

theorem failures_cons (now : Instant) (topic : Str) (payload : Bytes) (q : UInt8)
    (qs : List UInt8) (slot : Option Client) :
    failures now topic payload (q :: qs) slot = failures now topic payload [q] slot +
      failures now topic payload qs (serve now topic payload [q] slot) := by
  cases slot with
  | none => simp [Nat.add_comm]
  | some c =>
    simp only [serve, failures]
    cases c.offer now topic payload q false <;> simp [Nat.add_comm]

/-- A predicate on clients that every accepted message keeps survives a `publish`. -/
theorem serve_induction (P : Client → Prop) (now : Instant) (topic : Str) (payload : Bytes)
    (qs : List UInt8) (c d : Client)
    (kept : ∀ c d q, q ∈ qs → P c → c.offer now topic payload q false = .queued d → P d)
    (start : P c) (served : serve now topic payload qs (some c) = some d) : P d := by
  induction qs generalizing c with
  | nil =>
    cases served
    exact start
  | cons q qs ih =>
    simp only [serve] at served
    split at served
    next e queued =>
      exact ih e (fun c d q member => kept c d q (by simp [member]))
        (kept c e q (by simp) start queued) served
    next => exact ih c (fun c d q member => kept c d q (by simp [member])) start served
    next => cases served

theorem offered_of_serve (now : Instant) (topic : Str) (payload : Bytes) (qs : List UInt8)
    (c d : Client) (served : serve now topic payload qs (some c) = some d) : Offered c d :=
  serve_induction (Offered c) now topic payload qs c d
    (fun e f q _ before queued => before.trans (offered_of_offer e f now topic payload q false queued))
    (.refl c) served

/-- The window and the queue after an accepted reliable message. -/
theorem offer_reliable_counts (c d : Client) (now : Instant) (topic : Str) (payload : Bytes)
    (qos : UInt8) (retain : Bool) (isReliable : qos ≠ 0) (bounded : c.Bounded)
    (done : c.offer now topic payload qos retain = .queued d) :
    d.inFlight.size = c.inFlight.size + 1 ∧ d.reliable = c.reliable + 1 ∧
      d.writeQueue.length = min WRITE_QUEUE_CAP (c.writeQueue.length + 1) := by
  obtain ⟨pid, next, queue, -, fresh, -, rfl, filtered, -, -, exact_length⟩ :=
    offer_reliable c d now topic payload qos retain isReliable done
  refine ⟨HashMap.size_insert_new _ _ _ fresh, ?_, ?_⟩
  · have same : queue.countP Prod.fst = c.writeQueue.countP Prod.fst := by
      rw [List.countP_eq_length_filter, List.countP_eq_length_filter, filtered]
    simp [reliable, List.countP_append, same]
  · have len := exact_length bounded
    simpa using len

theorem offer_qos0_counts (c d : Client) (now : Instant) (topic : Str) (payload : Bytes)
    (retain : Bool) (done : c.offer now topic payload 0 retain = .queued d) :
    c.writeQueue.length < WRITE_QUEUE_CAP ∧ d.inFlight = c.inFlight ∧ d.reliable = c.reliable ∧
      d.writeQueue.length = c.writeQueue.length + 1 := by
  by_cases room : c.writeQueue.length < WRITE_QUEUE_CAP
  · rw [offer_qos0_room c now topic payload retain room] at done
    cases done
    exact ⟨room, rfl, by simp [reliable, List.countP_append], by simp⟩
  · rw [offer_qos0_full c now topic payload retain (Nat.not_lt.mp room)] at done
    cases done

theorem bounded_of_offer (c d : Client) (now : Instant) (topic : Str) (payload : Bytes)
    (qos : UInt8) (retain : Bool) (bounded : c.Bounded)
    (done : c.offer now topic payload qos retain = .queued d) : d.Bounded := by
  by_cases unreliable : qos = 0
  · subst unreliable
    obtain ⟨room, -, -, len⟩ := offer_qos0_counts c d now topic payload retain done
    rw [Bounded, len]
    exact room
  · have len := (offer_reliable_counts c d now topic payload qos retain unreliable bounded done).2.2
    rw [Bounded, len]
    exact Nat.min_le_left _ _

/-- Number of reliable messages in a list of forward QoS. -/
def reliableCount (qs : List UInt8) : Nat := qs.countP (· ≠ 0)

/-- The deliveries of one `publish` cost a client its connection exactly when the reliable
ones exceed its window or its queue. -/
theorem serve_eq_none_iff (now : Instant) (topic : Str) (payload : Bytes) (qs : List UInt8)
    (c : Client) (bounded : c.Bounded) (window : c.inFlight.size ≤ IN_FLIGHT_CAP) :
    serve now topic payload qs (some c) = none ↔
      IN_FLIGHT_CAP < c.inFlight.size + reliableCount qs ∨
        WRITE_QUEUE_CAP < c.reliable + reliableCount qs := by
  have queue := reliable_le c bounded
  induction qs generalizing c with
  | nil =>
    simp only [serve, reliableCount, List.countP_nil, reduceCtorEq, false_iff]
    omega
  | cons q qs ih =>
    simp only [serve]
    by_cases unreliable : q = 0
    · -- A forward below QoS 1 is queued or lost; either way the client stays.
      subst unreliable
      have count : reliableCount (0 :: qs) = reliableCount qs := by simp [reliableCount]
      rw [count]
      by_cases room : c.writeQueue.length < WRITE_QUEUE_CAP
      · have queued := offer_qos0_room c now topic payload false room
        obtain ⟨-, inFlight, reliable, -⟩ := offer_qos0_counts _ _ _ _ _ _ queued
        have bounded' := bounded_of_offer _ _ _ _ _ _ _ bounded queued
        have step := ih _ bounded' window (reliable_le _ bounded')
        rw [queued]
        exact step.trans (by rw [inFlight, reliable])
      · rw [offer_qos0_full c now topic payload false (Nat.not_lt.mp room)]
        exact ih c bounded window queue
    · have count : reliableCount (q :: qs) = reliableCount qs + 1 := by
        simp [reliableCount, unreliable]
      -- A reliable forward takes one place in the window and one among the reliable entries.
      have accepted := offer_reliable_iff c now topic payload q false unreliable bounded
      cases result : c.offer now topic payload q false with
      | queued d =>
        obtain ⟨sizes, reliable, -⟩ :=
          offer_reliable_counts c d now topic payload q false unreliable bounded result
        have bounded' := bounded_of_offer _ _ _ _ _ _ _ bounded result
        have room := accepted.mp ⟨d, result⟩
        have step := ih d bounded' (by omega) (reliable_le _ bounded')
        refine step.trans ?_
        rw [sizes, reliable, count]
        omega
      | refused => exact absurd result (offer_reliable_ne_refused c now topic payload q false unreliable)
      | dropped =>
        have full : ¬(c.inFlight.size < IN_FLIGHT_CAP ∧ c.reliable < WRITE_QUEUE_CAP) := by
          rw [← accepted, result]
          simp
        simp only [true_iff]
        omega

/-- A client that stays misses a message exactly when an unreliable one meets a full queue. -/
theorem failures_eq_zero_iff (now : Instant) (topic : Str) (payload : Bytes) (qs : List UInt8)
    (c d : Client) (bounded : c.Bounded) (served : serve now topic payload qs (some c) = some d) :
    failures now topic payload qs (some c) = 0 ↔
      ∀ j : Nat, qs[j]? = some 0 → c.writeQueue.length + j < WRITE_QUEUE_CAP := by
  induction qs generalizing c with
  | nil => simp [failures]
  | cons q qs ih =>
    simp only [serve] at served
    simp only [failures]
    -- The first forward meets the queue as it is, the ones behind it one entry later.
    have shift : (∀ j : Nat, (q :: qs)[j]? = some 0 → c.writeQueue.length + j < WRITE_QUEUE_CAP) ↔
        (q = 0 → c.writeQueue.length < WRITE_QUEUE_CAP) ∧
          ∀ j : Nat, qs[j]? = some 0 → c.writeQueue.length + (j + 1) < WRITE_QUEUE_CAP := by
      constructor
      · intro all
        exact ⟨fun zero => all 0 (by simp [zero]), fun j at_j => all (j + 1) (by simpa using at_j)⟩
      · rintro ⟨first, rest⟩ j at_j
        cases j with
        | zero => exact first (by simpa using at_j)
        | succ j => exact rest j (by simpa using at_j)
    rw [shift]
    cases result : c.offer now topic payload q false with
    | queued e =>
      rw [result] at served
      have bounded' := bounded_of_offer _ _ _ _ _ _ _ bounded result
      simp only
      rw [ih e bounded' served]
      by_cases unreliable : q = 0
      · subst unreliable
        obtain ⟨room, -, -, len⟩ := offer_qos0_counts _ _ _ _ _ _ result
        rw [len]
        refine ⟨fun rest => ⟨fun _ => room, fun j at_j => ?_⟩, fun rest j at_j => ?_⟩
        · have := rest j at_j
          omega
        · have := rest.2 j at_j
          omega
      · have len := (offer_reliable_counts _ _ _ _ _ _ _ unreliable bounded result).2.2
        rw [len]
        refine ⟨fun rest => ⟨fun zero => absurd zero unreliable, fun j at_j => ?_⟩,
          fun rest j at_j => ?_⟩
        · have := rest j at_j
          have := bounded
          simp only [Bounded] at this
          omega
        · have := rest.2 j at_j
          omega
    | refused =>
      have unreliable : q = 0 := by
        by_contra isReliable
        exact offer_reliable_ne_refused c now topic payload q false isReliable result
      subst unreliable
      have full : ¬c.writeQueue.length < WRITE_QUEUE_CAP := fun room => by
        rw [offer_qos0_room c now topic payload false room] at result
        cases result
      simp [full]
    | dropped =>
      rw [result] at served
      cases served

end Client

namespace Broker

/-- `deliver_to` in terms of the one client it looks up. -/
theorem deliverTo_eq (b : Broker) (token : Token) (topic : Str) (payload : Bytes) (qos : UInt8)
    (retain : Bool) :
    b.deliverTo token topic payload qos retain =
      match b.clients.get? token with
      | none => (b, .error ())
      | some c =>
        match c.offer b.now topic payload qos retain with
        | .queued d =>
          ({ b with
            clients := b.clients.insert token d
            sysPubSent := b.sysPubSent + 1
            deliverLog := b.deliverLog ++ [d.delivery topic payload qos] }, .ok ())
        | .refused => (b, .error ())
        | .dropped => ({ b with clients := b.clients.erase token }, .error ()) := by
  simp only [deliverTo, Client.offer]
  -- The source looks the client up in both branches of the QoS.
  cases b.clients.get? token with
  | none => split <;> rfl
  | some c =>
    simp only
    split
    · rcases c.queueQos0 _ with ⟨d, ok⟩
      cases ok <;> rfl
    · rcases c.allocPid with ⟨d, pid⟩
      cases pid with
      | none => rfl
      | some pid =>
        simp only
        rcases d.queueQos1 _ with ⟨e, r⟩
        rcases r with ⟨⟨⟩⟩ | ⟨⟨⟩⟩ <;> rfl

section Cases

variable (b : Broker) (token : Token) (topic : Str) (payload : Bytes) (qos : UInt8) (retain : Bool)

theorem deliverTo_absent (found : b.clients.get? token = none) :
    b.deliverTo token topic payload qos retain = (b, .error ()) := by
  rw [deliverTo_eq, found]

theorem deliverTo_queued (c d : Client) (found : b.clients.get? token = some c)
    (result : c.offer b.now topic payload qos retain = .queued d) :
    b.deliverTo token topic payload qos retain =
      ({ b with
        clients := b.clients.insert token d
        sysPubSent := b.sysPubSent + 1
        deliverLog := b.deliverLog ++ [d.delivery topic payload qos] }, .ok ()) := by
  rw [deliverTo_eq, found]
  simp only [result]

theorem deliverTo_refused (c : Client) (found : b.clients.get? token = some c)
    (result : c.offer b.now topic payload qos retain = .refused) :
    b.deliverTo token topic payload qos retain = (b, .error ()) := by
  rw [deliverTo_eq, found]
  simp only [result]

theorem deliverTo_dropped (c : Client) (found : b.clients.get? token = some c)
    (result : c.offer b.now topic payload qos retain = .dropped) :
    b.deliverTo token topic payload qos retain =
      ({ b with clients := b.clients.erase token }, .error ()) := by
  rw [deliverTo_eq, found]
  simp only [result]

end Cases

/-- An answer of `deliver_to` as a number of lost messages. -/
def lost : Except Unit Unit → Nat
  | .ok () => 0
  | .error () => 1

/-- One delivery serves one slot of the client map with one message. -/
theorem deliverTo_spec (b : Broker) (token : Token) (topic : Str) (payload : Bytes) (qos : UInt8) :
    ∃ clients sent log answer,
      b.deliverTo token topic payload qos false =
        ({ b with clients := clients, sysPubSent := sent, deliverLog := log }, answer) ∧
      (∀ t, clients.get? t =
        if t = token then Client.serve b.now topic payload [qos] (b.clients.get? t)
        else b.clients.get? t) ∧
      Client.failures b.now topic payload [qos] (b.clients.get? token) = lost answer := by
  rw [deliverTo_eq]
  cases found : b.clients.get? token with
  | none =>
    refine ⟨_, _, _, _, rfl, fun t => ?_, rfl⟩
    split
    next same => simp [same, found]
    next => rfl
  | some c =>
    simp only [Client.failures]
    cases result : c.offer b.now topic payload qos false with
    | queued d =>
      refine ⟨_, _, _, _, rfl, fun t => ?_, rfl⟩
      rw [HashMap.get?_insert]
      split
      next same => simp [same, found, Client.serve, result]
      next => rfl
    -- A refusal leaves the record alone, an overflow empties its slot.
    | refused =>
      refine ⟨_, _, _, _, rfl, fun t => ?_, rfl⟩
      split
      next same => simp [same, found, Client.serve, result]
      next => rfl
    | dropped =>
      refine ⟨_, _, _, _, rfl, fun t => ?_, rfl⟩
      rw [HashMap.get?_erase]
      split
      next same => simp [same, found, Client.serve, result]
      next => rfl

/-- Delivery changes the client map, one counter and the log, nothing else. -/
theorem deliverTo_frame (b : Broker) (token : Token) (topic : Str) (payload : Bytes) (qos : UInt8)
    (retain : Bool) :
    ∃ clients sent log, (b.deliverTo token topic payload qos retain).1 =
      { b with clients := clients, sysPubSent := sent, deliverLog := log } := by
  rw [deliverTo_eq]
  split
  · exact ⟨_, _, _, rfl⟩
  · split <;> exact ⟨_, _, _, rfl⟩

/-- Delivery to one client leaves the others alone. -/
theorem deliverTo_get?_ne (b : Broker) (token t : Token) (topic : Str) (payload : Bytes)
    (qos : UInt8) (retain : Bool) (ne : t ≠ token) :
    (b.deliverTo token topic payload qos retain).1.clients.get? t = b.clients.get? t := by
  rw [deliverTo_eq]
  split
  · rfl
  · split
    · exact HashMap.get?_insert_ne _ _ ne
    · rfl
    · exact HashMap.get?_erase_ne _ ne

end Broker
end MioBroker
