import MioBroker.Acts

/-!
# The deliveries an operation makes

`deliver_to` is reached on three ways: through `publish`, in the session flush of CONNECT, and
in the retained delivery of SUBSCRIBE. Which messages are delivered is fixed by the state the
operation starts in, and so is whether they exceed what a connection can hold.
-/
namespace MioBroker

open Rust

/-- A call of `publish`, with the state it is made in. -/
structure PublishCall where
  broker : Broker
  topic : Str
  payload : Bytes
  qos : UInt8
  retain : Bool

namespace Broker

/-- The call `publish_lwt` makes in `remove_client`. -/
def willCall (b : Broker) (t : Token) : Option PublishCall :=
  match b.clients.get? t with
  | some c =>
    if c.cleanDisconnect then none
    else c.will.map fun w =>
      ⟨{ b with willLog := b.willLog ++ [(t, w)] }, w.topic, w.message, w.qos, w.retain⟩
  | none => none

/-- The call a PUBLISH leads to. -/
def packetCall (b : Broker) (t : Token) (p : Packet) : Option PublishCall :=
  if p.ptype = PUBLISH ∧ b.noRouting p.flags = false then
    match parsePublish p.flags p.body with
    | .ok (some q) =>
      match b.acknowledge t q with
      | .ok (b, false) => some ⟨b, q.topic, q.payload, q.qos, q.retain⟩
      | _ => none
    | _ => none
  else none

/-- The messages SUBSCRIBE delivers. -/
def hitsOf (b : Broker) (topics : List (Str × UInt8)) : List (Str × Bytes × UInt8) :=
  topics.flatMap fun e => b.retainedHits e.1 e.2

/-- The messages a packet has handed to its sender directly, one `deliver_to` each. -/
def packetMessages (b : Broker) (p : Packet) : List (Str × Bytes × UInt8) :=
  if p.ptype = CONNECT then
    match parseConnect p.body with
    | .ok (some q) =>
      if q.cleanSession then [] else ((b.sessions.get? q.cid).map flushList).getD []
    | _ => []
  else if p.ptype = SUBSCRIBE then
    match parseSubscribe p.body with
    | .ok (some (_, topics)) => b.hitsOf topics
    | _ => []
  else []

/-- The subscriptions a packet asks for: those of a SUBSCRIBE, and those of the session a CONNECT
resumes. -/
def requests (b : Broker) (p : Packet) : List (Str × UInt8) :=
  if p.ptype = CONNECT then
    match parseConnect p.body with
    | .ok (some q) => if q.cleanSession then [] else ((b.sessions.get? q.cid).map SessionState.subs).getD []
    | _ => []
  else if p.ptype = SUBSCRIBE then
    match parseSubscribe p.body with
    | .ok (some (_, topics)) => topics
    | _ => []
  else []

/-- The record of the sender when the first of them is handed over. -/
def packetSender (b : Broker) (t : Token) (p : Packet) : Option Client :=
  (b.clients.get? t).map fun c =>
    if p.ptype = CONNECT then
      match parseConnect p.body with
      | .ok (some q) => c.applyConnect q b.now
      | _ => c
    else c

end Broker

namespace Op

/-- The call of `publish` an operation makes, if any. -/
def publishCall (b : Broker) : Op → Option PublishCall
  | .packet t p => b.packetCall t p
  | .remove t => b.willCall t
  | .flush t ws =>
    match b.clients.get? t with
    | some c =>
      if (c.writeLoop ws).2 = .dead then
        { b with clients := b.clients.insert t (c.writeLoop ws).1 }.willCall t
      else none
    | none => none
  | .publish topic payload qos retain => some ⟨b, topic, payload, qos, retain⟩
  | _ => none

/-- The messages an operation has `deliver_to` hand to the sender of its packet. -/
def messages (b : Broker) : Op → List (Str × Bytes × UInt8)
  | .packet _ p => b.packetMessages p
  | _ => []

/-- The subscriptions an operation is asked for. -/
def requests (b : Broker) : Op → List (Str × UInt8)
  | .packet _ p => b.requests p
  | _ => []

/-- The receiver of these messages. -/
def sender (b : Broker) : Op → Option Client
  | .packet t p => b.packetSender t p
  | _ => none

end Op

/-! ### What is behind a call and a message -/

section Inversion

variable {b : Broker} {t : Token} {p : Packet} {call : PublishCall}

theorem Broker.willCall_some (made : b.willCall t = some call) :
    ∃ c w, b.clients.get? t = some c ∧ c.cleanDisconnect = false ∧ c.will = some w ∧
      call = ⟨{ b with willLog := b.willLog ++ [(t, w)] }, w.topic, w.message, w.qos, w.retain⟩ := by
  simp only [willCall] at made
  split at made
  next c found =>
    split at made
    · cases made
    next unclean =>
      obtain ⟨w, will, rfl⟩ := Option.map_eq_some_iff.mp made
      exact ⟨c, w, found, Bool.eq_false_iff.mpr unclean, will, rfl⟩
  next => cases made

theorem Broker.packetCall_some (made : b.packetCall t p = some call) :
    p.ptype = PUBLISH ∧ b.noRouting p.flags = false ∧
      ∃ q d, parsePublish p.flags p.body = .ok (some q) ∧ b.acknowledge t q = .ok (d, false) ∧
        call = ⟨d, q.topic, q.payload, q.qos, q.retain⟩ := by
  simp only [packetCall] at made
  split at made
  next routed =>
    split at made
    next q parse =>
      split at made
      next d acked =>
        cases made
        exact ⟨routed.1, routed.2, q, d, parse, acked, rfl⟩
      next => cases made
    next => cases made
  next => cases made

/-- A flush that finds the connection dead publishes the will, from the state behind the write. -/
theorem Op.publishCall_flush {ws : List WriteResult} (made : (Op.flush t ws).publishCall b = some call) :
    ∃ c, b.clients.get? t = some c ∧ (c.writeLoop ws).2 = .dead ∧
      { b with clients := b.clients.insert t (c.writeLoop ws).1 }.willCall t = some call := by
  simp only [publishCall] at made
  split at made
  next c found =>
    split at made
    next dead => exact ⟨c, found, dead, made⟩
    next => cases made
  next => cases made

theorem Broker.packetMessages_cases {m : Str × Bytes × UInt8} (member : m ∈ b.packetMessages p) :
    (∃ q sess, p.ptype = CONNECT ∧ parseConnect p.body = .ok (some q) ∧ q.cleanSession = false ∧
      b.sessions.get? q.cid = some sess ∧ m ∈ flushList sess) ∨
    ∃ pid topics, p.ptype = SUBSCRIBE ∧ parseSubscribe p.body = .ok (some (pid, topics)) ∧
      m ∈ b.hitsOf topics := by
  simp only [packetMessages] at member
  split at member
  next isConnect =>
    split at member
    next q parse =>
      split at member
      · cases member
      next unclean =>
        cases stored : b.sessions.get? q.cid with
        | none => simp [stored] at member
        | some sess =>
          rw [stored] at member
          exact .inl ⟨q, sess, isConnect, parse, Bool.eq_false_iff.mpr unclean, stored, member⟩
    next => cases member
  next =>
    split at member
    next isSubscribe =>
      split at member
      next pid topics parse => exact .inr ⟨pid, topics, isSubscribe, parse, member⟩
      next => cases member
    next => cases member

end Inversion

/-- The forwards of a call exceed the window or the queue of this connection. -/
def PublishCall.Expels (call : PublishCall) (t : Token) : Prop :=
  ∃ c, call.broker.clients.get? t = some c ∧
    (IN_FLIGHT_CAP < c.inFlight.size +
        Client.reliableCount (call.broker.forwards t call.topic call.qos) ∨
      WRITE_QUEUE_CAP < c.reliable +
        Client.reliableCount (call.broker.forwards t call.topic call.qos))

/-- The forwards of a call exceed the window or the queue of a connection. -/
def PublishCall.Overflows (call : PublishCall) : Prop :=
  ∃ t c, call.broker.clients.get? t = some c ∧
    (IN_FLIGHT_CAP < c.inFlight.size +
        Client.reliableCount (call.broker.forwards t call.topic call.qos) ∨
      WRITE_QUEUE_CAP < c.reliable +
        Client.reliableCount (call.broker.forwards t call.topic call.qos))

/-- Deliveries to one connection that stop at the first failure exceed its window or queue.
`window`, `reliable` and `queued` are the current fill levels. -/
def overrun : Nat → Nat → Nat → List UInt8 → Bool
  | _, _, _, [] => false
  | window, reliable, queued, qos :: rest =>
    if qos = 0 then
      if queued < WRITE_QUEUE_CAP then overrun window reliable (queued + 1) rest else false
    else if window < IN_FLIGHT_CAP ∧ reliable < WRITE_QUEUE_CAP then
      overrun (window + 1) (reliable + 1) (min WRITE_QUEUE_CAP (queued + 1)) rest
    else true

/-- Somewhere in the operation `deliver_to` finds a window or a queue exhausted by reliable
traffic. -/
def Op.Overflows (b : Broker) (op : Op) : Prop :=
  (∃ call, op.publishCall b = some call ∧ call.Overflows) ∨
  ∃ c, op.sender b = some c ∧ overrun c.inFlight.size c.reliable c.writeQueue.length
    ((op.messages b).map fun m => m.2.2) = true

end MioBroker
