import MioBroker.Rust.HashMap
import MioBroker.Packet

/-!
# Per-connection state

The outbound queue with its eviction policy and the packet-id allocator.
-/
namespace MioBroker

open Rust

/-- Connection key of `broker.clients`. -/
abbrev Token := Nat

/-- A reading of the monotone clock, in nanoseconds. -/
abbrev Instant := Nat

def secs (n : Nat) : Nat := n * 1000000000

def millis (n : Nat) : Nat := n * 1000000

/-- An outbound message waiting for its acknowledgement. -/
structure InFlight where
  pkt : Bytes
  sentAt : Instant
  retries : Nat
  qos2 : Bool
  awaitPubcomp : Bool

/-- The interests the broker registers: readable, or readable and writable. -/
inductive Interest
  | readable
  | readableWritable
  deriving DecidableEq

/-- The outgoing half of a socket: the bytes it has accepted so far. -/
structure TcpStream where
  accepted : Bytes

structure Client where
  stream : TcpStream
  readBuf : Bytes
  /-- (reliable, packet) -/
  writeQueue : List (Bool × Bytes)
  writePending : Bytes
  writeOff : Nat
  clientId : Str
  keepaliveDeadline : Option Instant
  keepaliveSecs : UInt16
  token : Token
  interest : Interest
  nextPid : UInt16
  inFlight : HashMap UInt16 InFlight
  receivedQos2 : HashMap UInt16 Unit
  willFlag : Bool
  willQos : UInt8
  willRetain : Bool
  willTopic : Str
  willMessage : Bytes
  cleanDisconnect : Bool
  cleanSession : Bool

/-- A Last Will as `publish_lwt` passes it to `publish`. -/
structure Will where
  topic : Str
  message : Bytes
  qos : UInt8
  retain : Bool
  deriving DecidableEq

namespace Client

/-- The will of a client, when CONNECT set one. -/
def will (c : Client) : Option Will :=
  if c.willFlag then some ⟨c.willTopic, c.willMessage, c.willQos, c.willRetain⟩ else none

/-- The record `main` inserts for an accepted connection. -/
def accepted (token : Token) (h₁ h₂ : RandomState UInt16) : Client where
  stream := ⟨[]⟩
  readBuf := []
  writeQueue := []
  writePending := []
  writeOff := 0
  clientId := .empty
  keepaliveDeadline := none
  keepaliveSecs := 0
  token := token
  interest := .readable
  nextPid := 1
  inFlight := .new h₁
  receivedQos2 := .new h₂
  willFlag := false
  willQos := 0
  willRetain := false
  willTopic := .empty
  willMessage := []
  cleanDisconnect := false
  cleanSession := true

def queueQos0 (c : Client) (pkt : Bytes) : Client × Bool :=
  if c.writeQueue.length ≥ WRITE_QUEUE_CAP then (c, false)
  else ({ c with writeQueue := c.writeQueue ++ [(false, pkt)] }, true)

/-- The eviction loop of `queue_qos1`: drop the oldest unreliable entry while the queue is
full; `false` when only reliable entries are left. -/
def makeRoom : Nat → List (Bool × Bytes) → List (Bool × Bytes) × Bool
  | 0, queue => (queue, queue.length < WRITE_QUEUE_CAP)
  | fuel + 1, queue =>
    if queue.length ≥ WRITE_QUEUE_CAP then
      match queue.findIdx? fun entry => !entry.1 with
      | some idx => makeRoom fuel (queue.eraseIdx idx)
      | none => (queue, false)
    else (queue, true)

def queueQos1 (c : Client) (pkt : Bytes) : Client × Except Unit Unit :=
  match makeRoom c.writeQueue.length c.writeQueue with
  | (queue, true) => ({ c with writeQueue := queue ++ [(true, pkt)] }, .ok ())
  -- what was dropped to make room stays dropped
  | (queue, false) => ({ c with writeQueue := queue }, .error ())

/-- The search of `alloc_pid`; `fuel` counts the rounds of its `for`. -/
def allocPidLoop (inFlight : HashMap UInt16 InFlight) :
    Nat → UInt16 → UInt16 × Option UInt16
  | 0, nextPid => (nextPid, none)
  | fuel + 1, nextPid =>
    let pid := if nextPid = 0 then 1 else nextPid
    -- the counter wraps to 0, which the next round reads as 1
    if inFlight.contains pid then allocPidLoop inFlight fuel (pid + 1)
    else (pid + 1, some pid)

def allocPid (c : Client) : Client × Option UInt16 :=
  if c.inFlight.size ≥ IN_FLIGHT_CAP then (c, none)
  else
    let (nextPid, pid) := allocPidLoop c.inFlight 65536 c.nextPid
    ({ c with nextPid }, pid)

/-- `sent_at = now; retries += 1` for the entry, if it is still there. -/
def restartTimer (c : Client) (pid : UInt16) (now : Instant) : Client :=
  match c.inFlight.get? pid with
  | some entry =>
    let entry := { entry with sentAt := now, retries := entry.retries + 1 }
    { c with inFlight := c.inFlight.insert pid entry }
  | none => c

end Client
end MioBroker
