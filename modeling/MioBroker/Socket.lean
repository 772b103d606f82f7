import MioBroker.Handler

/-!
# Reading and writing sockets

`flush_writes` and `drain_client`; the answers of the operating system are arguments.
-/
namespace MioBroker

open Rust

/-- One answer of `stream.read`; `ok []` is end of file. -/
inductive ReadResult
  | ok (chunk : Bytes)
  | wouldBlock
  | err

/-- One answer of `stream.write`. -/
inductive WriteResult
  | ok (n : Nat)
  | wouldBlock
  | err

def BATCH_MAX : Nat := 32768

/-- How the write loop of `flush_writes` ended. -/
inductive Flushed
  | wroteAll
  | blocked
  | dead
  deriving DecidableEq

namespace Client

/-- The inner loop of `flush_writes`: pop packets into the batch while it is short. -/
def fillBatch : List (Bool × Bytes) → Bytes → List (Bool × Bytes) × Bytes
  | [], batch => ([], batch)
  | (r, p) :: queue, batch =>
    if batch.length < BATCH_MAX then fillBatch queue (batch ++ p) else ((r, p) :: queue, batch)

/-- Refill a consumed batch from the queue; `none` when everything is written. -/
def refill (c : Client) : Option Client :=
  if c.writeOff = c.writePending.length then
    if c.writeQueue.isEmpty then none
    else
      let (queue, batch) := fillBatch c.writeQueue []
      some { c with writeQueue := queue, writePending := batch, writeOff := 0 }
  else some c

/-- The write loop of `flush_writes`. A write takes at most what it is offered; when the
list of answers is used up the socket is full. -/
def writeLoop : List WriteResult → Client → Client × Flushed
  | [], c =>
    match c.refill with
    | none => (c, .wroteAll)
    | some c => (c, .blocked)
  | w :: ws, c =>
    match c.refill with
    | none => (c, .wroteAll)
    | some c =>
      match w with
      | .wouldBlock => (c, .blocked)
      | .err => (c, .dead)
      | .ok n =>
        let offered := c.writePending.drop c.writeOff
        let n := min n offered.length
        if n = 0 then (c, .blocked)
        else writeLoop ws { c with
          stream := ⟨c.stream.accepted ++ offered.take n⟩
          writeOff := c.writeOff + n }

end Client

namespace Broker

/-- `flush_writes` -/
def flushWrites (b : Broker) (token : Token) (ws : List WriteResult) : Run Broker := do
  let c ← Run.unwrap (b.clients.get? token)
  let (c, flushed) := c.writeLoop ws
  let b := { b with clients := b.clients.insert token c }
  -- `remove_client` sees the record as the writes left it
  if flushed = .dead then b.removeClient token
  else
    let interest := if flushed = .wroteAll then .readable else .readableWritable
    pure { b with
      sysMsgsSent := b.sysMsgsSent + 1
      clients := b.clients.insert token { c with interest } }

/-- The read of `drain_client` with its flood guard; `true` when data arrived. -/
def readChunk (b : Broker) (token : Token) (r : ReadResult) : Run (Broker × Except Unit Bool) := do
  let c ← Run.unwrap (b.clients.get? token)
  match r with
  | .ok [] => return (b, .error ())
  | .wouldBlock => return (b, .ok false)
  | .err => return (b, .error ())
  | .ok chunk =>
    let c := { c with readBuf := c.readBuf ++ chunk }
    let b := { b with clients := b.clients.insert token c }
    -- over the cap the data stays in the buffer, unframed
    return (b, if c.readBuf.length > READ_CAP then .error () else .ok true)

/-- `drain_client` -/
def drainClient (b : Broker) (token : Token) (r : ReadResult) :
    Run (Broker × Except Unit Unit) := do
  match ← b.readChunk token r with
  | (b, .ok true) =>
    match ← b.handlePackets token with
    | (b, .ok ()) => return (b, .ok ())
    | (b, .error _) => return (b, .error ())
  | (b, .ok false) => return (b, .ok ())
  | (b, .error ()) => return (b, .error ())

/-- The `else` branch of a writable event: nothing queued, wait for reads only. -/
def quiesce (b : Broker) (token : Token) : Broker :=
  match b.clients.get? token with
  | some c => { b with clients := b.clients.insert token { c with interest := .readable } }
  | none => b

end Broker
end MioBroker
