import MioBroker.Client
import MioBroker.Topic

/-!
# The threaded reference broker

`mqtt_broker.rs`: one reader and one writer thread per connection, a bounded channel between
them, and a flat vector of subscriptions behind a mutex. The functions it shares with the event
loop to the letter are used from there.
-/
namespace MioBroker.Threaded

open Rust

def SUB_QUEUE_CAP : Nat := 8192

/-! ### Packets -/

/-- What a run of `decode_rem` comes to: the value and what follows it, unless the stream ended; the
length bytes read; and whether a multiplication or addition overflowed on the way. -/
@[ext] structure Decoding where
  result : Option (Nat × Bytes)
  used : Nat
  overflowed : Bool

/-- `decode_rem` with its variables as words of `bits` bits, `usize` being 32 or 64 bits wide. -/
def decodeRemWords (bits : Nat) : Bytes → Nat → Nat → Nat → Bool → Decoding
  | [], _, _, used, overflowed => ⟨none, used, overflowed⟩
  | x :: xs, mult, rem, used, overflowed =>
    let product := (x &&& 0x7f).toNat * mult
    let sum := rem + product % 2 ^ bits
    let overflowed := overflowed || decide (2 ^ bits ≤ product) || decide (2 ^ bits ≤ sum)
    let rem := sum % 2 ^ bits
    if x &&& 0x80 == 0 then ⟨some (rem, xs), used + 1, overflowed⟩
    else
      decodeRemWords bits xs (mult * 128 % 2 ^ bits) rem (used + 1)
        (overflowed || decide (2 ^ bits ≤ mult * 128))

def decodeLength (bits : Nat) (stream : Bytes) : Decoding := decodeRemWords bits stream 1 0 0 false

/-- The width of the `usize` that the broker counts in. -/
def USIZE_BITS : Nat := 64

/-- `read_packet`, with what it leaves of the stream; `none` when the stream ends inside a packet. The
optimised build lets the length wrap. -/
def readPacket : Bytes → Run (Option (Packet × Bytes))
  | [] => pure none
  | hdr :: rest =>
    match (decodeLength USIZE_BITS rest).result with
    | none => pure none
    | some (len, rest) =>
      -- `vec![0u8; len]` comes before the body is read
      if 2 ^ (USIZE_BITS - 1) ≤ len then .error .capacityOverflow
      else if rest.length < len then pure none
      else pure (some (⟨hdr >>> 4, hdr &&& 0x0f, rest.take len⟩, rest.drop len))

def buildConnack : Bytes := [CONNACK <<< 4, 0x02, 0x00, 0x00]

def buildSuback (pid : UInt16) (grants : List UInt8) : Bytes :=
  let body := u16ToBe pid ++ grants
  SUBACK <<< 4 :: encodeRem body.length ++ body

def buildUnsuback (pid : UInt16) : Bytes := buildAck (UNSUBACK <<< 4) pid
def buildPuback (pid : UInt16) : Bytes := buildAck (PUBACK <<< 4) pid
def buildPingresp : Bytes := [PINGRESP <<< 4, 0x00]

/-- A forwarded PUBLISH, always with QoS 0. -/
def buildForward (topic payload : Bytes) : Bytes :=
  let body := u16ToBe (UInt16.ofNat topic.length) ++ topic ++ payload
  PUBLISH <<< 4 :: encodeRem body.length ++ body

/-- `parse_connect`: client id and keepalive. -/
def parseConnect (body : Bytes) : Run (Option (Str × UInt16)) := do
  if body.length < 10 then return none
  let plen := (← u16At body 0).toNat
  let _level ← Run.index body (2 + plen)
  let _flags ← Run.index body (3 + plen)
  let keepalive ← u16At body (4 + plen)
  let pos := 6 + plen
  if pos + 2 > body.length then return none
  let clen := (← u16At body pos).toNat
  let pos := pos + 2
  if pos + clen > body.length then return none
  let cid := Str.fromUtf8Lossy (← Run.slice body pos (pos + clen))
  return some (cid, keepalive)

def parseSubscribe (body : Bytes) : Run (Option (UInt16 × List (Str × UInt8))) :=
  MioBroker.parseSubscribe body

def parseUnsubscribe (body : Bytes) : Run (Option (UInt16 × List Str)) :=
  MioBroker.parseUnsubscribe body

/-- `parse_publish`: topic, QoS, packet id and payload. -/
def parsePublish (flags : UInt8) (body : Bytes) :
    Run (Option (Str × UInt8 × Option UInt16 × Bytes)) := do
  if body.length < 3 then return none
  let tlen := (← u16At body 0).toNat
  let qos := (flags >>> 1) &&& 0x03
  let pos := 2 + tlen
  if pos > body.length then return none
  let topic := Str.fromUtf8Lossy (← Run.slice body 2 (2 + tlen))
  if qos > 0 then
    if pos + 2 > body.length then return none
    let p ← u16At body pos
    let payload ← Run.slice body (pos + 2) body.length
    return some (topic, qos, some p, payload)
  else
    let payload ← Run.slice body pos body.length
    return some (topic, qos, none, payload)

/-! ### Channels -/

/-- A bounded channel to a writer thread. -/
structure Channel where
  queue : List Bytes
  /-- the writer thread still holds the receiver -/
  connected : Bool

inductive TrySend
  | ok
  | full
  | disconnected

namespace Channel

/-- `mpsc::sync_channel(SUB_QUEUE_CAP)` -/
def new : Channel := ⟨[], true⟩

def trySend (ch : Channel) (pkt : Bytes) : Channel × TrySend :=
  if ch.connected then
    if ch.queue.length < SUB_QUEUE_CAP then ({ ch with queue := ch.queue ++ [pkt] }, .ok)
    else (ch, .full)
  else (ch, .disconnected)

/-- `tx.send(pkt).ok()`: a full channel blocks until the writer thread has taken a packet. -/
def send (ch : Channel) (pkt : Bytes) : Channel :=
  if ch.connected then
    { ch with queue := ch.queue.drop (ch.queue.length + 1 - SUB_QUEUE_CAP) ++ [pkt] }
  else ch

end Channel

/-! ### The broker -/

structure Subscription where
  filter : Str
  qos : UInt8
  token : Token
  /-- the channel, named by the connection it was made for -/
  tx : Token

structure Broker where
  subs : List Subscription
  clientIds : List Str
  drops : Nat
  deadSubs : Nat

namespace Broker

def new : Broker := ⟨[], [], 0, 0⟩

def subscribe (b : Broker) (filter : Str) (qos : UInt8) (token tx : Token) : Broker :=
  { b with subs := b.subs ++ [⟨filter, qos, token, tx⟩] }

def unsubscribe (b : Broker) (filter : Str) (token : Token) : Broker :=
  { b with subs := b.subs.filter fun s => !(s.filter == filter && s.token == token) }

def disconnectClient (b : Broker) (token : Token) : Broker :=
  { b with subs := b.subs.filter fun s => s.token != token }

end Broker

/-- What the reader thread of a connection holds. -/
structure Connection where
  clientId : Str
  keepaliveS : Nat
  tx : Channel

/-- The process: the broker behind its mutex, the running connections, and `NEXT_TOKEN`. -/
structure World where
  broker : Broker
  connections : HashMap Token Connection
  nextToken : Token

namespace World

def new (h : RandomState Token) : World := ⟨.new, .new h, 1⟩

/-- A connection is accepted and its threads are started. -/
def accept (w : World) : World :=
  { w with
    connections := w.connections.insert w.nextToken ⟨.empty, 0, .new⟩
    nextToken := w.nextToken + 1 }

/-- The writer thread of a connection takes packets off its channel. -/
def take (w : World) (token : Token) (n : Nat) : World :=
  match w.connections.get? token with
  | some c =>
    { w with connections :=
        w.connections.insert token { c with tx := { c.tx with queue := c.tx.queue.drop n } } }
  | none => w

def modifyConnection (w : World) (token : Token) (f : Connection → Connection) : World :=
  match w.connections.get? token with
  | some c => { w with connections := w.connections.insert token (f c) }
  | none => w

/-- `tx.send(Arc::new(pkt)).ok()` in the reader thread of `token`. -/
def send (w : World) (token : Token) (pkt : Bytes) : World :=
  w.modifyConnection token fun c => { c with tx := c.tx.send pkt }

def trySend (w : World) (tx : Token) (pkt : Bytes) : World × TrySend :=
  match w.connections.get? tx with
  | some c =>
    let (ch, result) := c.tx.trySend pkt
    ({ w with connections := w.connections.insert tx { c with tx := ch } }, result)
  | none => (w, .disconnected)

/-- What the `retain` of `publish` leaves: the subscriptions kept, and its counters. -/
structure Fanout where
  kept : List Subscription
  delivered : Nat
  dropped : Nat
  dead : Nat

/-- The `retain` of `publish`: it sends while it filters. -/
def fanout (topic : Str) (pkt : Bytes) : List Subscription → World → World × Fanout
  | [], w => (w, ⟨[], 0, 0, 0⟩)
  | s :: rest, w =>
    if !topicMatches s.filter topic then
      let (w, out) := fanout topic pkt rest w
      (w, { out with kept := s :: out.kept })
    else
      match w.trySend s.tx pkt with
      | (w, .ok) =>
        let (w, out) := fanout topic pkt rest w
        (w, { out with kept := s :: out.kept, delivered := out.delivered + 1 })
      | (w, .full) =>
        -- queue full: legal QoS 0 drop, the subscriber stays
        let (w, out) := fanout topic pkt rest w
        (w, { out with kept := s :: out.kept, dropped := out.dropped + 1 })
      | (w, .disconnected) =>
        let (w, out) := fanout topic pkt rest w
        (w, { out with dead := out.dead + 1 })

def publish (w : World) (topic : Str) (payload : Bytes) : World × Nat × Nat :=
  let pkt := buildForward topic.bytes payload
  let (w, out) := fanout topic pkt w.broker.subs w
  ({ w with broker := { w.broker with
      subs := out.kept
      drops := w.broker.drops + out.dropped
      deadSubs := w.broker.deadSubs + out.dead } }, out.delivered, out.dropped)

/-- One round of the loop of `handle_client`; `false` when it breaks. -/
def handle (w : World) (token : Token) (p : Packet) : Run (World × Bool) := do
  if p.ptype = CONNECT then
    match ← parseConnect p.body with
    | some (cid, ka) =>
      let w := w.modifyConnection token fun c => { c with clientId := cid, keepaliveS := ka.toNat }
      let w := { w with broker := { w.broker with clientIds := w.broker.clientIds ++ [cid] } }
      return (w.send token buildConnack, true)
    | none => return (w, false)
  else if p.ptype = SUBSCRIBE then
    match ← parseSubscribe p.body with
    | some (pid, topics) =>
      let broker := topics.foldl (fun b e => b.subscribe e.1 e.2 token token) w.broker
      return (send { w with broker } token (buildSuback pid (topics.map Prod.snd)), true)
    | none => return (w, false)
  else if p.ptype = UNSUBSCRIBE then
    match ← parseUnsubscribe p.body with
    | some (pid, filters) =>
      let broker := filters.foldl (fun b f => b.unsubscribe f token) w.broker
      return (send { w with broker } token (buildUnsuback pid), true)
    | none => return (w, false)
  else if p.ptype = PUBLISH then
    match ← parsePublish p.flags p.body with
    | some (topic, qos, pid, payload) =>
      let w := match pid with
        | some p => if qos = 1 then w.send token (buildPuback p) else w
        | none => w
      return ((w.publish topic payload).1, true)
    | none => return (w, false)
  else if p.ptype = PINGREQ then return (w.send token buildPingresp, true)
  else if p.ptype = DISCONNECT then return (w, false)
  else return (w, false)

/-- What `handle_client` does behind its loop. -/
def close (w : World) (token : Token) : World :=
  let cid := ((w.connections.get? token).map Connection.clientId).getD .empty
  let broker := w.broker.disconnectClient token
  { w with
    broker := { broker with clientIds := broker.clientIds.filter fun c => c != cid }
    connections := w.connections.erase token }

/-- The reader thread of a connection gets these bytes, and handles the packet they hold. -/
def process (w : World) (token : Token) (bytes : Bytes) : Run World := do
  match ← readPacket bytes with
  | none => pure (w.close token)
  | some (p, _) =>
    match ← w.handle token p with
    | (w, true) => pure w
    | (w, false) => pure (w.close token)

end World
end MioBroker.Threaded
