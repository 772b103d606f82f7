import MioBroker.Broker

/-!
# Packet handling

`handle_packets`: framing of the read buffer, then one handler per packet type. A handler
answers the broker together with `Err` when the connection must be closed; the broker keeps
whatever was done before the error.
-/
namespace MioBroker

open Rust

abbrev Reply := Except String Unit

/-- `Duration::from_secs((ka as f64 * 1.5) as u64)` -/
def keepaliveSpan (ka : UInt16) : Nat := secs (ka.toNat * 3 / 2)

namespace Client

/-- Queue a protocol packet; the answer of `queue_qos0` is ignored. -/
def reply (c : Client) (pkt : Bytes) : Client := (c.queueQos0 pkt).1

/-- The fields CONNECT sets, and the CONNACK. -/
def applyConnect (c : Client) (p : ConnectPacket) (now : Instant) : Client :=
  { c with
    clientId := p.cid
    cleanSession := p.cleanSession
    keepaliveDeadline := if p.keepalive > 0 then some (now + keepaliveSpan p.keepalive) else none
    keepaliveSecs := p.keepalive
    willFlag := p.willFlag
    willQos := p.willQos
    willRetain := p.willRetain
    willTopic := p.willTopic
    willMessage := p.willMessage }.reply buildConnack

/-- Any packet is a sign of life: push the keepalive deadline back. -/
def refreshKeepalive (c : Client) (now : Instant) : Client :=
  match c.keepaliveDeadline with
  | some _ => { c with keepaliveDeadline := some (now + keepaliveSpan c.keepaliveSecs) }
  | none => c

/-- PUBREC from a subscriber: the entry moves on to PUBREL, whose first copy is queued. -/
def pubrec (c : Client) (pid : UInt16) (now : Instant) : Client :=
  match c.inFlight.get? pid with
  | some entry =>
    if entry.qos2 && !entry.awaitPubcomp then
      let entry := { entry with awaitPubcomp := true, sentAt := now, retries := 0 }
      { c with inFlight := c.inFlight.insert pid entry }.reply (buildPubrel pid)
    else c
  | none => c

/-- Inbound QoS2 PUBLISH: remember the id, answer PUBREC; `true` for a repeated id. -/
def receiveQos2 (c : Client) (pid : UInt16) : Client × Bool :=
  let dup := c.receivedQos2.contains pid
  let c := if dup then c else { c with receivedQos2 := c.receivedQos2.insert pid () }
  (c.reply (buildPubrec pid), dup)

end Client

namespace Broker

/-- The delivery loops of the session flush and of retained delivery: they stop at the first
message that `deliver_to` refuses. -/
def deliverEach (token : Token) (retain : Bool) :
    List (Str × Bytes × UInt8) → Broker → Broker × Except Unit Unit
  | [], b => (b, .ok ())
  | (topic, payload, qos) :: rest, b =>
    match b.deliverTo token topic payload qos retain with
    | (b, .ok ()) => deliverEach token retain rest b
    | (b, .error ()) => (b, .error ())

/-- `add_sub` for every stored subscription of the session being resumed. -/
def restoreSubs (b : Broker) (token : Token) (subs : List (Str × UInt8)) : Broker :=
  subs.foldl (fun b sub => b.addSub sub.1 token sub.2) b

/-- The queued messages of a session, each at the QoS the flush sends it with. -/
def flushList (sess : SessionState) : List (Str × Bytes × UInt8) :=
  sess.offline.map fun m =>
    match firstMatch sess.subs m.1 with
    | some sub => (m.1, m.2.1, min m.2.2 sub.2)
    | none => m

def eraseSession (b : Broker) (cid : Str) : Broker :=
  if b.sessions.contains cid then { b with sessions := b.sessions.erase cid, dirty := true } else b

/-- The session flush of CONNECT. -/
def flushSession (b : Broker) (token : Token) (cid : Str) : Broker × Reply :=
  match b.sessions.get? cid with
  | some sess =>
    match deliverEach token false (flushList sess) b with
    | (b, .ok ()) => (b.eraseSession cid, .ok ())
    -- the session is left whole, though some of it is queued by now
    | (b, .error ()) => (b, .error "client dropped during session flush")
  | none => (b.eraseSession cid, .ok ())

def countConnect (b : Broker) : Broker := { b with sysClientsTotal := b.sysClientsTotal + 1 }

def handleConnect (b : Broker) (token : Token) (body : Bytes) : Run (Broker × Reply) := do
  match ← parseConnect body with
  | some p =>
    let b :=
      if p.cleanSession then b.eraseSession p.cid
      else match b.sessions.get? p.cid with
        | some sess => b.restoreSubs token sess.subs
        | none => b
    let b ← b.modifyClient token fun c => c.applyConnect p b.now
    -- the CONNACK is queued already; what follows is the flush of a kept session
    if p.cleanSession then return (b.countConnect, .ok ())
    match b.flushSession token p.cid with
    | (b, .ok ()) => return (b.countConnect, .ok ())
    | (b, .error e) => return (b, .error e)
  | none => return (b, .error "bad CONNECT")

/-- The retained messages a filter is sent on SUBSCRIBE, each at its delivery QoS. -/
def retainedHits (b : Broker) (filter : Str) (qos : UInt8) : List (Str × Bytes × UInt8) :=
  (b.retained.iter.filter fun e => topicMatches filter e.1).map fun e =>
    (e.1, e.2.1, min e.2.2 qos)

/-- The filter loop of SUBSCRIBE. -/
def subscribeLoop (token : Token) : List (Str × UInt8) → Broker → Broker × Reply
  | [], b => (b, .ok ())
  | (filter, qos) :: rest, b =>
    let b := b.addSub filter token qos
    match deliverEach token true (b.retainedHits filter qos) b with
    | (b, .ok ()) => subscribeLoop token rest b
    -- the filters up to this one stay subscribed, and no SUBACK goes out
    | (b, .error ()) => (b, .error "client dropped during retained delivery")

def handleSubscribe (b : Broker) (token : Token) (body : Bytes) : Run (Broker × Reply) := do
  match ← parseSubscribe body with
  | some (pid, topics) =>
    match subscribeLoop token topics b with
    | (b, .ok ()) =>
      let b ← b.modifyClient token fun c => c.reply (buildSuback pid (topics.map Prod.snd))
      return (b, .ok ())
    | (b, .error e) => return (b, .error e)
  | none => return (b, .error "bad SUBSCRIBE")

/-- `subs.retain(..)` and `rebuild_index` of UNSUBSCRIBE. -/
def unsubscribe (b : Broker) (token : Token) (filters : List Str) : Broker :=
  { b with subs := b.subs.filter fun s => !(s.token == token && filters.contains s.filter) }.rebuildIndex

def handleUnsubscribe (b : Broker) (token : Token) (body : Bytes) : Run (Broker × Reply) := do
  match ← parseUnsubscribe body with
  | some (pid, filters) =>
    let b ← (b.unsubscribe token filters).modifyClient token fun c => c.reply (buildUnsuback pid)
    return (b, .ok ())
  | none => return (b, .error "bad UNSUBSCRIBE")

/-- `c.received_qos2` bookkeeping and PUBREC for the sender; the answer says whether the id
was seen before. -/
def receiveQos2 (b : Broker) (token : Token) (pid : UInt16) : Run (Broker × Bool) :=
  match b.clients.get? token with
  | some c =>
    let (c, dup) := c.receiveQos2 pid
    .ok ({ b with clients := b.clients.insert token c }, dup)
  | none => .error .unwrapNone

def countPublish (b : Broker) : Broker := { b with sysPubReceived := b.sysPubReceived + 1 }

/-- PUBLISH with nowhere to go: only the acknowledgement matters. -/
def publishFast (b : Broker) (token : Token) (qos : UInt8) (body : Bytes) :
    Run (Broker × Reply) := do
  if qos = 1 then
    match ← parsePidOnly body with
    | some p =>
      let b ← b.modifyClient token fun c => c.reply (buildPuback p)
      return (b.countPublish, .ok ())
    | none => return (b, .error "bad PUBLISH")
  else if qos = 2 then
    match ← parsePidOnly body with
    | some p =>
      let (b, dup) ← b.receiveQos2 token p
      -- a repeated id is acknowledged, and not counted
      return (if dup then b else b.countPublish, .ok ())
    | none => return (b, .error "bad PUBLISH")
  else return (b.countPublish, .ok ())

/-- Acknowledge an inbound PUBLISH; the answer says whether it is a QoS2 repetition. -/
def acknowledge (b : Broker) (token : Token) (p : PublishPacket) : Run (Broker × Bool) :=
  match p.pid with
  | some pid =>
    if p.qos = 1 then (b.modifyClient token fun c => c.reply (buildPuback pid)).map (·, false)
    else if p.qos = 2 then b.receiveQos2 token pid
    -- QoS 3 carries an id, and nobody answers it
    else .ok (b, false)
  | none => .ok (b, false)

/-- PUBLISH through the routing machinery. -/
def publishRouted (b : Broker) (token : Token) (flags : UInt8) (body : Bytes) :
    Run (Broker × Reply) := do
  match ← parsePublish flags body with
  | some p =>
    let (b, dup) ← b.acknowledge token p
    -- acknowledged again, not routed again
    if dup then return (b, .ok ())
    let (b, _) ← b.publish p.topic p.payload p.qos p.retain
    return ({ b.countPublish with deadPruned := 0 }, .ok ())
  | none => return (b, .error "bad PUBLISH")

/-- The condition of the no-subscriber fast path. -/
def noRouting (b : Broker) (flags : UInt8) : Bool :=
  !publishRetain flags && b.subs.isEmpty && b.sessions.isEmpty

def handlePublish (b : Broker) (token : Token) (flags : UInt8) (body : Bytes) :
    Run (Broker × Reply) :=
  if b.noRouting flags then b.publishFast token (publishQos flags) body
  else b.publishRouted token flags body

/-- The handlers that read a packet id off the first two bytes and update the sender. -/
def handleAck (b : Broker) (token : Token) (body : Bytes) (bad : String)
    (f : Client → UInt16 → Client) : Run (Broker × Reply) := do
  if body.length ≥ 2 then
    let pid ← u16At body 0
    let b ← b.modifyClient token fun c => f c pid
    return (b, .ok ())
  else return (b, .error bad)

def handlePuback (b : Broker) (token : Token) (body : Bytes) : Run (Broker × Reply) :=
  b.handleAck token body "bad PUBACK" fun c pid => { c with inFlight := c.inFlight.erase pid }

def handlePubrec (b : Broker) (token : Token) (body : Bytes) : Run (Broker × Reply) :=
  b.handleAck token body "bad PUBREC" fun c pid => c.pubrec pid b.now

def handlePubrel (b : Broker) (token : Token) (body : Bytes) : Run (Broker × Reply) :=
  b.handleAck token body "bad PUBREL" fun c pid =>
    { c with receivedQos2 := c.receivedQos2.erase pid }.reply (buildPubcomp pid)

def handlePubcomp (b : Broker) (token : Token) (body : Bytes) : Run (Broker × Reply) :=
  b.handleAck token body "bad PUBCOMP" fun c pid => { c with inFlight := c.inFlight.erase pid }

def handlePingreq (b : Broker) (token : Token) : Run (Broker × Reply) := do
  let b ← b.modifyClient token fun c => c.reply buildPingresp
  return (b, .ok ())

def handleDisconnect (b : Broker) (token : Token) : Run (Broker × Reply) := do
  let b ← b.modifyClient token fun c => { c with cleanDisconnect := true }
  -- not a failure: it ends the batch and closes the connection
  return (b, .error "disconnect")

/-- One round of the packet loop of `handle_packets`. -/
def dispatch (b : Broker) (token : Token) (p : Packet) : Run (Broker × Reply) :=
  if p.ptype = CONNECT then b.handleConnect token p.body
  else if p.ptype = SUBSCRIBE then b.handleSubscribe token p.body
  else if p.ptype = UNSUBSCRIBE then b.handleUnsubscribe token p.body
  else if p.ptype = PUBLISH then b.handlePublish token p.flags p.body
  else if p.ptype = PUBACK then b.handlePuback token p.body
  else if p.ptype = PUBREC then b.handlePubrec token p.body
  else if p.ptype = PUBREL then b.handlePubrel token p.body
  else if p.ptype = PUBCOMP then b.handlePubcomp token p.body
  else if p.ptype = PINGREQ then b.handlePingreq token
  else if p.ptype = DISCONNECT then b.handleDisconnect token
  else pure (b, .error ("unknown packet type " ++ toString p.ptype))

/-- The packet loop: it ends at the first error. -/
def dispatchAll (token : Token) : List Packet → Broker → Run (Broker × Reply)
  | [], b => pure (b, .ok ())
  | p :: rest, b => do
    match ← b.dispatch token p with
    | (b, .ok ()) => dispatchAll token rest b
    | (b, .error e) => pure (b, .error e)

/-- The first part of `handle_packets`: take the read buffer, frame it, put the tail back and
refresh the keepalive deadline. -/
def beginBatch (b : Broker) (token : Token) : Run (Broker × Except String (List Packet)) := do
  let c ← Run.unwrap (b.clients.get? token)
  if c.readBuf.isEmpty then return (b, .ok [])
  let framed := frame c.readBuf
  let c := { c with readBuf := framed.rest }
  match framed.bad with
  | some rem =>
    -- data with a refused length is no sign of life
    return ({ b with clients := b.clients.insert token c },
      .error ("packet too large (" ++ toString rem ++ "B)"))
  | none =>
    return ({ b with clients := b.clients.insert token (c.refreshKeepalive b.now) }, .ok framed.pkts)

def countPackets (b : Broker) (n : Nat) : Broker :=
  { b with sysMsgsReceived := b.sysMsgsReceived + n }

def handlePackets (b : Broker) (token : Token) : Run (Broker × Reply) := do
  match ← b.beginBatch token with
  | (b, .ok pkts) =>
    match ← dispatchAll token pkts b with
    | (b, .ok ()) => return (b.countPackets pkts.length, .ok ())
    | (b, .error e) => return (b, .error e)
  | (b, .error e) => return (b, .error e)

end Broker
end MioBroker
