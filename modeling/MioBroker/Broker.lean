import Mathlib.Data.List.Sort
import MioBroker.Persist

/-!
# Routing, wills and disconnection

The methods of `impl Broker` that queue messages: `publish`, `deliver_to`, `publish_lwt`,
`remove_client`, `publish_sys_topics`.
-/
namespace MioBroker

open Rust

/-- What the log says about a message this client was sent. -/
def Client.delivery (c : Client) (topic : Str) (payload : Bytes) (qos : UInt8) : Delivery :=
  ⟨c.clientId, c.cleanSession, topic, payload, qos⟩

namespace Broker

/-- `clients.get_mut(&token).unwrap()` followed by an update of the client. -/
def modifyClient (b : Broker) (token : Token) (f : Client → Client) : Run Broker :=
  match b.clients.get? token with
  | some c => .ok { b with clients := b.clients.insert token (f c) }
  | none => .error .unwrapNone

/-- Deliver one message to a single client at the given forward QoS. -/
def deliverTo (b : Broker) (token : Token) (topic : Str) (payload : Bytes) (fwdQos : UInt8)
    (retain : Bool) : Broker × Except Unit Unit :=
  if fwdQos = 0 then
    let pkt := buildForward topic.bytes payload 0 none false retain
    match b.clients.get? token with
    | some c =>
      match c.queueQos0 pkt with
      | (c, true) =>
        ({ b with
          clients := b.clients.insert token c
          sysPubSent := b.sysPubSent + 1
          deliverLog := b.deliverLog ++ [c.delivery topic payload fwdQos] }, .ok ())
      -- the client stays as it is; it is for the caller to drop the subscription
      | (_, false) => (b, .error ())
    | none => (b, .error ())
  else
    match b.clients.get? token with
    | some c =>
      match c.allocPid with
      | (c, some pid) =>
        let pkt := buildForward topic.bytes payload fwdQos (some pid) false retain
        match c.queueQos1 pkt with
        | (c, .ok ()) =>
          let entry : InFlight := ⟨pkt, b.now, 0, fwdQos == 2, false⟩
          let c := { c with inFlight := c.inFlight.insert pid entry }
          ({ b with
            clients := b.clients.insert token c
            sysPubSent := b.sysPubSent + 1
            deliverLog := b.deliverLog ++ [c.delivery topic payload fwdQos] }, .ok ())
        -- a full queue of reliable packets costs the client its connection
        | (_, .error ()) => ({ b with clients := b.clients.erase token }, .error ())
      -- and so does a full window
      | (_, none) => ({ b with clients := b.clients.erase token }, .error ())
    | none => (b, .error ())

/-- The candidate list `idxs` of `publish`, before filtering. -/
def candidates (b : Broker) (topic : Str) : List Nat :=
  let idxs := (b.subsExact.get? topic).getD []
  (b.subsWild.collect topic (idxs, 0)).1

/-- `idxs.retain(|&wi| topic_matches(&self.subs[wi].filter, topic))` -/
def retainMatching (subs : List Subscription) (topic : Str) : List Nat → Run (List Nat)
  | [] => pure []
  | wi :: rest => do
    let s ← Run.index subs wi
    let rest ← retainMatching subs topic rest
    pure (if topicMatches s.filter topic then wi :: rest else rest)

/-- The delivery loop of `publish`, with its counters. -/
def deliverAll (topic : Str) (payload : Bytes) (srcQos : UInt8) :
    List Nat → Broker → Nat → Nat → Run (Broker × Nat × Nat)
  | [], b, delivered, dead => pure (b, delivered, dead)
  | i :: idxs, b, delivered, dead => do
    let s ← Run.index b.subs i
    match b.deliverTo s.token topic payload (min srcQos s.qos) false with
    | (b, .ok ()) => deliverAll topic payload srcQos idxs b (delivered + 1) dead
    | (b, .error ()) =>
      -- pruned whatever the failure was, also when the client is still connected
      let b := { b with subs := swapRemove b.subs i }
      deliverAll topic payload srcQos idxs b delivered (dead + 1)

/-- First subscription of a session that matches the topic. -/
def firstMatch (subs : List (Str × UInt8)) (topic : Str) : Option (Str × UInt8) :=
  subs.find? fun sub => topicMatches sub.1 topic

/-- One round of the offline loop of `publish`. -/
def queueOffline (topic : Str) (payload : Bytes) (srcQos : UInt8) (b : Broker)
    (target : Str × UInt8) : Broker :=
  match b.sessions.get? target.1 with
  | some sess =>
    if sess.offline.length < OFFLINE_CAP then
      let sess := { sess with offline := sess.offline ++ [(topic, payload, min srcQos target.2)] }
      { b with sessions := b.sessions.insert target.1 sess, dirty := true }
    else b
  | none => b

/-- The retained-table part of `publish`. -/
def storeRetained (b : Broker) (topic : Str) (payload : Bytes) (srcQos : UInt8)
    (retain : Bool) : Broker :=
  if retain then
    if payload.isEmpty then { b with retained := b.retained.erase topic, dirty := true }
    else { b with retained := b.retained.insert topic (payload, srcQos), dirty := true }
  else b

/-- The part of `publish` that queues for stored sessions. -/
def storeOffline (b : Broker) (topic : Str) (payload : Bytes) (srcQos : UInt8) : Broker :=
  if srcQos > 0 then
    let target := b.sessions.iter.filterMap fun e =>
      (firstMatch e.2.subs topic).map fun sub => (e.1, sub.2)
    target.foldl (queueOffline topic payload srcQos) b
  else b

/-- The live part of `publish`: candidates, delivery loop, index repair. -/
def deliverLive (b : Broker) (topic : Str) (payload : Bytes) (srcQos : UInt8) :
    Run (Broker × Nat) := do
  let idxs ← retainMatching b.subs topic (b.candidates topic)
  let idxs := idxs.insertionSort (· ≥ ·)
  let (b, delivered, dead) ← deliverAll topic payload srcQos idxs b 0 0
  let b := { b with deadPruned := b.deadPruned + dead }
  pure (if dead > 0 then b.rebuildIndex else b, delivered)

def publish (b : Broker) (topic : Str) (payload : Bytes) (srcQos : UInt8) (retain : Bool) :
    Run (Broker × Nat × Nat) := do
  let b := b.storeRetained topic payload srcQos retain
  -- a retained message is stored even when nobody listens
  if b.subs.isEmpty && b.sessions.isEmpty then return (b, 0, 0)
  let (b, delivered) ← b.deliverLive topic payload srcQos
  pure (b.storeOffline topic payload srcQos, delivered, 0)

def publishLwt (b : Broker) (token : Token) : Run Broker :=
  match (b.clients.get? token).bind Client.will with
  | some will => do
    let b := { b with willLog := b.willLog ++ [(token, will)] }
    let (b, _) ← b.publish will.topic will.message will.qos will.retain
    pure b
  | none => pure b

/-- How `remove_client` reads a queued packet back: the body is taken to start at byte 2. -/
def decodeQueued (pkt : Bytes) : Run (Str × Bytes × UInt8) := do
  let body ← Run.slice pkt 2 pkt.length
  let tlen := (← u16At body 0).toNat
  let topic := Str.fromUtf8Lossy (← Run.slice body 2 (2 + tlen))
  let first ← Run.index pkt 0
  let qos := (first &&& 0x06) >>> 1
  let off := if qos > 0 then 2 + tlen + 2 else 2 + tlen
  pure (topic, ← Run.slice body off body.length, qos)

/-- The subscriptions a connection holds. -/
def subsOf (b : Broker) (token : Token) : List (Str × UInt8) :=
  (b.subs.filter fun s => s.token = token).map fun s => (s.filter, s.qos)

/-- `entry.subs.push(s)` unless it is there -/
def addMissing (subs : List (Str × UInt8)) (s : Str × UInt8) : List (Str × UInt8) :=
  if subs.contains s then subs else subs ++ [s]

/-- `entry.offline.push_back(m)` while there is room -/
def addCapped (offline : List (Str × Bytes × UInt8)) (m : Str × Bytes × UInt8) :
    List (Str × Bytes × UInt8) :=
  if offline.length < OFFLINE_CAP then offline ++ [m] else offline

/-- The middle part of `remove_client`: save subscriptions and queued reliable traffic of a
persistent client in its session. -/
def persistSession (b : Broker) (token : Token) : Run Broker :=
  match b.clients.get? token with
  | some c =>
    if !c.cleanSession && !c.clientId.isEmpty then do
      let offline ← (c.writeQueue.filter Prod.fst).mapM fun e => decodeQueued e.2
      -- what a stored session holds comes first, and is never replaced
      let entry := (b.sessions.get? c.clientId).getD ⟨[], []⟩
      let entry : SessionState :=
        ⟨(b.subsOf token).foldl addMissing entry.subs, offline.foldl addCapped entry.offline⟩
      pure { b with sessions := b.sessions.insert c.clientId entry, dirty := true }
    else pure b
  | none => pure b

/-- The last part of `remove_client`: forget subscriptions and connection. -/
def dropClient (b : Broker) (token : Token) : Broker :=
  let b := { b with subs := b.subs.filter fun s => s.token != token }
  let b := b.rebuildIndex
  { b with clients := b.clients.erase token }

def removeClient (b : Broker) (token : Token) : Run Broker := do
  let clean := ((b.clients.get? token).map Client.cleanDisconnect).getD false
  -- the client is still subscribed, and may be sent its own will
  let b ← if !clean then b.publishLwt token else pure b
  let b ← b.persistSession token
  pure (b.dropClient token).save

/-- `n.to_string()` -/
def decimal (n : Nat) : Bytes := (Nat.toDigits 10 n).map fun c => UInt8.ofNat c.toNat

/-- An ASCII string constant. -/
def ascii (s : String) : Bytes := s.toList.map fun c => UInt8.ofNat c.toNat

/-- The table `topics` of `publish_sys_topics`; every entry is published with QoS 0 and
retain, in this order. -/
def sysTopics (b : Broker) : List (Str × Bytes) :=
  [("$SYS/broker/version", ascii "mqtt-broker-rs 0.1.0"),
    ("$SYS/broker/uptime", decimal ((b.now - b.sysStart) / secs 1)),
    ("$SYS/broker/clients/connected", decimal b.clients.size),
    ("$SYS/broker/clients/total", decimal b.sysClientsTotal),
    ("$SYS/broker/messages/received", decimal b.sysMsgsReceived),
    ("$SYS/broker/messages/sent", decimal b.sysMsgsSent),
    ("$SYS/broker/messages/publish/received", decimal b.sysPubReceived),
    ("$SYS/broker/messages/publish/sent", decimal b.sysPubSent),
    ("$SYS/broker/subscriptions/count", decimal b.subs.length)].map fun e =>
    (.fromUtf8Lossy (ascii e.1), e.2)

end Broker
end MioBroker
