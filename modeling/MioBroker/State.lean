import MioBroker.Client
import MioBroker.Topic

/-!
# The broker record and its index
-/
namespace MioBroker

open Rust

structure Subscription where
  filter : Str
  token : Token
  qos : UInt8
  deriving DecidableEq

/-- Persistent session: subscriptions and the offline queue of (topic, payload, qos). -/
structure SessionState where
  subs : List (Str × UInt8)
  offline : List (Str × Bytes × UInt8)

/-- A message `deliver_to` accepted, with the identity of the client at that time. -/
structure Delivery where
  clientId : Str
  cleanSession : Bool
  topic : Str
  payload : Bytes
  qos : UInt8
  deriving DecidableEq

/-- The state file: what it holds (`none` when absent), and how a write goes. It succeeds
when there is no fault; otherwise it fails and leaves the given content behind. -/
structure StateFile where
  content : Option Bytes
  fault : Option (Option Bytes)

structure Broker where
  clients : HashMap Token Client
  subs : List Subscription
  subsExact : HashMap Str (List Nat)
  subsWild : Trie
  nextToken : Token
  deadPruned : Nat
  retained : HashMap Str (Bytes × UInt8)
  sessions : HashMap Str SessionState
  dirty : Bool
  lastSave : Instant
  stateFile : StateFile
  sysClientsTotal : Nat
  sysMsgsReceived : Nat
  sysMsgsSent : Nat
  sysPubReceived : Nat
  sysPubSent : Nat
  sysStart : Instant
  sysLastPublish : Instant
  /-- What `Instant::now()` answers; only the environment moves it. -/
  now : Instant
  /-- Not in the source: the wills passed to `publish` so far, with their connections. -/
  willLog : List (Token × Will)
  /-- Not in the source: the messages for which `deliver_to` answered `Ok` so far. -/
  deliverLog : List Delivery

/-- The hashers a broker process draws. -/
structure Hashers where
  clients : RandomState Token
  exact : RandomState Str
  retained : RandomState Str
  sessions : RandomState Str

namespace Broker

def new (h : Hashers) (now : Instant) (stateFile : StateFile) : Broker where
  clients := .new h.clients
  subs := []
  subsExact := .new h.exact
  subsWild := .new
  nextToken := 1
  deadPruned := 0
  retained := .new h.retained
  sessions := .new h.sessions
  dirty := false
  lastSave := now
  stateFile := stateFile
  sysClientsTotal := 0
  sysMsgsReceived := 0
  sysMsgsSent := 0
  sysPubReceived := 0
  sysPubSent := 0
  sysStart := now
  sysLastPublish := now
  now := now
  willLog := []
  deliverLog := []

/-- Index one entry of `subs` in the tier its filter belongs to. -/
def indexSub (b : Broker) (idx : Nat) (filter : Str) : Broker :=
  if isWildFilter filter then { b with subsWild := b.subsWild.insert idx (levels filter) }
  else
    let bucket := (b.subsExact.get? filter).getD []
    { b with subsExact := b.subsExact.insert filter (bucket ++ [idx]) }

def addSub (b : Broker) (filter : Str) (token : Token) (qos : UInt8) : Broker :=
  let idx := b.subs.length
  indexSub { b with subs := b.subs ++ [⟨filter, token, qos⟩] } idx filter

/-- The loop of `rebuild_index` over `subs.iter().enumerate()` from position `idx` on. -/
def rebuildLoop : List Subscription → Nat → Broker → Broker
  | [], _, b => b
  | s :: rest, idx, b => rebuildLoop rest (idx + 1) (b.indexSub idx s.filter)

def rebuildIndex (b : Broker) : Broker :=
  rebuildLoop b.subs 0
    { b with subsExact := .new b.subsExact.hasher, subsWild := .new }

end Broker
end MioBroker
