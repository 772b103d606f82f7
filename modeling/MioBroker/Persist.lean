import MioBroker.State

/-!
# Disk persistence: the state file

Magic, version, the retained table, the sessions; every length is a little-endian `u16`.
-/
namespace MioBroker

open Rust

/-- `b"MQTTSTATE\0"` -/
def STATE_MAGIC : Bytes := [77, 81, 84, 84, 83, 84, 65, 84, 69, 0]

def STATE_VERSION : UInt8 := 1

/-- `push_u16(out, n as u16)`: the count is cut to 16 bits. -/
def pushU16 (n : Nat) : Bytes := u16ToLe (UInt16.ofNat n)

/-- A length and the bytes it announces. -/
def pushBytes (bs : Bytes) : Bytes := pushU16 bs.length ++ bs

/-- (topic, payload, qos): a retained entry, and an entry of an offline queue. -/
def pushMessage (topic : Str) (payload : Bytes) (qos : UInt8) : Bytes :=
  pushBytes topic.bytes ++ pushBytes payload ++ [qos]

def pushSub (sub : Str × UInt8) : Bytes := pushBytes sub.1.bytes ++ [sub.2]

def pushSession (cid : Str) (sess : SessionState) : Bytes :=
  pushBytes cid.bytes ++ pushU16 sess.subs.length ++ sess.subs.flatMap pushSub ++
    pushU16 sess.offline.length ++
    sess.offline.flatMap fun m => pushMessage m.1 m.2.1 m.2.2

def serializeState (retained : HashMap Str (Bytes × UInt8))
    (sessions : HashMap Str SessionState) : Bytes :=
  STATE_MAGIC ++ [STATE_VERSION] ++ pushU16 retained.size ++
    retained.iter.flatMap (fun e => pushMessage e.1 e.2.1 e.2.2) ++
    pushU16 sessions.size ++ sessions.iter.flatMap fun e => pushSession e.1 e.2

/-- A decoder: the input and the position in it; `none` on a short read. -/
abbrev Decoder (α : Type) := StateT Bytes Option α

/-- `take`: exactly `n` bytes of what is left from the position on. -/
def take (n : Nat) : Decoder Bytes := fun data =>
  if n > data.length then none else some (data.take n, data.drop n)

def takeU16 : Decoder Nat := do
  let bs ← take 2
  match bs with
  | [lo, hi] => pure (u16FromLe lo hi).toNat
  | _ => fun _ => none

def takeBytes : Decoder Bytes := do
  let n ← takeU16
  take n

/-- One byte; a QoS above 2 is refused. -/
def takeQos : Decoder UInt8 := do
  let bs ← take 1
  match bs with
  | [qos] => if qos > 2 then fun _ => none else pure qos
  | _ => fun _ => none

def takeMessage : Decoder (Str × Bytes × UInt8) := do
  let topic ← takeBytes
  let payload ← takeBytes
  let qos ← takeQos
  pure (.fromUtf8Lossy topic, payload, qos)

def takeSub : Decoder (Str × UInt8) := do
  let filter ← takeBytes
  let qos ← takeQos
  pure (.fromUtf8Lossy filter, qos)

/-- The `for _ in 0..count` loops of the decoder. -/
def takeMany {α : Type} (item : Decoder α) : Nat → Decoder (List α)
  | 0 => pure []
  | n + 1 => do
    let a ← item
    let rest ← takeMany item n
    pure (a :: rest)

def takeSession : Decoder (Str × SessionState) := do
  let cid ← takeBytes
  let subCount ← takeU16
  let subs ← takeMany takeSub subCount
  let offlineCount ← takeU16
  let offline ← takeMany takeMessage offlineCount
  pure (.fromUtf8Lossy cid, ⟨subs, offline⟩)

/-- `insert` for every decoded entry in turn, a later one winning. -/
def insertAll {V : Type} (m : HashMap Str V) (entries : List (Str × V)) : HashMap Str V :=
  entries.foldl (fun m e => m.insert e.1 e.2) m

/-- The part of `deserialize_state` behind the header. -/
def takeState (h : Hashers) :
    Decoder (HashMap Str (Bytes × UInt8) × HashMap Str SessionState) := do
  let retainedCount ← takeU16
  let retained ← takeMany takeMessage retainedCount
  let sessionCount ← takeU16
  let sessions ← takeMany takeSession sessionCount
  pure (insertAll (.new h.retained) retained, insertAll (.new h.sessions) sessions)

def deserializeState (h : Hashers) (data : Bytes) :
    Option (HashMap Str (Bytes × UInt8) × HashMap Str SessionState) :=
  if data.length < STATE_MAGIC.length + 1 then none
  else if data.take STATE_MAGIC.length ≠ STATE_MAGIC then none
  else if data[STATE_MAGIC.length]? ≠ some STATE_VERSION then none
  else (takeState h (data.drop (STATE_MAGIC.length + 1))).map Prod.fst

namespace Broker

def save (b : Broker) : Broker :=
  if !b.dirty then b
  else match b.stateFile.fault with
    | none =>
      { b with
        stateFile := { b.stateFile with content := some (serializeState b.retained b.sessions) }
        dirty := false
        lastSave := b.now }
    -- a failed write leaves the flag up, and the next save tries again
    | some left => { b with stateFile := { b.stateFile with content := left } }

def loadState (b : Broker) (h : Hashers) : Broker :=
  let b := match b.stateFile.content with
    | some data =>
      match deserializeState h data with
      | some (retained, sessions) => { b with retained, sessions }
      | none => b
    | none => b
  -- whatever was read is written back by the next save
  { b with dirty := true }

end Broker
end MioBroker
