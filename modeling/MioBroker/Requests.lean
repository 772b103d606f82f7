import MioBroker.Connecting
import MioBroker.Framing
import MioBroker.Grammar

/-!
# The packets of the QoS 0 core

What a client may send to a broker that knows no sessions, no wills and no retained messages,
as syntax and as bytes; and what the parsers make of the bytes.
-/
namespace MioBroker

open Rust

inductive Request
  /-- a clean session without a will -/
  | connect (keepalive : UInt16) (cid : Str) (user : Option Str) (password : Option Bytes)
  /-- every filter with QoS 0 -/
  | subscribe (pid : UInt16) (filters : List Str)
  | unsubscribe (pid : UInt16) (filters : List Str)
  /-- QoS 1 when there is a packet id, else QoS 0; never retained -/
  | publish (dup : Bool) (topic : Str) (pid : Option UInt16) (payload : Bytes)
  | pingreq
  | disconnect

namespace Request

def connectFlags (user password : Bool) : UInt8 :=
  0x02 ||| (if user then 0x80 else 0) ||| (if password then 0x40 else 0)

/-- First byte: the packet type and its flags. -/
def header : Request → UInt8
  | .connect .. => 0x10
  | .subscribe .. => 0x82
  | .unsubscribe .. => 0xa2
  | .publish dup _ pid _ => 0x30 ||| (if dup then 0x08 else 0) ||| (if pid.isSome then 0x02 else 0)
  | .pingreq => 0xc0
  | .disconnect => 0xe0

def body : Request → Bytes
  | .connect keepalive cid user password =>
    [0, 4, 77, 81, 84, 84, 4, connectFlags user.isSome password.isSome] ++ u16ToBe keepalive ++
      field cid.bytes ++ (user.map fun u => field u.bytes).getD [] ++ (password.map field).getD []
  | .subscribe pid filters => u16ToBe pid ++ filters.flatMap fun f => field f.bytes ++ [0]
  | .unsubscribe pid filters => u16ToBe pid ++ filters.flatMap fun f => field f.bytes
  | .publish _ topic pid payload => field topic.bytes ++ (pid.map u16ToBe).getD [] ++ payload
  | .pingreq => []
  | .disconnect => []

/-- The length limits of the format, and what must not be empty. -/
def WellFormed : Request → Prop
  | .connect _ cid user password =>
    cid.length < 65536 ∧ (∀ u ∈ user, u.length < 65536) ∧ ∀ p ∈ password, p.length < 65536
  | .subscribe _ filters => filters ≠ [] ∧ ∀ f ∈ filters, f.length < 65536
  | .unsubscribe _ filters => filters ≠ [] ∧ ∀ f ∈ filters, f.length < 65536
  | .publish _ topic _ _ => 0 < topic.length ∧ topic.length < 65536
  | .pingreq => True
  | .disconnect => True

/-- The bytes of a request: any terminated length of at most four bytes. -/
def Wire (r : Request) (bytes : Bytes) : Prop :=
  ∃ digits, Terminated digits ∧ digits.length ≤ 4 ∧ remValue digits = r.body.length ∧
    bytes = r.header :: (digits ++ r.body)

/-- What framing makes of the bytes. -/
def packet (r : Request) : Packet := ⟨r.header >>> 4, r.header &&& 0x0f, r.body⟩

end Request

@[simp] theorem Request.body_packet (r : Request) : r.packet.body = r.body := rfl

/-- The packet type of a request. -/
def Request.kind : Request → UInt8
  | .connect .. => CONNECT
  | .subscribe .. => SUBSCRIBE
  | .unsubscribe .. => UNSUBSCRIBE
  | .publish .. => PUBLISH
  | .pingreq => PINGREQ
  | .disconnect => DISCONNECT

@[simp] theorem Request.ptype_packet (r : Request) : r.packet.ptype = r.kind := by
  have publish : ∀ dup reliable : Bool, ((0x30 : UInt8) ||| (if dup then 0x08 else 0) |||
      (if reliable then 0x02 else 0)) >>> 4 = PUBLISH := by decide
  cases r with
  | connect => exact (by decide : (0x10 : UInt8) >>> 4 = CONNECT)
  | subscribe => exact (by decide : (0x82 : UInt8) >>> 4 = SUBSCRIBE)
  | unsubscribe => exact (by decide : (0xa2 : UInt8) >>> 4 = UNSUBSCRIBE)
  | publish dup topic pid payload => exact publish dup pid.isSome
  | pingreq => exact (by decide : (0xc0 : UInt8) >>> 4 = PINGREQ)
  | disconnect => exact (by decide : (0xe0 : UInt8) >>> 4 = DISCONNECT)

/-- The flags of a PUBLISH: its QoS, and no retain bit. -/
theorem Request.flags_publish (dup : Bool) (topic : Str) (pid : Option UInt16) (payload : Bytes) :
    publishQos (Request.publish dup topic pid payload).packet.flags = (if pid.isSome then 1 else 0) ∧
      publishRetain (Request.publish dup topic pid payload).packet.flags = false := by
  have all : ∀ dup reliable : Bool,
      let header : UInt8 := 0x30 ||| (if dup then 0x08 else 0) ||| (if reliable then 0x02 else 0)
      publishQos (header &&& 0x0f) = (if reliable then 1 else 0) ∧
        publishRetain (header &&& 0x0f) = false := by decide
  exact all dup pid.isSome

/-! ### Parsing -/

/-- The parts of a PUBLISH body, `n` being the length of its topic. -/
theorem publish_read (dup : Bool) (topic : Str) (pid : Option UInt16) (payload : Bytes)
    (short : topic.length < 65536) (body : Bytes)
    (encoded : body = (Request.publish dup topic pid payload).body) :
    ∃ len n, u16At body 0 = .ok len ∧ len.toNat = n ∧ n = topic.length ∧
      body.length = 2 + n + (if pid.isSome then 2 else 0) + payload.length ∧
      Run.slice body 2 (2 + n) = .ok topic.bytes ∧
      (∀ p, pid = some p → u16At body (2 + n) = .ok p) ∧
      Run.slice body (2 + n + if pid.isSome then 2 else 0) body.length = .ok payload := by
  -- The topic field, the packet id where there is one, and the payload.
  have layout : body = field topic.bytes ++ ((pid.map u16ToBe).getD [] ++ payload) := by
    rw [encoded]
    exact List.append_assoc _ _ _
  have behind : 2 + topic.length = (field topic.bytes).length := (length_field _).symm
  have carried : ((pid.map u16ToBe).getD []).length = if pid.isSome then 2 else 0 := by
    cases pid <;> rfl
  have size : body.length = 2 + topic.length + (if pid.isSome then 2 else 0) + payload.length := by
    rw [layout, List.length_append, List.length_append, ← behind, carried, ← Nat.add_assoc]
  obtain ⟨len, read, value, whole⟩ := field_layout [] _ layout rfl short
  refine ⟨len, topic.length, read, value, rfl, size, whole, ?_, ?_⟩
  · rintro p rfl
    exact u16At_layout _ payload layout behind
  · have cut : body = (field topic.bytes ++ (pid.map u16ToBe).getD []) ++ (payload ++ []) := by
      rw [layout, List.append_nil, List.append_assoc]
    refine slice_layout _ [] cut ?_ ?_
    · rw [List.length_append, ← behind, carried]
    · rw [size, List.length_append, ← behind, carried]

/-- The body of a PUBLISH is read back when the flags tell whether it has a packet id. -/
theorem parsePublish_body (dup : Bool) (topic : Str) (pid : Option UInt16) (payload : Bytes)
    (flags : UInt8) (named : 1 ≤ topic.length) (short : topic.length < 65536)
    (identified : pid.isSome = true ↔ publishQos flags > 0) :
    parsePublish flags (Request.publish dup topic pid payload).body =
      .ok (some ⟨topic, publishQos flags, pid, payload, publishRetain flags⟩) := by
  obtain ⟨body, encoded⟩ : ∃ body, body = (Request.publish dup topic pid payload).body := ⟨_, rfl⟩
  obtain ⟨len, n, read, value, same, size, whole, id, tail⟩ :=
    publish_read dup topic pid payload short body encoded
  rw [← encoded, parsePublish, if_neg (by omega), read, Run.ok_bind]
  simp only [value]
  rw [if_neg (by omega), whole, Run.ok_bind, Str.fromUtf8Lossy_bytes]
  cases pid with
  | none =>
    rw [if_neg (by simpa using identified)]
    exact Run.bind_ok.mpr ⟨payload, tail, rfl⟩
  | some pid =>
    have reliable : publishQos flags > 0 := identified.mp rfl
    rw [if_pos reliable, if_neg (by simp at size; omega), id pid rfl, Run.ok_bind]
    exact Run.bind_ok.mpr ⟨payload, tail, rfl⟩

theorem parsePublish_request (dup : Bool) (topic : Str) (pid : Option UInt16) (payload : Bytes)
    (wellFormed : (Request.publish dup topic pid payload).WellFormed) (flags : UInt8)
    (qos : publishQos flags = if pid.isSome then 1 else 0) :
    parsePublish flags (Request.publish dup topic pid payload).body =
      .ok (some ⟨topic, publishQos flags, pid, payload, publishRetain flags⟩) := by
  refine parsePublish_body dup topic pid payload flags wellFormed.1 wellFormed.2 ?_
  rw [qos]
  cases pid <;> simp

/-- One entry of a SUBSCRIBE. -/
def subscribeEntry (f : Str) : Bytes := field f.bytes ++ [0]

theorem parseSubscribe_request (pid : UInt16) (filters : List Str)
    (wellFormed : (Request.subscribe pid filters).WellFormed) :
    parseSubscribe (Request.subscribe pid filters).body =
      .ok (some (pid, filters.map fun f => (f, 0))) := by
  obtain ⟨nonempty, short⟩ := wellFormed
  have layout : (Request.subscribe pid filters).body =
      u16ToBe pid ++ filters.flatMap subscribeEntry := rfl
  -- on the wire an entry is the bytes of a filter and the byte of its QoS
  have entries : (filters.map fun f => ((f.bytes, 0) : SubscribeEntry)).flatMap SubscribeEntry.encode =
      filters.flatMap subscribeEntry := List.flatMap_map ..
  refine (parseSubscribe_iff _ pid _).mpr ⟨?_, filters.map fun f => (f.bytes, 0), [], ⟨?_, ?_⟩, by simp, ?_⟩
  · obtain ⟨f, rest, rfl⟩ := List.exists_cons_of_ne_nil nonempty
    rw [layout]
    simp only [List.flatMap_cons, List.length_append, length_u16ToBe, subscribeEntry, List.length_singleton]
    omega
  · intro e member
    obtain ⟨f, inside, rfl⟩ := List.mem_map.mp member
    exact Nat.le_of_lt_succ (short f inside)
  · rw [layout, entries, List.append_nil]
  · simp [SubscribeEntry.decode]

/-- One entry of an UNSUBSCRIBE. -/
def unsubscribeEntry (f : Str) : Bytes := field f.bytes

theorem parseUnsubscribe_request (pid : UInt16) (filters : List Str)
    (wellFormed : (Request.unsubscribe pid filters).WellFormed) :
    parseUnsubscribe (Request.unsubscribe pid filters).body = .ok (some (pid, filters)) := by
  obtain ⟨nonempty, short⟩ := wellFormed
  have layout : (Request.unsubscribe pid filters).body =
      u16ToBe pid ++ filters.flatMap unsubscribeEntry := rfl
  have entries : (filters.map Str.bytes).flatMap field = filters.flatMap unsubscribeEntry :=
    List.flatMap_map ..
  refine (parseUnsubscribe_iff _ pid _).mpr ⟨?_, filters.map Str.bytes, [], ⟨?_, ?_⟩, by simp, ?_⟩
  · obtain ⟨f, rest, rfl⟩ := List.exists_cons_of_ne_nil nonempty
    rw [layout]
    simp only [List.flatMap_cons, List.length_append, length_u16ToBe, unsubscribeEntry, length_field]
    omega
  · intro bytes member
    obtain ⟨f, inside, rfl⟩ := List.mem_map.mp member
    exact Nat.le_of_lt_succ (short f inside)
  · rw [layout, entries, List.append_nil]
  · rw [List.map_map]
    exact (List.map_id'' Str.fromUtf8Lossy_bytes filters).symm

/-- What a CONNECT of the core fills in, and the login behind it. -/
def Request.connectFields (keepalive : UInt16) (cid : Str) (user password : Bool) : ConnectFields :=
  ⟨[77, 81, 84, 84], 4, keepalive, true, cid, none, user, password⟩

theorem Request.connectFields_valid (keepalive : UInt16) {cid : Str} (user password : Bool)
    (short : cid.length < 65536) : (connectFields keepalive cid user password).Valid where
  named := Nat.le_refl 4
  name := (by decide : 4 ≤ 65535)
  cid := Nat.le_of_lt_succ short
  will := by
    rintro w ⟨⟩

/-- The flags are laid out as those of any CONNECT. -/
theorem Request.connectFlags_eq : ∀ user password : Bool, connectFlags user password =
    MioBroker.connectFlags true false 0 false password user := by
  decide

theorem Request.body_connect (keepalive : UInt16) (cid : Str) (user : Option Str)
    (password : Option Bytes) : (Request.connect keepalive cid user password).body =
      (connectFields keepalive cid user.isSome password.isSome).encode ++
        ((user.map fun u => field u.bytes).getD [] ++ (password.map field).getD []) := by
  have name : field [77, 81, 84, 84] = [0, 4, 77, 81, 84, 84] := by decide
  have flags : (connectFields keepalive cid user.isSome password.isSome).flags =
      connectFlags user.isSome password.isSome := (connectFlags_eq _ _).symm
  rw [ConnectFields.encode, flags]
  simp [body, connectFields, ConnectFields.willBytes, name]

theorem parseConnect_request (keepalive : UInt16) (cid : Str) (user : Option Str)
    (password : Option Bytes) (wellFormed : (Request.connect keepalive cid user password).WellFormed) :
    parseConnect (Request.connect keepalive cid user password).body =
      .ok (some ⟨cid, keepalive, false, 0, false, Str.empty, [], true⟩) := by
  rw [Request.body_connect]
  exact ConnectFields.parseConnect_encode
    (Request.connectFields_valid keepalive user.isSome password.isSome wellFormed.1) _

end MioBroker
