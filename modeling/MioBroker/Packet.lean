import MioBroker.Rust.Core

/-!
# Wire format: packet builders and parsers
-/
namespace MioBroker

open Rust

def MAX_PACKET : Nat := 1048576
def READ_CAP : Nat := 2 * MAX_PACKET
def WRITE_QUEUE_CAP : Nat := 8192
def IN_FLIGHT_CAP : Nat := 256
def OFFLINE_CAP : Nat := 1024
def QOS1_MAX_RETRIES : Nat := 3

def CONNECT : UInt8 := 1
def CONNACK : UInt8 := 2
def PUBLISH : UInt8 := 3
def PUBACK : UInt8 := 4
def PUBREC : UInt8 := 5
def PUBREL : UInt8 := 6
def PUBCOMP : UInt8 := 7
def SUBSCRIBE : UInt8 := 8
def SUBACK : UInt8 := 9
def UNSUBSCRIBE : UInt8 := 10
def UNSUBACK : UInt8 := 11
def PINGREQ : UInt8 := 12
def PINGRESP : UInt8 := 13
def DISCONNECT : UInt8 := 14

/-- `encode_rem`, the buffer being the result; `fuel` bounds the number of groups. -/
def encodeRemAux : Nat → Nat → Bytes
  | 0, len => [UInt8.ofNat (len % 128)]
  | fuel + 1, len =>
    if len / 128 > 0 then (UInt8.ofNat (len % 128) ||| 0x80) :: encodeRemAux fuel (len / 128)
    else [UInt8.ofNat (len % 128)]

def encodeRem (len : Nat) : Bytes := encodeRemAux len len

/-- Bit 3 of the first byte, DUP on a PUBLISH. -/
def isDup (pkt : Bytes) : Bool :=
  match pkt with
  | first :: _ => first &&& 0x08 != 0
  | [] => false

/-- Bits 1 and 2 of the first byte, the QoS of a PUBLISH. -/
def qosBits (pkt : Bytes) : UInt8 :=
  match pkt with
  | first :: _ => (first &&& 0x06) >>> 1
  | [] => 0

/-- The upper half of the first byte. -/
def packetType (pkt : Bytes) : UInt8 :=
  match pkt with
  | first :: _ => first >>> 4
  | [] => 0

def buildConnack : Bytes := [CONNACK <<< 4, 0x02, 0x00, 0x00]

def buildSuback (pid : UInt16) (grants : List UInt8) : Bytes :=
  [SUBACK <<< 4, UInt8.ofNat (2 + grants.length)] ++ u16ToBe pid ++ grants

/-- The acknowledgements share one shape: a first byte, length 2, the packet id. -/
def buildAck (first : UInt8) (pid : UInt16) : Bytes := [first, 0x02] ++ u16ToBe pid

def buildUnsuback (pid : UInt16) : Bytes := buildAck (UNSUBACK <<< 4) pid
def buildPuback (pid : UInt16) : Bytes := buildAck (PUBACK <<< 4) pid
def buildPubrec (pid : UInt16) : Bytes := buildAck (PUBREC <<< 4) pid
def buildPubrel (pid : UInt16) : Bytes := buildAck ((PUBREL <<< 4) ||| 0x02) pid
def buildPubcomp (pid : UInt16) : Bytes := buildAck (PUBCOMP <<< 4) pid
def buildPingresp : Bytes := [PINGRESP <<< 4, 0x00]

/-- First byte of a forwarded PUBLISH. -/
def forwardFlags (qos : UInt8) (dup retain : Bool) : UInt8 :=
  let flags := PUBLISH <<< 4
  let flags := if qos > 0 then flags ||| (qos <<< 1) else flags
  let flags := if dup then flags ||| 0x08 else flags
  if retain then flags ||| 0x01 else flags

/-- Body of a forwarded PUBLISH: length-prefixed topic, packet id if any, payload. -/
def forwardBody (topic payload : Bytes) (pid : Option UInt16) : Bytes :=
  u16ToBe (UInt16.ofNat topic.length) ++ topic ++
    (match pid with
      | some p => u16ToBe p
      | none => []) ++ payload

def buildForward (topic payload : Bytes) (qos : UInt8) (pid : Option UInt16)
    (dup retain : Bool) : Bytes :=
  let body := forwardBody topic payload pid
  forwardFlags qos dup retain :: encodeRem body.length ++ body

/-- `u16::from_be_bytes([body[i], body[i + 1]])` -/
def u16At (body : Bytes) (i : Nat) : Run UInt16 := do
  let hi ← Run.index body i
  let lo ← Run.index body (i + 1)
  pure (u16FromBe hi lo)

/-- What `parse_connect` reads off a CONNECT body. -/
structure ConnectPacket where
  cid : Str
  keepalive : UInt16
  willFlag : Bool
  willQos : UInt8
  willRetain : Bool
  willTopic : Str
  willMessage : Bytes
  cleanSession : Bool

def parseConnect (body : Bytes) : Run (Option ConnectPacket) := do
  if body.length < 12 then return none
  let plen := (← u16At body 0).toNat
  if body.length < 6 + plen + 2 then return none
  let flags ← Run.index body (3 + plen)
  let keepalive ← u16At body (4 + plen)
  let pos := 6 + plen
  let clen := (← u16At body pos).toNat
  let pos := pos + 2
  if pos + clen > body.length then return none
  let cid := Str.fromUtf8Lossy (← Run.slice body pos (pos + clen))
  let pos := pos + clen
  let cleanSession := (flags >>> 1) &&& 0x01 == 1
  let willFlag := (flags >>> 2) &&& 0x01 == 1
  let willQos := (flags >>> 3) &&& 0x03
  let willRetain := (flags >>> 5) &&& 0x01 == 1
  if willFlag then
    if pos + 2 > body.length then return none
    let wlen := (← u16At body pos).toNat
    let pos := pos + 2
    if pos + wlen > body.length then return none
    let wtopic := Str.fromUtf8Lossy (← Run.slice body pos (pos + wlen))
    let pos := pos + wlen
    if pos + 2 > body.length then return none
    let mlen := (← u16At body pos).toNat
    let pos := pos + 2
    if pos + mlen > body.length then return none
    let wmsg ← Run.slice body pos (pos + mlen)
    return some ⟨cid, keepalive, willFlag, willQos, willRetain, wtopic, wmsg, cleanSession⟩
  else
    return some ⟨cid, keepalive, false, 0, false, Str.empty, [], cleanSession⟩

/-- The entry loop of `parse_subscribe`; every entry takes at least three bytes. -/
def parseSubscribeLoop (body : Bytes) :
    Nat → Nat → List (Str × UInt8) → Run (Option (List (Str × UInt8)))
  | 0, _, out => pure (some out)
  | fuel + 1, pos, out => do
    if pos + 2 ≤ body.length then
      let tlen := (← u16At body pos).toNat
      let pos := pos + 2
      if pos + tlen + 1 > body.length then return none
      let filter := Str.fromUtf8Lossy (← Run.slice body pos (pos + tlen))
      let pos := pos + tlen
      let qos := (← Run.index body pos) &&& 0x03
      parseSubscribeLoop body fuel (pos + 1) (out ++ [(filter, qos)])
    else return some out

def parseSubscribe (body : Bytes) : Run (Option (UInt16 × List (Str × UInt8))) := do
  if body.length < 3 then return none
  let pid ← u16At body 0
  match ← parseSubscribeLoop body body.length 2 [] with
  | some out => return some (pid, out)
  | none => return none

/-- The entry loop of `parse_unsubscribe`; every entry takes at least two bytes. -/
def parseUnsubscribeLoop (body : Bytes) : Nat → Nat → List Str → Run (Option (List Str))
  | 0, _, out => pure (some out)
  | fuel + 1, pos, out => do
    if pos + 2 ≤ body.length then
      let tlen := (← u16At body pos).toNat
      let pos := pos + 2
      if pos + tlen > body.length then return none
      let filter := Str.fromUtf8Lossy (← Run.slice body pos (pos + tlen))
      parseUnsubscribeLoop body fuel (pos + tlen) (out ++ [filter])
    else return some out

def parseUnsubscribe (body : Bytes) : Run (Option (UInt16 × List Str)) := do
  if body.length < 3 then return none
  let pid ← u16At body 0
  match ← parseUnsubscribeLoop body body.length 2 [] with
  | some out => return some (pid, out)
  | none => return none

/-- What `parse_publish` reads off a PUBLISH. -/
structure PublishPacket where
  topic : Str
  qos : UInt8
  pid : Option UInt16
  payload : Bytes
  retain : Bool

/-- Bits 1 and 2 of the PUBLISH flags. -/
def publishQos (flags : UInt8) : UInt8 := (flags >>> 1) &&& 0x03

/-- Bit 0 of the PUBLISH flags. -/
def publishRetain (flags : UInt8) : Bool := flags &&& 0x01 != 0

def parsePublish (flags : UInt8) (body : Bytes) : Run (Option PublishPacket) := do
  if body.length < 3 then return none
  let tlen := (← u16At body 0).toNat
  let qos := publishQos flags
  let retain := publishRetain flags
  let pos := 2 + tlen
  if pos > body.length then return none
  let topic := Str.fromUtf8Lossy (← Run.slice body 2 (2 + tlen))
  if qos > 0 then
    if pos + 2 > body.length then return none
    let p ← u16At body pos
    let payload ← Run.slice body (pos + 2) body.length
    return some ⟨topic, qos, some p, payload, retain⟩
  else
    let payload ← Run.slice body pos body.length
    return some ⟨topic, qos, none, payload, retain⟩

def parsePidOnly (body : Bytes) : Run (Option UInt16) := do
  if body.length < 4 then return none
  let tlen := (← u16At body 0).toNat
  if body.length < 2 + tlen + 2 then return none
  return some (← u16At body (2 + tlen))

/-- One framed packet: type, flags and body. -/
structure Packet where
  ptype : UInt8
  flags : UInt8
  body : Bytes
  deriving DecidableEq

/-- The remaining-length loop: at most four bytes, the last without continuation bit.
Answers the value and the index of the last length byte. -/
def decodeRem : Nat → Bytes → Nat → Nat → Nat → Option (Nat × Nat)
  | 0, _, _, _, _ => none
  | _ + 1, [], _, _, _ => none
  | n + 1, x :: xs, i, mult, rem =>
    let rem := rem + (x &&& 0x7f).toNat * mult
    if x &&& 0x80 == 0 then some (rem, i) else decodeRem n xs (i + 1) (mult * 128) rem

/-- What the framing loop leaves: the packets, the unconsumed tail, and the length of a
refused packet. -/
structure Framed where
  pkts : List Packet
  rest : Bytes
  bad : Option Nat

/-- The framing loop of `handle_packets` on the unconsumed bytes `b`; every packet takes at
least two bytes, so the length of the buffer is fuel enough. -/
def frameLoop : Nat → Bytes → List Packet → Framed
  | 0, b, pkts => ⟨pkts, b, none⟩
  | _ + 1, [], pkts => ⟨pkts, [], none⟩
  | fuel + 1, b0 :: b, pkts =>
    match decodeRem 4 b 1 1 0 with
    | none => ⟨pkts, b0 :: b, none⟩
    | some (rem, i) =>
      if rem > MAX_PACKET then ⟨pkts, b0 :: b, some rem⟩
      else if (b0 :: b).length < i + 1 + rem then ⟨pkts, b0 :: b, none⟩
      else
        let body := ((b0 :: b).drop (i + 1)).take rem
        frameLoop fuel ((b0 :: b).drop (i + 1 + rem)) (pkts ++ [⟨b0 >>> 4, b0 &&& 0x0f, body⟩])

def frame (buf : Bytes) : Framed := frameLoop buf.length buf []

end MioBroker
