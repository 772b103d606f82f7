import MioBroker.Layout
import MioBroker.Threaded

/-!
# CONNECT packets

What a client puts into a CONNECT, how it is laid out, and what the two parsers make of it. Every
field is found behind the ones before it, beginning with a protocol name of any length.
-/
namespace MioBroker

open Rust

/-- The contents of a CONNECT, but for the login behind them. -/
structure ConnectFields where
  name : Bytes
  level : UInt8
  keepalive : UInt16
  cleanSession : Bool
  cid : Str
  will : Option Will
  user : Bool
  password : Bool

/-- A flag that is set under a condition. -/
def flagIf (set : Bool) (mask : UInt8) : UInt8 := if set then mask else 0

/-- The connect flags: clean session, will with QoS and retain, password, user name. -/
def connectFlags (cleanSession will : Bool) (qos : UInt8) (retain password user : Bool) : UInt8 :=
  flagIf cleanSession 0x02 ||| flagIf will 0x04 ||| (qos <<< 3) ||| flagIf retain 0x20 |||
    flagIf password 0x40 ||| flagIf user 0x80

theorem connectFlags_bits {qos : UInt8} (graded : qos ≤ 2)
    (cleanSession will retain password user : Bool) :
    let flags := connectFlags cleanSession will qos retain password user
    ((flags >>> 1) &&& 0x01 == 1) = cleanSession ∧ ((flags >>> 2) &&& 0x01 == 1) = will ∧
      (flags >>> 3) &&& 0x03 = qos ∧ ((flags >>> 5) &&& 0x01 == 1) = retain := by
  have two : (2 : UInt8).toNat = 2 := rfl
  have cases : qos = 0 ∨ qos = 1 ∨ qos = 2 := by
    rw [UInt8.le_iff_toNat_le, two] at graded
    simp only [← UInt8.toNat_inj, UInt8.toNat_zero, UInt8.toNat_one, two]
    omega
  rcases cases with rfl | rfl | rfl <;> cases cleanSession <;> cases will <;> cases retain <;>
    cases password <;> cases user <;> decide

namespace ConnectFields

variable (f : ConnectFields)

def willQos : UInt8 := (f.will.map Will.qos).getD 0

def willRetain : Bool := (f.will.map Will.retain).getD false

def flags : UInt8 :=
  connectFlags f.cleanSession f.will.isSome f.willQos f.willRetain f.password f.user

/-- The fields of the will. -/
def willBytes : Bytes := (f.will.map fun w => field w.topic.bytes ++ field w.message).getD []

/-- Everything in front of the login. -/
def encode : Bytes :=
  field f.name ++ ([f.level, f.flags] ++ (u16ToBe f.keepalive ++ (field f.cid.bytes ++ f.willBytes)))

/-- What `parse_connect` is to answer. -/
def parsed : ConnectPacket where
  cid := f.cid
  keepalive := f.keepalive
  willFlag := f.will.isSome
  willQos := f.willQos
  willRetain := f.willRetain
  willTopic := (f.will.map Will.topic).getD .empty
  willMessage := (f.will.map Will.message).getD []
  cleanSession := f.cleanSession

/-- Every field fits its length prefix, the name is as long as `MQTT` and the QoS of the will is one. -/
structure Valid : Prop where
  named : 4 ≤ f.name.length
  name : f.name.length ≤ 65535
  cid : f.cid.length ≤ 65535
  will : ∀ w ∈ f.will, w.topic.length ≤ 65535 ∧ w.message.length ≤ 65535 ∧ w.qos ≤ 2

theorem length_encode :
    f.encode.length = 8 + f.name.length + f.cid.bytes.length + f.willBytes.length := by
  simp only [encode, List.length_append, length_field, length_u16ToBe, List.length_cons,
    List.length_nil]
  omega

theorem Valid.graded {f : ConnectFields} (valid : f.Valid) : f.willQos ≤ 2 := by
  rw [willQos]
  cases will : f.will with
  | none => exact (by decide : (0 : UInt8) ≤ 2)
  | some w => exact (valid.will w will).2.2

/-- Where the fields in front of the will lie. -/
structure Read (body : Bytes) (plen clen : UInt16) : Prop where
  name : u16At body 0 = .ok plen
  name_length : plen.toNat = f.name.length
  level : Run.index body (2 + plen.toNat) = .ok f.level
  flags : Run.index body (3 + plen.toNat) = .ok f.flags
  keepalive : u16At body (4 + plen.toNat) = .ok f.keepalive
  cid : u16At body (6 + plen.toNat) = .ok clen
  cid_length : clen.toNat = f.cid.bytes.length
  cid_bytes : Run.slice body (6 + plen.toNat + 2) (6 + plen.toNat + 2 + clen.toNat) = .ok f.cid.bytes

variable {f}

theorem Valid.read (valid : f.Valid) (trailing : Bytes) :
    ∃ plen clen, f.Read (f.encode ++ trailing) plen clen := by
  obtain ⟨body, encoded⟩ : ∃ body, body = f.encode ++ trailing := ⟨_, rfl⟩
  have layout : body = field f.name ++ ([f.level, f.flags] ++ (u16ToBe f.keepalive ++
      (field f.cid.bytes ++ (f.willBytes ++ trailing)))) := by
    rw [encoded, encode]
    simp only [List.append_assoc]
  obtain ⟨plen, name, name_length, -⟩ :=
    field_layout [] _ layout rfl (Nat.lt_succ_of_le valid.name)
  have head : body = (field f.name ++ [f.level, f.flags] ++ u16ToBe f.keepalive) ++
      (field f.cid.bytes ++ (f.willBytes ++ trailing)) := by
    rw [layout]
    simp only [List.append_assoc]
  have at_cid : 6 + plen.toNat =
      (field f.name ++ [f.level, f.flags] ++ u16ToBe f.keepalive).length := by
    simp only [List.length_append, length_field, length_u16ToBe, List.length_cons, List.length_nil]
    omega
  obtain ⟨clen, cid, cid_length, cid_bytes⟩ :=
    field_layout _ _ head at_cid (Nat.lt_succ_of_le valid.cid)
  rw [← encoded]
  refine ⟨plen, clen, name, name_length, ?_, ?_, ?_, cid, cid_length, ?_⟩
  · refine index_layout (field f.name) _ layout ?_
    rw [length_field, name_length]
  · refine index_layout (field f.name ++ [f.level])
      (u16ToBe f.keepalive ++ (field f.cid.bytes ++ (f.willBytes ++ trailing)))
      (layout.trans (by simp)) ?_
    rw [List.length_append, length_field, name_length, List.length_singleton]
    omega
  · refine u16At_layout (field f.name ++ [f.level, f.flags])
      (field f.cid.bytes ++ (f.willBytes ++ trailing)) (layout.trans (by simp)) ?_
    simp only [List.length_append, length_field, List.length_cons, List.length_nil]
    omega
  · rw [cid_length]
    exact cid_bytes

/-- Where the fields of the will lie, `pos` being the position behind the client id. -/
structure ReadWill (w : Will) (body : Bytes) (pos : Nat) (wlen mlen : UInt16) : Prop where
  topic : u16At body pos = .ok wlen
  topic_length : wlen.toNat = w.topic.bytes.length
  topic_bytes : Run.slice body (pos + 2) (pos + 2 + wlen.toNat) = .ok w.topic.bytes
  message : u16At body (pos + 2 + wlen.toNat) = .ok mlen
  message_length : mlen.toNat = w.message.length
  message_bytes : Run.slice body (pos + 2 + wlen.toNat + 2) (pos + 2 + wlen.toNat + 2 + mlen.toNat) =
    .ok w.message

theorem Valid.readWill (valid : f.Valid) (trailing : Bytes) {w : Will} (will : f.will = some w) :
    ∃ wlen mlen, ReadWill w (f.encode ++ trailing)
      (6 + f.name.length + 2 + f.cid.bytes.length) wlen mlen := by
  obtain ⟨topic_short, message_short, -⟩ := valid.will w will
  obtain ⟨body, encoded⟩ : ∃ body, body = f.encode ++ trailing := ⟨_, rfl⟩
  obtain ⟨front, front_eq⟩ : ∃ front, front =
    field f.name ++ [f.level, f.flags] ++ u16ToBe f.keepalive ++ field f.cid.bytes := ⟨_, rfl⟩
  have layout : body = front ++ (field w.topic.bytes ++ (field w.message ++ trailing)) := by
    rw [encoded, front_eq, encode, willBytes, will]
    simp only [Option.map_some, Option.getD_some, List.append_assoc]
  have at_will : 6 + f.name.length + 2 + f.cid.bytes.length = front.length := by
    rw [front_eq]
    simp only [List.length_append, length_field, length_u16ToBe, List.length_cons, List.length_nil]
    omega
  obtain ⟨wlen, topic, topic_length, topic_bytes⟩ :=
    field_layout front _ layout at_will (Nat.lt_succ_of_le topic_short)
  have behind : body = (front ++ field w.topic.bytes) ++ (field w.message ++ trailing) := by
    rw [layout, List.append_assoc]
  have at_message : 6 + f.name.length + 2 + f.cid.bytes.length + 2 + wlen.toNat =
      (front ++ field w.topic.bytes).length := by
    rw [List.length_append, length_field, ← at_will, topic_length, Nat.add_assoc _ 2]
  obtain ⟨mlen, message, message_length, message_bytes⟩ :=
    field_layout _ _ behind at_message (Nat.lt_succ_of_le message_short)
  rw [← encoded]
  refine ⟨wlen, mlen, topic, topic_length, ?_, message, message_length, ?_⟩
  · rw [topic_length]
    exact topic_bytes
  · rw [message_length]
    exact message_bytes

theorem parseConnect_encode (valid : f.Valid) (trailing : Bytes) :
    parseConnect (f.encode ++ trailing) = .ok (some f.parsed) := by
  have size := f.length_encode
  have named := valid.named
  obtain ⟨plen, clen, read⟩ := valid.read trailing
  obtain ⟨clean, will_bit, qos_bits, retain_bit⟩ := connectFlags_bits valid.graded f.cleanSession
    f.will.isSome f.willRetain f.password f.user
  have name_length := read.name_length
  have cid_length := read.cid_length
  have whole : (f.encode ++ trailing).length = f.encode.length + trailing.length := List.length_append
  simp only [parseConnect]
  rw [if_neg (by omega), read.name, Run.ok_bind, if_neg (by omega), read.flags, Run.ok_bind,
    read.keepalive, Run.ok_bind, read.cid, Run.ok_bind, if_neg (by omega), read.cid_bytes, Run.ok_bind]
  simp only [flags, clean, will_bit, qos_bits, retain_bit, Str.fromUtf8Lossy_bytes]
  cases will : f.will with
  | none => simp [parsed, will, willQos, willRetain]
  | some w =>
    obtain ⟨wlen, mlen, there⟩ := valid.readWill trailing will
    rw [← name_length, ← cid_length] at there
    have topic_length := there.topic_length
    have message_length := there.message_length
    have will_size : f.willBytes.length = 2 + w.topic.bytes.length + (2 + w.message.length) := by
      rw [willBytes, will]
      simp only [Option.map_some, Option.getD_some, List.length_append, length_field]
    simp only [Option.isSome_some, if_true]
    rw [if_neg (by omega), there.topic, Run.ok_bind, if_neg (by omega), there.topic_bytes, Run.ok_bind,
      if_neg (by omega), there.message, Run.ok_bind, if_neg (by omega), there.message_bytes, Run.ok_bind]
    simp [parsed, will, willQos, willRetain]

end ConnectFields

/-- What was read for an accepted CONNECT. -/
theorem parseConnect_some {body : Bytes} {q : ConnectPacket}
    (parse : parseConnect body = .ok (some q)) :
    ∃ plen flags clen cid, 12 ≤ body.length ∧ u16At body 0 = .ok plen ∧
      Run.index body (3 + plen.toNat) = .ok flags ∧ u16At body (4 + plen.toNat) = .ok q.keepalive ∧
      u16At body (6 + plen.toNat) = .ok clen ∧
      Run.slice body (6 + plen.toNat + 2) (6 + plen.toNat + 2 + clen.toNat) = .ok cid ∧
      q.cid = .fromUtf8Lossy cid ∧
      (((flags >>> 2) &&& 0x01 == 1) = true → ∃ wlen mlen,
        u16At body (6 + plen.toNat + 2 + clen.toNat) = .ok wlen ∧
        u16At body (6 + plen.toNat + 2 + clen.toNat + 2 + wlen.toNat) = .ok mlen ∧
        6 + plen.toNat + 2 + clen.toNat + 2 + wlen.toNat + 2 + mlen.toNat ≤ body.length) := by
  simp only [parseConnect] at parse
  split at parse
  · cases parse
  next long =>
  obtain ⟨plen, plen_ok, parse⟩ := Run.bind_ok.mp parse
  split at parse
  · cases parse
  obtain ⟨flags, flags_ok, parse⟩ := Run.bind_ok.mp parse
  obtain ⟨keepalive, keepalive_ok, parse⟩ := Run.bind_ok.mp parse
  obtain ⟨clen, clen_ok, parse⟩ := Run.bind_ok.mp parse
  split at parse
  · cases parse
  obtain ⟨cid, cid_ok, parse⟩ := Run.bind_ok.mp parse
  refine ⟨plen, flags, clen, cid, Nat.not_lt.mp long, plen_ok, flags_ok, ?_⟩
  split at parse
  next will =>
    split at parse
    · cases parse
    obtain ⟨wlen, wlen_ok, parse⟩ := Run.bind_ok.mp parse
    split at parse
    · cases parse
    obtain ⟨wtopic, -, parse⟩ := Run.bind_ok.mp parse
    split at parse
    · cases parse
    obtain ⟨mlen, mlen_ok, parse⟩ := Run.bind_ok.mp parse
    split at parse
    · cases parse
    next inside =>
    obtain ⟨wmsg, -, parse⟩ := Run.bind_ok.mp parse
    cases parse
    exact ⟨keepalive_ok, clen_ok, cid_ok, rfl, fun _ => ⟨wlen, mlen, wlen_ok, mlen_ok, Nat.not_lt.mp inside⟩⟩
  next no_will =>
    cases parse
    exact ⟨keepalive_ok, clen_ok, cid_ok, rfl, fun will => absurd will no_will⟩

namespace ConnectFields

variable {f : ConnectFields}

/-- A CONNECT that ends before its last field does is refused. -/
theorem parseConnect_cut (valid : f.Valid) (trailing : Bytes) (k : Nat) (short : k < f.encode.length) :
    parseConnect ((f.encode ++ trailing).take k) = .ok none := by
  obtain ⟨answer, done⟩ := parseConnect_total ((f.encode ++ trailing).take k)
  cases answer with
  | none => exact done
  | some q =>
    exfalso
    obtain ⟨plen', flags', clen', cid, -, name', flags_ok, -, cid', cid_bytes, -, will'⟩ :=
      parseConnect_some done
    obtain ⟨plen, clen, read⟩ := valid.read trailing
    -- the lengths read off the front are those of the whole
    cases (u16At_of_take name').symm.trans read.name
    cases (index_of_take flags_ok).symm.trans read.flags
    cases (u16At_of_take cid').symm.trans read.cid
    have size := f.length_encode
    have taken : ((f.encode ++ trailing).take k).length ≤ k := List.length_take_le _ _
    have name_length := read.name_length
    have cid_length := read.cid_length
    cases will : f.will with
    | none =>
      have no_will : f.willBytes = [] := by rw [willBytes, will]; rfl
      obtain ⟨-, -, inside⟩ := slice_drop cid_bytes
      rw [no_will, List.length_nil] at size
      omega
    | some w =>
      obtain ⟨-, will_bit, -, -⟩ := connectFlags_bits valid.graded f.cleanSession
        f.will.isSome f.willRetain f.password f.user
      obtain ⟨wlen', mlen', topic', message', inside⟩ := will' (by rw [flags, will_bit, will]; rfl)
      obtain ⟨wlen, mlen, there⟩ := valid.readWill trailing will
      rw [← name_length, ← cid_length] at there
      cases (u16At_of_take topic').symm.trans there.topic
      cases (u16At_of_take message').symm.trans there.message
      have topic_length := there.topic_length
      have message_length := there.message_length
      have will_size : f.willBytes.length = 2 + w.topic.bytes.length + (2 + w.message.length) := by
        rw [willBytes, will]
        simp only [Option.map_some, Option.getD_some, List.length_append, length_field]
      omega

end ConnectFields

/-- `parse_connect` answers for every body; it reads back what was encoded, whatever follows, and
refuses an encoding of which the end is missing. -/
theorem connect_parsed : (∀ body, ∃ r, parseConnect body = .ok r) ∧
    ∀ f : ConnectFields, f.Valid → ∀ trailing,
      parseConnect (f.encode ++ trailing) = .ok (some f.parsed) ∧
      ∀ k < f.encode.length, parseConnect ((f.encode ++ trailing).take k) = .ok none :=
  ⟨parseConnect_total, fun _ valid trailing =>
    ⟨ConnectFields.parseConnect_encode valid trailing, ConnectFields.parseConnect_cut valid trailing⟩⟩

/-- Client `a` with a will on `t`, and a user name behind it. -/
def lastWords : ConnectFields :=
  ⟨[77, 81, 84, 84], 4, 60, true, .fromUtf8Lossy [97], some ⟨.fromUtf8Lossy [116], [120], 1, true⟩, true, false⟩

theorem connect_parsed_lastWords :
    parseConnect (lastWords.encode ++ [0, 1, 117]) = .ok (some lastWords.parsed) ∧
      parseConnect ((lastWords.encode ++ [0, 1, 117]).take 18) = .ok none := by
  have valid : lastWords.Valid := by
    refine ⟨by decide, by decide, by decide, ?_⟩
    rintro w ⟨⟩
    decide
  have parsed := connect_parsed.2 lastWords valid [0, 1, 117]
  exact ⟨parsed.1, parsed.2 18 (by decide)⟩

/-! ### The threaded broker -/

/-- The length of the protocol name, as the first two bytes announce it. -/
def nameLength : Bytes → Nat
  | hi :: lo :: _ => (u16FromBe hi lo).toNat
  | _ => 0

theorem u16At_nameLength {body : Bytes} (long : 2 ≤ body.length) :
    ∃ plen, u16At body 0 = .ok plen ∧ plen.toNat = nameLength body := by
  match body with
  | [] => simp at long
  | [_] => simp at long
  | hi :: lo :: rest => exact ⟨u16FromBe hi lo, rfl, rfl⟩

namespace Threaded

/-- The threaded broker answers what the event loop answers, when that accepts the CONNECT. -/
theorem parseConnect_agrees {body : Bytes} {q : ConnectPacket}
    (parse : MioBroker.parseConnect body = .ok (some q)) :
    parseConnect body = .ok (some (q.cid, q.keepalive)) := by
  obtain ⟨plen, flags, clen, cid, long, name, flags_ok, keepalive, clen_ok, cid_bytes, same, -⟩ :=
    parseConnect_some parse
  obtain ⟨-, -, inside⟩ := slice_drop cid_bytes
  simp only [parseConnect]
  rw [if_neg (by omega), name, Run.ok_bind, Run.index_of_lt body (2 + plen.toNat) (by omega), Run.ok_bind,
    flags_ok, Run.ok_bind, keepalive, Run.ok_bind, if_neg (by omega), clen_ok, Run.ok_bind,
    if_neg (by omega), cid_bytes, Run.ok_bind, same]
  rfl

/-- The parser goes by the announced length before it has compared it with the body. -/
theorem parseConnect_answers_iff (body : Bytes) : (∃ r, parseConnect body = .ok r) ↔
    body.length < 10 ∨ 6 + nameLength body ≤ body.length := by
  by_cases short : body.length < 10
  · exact iff_of_true ⟨none, by rw [parseConnect, if_pos short]; rfl⟩ (.inl short)
  have long : 2 ≤ body.length := by omega
  obtain ⟨plen, name, length⟩ := u16At_nameLength long
  rw [or_iff_right short]
  simp only [parseConnect]
  rw [if_neg short, name, Run.ok_bind]
  constructor
  · rintro ⟨r, done⟩
    obtain ⟨level, -, done⟩ := Run.bind_ok.mp done
    obtain ⟨flags, -, done⟩ := Run.bind_ok.mp done
    obtain ⟨keepalive, keepalive_ok, -⟩ := Run.bind_ok.mp done
    have inside := u16At_inside keepalive_ok
    omega
  · intro fits
    obtain ⟨keepalive, keepalive_ok⟩ := u16At_ok body (4 + plen.toNat) (by omega)
    rw [Run.index_of_lt body (2 + plen.toNat) (by omega), Run.ok_bind,
      Run.index_of_lt body (3 + plen.toNat) (by omega), Run.ok_bind, keepalive_ok, Run.ok_bind]
    split
    · exact ⟨none, rfl⟩
    next =>
    obtain ⟨clen, clen_ok⟩ := u16At_ok body (6 + plen.toNat) (by omega)
    rw [clen_ok, Run.ok_bind]
    split
    · exact ⟨none, rfl⟩
    next =>
    obtain ⟨cid, cid_ok⟩ := slice_ok body (6 + plen.toNat + 2) (6 + plen.toNat + 2 + clen.toNat)
      (by omega) (by omega)
    rw [cid_ok, Run.ok_bind]
    exact ⟨_, rfl⟩

/-- A CONNECT whose name is not all there kills the reader thread; `handle_client` gets no further. -/
theorem World.process_connect_panics_iff (w : World) (token : Token) {bytes : Bytes} {p : Packet}
    {rest : Bytes} (read : readPacket bytes = .ok (some (p, rest))) (kind : p.ptype = CONNECT) :
    Run.Panics (w.process token bytes) ↔
      ¬(p.body.length < 10 ∨ 6 + nameLength p.body ≤ p.body.length) := by
  rw [← parseConnect_answers_iff, ← Run.not_panics_iff, not_not]
  simp only [process, read, Run.ok_bind, handle, if_pos kind, Run.panics_bind]
  constructor
  · rintro ((panics | ⟨answer, -, panics⟩) | ⟨⟨v, stays⟩, -, panics⟩)
    · exact panics
    · cases answer <;> simp at panics
    · cases stays <;> simp at panics
  · intro panics
    exact .inl (.inl panics)

end Threaded

/-- The threaded parser answers, and agrees with the event loop, exactly when the protocol name lies
in the body. -/
theorem threaded_connect_iff (body : Bytes) :
    ((∃ r, Threaded.parseConnect body = .ok r) ∧ ∀ q, parseConnect body = .ok (some q) →
      Threaded.parseConnect body = .ok (some (q.cid, q.keepalive))) ↔
    body.length < 10 ∨ 6 + nameLength body ≤ body.length := by
  rw [← Threaded.parseConnect_answers_iff]
  exact and_iff_left fun q parse => Threaded.parseConnect_agrees parse

/-- Ten bytes that announce a name of 65535. -/
theorem threaded_connect_panics : ¬∀ body : Bytes,
    (∃ r, Threaded.parseConnect body = .ok r) ∧ ∀ q, parseConnect body = .ok (some q) →
      Threaded.parseConnect body = .ok (some (q.cid, q.keepalive)) := by
  intro claim
  obtain ⟨r, done⟩ := (claim [0xff, 0xff, 0, 0, 0, 0, 0, 0, 0, 0]).1
  cases done

end MioBroker
