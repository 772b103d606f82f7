import Mathlib.Tactic.Ring
import MioBroker.Scenario
import MioBroker.Survivors

/-!
# Framing

However the bytes of a connection are cut into chunks, the packets that are extracted are the
packets of the stream, and the read buffer holds its incomplete rest.
-/
namespace MioBroker

open Rust

/-! ### Packets on the wire -/

/-- The value of length bytes: seven bits each, the lowest first. -/
def remValue : Bytes → Nat
  | [] => 0
  | x :: xs => x.toNat % 128 + 128 * remValue xs

/-- The last length byte, and only the last, has no continuation bit. -/
def Terminated : Bytes → Prop
  | [] => False
  | [x] => x.toNat < 128
  | x :: y :: xs => 128 ≤ x.toNat ∧ Terminated (y :: xs)

/-- A packet as it is sent: a header byte, at most four length bytes, and the body. -/
structure WirePacket where
  header : UInt8
  digits : Bytes
  body : Bytes
  terminated : Terminated digits
  short : digits.length ≤ 4
  counted : remValue digits = body.length
  limit : body.length ≤ MAX_PACKET

namespace WirePacket

def bytes (w : WirePacket) : Bytes := w.header :: (w.digits ++ w.body)

/-- What the framing loop is to extract. -/
def packet (w : WirePacket) : Packet := ⟨w.header >>> 4, w.header &&& 0x0f, w.body⟩

end WirePacket

/-- A packet of which at least the last byte is missing; nothing at all is one, too. -/
def Incomplete (tail : Bytes) : Prop := ∃ (w : WirePacket) (more : Bytes), more ≠ [] ∧ tail ++ more = w.bytes

/-! ### The length bytes -/

/-- Every stream goes on and on, or has a length at its front. -/
theorem terminated_front (stream : Bytes) : (∀ x ∈ stream, 128 ≤ x.toNat) ∨
    ∃ digits rest, stream = digits ++ rest ∧ Terminated digits := by
  induction stream with
  | nil => exact .inl (by simp)
  | cons x xs ih =>
    by_cases last : x.toNat < 128
    · exact .inr ⟨[x], xs, rfl, last⟩
    · rcases ih with endless | ⟨digits, rest, rfl, terminated⟩
      · exact .inl (List.forall_mem_cons.mpr ⟨Nat.not_lt.mp last, endless⟩)
      · refine .inr ⟨x :: digits, rest, rfl, ?_⟩
        cases digits with
        | nil => exact terminated.elim
        | cons y ys => exact ⟨Nat.not_lt.mp last, terminated⟩

/-- A length ends where a byte without continuation bit stands. -/
theorem Terminated.take_iff {digits : Bytes} (terminated : Terminated digits) (rest : Bytes) (n : Nat) :
    (∃ x ∈ (digits ++ rest).take n, x.toNat < 128) ↔ digits.length ≤ n := by
  induction digits generalizing n with
  | nil => exact terminated.elim
  | cons x xs ih =>
    cases n with
    | zero => simp
    | succ n =>
      rw [List.cons_append, List.take_succ_cons, List.length_cons, Nat.add_le_add_iff_right]
      cases xs with
      | nil =>
        have last : x.toNat < 128 := terminated
        simp [last]
      | cons y ys =>
        obtain ⟨continued, terminated⟩ := terminated
        rw [← ih terminated]
        simp [Nat.not_lt.mpr continued]

theorem remValue_lt (digits : Bytes) : remValue digits < 128 ^ digits.length := by
  induction digits with
  | nil => exact Nat.one_pos
  | cons x xs ih =>
    have digit : x.toNat % 128 < 128 := Nat.mod_lt _ (by decide)
    rw [remValue, List.length_cons, Nat.pow_succ']
    omega

theorem continuation_iff (x : UInt8) : (x &&& 0x80 == 0) = true ↔ x.toNat < 128 := by
  have all : ∀ n : Fin 256, (UInt8.ofNat n &&& 0x80 == 0) = true ↔ n.val < 128 := by decide +kernel
  have here := all ⟨x.toNat, x.toNat_lt⟩
  simpa using here

theorem seven_bits (x : UInt8) : (x &&& 0x7f).toNat = x.toNat % 128 := by
  rw [UInt8.toNat_and]
  exact Nat.and_two_pow_sub_one_eq_mod x.toNat 7

theorem decodeRem_terminated {digits : Bytes} (terminated : Terminated digits) (n : Nat) (rest : Bytes)
    (i mult rem : Nat) (short : digits.length ≤ n) :
    decodeRem n (digits ++ rest) i mult rem =
      some (rem + remValue digits * mult, i + digits.length - 1) := by
  induction digits generalizing n i mult rem with
  | nil => exact terminated.elim
  | cons x xs ih =>
    cases n with
    | zero => simp at short
    | succ n =>
      rw [List.cons_append, decodeRem, seven_bits]
      cases xs with
      | nil =>
        rw [if_pos ((continuation_iff x).mpr terminated)]
        simp [remValue]
      | cons y ys =>
        obtain ⟨continued, terminated⟩ := terminated
        -- Every digit before the last carries the continuation bit.
        have more : ¬(x &&& 0x80 == 0) = true :=
          fun last => Nat.not_lt.mpr continued ((continuation_iff x).mp last)
        rw [if_neg more, ih terminated n _ _ _ (Nat.le_of_succ_le_succ short)]
        have value : rem + x.toNat % 128 * mult + remValue (y :: ys) * (mult * 128) =
            rem + remValue (x :: y :: ys) * mult := by
          rw [remValue.eq_2 x (y :: ys)]
          ring
        rw [value]
        simp only [List.length_cons, Option.some.injEq, Prod.mk.injEq, true_and]
        omega

/-- Without the last length byte there is no length. -/
theorem decodeRem_cut (cut more : Bytes) (terminated : Terminated (cut ++ more)) (missing : more ≠ [])
    (n i mult rem : Nat) : decodeRem n cut i mult rem = none := by
  induction cut generalizing n i mult rem with
  | nil => cases n <;> rfl
  | cons x xs ih =>
    cases n with
    | zero => rfl
    | succ n =>
      -- Bytes are missing, so the digit at hand is not the last of the length.
      have continued : 128 ≤ x.toNat ∧ Terminated (xs ++ more) := by
        cases rest : xs ++ more with
        | nil => exact absurd (List.append_eq_nil_iff.mp rest).2 missing
        | cons y ys =>
          rw [List.cons_append, rest] at terminated
          exact terminated
      have unfinished : ¬(x &&& 0x80 == 0) = true :=
        fun last => Nat.not_lt.mpr continued.1 ((continuation_iff x).mp last)
      rw [decodeRem, if_neg unfinished]
      exact ih continued.2 _ _ _ _

/-! ### The framing loop -/

theorem frameLoop_packet (w : WirePacket) (fuel : Nat) (rest : Bytes) (pkts : List Packet) :
    frameLoop (fuel + 1) (w.bytes ++ rest) pkts = frameLoop fuel rest (pkts ++ [w.packet]) := by
  have length := decodeRem_terminated w.terminated 4 (w.body ++ rest) 1 1 0 w.short
  rw [w.counted] at length
  have first : 1 + w.digits.length - 1 = w.digits.length := by omega
  simp only [Nat.zero_add, Nat.mul_one, first] at length
  have limit : ¬w.body.length > MAX_PACKET := Nat.not_lt.mpr w.limit
  -- All bytes that the length announces are in the buffer, so the loop takes them off.
  have complete : ¬(w.header :: (w.digits ++ (w.body ++ rest))).length <
      w.digits.length + 1 + w.body.length := by
    simp only [List.length_cons, List.length_append]
    omega
  have body : ((w.header :: (w.digits ++ (w.body ++ rest))).drop (w.digits.length + 1)).take
      w.body.length = w.body := by
    rw [List.drop_succ_cons, List.drop_left, List.take_left]
  have behind : (w.header :: (w.digits ++ (w.body ++ rest))).drop
      (w.digits.length + 1 + w.body.length) = rest := by
    rw [show w.digits.length + 1 + w.body.length = (w.digits.length + w.body.length) + 1 by omega,
      List.drop_succ_cons, ← List.drop_drop, List.drop_left, List.drop_left]
  rw [WirePacket.bytes, List.cons_append, List.append_assoc, frameLoop, length]
  simp only
  rw [if_neg limit, if_neg complete, body, behind]
  rfl

theorem frameLoop_incomplete {tail : Bytes} (incomplete : Incomplete tail) (fuel : Nat)
    (pkts : List Packet) : frameLoop fuel tail pkts = ⟨pkts, tail, none⟩ := by
  cases fuel with
  | zero => rfl
  | succ fuel =>
    cases tail with
    | nil => rfl
    | cons b₀ b =>
      obtain ⟨w, more, missing, same⟩ := incomplete
      rw [WirePacket.bytes, List.cons_append] at same
      obtain ⟨-, same⟩ := List.cons.inj same
      -- Where the length is whole, the body is what is cut short.
      have body_cut : ∀ c, b = w.digits ++ c → c ++ more = w.body →
          frameLoop (fuel + 1) (b₀ :: b) pkts = ⟨pkts, b₀ :: b, none⟩ := by
        rintro c rfl body
        have length := decodeRem_terminated w.terminated 4 c 1 1 0 w.short
        rw [w.counted] at length
        have first : 1 + w.digits.length - 1 = w.digits.length := by omega
        simp only [Nat.zero_add, Nat.mul_one, first] at length
        have limit : ¬w.body.length > MAX_PACKET := Nat.not_lt.mpr w.limit
        have lengths := congrArg List.length body
        have missing := List.length_pos_iff.mpr missing
        have incomplete : (b₀ :: (w.digits ++ c)).length < w.digits.length + 1 + w.body.length := by
          simp only [List.length_cons, List.length_append] at lengths ⊢
          omega
        rw [frameLoop, length]
        simp only
        rw [if_neg limit, if_pos incomplete]
      -- The cut falls inside the length or behind it.
      rcases List.append_eq_append_iff.mp same with ⟨c, digits, rest⟩ | ⟨c, b_eq, body⟩
      · by_cases all : c = []
        · subst all
          exact body_cut [] (by simpa using digits.symm) (by simpa using rest)
        · have terminated := w.terminated
          rw [digits] at terminated
          rw [frameLoop, decodeRem_cut b c terminated all]
      · exact body_cut c b_eq body.symm

theorem WirePacket.length_bytes (w : WirePacket) :
    w.bytes.length = 1 + w.digits.length + w.body.length := by
  simp only [bytes, List.length_cons, List.length_append]
  omega

theorem Incomplete.length {tail : Bytes} (incomplete : Incomplete tail) :
    tail.length < 5 + MAX_PACKET := by
  obtain ⟨w, more, missing, whole⟩ := incomplete
  have lengths := congrArg List.length whole
  have missing := List.length_pos_iff.mpr missing
  rw [List.length_append, w.length_bytes] at lengths
  have := w.short
  have := w.limit
  omega

/-- Data that the framing loop leaves in the buffer, however much of it is there yet. -/
structure Unfinished (tail : Bytes) : Prop where
  short : tail.length < 5 + MAX_PACKET
  waits : ∀ front, front <+: tail → ∀ fuel pkts, frameLoop fuel front pkts = ⟨pkts, front, none⟩

namespace Unfinished

theorem nil : Unfinished [] where
  short := by decide
  waits := by
    intro front start fuel pkts
    cases List.prefix_nil.mp start
    cases fuel <;> rfl

theorem cut {front tail : Bytes} (unfinished : Unfinished tail) (start : front <+: tail) :
    Unfinished front :=
  ⟨Nat.lt_of_le_of_lt start.length_le unfinished.short,
    fun first within => unfinished.waits first (within.trans start)⟩

theorem frameLoop {tail : Bytes} (unfinished : Unfinished tail) (fuel : Nat) (pkts : List Packet) :
    frameLoop fuel tail pkts = ⟨pkts, tail, none⟩ :=
  unfinished.waits tail List.prefix_rfl fuel pkts

end Unfinished

theorem Incomplete.unfinished {tail : Bytes} (incomplete : Incomplete tail) : Unfinished tail where
  short := incomplete.length
  waits := by
    rintro front ⟨back, rfl⟩
    obtain ⟨w, more, missing, whole⟩ := incomplete
    exact frameLoop_incomplete ⟨w, back ++ more, by simp [missing], by rw [← whole, List.append_assoc]⟩

/-- The loop goes through whole packets, with fuel left for what comes behind them. -/
theorem frameLoop_packets (ws : List WirePacket) (tail : Bytes) (fuel : Nat) (pkts : List Packet)
    (enough : (ws.flatMap WirePacket.bytes ++ tail).length ≤ fuel) :
    ∃ left, tail.length ≤ left ∧ frameLoop fuel (ws.flatMap WirePacket.bytes ++ tail) pkts =
      frameLoop left tail (pkts ++ ws.map WirePacket.packet) := by
  induction ws generalizing fuel pkts with
  | nil => exact ⟨fuel, enough, by simp⟩
  | cons w ws ih =>
    rw [List.flatMap_cons, List.append_assoc, List.length_append, w.length_bytes] at enough
    obtain ⟨fuel, rfl⟩ : ∃ k, fuel = k + 1 := ⟨fuel - 1, by omega⟩
    obtain ⟨left, rest, same⟩ := ih fuel (pkts ++ [w.packet]) (by omega)
    refine ⟨left, rest, ?_⟩
    rw [List.flatMap_cons, List.append_assoc, frameLoop_packet, same]
    simp

theorem frame_packets (ws : List WirePacket) {tail : Bytes} (unfinished : Unfinished tail) :
    frame (ws.flatMap WirePacket.bytes ++ tail) = ⟨ws.map WirePacket.packet, tail, none⟩ := by
  obtain ⟨left, -, same⟩ := frameLoop_packets ws tail _ [] (Nat.le_refl _)
  rw [frame, same, unfinished.frameLoop, List.nil_append]

/-! ### Cutting the stream -/

/-- Wherever a stream is cut, whole packets and an unfinished one are in front. -/
theorem stream_cut (front back : Bytes) (ws : List WirePacket) {tail : Bytes}
    (unfinished : Unfinished tail) (same : front ++ back = ws.flatMap WirePacket.bytes ++ tail) :
    ∃ before after rest, ws = before ++ after ∧ Unfinished rest ∧
      front = before.flatMap WirePacket.bytes ++ rest ∧
      rest ++ back = after.flatMap WirePacket.bytes ++ tail := by
  induction ws generalizing front with
  | nil =>
    rw [List.flatMap_nil, List.nil_append] at same
    exact ⟨[], [], front, rfl, unfinished.cut ⟨back, same⟩, rfl, same⟩
  | cons w ws ih =>
    rw [List.flatMap_cons, List.append_assoc] at same
    -- The cut falls inside the first packet or behind it.
    rcases List.append_eq_append_iff.mp same with ⟨c, whole, rest⟩ | ⟨c, front_eq, rest⟩
    · by_cases all : c = []
      · subst all
        rw [List.append_nil] at whole
        rw [List.nil_append] at rest
        exact ⟨[w], ws, [], rfl, .nil, by simp [whole], rest⟩
      · have incomplete : Incomplete front := ⟨w, c, all, whole.symm⟩
        refine ⟨[], w :: ws, front, rfl, incomplete.unfinished, rfl, ?_⟩
        rw [same, List.flatMap_cons, List.append_assoc]
    · obtain ⟨before, after, left, rfl, cut, front', rest'⟩ := ih c rest.symm
      exact ⟨w :: before, after, left, rfl, cut, by rw [front_eq, front']; simp, rest'⟩

/-! ### Feeding a connection -/

/-- Why a connection is closed: a failed read or a buffer over its cap, a length over the packet
limit, an error of a packet handler, or a removal in between. -/
inductive Closed
  | unread
  | tooLarge
  | refused
  | dropped
  deriving DecidableEq

namespace Broker

/-- `drain_client` with the packets it extracts and the reason for which it fails. -/
def drain (b : Broker) (token : Token) (r : ReadResult) :
    Run (Broker × List Packet × Option Closed) := do
  match ← b.readChunk token r with
  | (b, .ok true) =>
    match ← b.beginBatch token with
    | (b, .ok pkts) =>
      match ← dispatchAll token pkts b with
      | (b, .ok ()) => return (b.countPackets pkts.length, pkts, none)
      | (b, .error _) => return (b, pkts, some .refused)
    | (b, .error _) => return (b, [], some .tooLarge)
  | (b, .ok false) => return (b, [], none)
  | (b, .error ()) => return (b, [], some .unread)

theorem drainClient_eq (b : Broker) (token : Token) (r : ReadResult) :
    b.drainClient token r = (b.drain token r).map fun (b, _, closed) =>
      (b, if closed.isNone then .ok () else .error ()) := by
  simp only [drainClient, drain]
  rcases b.readChunk token r with e | ⟨b₁, ⟨⟩ | ⟨⟨⟩ | ⟨⟩⟩⟩
  · rfl
  · rfl
  · rfl
  · simp only [Run.ok_bind, handlePackets]
    rcases b₁.beginBatch token with e | ⟨b₂, e | pkts⟩
    · rfl
    · rfl
    · simp only [Run.ok_bind]
      rcases dispatchAll token pkts b₂ with e | ⟨b₃, e | ⟨⟩⟩ <;> rfl

end Broker

/-- What happens while a connection is fed: its next chunk, or any other operation. -/
inductive Feeding
  | chunk (bytes : Bytes)
  | other (op : Op)

/-- The chunks of a feeding, in order. -/
def Feeding.bytes : Feeding → Bytes
  | .chunk bytes => bytes
  | .other _ => []

/-- A chunk one read can return, or an operation that does not read from the connection. -/
def Feeding.Admitted (t : Token) : Feeding → Prop
  | .chunk bytes => 1 ≤ bytes.length ∧ bytes.length ≤ 65536
  | .other op => ∀ r, op ≠ .receive t r

/-- Feed a connection as long as it is there; the answer has the packets extracted, and why the
feeding ended early. -/
def Broker.feed (t : Token) : List Feeding → Broker → Run (Broker × List Packet × Option Closed)
  | [], b => pure (b, [], none)
  | .other op :: steps, b => do
    let (b, _) ← op.run b
    if b.clients.contains t then Broker.feed t steps b else return (b, [], some .dropped)
  | .chunk bytes :: steps, b => do
    let (b, pkts, closed) ← b.drain t (.ok bytes)
    match closed with
    | some reason => return (b, pkts, some reason)
    | none =>
      if b.clients.contains t then
        let (b, more, closed) ← Broker.feed t steps b
        return (b, pkts ++ more, closed)
      else return (b, pkts, some .dropped)

/-- Every operation but a read leaves the read buffer of a connection alone. -/
theorem Op.readBuf {op : Op} {b b' : Broker} {out : Outcome} (healthy : b.Healthy)
    (done : op.run b = .ok (b', out)) {t : Token} (given : t < b.nextToken)
    (unread : ∀ r, op ≠ .receive t r) {buf : Bytes}
    (start : ∀ c, b.clients.get? t = some c → c.readBuf = buf) :
    ∀ d, b'.clients.get? t = some d → d.readBuf = buf := by
  refine op.record_invariant healthy done given (fun c => c.readBuf = buf) ?_ ?_ start
  · intro now ch c permitted same
    refine (Change.readBuf now c fun buf touched => ?_).trans same
    subst touched
    -- Reading from the socket is the one operation that changes the buffer.
    rcases Op.permits_change permitted with ⟨p, rfl, changes⟩ | ⟨r, rfl, -⟩ |
      ⟨_, -, same | ⟨_, same⟩⟩ | ⟨-, same⟩ | ⟨_, _, _, -, same⟩
    · exact changes.elim
    · exact unread r rfl
    all_goals cases same
  · intro s a c d topic payload qos retain _ _ queued same
    rw [(Client.offered_of_offer c d s.now topic payload qos retain queued).frame]
    exact same

namespace Broker

variable {b b' : Broker} {t : Token}

/-- A connection about to be fed: if it is there, its buffer holds `rest`. -/
structure Feedable (b : Broker) (t : Token) (rest : Bytes) : Prop where
  healthy : b.Healthy
  given : t < b.nextToken
  buffer : ∀ c, b.clients.get? t = some c → c.readBuf = rest

theorem Feedable.op {rest : Bytes} {op : Op} {out : Outcome} (feedable : b.Feedable t rest)
    (unread : ∀ r, op ≠ .receive t r) (done : op.run b = .ok (b', out)) : b'.Feedable t rest :=
  ⟨feedable.healthy.op op done, Nat.lt_of_lt_of_le feedable.given (Op.nextToken_le feedable.healthy done),
    op.readBuf feedable.healthy done feedable.given unread feedable.buffer⟩

theorem Feedable.dispatchAll {rest : Bytes} {pkts : List Packet} (feedable : b.Feedable t rest)
    (done : Broker.dispatchAll t pkts b = .ok (b', .ok ())) : b'.Feedable t rest := by
  induction pkts generalizing b with
  | nil =>
    cases done
    exact feedable
  | cons p pkts ih =>
    rw [Broker.dispatchAll] at done
    obtain ⟨⟨d, reply⟩, dispatched, done⟩ := Run.bind_ok.mp done
    rcases reply with e | ⟨⟨⟩⟩
    · cases done
    · have ran : (Op.packet t p).run b = .ok (d, .ok []) := by
        simp only [Op.run, dispatched]
        rfl
      exact ih (feedable.op (fun r same => by cases same) ran) done

/-- A chunk behind unfinished data passes the guard of the buffer. -/
theorem Feedable.read {rest chunk : Bytes} (feedable : b.Feedable t rest)
    (connected : b.clients.contains t = true) (unfinished : Unfinished rest)
    (size : 1 ≤ chunk.length ∧ chunk.length ≤ 65536) :
    ∃ c : Client, b.readChunk t (.ok chunk) =
      .ok ({ b with clients := b.clients.insert t { c with readBuf := rest ++ chunk } }, .ok true) := by
  obtain ⟨c, found⟩ := (HashMap.contains_iff _ _).mp connected
  have buffer := feedable.buffer c found
  -- An unfinished packet leaves at least a chunk of room below the cap of the buffer.
  have room : ¬(rest ++ chunk).length > READ_CAP := by
    have bound := unfinished.short
    have cap : READ_CAP = MAX_PACKET + 1048576 := rfl
    rw [List.length_append]
    omega
  obtain ⟨x, xs, rfl⟩ : ∃ x xs, chunk = x :: xs := by
    cases chunk with
    | nil => simp at size
    | cons x xs => exact ⟨x, xs, rfl⟩
  refine ⟨c, ?_⟩
  simp only [readChunk, found, Run.unwrap_some, Run.ok_bind, buffer, if_neg room, Run.pure_eq]

/-- A chunk that continues the stream passes both guards, and the packets it completes are
extracted. -/
theorem Feedable.receive {rest chunk : Bytes} (feedable : b.Feedable t rest)
    (connected : b.clients.contains t = true) (unfinished : Unfinished rest)
    (size : 1 ≤ chunk.length ∧ chunk.length ≤ 65536) {ws : List WirePacket} {left : Bytes}
    (cut : Unfinished left) (same : rest ++ chunk = ws.flatMap WirePacket.bytes ++ left) :
    ∃ b₁ b₂, b.readChunk t (.ok chunk) = .ok (b₁, .ok true) ∧
      b₁.beginBatch t = .ok (b₂, .ok (ws.map WirePacket.packet)) ∧ b₂.Feedable t left := by
  obtain ⟨c, read⟩ := feedable.read connected unfinished size
  have nonempty : rest ++ chunk ≠ [] := by
    intro empty
    have short := congrArg List.length empty
    rw [List.length_append, List.length_nil] at short
    omega
  have framed := frame_packets ws cut
  rw [← same] at framed
  obtain ⟨d, alive⟩ : ∃ d, d = Client.refreshKeepalive { c with readBuf := left } b.now := ⟨_, rfl⟩
  -- Cutting the buffer leaves the unfinished rest and refreshes the keepalive.
  have begun : beginBatch { b with
      clients := b.clients.insert t { c with readBuf := rest ++ chunk } } t =
      .ok ({ b with clients := b.clients.insert t d }, .ok (ws.map WirePacket.packet)) := by
    simp [beginBatch, framed, alive, nonempty]
  refine ⟨_, _, read, begun, ?_⟩
  have ran : (Op.receive t (.ok chunk)).run b =
      .ok ({ b with clients := b.clients.insert t d }, .ok (ws.map WirePacket.packet)) := by
    simp only [Op.run, Broker.receive, read, Run.ok_bind, begun, Run.pure_eq]
  refine ⟨feedable.healthy.op _ ran, Nat.lt_of_lt_of_le feedable.given
    (Op.nextToken_le feedable.healthy ran), fun e there => ?_⟩
  simp only [HashMap.get?_insert_self, Option.some.injEq] at there
  rw [← there, alive]
  have unread : ∀ buf, Change.alive ≠ .buffer buf := fun buf same => by cases same
  exact Change.readBuf b.now { c with readBuf := left } unread

theorem feed_packets {rest : Bytes} (steps : List Feeding) (admitted : ∀ step ∈ steps, step.Admitted t)
    (feedable : b.Feedable t rest) (connected : b.clients.contains t = true)
    (unfinished : Unfinished rest) (ws : List WirePacket) {tail : Bytes} (cut : Unfinished tail)
    (stream : rest ++ steps.flatMap Feeding.bytes = ws.flatMap WirePacket.bytes ++ tail)
    {got : List Packet} {closed : Option Closed} (fed : b.feed t steps = .ok (b', got, closed))
    (open_ : closed ≠ some .refused ∧ closed ≠ some .dropped) :
    closed = none ∧ got = ws.map WirePacket.packet ∧ b'.clients.contains t = true ∧
      b'.Feedable t tail := by
  induction steps generalizing b rest ws got with
  | nil =>
    cases fed
    -- what is in the buffer is the whole rest of the stream
    rw [List.flatMap_nil, List.append_nil] at stream
    have whole := frame_packets ws cut
    rw [← stream] at whole
    obtain ⟨packets, same, -⟩ := Framed.mk.inj ((frame_packets [] unfinished).symm.trans whole)
    exact ⟨rfl, packets, connected, same ▸ feedable⟩
  | cons step steps ih =>
    have later := fun step member => admitted step (List.mem_cons_of_mem _ member)
    rw [List.flatMap_cons, ← List.append_assoc] at stream
    cases step with
    | other op =>
      obtain ⟨⟨d, out⟩, ran, fed⟩ := Run.bind_ok.mp fed
      have feedable' := feedable.op (admitted (.other op) List.mem_cons_self) ran
      simp only at fed
      split at fed
      next there =>
        refine ih later feedable' there unfinished ws ?_ fed
        rw [Feeding.bytes, List.append_nil] at stream
        exact stream
      next =>
        cases fed
        exact absurd rfl open_.2
    | chunk bytes =>
      obtain ⟨before, after, left, rfl, short, front, back⟩ := stream_cut _ _ ws cut stream
      obtain ⟨b₁, b₂, read, begun, feedable₂⟩ := feedable.receive connected unfinished
        (admitted (.chunk bytes) List.mem_cons_self) short front
      obtain ⟨⟨d, pkts, reason⟩, drained, fed⟩ := Run.bind_ok.mp fed
      simp only [drain, read, begun, Run.ok_bind] at drained
      obtain ⟨⟨b₃, reply⟩, dispatched, drained⟩ := Run.bind_ok.mp drained
      rcases reply with e | ⟨⟨⟩⟩
      · cases drained
        cases fed
        exact absurd rfl open_.1
      · cases drained
        have feedable₃ := feedable₂.dispatchAll dispatched
        have feedable' : (b₃.countPackets (before.map WirePacket.packet).length).Feedable t left :=
          ⟨⟨feedable₃.healthy.indexed, feedable₃.healthy.capped⟩, feedable₃.given, feedable₃.buffer⟩
        simp only at fed
        split at fed
        next there =>
          obtain ⟨⟨e, more, last⟩, rest_fed, fed⟩ := Run.bind_ok.mp fed
          cases fed
          obtain ⟨done, packets, stays⟩ := ih later feedable' there short after back rest_fed
          exact ⟨done, by rw [packets, List.map_append], stays⟩
        next =>
          cases fed
          exact absurd rfl open_.2

end Broker
/-- A connection whose buffer is empty is sent packets, and perhaps the beginning of another one,
in any chunks and with any other activity in between. Unless a handler closes the connection or it
is dropped, exactly these packets are extracted, what is left in the buffer is the incomplete rest,
and no guard closes the connection. -/
theorem framing_independent_of_cuts (s : Loop) (reached : s.Reachable) (t : Token) (c : Client)
    (connected : s.broker.clients.get? t = some c) (unread : c.readBuf = []) (ws : List WirePacket)
    (tail : Bytes) (incomplete : Incomplete tail) (steps : List Feeding)
    (admitted : ∀ step ∈ steps, step.Admitted t)
    (stream : steps.flatMap Feeding.bytes = ws.flatMap WirePacket.bytes ++ tail)
    (b' : Broker) (got : List Packet) (closed : Option Closed)
    (fed : s.broker.feed t steps = .ok (b', got, closed))
    (kept : closed ≠ some .refused ∧ closed ≠ some .dropped) :
    closed = none ∧ got = ws.map WirePacket.packet ∧
      ∃ c', b'.clients.get? t = some c' ∧ c'.readBuf = tail := by
  have feedable : s.broker.Feedable t [] := by
    refine ⟨reached.healthy, reached.numbered t c connected, fun d found => ?_⟩
    cases connected.symm.trans found
    exact unread
  obtain ⟨open_, packets, there, feedable'⟩ := Broker.feed_packets steps admitted feedable
    ((HashMap.contains_iff _ _).mpr ⟨c, connected⟩) .nil ws incomplete.unfinished stream fed kept
  obtain ⟨c', found⟩ := (HashMap.contains_iff _ _).mp there
  exact ⟨open_, packets, c', found, feedable'.buffer c' found⟩

/-- PINGREQ -/
def pingreq : WirePacket where
  header := 0xc0
  digits := [0]
  body := []
  terminated := by
    change (0 : UInt8).toNat < 128
    decide
  short := by decide
  counted := by decide
  limit := by decide

/-- A new connection is sent chunks. -/
theorem exists_fed (steps : List Feeding) (check : List Packet → Option Closed → Bool)
    (passed : (Loop.after [.listen, .connection]).any (fun s =>
      ((s.broker.clients.get? 1).any fun c : Client => c.readBuf.isEmpty) &&
        match s.broker.feed 1 steps with
        | .ok (_, got, closed) => check got closed
        | .error _ => false) = true) :
    ∃ (s : Loop) (b' : Broker) (got : List Packet) (closed : Option Closed), s.Reachable ∧
      (∃ c, s.broker.clients.get? 1 = some c ∧ c.readBuf = []) ∧
      s.broker.feed 1 steps = .ok (b', got, closed) ∧ check got closed = true := by
  obtain ⟨s, done, checked⟩ := Loop.exists_after _ _ passed
  simp only [Bool.and_eq_true, Option.any_eq_true, List.isEmpty_iff] at checked
  obtain ⟨empty, fed⟩ := checked
  split at fed
  next b' got closed same => exact ⟨s, b', got, closed, Loop.after_reachable done, empty, same, fed⟩
  next => cases fed

/-- One and a half PINGREQ, cut behind the first byte. -/
theorem framing_independent_of_cuts_pingreq : ∃ (s : Loop) (b' : Broker) (c' : Client),
    s.broker.feed 1 [.chunk [0xc0], .other (.quiesce 1), .chunk [0, 0xc0]] =
      .ok (b', [pingreq.packet], none) ∧
    b'.clients.get? 1 = some c' ∧ c'.readBuf = [0xc0] := by
  obtain ⟨s, b', got, closed, reached, ⟨c, connected, unread⟩, fed, open_⟩ := exists_fed
    [.chunk [0xc0], .other (.quiesce 1), .chunk [0, 0xc0]] (fun _ closed => closed.isNone)
    (by decide +kernel)
  rw [Option.isNone_iff_eq_none] at open_
  subst open_
  have incomplete : Incomplete [0xc0] := ⟨pingreq, [0], by simp, rfl⟩
  obtain ⟨-, packets, c', found, buffer⟩ := framing_independent_of_cuts s reached 1 c connected unread
    [pingreq] [0xc0] incomplete [.chunk [0xc0], .other (.quiesce 1), .chunk [0, 0xc0]]
    (by simp [Feeding.Admitted]) rfl b' got none fed (by simp)
  exact ⟨s, b', c', by rw [fed, packets]; rfl, found, buffer⟩

end MioBroker
