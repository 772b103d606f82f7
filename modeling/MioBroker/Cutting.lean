import MioBroker.BadLength
import MioBroker.Encoding
import MioBroker.Remaining

/-!
# Both brokers cut a stream alike

The threaded broker reads a packet at a time and waits for the rest of it; the event loop takes out of
its buffer what is there. They part only at a packet whose length the event loop does not accept.
-/
namespace MioBroker.Threaded

open Rust

/-- What the calls of `read_packet` on one stream come to. -/
@[ext] structure Reading where
  pkts : List Packet
  /-- where the call started that got no packet -/
  rest : Bytes
  /-- that call panicked -/
  panicked : Bool
  deriving DecidableEq

/-- `read_packet` again and again. A packet takes at least a byte, so the length of the stream is fuel
enough. -/
def readLoop : Nat → Bytes → Reading
  | 0, stream => ⟨[], stream, false⟩
  | fuel + 1, stream =>
    match readPacket stream with
    | .ok none => ⟨[], stream, false⟩
    | .ok (some (p, rest)) =>
      let next := readLoop fuel rest
      { next with pkts := p :: next.pkts }
    | .error _ => ⟨[], stream, true⟩

def readAll (stream : Bytes) : Reading := readLoop stream.length stream

/-- The length that the threaded broker computes of some length bytes. -/
def announced (digits : Bytes) : Nat := remValue digits % 2 ^ USIZE_BITS

/-- The next packet has more than four length bytes or is over the limit, and the threaded broker panics
over its length or finds the body whole. -/
def Outsized (stream : Bytes) : Prop :=
  ∃ header digits behind, stream = header :: (digits ++ behind) ∧ Terminated digits ∧
    (4 < digits.length ∨ MAX_PACKET < announced digits) ∧
    (2 ^ (USIZE_BITS - 1) ≤ announced digits ∨ announced digits ≤ behind.length)

theorem announced_short {digits : Bytes} (short : digits.length ≤ 4) : announced digits = remValue digits :=
  Nat.mod_eq_of_lt (Nat.lt_trans (remValue_short short) (by decide))

theorem readPacket_endless (header : UInt8) {stream : Bytes} (endless : ∀ x ∈ stream, 128 ≤ x.toNat) :
    readPacket (header :: stream) = .ok none := by
  have unended := decodeRemWords_unended endless USIZE_BITS 1 0 0 false
  simp only [readPacket, decodeLength, unended, Run.pure_eq]

theorem readPacket_length (header : UInt8) {digits : Bytes} (terminated : Terminated digits)
    (behind : Bytes) : readPacket (header :: (digits ++ behind)) =
      if 2 ^ (USIZE_BITS - 1) ≤ announced digits then .error .capacityOverflow
      else if behind.length < announced digits then .ok none
      else .ok (some (⟨header >>> 4, header &&& 0x0f, behind.take (announced digits)⟩,
        behind.drop (announced digits))) := by
  simp only [readPacket, decodeLength_result terminated, Run.pure_eq, announced]
  rfl

theorem readPacket_packet (w : WirePacket) (rest : Bytes) :
    readPacket (w.bytes ++ rest) = .ok (some (w.packet, rest)) := by
  have value := announced_short w.short
  have small : w.body.length < 2 ^ (USIZE_BITS - 1) := Nat.lt_of_le_of_lt w.limit (by decide)
  rw [WirePacket.bytes, List.cons_append, List.append_assoc]
  exact readPacket_whole w.header w.terminated (value.trans w.counted) small rest

/-- Reading a packet shortens the stream. -/
theorem length_readPacket {stream rest : Bytes} {p : Packet} (read : readPacket stream = .ok (some (p, rest))) :
    rest.length < stream.length := by
  cases stream with
  | nil => cases read
  | cons header stream =>
    rcases terminated_front stream with endless | ⟨digits, behind, rfl, terminated⟩
    · rw [readPacket_endless header endless] at read
      cases read
    · rw [readPacket_length header terminated] at read
      split at read
      · cases read
      split at read
      · cases read
      · cases read
        simp only [List.length_cons, List.length_append, List.length_drop]
        omega

theorem readLoop_fuel (n m : Nat) (stream : Bytes) (enough : stream.length ≤ n) (enough' : stream.length ≤ m) :
    readLoop n stream = readLoop m stream := by
  induction n generalizing m stream with
  | zero =>
    cases List.eq_nil_of_length_eq_zero (Nat.le_zero.mp enough)
    cases m <;> rfl
  | succ n ih =>
    cases m with
    | zero =>
      cases List.eq_nil_of_length_eq_zero (Nat.le_zero.mp enough')
      rfl
    | succ m =>
      simp only [readLoop]
      cases read : readPacket stream with
      | error e => rfl
      | ok packet =>
        cases packet with
        | none => rfl
        | some e =>
          obtain ⟨p, rest⟩ := e
          have shorter := length_readPacket read
          simp only
          rw [ih m rest (by omega) (by omega)]

theorem readAll_packet {stream rest : Bytes} {p : Packet} (read : readPacket stream = .ok (some (p, rest))) :
    readAll stream = { readAll rest with pkts := p :: (readAll rest).pkts } := by
  have shorter := length_readPacket read
  rw [readAll]
  cases size : stream.length with
  | zero => omega
  | succ fuel =>
    simp only [readLoop, read]
    rw [readLoop_fuel fuel rest.length rest (by omega) le_rfl]
    rfl

/-- The calls get nothing exactly when the first one waits for more. -/
theorem readAll_nothing (stream : Bytes) : readAll stream = ⟨[], stream, false⟩ ↔ readPacket stream = .ok none := by
  constructor
  · intro nothing
    cases stream with
    | nil => rfl
    | cons header stream =>
      simp only [readAll, List.length_cons, readLoop] at nothing
      split at nothing
      next waits => exact waits
      next => cases congrArg Reading.pkts nothing
      next => cases congrArg Reading.panicked nothing
  · intro waits
    rw [readAll]
    cases stream.length with
    | zero => rfl
    | succ fuel => simp only [readLoop, waits]

/-- Nothing is taken out of a buffer that does not start with a whole packet. -/
theorem frame_waits {buf : Bytes} (waits : ∀ (w : WirePacket) rest, buf ≠ w.bytes ++ rest) :
    (frame buf).pkts = [] ∧ (frame buf).rest = buf := by
  cases buf with
  | nil => exact ⟨rfl, rfl⟩
  | cons header buf =>
    have unread : MioBroker.decodeRem 4 buf 1 1 0 = none →
        (frame (header :: buf)).pkts = [] ∧ (frame (header :: buf)).rest = header :: buf := by
      intro unread
      rw [frame, frameLoop_unread unread]
      exact ⟨rfl, rfl⟩
    rcases terminated_front buf with endless | ⟨digits, behind, rfl, terminated⟩
    · exact unread (decodeRem_continued 4 (fun x member => endless x (List.mem_of_mem_take member)) 1 1 0)
    · by_cases short : digits.length ≤ 4
      · have length := MioBroker.decodeRem_terminated terminated 4 behind 1 1 0 short
        simp only [Nat.zero_add, Nat.mul_one, Nat.add_sub_cancel_left] at length
        simp only [frame, List.length_cons, frameLoop, length]
        split
        · exact ⟨rfl, rfl⟩
        next limit =>
          split
          · exact ⟨rfl, rfl⟩
          next whole =>
            -- then it starts with a packet
            have inside : remValue digits ≤ behind.length := by
              simp only [List.length_append] at whole
              omega
            have counted : (behind.take (remValue digits)).length = remValue digits :=
              List.length_take_of_le inside
            refine absurd ?_ (waits ⟨header, digits, behind.take (remValue digits), terminated, short,
              counted.symm, counted.trans_le (Nat.not_lt.mp limit)⟩ (behind.drop (remValue digits)))
            rw [WirePacket.bytes, List.cons_append, List.append_assoc, List.take_append_drop]
      · refine unread (decodeRem_continued 4 (fun x member => Nat.not_lt.mp fun ends => short ?_) 1 1 0)
        exact (terminated.take_iff behind 4).mp ⟨x, member, ends⟩

/-- Behind what the event loop frames the threaded broker goes on; no packet is there that the event loop
accepts. -/
theorem readAll_frame (stream : Bytes) :
    readAll stream = { readAll (frame stream).rest with
        pkts := (frame stream).pkts ++ (readAll (frame stream).rest).pkts } ∧
      ∀ (w : WirePacket) rest, (frame stream).rest ≠ w.bytes ++ rest := by
  induction size : stream.length using Nat.strong_induction_on generalizing stream with
  | _ n ih =>
    subst size
    by_cases starts : ∃ (w : WirePacket) (rest : Bytes), stream = w.bytes ++ rest
    · obtain ⟨w, rest, rfl⟩ := starts
      have read := readPacket_packet w rest
      obtain ⟨same, waits⟩ := ih _ (length_readPacket read) rest rfl
      rw [readAll_packet read, same, w.framedAs rest]
      exact ⟨rfl, waits⟩
    · have waits : ∀ (w : WirePacket) rest, stream ≠ w.bytes ++ rest := fun w rest same => starts ⟨w, rest, same⟩
      obtain ⟨none_, all⟩ := frame_waits waits
      rw [none_, all]
      exact ⟨rfl, waits⟩

/-- Where the event loop has framed all it accepts, the threaded broker waits, too, unless it reads what the
event loop does not accept. -/
theorem waits_iff {stream : Bytes} (waits : ∀ (w : WirePacket) rest, stream ≠ w.bytes ++ rest) :
    readPacket stream = .ok none ↔ ¬Outsized stream := by
  constructor
  · rintro read ⟨header, digits, behind, rfl, terminated, -, gets⟩
    rw [readPacket_length header terminated] at read
    split at read
    next => cases read
    next small =>
      rw [if_neg (Nat.not_lt.mpr (gets.resolve_left small))] at read
      cases read
  · intro accepted
    cases stream with
    | nil => rfl
    | cons header stream =>
      rcases terminated_front stream with endless | ⟨digits, behind, rfl, terminated⟩
      · exact readPacket_endless header endless
      · have waiting : ¬(2 ^ (USIZE_BITS - 1) ≤ announced digits ∨ announced digits ≤ behind.length) := by
          intro gets
          obtain ⟨short, limit⟩ : ¬4 < digits.length ∧ ¬MAX_PACKET < announced digits := not_or.mp fun large =>
            accepted ⟨header, digits, behind, rfl, terminated, large, gets⟩
          have whole : announced digits ≤ behind.length := gets.resolve_left fun large =>
            limit (Nat.lt_of_lt_of_le (by decide) large)
          rw [announced_short (Nat.not_lt.mp short)] at whole limit
          -- then it is a packet the event loop accepts
          have counted : (behind.take (remValue digits)).length = remValue digits := List.length_take_of_le whole
          refine waits ⟨header, digits, behind.take (remValue digits), terminated, Nat.not_lt.mp short,
            counted.symm, counted.trans_le (Nat.not_lt.mp limit)⟩ (behind.drop (remValue digits)) ?_
          rw [WirePacket.bytes, List.cons_append, List.append_assoc, List.take_append_drop]
        obtain ⟨small, missing⟩ := not_or.mp waiting
        rw [readPacket_length header terminated, if_neg small, if_pos (Nat.not_le.mp missing)]

/-- What the event loop frames of a stream is the beginning of what the threaded broker reads from it, and
all of it unless a packet with more than four length bytes or more than the limit comes next. -/
theorem streams_cut_alike (stream : Bytes) : (frame stream).pkts <+: (readAll stream).pkts ∧
    (readAll stream = ⟨(frame stream).pkts, (frame stream).rest, false⟩ ↔ ¬Outsized (frame stream).rest) := by
  obtain ⟨same, waits⟩ := readAll_frame stream
  rw [← waits_iff waits, ← readAll_nothing, same]
  refine ⟨List.prefix_append _ _, fun alike => ?_, fun nothing => ?_⟩
  · have pkts : (readAll (frame stream).rest).pkts = [] :=
      List.append_right_eq_self.mp (congrArg Reading.pkts alike)
    have rest : (readAll (frame stream).rest).rest = (frame stream).rest := congrArg Reading.rest alike
    have panicked : (readAll (frame stream).rest).panicked = false := congrArg Reading.panicked alike
    exact Reading.ext pkts rest panicked
  · rw [nothing, List.append_nil]

/-- A length of 2^64 is read as none at all, and a buffer of 2^63 bytes is not to be had. -/
example : readAll (0xc0 :: List.replicate 9 0x80 ++ [2]) = ⟨[⟨12, 0, []⟩], [], false⟩ ∧
    (readAll (0x30 :: List.replicate 9 0x80 ++ [1])).panicked = true := by
  constructor <;> decide +kernel

end MioBroker.Threaded
