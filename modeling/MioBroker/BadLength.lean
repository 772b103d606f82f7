import MioBroker.Framing

/-!
# Remaining lengths that are refused

Two kinds of fixed headers have no packet behind them: the length is over the packet limit, or its
four bytes have not ended it. The framing loop refuses the first kind, with everything that came in
the same batch, and takes the second for a header of which more is to come.
-/
namespace MioBroker

open Rust

/-- A fixed header with an invalid remaining length. -/
structure BadHeader where
  header : UInt8
  digits : Bytes
  bad : (digits.length = 4 ∧ ∀ x ∈ digits, 128 ≤ x.toNat) ∨
    Terminated digits ∧ digits.length ≤ 4 ∧ MAX_PACKET < remValue digits

namespace BadHeader

variable (h : BadHeader)

def bytes : Bytes := h.header :: h.digits

/-- The length ends, and is too large. -/
def Oversized : Prop := Terminated h.digits

end BadHeader

/-! ### The length bytes -/

/-- The last byte ends the length. -/
theorem Terminated.last {digits : Bytes} (terminated : Terminated digits) :
    ∃ x ∈ digits, x.toNat < 128 := by
  induction digits with
  | nil => exact terminated.elim
  | cons x xs ih =>
    cases xs with
    | nil => exact ⟨x, List.mem_cons_self, terminated⟩
    | cons y ys =>
      obtain ⟨z, member, ends⟩ := ih terminated.2
      exact ⟨z, List.mem_cons_of_mem _ member, ends⟩

/-- A length none of whose bytes ends it is not read. -/
theorem decodeRem_continued (n : Nat) {b : Bytes} (continued : ∀ x ∈ b.take n, 128 ≤ x.toNat)
    (i mult rem : Nat) : decodeRem n b i mult rem = none := by
  induction n generalizing b i mult rem with
  | zero => rfl
  | succ n ih =>
    cases b with
    | nil => rfl
    | cons x xs =>
      rw [List.take_succ_cons] at continued
      have unfinished : ¬(x &&& 0x80 == 0) = true :=
        fun last => Nat.not_lt.mpr (continued x List.mem_cons_self) ((continuation_iff x).mp last)
      rw [decodeRem, if_neg unfinished]
      exact ih (fun y member => continued y (List.mem_cons_of_mem _ member)) _ _ _

/-- Without a length the loop waits. -/
theorem frameLoop_unread {b : Bytes} (unread : decodeRem 4 b 1 1 0 = none) (header : UInt8)
    (fuel : Nat) (pkts : List Packet) :
    frameLoop fuel (header :: b) pkts = ⟨pkts, header :: b, none⟩ := by
  cases fuel with
  | zero => rfl
  | succ fuel => rw [frameLoop, unread]

namespace BadHeader

variable {h : BadHeader}

theorem length_bytes_le (h : BadHeader) : h.bytes.length ≤ 5 := by
  rw [bytes, List.length_cons]
  rcases h.bad with ⟨four, -⟩ | ⟨-, short, -⟩
  · omega
  · omega

/-- The loop waits behind a header that is not there in full. -/
theorem unfinished_cut {front back : Bytes} (same : front ++ back = h.bytes) (missing : back ≠ []) :
    Unfinished front where
  short := by
    have lengths := congrArg List.length same
    rw [List.length_append] at lengths
    have := h.length_bytes_le
    have : 5 < 5 + MAX_PACKET := by decide
    omega
  waits := by
    rintro first ⟨more, rfl⟩ fuel pkts
    cases first with
    | nil => cases fuel <;> rfl
    | cons x first =>
      rw [List.append_assoc, bytes, List.cons_append] at same
      obtain ⟨-, digits⟩ := List.cons.inj same
      refine frameLoop_unread ?_ x fuel pkts
      -- No cut of the header has an end to its length, of whichever kind it is.
      rcases h.bad with ⟨-, continued⟩ | ⟨terminated, -⟩
      · refine decodeRem_continued 4 (fun y member => continued y ?_) _ _ _
        rw [← digits]
        exact List.mem_append_left _ (List.mem_of_mem_take member)
      · exact decodeRem_cut first (more ++ back) (digits ▸ terminated) (by simp [missing]) _ _ _ _

/-- The loop waits behind four length bytes that go on, whatever follows. -/
theorem unfinished_endless (endless : ¬h.Oversized) {beyond : Bytes}
    (short : beyond.length ≤ 65536) : Unfinished (h.bytes ++ beyond) where
  short := by
    have := h.length_bytes_le
    have cap : MAX_PACKET = 1048576 := rfl
    rw [List.length_append]
    omega
  waits := by
    rintro first ⟨more, same⟩ fuel pkts
    obtain ⟨four, continued⟩ := h.bad.resolve_right fun large => endless large.1
    cases first with
    | nil => cases fuel <;> rfl
    | cons x first =>
      rw [bytes, List.cons_append, List.cons_append] at same
      obtain ⟨-, digits⟩ := List.cons.inj same
      refine frameLoop_unread (decodeRem_continued 4 (fun y member => continued y ?_) _ _ _) x fuel pkts
      -- the first four bytes behind the header byte are the length bytes
      have lead : (first ++ more).take 4 = h.digits := by
        rw [digits, ← four, List.take_left]
      rw [← lead, List.take_append]
      exact List.mem_append_left _ member

/-- A length over the limit stops the loop as soon as its last byte is there. -/
theorem frameLoop_oversized (oversized : h.Oversized) (beyond : Bytes) (fuel : Nat)
    (pkts : List Packet) : frameLoop (fuel + 1) (h.bytes ++ beyond) pkts =
      ⟨pkts, h.bytes ++ beyond, some (remValue h.digits)⟩ := by
  have limits : h.digits.length ≤ 4 ∧ MAX_PACKET < remValue h.digits := by
    rcases h.bad with ⟨-, continued⟩ | ⟨-, large⟩
    · obtain ⟨x, member, ends⟩ := Terminated.last oversized
      have := continued x member
      omega
    · exact large
  have length := decodeRem_terminated oversized 4 beyond 1 1 0 limits.1
  rw [Nat.zero_add, Nat.mul_one] at length
  rw [bytes, List.cons_append, frameLoop, length]
  simp only
  rw [if_pos limits.2]

theorem frame_oversized (oversized : h.Oversized) (ws : List WirePacket) (beyond : Bytes) :
    frame (ws.flatMap WirePacket.bytes ++ (h.bytes ++ beyond)) =
      ⟨ws.map WirePacket.packet, h.bytes ++ beyond, some (remValue h.digits)⟩ := by
  obtain ⟨left, enough, same⟩ := frameLoop_packets ws (h.bytes ++ beyond) _ [] (Nat.le_refl _)
  obtain ⟨fuel, rfl⟩ : ∃ k, left = k + 1 := by
    refine ⟨left - 1, ?_⟩
    rw [bytes, List.cons_append, List.length_cons] at enough
    omega
  rw [frame, same, frameLoop_oversized oversized, List.nil_append]

end BadHeader

/-! ### The batch with the header -/

namespace Broker

variable {b b' : Broker} {t : Token} {h : BadHeader}

/-- The batch that completes a length over the limit is closed, none of its packets handled. -/
theorem Feedable.drain_oversized {rest chunk beyond : Bytes} (feedable : b.Feedable t rest)
    (connected : b.clients.contains t = true) (unfinished : Unfinished rest)
    (size : 1 ≤ chunk.length ∧ chunk.length ≤ 65536) (oversized : h.Oversized) (ws : List WirePacket)
    (same : rest ++ chunk = ws.flatMap WirePacket.bytes ++ (h.bytes ++ beyond)) :
    ∃ b', b.drain t (.ok chunk) = .ok (b', [], some .tooLarge) := by
  obtain ⟨c, read⟩ := feedable.read connected unfinished size
  have framed := BadHeader.frame_oversized oversized ws beyond
  rw [← same] at framed
  have nonempty : rest ++ chunk ≠ [] := by
    intro empty
    have short := congrArg List.length empty
    rw [List.length_append, List.length_nil] at short
    omega
  simp [drain, read, beginBatch, framed, nonempty]

/-- A feeding that ends with a chunk: what came before has closed the connection, or the chunk is
drained. -/
theorem feed_snoc {front : List Feeding} {last : Bytes} {got : List Packet} {closed : Option Closed}
    (fed : b.feed t (front ++ [.chunk last]) = .ok (b', got, closed)) :
    ∃ b₁ got₁ closed₁, b.feed t front = .ok (b₁, got₁, closed₁) ∧
      (closed₁ ≠ none ∧ closed = closed₁ ∨
        closed₁ = none ∧ ∃ b₂ pkts reason, b₁.drain t (.ok last) = .ok (b₂, pkts, reason) ∧
          got = got₁ ++ pkts ∧ (reason ≠ none → closed = reason)) := by
  induction front generalizing b got with
  | nil =>
    refine ⟨b, [], none, rfl, .inr ⟨rfl, ?_⟩⟩
    obtain ⟨⟨b₂, pkts, reason⟩, drained, fed⟩ := Run.bind_ok.mp fed
    refine ⟨b₂, pkts, reason, drained, ?_⟩
    cases reason with
    | some r =>
      cases fed
      exact ⟨rfl, fun _ => rfl⟩
    | none =>
      simp only [feed, Run.pure_eq, Run.ok_bind] at fed
      split at fed
      · cases fed
        exact ⟨by simp, fun closed => absurd rfl closed⟩
      · cases fed
        exact ⟨by simp, fun closed => absurd rfl closed⟩
  | cons step front ih =>
    cases step with
    | other op =>
      obtain ⟨⟨d, out⟩, ran, fed⟩ := Run.bind_ok.mp fed
      simp only at fed
      split at fed
      next there =>
        obtain ⟨b₁, got₁, closed₁, first, second⟩ := ih fed
        refine ⟨b₁, got₁, closed₁, ?_, second⟩
        rw [feed, ran, Run.ok_bind]
        simp only [there, if_true]
        exact first
      -- A client that is gone closes the feed, and the last chunk is never read.
      next gone =>
        cases fed
        refine ⟨b', [], some .dropped, ?_, .inl ⟨by simp, rfl⟩⟩
        rw [feed, ran, Run.ok_bind]
        simp only [gone]
        rfl
    | chunk bytes =>
      obtain ⟨⟨d, pkts, reason⟩, drained, fed⟩ := Run.bind_ok.mp fed
      cases reason with
      | some r =>
        cases fed
        refine ⟨b', got, some r, ?_, .inl ⟨by simp, rfl⟩⟩
        rw [feed, drained]
        rfl
      | none =>
        simp only at fed
        split at fed
        next there =>
          obtain ⟨⟨e, more, rest⟩, later, fed⟩ := Run.bind_ok.mp fed
          cases fed
          obtain ⟨b₁, got₁, closed₁, first, second⟩ := ih later
          refine ⟨b₁, pkts ++ got₁, closed₁, ?_, ?_⟩
          · rw [feed, drained, Run.ok_bind]
            simp only [there, if_true, first]
            rfl
          · rcases second with early | ⟨open_, b₂, pkts₂, reason, last, all, ends⟩
            · exact .inl early
            · exact .inr ⟨open_, b₂, pkts₂, reason, last, by rw [all, List.append_assoc], ends⟩
        next gone =>
          cases fed
          refine ⟨b', got, some .dropped, ?_, .inl ⟨by simp, rfl⟩⟩
          rw [feed, drained, Run.ok_bind]
          simp only [gone]
          rfl

end Broker

/-- A stream that is cut before its invalid header is complete. -/
theorem BadHeader.stream_cut {h : BadHeader} {ws : List WirePacket} {front back : Bytes}
    (same : front ++ back = ws.flatMap WirePacket.bytes ++ h.bytes) (missing : back ≠ []) :
    ∃ before after rest, ws = before ++ after ∧ Unfinished rest ∧
      front = before.flatMap WirePacket.bytes ++ rest ∧
      ∃ r, Unfinished r ∧ rest <+: after.flatMap WirePacket.bytes ++ r := by
  -- the last byte of the header is not there
  obtain ⟨back, z, rfl⟩ := List.eq_nil_or_concat back |>.resolve_left missing
  obtain ⟨tail, y, whole⟩ := List.eq_nil_or_concat h.bytes |>.resolve_left (by simp [BadHeader.bytes])
  rw [List.concat_eq_append] at same whole
  rw [whole, ← List.append_assoc, ← List.append_assoc] at same
  have unfinished : Unfinished tail := BadHeader.unfinished_cut whole.symm (by simp)
  obtain ⟨before, after, rest, parts, short, cut, left⟩ :=
    MioBroker.stream_cut front back ws unfinished (List.append_inj_left' same rfl)
  exact ⟨before, after, rest, parts, short, cut, tail, unfinished, ⟨back, left⟩⟩

/-- Unfinished data holds no whole packet. -/
theorem Unfinished.before_packets {rest r : Bytes} {after : List WirePacket} (unfinished : Unfinished rest)
    (start : rest <+: after.flatMap WirePacket.bytes ++ r) (short : Unfinished r)
    (long : (after.flatMap WirePacket.bytes).length ≤ rest.length) : after = [] := by
  obtain ⟨left, parts⟩ := List.prefix_of_prefix_length_le (List.prefix_append _ r) start long
  obtain ⟨more, whole⟩ := start
  rw [← parts, List.append_assoc] at whole
  have within : left <+: r := ⟨more, List.append_cancel_left whole⟩
  have framed := frame_packets after (short.cut within)
  rw [parts] at framed
  have waits := (frame_packets [] unfinished).symm.trans framed
  simpa using (Framed.mk.inj waits).1.symm

/-- A connection with an empty buffer is sent packets and then a header with an invalid length, in
any chunks and with any other activity in between; `last` is the chunk that completes the header.
Neither a handler nor another operation closes the connection. -/
structure BadFeeding (b : Broker) (t : Token) (ws : List WirePacket) (h : BadHeader)
    (front : List Feeding) (last : Bytes) (b' : Broker) (got : List Packet) (closed : Option Closed) :
    Prop where
  empty : ∃ c, b.clients.get? t = some c ∧ c.readBuf = []
  admitted : ∀ step ∈ front ++ [Feeding.chunk last], step.Admitted t
  early : (front.flatMap Feeding.bytes).length < (ws.flatMap WirePacket.bytes ++ h.bytes).length
  stream : ∃ beyond, front.flatMap Feeding.bytes ++ last =
    ws.flatMap WirePacket.bytes ++ (h.bytes ++ beyond)
  fed : b.feed t (front ++ [.chunk last]) = .ok (b', got, closed)
  kept : closed ≠ some .refused ∧ closed ≠ some .dropped

namespace BadFeeding

variable {b b' : Broker} {t : Token} {ws : List WirePacket} {h : BadHeader} {front : List Feeding}
  {last : Bytes} {got : List Packet} {closed : Option Closed}

/-- A length that its four bytes have not ended leaves the connection open. -/
theorem endless (feeding : BadFeeding b t ws h front last b' got closed) (feedable : b.Feedable t [])
    (unended : ¬h.Oversized) : closed = none := by
  obtain ⟨c, connected, -⟩ := feeding.empty
  obtain ⟨beyond, stream⟩ := feeding.stream
  have short : beyond.length ≤ 65536 := by
    have size := (feeding.admitted (.chunk last) (by simp)).2
    have early := feeding.early
    have lengths := congrArg List.length stream
    simp only [List.length_append] at lengths early
    omega
  have whole : [] ++ (front ++ [Feeding.chunk last]).flatMap Feeding.bytes =
      ws.flatMap WirePacket.bytes ++ (h.bytes ++ beyond) := by
    rw [List.nil_append, List.flatMap_append, List.flatMap_singleton]
    exact stream
  exact (Broker.feed_packets _ feeding.admitted feedable ((HashMap.contains_iff _ _).mpr ⟨c, connected⟩)
    .nil ws (BadHeader.unfinished_endless unended short) whole feeding.fed feeding.kept).1

/-- A length over the limit closes the connection with the chunk that completes it; handled are the
packets of the chunks before. -/
theorem oversized (feeding : BadFeeding b t ws h front last b' got closed) (feedable : b.Feedable t [])
    (large : h.Oversized) : closed = some .tooLarge ∧ (got = ws.map WirePacket.packet ↔
      (ws.flatMap WirePacket.bytes).length ≤ (front.flatMap Feeding.bytes).length) := by
  obtain ⟨⟨c, connected, -⟩, admitted, early, ⟨beyond, stream⟩, fed, kept⟩ := feeding
  -- what the chunks before the last one hold
  rw [← List.append_assoc] at stream
  obtain ⟨back, cut⟩ := List.prefix_of_prefix_length_le ⟨last, stream⟩ (List.prefix_append _ beyond)
    (Nat.le_of_lt early)
  have missing : back ≠ [] := by
    rintro rfl
    rw [← cut, List.append_nil] at early
    exact Nat.lt_irrefl _ early
  obtain ⟨before, after, rest, rfl, unfinished, first, r, short, start⟩ :=
    BadHeader.stream_cut cut missing
  have second : rest ++ last = after.flatMap WirePacket.bytes ++ (h.bytes ++ beyond) := by
    rw [first, List.flatMap_append, List.append_assoc, List.append_assoc, List.append_assoc] at stream
    exact List.append_cancel_left stream
  obtain ⟨b₁, got₁, closed₁, fed₁, ended⟩ := Broker.feed_snoc fed
  have kept₁ : closed₁ ≠ some .refused ∧ closed₁ ≠ some .dropped := by
    rcases ended with ⟨-, same⟩ | ⟨open_, -⟩
    · exact same ▸ kept
    · simp [open_]
  obtain ⟨open_, packets, connected₁, feedable₁⟩ := Broker.feed_packets front
    (fun step member => admitted step (List.mem_append_left _ member)) feedable
    ((HashMap.contains_iff _ _).mpr ⟨c, connected⟩) .nil before unfinished first fed₁ kept₁
  rcases ended with ⟨closed_, -⟩ | ⟨-, b₂, pkts, reason, drained, all, ends⟩
  · exact absurd open_ closed_
  · -- the last batch is refused as a whole
    obtain ⟨b₃, refused⟩ := feedable₁.drain_oversized connected₁ unfinished
      (admitted (.chunk last) (by simp)) large after second
    cases refused.symm.trans drained
    refine ⟨ends (by simp), ?_⟩
    rw [all, packets, List.append_nil, List.map_append, first, List.flatMap_append, List.length_append,
      List.length_append]
    constructor
    · intro same
      have nothing : after = [] := by simpa using same
      simp [nothing]
    · intro long
      rw [unfinished.before_packets start short (by omega)]
      simp

end BadFeeding

/-- A header with an invalid length closes the connection with the chunk that completes it, and all
packets before it are handled, exactly if the length is over the limit and the packets were complete
before that chunk. -/
theorem bad_length_refused_iff (s : Loop) (reached : s.Reachable) (t : Token) (ws : List WirePacket)
    (h : BadHeader) (front : List Feeding) (last : Bytes) (b' : Broker) (got : List Packet)
    (closed : Option Closed) (feeding : BadFeeding s.broker t ws h front last b' got closed) :
    closed = some .tooLarge ∧ got = ws.map WirePacket.packet ↔
      h.Oversized ∧ (ws.flatMap WirePacket.bytes).length ≤ (front.flatMap Feeding.bytes).length := by
  obtain ⟨c, connected, unread⟩ := feeding.empty
  have feedable : s.broker.Feedable t [] := by
    refine ⟨reached.healthy, reached.numbered t c connected, fun d found => ?_⟩
    cases connected.symm.trans found
    exact unread
  by_cases large : h.Oversized
  · obtain ⟨refused, handled⟩ := feeding.oversized feedable large
    rw [handled]
    simp [refused, large]
  · have open_ := feeding.endless feedable large
    simp [open_, large]

/-- The header of a PUBLISH of 2097151 bytes. -/
def oversizedPublish : BadHeader where
  header := 0x30
  digits := [0xff, 0xff, 0x7f]
  bad := .inr ⟨by simp [Terminated], by decide, by decide⟩

/-- The header of a PUBLISH whose length does not end. -/
def endlessPublish : BadHeader where
  header := 0x30
  digits := [0xff, 0xff, 0xff, 0xff]
  bad := .inl ⟨rfl, by simp⟩

theorem endlessPublish_unended : ¬endlessPublish.Oversized := by
  simp [BadHeader.Oversized, endlessPublish, Terminated]

/-- PINGREQ and a length over the limit, in two chunks. -/
theorem bad_length_refused_pingreq : ∃ (s : Loop) (b' : Broker),
    s.broker.feed 1 [.chunk [0xc0, 0], .chunk [0x30, 0xff, 0xff, 0x7f]] =
      .ok (b', [pingreq.packet], some .tooLarge) := by
  obtain ⟨s, b', got, closed, reached, empty, fed, kept⟩ := exists_fed
    [.chunk [0xc0, 0], .chunk [0x30, 0xff, 0xff, 0x7f]]
    (fun _ closed => closed ≠ some .refused && closed ≠ some .dropped) (by decide +kernel)
  obtain ⟨rfl, rfl⟩ := (bad_length_refused_iff s reached 1 [pingreq] oversizedPublish [.chunk [0xc0, 0]]
    [0x30, 0xff, 0xff, 0x7f] b' got closed ⟨empty, by simp [Feeding.Admitted], by decide, ⟨[], rfl⟩, fed,
      by simpa using kept⟩).mpr ⟨by simp [BadHeader.Oversized, oversizedPublish, Terminated], by decide⟩
  exact ⟨s, b', fed⟩

/-- Both kinds of headers go wrong behind a PINGREQ in the same chunk: a length over the limit takes
the PINGREQ with it, and one that does not end leaves the connection open. -/
theorem bad_length_unrefused :
    (¬∀ (s : Loop) (t : Token) (ws : List WirePacket) (h : BadHeader) (front : List Feeding)
      (last : Bytes) (b' : Broker) (got : List Packet) (closed : Option Closed), s.Reachable →
      h.Oversized → BadFeeding s.broker t ws h front last b' got closed →
      closed = some .tooLarge ∧ got = ws.map WirePacket.packet) ∧
    ¬∀ (s : Loop) (t : Token) (ws : List WirePacket) (h : BadHeader) (front : List Feeding)
      (last : Bytes) (b' : Broker) (got : List Packet) (closed : Option Closed), s.Reachable →
      ¬h.Oversized → BadFeeding s.broker t ws h front last b' got closed →
      closed = some .tooLarge ∧ got = ws.map WirePacket.packet := by
  constructor
  · intro handled
    obtain ⟨s, b', got, closed, reached, empty, fed, outcome⟩ := exists_fed
      [.chunk [0xc0, 0, 0x30, 0xff, 0xff, 0x7f]]
      (fun got closed => got.isEmpty && closed ≠ some .refused && closed ≠ some .dropped)
      (by decide +kernel)
    simp only [Bool.and_eq_true, List.isEmpty_iff, decide_eq_true_eq] at outcome
    obtain ⟨⟨nothing, unrefused⟩, undropped⟩ := outcome
    have all := (handled s 1 [pingreq] oversizedPublish [] [0xc0, 0, 0x30, 0xff, 0xff, 0x7f] b' got closed
      reached (by simp [BadHeader.Oversized, oversizedPublish, Terminated])
      ⟨empty, by simp [Feeding.Admitted], by decide, ⟨[], rfl⟩, fed, unrefused, undropped⟩).2
    rw [nothing] at all
    cases all
  · intro refused
    obtain ⟨s, b', got, closed, reached, empty, fed, open_⟩ := exists_fed
      [.chunk [0xc0, 0, 0x30, 0xff, 0xff, 0xff, 0xff]] (fun _ closed => closed.isNone) (by decide +kernel)
    rw [Option.isNone_iff_eq_none] at open_
    subst open_
    have closed := (refused s 1 [pingreq] endlessPublish [] [0xc0, 0, 0x30, 0xff, 0xff, 0xff, 0xff] b' got
      none reached endlessPublish_unended
      ⟨empty, by simp [Feeding.Admitted], by decide, ⟨[], rfl⟩, fed, by simp, by simp⟩).1
    cases closed

end MioBroker
