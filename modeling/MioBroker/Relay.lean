import MioBroker.Framing
import MioBroker.Genuine
import MioBroker.Requests

/-!
# What a subscriber reads

A PUBLISH is taken apart, forwarded field by field and put together again. A receiver that reads
the fields off the wire gets payload and packet id as they were, and the topic as the lossy decoding
left it.
-/
namespace MioBroker

open Rust

/-- The variable parts of a PUBLISH, as bytes. -/
structure PublishFields where
  topic : Bytes
  pid : Option UInt16
  payload : Bytes
  deriving DecidableEq

/-- Read them off a body; the flags say whether there is a packet id. -/
def PublishFields.read (flags : UInt8) : Bytes → Option PublishFields
  | hi :: lo :: rest =>
    let tlen := (u16FromBe hi lo).toNat
    if rest.length < tlen then none
    else if publishQos flags > 0 then
      match rest.drop tlen with
      | hi :: lo :: payload => some ⟨rest.take tlen, some (u16FromBe hi lo), payload⟩
      | _ => none
    else some ⟨rest.take tlen, none, rest.drop tlen⟩
  | _ => none

/-- What a subscriber reads off a packet: a PUBLISH header, a remaining length that is right, and
the fields. -/
def readForward : Bytes → Option PublishFields
  | [] => none
  | first :: rest =>
    if first >>> 4 = PUBLISH then
      match decodeRem 4 rest 1 1 0 with
      | some (rem, i) =>
        if rest.length = i + rem then PublishFields.read (first &&& 0x0f) (rest.drop i) else none
      | none => none
    else none

/-! ### The remaining length -/

theorem continued_digit {m : Nat} (small : m < 128) : (UInt8.ofNat m ||| 0x80).toNat = m + 128 := by
  have all : ∀ n : Fin 128, (UInt8.ofNat n ||| 0x80).toNat = n.val + 128 := by decide +kernel
  exact all ⟨m, small⟩

/-- The digits `encode_rem` writes end where they should and have the value they encode. -/
theorem encodeRemAux_digits (fuel n : Nat) (enough : n ≤ fuel) :
    Terminated (encodeRemAux fuel n) ∧ remValue (encodeRemAux fuel n) = n := by
  induction fuel generalizing n with
  | zero =>
    rw [Nat.le_zero.mp enough]
    exact ⟨show (0 : UInt8).toNat < 128 by decide, by decide⟩
  | succ fuel ih =>
    have digit : n % 128 < 128 := Nat.mod_lt _ (by decide)
    rw [encodeRemAux]
    split
    next more =>
      -- a digit with the top bit set, and the digits of the rest behind it
      obtain ⟨terminated, value⟩ := ih (n / 128) (by omega)
      have first := continued_digit digit
      constructor
      · cases rest : encodeRemAux fuel (n / 128) with
        | nil =>
          rw [rest] at terminated
          exact terminated.elim
        | cons y ys =>
          rw [rest] at terminated
          exact ⟨by omega, terminated⟩
      · rw [remValue, value, first]
        omega
    next last =>
      have whole : (UInt8.ofNat (n % 128)).toNat = n := by
        rw [UInt8.toNat_ofNat']
        omega
      constructor
      · rw [Terminated, whole]
        omega
      · rw [remValue, whole, remValue]
        omega

/-- Each digit takes seven bits of the length. -/
theorem length_encodeRemAux_le (k fuel n : Nat) (small : n < 128 ^ (k + 1)) :
    (encodeRemAux fuel n).length ≤ k + 1 := by
  induction k generalizing fuel n with
  | zero =>
    -- A number below 128 is its own last digit.
    have none_left : ¬n / 128 > 0 := by omega
    cases fuel with
    | zero => exact Nat.le_refl _
    | succ fuel => rw [encodeRemAux, if_neg none_left, List.length_singleton]
  | succ k ih =>
    cases fuel with
    | zero => exact Nat.succ_le_succ (Nat.zero_le _)
    | succ fuel =>
      rw [encodeRemAux]
      split
      · rw [List.length_cons]
        refine Nat.succ_le_succ (ih fuel _ ?_)
        exact Nat.div_lt_of_lt_mul (by rwa [Nat.pow_succ'] at small)
      · exact Nat.succ_le_succ (Nat.zero_le _)

/-- A length of up to 28 bits is read back. -/
theorem decodeRem_encodeRem {n : Nat} (small : n < 268435456) (rest : Bytes) :
    decodeRem 4 (encodeRem n ++ rest) 1 1 0 = some (n, (encodeRem n).length) := by
  obtain ⟨terminated, value⟩ := encodeRemAux_digits n n (Nat.le_refl _)
  have short : (encodeRem n).length ≤ 4 := length_encodeRemAux_le 3 n n small
  have read := decodeRem_terminated terminated 4 rest 1 1 0 short
  rw [encodeRem, read, value]
  simp

/-! ### Inbound packets -/

theorem frameLoop_limit (fuel : Nat) (b : Bytes) (pkts : List Packet)
    (before : ∀ p ∈ pkts, p.body.length ≤ MAX_PACKET) :
    ∀ p ∈ (frameLoop fuel b pkts).pkts, p.body.length ≤ MAX_PACKET := by
  induction fuel generalizing b pkts with
  | zero => exact before
  | succ fuel ih =>
    cases b with
    | nil => exact before
    | cons b0 b =>
      rw [frameLoop]
      split
      · exact before
      next rem i _ =>
        split
        · exact before
        next within =>
          split
          · exact before
          · -- one more packet, within the limit
            refine ih _ _ fun p member => ?_
            rcases List.mem_append.mp member with old | new
            · exact before p old
            · rw [List.mem_singleton.mp new]
              exact Nat.le_trans (List.length_take_le _ _) (Nat.not_lt.mp within)

/-- No packet the framing loop extracts has a body over the limit. -/
theorem frame_limit {buf : Bytes} {p : Packet} (inbound : p ∈ (frame buf).pkts) :
    p.body.length ≤ MAX_PACKET := frameLoop_limit buf.length buf [] (by simp) p inbound

theorem slice_behind (front rest : Bytes) (i j : Nat) :
    Run.slice (front ++ rest) (front.length + i) (front.length + j) = Run.slice rest i j := by
  rw [Run.slice, Run.slice, List.take_length_add_append, List.drop_append]
  simp only [List.length_append, Nat.add_le_add_iff_left, Nat.add_sub_cancel_left]
  rw [List.drop_of_length_le (Nat.le_add_right _ _), List.nil_append]

theorem u16At_behind (front rest : Bytes) (i : Nat) :
    u16At (front ++ rest) (front.length + i) = u16At rest i := by
  have index : ∀ k, Run.index (front ++ rest) (front.length + k) = Run.index rest k := by
    intro k
    rw [Run.index, List.getElem?_append_right (Nat.le_add_right _ _), Nat.add_sub_cancel_left, Run.index]
  rw [u16At, index, Nat.add_assoc, index, u16At]

/-- What `parse_publish` answers is what the body holds, the topic decoded. -/
theorem parsePublish_read {flags : UInt8} {body : Bytes} {q : PublishPacket}
    (parse : parsePublish flags body = .ok (some q)) :
    ∃ f, PublishFields.read flags body = some f ∧ q.topic = .fromUtf8Lossy f.topic ∧
      q.payload = f.payload ∧ f.payload.length ≤ body.length := by
  rcases body with _ | ⟨hi, _ | ⟨lo, rest⟩⟩
  · cases parse
  · cases parse
  · have tlen : u16At (hi :: lo :: rest) 0 = .ok (u16FromBe hi lo) := rfl
    simp only [parsePublish, tlen, Run.ok_bind] at parse
    generalize value : (u16FromBe hi lo).toNat = n at parse
    split at parse
    · cases parse
    split at parse
    · cases parse
    next inside =>
    have enough : n ≤ rest.length := by
      simp only [List.length_cons] at inside
      omega
    simp only [PublishFields.read, value, if_neg (Nat.not_lt.mpr enough)]
    -- the body is cut behind the topic
    obtain ⟨topic, tail, rfl, rfl⟩ : ∃ topic tail, rest = topic ++ tail ∧ n = topic.length :=
      ⟨rest.take n, rest.drop n, (List.take_append_drop n rest).symm,
        (List.length_take_of_le enough).symm⟩
    have cut : hi :: lo :: (topic ++ tail) = (hi :: lo :: topic) ++ tail := rfl
    have front : 2 + topic.length = (hi :: lo :: topic).length := by
      simp only [List.length_cons]
      omega
    have whole : (hi :: lo :: (topic ++ tail)).length = (hi :: lo :: topic).length + tail.length := by
      rw [cut, List.length_append]
    have named : Run.slice (hi :: lo :: (topic ++ tail)) 2 (2 + topic.length) = .ok topic :=
      slice_layout [hi, lo] tail rfl rfl rfl
    rw [named, Run.ok_bind, front, whole] at parse
    rw [List.drop_left, List.take_left]
    split at parse
    -- QoS 1 and 2: two bytes of id between topic and payload
    next reliable =>
      rw [if_pos reliable]
      split at parse
      · cases parse
      next room =>
      rcases tail with _ | ⟨hi', _ | ⟨lo', payload⟩⟩
      · simp at room
      · simp at room
      · have id : u16At ((hi :: lo :: topic) ++ hi' :: lo' :: payload) (hi :: lo :: topic).length =
            .ok (u16FromBe hi' lo') := u16At_behind (hi :: lo :: topic) (hi' :: lo' :: payload) 0
        have behind : Run.slice (hi' :: lo' :: payload) 2 (hi' :: lo' :: payload).length = .ok payload := by
          refine slice_layout [hi', lo'] [] (by simp) rfl ?_
          simp only [List.length_cons, List.length_nil]
          omega
        rw [cut, id, Run.ok_bind, slice_behind, behind, Run.ok_bind] at parse
        cases parse
        refine ⟨_, rfl, rfl, rfl, ?_⟩
        simp only [List.length_cons, List.length_append]
        omega
    next unreliable =>
      have behind : Run.slice tail 0 tail.length = .ok tail :=
        slice_layout [] [] (by simp) rfl (by simp)
      rw [cut, ← Nat.add_zero (hi :: lo :: topic).length, Nat.add_assoc, Nat.zero_add, slice_behind,
        behind, Run.ok_bind] at parse
      cases parse
      rw [if_neg unreliable]
      refine ⟨_, rfl, rfl, rfl, ?_⟩
      simp only [List.length_cons, List.length_append]
      omega

/-! ### Forwarded packets -/

/-- The first byte of a forward names type and QoS. -/
theorem forwardFlags_header {qos : UInt8} (coded : qos ≤ 3) (dup retain : Bool) :
    forwardFlags qos dup retain >>> 4 = PUBLISH ∧
      publishQos (forwardFlags qos dup retain &&& 0x0f) = qos := by
  -- four values of QoS, two bits
  rcases qos_cases coded with rfl | rfl | rfl | rfl <;> cases dup <;> cases retain <;> decide

/-- The packet id of a forward: QoS 0 has none. -/
def forwardPid (qos : UInt8) (pid : UInt16) : Option UInt16 := if qos = 0 then none else some pid

theorem read_forwardBody {flags qos : UInt8} (carried : publishQos flags = qos) (topic : Bytes)
    (payload : Bytes) (pid : UInt16) (short : topic.length ≤ 65535) :
    PublishFields.read flags (forwardBody topic payload (forwardPid qos pid)) =
      some ⟨topic, forwardPid qos pid, payload⟩ := by
  have tlen : (u16FromBe (UInt8.ofNat ((UInt16.ofNat topic.length).toNat / 256))
      (UInt8.ofNat (UInt16.ofNat topic.length).toNat)).toNat = topic.length := by
    rw [u16FromBe_toBe, UInt16.toNat_ofNat']
    exact Nat.mod_eq_of_lt (Nat.lt_succ_of_le short)
  simp only [forwardBody, u16ToBe, List.cons_append, List.nil_append, List.append_assoc,
    PublishFields.read, tlen, carried]
  -- the length field holds the topic exactly, so the cut falls behind it
  rw [if_neg (by simp), List.drop_left, List.take_left]
  by_cases unreliable : qos = 0
  · subst unreliable
    rfl
  · have reliable : qos > 0 := by
      rw [gt_iff_lt, UInt8.lt_iff_toNat_lt]
      exact Nat.pos_of_ne_zero fun zero => unreliable (UInt8.toNat_inj.mp zero)
    rw [if_pos reliable]
    simp only [forwardPid, if_neg unreliable, List.cons_append, List.nil_append, u16FromBe_toBe]

/-- A forward is read back field by field, as long as topic and packet fit their length fields. -/
theorem readForward_buildForward {qos : UInt8} (coded : qos ≤ 3) (topic payload : Bytes) (pid : UInt16)
    (dup retain : Bool) (short : topic.length ≤ 65535) (small : payload.length ≤ MAX_PACKET) :
    readForward (buildForward topic payload qos (forwardPid qos pid) dup retain) =
      some ⟨topic, forwardPid qos pid, payload⟩ := by
  obtain ⟨kind, carried⟩ := forwardFlags_header coded dup retain
  -- a packet within the limit is far below 28 bits
  have size : (forwardBody topic payload (forwardPid qos pid)).length < 268435456 := by
    have cap : MAX_PACKET = 1048576 := rfl
    cases forwardPid qos pid <;>
    · simp only [forwardBody, List.length_append, length_u16ToBe, List.length_nil]
      omega
  rw [buildForward, List.cons_append, readForward, if_pos kind, decodeRem_encodeRem size]
  simp only [List.length_append, if_true, List.drop_left]
  exact read_forwardBody carried topic payload pid short

/-- However an accepted PUBLISH is forwarded, the subscriber reads its payload and the id allocated
for it, and its topic decoded: the topic itself when it was well-formed. -/
theorem relay_faithful (buf : Bytes) (p : Packet) (inbound : p ∈ (frame buf).pkts) (q : PublishPacket)
    (parse : parsePublish p.flags p.body = .ok (some q)) (short : q.topic.length ≤ 65535) :
    ∃ f, PublishFields.read p.flags p.body = some f ∧
      (∀ (qos : UInt8) (pid : UInt16) (dup retain : Bool), qos ≤ q.qos →
        readForward (buildForward q.topic.bytes q.payload qos (forwardPid qos pid) dup retain) =
          some ⟨Utf8.lossy f.topic, forwardPid qos pid, f.payload⟩) ∧
      (Utf8.validate f.topic = true → Utf8.lossy f.topic = f.topic) := by
  obtain ⟨f, read, topic, payload, le⟩ := parsePublish_read parse
  refine ⟨f, read, fun qos pid dup retain below => ?_, Utf8.lossy_of_validate f.topic⟩
  have coded : qos ≤ 3 := by
    rw [(parsePublish_fields parse).1] at below
    exact UInt8.le_trans below (and_three_le _)
  have small := Nat.le_trans le (frame_limit inbound)
  rw [← payload] at small ⊢
  rw [readForward_buildForward coded q.topic.bytes q.payload pid dup retain short small, topic]
  rfl

/-- A PUBLISH with QoS 1, topic `t` and one byte of payload, forwarded at QoS 1 under id 9. -/
theorem relay_faithful_one : readForward (buildForward [116] [7] 1 (some 9) false false) =
    some ⟨[116], some 9, [7]⟩ := by
  obtain ⟨f, read, forwards, -⟩ := relay_faithful [0x32, 6, 0, 1, 116, 0, 1, 7]
    ⟨3, 2, [0, 1, 116, 0, 1, 7]⟩ (by decide) ⟨.fromUtf8Lossy [116], 1, some 1, [7], false⟩ rfl (by decide)
  cases read
  exact forwards 1 9 false false (by decide)

/-- A topic that is not UTF-8 does not arrive as it was. -/
theorem relay_unfaithful : ¬∀ (buf : Bytes) (p : Packet) (q : PublishPacket) (f : PublishFields),
    p ∈ (frame buf).pkts → parsePublish p.flags p.body = .ok (some q) →
    PublishFields.read p.flags p.body = some f →
    ∀ (qos : UInt8) (pid : UInt16) (dup retain : Bool), qos ≤ q.qos →
      readForward (buildForward q.topic.bytes q.payload qos (forwardPid qos pid) dup retain) =
        some ⟨f.topic, forwardPid qos pid, f.payload⟩ := by
  intro claim
  -- the byte 0xFF is no UTF-8, and goes out as U+FFFD
  have same := claim [0x30, 4, 0, 1, 0xff, 7] ⟨3, 0, [0, 1, 0xff, 7]⟩
    ⟨.fromUtf8Lossy [0xff], 0, none, [7], false⟩ ⟨[0xff], none, [7]⟩ (by decide) rfl rfl 0 0 false false
    (by decide)
  exact absurd same (by decide)

end MioBroker
