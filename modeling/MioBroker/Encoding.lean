import MioBroker.Relay
import MioBroker.FlatThreaded

/-!
# What is built is framed

A packet on the wire must say how long it is, or the packets behind it are lost as well. PUBLISH
packets do; a SUBACK does as long as its length fits the one byte written for it.
-/
namespace MioBroker

open Rust

/-! ### One packet, whatever follows it -/

/-- Whatever follows these bytes, they are framed as this packet and what follows is framed as if they
had not been there. -/
def FramedAs (bytes : Bytes) (p : Packet) : Prop :=
  ∀ rest, frame (bytes ++ rest) = ⟨p :: (frame rest).pkts, (frame rest).rest, (frame rest).bad⟩

/-- Every packet takes at least a byte, so more fuel than bytes is of no use. -/
theorem frameLoop_fuel (n m : Nat) (b : Bytes) (pkts : List Packet) (enough : b.length ≤ n)
    (enough' : b.length ≤ m) : frameLoop n b pkts = frameLoop m b pkts := by
  induction n generalizing m b pkts with
  | zero =>
    cases List.length_eq_zero_iff.mp (Nat.le_zero.mp enough)
    cases m <;> rfl
  | succ n ih =>
    cases b with
    | nil => cases m <;> rfl
    | cons b0 b =>
      cases m with
      | zero => simp at enough'
      | succ m =>
        rw [frameLoop, frameLoop]
        split
        · rfl
        next rem i read =>
          split
          · rfl
          · split
            · rfl
            · have shorter : ((b0 :: b).drop (i + 1 + rem)).length ≤ b.length := by
                rw [List.length_drop, List.length_cons]
                omega
              rw [List.length_cons] at enough enough'
              exact ih m _ _ (by omega) (by omega)

/-- The packets found so far are not looked at again. -/
theorem frameLoop_found (fuel : Nat) (b : Bytes) (pkts : List Packet) :
    frameLoop fuel b pkts =
      ⟨pkts ++ (frameLoop fuel b []).pkts, (frameLoop fuel b []).rest, (frameLoop fuel b []).bad⟩ := by
  induction fuel generalizing b pkts with
  | zero => simp [frameLoop]
  | succ fuel ih =>
    cases b with
    | nil => simp [frameLoop]
    | cons b0 b =>
      rw [frameLoop, frameLoop]
      split
      · simp
      next rem i read =>
        split
        · simp
        · split
          · simp
          · rw [ih _ (pkts ++ _), ih _ ([] ++ _)]
            simp

theorem WirePacket.framedAs (w : WirePacket) : FramedAs w.bytes w.packet := by
  intro rest
  have size := w.length_bytes
  obtain ⟨fuel, fuel_eq⟩ : ∃ fuel, (w.bytes ++ rest).length = fuel + 1 :=
    ⟨(w.bytes ++ rest).length - 1, by rw [List.length_append]; omega⟩
  have enough : rest.length ≤ fuel := by
    rw [List.length_append] at fuel_eq
    omega
  rw [frame, fuel_eq, frameLoop_packet, frameLoop_found,
    frameLoop_fuel fuel rest.length rest [] enough (Nat.le_refl _)]
  rfl

/-! ### PUBLISH -/

/-- The DUP bit of the PUBLISH flags. -/
def publishDup (flags : UInt8) : Bool := flags &&& 0x08 != 0

theorem forwardFlags_fields {qos : UInt8} (coded : qos ≤ 3) (dup retain : Bool) :
    publishDup (forwardFlags qos dup retain &&& 0x0f) = dup ∧
      publishRetain (forwardFlags qos dup retain &&& 0x0f) = retain := by
  rcases qos_cases coded with rfl | rfl | rfl | rfl <;> cases dup <;> cases retain <;> decide

/-- A body as `build_forward` lays it out, read by `parse_publish`. -/
theorem parsePublish_forwardBody (topic : Str) (payload : Bytes) (pid : Option UInt16) (flags : UInt8)
    (named : 1 ≤ topic.length) (short : topic.length ≤ 65535)
    (identified : pid.isSome = true ↔ publishQos flags > 0) :
    parsePublish flags (forwardBody topic.bytes payload pid) =
      .ok (some ⟨topic, publishQos flags, pid, payload, publishRetain flags⟩) := by
  have same : forwardBody topic.bytes payload pid = (Request.publish false topic pid payload).body := by
    cases pid <;> rfl
  rw [same]
  exact parsePublish_body false topic pid payload flags named (Nat.lt_succ_of_le short) identified

/-- What `build_forward` writes is one PUBLISH with these fields, whatever follows it. -/
theorem publish_inverse (topic : Str) (payload : Bytes) (qos : UInt8) (pid : Option UInt16)
    (dup retain : Bool) (named : 1 ≤ topic.length) (short : topic.length ≤ 65535) (graded : qos ≤ 2)
    (identified : pid.isSome = true ↔ qos > 0)
    (limit : (forwardBody topic.bytes payload pid).length ≤ MAX_PACKET) :
    ∃ first digits body flags,
      buildForward topic.bytes payload qos pid dup retain = first :: (digits ++ body) ∧
      digits.length ≤ 4 ∧
      FramedAs (buildForward topic.bytes payload qos pid dup retain) ⟨PUBLISH, flags, body⟩ ∧
      publishQos flags = qos ∧ publishDup flags = dup ∧ publishRetain flags = retain ∧
      parsePublish flags body = .ok (some ⟨topic, qos, pid, payload, retain⟩) ∧
      (qos > 0 → parsePidOnly body = .ok pid) := by
  have coded : qos ≤ 3 := UInt8.le_trans graded (by decide)
  obtain ⟨kind, carried⟩ := forwardFlags_header coded dup retain
  obtain ⟨dup_bit, retain_bit⟩ := forwardFlags_fields coded dup retain
  have parse := parsePublish_forwardBody topic payload pid (forwardFlags qos dup retain &&& 0x0f)
    named short (carried.symm ▸ identified)
  rw [carried, retain_bit] at parse
  obtain ⟨terminated, value⟩ := encodeRemAux_digits _ _
    (Nat.le_refl (forwardBody topic.bytes payload pid).length)
  have few : (encodeRem (forwardBody topic.bytes payload pid).length).length ≤ 4 := by
    refine length_encodeRemAux_le 3 _ _ (Nat.lt_of_le_of_lt limit ?_)
    decide
  have framed := WirePacket.framedAs ⟨forwardFlags qos dup retain, encodeRem _,
    forwardBody topic.bytes payload pid, terminated, few, value, limit⟩
  simp only [WirePacket.packet, kind] at framed
  refine ⟨forwardFlags qos dup retain, encodeRem _, forwardBody topic.bytes payload pid, _, rfl, few,
    framed, carried, dup_bit, retain_bit, parse, fun reliable => ?_⟩
  exact parsePidOnly_eq (by rw [carried]; exact reliable) parse

/-- A PUBLISH with the longest body that takes a single length byte. -/
theorem publish_inverse_single : ∃ first digits body flags,
    buildForward [116] (List.replicate 124 0) 0 none false true = first :: (digits ++ body) ∧
    digits.length ≤ 4 ∧ parsePublish flags body =
      .ok (some ⟨⟨[116], by decide⟩, 0, none, List.replicate 124 0, true⟩) := by
  obtain ⟨first, digits, body, flags, built, few, -, -, -, -, parse, -⟩ :=
    publish_inverse ⟨[116], by decide⟩ (List.replicate 124 0) 0 none false true (by decide) (by decide)
      (by decide) (by decide) (by decide +kernel)
  exact ⟨first, digits, body, flags, built, few, parse⟩

/-! ### SUBACK -/

theorem decodeRem_index {n i mult rem r j : Nat} {b : Bytes}
    (read : decodeRem n b i mult rem = some (r, j)) : i ≤ j := by
  induction b generalizing n i mult rem with
  | nil => cases n <;> cases read
  | cons x xs ih =>
    cases n with
    | zero => cases read
    | succ n =>
      simp only [decodeRem] at read
      split at read
      · cases read
        exact Nat.le_refl _
      · exact Nat.le_of_succ_le (ih read)

/-- The first packet of a buffer has the length its header announces, and lies in the buffer. -/
theorem frame_first {b0 : UInt8} {b : Bytes} {p : Packet} {pkts : List Packet}
    (first : (frame (b0 :: b)).pkts = p :: pkts) :
    ∃ rem i, decodeRem 4 b 1 1 0 = some (rem, i) ∧ p.body.length = rem ∧ i + rem ≤ b.length := by
  rw [frame, List.length_cons, frameLoop] at first
  split at first
  · cases first
  next rem i read =>
  split at first
  · cases first
  split at first
  · cases first
  next complete =>
  have inside : i + rem ≤ b.length := by
    rw [List.length_cons] at complete
    omega
  rw [frameLoop_found] at first
  simp only [List.nil_append, List.cons_append, List.cons.injEq] at first
  refine ⟨rem, i, read, ?_, inside⟩
  rw [← first.1, List.length_take, List.length_drop, List.length_cons]
  omega

/-- The one length byte of a SUBACK holds lengths below 128. -/
theorem suback_framed_iff (pid : UInt16) (grants : List UInt8) (limit : 2 + grants.length ≤ MAX_PACKET) :
    FramedAs (buildSuback pid grants) ⟨SUBACK, 0, u16ToBe pid ++ grants⟩ ↔ grants.length ≤ 125 := by
  have layout : buildSuback pid grants =
      SUBACK <<< 4 :: (UInt8.ofNat (2 + grants.length) :: (u16ToBe pid ++ grants)) := rfl
  constructor
  · intro framed
    have alone := framed []
    rw [List.append_nil, layout] at alone
    obtain ⟨rem, i, read, whole, inside⟩ := frame_first (congrArg Framed.pkts alone)
    simp only [List.length_append, length_u16ToBe, List.length_cons] at whole inside
    rw [decodeRem, seven_bits] at read
    split at read
    next last =>
      -- one length byte: seven bits
      cases read
      omega
    next continued =>
      -- more length bytes: they are taken from the body, which is then too short
      have index := decodeRem_index read
      omega
  · intro few
    have byte : (UInt8.ofNat (2 + grants.length)).toNat = 2 + grants.length := by
      rw [UInt8.toNat_ofNat']
      omega
    have value : remValue [UInt8.ofNat (2 + grants.length)] = (u16ToBe pid ++ grants).length := by
      rw [remValue, remValue, byte, List.length_append, length_u16ToBe]
      omega
    have short : Terminated [UInt8.ofNat (2 + grants.length)] := by
      rw [Terminated, byte]
      omega
    have within : (u16ToBe pid ++ grants).length ≤ MAX_PACKET := by
      rw [List.length_append, length_u16ToBe]
      exact limit
    have framed := WirePacket.framedAs ⟨SUBACK <<< 4, [UInt8.ofNat (2 + grants.length)],
      u16ToBe pid ++ grants, short, by simp, value, within⟩
    have kind : SUBACK <<< 4 >>> 4 = SUBACK := by decide
    have flags : SUBACK <<< 4 &&& 0x0f = 0 := by decide
    simp only [WirePacket.packet, kind, flags] at framed
    exact framed

/-- The threaded broker writes as many length bytes as it takes. -/
theorem suback_eq_threaded_iff (pid : UInt16) (grants : List UInt8) :
    buildSuback pid grants = Threaded.buildSuback pid grants ↔ grants.length ≤ 125 := by
  have size : (u16ToBe pid ++ grants).length = 2 + grants.length := by
    rw [List.length_append, length_u16ToBe]
  constructor
  · intro same
    by_contra many
    have digits := length_encodeRem_long (n := 2 + grants.length) (by omega)
    have lengths := congrArg List.length same
    simp only [buildSuback, Threaded.buildSuback, List.length_append, List.length_cons, List.length_nil,
      length_u16ToBe] at lengths
    omega
  · intro few
    rw [Threaded.buildSuback, size, encodeRem_short (by omega)]
    rfl

/-- Every filter takes bytes of the SUBSCRIBE, so there are no more of them than bytes. -/
theorem length_topics_le {body : Bytes} {pid : UInt16} {topics : List (Str × UInt8)}
    (parse : parseSubscribe body = .ok (some (pid, topics))) : 2 + topics.length ≤ body.length := by
  obtain ⟨-, entries, stray, payload, -, rfl⟩ := (parseSubscribe_iff body pid topics).mp parse
  have count := length_le_flatMap SubscribeEntry.encode (fun e => by simp [SubscribeEntry.encode]) entries
  rw [payload.layout, List.length_map, List.length_append, List.length_append, length_u16ToBe]
  omega

/-- The SUBACK for a SUBSCRIBE is a packet of its own, and the one the threaded broker sends, exactly
when the SUBSCRIBE had at most 125 filters. -/
theorem suback_well_formed_iff (body : Bytes) (limit : body.length ≤ MAX_PACKET) (pid : UInt16)
    (topics : List (Str × UInt8)) (parse : parseSubscribe body = .ok (some (pid, topics))) :
    FramedAs (buildSuback pid (topics.map Prod.snd)) ⟨SUBACK, 0, u16ToBe pid ++ topics.map Prod.snd⟩ ∧
      buildSuback pid (topics.map Prod.snd) = Threaded.buildSuback pid (topics.map Prod.snd) ↔
    topics.length ≤ 125 := by
  have size := length_topics_le parse
  have framed := suback_framed_iff pid (topics.map Prod.snd) (by rw [List.length_map]; omega)
  rw [framed, suback_eq_threaded_iff, List.length_map, and_self]

theorem suback_well_formed_one : FramedAs (buildSuback 7 [1]) ⟨SUBACK, 0, [0, 7, 1]⟩ ∧
    buildSuback 7 [1] = Threaded.buildSuback 7 [1] :=
  (suback_well_formed_iff [0, 7, 0, 1, 116, 1] (by decide) 7 [(.fromUtf8Lossy [116], 1)] rfl).mpr
    (by decide)

/-- With 126 filters the length byte of the SUBACK announces another one. -/
theorem suback_malformed : ¬∀ (body : Bytes) (pid : UInt16) (topics : List (Str × UInt8)),
    body.length ≤ MAX_PACKET → parseSubscribe body = .ok (some (pid, topics)) →
    FramedAs (buildSuback pid (topics.map Prod.snd)) ⟨SUBACK, 0, u16ToBe pid ++ topics.map Prod.snd⟩ ∧
      buildSuback pid (topics.map Prod.snd) = Threaded.buildSuback pid (topics.map Prod.snd) := by
  intro claim
  have wellFormed : (Request.subscribe 1 (List.replicate 126 (.fromUtf8Lossy [97]))).WellFormed :=
    ⟨by simp, fun f member => by rw [List.eq_of_mem_replicate member]; decide⟩
  have parse := parseSubscribe_request _ _ wellFormed
  have few := (suback_framed_iff 1 _ (by simp; decide)).mp (claim _ 1 _ (by decide +kernel) parse).1
  simp at few

end MioBroker
