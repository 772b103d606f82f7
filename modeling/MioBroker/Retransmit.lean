import MioBroker.BadLength
import MioBroker.Encoding
import MioBroker.Retry

/-!
# What is sent again

The scan marks the packet it sends again with the DUP bit, whatever packet it is. A PUBLISH is read as
before, a PUBREL has flags of its own that way.
-/
namespace MioBroker

open Rust

/-! ### What a receiver makes of a forward -/

/-- A length of five bytes is not read. -/
theorem decodeRem_encodeRem_long {n : Nat} (long : 268435456 ≤ n) (rest : Bytes) :
    decodeRem 4 (encodeRem n ++ rest) 1 1 0 = none := by
  obtain ⟨terminated, value⟩ := encodeRemAux_digits n n (Nat.le_refl _)
  have bound := remValue_lt (encodeRem n)
  rw [encodeRem, value] at bound
  refine decodeRem_continued 4 (fun x member => ?_) 1 1 0
  by_contra last
  have short := (terminated.take_iff rest 4).mp ⟨x, member, Nat.not_le.mp last⟩
  have := Nat.pow_le_pow_right (show 0 < 128 by decide) short
  omega

theorem PublishFields.length_topic_le {flags : UInt8} {body : Bytes} {fields : PublishFields}
    (read : PublishFields.read flags body = some fields) : fields.topic.length ≤ 65535 := by
  have cut : ∀ (hi lo : UInt8) (rest : Bytes), (rest.take (u16FromBe hi lo).toNat).length ≤ 65535 := by
    intro hi lo rest
    have := (u16FromBe hi lo).toNat_lt
    rw [List.length_take]
    omega
  unfold PublishFields.read at read
  split at read
  next hi lo rest =>
    simp only at read
    split at read
    · cases read
    · split at read
      · split at read
        · cases read
          exact cut hi lo rest
        · cases read
      · cases read
        exact cut hi lo rest
  next => cases read

theorem readForward_topic_le {bytes : Bytes} {fields : PublishFields}
    (read : readForward bytes = some fields) : fields.topic.length ≤ 65535 := by
  unfold readForward at read
  split at read
  · cases read
  · split at read
    · split at read
      · split at read
        · exact PublishFields.length_topic_le read
        · cases read
      · cases read
    · cases read

/-- A forward is read back field by field exactly when both its lengths fit. -/
theorem Forward.readForward_iff (f : Forward) :
    readForward f.encode = some ⟨f.topic.bytes, some f.pid, f.payload⟩ ↔
      f.topic.length ≤ 65535 ∧ f.body.length < 268435456 := by
  obtain ⟨kind, carried⟩ := forwardFlags_header f.coded f.dup f.retain
  constructor
  · intro read
    refine ⟨readForward_topic_le read, ?_⟩
    by_contra long
    rw [f.encode_eq, List.cons_append, readForward, if_pos kind,
      decodeRem_encodeRem_long (Nat.not_lt.mp long)] at read
    cases read
  · rintro ⟨short, size⟩
    have fields := read_forwardBody carried f.topic.bytes f.payload f.pid short
    rw [forwardPid, if_neg f.reliable] at fields
    rw [f.encode_eq, List.cons_append, readForward, if_pos kind, decodeRem_encodeRem size]
    simp only [List.length_append, if_true, List.drop_left]
    exact fields

/-- Of the first byte a reader looks at the packet type and the QoS. -/
theorem readForward_congr {first first' : UInt8} (kind : first >>> 4 = first' >>> 4)
    (qos : publishQos (first &&& 0x0f) = publishQos (first' &&& 0x0f)) (rest : Bytes) :
    readForward (first :: rest) = readForward (first' :: rest) := by
  simp only [readForward, PublishFields.read, kind, qos]

theorem Forward.readForward_duplicate (f : Forward) : readForward f.duplicate.encode = readForward f.encode := by
  obtain ⟨kind, carried⟩ := forwardFlags_header f.coded f.dup f.retain
  obtain ⟨kind', carried'⟩ := forwardFlags_header f.coded true f.retain
  exact readForward_congr (kind'.trans kind.symm) (carried'.trans carried.symm) _

/-! ### Entries that are sent again -/

/-- The entry holds the first transmission of `f`, under the packet id of `f`. -/
structure InFlight.Holds (e : InFlight) (f : Forward) : Prop where
  pkt : e.pkt = f.encode
  first : f.dup = false
  kind : e.qos2 = (f.qos == 2)

/-- A PUBLISH that is read as `f`, marked DUP. -/
def Forward.RepeatedBy (f : Forward) (pkt : Bytes) : Prop :=
  readForward pkt = some ⟨f.topic.bytes, some f.pid, f.payload⟩ ∧
    ∃ first rest, pkt = first :: rest ∧ publishQos (first &&& 0x0f) = f.qos ∧
      publishRetain (first &&& 0x0f) = f.retain ∧ publishDup (first &&& 0x0f) = true

/-- The PUBLISH of the message again, or after PUBREC the PUBREL for its packet id. -/
def InFlight.WellFormedCopy (e : InFlight) (f : Forward) (pkt : Bytes) : Prop :=
  if e.qos2 && e.awaitPubcomp then pkt = (PUBREL <<< 4 ||| 0x02) :: 0x02 :: u16ToBe f.pid
  else f.RepeatedBy pkt

/-- The same PUBLISH but for the DUP bit, or after PUBREC the PUBREL with the DUP bit. -/
def InFlight.MarkedCopy (e : InFlight) (f : Forward) (pkt : Bytes) : Prop :=
  if e.qos2 && e.awaitPubcomp then pkt = (PUBREL <<< 4 ||| 0x0a) :: 0x02 :: u16ToBe f.pid
  else pkt = f.duplicate.encode ∧ readForward pkt = readForward e.pkt ∧
    (f.topic.length ≤ 65535 → f.body.length < 268435456 → f.RepeatedBy pkt)

theorem Forward.repeatedBy_duplicate_iff (f : Forward) :
    f.RepeatedBy f.duplicate.encode ↔ f.topic.length ≤ 65535 ∧ f.body.length < 268435456 := by
  refine Iff.trans ⟨fun again => again.1, fun read => ⟨read, ?_⟩⟩ f.duplicate.readForward_iff
  obtain ⟨-, carried⟩ := forwardFlags_header f.coded true f.retain
  obtain ⟨dup, retain⟩ := forwardFlags_fields f.coded true f.retain
  exact ⟨_, _, rfl, carried, retain, dup⟩

theorem InFlight.markedCopy_retransmit {e : InFlight} {f : Forward} (holds : e.Holds f) :
    e.MarkedCopy f (e.retransmit f.pid) := by
  rw [retransmit_encode holds.pkt, InFlight.MarkedCopy]
  split
  next => rfl
  next =>
    refine ⟨rfl, ?_, fun short small => f.repeatedBy_duplicate_iff.mpr ⟨short, small⟩⟩
    rw [holds.pkt]
    exact f.readForward_duplicate

/-- What the scan makes of an entry is well formed unless it is a PUBREL, or its PUBLISH was not well
formed to begin with. -/
theorem InFlight.wellFormedCopy_retransmit_iff {e : InFlight} {f : Forward} (holds : e.Holds f) :
    e.WellFormedCopy f (e.retransmit f.pid) ↔
      (e.qos2 && e.awaitPubcomp) = false ∧ f.topic.length ≤ 65535 ∧ f.body.length < 268435456 := by
  rw [retransmit_encode holds.pkt, InFlight.WellFormedCopy]
  cases awaiting : e.qos2 && e.awaitPubcomp with
  | false =>
    simp only [Bool.false_eq_true, if_false, true_and]
    exact f.repeatedBy_duplicate_iff
  | true =>
    simp only [if_true, Bool.true_eq_false, false_and, iff_false]
    -- the DUP bit is one too many
    intro same
    have flags := (List.cons.inj same).1
    revert flags
    decide

namespace Loop

/-- What is still to be sent again was listed by a scan of the run. -/
theorem listed_before {s₀ s : Loop} {ios : List Io} (start : s₀.Initial) (path : AdmittedRun s₀ ios s)
    {r : Token × UInt16 × Bytes} (listed : r ∈ s.pc.retries) :
    ∃ before after u, ios = before ++ after ∧ AdmittedRun s₀ before u ∧ AdmittedRun u after s ∧
      r ∈ (u.broker.scan u.retryAfter).retry := by
  induction path with
  | nil =>
    rw [start.pc] at listed
    cases listed
  | snoc io path admitted done ih =>
    obtain ⟨b, out, ran, rfl⟩ := step_ok.mp done
    rcases retries_pcAfter listed with old | ⟨-, scanned⟩
    · obtain ⟨before, after, u, rfl, first, second, found⟩ := ih old
      exact ⟨before, after ++ [io], u, List.append_assoc _ _ _, first, second.snoc io admitted done, found⟩
    · exact ⟨_, [], _, (List.append_nil _).symm, path.snoc io admitted done, .nil, scanned⟩

/-- What is sent again in a run was made by a scan of an entry of the window, and the entry holds the
first transmission of a message under its id. -/
theorem retransmission_origin {s₀ s : Loop} {ios : List Io} (start : s₀.Initial) (path : AdmittedRun s₀ ios s)
    {io : Io} {t : Token} {pid : UInt16} {pkt : Bytes} {scanned : Instant}
    (op : s.op io = .retry t pid pkt scanned) :
    ∃ before after u, ios = before ++ after ∧ AdmittedRun s₀ before u ∧ AdmittedRun u after s ∧
      (t, pid, pkt) ∈ (u.broker.scan u.retryAfter).retry ∧
      ∃ c e, u.broker.clients.get? t = some c ∧ c.inFlight.get? pid = some e ∧
        (∃ f, e.Holds f ∧ f.pid = pid) ∧ pkt = e.retransmit pid := by
  obtain ⟨before, after, u, same, first, second, listed⟩ := listed_before start path (op_retry op)
  obtain ⟨c, e, found, inWindow, again⟩ := due_of_scan listed
  have genuine : u.Genuine := Reachable.genuine ⟨s₀, before, start, first⟩
  obtain ⟨f, id, original, kind, sent⟩ := (genuine.broker.clients t c found).window pid e inWindow
  exact ⟨before, after, u, same, first, second, listed, c, e, found, inWindow,
    ⟨f, ⟨sent, original, kind⟩, id⟩, again⟩

/-- Whatever is sent again in a run was listed for an entry of its window, and is the packet this entry
waits to have acknowledged, marked DUP. -/
theorem retransmission_marked (s₀ : Loop) (ios : List Io) (s : Loop) (start : s₀.Initial)
    (path : AdmittedRun s₀ ios s) (io : Io) (t : Token) (pid : UInt16) (pkt : Bytes)
    (scanned : Instant) (op : s.op io = .retry t pid pkt scanned) :
    ∃ before after u, ios = before ++ after ∧ AdmittedRun s₀ before u ∧ AdmittedRun u after s ∧
      (t, pid, pkt) ∈ (u.broker.scan u.retryAfter).retry ∧
      ∃ c e, u.broker.clients.get? t = some c ∧ c.inFlight.get? pid = some e ∧
        (∃ f, e.Holds f ∧ f.pid = pid) ∧ ∀ f, e.Holds f → f.pid = pid → e.MarkedCopy f pkt := by
  obtain ⟨before, after, u, same, first, second, listed, c, e, found, inWindow, original, again⟩ :=
    retransmission_origin start path op
  refine ⟨before, after, u, same, first, second, listed, c, e, found, inWindow, original, ?_⟩
  rintro f holds rfl
  rw [again]
  exact InFlight.markedCopy_retransmit holds

/-- The next step sends this packet again. -/
def resends (s : Loop) (t : Token) (pid : UInt16) (pkt : Bytes) : Bool :=
  match s.op .quiet with
  | .retry t' pid' pkt' _ => t' = t && pid' = pid && pkt' = pkt
  | _ => false

theorem op_resends {s : Loop} {t : Token} {pid : UInt16} {pkt : Bytes}
    (again : s.resends t pid pkt = true) : ∃ scanned, s.op .quiet = .retry t pid pkt scanned := by
  rw [resends] at again
  split at again
  next t' pid' pkt' scanned op =>
    simp only [Bool.and_eq_true, decide_eq_true_eq] at again
    obtain ⟨⟨rfl, rfl⟩, rfl⟩ := again
    exact ⟨scanned, op⟩
  next => cases again

/-- A client publishes to itself at QoS 2 and answers the forward with PUBREC at once; more than ten
seconds later it has sent no PUBCOMP. -/
def received : List Io :=
  [Io.listen, .connection] ++ List.replicate 3 Io.quiet ++
    [Io.read (connectBytes 2 97 ++
      [0x82, 6, 0, 1, 0, 1, 116, 2, 0x34, 5, 0, 1, 116, 0, 1, 0x50, 2, 0, 1])] ++
    List.replicate 14 Io.quiet ++ [Io.tick (secs 11) none] ++ List.replicate 18 Io.quiet

/-- The PUBLISH of a client that answers nothing, and the PUBREL of one that sends no PUBCOMP. -/
theorem retransmission_marked_silent :
    (∃ (u : Loop) (c : Client) (e : InFlight), u.broker.clients.get? 1 = some c ∧ c.inFlight.get? 1 = some e ∧
      (∃ f, e.Holds f ∧ f.pid = 1) ∧ ∀ f, e.Holds f → f.pid = 1 → e.MarkedCopy f forwardAgain) ∧
    ∃ (u : Loop) (c : Client) (e : InFlight), u.broker.clients.get? 1 = some c ∧ c.inFlight.get? 1 = some e ∧
      (∃ f, e.Holds f ∧ f.pid = 1) ∧ ∀ f, e.Holds f → f.pid = 1 → e.MarkedCopy f [0x6a, 2, 0, 1] := by
  constructor
  · obtain ⟨s, done, again⟩ := exists_after (overdue .wouldBlock 15)
      (fun s => s.resends 1 1 forwardAgain) (by decide +kernel)
    obtain ⟨scanned, op⟩ := op_resends again
    obtain ⟨-, -, u, -, -, -, -, c, e, found⟩ :=
      retransmission_marked fresh _ s fresh_initial (after_path done) .quiet 1 1 _ scanned op
    exact ⟨u, c, e, found⟩
  · obtain ⟨s, done, again⟩ := exists_after received (fun s => s.resends 1 1 [0x6a, 2, 0, 1])
      (by decide +kernel)
    obtain ⟨scanned, op⟩ := op_resends again
    obtain ⟨-, -, u, -, -, -, -, c, e, found⟩ :=
      retransmission_marked fresh _ s fresh_initial (after_path done) .quiet 1 1 _ scanned op
    exact ⟨u, c, e, found⟩

/-- It has the flags that MQTT 3.1.1 knows, and is read as the message, exactly if the entry awaits
PUBACK or PUBREC and its PUBLISH has room for its lengths. -/
theorem retransmission_well_formed_iff (s₀ : Loop) (ios : List Io) (s : Loop) (start : s₀.Initial)
    (path : AdmittedRun s₀ ios s) (io : Io) (t : Token) (pid : UInt16) (pkt : Bytes)
    (scanned : Instant) (op : s.op io = .retry t pid pkt scanned) :
    ∃ before after u, ios = before ++ after ∧ AdmittedRun s₀ before u ∧ AdmittedRun u after s ∧
      (t, pid, pkt) ∈ (u.broker.scan u.retryAfter).retry ∧
      ∃ c e, u.broker.clients.get? t = some c ∧ c.inFlight.get? pid = some e ∧
        (∃ f, e.Holds f ∧ f.pid = pid) ∧
        ∀ f, e.Holds f → f.pid = pid →
          (e.WellFormedCopy f pkt ↔ (e.qos2 && e.awaitPubcomp) = false ∧ f.topic.length ≤ 65535 ∧
            f.body.length < 268435456) := by
  obtain ⟨before, after, u, same, first, second, listed, c, e, found, inWindow, original, again⟩ :=
    retransmission_origin start path op
  refine ⟨before, after, u, same, first, second, listed, c, e, found, inWindow, original, ?_⟩
  rintro f holds rfl
  rw [again]
  exact InFlight.wellFormedCopy_retransmit_iff holds

/-- A PUBREL that is sent again comes with flags 1010. -/
theorem retransmission_malformed : ¬∀ (s₀ : Loop) (ios : List Io) (s : Loop), s₀.Initial →
    AdmittedRun s₀ ios s → ∀ (io : Io) (t : Token) (pid : UInt16) (pkt : Bytes) (scanned : Instant),
      s.op io = .retry t pid pkt scanned →
      ∃ before after u, ios = before ++ after ∧ AdmittedRun s₀ before u ∧ AdmittedRun u after s ∧
        (t, pid, pkt) ∈ (u.broker.scan u.retryAfter).retry ∧
        ∃ c e f, u.broker.clients.get? t = some c ∧ c.inFlight.get? pid = some e ∧ e.Holds f ∧
          f.pid = pid ∧ e.WellFormedCopy f pkt := by
  intro claim
  obtain ⟨s, done, again⟩ := exists_after received (fun s => s.resends 1 1 [0x6a, 2, 0, 1])
    (by decide +kernel)
  obtain ⟨scanned, op⟩ := op_resends again
  obtain ⟨-, -, u, -, -, -, -, c, e, f, -, -, -, -, copy⟩ :=
    claim fresh _ s fresh_initial (after_path done) .quiet 1 1 _ scanned op
  rw [InFlight.WellFormedCopy] at copy
  split at copy
  · have flags := (List.cons.inj copy).1
    revert flags
    decide
  · cases copy.1

end Loop

end MioBroker
