import MioBroker.Dedup

/-!
# PUBLISH with nowhere to go

Without subscriptions and sessions a PUBLISH is only acknowledged, and the fast path reads no more
than that takes. It refuses less than the routed path: the body of a QoS 0 message, and of one
with the reserved QoS 3, is not looked at.
-/
namespace MioBroker

open Rust

/-- The length of the topic, in the first two bytes of a body. -/
def topicLength : Bytes → Nat
  | hi :: lo :: _ => hi.toNat * 256 + lo.toNat
  | _ => 0

/-- The lengths `parse_publish` insists on. -/
def PublishFits (flags : UInt8) (body : Bytes) : Prop :=
  3 ≤ body.length ∧
    2 + topicLength body + (if publishQos flags > 0 then 2 else 0) ≤ body.length

instance (flags : UInt8) (body : Bytes) : Decidable (PublishFits flags body) :=
  inferInstanceAs (Decidable (_ ∧ _))

theorem topicLength_eq {body : Bytes} {tlen : UInt16} (read : u16At body 0 = .ok tlen) :
    topicLength body = tlen.toNat := by
  match body with
  | [] => cases read
  | [_] => cases read
  | hi :: lo :: _ =>
    cases read
    exact (toNat_u16FromBe hi lo).symm

theorem parsePublish_some_iff (flags : UInt8) (body : Bytes) :
    (∃ p, parsePublish flags body = .ok (some p)) ↔ PublishFits flags body := by
  simp only [parsePublish, PublishFits]
  have refused : ¬∃ p, (pure none : Run (Option PublishPacket)) = .ok (some p) := by
    rintro ⟨p, done⟩
    cases done
  by_cases short : body.length < 3
  · rw [if_pos short]
    exact iff_of_false refused fun fits => by omega
  obtain ⟨tlen, tlen_ok⟩ := u16At_ok body 0 (by omega)
  rw [if_neg short, tlen_ok, Run.ok_bind, topicLength_eq tlen_ok]
  by_cases outside : 2 + tlen.toNat > body.length
  · rw [if_pos outside]
    exact iff_of_false refused fun fits => by omega
  obtain ⟨topic, topic_ok⟩ := slice_ok body 2 (2 + tlen.toNat) (by omega) (by omega)
  rw [if_neg outside, topic_ok, Run.ok_bind]
  -- Only above QoS 0 does a packet id follow the topic.
  by_cases numbered : publishQos flags > 0
  · simp only [numbered, if_true]
    by_cases cut : 2 + tlen.toNat + 2 > body.length
    · rw [if_pos cut]
      exact iff_of_false refused fun fits => by omega
    · obtain ⟨pid, pid_ok⟩ := u16At_ok body (2 + tlen.toNat) (by omega)
      obtain ⟨payload, payload_ok⟩ := slice_ok body (2 + tlen.toNat + 2) body.length (by omega)
        (Nat.le_refl _)
      rw [if_neg cut, pid_ok, Run.ok_bind, payload_ok, Run.ok_bind]
      exact iff_of_true ⟨_, rfl⟩ ⟨by omega, by omega⟩
  · obtain ⟨payload, payload_ok⟩ := slice_ok body (2 + tlen.toNat) body.length (by omega)
      (Nat.le_refl _)
    simp only [numbered, if_false]
    rw [payload_ok, Run.ok_bind]
    exact iff_of_true ⟨_, rfl⟩ ⟨by omega, by omega⟩

/-- A PUBLISH with QoS 1 or 2 whose id can be read can be parsed. -/
theorem parsePidOnly_reliable {flags : UInt8} (body : Bytes) (reliable : publishQos flags > 0) :
    ∃ r, parsePublish flags body = .ok r ∧ parsePidOnly body = .ok (r.bind PublishPacket.pid) ∧
      ∀ p, r = some p → p.qos = publishQos flags ∧ p.retain = publishRetain flags ∧
        ∃ pid, p.pid = some pid := by
  obtain ⟨r, parse⟩ := parsePublish_total flags body
  refine ⟨r, parse, parsePidOnly_eq reliable parse, fun p same => ?_⟩
  subst same
  obtain ⟨qos, retain, numbered⟩ := parsePublish_fields parse
  exact ⟨qos, retain, Option.isSome_iff_exists.mp (numbered.mpr reliable)⟩

namespace Broker

/-- Neither subscriptions nor sessions. -/
def Deserted (b : Broker) : Prop := b.subs = [] ∧ b.sessions.isEmpty = true

theorem publish_deserted {b : Broker} (deserted : b.Deserted) (topic : Str) (payload : Bytes)
    (qos : UInt8) : b.publish topic payload qos false = .ok (b, 0, 0) := by
  simp [publish, storeRetained, deserted.1, deserted.2]

/-- What the sender and the counters see of a handled PUBLISH. -/
def observe (t : Token) (handled : Run (Broker × Reply)) :
    Run (Reply × Option (List (Bool × Bytes) × HashMap UInt16 Unit) × Nat) :=
  handled.map fun r =>
    (r.2, (r.1.clients.get? t).map fun c => (c.writeQueue, c.receivedQos2), r.1.sysPubReceived)

/-- The same, of everything but the counter that the routed path sets back. -/
def settled (handled : Run (Broker × Reply)) : Run (Broker × Reply) :=
  handled.map fun r => ({ r.1 with deadPruned := 0 }, r.2)

theorem observe_settled (t : Token) (handled : Run (Broker × Reply)) :
    observe t (settled handled) = observe t handled := by
  cases handled <;> rfl

variable {b : Broker} {t : Token} {flags : UInt8} {body : Bytes}

theorem publishRouted_some (deserted : b.Deserted) (unretained : publishRetain flags = false)
    {p : PublishPacket} (parse : parsePublish flags body = .ok (some p)) :
    b.publishRouted t flags body = (b.acknowledge t p).map fun r =>
      (if r.2 then r.1 else { r.1.countPublish with deadPruned := 0 }, .ok ()) := by
  have retain : p.retain = false := (parsePublish_fields parse).2.1.trans unretained
  have modified : ∀ {d : Broker} {f : Client → Client}, b.modifyClient t f = .ok d → d.Deserted := by
    intro d f done
    obtain ⟨c, -, rfl⟩ := modifyClient_found done
    exact deserted
  -- Acknowledging changes the client and nothing that routes.
  have kept : ∀ {d : Broker} {dup : Bool}, b.acknowledge t p = .ok (d, dup) → d.Deserted := by
    intro d dup done
    rcases acknowledge_cases done with rfl | ⟨pid, -, answered⟩ | ⟨pid, -, received⟩
    · exact deserted
    · exact modified answered
    · exact modified received
  rw [publishRouted, parse, Run.ok_bind]
  simp only
  cases acked : b.acknowledge t p with
  | error e => rfl
  | ok r =>
    obtain ⟨d, dup⟩ := r
    cases dup
    · simp [retain, publish_deserted (kept acked), Except.map]
    · rfl

theorem fast_reliable (t : Token) (body : Bytes) (deserted : b.Deserted)
    (unretained : publishRetain flags = false) (reliable : publishQos flags = 1 ∨ publishQos flags = 2) :
    settled (b.publishFast t (publishQos flags) body) = settled (b.publishRouted t flags body) := by
  have numbered : publishQos flags > 0 := by
    rcases reliable with one | two
    · rw [one]; decide
    · rw [two]; decide
  obtain ⟨r, parse, read, fields⟩ := parsePidOnly_reliable body numbered
  cases r with
  | none =>
    -- Both paths find the id cut off and refuse the packet with the same text.
    have refused : b.publishRouted t flags body = .ok (b, .error "bad PUBLISH") := by
      rw [publishRouted, parse]
      rfl
    rw [refused]
    rcases reliable with one | two
    · simp [publishFast, one, read]
    · simp [publishFast, two, read]
  | some p =>
    obtain ⟨qos, -, pid, same⟩ := fields p rfl
    rw [Option.bind_some, same] at read
    rw [publishRouted_some deserted unretained parse]
    rcases reliable with one | two
    · rw [one] at qos
      simp only [publishFast, one, if_true, read, Run.ok_bind, acknowledge, same, qos]
      cases b.modifyClient t fun c => c.reply (buildPuback pid) <;> rfl
    · rw [two] at qos
      have notOne : (2 : UInt8) ≠ 1 := by decide
      simp only [publishFast, two, notOne, if_false, if_true, read, Run.ok_bind, acknowledge, same, qos]
      cases b.receiveQos2 t pid with
      | error e => rfl
      | ok r =>
        obtain ⟨d, dup⟩ := r
        cases dup <;> rfl

/-- Messages that nobody acknowledges are counted, on the routed path if they can be parsed. -/
theorem fast_silent (t : Token) (body : Bytes) (deserted : b.Deserted)
    (unretained : publishRetain flags = false) (silent : publishQos flags ≠ 1 ∧ publishQos flags ≠ 2) :
    b.publishFast t (publishQos flags) body = .ok (b.countPublish, .ok ()) ∧
      settled (b.publishRouted t flags body) = if PublishFits flags body
        then settled (.ok (b.countPublish, .ok ())) else settled (.ok (b, .error "bad PUBLISH")) := by
  refine ⟨by simp [publishFast, silent.1, silent.2], ?_⟩
  obtain ⟨r, parse⟩ := parsePublish_total flags body
  cases r with
  | none =>
    have unfit : ¬PublishFits flags body := fun fits => by
      obtain ⟨p, parsed⟩ := (parsePublish_some_iff flags body).mpr fits
      rw [parse] at parsed
      cases parsed
    rw [if_neg unfit, publishRouted, parse]
    rfl
  | some p =>
    have qos : p.qos = publishQos flags := (parsePublish_fields parse).1
    -- QoS 0 and the reserved QoS 3 are not acknowledged.
    have unanswered : b.acknowledge t p = .ok (b, false) := by
      simp only [acknowledge, qos, silent.1, silent.2, if_false]
      split <;> rfl
    rw [if_pos ((parsePublish_some_iff flags body).mp ⟨p, parse⟩),
      publishRouted_some deserted unretained parse, unanswered]
    rfl

end Broker

open Broker

/-- The fast path does what the routed path does exactly for messages with QoS 1 or 2, and for
those with QoS 0 or the reserved QoS 3 whose body has the lengths `parse_publish` insists on. -/
theorem fast_path_iff (b : Broker) (noSubs : b.subs = []) (noSessions : b.sessions.isEmpty = true)
    (t : Token) (flags : UInt8) (unretained : publishRetain flags = false) (body : Bytes) :
    observe t (b.publishFast t (publishQos flags) body) = observe t (b.publishRouted t flags body) ↔
      publishQos flags = 1 ∨ publishQos flags = 2 ∨ PublishFits flags body := by
  have deserted : b.Deserted := ⟨noSubs, noSessions⟩
  by_cases reliable : publishQos flags = 1 ∨ publishQos flags = 2
  · have same := fast_reliable t body deserted unretained reliable
    rw [← observe_settled t (b.publishFast t _ body), same, observe_settled]
    simp only [true_iff]
    exact reliable.imp_right .inl
  · have silent := not_or.mp reliable
    obtain ⟨fast, routed⟩ := fast_silent t body deserted unretained silent
    rw [fast, ← observe_settled t (b.publishRouted t flags body), routed]
    simp only [silent.1, silent.2, false_or]
    split
    next fits => exact iff_of_true rfl fits
    -- The fast path does not look at the body, so it accepts what the other refuses.
    next unfit =>
      refine iff_of_false (fun same => ?_) unfit
      have replies := congrArg (fun r : Run _ => r.map Prod.fst) same
      cases replies

/-- The sender of a PUBLISH with QoS 1 and id 5 on topic `a` is queued its PUBACK on both paths. -/
theorem fast_path_qos1 :
    let b := (Broker.new ⟨default, default, default, default⟩ 0 ⟨none, none⟩).accept default default
    ((observe 1 (b.publishFast 1 (publishQos 2) [0, 1, 97, 0, 5])).map fun r => (r.1, r.2.1.map Prod.fst, r.2.2)) =
        .ok (.ok (), some [(false, [0x40, 2, 0, 5])], 1) ∧
      observe 1 (b.publishFast 1 (publishQos 2) [0, 1, 97, 0, 5]) =
        observe 1 (b.publishRouted 1 2 [0, 1, 97, 0, 5]) :=
  ⟨rfl, (fast_path_iff _ rfl rfl 1 2 (by decide) _).mpr (.inl (by decide))⟩

/-- A PUBLISH with QoS 0 and no body at all: counted on the fast path, refused on the other. -/
theorem fast_path_differs :
    ¬∀ (b : Broker) (t : Token) (flags : UInt8) (body : Bytes), b.subs = [] →
      b.sessions.isEmpty = true → publishRetain flags = false →
      observe t (b.publishFast t (publishQos flags) body) =
        observe t (b.publishRouted t flags body) := by
  intro agree
  have same := agree ((Broker.new ⟨default, default, default, default⟩ 0 ⟨none, none⟩).accept default default)
    1 0 [] rfl rfl (by decide)
  have replies := congrArg (fun r : Run _ => r.map Prod.fst) same
  cases replies

end MioBroker
