import MioBroker.Rust.Handshake
import MioBroker.Dedup
import MioBroker.Sender

/-!
# A publisher and the broker

A publisher that sends with QoS 2 follows its part of the handshake on one connection: it sends a
message again as it likes until PUBREC arrives, and PUBREL until PUBCOMP arrives. Its messages arrive,
in order, while the connection lasts; a PUBREL may be lost. The broker queues its answers like messages
of QoS 0, so any of them may be dropped. Everything else the broker does comes in between.
-/
namespace MioBroker

open Rust

/-- What is published: the rest of a PUBLISH belongs to its transport. -/
structure Message where
  topic : Str
  payload : Bytes
  retain : Bool

/-- A QoS 2 PUBLISH of the message under the id, whether or not it is marked as a repetition. -/
def Packet.Carries (p : Packet) (id : UInt16) (m : Message) : Prop :=
  p.ptype = PUBLISH ∧
    parsePublish p.flags p.body = .ok (some ⟨m.topic, 2, some id, m.payload, m.retain⟩)

/-- The message in the packet is not dropped as a repetition. -/
def Broker.HandedOn (b : Broker) (t : Token) (p : Packet) (b' : Broker) : Prop :=
  ∃ c received pkt, b.clients.get? t = some c ∧ (b.answer t c received pkt).HandsOn p b'

/-- A publisher, the packets under way on its connection, and the broker. -/
structure Exchange where
  publisher : Handshake.Sender UInt16
  wires : Handshake.Wires UInt16
  broker : Broker
  /-- the numbers of the messages the broker has handed on, the first one first -/
  handed : List Nat

namespace Exchange

/-- The `n`-th message is `message n`, the connection has the token `t`. -/
inductive Step (message : Nat → Message) (t : Token) (x : Exchange) : Exchange → Prop
  | publisher {a : Handshake.Sender UInt16} {w : Handshake.Wires UInt16}
      (move : x.publisher.Move x.wires a w) : Step message t x { x with publisher := a, wires := w }
  /-- releases and answers get lost -/
  | lose {w : Handshake.Wires UInt16} (loss : x.wires.Loss w) : Step message t x { x with wires := w }
  /-- an operation for anyone, and other packets of the publisher -/
  | other {op : Op} {b : Broker} (done : op.step x.broker = .ok b)
      (apart : ∀ id, ¬op.Publishes2 t id ∧ ¬op.Releases t id) : Step message t x { x with broker := b }
  | publish {p : Packet} {id : UInt16} {n : Nat} {rest : List (Handshake.Forth UInt16)} {b : Broker}
      (first : x.wires.forth = .message id n :: rest) (carries : p.Carries id (message n))
      (done : (Op.packet t p).step x.broker = .ok b) (handed : x.broker.HandedOn t p b) :
    Step message t x ⟨x.publisher, ⟨rest, x.wires.back ++ [.receipt id]⟩, b, x.handed ++ [n]⟩
  | repetition {p : Packet} {id : UInt16} {n : Nat} {rest : List (Handshake.Forth UInt16)} {b : Broker}
      (first : x.wires.forth = .message id n :: rest) (carries : p.Carries id (message n))
      (done : (Op.packet t p).step x.broker = .ok b) (dropped : ¬x.broker.HandedOn t p b) :
    Step message t x ⟨x.publisher, ⟨rest, x.wires.back ++ [.receipt id]⟩, b, x.handed⟩
  | release {p : Packet} {id : UInt16} {rest : List (Handshake.Forth UInt16)} {b : Broker}
      (first : x.wires.forth = .release id :: rest) (carries : p.releasedId = some id)
      (done : (Op.packet t p).step x.broker = .ok b) :
    Step message t x ⟨x.publisher, ⟨rest, x.wires.back ++ [.completion id]⟩, b, x.handed⟩

/-- The start of the exchange on the connection that is accepted next. -/
def start (b : Broker) (h₁ h₂ : RandomState UInt16) : Exchange :=
  ⟨.start, .start, b.accept h₁ h₂, []⟩

/-- What the exchange on that connection can lead to. -/
abbrev Reaches (message : Nat → Message) (b : Broker) (h₁ h₂ : RandomState UInt16) : Exchange → Prop :=
  Relation.ReflTransGen (Step message b.nextToken) (start b h₁ h₂)

end Exchange

theorem Packet.Carries.qos2Id {p : Packet} {id : UInt16} {m : Message} (carries : p.Carries id m) :
    p.qos2Id = some id := by
  obtain ⟨isPublish, parse⟩ := carries
  have qos : publishQos p.flags = 2 := (parsePublish_fields parse).1.symm
  exact Packet.qos2Id_eq_some.mpr ⟨⟨isPublish, qos⟩, parsePidOnly_eq (by rw [qos]; decide) parse⟩

namespace Broker

variable {b b' : Broker} {t : Token} {p : Packet} {id : UInt16} {m : Message}

/-- A message of a connection that is gone is not handled at all. -/
theorem connected_of_carries (healthy : b.Healthy) (carries : p.Carries id m)
    (done : (Op.packet t p).step b = .ok b') : ∃ c, b.clients.get? t = some c := by
  cases found : b.clients.get? t with
  | some c => exact ⟨c, rfl⟩
  | none =>
    obtain ⟨out, ran⟩ := Op.step_ok done
    obtain ⟨r, dispatched⟩ := Op.packet_ok ran
    have qos : publishQos p.flags = 2 := (parsePublish_fields carries.2).1.symm
    have needs : p.NeedsSender b := .inr (.inr (.inr (.inl ⟨carries.1, .inr qos, _, carries.2⟩)))
    have panics := (dispatch_panics (t := t) healthy).mpr ⟨found, needs⟩
    rw [dispatched] at panics
    exact absurd panics (Run.panics_ok _)

/-- A message is handed on exactly when its id is not recorded. -/
theorem handedOn_iff (healthy : b.Healthy) (carries : p.Carries id m) {c : Client}
    (found : b.clients.get? t = some c) (done : (Op.packet t p).step b = .ok b') :
    b.HandedOn t p b' ↔ ¬c.receivedQos2.contains id = true := by
  obtain ⟨out, ran⟩ := Op.step_ok done
  obtain ⟨r, dispatched⟩ := Op.packet_ok ran
  obtain ⟨e, handled, result⟩ := dispatch_publishQos2 healthy.indexed found carries.qos2Id
  cases handled.symm.trans dispatched
  obtain ⟨received, answered, -⟩ := c.receiveQos2_spec id
  rw [answered] at result
  split at result
  next seen =>
    refine ⟨fun handed => ?_, fun unseen => absurd seen unseen⟩
    obtain ⟨d, received', pkt, -, handed⟩ := handed
    have indexed : (b.answer t d received' pkt).Indexed := healthy.indexed
    -- nothing was counted
    have counted := handed.counts indexed
    rw [result] at counted
    exact absurd counted (Nat.ne_of_lt (Nat.lt_succ_self _))
  next unseen => exact ⟨fun _ => unseen, fun _ => ⟨c, received, _, found, result⟩⟩

/-- A message of a connection is always handled. -/
theorem step_carries (indexed : b.Indexed) (carries : p.Carries id m) {c : Client}
    (found : b.clients.get? t = some c) : ∃ b', (Op.packet t p).step b = .ok b' := by
  obtain ⟨b', handled, -⟩ := dispatch_publishQos2 indexed found carries.qos2Id
  refine ⟨b', ?_⟩
  rw [Op.step, Op.run, handled]
  rfl

end Broker

namespace Exchange

/-- The broker's records are what the receiver of the handshake holds. -/
structure Follows (t : Token) (x : Exchange) : Prop where
  healthy : x.broker.Healthy
  given : t < x.broker.nextToken
  held : ∃ held, Handshake.Reachable ⟨x.publisher, x.wires, ⟨held, x.handed⟩⟩ ∧
    ∀ c, x.broker.clients.get? t = some c → ∀ id, c.receivedQos2.contains id = true ↔ id ∈ held

theorem Follows.start {b : Broker} (healthy : b.Healthy) (h₁ h₂ : RandomState UInt16) :
    (start b h₁ h₂).Follows b.nextToken := by
  have accepted : (Op.accept h₁ h₂).run b = .ok (b.accept h₁ h₂, .ok []) := rfl
  refine ⟨healthy.op _ accepted, Nat.lt_succ_self _, ∅, .refl, fun c found id => ?_⟩
  simp only [Exchange.start, Broker.accept, HashMap.get?_insert_self, Option.some.injEq] at found
  rw [← found]
  simp [Client.accepted]

variable {message : Nat → Message} {t : Token} {x y : Exchange}

/-- What an operation makes of the records, whoever it is for. -/
theorem Follows.records (follows : x.Follows t) {held : Set UInt16}
    (same : ∀ c, x.broker.clients.get? t = some c → ∀ id,
      c.receivedQos2.contains id = true ↔ id ∈ held)
    {op : Op} {b : Broker} (done : op.step x.broker = .ok b) :
    b.Healthy ∧ t < b.nextToken ∧ ∀ d, b.clients.get? t = some d → ∀ id,
      d.receivedQos2.contains id = true ↔ op.Publishes2 t id ∨ id ∈ held ∧ ¬op.Releases t id := by
  obtain ⟨healthy, given, -⟩ := follows
  obtain ⟨out, ran⟩ := Op.step_ok done
  refine ⟨healthy.op op ran, Nat.lt_of_lt_of_le given (op.nextToken_le healthy ran),
    fun d there id => ?_⟩
  cases found : x.broker.clients.get? t with
  -- A client that is gone does not come back under the same token.
  | none =>
    rw [op.absent healthy ran given found] at there
    cases there
  | some c => rw [op.received healthy ran given found there, same c found]

theorem Follows.step (follows : x.Follows t) (step : Step message t x y) : y.Follows t := by
  obtain ⟨held, reached, same⟩ := follows.held
  cases step with
  | publisher move => exact ⟨follows.healthy, follows.given, held, reached.tail (.sender move), same⟩
  | lose loss => exact ⟨follows.healthy, follows.given, held, reached.tail (.loss loss), same⟩
  | @other op b done apart =>
    obtain ⟨healthy, given, records⟩ := follows.records same done
    refine ⟨healthy, given, held, reached, fun d there id => ?_⟩
    rw [records d there]
    simp [apart id]
  | @publish p id n rest b first carries done handed =>
    obtain ⟨healthy, given, records⟩ := follows.records same done
    obtain ⟨c, found⟩ := Broker.connected_of_carries follows.healthy carries done
    have fresh : id ∉ held := fun old =>
      (Broker.handedOn_iff follows.healthy carries found done).mp handed ((same c found id).mpr old)
    refine ⟨healthy, given, _, reached.tail (.receiver (.deliver first fresh)), fun d there j => ?_⟩
    have unreleased : ¬(Op.packet t p).Releases t j := by
      simp [Op.releases_packet, Packet.releasedId, carries.1, show PUBLISH ≠ PUBREL by decide]
    rw [records d there, Op.publishes2_packet, carries.qos2Id]
    simp [unreleased, eq_comm]
  | @repetition p id n rest b first carries done dropped =>
    obtain ⟨healthy, given, records⟩ := follows.records same done
    obtain ⟨c, found⟩ := Broker.connected_of_carries follows.healthy carries done
    have old : id ∈ held := by
      by_contra fresh
      refine dropped ((Broker.handedOn_iff follows.healthy carries found done).mpr fun seen => ?_)
      exact fresh ((same c found id).mp seen)
    refine ⟨healthy, given, held, reached.tail (.receiver (.repeated first old)), fun d there j => ?_⟩
    have unreleased : ¬(Op.packet t p).Releases t j := by
      simp [Op.releases_packet, Packet.releasedId, carries.1, show PUBLISH ≠ PUBREL by decide]
    rw [records d there, Op.publishes2_packet, carries.qos2Id]
    simp only [unreleased, not_false_eq_true, and_true, Option.some.injEq]
    exact or_iff_right_of_imp fun here => here ▸ old
  | @release p id rest b first carries done =>
    obtain ⟨healthy, given, records⟩ := follows.records same done
    refine ⟨healthy, given, _, reached.tail (.receiver (.release first)), fun d there j => ?_⟩
    obtain ⟨isPubrel, -⟩ := Packet.releasedId_eq_some.mp carries
    have unpublished : ¬(Op.packet t p).Publishes2 t j := by
      simp [Op.publishes2_packet, Packet.qos2Id, isPubrel, show PUBREL ≠ PUBLISH by decide]
    rw [records d there, Op.releases_packet, carries]
    simp [unpublished, eq_comm]

/-- Every message the publisher sends is handed on at most once and in order, however often it is
sent and whatever releases and answers get lost, and at least once when it was received. -/
theorem exactly_once (message : Nat → Message) (s : Loop) (reached : s.Reachable)
    (h₁ h₂ : RandomState UInt16) (x : Exchange) (run : Reaches message s.broker h₁ h₂ x) :
    x.handed = List.range x.handed.length ∧
      (∀ n ∈ x.handed, n < x.publisher.next) ∧
      ∀ n < x.publisher.next, (∀ id, x.publisher.phase id ≠ .sent n) → n ∈ x.handed := by
  have follows : x.Follows s.broker.nextToken := by
    induction run with
    | refl => exact .start reached.healthy h₁ h₂
    | tail _ step ih => exact ih.step step
  obtain ⟨held, reached, -⟩ := follows.held
  refine ⟨reached.delivered, fun n member => ?_, fun n small received => reached.complete small received⟩
  exact (reached.sound.known n).mp (List.mem_append_left _ member)

/-- A message is sent twice under the id 7 before its PUBREC arrives. -/
theorem exactly_once_resent : ∃ x : Exchange,
    Reaches (fun _ => ⟨.fromUtf8Lossy [97], [], false⟩) Loop.fresh.broker default default x ∧
      x.wires.back = [.receipt 7] ∧ x.publisher.next = 1 ∧ 0 ∈ x.handed := by
  have follows := Follows.start Loop.fresh_reachable.healthy default default
  have carries : Packet.Carries ⟨PUBLISH, 4, [0, 1, 97, 0, 7]⟩ 7 ⟨.fromUtf8Lossy [97], [], false⟩ :=
    ⟨rfl, rfl⟩
  have found : (start Loop.fresh.broker default default).broker.clients.get? 1 =
      some (.accepted 1 default default) := HashMap.get?_insert_self _ _ _
  have passed : ((Op.packet 1 ⟨PUBLISH, 4, [0, 1, 97, 0, 7]⟩).step
      (start Loop.fresh.broker default default).broker).toOption.any
        (fun b => (b.clients.get? 1).any fun c => c.receivedQos2.contains 7) = true := by
    decide +kernel
  obtain ⟨b, done, there⟩ : ∃ b, (Op.packet 1 ⟨PUBLISH, 4, [0, 1, 97, 0, 7]⟩).step
      (start Loop.fresh.broker default default).broker = .ok b ∧
        ((b.clients.get? 1).any fun c => c.receivedQos2.contains 7) = true := by
    cases done : (Op.packet 1 ⟨PUBLISH, 4, [0, 1, 97, 0, 7]⟩).step
        (start Loop.fresh.broker default default).broker with
    | ok b =>
      rw [done] at passed
      exact ⟨b, rfl, passed⟩
    | error e =>
      rw [done] at passed
      cases passed
  obtain ⟨c, found', seen⟩ := (Option.any_eq_true _ _).mp there
  have handed := (Broker.handedOn_iff follows.healthy carries found done).mpr (by decide)
  have sent : Reaches (fun _ => ⟨.fromUtf8Lossy [97], [], false⟩) Loop.fresh.broker default default
      ⟨⟨Function.update (fun _ => .free) 7 (.sent 0), 1⟩, ⟨[.message 7 0, .message 7 0], []⟩,
        (start Loop.fresh.broker default default).broker, []⟩ :=
    (Relation.ReflTransGen.single (b := ⟨_, ⟨[.message 7 0], []⟩, _, _⟩) (.publisher (.send rfl))).tail
      (.publisher (.resend rfl))
  have taken := sent.tail (.publish rfl carries done handed)
  have healthy : b.Healthy := by
    obtain ⟨out, ran⟩ := Op.step_ok done
    exact follows.healthy.op _ ran
  obtain ⟨b', again⟩ := Broker.step_carries healthy.indexed carries found'
  have dropped : ¬b.HandedOn 1 ⟨PUBLISH, 4, [0, 1, 97, 0, 7]⟩ b' := fun handed =>
    (Broker.handedOn_iff healthy carries found' again).mp handed seen
  have acknowledged := (taken.tail (.repetition rfl carries again dropped)).tail
    (.publisher (.receipt rfl rfl))
  refine ⟨_, acknowledged, rfl, rfl, ?_⟩
  refine (exactly_once _ _ Loop.fresh_reachable _ _ _ acknowledged).2.2 0 Nat.zero_lt_one fun id => ?_
  simp only [Function.update_apply]
  split
  · simp
  · simp

end Exchange
end MioBroker
