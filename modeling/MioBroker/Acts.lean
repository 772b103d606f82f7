import MioBroker.Loop
import MioBroker.Publish

/-!
# What an operation is made of

Every operation of the event loop is a sequence of acts on the broker's tables. What an act
can do is said here once; an invariant of all runs is then a statement about acts. An act
carries what it was given, so a run of acts still says which packet caused what.
-/
namespace MioBroker

open Rust

/-- What the broker does to the record of one connection. -/
inductive Change
  | reply (pkt : Bytes)
  | connect (p : ConnectPacket)
  | buffer (buf : Bytes)
  | alive
  | publishQos2 (pid : UInt16)
  | acked (pid : UInt16)
  | pubrec (pid : UInt16)
  | pubrel (pid : UInt16)
  | disconnect
  | retry (pid : UInt16) (pkt : Bytes) (scanned : Instant)
  | write (ws : List WriteResult)
  | rearm (interest : Interest)

namespace Change

def apply (now : Instant) (c : Client) : Change → Client
  | .reply pkt => c.reply pkt
  | .connect p => c.applyConnect p now
  | .buffer buf => { c with readBuf := buf }
  | .alive => c.refreshKeepalive now
  | .publishQos2 pid => (c.receiveQos2 pid).1
  | .acked pid => { c with inFlight := c.inFlight.erase pid }
  | .pubrec pid => c.pubrec pid now
  | .pubrel pid => { c with receivedQos2 := c.receivedQos2.erase pid }.reply (buildPubcomp pid)
  | .disconnect => { c with cleanDisconnect := true }
  | .retry pid pkt scanned =>
    match c.queueQos1 pkt with
    | (d, .ok ()) => d.restartTimer pid scanned
    | (d, .error ()) => d
  | .write ws => (c.writeLoop ws).1
  | .rearm interest => { c with interest }

end Change

/-- The packets of the protocol that `handle_packets` answers with. -/
inductive ProtocolPacket : Bytes → Prop
  | connack : ProtocolPacket buildConnack
  | suback (pid : UInt16) (grants : List UInt8) : ProtocolPacket (buildSuback pid grants)
  | unsuback (pid : UInt16) : ProtocolPacket (buildUnsuback pid)
  | puback (pid : UInt16) : ProtocolPacket (buildPuback pid)
  | pubrec (pid : UInt16) : ProtocolPacket (buildPubrec pid)
  | pubrel (pid : UInt16) : ProtocolPacket (buildPubrel pid)
  | pubcomp (pid : UInt16) : ProtocolPacket (buildPubcomp pid)
  | pingresp : ProtocolPacket buildPingresp

theorem ProtocolPacket.not_dup {pkt : Bytes} (protocol : ProtocolPacket pkt) : isDup pkt = false := by
  cases protocol <;> rfl

/-- One act on the tables of the broker. -/
inductive Act
  | change (t : Token) (ch : Change)
  | deliver (t : Token) (topic : Str) (payload : Bytes) (qos : UInt8) (retain : Bool)
  | publish (topic : Str) (payload : Bytes) (qos : UInt8) (retain : Bool)
  | addSub (filter : Str) (t : Token) (qos : UInt8)
  | unsubscribe (t : Token) (filters : List Str)
  | eraseSession (cid : Str)
  | accept (h₁ h₂ : RandomState UInt16)
  | logWill (t : Token) (will : Will)
  | persist (t : Token)
  | drop (t : Token)
  /-- clock, counters and the state file: everything but the tables, as in `after` -/
  | account (after : Broker)

namespace Act

def run (b : Broker) : Act → Run Broker
  | .change t ch => b.modifyClient t fun c => ch.apply b.now c
  | .deliver t topic payload qos retain => .ok (b.deliverTo t topic payload qos retain).1
  | .publish topic payload qos retain => do
    let (b, _) ← b.publish topic payload qos retain
    pure b
  | .addSub filter t qos => .ok (b.addSub filter t qos)
  | .unsubscribe t filters => .ok (b.unsubscribe t filters)
  | .eraseSession cid => .ok (b.eraseSession cid)
  | .accept h₁ h₂ => .ok (b.accept h₁ h₂)
  | .logWill t will => .ok { b with willLog := b.willLog ++ [(t, will)] }
  | .persist t => b.persistSession t
  | .drop t => .ok (b.dropClient t)
  | .account after => .ok { after with
      clients := b.clients, subs := b.subs, subsExact := b.subsExact, subsWild := b.subsWild
      nextToken := b.nextToken, retained := b.retained, sessions := b.sessions
      willLog := b.willLog, deliverLog := b.deliverLog }

/-- A sequence of acts, each admitted in the state it meets. -/
abbrev Path (ok : Broker → Act → Prop) : Broker → List Act → Broker → Prop :=
  Machine.Path run ok

/-- The acts of `remove_client`. -/
def removes (t : Token) : Act → Prop
  | .logWill t' _ => t' = t
  | .publish _ _ _ _ => True
  | .persist t' => t' = t
  | .drop t' => t' = t
  | .account _ => True
  | _ => False

/-- The changes a packet makes to the record of its sender. -/
def changes (p : Packet) : Change → Prop
  | .reply pkt => ProtocolPacket pkt
  | .connect q => p.ptype = CONNECT ∧ parseConnect p.body = .ok (some q)
  | .publishQos2 _ => p.ptype = PUBLISH ∧ publishQos p.flags = 2
  | .acked pid => (p.ptype = PUBACK ∨ p.ptype = PUBCOMP) ∧ u16At p.body 0 = .ok pid
  | .pubrec pid => p.ptype = PUBREC ∧ u16At p.body 0 = .ok pid
  | .pubrel pid => p.ptype = PUBREL ∧ u16At p.body 0 = .ok pid
  | .disconnect => p.ptype = DISCONNECT
  | _ => False

/-- The acts of one packet. -/
def handles (t : Token) (p : Packet) : Act → Prop
  | .change t' ch => t' = t ∧ changes p ch
  | .deliver t' _ _ _ _ => t' = t ∧ (p.ptype = CONNECT ∨ p.ptype = SUBSCRIBE)
  | .publish topic payload qos retain => p.ptype = PUBLISH ∧
      ∃ pid, parsePublish p.flags p.body = .ok (some ⟨topic, qos, pid, payload, retain⟩)
  | .addSub _ t' _ => t' = t ∧ (p.ptype = CONNECT ∨ p.ptype = SUBSCRIBE)
  | .unsubscribe t' filters => t' = t ∧ p.ptype = UNSUBSCRIBE ∧
      ∃ pid, parseUnsubscribe p.body = .ok (some (pid, filters))
  | .eraseSession cid => p.ptype = CONNECT ∧
      ∃ q, parseConnect p.body = .ok (some q) ∧ q.cid = cid
  | .account _ => True
  | _ => False

end Act

/-- The acts an operation may consist of. -/
def Op.permits : Op → Act → Prop
  | _, .account _ => True
  | .accept h₁ h₂, a => a = .accept h₁ h₂
  | .receive t _, a => ∃ buf, a = .change t (.buffer buf) ∨ a = .change t .alive
  | .packet t p, a => a.handles t p
  | .remove t, a => a.removes t
  | .flush t ws, a =>
    a = .change t (.write ws) ∨ (∃ interest, a = .change t (.rearm interest)) ∨ a.removes t
  | .quiesce t, a => a = .change t (.rearm .readable)
  | .publish topic payload qos retain, a => a = .publish topic payload qos retain
  | .retry t pid pkt scanned, a => a = .change t (.retry pid pkt scanned)
  | _, _ => False

/-- The operations that change the record of a connection. -/
theorem Op.permits_change {op : Op} {t : Token} {ch : Change} (permitted : op.permits (.change t ch)) :
    (∃ p, op = .packet t p ∧ Act.changes p ch) ∨
      (∃ r, op = .receive t r ∧ ((∃ buf, ch = .buffer buf) ∨ ch = .alive)) ∨
      (∃ ws, op = .flush t ws ∧ (ch = .write ws ∨ ∃ interest, ch = .rearm interest)) ∨
      (op = .quiesce t ∧ ch = .rearm .readable) ∨
      ∃ pid pkt scanned, op = .retry t pid pkt scanned ∧ ch = .retry pid pkt scanned := by
  cases op with
  | packet k p =>
    obtain ⟨rfl, changes⟩ := permitted
    exact .inl ⟨p, rfl, changes⟩
  | receive k r =>
    obtain ⟨buf, same | same⟩ := permitted
    · cases same
      exact .inr (.inl ⟨r, rfl, .inl ⟨buf, rfl⟩⟩)
    · cases same
      exact .inr (.inl ⟨r, rfl, .inr rfl⟩)
  | flush k ws =>
    rcases permitted with same | ⟨interest, same⟩ | removing
    · cases same
      exact .inr (.inr (.inl ⟨ws, rfl, .inl rfl⟩))
    · cases same
      exact .inr (.inr (.inl ⟨ws, rfl, .inr ⟨interest, rfl⟩⟩))
    · exact removing.elim
  | quiesce k =>
    cases permitted
    exact .inr (.inr (.inr (.inl ⟨rfl, rfl⟩)))
  | retry k pid pkt scanned =>
    cases permitted
    exact .inr (.inr (.inr (.inr ⟨pid, pkt, scanned, rfl, rfl⟩)))
  | accept h₁ h₂ => cases permitted
  | publish topic payload qos retain => cases permitted
  | _ => exact permitted.elim

/-- The changes a packet is the only reason for. -/
def Change.ofPacket : Change → Bool
  | .buffer _ => false
  | .alive => false
  | .retry _ _ _ => false
  | .write _ => false
  | .rearm _ => false
  | _ => true

theorem Op.permits_ofPacket {op : Op} {t : Token} {ch : Change} (own : ch.ofPacket = true)
    (permitted : op.permits (.change t ch)) : ∃ p, op = .packet t p ∧ Act.changes p ch := by
  rcases Op.permits_change permitted with ⟨p, rfl, changes⟩ | ⟨_, -, ⟨_, rfl⟩ | rfl⟩ |
    ⟨_, -, rfl | ⟨_, rfl⟩⟩ | ⟨-, rfl⟩ | ⟨_, _, _, -, rfl⟩
  · exact ⟨p, rfl, changes⟩
  all_goals cases own

/-- CONNECT is handled for its packet only. -/
theorem Op.permits_connect {op : Op} {t : Token} {q : ConnectPacket}
    (permitted : op.permits (.change t (.connect q))) :
    ∃ p, op = .packet t p ∧ p.ptype = CONNECT ∧ parseConnect p.body = .ok (some q) :=
  Op.permits_ofPacket rfl permitted

/-- A retransmission is an operation of its own. -/
theorem Op.permits_retry {op : Op} {t : Token} {pid : UInt16} {pkt : Bytes} {scanned : Instant}
    (permitted : op.permits (.change t (.retry pid pkt scanned))) : op = .retry t pid pkt scanned := by
  rcases Op.permits_change permitted with ⟨p, rfl, changes⟩ | ⟨_, -, ⟨_, same⟩ | same⟩ |
    ⟨_, -, same | ⟨_, same⟩⟩ | ⟨-, same⟩ | ⟨_, _, _, rfl, same⟩
  · exact changes.elim
  all_goals cases same
  rfl

/-- The operations that do more than change a record or keep the books. -/
theorem Op.permits_table {op : Op} {a : Act} (permitted : op.permits a)
    (noChange : ∀ t ch, a ≠ .change t ch) (noAccount : ∀ after, a ≠ .account after) :
    (∃ h₁ h₂, op = .accept h₁ h₂ ∧ a = .accept h₁ h₂) ∨ (∃ t p, op = .packet t p ∧ a.handles t p) ∨
      (∃ t, (op = .remove t ∨ ∃ ws, op = .flush t ws) ∧ a.removes t) ∨
      ∃ topic payload qos retain, op = .publish topic payload qos retain ∧
        a = .publish topic payload qos retain := by
  -- Changes and accounts come from many operations; each table act from one kind.
  cases a with
  | change t ch => exact absurd rfl (noChange t ch)
  | account after => exact absurd rfl (noAccount after)
  | _ =>
    cases op with
    | accept h₁ h₂ => exact .inl ⟨h₁, h₂, rfl, permitted⟩
    | packet t p => exact .inr (.inl ⟨t, p, rfl, permitted⟩)
    | remove t => exact .inr (.inr (.inl ⟨t, .inl rfl, permitted⟩))
    | flush t ws =>
      rcases permitted with same | ⟨_, same⟩ | removing
      · cases same
      · cases same
      · exact .inr (.inr (.inl ⟨t, .inr ⟨ws, rfl⟩, removing⟩))
    | receive t r =>
      obtain ⟨_, same | same⟩ := permitted
      · cases same
      · cases same
    | quiesce t => cases permitted
    | publish topic payload qos retain => exact .inr (.inr (.inr ⟨_, _, _, _, rfl, permitted⟩))
    | retry t pid pkt scanned => cases permitted
    | _ => exact permitted.elim

/-- Wills are logged, sessions stored and connections dropped by a removal only, as far as acts of
their own do. -/
theorem Op.permits_removal {op : Op} {a : Act} {t : Token} (permitted : op.permits a)
    (own : a = .persist t ∨ a = .drop t ∨ ∃ will, a = .logWill t will) :
    op = .remove t ∨ ∃ ws, op = .flush t ws := by
  have removes : ∀ {k}, a.removes k → k = t := by
    rintro k removes
    rcases own with rfl | rfl | ⟨will, rfl⟩
    all_goals exact Eq.symm removes
  -- No packet handler persists, drops or logs a will.
  have unhandled : ∀ {k p}, ¬a.handles k p := by
    rcases own with rfl | rfl | ⟨will, rfl⟩
    all_goals exact fun handles => handles.elim
  rcases Op.permits_table permitted (by rcases own with rfl | rfl | ⟨_, rfl⟩ <;> simp)
      (by rcases own with rfl | rfl | ⟨_, rfl⟩ <;> simp) with
    ⟨_, _, -, rfl⟩ | ⟨_, _, -, handles⟩ | ⟨k, removal, removing⟩ | ⟨_, _, _, _, -, rfl⟩
  · rcases own with same | same | ⟨_, same⟩
    all_goals cases same
  · exact absurd handles unhandled
  · exact removes removing ▸ removal
  · rcases own with same | same | ⟨_, same⟩
    all_goals cases same

/-- Sessions are taken away by a CONNECT only. -/
theorem Op.permits_eraseSession {op : Op} {cid : Str} (permitted : op.permits (.eraseSession cid)) :
    ∃ t p q, op = .packet t p ∧ p.ptype = CONNECT ∧ parseConnect p.body = .ok (some q) ∧ q.cid = cid := by
  rcases Op.permits_table permitted (by simp) (by simp) with ⟨_, _, -, same⟩ |
    ⟨t, p, rfl, isConnect, q, parse, same⟩ | ⟨_, -, removes⟩ | ⟨_, _, _, _, -, same⟩
  · cases same
  · exact ⟨t, p, q, rfl, isConnect, parse, same⟩
  · exact removes.elim
  · cases same

/-- Subscriptions are added for the sender of a packet. -/
theorem Op.permits_addSub {op : Op} {filter : Str} {t : Token} {qos : UInt8}
    (permitted : op.permits (.addSub filter t qos)) : ∃ p, op = .packet t p := by
  rcases Op.permits_table permitted (by simp) (by simp) with ⟨_, _, -, same⟩ |
    ⟨k, p, rfl, rfl, -⟩ | ⟨_, -, removes⟩ | ⟨_, _, _, _, -, same⟩
  · cases same
  · exact ⟨p, rfl⟩
  · exact removes.elim
  · cases same

/-- They are taken away by an UNSUBSCRIBE of it. -/
theorem Op.permits_unsubscribe {op : Op} {t : Token} {filters : List Str}
    (permitted : op.permits (.unsubscribe t filters)) : ∃ p pid, op = .packet t p ∧
      p.ptype = UNSUBSCRIBE ∧ parseUnsubscribe p.body = .ok (some (pid, filters)) := by
  rcases Op.permits_table permitted (by simp) (by simp) with ⟨_, _, -, same⟩ |
    ⟨k, p, rfl, rfl, kind, pid, parse⟩ | ⟨_, -, removes⟩ | ⟨_, _, _, _, -, same⟩
  · cases same
  · exact ⟨p, pid, rfl, kind, parse⟩
  · exact removes.elim
  · cases same

theorem Op.permits_accept {op : Op} {h₁ h₂ : RandomState UInt16}
    (permitted : op.permits (.accept h₁ h₂)) : ∃ h₁ h₂, op = .accept h₁ h₂ := by
  rcases Op.permits_table permitted (by simp) (by simp) with ⟨g₁, g₂, rfl, -⟩ | ⟨_, _, -, handles⟩ |
    ⟨_, -, removes⟩ | ⟨_, _, _, _, -, same⟩
  · exact ⟨g₁, g₂, rfl⟩
  · exact handles.elim
  · exact removes.elim
  · cases same

/-- Messages are handed over directly to the sender of a CONNECT or SUBSCRIBE. -/
theorem Op.permits_deliver {op : Op} {t : Token} {topic : Str} {payload : Bytes} {qos : UInt8}
    {retain : Bool} (permitted : op.permits (.deliver t topic payload qos retain)) :
    ∃ p, op = .packet t p ∧ (p.ptype = CONNECT ∨ p.ptype = SUBSCRIBE) := by
  rcases Op.permits_table permitted (by simp) (by simp) with ⟨_, _, -, same⟩ |
    ⟨k, p, rfl, rfl, kind⟩ | ⟨_, -, removes⟩ | ⟨_, _, _, _, -, same⟩
  · cases same
  · exact ⟨p, rfl, kind⟩
  · exact removes.elim
  · cases same

end MioBroker
