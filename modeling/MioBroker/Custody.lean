import MioBroker.Copies
import MioBroker.Restart

/-!
# What a persistent client is owed

The accepted deliveries of a message to a persistent client that it has not acknowledged, and
the operations that leave a copy of each where it belongs: in flight while the client is
connected, with its session while it is not.
-/
namespace MioBroker

open Rust

/-! ### The ledger -/

namespace Op

/-- The CONNECT an operation handles. -/
def connectPacket : Op → Option ConnectPacket
  | .packet _ p =>
    if p.ptype = CONNECT then
      match parseConnect p.body with
      | .ok q => q
      | .error _ => none
    else none
  | _ => none

/-- The client starts over with a clean session. -/
def restarts (cid : Str) (op : Op) : Bool :=
  op.connectPacket.any fun q => decide (q.cid = cid) && q.cleanSession

/-- The client is handed the messages of its session again. -/
def resumes (cid : Str) (op : Op) : Bool :=
  op.connectPacket.any fun q => decide (q.cid = cid) && !q.cleanSession

/-- The copies that an acknowledgement of the client settles: PUBACK for QoS 1, PUBREC for QoS 2. -/
def acknowledged (cid : Str) (m : Str × Bytes) (b : Broker) : Op → Nat
  | .packet t p =>
    match b.clients.get? t, u16At p.body 0 with
    | some c, .ok pid =>
      if c.Belongs cid then
        c.inFlight.share (fun pid entry => (entry.awaits m pid &&
          (p.ptype = PUBACK && !entry.qos2 || p.ptype = PUBREC && entry.qos2)).toNat) pid
      else 0
    | _, _ => 0
  | _ => 0

/-- What the client is owed behind an operation that leads from `b` to `b'`, `n` being what it was
owed before. A full offline queue and a clean session settle everything. CONNECT has `deliver_to`
accept the stored messages anew: these are no further debts. -/
def owes (cid : Str) (m : Str × Bytes) (b b' : Broker) (op : Op) (n : Nat) : Nat :=
  let accepted := b'.accepted cid m - b.accepted cid m
  if op.restarts cid || decide (OFFLINE_CAP ≤ (b'.offlineOf cid).length) then 0
  else (if op.resumes cid then max n accepted else n + accepted) - op.acknowledged cid m b

end Op

namespace Broker

/-- Every owed copy is in flight at the connection of the client, or with its session when it has
none. -/
structure Covers (b : Broker) (cid : Str) (m : Str × Bytes) (n : Nat) : Prop where
  connected : ∀ t c, b.clients.get? t = some c → c.Belongs cid → n ≤ c.awaiting m
  away : (∀ t c, b.clients.get? t = some c → ¬c.Belongs cid) → n ≤ b.stored cid m

/-- The client has one connection at most, and then no stored session. -/
structure Sole (cid : Str) (b : Broker) : Prop where
  one : ∀ t k c d, b.clients.get? t = some c → b.clients.get? k = some d → c.Belongs cid →
    d.Belongs cid → t = k
  unstored : ∀ t c, b.clients.get? t = some c → c.Belongs cid → b.sessions.get? cid = none

variable {cid : Str} {m : Str × Bytes} {b b' : Broker} {t : Token} {n : Nat}

theorem live_absent (absent : ∀ t c, b.clients.get? t = some c → ¬c.Belongs cid) :
    b.live cid m = 0 :=
  HashMap.sum_eq_zero _ _ fun t c found => if_neg (absent t c found)

theorem Sole.live {c : Client} (sole : Sole cid b) (found : b.clients.get? t = some c)
    (belongs : c.Belongs cid) : b.live cid m = c.awaiting m := by
  rw [Broker.live, HashMap.sum_eq_single _ _ t, HashMap.share_some found, Client.awaitingFor,
    if_pos belongs]
  intro k d other there
  exact if_neg fun member => other (sole.one k t d c there found member belongs)

/-- The client has no connection. -/
theorem Sole.of_absent (absent : ∀ t c, b.clients.get? t = some c → ¬c.Belongs cid) : Sole cid b :=
  ⟨fun t _ c _ found _ belongs _ => absurd belongs (absent t c found),
    fun t c found belongs => absurd belongs (absent t c found)⟩

theorem stored_none (unstored : b.sessions.get? cid = none) : b.stored cid m = 0 := by
  simp [stored, offlineOf, unstored]

/-- Where the client has one connection at most, the copies may be counted all together. -/
theorem Sole.covers (sole : Sole cid b) : b.Covers cid m n ↔ n ≤ b.live cid m + b.stored cid m := by
  constructor
  · rintro ⟨connected, away⟩
    by_cases member : ∃ t c, b.clients.get? t = some c ∧ c.Belongs cid
    · obtain ⟨t, c, found, belongs⟩ := member
      rw [sole.live found belongs]
      exact Nat.le_trans (connected t c found belongs) (Nat.le_add_right _ _)
    · refine Nat.le_trans (away fun t c found belongs => ?_) (Nat.le_add_left _ _)
      exact member ⟨t, c, found, belongs⟩
  · intro counted
    refine ⟨fun t c found belongs => ?_, fun absent => ?_⟩
    · rw [sole.live found belongs, stored_none (sole.unstored t c found belongs)] at counted
      exact counted
    · rw [live_absent absent, Nat.zero_add] at counted
      exact counted

/-- Nobody has become a connection of the client, and no session has appeared. -/
theorem Sole.mono (sole : Sole cid b) (members : ∀ t d, b'.clients.get? t = some d → d.Belongs cid →
    ∃ c, b.clients.get? t = some c ∧ c.Belongs cid)
    (unstored : b.sessions.get? cid = none → b'.sessions.get? cid = none) : Sole cid b' := by
  refine ⟨fun t k c d found there belongs member => ?_, fun t c found belongs => ?_⟩
  · obtain ⟨e, before, own⟩ := members t c found belongs
    obtain ⟨f, before', own'⟩ := members k d there member
    exact sole.one t k e f before before' own own'
  · obtain ⟨e, before, own⟩ := members t c found belongs
    exact unstored (sole.unstored t e before own)

/-- One connection at most, and all `n` owed copies in flight or stored. -/
structure Custody (cid : Str) (m : Str × Bytes) (b : Broker) (n : Nat) : Prop where
  sole : Sole cid b
  counted : n ≤ b.live cid m + b.stored cid m

theorem Custody.mono {k : Nat} (custody : Custody cid m b n) (fewer : k ≤ n) : Custody cid m b k :=
  ⟨custody.sole, Nat.le_trans fewer custody.counted⟩

theorem Custody.grows (custody : Custody cid m b n) (grows : Grows cid m b b') :
    Custody cid m b' (n + (b'.accepted cid m - b.accepted cid m)) := by
  refine ⟨custody.sole.mono grows.members grows.unstored, ?_⟩
  have counted := custody.counted
  have copies := grows.copies
  have logged := grows.logged
  have stored := grows.stored
  omega

end Broker

/-- But for CONNECT, every accepted delivery is one more debt at most. -/
theorem Op.owes_le {cid : Str} {m : Str × Bytes} {b b' : Broker} {op : Op} (n : Nat)
    (unresumed : op.resumes cid = false) :
    op.owes cid m b b' n ≤ n + (b'.accepted cid m - b.accepted cid m) - op.acknowledged cid m b := by
  simp only [owes, unresumed, Bool.false_eq_true, if_false]
  split
  · exact Nat.zero_le _
  · exact Nat.le_refl _

/-! ### Operations that only add -/

/-- `deliver_to` drops no connection of the client: what is published to it and what it is sent on
its SUBSCRIBE fits its window and its queue. -/
structure Op.Spares (cid : Str) (b : Broker) (op : Op) : Prop where
  published : ∀ call, op.publishCall b = some call → ∀ t c, call.broker.clients.get? t = some c →
    c.Belongs cid → ¬call.OverflowsAt t c
  retained : ∀ t p c, op = .packet t p → p.ptype = SUBSCRIBE → b.clients.get? t = some c →
    c.Belongs cid → c.overruns ((b.packetMessages p).map fun x => x.2.2) = false

/-- Operations that neither acknowledge, connect nor disconnect for the client. -/
def Op.Plain (cid : Str) (b : Broker) : Op → Prop
  | .packet t p => p.ptype ≠ PUBACK ∧ p.ptype ≠ PUBREC ∧ p.ptype ≠ PUBCOMP ∧ (p.ptype = CONNECT →
      b.Foreign cid t ∧ ∀ q, parseConnect p.body = .ok (some q) → q.cid ≠ cid)
  | .remove t => b.Foreign cid t
  | .flush t ws => b.Foreign cid t ∨ (Op.flush t ws).removal b = none
  | _ => True

section Plain

variable {cid : Str} {m : Str × Bytes} {b b' : Broker} {out : Outcome} {t : Token}

/-- Writing to a socket touches neither window nor identity. -/
theorem Broker.write_grows {c : Client} (found : b.clients.get? t = some c) (ws : List WriteResult) :
    Broker.Grows cid m b { b with clients := b.clients.insert t (c.writeLoop ws).1 } := by
  have same : Client.SameIdentity c ((Change.write ws).apply b.now c) :=
    Change.sameIdentity b.now c fun _ same => by cases same
  exact Broker.modify_grows found same (c.awaiting_change b.now (.write ws) m)

theorem Broker.flush_grows {ws : List WriteResult} (alive : (Op.flush t ws).removal b = none)
    (done : b.flushWrites t ws = .ok b') : Broker.Grows cid m b b' := by
  simp only [flushWrites] at done
  obtain ⟨c, found, done⟩ := Run.bind_ok.mp done
  replace found := Run.unwrap_ok found
  split at done
  next dead => simp [Op.removal, found, dead] at alive
  next =>
    cases done
    refine (Broker.write_grows found ws).trans ?_
    generalize (if (c.writeLoop ws).2 = .wroteAll then Interest.readable else .readableWritable) = interest
    exact Broker.Grows.trans
      (Broker.modify_grows (d := { (c.writeLoop ws).1 with interest }) (HashMap.get?_insert_self _ _ _)
        ⟨rfl, rfl, rfl⟩ rfl) (.same rfl rfl rfl)

/-- A connection of somebody else stays one. -/
theorem Broker.Grows.foreign {s : Broker} (grows : Broker.Grows cid m b s) (foreign : b.Foreign cid t) :
    s.Foreign cid t := by
  intro d found belongs
  obtain ⟨c, before, own⟩ := grows.members t d found belongs
  exact foreign c before own

/-- The changes such an operation makes acknowledge nothing for the client. -/
theorem Op.Plain.change {op : Op} {s : Broker} {k : Token} {ch : Change} (plain : op.Plain cid b)
    (grows : Broker.Grows cid m b s) (permitted : op.permits (.change k ch)) :
    (s.Foreign cid k ∧ ∀ q, ch = .connect q → q.cid ≠ cid) ∨
      (∀ q, ch ≠ .connect q) ∧ ∀ c m, ch.settles c m = 0 := by
  -- Of all changes CONNECT and the three acknowledgements could matter.
  cases ch with
  | connect q =>
    obtain ⟨p, rfl, isConnect, parse⟩ := Op.permits_connect permitted
    obtain ⟨foreign, elsewhere⟩ := plain.2.2.2 isConnect
    refine .inl ⟨grows.foreign foreign, fun q' same => ?_⟩
    cases same
    exact elsewhere q parse
  | acked pid =>
    obtain ⟨p, rfl, isPuback | isPubcomp, -⟩ := Op.permits_ofPacket rfl permitted
    · exact absurd isPuback plain.1
    · exact absurd isPubcomp plain.2.2.1
  | pubrec pid =>
    obtain ⟨p, rfl, isPubrec, -⟩ := Op.permits_ofPacket rfl permitted
    exact absurd isPubrec plain.2.1
  | _ => exact .inr ⟨nofun, fun _ _ => rfl⟩

/-- Messages are handed to a connection of the client directly only if they fit. -/
theorem Op.Spares.deliver {op : Op} {s : Broker} {topic : Str} {payload : Bytes} {qos : UInt8}
    {retain : Bool} (spares : op.Spares cid b) (plain : op.Plain cid b) (grows : Broker.Grows cid m b s)
    (ok : op.conforms b s (.deliver t topic payload qos retain)) (c : Client)
    (found : s.clients.get? t = some c) (belongs : c.Belongs cid) :
    c.offer s.now topic payload qos retain ≠ .dropped := by
  intro dropped
  obtain ⟨d, before, own⟩ := grows.members t c found belongs
  obtain ⟨p, rfl, isConnect | isSubscribe⟩ := Op.permits_deliver ok.1
  · exact (plain.2.2.2 isConnect).1 d before own
  rcases ok.2.2 ⟨c, found, dropped⟩ with ⟨call, called, -⟩ | ⟨e, sender, exceeds⟩
  · have other : SUBSCRIBE ≠ PUBLISH := by decide
    simp [Op.publishCall, Broker.packetCall, isSubscribe, other] at called
  · have other : SUBSCRIBE ≠ CONNECT := by decide
    have same : d = e := by
      simpa [Op.sender, Broker.packetSender, before, isSubscribe, other] using sender
    subst same
    cases exceeds.symm.trans (spares.retained t p d rfl isSubscribe before own)

/-- Operations that neither acknowledge, connect nor disconnect for the client keep every copy. -/
theorem Op.grows {op : Op} (nonempty : cid.isEmpty = false) (healthy : b.Healthy) (numbered : b.Numbered)
    (plain : op.Plain cid b) (spares : op.Spares cid b) (done : op.run b = .ok (b', out)) :
    Broker.Grows cid m b b' := by
  by_cases flushes : ∃ t ws, op = .flush t ws ∧ op.removal b = none
  · obtain ⟨t, ws, rfl, alive⟩ := flushes
    obtain ⟨d, flushed, done⟩ := Run.bind_ok.mp done
    cases done
    exact Broker.flush_grows alive flushed
  · -- A client that leaves in a plain operation is of another id.
    have leaver : ∀ {k}, (op = .remove k ∨ ∃ ws, op = .flush k ws) → b.Foreign cid k := by
      rintro k (rfl | ⟨ws, rfl⟩)
      · exact plain
      · exact plain.resolve_right fun alive => flushes ⟨k, ws, rfl, alive⟩
    refine ((op.acts healthy done).keeps healthy (fun s => s.Numbered ∧ Broker.Grows cid m b s) ?_
      ⟨numbered, .refl b⟩).2
    rintro s a s' healthy ⟨numbered, grows⟩ ok ran
    refine ⟨numbered.act healthy ran, grows.trans (Act.grows nonempty healthy ?_ ran)⟩
    cases a with
    | change k ch => exact plain.change grows ok.1
    | deliver k topic payload qos retain => exact spares.deliver plain grows ok
    | publish topic payload qos retain => exact spares.published _ ok.2
    | accept h₁ h₂ =>
      cases taken : s.clients.get? s.nextToken with
      | none => exact taken
      | some c => exact absurd (numbered _ c taken) (Nat.lt_irrefl _)
    | drop k => exact grows.foreign (leaver (Op.permits_removal ok.1 (.inr (.inl rfl))))
    | eraseSession k =>
      obtain ⟨t, p, q, rfl, isConnect, parse, rfl⟩ := Op.permits_eraseSession ok.1
      exact (plain.2.2.2 isConnect).2 q parse
    | persist k => exact grows.foreign (leaver (Op.permits_removal ok.1 (.inl rfl)))
    | _ => trivial

/-- And so what is owed behind them is there. -/
theorem Op.Plain.custody {op : Op} {n : Nat} (nonempty : cid.isEmpty = false) (healthy : b.Healthy)
    (numbered : b.Numbered) (plain : op.Plain cid b) (spares : op.Spares cid b)
    (done : op.run b = .ok (b', out)) (custody : b.Custody cid m n) :
    b'.Custody cid m (op.owes cid m b b' n) := by
  refine (custody.grows (op.grows nonempty healthy numbered plain spares done)).mono ?_
  refine Nat.le_trans (Op.owes_le n ?_) (Nat.sub_le _ _)
  rw [resumes, Option.any_eq_false]
  intro q connects
  -- A plain CONNECT names another id, so no session is resumed.
  have elsewhere : q.cid ≠ cid := by
    cases op with
    | packet t p =>
      simp only [connectPacket] at connects
      split at connects
      next isConnect =>
        split at connects
        next r parse =>
          subst connects
          exact (plain.2.2.2 isConnect).2 q parse
        next => cases connects
      next => cases connects
    | _ => cases connects
  simp [elsewhere]

end Plain

/-! ### Acknowledgements -/

/-- The client answers QoS 1 with PUBACK, QoS 2 with PUBREC and then PUBCOMP. -/
def Op.Answers (cid : Str) (b : Broker) : Op → Prop
  | .packet t p => ∀ c pid entry, b.clients.get? t = some c → c.Belongs cid →
      u16At p.body 0 = .ok pid → c.inFlight.get? pid = some entry →
      (p.ptype = PUBACK → entry.qos2 = true → entry.awaitPubcomp = true) ∧
        (p.ptype = PUBCOMP → entry.awaitPubcomp = true)
  | _ => True

section Acknowledgements

variable {cid : Str} {m : Str × Bytes} {b b' : Broker} {t : Token} {p : Packet} {r : Reply}

/-- What an acknowledgement does to the record of its sender. -/
def Packet.acks (p : Packet) (pid : UInt16) : Change :=
  if p.ptype = PUBREC then .pubrec pid else .acked pid

theorem Broker.dispatch_ack (isAck : p.ptype = PUBACK ∨ p.ptype = PUBREC ∨ p.ptype = PUBCOMP)
    (done : b.dispatch t p = .ok (b', r)) :
    (b' = b ∧ p.body.length < 2) ∨ ∃ c pid, b.clients.get? t = some c ∧ u16At p.body 0 = .ok pid ∧
      b' = { b with clients := b.clients.insert t ((p.acks pid).apply b.now c) } := by
  -- The three handlers differ in their message and in what they do to the client.
  have ack : ∀ {bad : String} {f : Client → UInt16 → Client},
      (∀ c pid, f c pid = (p.acks pid).apply b.now c) → b.handleAck t p.body bad f = .ok (b', r) →
      (b' = b ∧ p.body.length < 2) ∨ ∃ c pid, b.clients.get? t = some c ∧ u16At p.body 0 = .ok pid ∧
        b' = { b with clients := b.clients.insert t ((p.acks pid).apply b.now c) } := by
    intro bad f same done
    simp only [handleAck] at done
    split at done
    · obtain ⟨pid, parse, done⟩ := Run.bind_ok.mp done
      obtain ⟨d, modified, done⟩ := Run.bind_ok.mp done
      cases done
      obtain ⟨c, found, rfl⟩ := modifyClient_found modified
      exact .inr ⟨c, pid, found, parse, by rw [same]⟩
    next short =>
      cases done
      exact .inl ⟨rfl, Nat.not_le.mp short⟩
  rcases isAck with type | type | type
  · refine ack (fun c pid => ?_) (show b.handlePuback t p.body = .ok (b', r) from ?_)
    · simp +decide [Packet.acks, type, Change.apply]
    · simpa +decide [dispatch, type] using done
  · refine ack (fun c pid => ?_) (show b.handlePubrec t p.body = .ok (b', r) from ?_)
    · simp +decide [Packet.acks, type, Change.apply]
    · simpa +decide [dispatch, type] using done
  · refine ack (fun c pid => ?_) (show b.handlePubcomp t p.body = .ok (b', r) from ?_)
    · simp +decide [Packet.acks, type, Change.apply]
    · simpa +decide [dispatch, type] using done

/-- An answer in order settles what the ledger takes off, and no more. -/
theorem Op.Answers.settles {c : Client} {pid : UInt16} (answers : (Op.packet t p).Answers cid b)
    (isAck : p.ptype = PUBACK ∨ p.ptype = PUBREC ∨ p.ptype = PUBCOMP)
    (found : b.clients.get? t = some c) (belongs : c.Belongs cid) (parse : u16At p.body 0 = .ok pid) :
    (p.acks pid).settles c m ≤ (Op.packet t p).acknowledged cid m b := by
  have taken : (Op.packet t p).acknowledged cid m b =
      c.inFlight.share (fun pid entry => (entry.awaits m pid &&
        (p.ptype = PUBACK && !entry.qos2 || p.ptype = PUBREC && entry.qos2)).toNat) pid := by
    simp [acknowledged, found, parse, belongs]
  rw [taken]
  cases there : c.inFlight.get? pid with
  | none =>
    rw [HashMap.share_none there]
    simp only [Packet.acks]
    split <;> simp [Change.settles, HashMap.share_none there]
  | some entry =>
    obtain ⟨puback, pubcomp⟩ := answers c pid entry found belongs parse there
    rw [HashMap.share_some there]
    cases waits : entry.awaits m pid with
    | false =>
      simp only [Packet.acks]
      split <;> simp [Change.settles, HashMap.share_some there, waits]
    | true =>
      -- An entry that is still awaited has seen no PUBREC.
      have unreleased : entry.awaitPubcomp = false := by
        simp only [InFlight.awaits, Bool.and_eq_true, Bool.not_eq_true'] at waits
        exact waits.1
      rcases isAck with type | type | type
      · have qos1 : entry.qos2 = false := by
          cases qos2 : entry.qos2 with
          | false => rfl
          | true => exact absurd (puback type qos2) (by simp [unreleased])
        simp +decide [Packet.acks, type, Change.settles, HashMap.share_some there, waits, qos1]
      · simp +decide [Packet.acks, type, Change.settles, HashMap.share_some there, waits]
      · exact absurd (pubcomp type) (by simp [unreleased])

theorem Op.ack_custody {out : Outcome} {n : Nat}
    (isAck : p.ptype = PUBACK ∨ p.ptype = PUBREC ∨ p.ptype = PUBCOMP)
    (answers : (Op.packet t p).Answers cid b) (done : (Op.packet t p).run b = .ok (b', out))
    (custody : b.Custody cid m n) : b'.Custody cid m ((Op.packet t p).owes cid m b b' n) := by
  have unresumed : (Op.packet t p).resumes cid = false := by
    have other : p.ptype ≠ CONNECT := by
      rintro same
      simp +decide [same] at isAck
    simp [resumes, connectPacket, other]
  obtain ⟨r, dispatched⟩ := Op.packet_ok done
  have owed : (Op.packet t p).owes cid m b b' n ≤ _ := Op.owes_le n unresumed
  rcases Broker.dispatch_ack isAck dispatched with ⟨rfl, -⟩ | ⟨c, pid, found, parse, rfl⟩
  · refine custody.mono (Nat.le_trans owed ?_)
    rw [Nat.sub_self]
    exact Nat.sub_le _ _
  · have notConnect : ∀ q, p.acks pid ≠ .connect q := by
      intro q
      simp only [Packet.acks]
      split <;> exact nofun
    by_cases belongs : c.Belongs cid
    · -- what the entry awaited is settled
      have identity := Change.sameIdentity b.now c notConnect
      have settled := Client.awaiting_change c b.now (p.acks pid) m
      have within := answers.settles (m := m) isAck found belongs parse
      have counts := Broker.live_insert cid m found ((p.acks pid).apply b.now c)
      simp only [Client.awaitingFor, if_pos belongs, if_pos ((identity.belongs cid).mpr belongs)]
        at counts
      refine ⟨custody.sole.mono (Broker.members_insert found identity) id, ?_⟩
      have counted := custody.counted
      have kept : Broker.stored { b with clients := b.clients.insert t ((p.acks pid).apply b.now c) }
          cid m = b.stored cid m := rfl
      have logged : Broker.accepted { b with clients := b.clients.insert t ((p.acks pid).apply b.now c) }
          cid m = b.accepted cid m := rfl
      rw [kept]
      rw [logged, Nat.sub_self] at owed
      omega
    · have foreign := Change.foreign b.now belongs fun q same => absurd same (notConnect q)
      exact (custody.grows (Broker.modify_foreign found belongs foreign)).mono
        (Nat.le_trans owed (Nat.sub_le _ _))

end Acknowledgements
end MioBroker
