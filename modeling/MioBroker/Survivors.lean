import MioBroker.Runs

/-!
# What an act makes of one connection

For each connection that is there after an act: it was accepted by it, or its record before is
known together with the one thing that happened to it.
-/
namespace MioBroker

open Rust

namespace Broker

theorem unsubscribe_frame (b : Broker) (t : Token) (filters : List Str) :
    ∃ subsExact subsWild, b.unsubscribe t filters =
      { b with
        subs := b.subs.filter fun s => !(s.token == t && filters.contains s.filter)
        subsExact, subsWild } := by
  rw [unsubscribe, rebuildIndex_frame]
  exact ⟨_, _, rfl⟩

theorem eraseSession_frame (b : Broker) (cid : Str) :
    ∃ dirty, b.eraseSession cid = { b with sessions := (b.eraseSession cid).sessions, dirty } := by
  simp only [eraseSession]
  split
  · exact ⟨_, rfl⟩
  · exact ⟨_, rfl⟩

theorem eraseSession_get? (b : Broker) (cid k : Str) :
    (b.eraseSession cid).sessions.get? k = if k = cid then none else b.sessions.get? k := by
  simp only [eraseSession]
  split
  · exact HashMap.get?_erase _ _ _
  next absent =>
    have gone : b.sessions.get? cid = none := (HashMap.contains_eq_false _ _).mp (by simpa using absent)
    split
    next same => rw [same, gone]
    next => rfl

theorem dropClient_frame (b : Broker) (t : Token) :
    ∃ subsExact subsWild, b.dropClient t =
      { b with
        clients := b.clients.erase t
        subs := b.subs.filter fun s => s.token != t
        subsExact, subsWild } := by
  rw [dropClient, rebuildIndex_frame]
  exact ⟨_, _, rfl⟩

end Broker

namespace Client

theorem reply_frame (c : Client) (pkt : Bytes) :
    c.reply pkt = { c with writeQueue := (c.reply pkt).writeQueue } := by
  simp only [reply, queueQos0]
  split <;> rfl

/-- The record after an inbound QoS 2 PUBLISH: PUBREC attempted, and the id received. -/
theorem receiveQos2_spec (c : Client) (pid : UInt16) :
    ∃ received, (c.receiveQos2 pid).1 = { c with receivedQos2 := received }.reply (buildPubrec pid) ∧
      ∀ k, received.contains k = true ↔ k = pid ∨ c.receivedQos2.contains k = true := by
  by_cases seen : c.receivedQos2.contains pid = true
  · refine ⟨c.receivedQos2, by simp [receiveQos2, seen], fun k => ⟨.inr, ?_⟩⟩
    rintro (rfl | received)
    · exact seen
    · exact received
  · refine ⟨c.receivedQos2.insert pid (), by simp [receiveQos2, seen], fun k => ?_⟩
    by_cases same : k = pid
    · simp [same, HashMap.contains]
    · simp [same, HashMap.contains, HashMap.get?_insert_ne]

/-- A retransmission touches queue and window. -/
theorem retry_frame (c : Client) (now : Instant) (pid : UInt16) (pkt : Bytes) (scanned : Instant) :
    ∃ writeQueue inFlight, (Change.retry pid pkt scanned).apply now c =
      { c with writeQueue, inFlight } := by
  simp only [Change.apply, queueQos1]
  split
  next d made =>
    split at made
    · cases made
      simp only [restartTimer]
      split <;> exact ⟨_, _, rfl⟩
    · cases made
  next d made =>
    split at made
    · cases made
    · cases made
      exact ⟨_, _, rfl⟩

/-- Nothing but CONNECT sets identity and will of a connection. -/
structure SameIdentity (c d : Client) : Prop where
  clientId : d.clientId = c.clientId
  cleanSession : d.cleanSession = c.cleanSession
  will : d.will = c.will

theorem SameIdentity.refl (c : Client) : SameIdentity c c := ⟨rfl, rfl, rfl⟩

theorem SameIdentity.trans {c d e : Client} (first : SameIdentity c d) (second : SameIdentity d e) :
    SameIdentity c e :=
  ⟨second.clientId.trans first.clientId, second.cleanSession.trans first.cleanSession,
    second.will.trans first.will⟩

theorem Offered.sameIdentity {c d : Client} (offered : Offered c d) : SameIdentity c d := by
  rw [offered.frame]
  exact ⟨rfl, rfl, rfl⟩

theorem Offered.cleanDisconnect {c d : Client} (offered : Offered c d) :
    d.cleanDisconnect = c.cleanDisconnect := by
  rw [offered.frame]

end Client

namespace Change

/-- But for CONNECT a change is to the socket, the buffers and the two windows; only a sign of life
moves the deadline, only DISCONNECT sets the flag, only a read fills the buffer, only QoS 2 moves the
received ids, and only writing and rearming move the batch and the interest. -/
theorem frame {ch : Change} (now : Instant) (c : Client) (notConnect : ∀ p, ch ≠ .connect p) :
    ∃ stream readBuf writeQueue writePending writeOff keepaliveDeadline interest inFlight
        receivedQos2 cleanDisconnect,
      ch.apply now c = { c with
        stream, readBuf, writeQueue, writePending, writeOff, keepaliveDeadline, interest, inFlight
        receivedQos2, cleanDisconnect } ∧
      (ch ≠ .alive → keepaliveDeadline = c.keepaliveDeadline) ∧
      (ch ≠ .disconnect → cleanDisconnect = c.cleanDisconnect) ∧
      ((∀ buf, ch ≠ .buffer buf) → readBuf = c.readBuf) ∧
      ((∀ pid, ch ≠ .publishQos2 pid) → (∀ pid, ch ≠ .pubrel pid) →
        receivedQos2 = c.receivedQos2) ∧
      ((∀ ws, ch ≠ .write ws) → (∀ armed, ch ≠ .rearm armed) →
        writePending = c.writePending ∧ writeOff = c.writeOff ∧ interest = c.interest) := by
  -- CONNECT alone writes the fields that are not listed.
  cases ch with
  | connect p => exact absurd rfl (notConnect p)
  | reply pkt =>
    rw [apply, Client.reply_frame]
    exact ⟨_, _, _, _, _, _, _, _, _, _, rfl, by simp⟩
  | buffer buf => exact ⟨_, _, _, _, _, _, _, _, _, _, rfl, by simp⟩
  | alive =>
    simp only [apply, Client.refreshKeepalive]
    split <;> exact ⟨_, _, _, _, _, _, _, _, _, _, rfl, by simp⟩
  | publishQos2 pid =>
    obtain ⟨received, same, -⟩ := c.receiveQos2_spec pid
    rw [apply, same, Client.reply_frame]
    exact ⟨_, _, _, _, _, _, _, _, _, _, rfl, by simp⟩
  | acked pid => exact ⟨_, _, _, _, _, _, _, _, _, _, rfl, by simp⟩
  | pubrec pid =>
    simp only [apply, Client.pubrec]
    split
    · split
      · rw [Client.reply_frame]
        exact ⟨_, _, _, _, _, _, _, _, _, _, rfl, by simp⟩
      · exact ⟨_, _, _, _, _, _, _, _, _, _, rfl, by simp⟩
    · exact ⟨_, _, _, _, _, _, _, _, _, _, rfl, by simp⟩
  | pubrel pid =>
    rw [apply, Client.reply_frame]
    exact ⟨_, _, _, _, _, _, _, _, _, _, rfl, by simp⟩
  | disconnect => exact ⟨_, _, _, _, _, _, _, _, _, _, rfl, by simp⟩
  | retry pid pkt scanned =>
    obtain ⟨writeQueue, inFlight, same⟩ := c.retry_frame now pid pkt scanned
    rw [same]
    exact ⟨_, _, _, _, _, _, _, _, _, _, rfl, by simp⟩
  | write ws =>
    rw [apply, (Client.writeLoop_frame ws c).1]
    exact ⟨_, _, _, _, _, _, _, _, _, _, rfl, by simp⟩
  | rearm interest => exact ⟨_, _, _, _, _, _, _, _, _, _, rfl, by simp⟩

theorem sameIdentity {ch : Change} (now : Instant) (c : Client) (notConnect : ∀ p, ch ≠ .connect p) :
    Client.SameIdentity c (ch.apply now c) := by
  obtain ⟨_, _, _, _, _, _, _, _, _, _, same, -⟩ := ch.frame now c notConnect
  rw [same]
  exact ⟨rfl, rfl, rfl⟩

theorem willQos {ch : Change} (now : Instant) (c : Client) (notConnect : ∀ p, ch ≠ .connect p) :
    (ch.apply now c).willQos = c.willQos := by
  obtain ⟨_, _, _, _, _, _, _, _, _, _, same, -⟩ := ch.frame now c notConnect
  rw [same]

theorem keepaliveDeadline {ch : Change} (now : Instant) (c : Client)
    (notConnect : ∀ p, ch ≠ .connect p) (notAlive : ch ≠ .alive) :
    (ch.apply now c).keepaliveDeadline = c.keepaliveDeadline := by
  obtain ⟨_, _, _, _, _, _, _, _, _, _, same, deadline, -⟩ := ch.frame now c notConnect
  rw [same]
  exact deadline notAlive

theorem cleanDisconnect {ch : Change} (now : Instant) (c : Client) (stays : ch ≠ .disconnect) :
    (ch.apply now c).cleanDisconnect = c.cleanDisconnect := by
  by_cases connects : ∃ p, ch = .connect p
  · obtain ⟨p, rfl⟩ := connects
    rw [apply, Client.applyConnect, Client.reply_frame]
  · obtain ⟨_, _, _, _, _, _, _, _, _, _, same, -, flag, -⟩ :=
      ch.frame now c fun p same => connects ⟨p, same⟩
    rw [same]
    exact flag stays

theorem readBuf {ch : Change} (now : Instant) (c : Client) (unread : ∀ buf, ch ≠ .buffer buf) :
    (ch.apply now c).readBuf = c.readBuf := by
  by_cases connects : ∃ p, ch = .connect p
  · obtain ⟨p, rfl⟩ := connects
    rw [apply, Client.applyConnect, Client.reply_frame]
  · obtain ⟨_, _, _, _, _, _, _, _, _, _, same, -, -, buffer, -⟩ :=
      ch.frame now c fun p same => connects ⟨p, same⟩
    rw [same]
    exact buffer unread

theorem receivedQos2 {ch : Change} (now : Instant) (c : Client)
    (unpublished : ∀ pid, ch ≠ .publishQos2 pid) (unreleased : ∀ pid, ch ≠ .pubrel pid) :
    (ch.apply now c).receivedQos2 = c.receivedQos2 := by
  by_cases connects : ∃ p, ch = .connect p
  · obtain ⟨p, rfl⟩ := connects
    rw [apply, Client.applyConnect, Client.reply_frame]
  · obtain ⟨_, _, _, _, _, _, _, _, _, _, same, -, -, -, received, -⟩ :=
      ch.frame now c fun p same => connects ⟨p, same⟩
    rw [same]
    exact received unpublished unreleased

end Change

/-- The messages an act offers to connections. -/
def Act.Offers : Act → Str → Bytes → UInt8 → Prop
  | .deliver _ topic payload qos _, topic', payload', qos' =>
    topic' = topic ∧ payload' = payload ∧ qos' = qos
  | .publish topic payload qos _, topic', payload', qos' =>
    topic' = topic ∧ payload' = payload ∧ qos' ≤ qos
  | _, _, _, _ => False

/-- From `c` to `d` by accepted messages among those offered. -/
inductive Client.Fed (now : Instant) (offers : Str → Bytes → UInt8 → Prop) : Client → Client → Prop
  | refl (c : Client) : Fed now offers c c
  | snoc {c d e : Client} {topic : Str} {payload : Bytes} {qos : UInt8} {retain : Bool}
      (before : Fed now offers c d) (offered : offers topic payload qos)
      (queued : d.offer now topic payload qos retain = .queued e) : Fed now offers c e

namespace Client.Fed

variable {now : Instant} {offers : Str → Bytes → UInt8 → Prop} {c d : Client}

theorem invariant (fed : Fed now offers c d) (P : Client → Prop)
    (kept : ∀ c d topic payload qos retain, offers topic payload qos → P c →
      c.offer now topic payload qos retain = .queued d → P d) (start : P c) : P d := by
  induction fed with
  | refl => exact start
  | snoc _ offered queued ih => exact kept _ _ _ _ _ _ offered ih queued

theorem offered (fed : Fed now offers c d) : Offered c d :=
  fed.invariant (Offered c)
    (fun e f topic payload qos retain _ before queued =>
      before.trans (offered_of_offer e f now topic payload qos retain queued)) (.refl c)

theorem of_serve {topic : Str} {payload : Bytes} {qs : List UInt8}
    (all : ∀ q ∈ qs, offers topic payload q)
    (served : serve now topic payload qs (some c) = some d) : Fed now offers c d :=
  serve_induction (Fed now offers c) now topic payload qs c d
    (fun _ _ q member before queued => before.snoc (all q member) queued) (.refl c) served

end Client.Fed

/-- A connection that is there after a delivery was there before. -/
theorem Broker.fed_of_deliver (b : Broker) (t : Token) (topic : Str) (payload : Bytes)
    (qos : UInt8) (retain : Bool) (k : Token) (d : Client)
    (found : (b.deliverTo t topic payload qos retain).1.clients.get? k = some d) :
    ∃ c, b.clients.get? k = some c ∧
      Client.Fed b.now (Act.deliver t topic payload qos retain).Offers c d := by
  by_cases same : k = t
  · subst same
    cases before : b.clients.get? k with
    | none =>
      rw [deliverTo_absent b k topic payload qos retain before, before] at found
      cases found
    | some c =>
      cases result : c.offer b.now topic payload qos retain with
      | queued e =>
        rw [deliverTo_queued b k topic payload qos retain c e before result] at found
        simp only [HashMap.get?_insert_self, Option.some.injEq] at found
        subst found
        exact ⟨c, rfl, (Client.Fed.refl c).snoc ⟨rfl, rfl, rfl⟩ result⟩
      | refused =>
        rw [deliverTo_refused b k topic payload qos retain c before result, before] at found
        exact ⟨d, found, .refl d⟩
      | dropped =>
        rw [deliverTo_dropped b k topic payload qos retain c before result] at found
        simp at found
  · rw [deliverTo_get?_ne b t k topic payload qos retain same] at found
    exact ⟨d, found, .refl d⟩

theorem Broker.forwards_le {b : Broker} {t : Token} {topic : Str} {srcQos q : UInt8}
    (member : q ∈ b.forwards t topic srcQos) : q ≤ srcQos := by
  obtain ⟨s, -, rfl⟩ := List.mem_map.mp (List.mem_reverse.mp member)
  exact Std.min_le_left

theorem Broker.Published.fed {b b' : Broker} {topic : Str} {payload : Bytes} {qos : UInt8}
    {retain : Bool} (spec : Published b b' topic payload qos retain) (k : Token) (d : Client)
    (found : b'.clients.get? k = some d) :
    ∃ c, b.clients.get? k = some c ∧
      Client.Fed b.now (Act.publish topic payload qos retain).Offers c d := by
  rw [spec.slots k] at found
  cases before : b.clients.get? k with
  | none => simp [before] at found
  | some c =>
    rw [before] at found
    exact ⟨c, rfl, .of_serve (fun q member => ⟨rfl, rfl, forwards_le member⟩) found⟩

/-! ### What an act leaves alone -/

/-- Acts on the tables around the clients. -/
def Act.SparesClients : Act → Prop
  | .change .. | .deliver .. | .publish .. | .accept .. | .drop _ => False
  | _ => True

/-- Only bookkeeping moves the clock, only an accept hands out a token, only `publish` writes the
retained table, and wills are logged by an act of their own. -/
structure Act.Framed (a : Act) (b b' : Broker) : Prop where
  now : (∀ after, a ≠ .account after) → b'.now = b.now
  nextToken : (∀ h₁ h₂, a ≠ .accept h₁ h₂) → b'.nextToken = b.nextToken
  retained : (∀ topic payload qos retain, a ≠ .publish topic payload qos retain) →
    b'.retained = b.retained
  willLog : (∀ t will, a ≠ .logWill t will) → b'.willLog = b.willLog
  clients : a.SparesClients → b'.clients = b.clients

theorem Act.framed {a : Act} {b b' : Broker} (healthy : b.Healthy) (done : a.run b = .ok b') :
    a.Framed b b' := by
  cases a with
  | change t ch =>
    obtain ⟨c, -, rfl⟩ := Broker.modifyClient_found done
    exact ⟨fun _ => rfl, fun _ => rfl, fun _ => rfl, fun _ => rfl, False.elim⟩
  | deliver t topic payload qos retain =>
    cases done
    obtain ⟨_, _, _, frame⟩ := b.deliverTo_frame t topic payload qos retain
    rw [frame]
    exact ⟨fun _ => rfl, fun _ => rfl, fun _ => rfl, fun _ => rfl, False.elim⟩
  | publish topic payload qos retain =>
    have spec := Act.publish_ok healthy.indexed done
    rw [spec.frame]
    exact ⟨fun _ => rfl, fun _ => rfl, fun other => absurd rfl (other topic payload qos retain),
      fun _ => rfl, False.elim⟩
  | addSub filter t qos =>
    cases done
    obtain ⟨_, _, frame⟩ := b.addSub_frame filter t qos
    rw [frame]
    exact ⟨fun _ => rfl, fun _ => rfl, fun _ => rfl, fun _ => rfl, fun _ => rfl⟩
  | unsubscribe t filters =>
    cases done
    obtain ⟨_, _, frame⟩ := b.unsubscribe_frame t filters
    rw [frame]
    exact ⟨fun _ => rfl, fun _ => rfl, fun _ => rfl, fun _ => rfl, fun _ => rfl⟩
  | eraseSession cid =>
    cases done
    obtain ⟨_, frame⟩ := b.eraseSession_frame cid
    rw [frame]
    exact ⟨fun _ => rfl, fun _ => rfl, fun _ => rfl, fun _ => rfl, fun _ => rfl⟩
  | accept h₁ h₂ =>
    cases done
    exact ⟨fun _ => rfl, fun other => absurd rfl (other h₁ h₂), fun _ => rfl, fun _ => rfl, False.elim⟩
  | logWill t will =>
    cases done
    exact ⟨fun _ => rfl, fun _ => rfl, fun _ => rfl, fun other => absurd rfl (other t will),
      fun _ => rfl⟩
  | persist t =>
    obtain ⟨_, _, rfl⟩ := b.persistSession_frame b' t done
    exact ⟨fun _ => rfl, fun _ => rfl, fun _ => rfl, fun _ => rfl, fun _ => rfl⟩
  | drop t =>
    cases done
    obtain ⟨_, _, frame⟩ := b.dropClient_frame t
    rw [frame]
    exact ⟨fun _ => rfl, fun _ => rfl, fun _ => rfl, fun _ => rfl, False.elim⟩
  | account after =>
    cases done
    exact ⟨fun other => absurd rfl (other after), fun _ => rfl, fun _ => rfl, fun _ => rfl, fun _ => rfl⟩

/-! ### The records of the connections -/

/-- Where the record of a connection comes from. -/
theorem Act.survivor {a : Act} {b b' : Broker} (healthy : b.Healthy) (done : a.run b = .ok b')
    {k : Token} {d : Client} (found : b'.clients.get? k = some d) :
    (∃ h₁ h₂, a = .accept h₁ h₂ ∧ k = b.nextToken ∧ d = .accepted k h₁ h₂) ∨
      ∃ c, b.clients.get? k = some c ∧
        ((∃ ch, a = .change k ch ∧ d = ch.apply b.now c) ∨ Client.Fed b.now a.Offers c d) := by
  cases a with
  | change t ch =>
    obtain ⟨c, before, rfl⟩ := Broker.modifyClient_found done
    rw [HashMap.get?_insert] at found
    split at found
    next same =>
      subst same
      cases found
      exact .inr ⟨c, before, .inl ⟨ch, rfl, rfl⟩⟩
    next => exact .inr ⟨d, found, .inr (.refl d)⟩
  | deliver t topic payload qos retain =>
    cases done
    obtain ⟨c, before, fed⟩ := b.fed_of_deliver t topic payload qos retain k d found
    exact .inr ⟨c, before, .inr fed⟩
  | publish topic payload qos retain =>
    have spec := Act.publish_ok healthy.indexed done
    obtain ⟨c, before, fed⟩ := spec.fed k d found
    exact .inr ⟨c, before, .inr fed⟩
  | accept h₁ h₂ =>
    cases done
    simp only [Broker.accept, HashMap.get?_insert] at found
    split at found
    next same =>
      cases found
      exact .inl ⟨h₁, h₂, rfl, same, by rw [same]⟩
    next => exact .inr ⟨d, found, .inr (.refl d)⟩
  | drop t =>
    cases done
    obtain ⟨_, _, frame⟩ := b.dropClient_frame t
    rw [frame] at found
    simp only [HashMap.get?_erase] at found
    split at found
    · cases found
    · exact .inr ⟨d, found, .inr (.refl d)⟩
  | _ =>
    have same := (Act.framed healthy done).clients trivial
    exact .inr ⟨d, same ▸ found, .inr (.refl d)⟩

/-- What an act keeps of every connection, said of one connection at a time. -/
theorem Act.each_client (P : Client → Prop) {a : Act} {b b' : Broker} (healthy : b.Healthy)
    (done : a.run b = .ok b')
    (fresh : ∀ t h₁ h₂, P (.accepted t h₁ h₂))
    (changed : ∀ t ch c, a = .change t ch → P c → P (ch.apply b.now c))
    (offered : ∀ c d topic payload qos retain, a.Offers topic payload qos → P c →
      c.offer b.now topic payload qos retain = .queued d → P d)
    (before : ∀ t c, b.clients.get? t = some c → P c) :
    ∀ t c, b'.clients.get? t = some c → P c := by
  intro k d found
  rcases Act.survivor healthy done found with ⟨h₁, h₂, -, -, rfl⟩ | ⟨c, there, ⟨ch, same, rfl⟩ | fed⟩
  · exact fresh k h₁ h₂
  · exact changed k ch c same (before k c there)
  · exact fed.invariant P offered (before k c there)

/-! ### Subscriptions and the clock -/

/-- What an act can do to the subscriptions. -/
theorem Act.subs_cases {a : Act} {b b' : Broker} (healthy : b.Healthy) (done : a.run b = .ok b') :
    (b'.subs = b.subs ∧ ∀ t, a ≠ .drop t) ∨
      (∃ topic payload qos retain, a = .publish topic payload qos retain ∧
        b.Published b' topic payload qos retain) ∨
      (∃ filter t qos, a = .addSub filter t qos ∧ b'.subs = b.subs ++ [⟨filter, t, qos⟩]) ∨
      (∃ t filters, a = .unsubscribe t filters ∧
        b'.subs = b.subs.filter fun s => !(s.token == t && filters.contains s.filter)) ∨
      ∃ t, a = .drop t ∧ b'.clients = b.clients.erase t ∧
        b'.subs = b.subs.filter fun s => s.token != t := by
  cases a with
  | change t ch =>
    obtain ⟨e, -, rfl⟩ := Broker.modifyClient_found done
    exact .inl ⟨rfl, by simp⟩
  | deliver t topic payload qos retain =>
    cases done
    obtain ⟨_, _, _, frame⟩ := b.deliverTo_frame t topic payload qos retain
    exact .inl ⟨by rw [frame], by simp⟩
  | publish topic payload qos retain =>
    exact .inr (.inl ⟨_, _, _, _, rfl, Act.publish_ok healthy.indexed done⟩)
  | addSub filter t qos =>
    cases done
    obtain ⟨_, _, frame⟩ := b.addSub_frame filter t qos
    exact .inr (.inr (.inl ⟨_, _, _, rfl, by rw [frame]⟩))
  | unsubscribe t filters =>
    cases done
    obtain ⟨_, _, frame⟩ := b.unsubscribe_frame t filters
    exact .inr (.inr (.inr (.inl ⟨_, _, rfl, by rw [frame]⟩)))
  | eraseSession cid =>
    cases done
    obtain ⟨_, frame⟩ := b.eraseSession_frame cid
    exact .inl ⟨by rw [frame], by simp⟩
  | persist t =>
    obtain ⟨_, _, rfl⟩ := b.persistSession_frame b' t done
    exact .inl ⟨rfl, by simp⟩
  | drop t =>
    cases done
    obtain ⟨_, _, frame⟩ := b.dropClient_frame t
    exact .inr (.inr (.inr (.inr ⟨t, rfl, by rw [frame], by rw [frame]⟩)))
  -- the others do not come near the list
  | accept h₁ h₂ =>
    cases done
    exact .inl ⟨rfl, by simp⟩
  | logWill t will =>
    cases done
    exact .inl ⟨rfl, by simp⟩
  | account after =>
    cases done
    exact .inl ⟨rfl, by simp⟩

/-- Time passes in one direction. -/
theorem Op.now_le {op : Op} {b b' : Broker} {out : Outcome} (healthy : b.Healthy)
    (done : op.run b = .ok (b', out)) : b.now ≤ b'.now := by
  refine (op.acts_complying healthy done).keeps healthy (fun s => b.now ≤ s.now) ?_ (Nat.le_refl _)
  rintro s a s' healthy later ⟨-, answers⟩ next
  refine Nat.le_trans later ?_
  cases a with
  | account after =>
    cases next
    exact answers
  | _ => exact Nat.le_of_eq ((Act.framed healthy next).now (by simp)).symm

/-! ### Tokens are used once -/

theorem Act.nextToken_le {a : Act} {b b' : Broker} (healthy : b.Healthy) (done : a.run b = .ok b') :
    b.nextToken ≤ b'.nextToken := by
  cases a with
  | accept h₁ h₂ =>
    cases done
    exact Nat.le_succ _
  | _ => exact Nat.le_of_eq ((Act.framed healthy done).nextToken (by simp)).symm

/-- A token that was handed out and is not connected stays that way. -/
theorem Act.absent {a : Act} {b b' : Broker} (healthy : b.Healthy) (done : a.run b = .ok b')
    {k : Token} (given : k < b.nextToken) (gone : b.clients.get? k = none) :
    b'.clients.get? k = none := by
  by_contra there
  obtain ⟨d, found⟩ := Option.ne_none_iff_exists'.mp there
  rcases Act.survivor healthy done found with ⟨_, _, -, fresh, -⟩ | ⟨c, before, -⟩
  · exact absurd fresh (Nat.ne_of_lt given)
  · rw [gone] at before
    cases before

/-- The same for an operation. -/
theorem Op.absent {op : Op} {b b' : Broker} {out : Outcome} (healthy : b.Healthy)
    (done : op.run b = .ok (b', out)) {k : Token} (given : k < b.nextToken)
    (gone : b.clients.get? k = none) : b'.clients.get? k = none := by
  refine ((op.acts healthy done).keeps healthy (fun s => k < s.nextToken ∧ s.clients.get? k = none) ?_
    ⟨given, gone⟩).2
  rintro s a s' healthy ⟨given, gone⟩ - next
  exact ⟨Nat.lt_of_lt_of_le given (Act.nextToken_le healthy next), Act.absent healthy next given gone⟩

/-- What every change the operation permits and every delivery keeps of a record holds of a
connection that is still there afterwards. -/
theorem Op.record_invariant {op : Op} {b b' : Broker} {out : Outcome} (healthy : b.Healthy)
    (done : op.run b = .ok (b', out)) {k : Token} (given : k < b.nextToken) (P : Client → Prop)
    (changed : ∀ now ch c, op.permits (.change k ch) → P c → P (ch.apply now c))
    (offered : ∀ s a c d topic payload qos retain, op.conforms b s a → a.Offers topic payload qos →
      c.offer s.now topic payload qos retain = .queued d → P c → P d)
    (start : ∀ c, b.clients.get? k = some c → P c) : ∀ d, b'.clients.get? k = some d → P d := by
  refine ((op.acts healthy done).keeps healthy (fun s => k < s.nextToken ∧
    ∀ d, s.clients.get? k = some d → P d) ?_ ⟨given, start⟩).2
  rintro s a s' healthy ⟨given, holds⟩ ok next
  refine ⟨Nat.lt_of_lt_of_le given (Act.nextToken_le healthy next), fun d found => ?_⟩
  rcases Act.survivor healthy next found with ⟨_, _, -, fresh, -⟩ | ⟨c, before, ⟨ch, rfl, rfl⟩ | fed⟩
  · exact absurd fresh (Nat.ne_of_lt given)
  · exact changed s.now ch c ok.1 (holds c before)
  · exact fed.invariant P (fun c d topic payload qos retain among kept queued =>
      offered s a c d topic payload qos retain ok among queued kept) (holds c before)

theorem Op.nextToken_le {op : Op} {b b' : Broker} {out : Outcome} (healthy : b.Healthy)
    (done : op.run b = .ok (b', out)) : b.nextToken ≤ b'.nextToken := by
  refine (op.acts healthy done).keeps healthy (fun s => b.nextToken ≤ s.nextToken) ?_ (Nat.le_refl _)
  exact fun s a s' healthy given _ next => Nat.le_trans given (Act.nextToken_le healthy next)

/-- Every connection carries a token that was handed out. -/
def Broker.Numbered (b : Broker) : Prop := ∀ t c, b.clients.get? t = some c → t < b.nextToken

theorem Broker.Numbered.act {a : Act} {b b' : Broker} (numbered : b.Numbered) (healthy : b.Healthy)
    (done : a.run b = .ok b') : b'.Numbered := by
  intro k d found
  rcases Act.survivor healthy done found with ⟨_, _, rfl, rfl, -⟩ | ⟨c, before, -⟩
  · cases done
    exact Nat.lt_succ_self _
  · exact Nat.lt_of_lt_of_le (numbered k c before) (Act.nextToken_le healthy done)

theorem Broker.Numbered.op {op : Op} {b b' : Broker} {out : Outcome} (numbered : b.Numbered)
    (healthy : b.Healthy) (done : op.run b = .ok (b', out)) : b'.Numbered :=
  (op.acts healthy done).keeps healthy Broker.Numbered
    (fun _ _ _ healthy numbered _ next => numbered.act healthy next) numbered

theorem Broker.numbered_startup {b : Broker} (start : b.Startup) : b.Numbered := by
  intro k c found
  cases (start.unconnected k).symm.trans found

theorem Loop.Reachable.numbered {s : Loop} (reached : s.Reachable) : s.broker.Numbered :=
  (Loop.reachable_invariant Broker.Numbered (fun _ start => Broker.numbered_startup start)
    (fun _ _ _ healthy numbered done => numbered.act healthy done) reached).2

end MioBroker
