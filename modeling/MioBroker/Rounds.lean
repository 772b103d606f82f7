import MioBroker.Interrupted
import MioBroker.Retained
import MioBroker.Subscribing

/-!
# A client that comes and goes

The subscriptions of a persistent client go from the list of the broker to its session, with the
session to disk and into the next process, and back into the list of that one. However often they go
round, they stay the same set.
-/
namespace MioBroker

open Rust

/-- What one round is given: the next process, the connection it accepts, and the CONNECT. -/
structure Round where
  h : Hashers
  now : Instant
  h₁ : RandomState UInt16
  h₂ : RandomState UInt16
  connect : Packet

/-- A CONNECT that takes up the session of `cid`. -/
def Round.Resumes (r : Round) (cid : Str) : Prop :=
  r.connect.ptype = CONNECT ∧ ∃ q, parseConnect r.connect.body = .ok (some q) ∧
    q.cid = cid ∧ q.cleanSession = false

/-- It leaves no will. -/
def Round.Unwilled (r : Round) : Prop :=
  ∀ q, parseConnect r.connect.body = .ok (some q) → q.willFlag = false

/-! ### Checking that tables fit -/

instance (topic : Str) (payload : Bytes) (qos : UInt8) : Decidable (Message.Fits topic payload qos) :=
  decidable_of_iff (topic.length ≤ 65535 ∧ payload.length ≤ 65535 ∧ qos ≤ 2)
    ⟨fun ⟨named, short, low⟩ => ⟨named, short, low⟩, fun fits => ⟨fits.topic, fits.payload, fits.qos⟩⟩

instance (cid : Str) (sess : SessionState) : Decidable (sess.Fits cid) :=
  decidable_of_iff (cid.length ≤ 65535 ∧ sess.subs.length ≤ 65535 ∧
      (∀ sub ∈ sess.subs, sub.1.length ≤ 65535 ∧ sub.2 ≤ 2) ∧ sess.offline.length ≤ 65535 ∧
      ∀ m ∈ sess.offline, Message.Fits m.1 m.2.1 m.2.2)
    ⟨fun ⟨named, few, subs, short, offline⟩ => ⟨named, few, subs, short, offline⟩,
      fun fits => ⟨fits.cid, fits.subCount, fits.subs, fits.offlineCount, fits.offline⟩⟩

instance (retained : HashMap Str (Bytes × UInt8)) (sessions : HashMap Str SessionState) :
    Decidable (StateFits retained sessions) :=
  decidable_of_iff (retained.size ≤ 65535 ∧ (∀ e ∈ retained.iter, Message.Fits e.1 e.2.1 e.2.2) ∧
      sessions.size ≤ 65535 ∧ ∀ e ∈ sessions.iter, e.2.Fits e.1)
    ⟨fun ⟨few, messages, fewer, entries⟩ => ⟨few,
        fun topic payload qos found => messages (topic, payload, qos) ((HashMap.mem_iter _ _ _).mpr found),
        fewer, fun cid sess found => entries (cid, sess) ((HashMap.mem_iter _ _ _).mpr found)⟩,
      fun fits => ⟨fits.retainedCount,
        fun e member => fits.retained e.1 e.2.1 e.2.2 ((HashMap.mem_iter _ _ _).mp member),
        fits.sessionCount, fun e member => fits.sessions e.1 e.2 ((HashMap.mem_iter _ _ _).mp member)⟩⟩

namespace Broker

/-- The client leaves, the next process starts with the tables of this one, and the client connects
to it. -/
def goRound (b : Broker) (t : Token) (r : Round) : Run (Broker × Token × Reply) := do
  let d ← b.removeClient t
  let fresh := restarted r.h r.now ⟨some (serializeState d.retained d.sessions), none⟩
  let (b, reply) ← (fresh.accept r.h₁ r.h₂).dispatch fresh.nextToken r.connect
  pure (b, fresh.nextToken, reply)

def goRounds : List Round → Broker → Token → Run (Broker × Token)
  | [], b, t => pure (b, t)
  | r :: rs, b, t => do
    let (b, t, _) ← b.goRound t r
    goRounds rs b t

/-- The connection `t` of `b` is where the connection `t₀` of `b₀` was: it holds the same
subscriptions, each once, nothing is stored for it, what is stored for others is as it was, and a
message is offered to it once for each of its subscriptions that match, and to nobody else. -/
structure Restored (b₀ : Broker) (t₀ : Token) (cid : Str) (b : Broker) (t : Token) : Prop where
  connected : ∃ c, b.clients.get? t = some c ∧ c.clientId = cid
  subs : ∀ sub, sub ∈ b.subsOf t ↔ sub ∈ b₀.subsOf t₀
  once : (b.subsOf t).Nodup
  consumed : b.sessions.get? cid = none
  others : ∀ other, other ≠ cid → b.sessions.get? other = b₀.sessions.get? other
  routed : ∀ topic payload srcQos retain, ∃ b' n, b.publish topic payload srcQos retain = .ok (b', n) ∧
    ∀ k, b'.clients.get? k = Client.serve b.now topic payload
      (if k = t then (((b.subsOf t).filter fun sub => topicMatches sub.1 topic).map fun sub =>
        min srcQos sub.2).reverse else []) (b.clients.get? k)

/-! ### Leaving -/

variable {b b₀ b' : Broker} {t t₀ : Token} {c : Client} {cid : Str}

/-- The session a client leaves for which nothing is stored: its subscriptions, each once. -/
def leaves (b : Broker) (t : Token) : SessionState := ⟨(b.subsOf t).foldl addMissing [], []⟩

theorem leaves_spec (b : Broker) (t : Token) :
    (b.leaves t).subs.Nodup ∧ ∀ sub, sub ∈ (b.leaves t).subs ↔ sub ∈ b.subsOf t := by
  obtain ⟨new, same, distinct, members⟩ := foldl_addMissing (b.subsOf t) []
  have subs : (b.leaves t).subs = new := by rw [leaves, same, List.nil_append]
  rw [subs]
  exact ⟨distinct, fun sub => by simp [members]⟩

theorem length_leaves_le (b : Broker) (t : Token) : (b.leaves t).subs.length ≤ (b.subsOf t).length := by
  obtain ⟨distinct, members⟩ := b.leaves_spec t
  exact (List.subperm_of_subset distinct fun sub => (members sub).mp).length_le

/-- A client without a will and without unsent reliable packets leaves its subscriptions. -/
theorem removeClient_leaves (found : b.clients.get? t = some c) (persistent : c.Persistent)
    (unwilled : c.willFlag = false) (sent : c.reliablePackets = [])
    (unstored : b.sessions.get? c.clientId = none) :
    ∃ d, b.removeClient t = .ok d ∧ d.retained = b.retained ∧
      d.sessions = b.sessions.insert c.clientId (b.leaves t) := by
  -- Without a will nothing is published on the way out.
  have uncalled : b.willCall t = none := by simp [willCall, found, Client.will, unwilled]
  have left : b.departure t c [] = b.leaves t := by simp [departure, leaves, unstored]
  obtain ⟨e, persisted, retained, sessions⟩ : ∃ e, b.persistSession t = .ok e ∧
      e.retained = b.retained ∧ e.sessions = b.sessions.insert c.clientId (b.leaves t) := by
    refine ⟨{ b with sessions := b.sessions.insert c.clientId (b.leaves t), dirty := true }, ?_, rfl, rfl⟩
    rw [persistSession_persistent found persistent, sent, ← left]
    rfl
  obtain ⟨_, _, _, saved⟩ := save_frame (e.dropClient t)
  obtain ⟨_, _, dropped⟩ := e.dropClient_frame t
  refine ⟨(e.dropClient t).save, ?_, ?_, ?_⟩
  · rw [removeClient_eq, afterWill_none uncalled, Run.ok_bind, persisted]
    rfl
  · rw [saved, dropped, retained]
  · rw [saved, dropped, sessions]

/-! ### The next process -/

theorem restarted_equiv (h : Hashers) (now : Instant) (fits : StateFits b.retained b.sessions) :
    (restarted h now ⟨some (serializeState b.retained b.sessions), none⟩).retained.Equiv b.retained ∧
      (restarted h now ⟨some (serializeState b.retained b.sessions), none⟩).sessions.Equiv b.sessions := by
  simp only [restarted, loadState, new, deserializeState_serialize h fits]
  exact ⟨insertAll_equiv _ _, insertAll_equiv _ _⟩

theorem startup_restarted (h : Hashers) (now : Instant) (file : StateFile) :
    (restarted h now file).Startup := ⟨h, now, { file with fault := none }, rfl⟩

/-! ### Coming back -/

/-- A CONNECT on a new connection to a process without connections takes up a session without
messages. -/
theorem Startup.resume (start : b.Startup) {r : Round} (resumes : r.Resumes cid) {sess : SessionState}
    (stored : b.sessions.get? cid = some sess) (silent : sess.offline = []) :
    ∃ b' q, (b.accept r.h₁ r.h₂).dispatch b.nextToken r.connect = .ok (b', .ok ()) ∧ b'.Healthy ∧
      parseConnect r.connect.body = .ok (some q) ∧ q.cid = cid ∧ q.cleanSession = false ∧
      b'.clients.get? b.nextToken =
        some (Client.applyConnect (.accepted b.nextToken r.h₁ r.h₂) q (b.accept r.h₁ r.h₂).now) ∧
      b'.subs = entries b.nextToken sess.subs ∧ b'.retained.Equiv b.retained ∧
      ∀ k, b'.sessions.get? k = if k = cid then none else b.sessions.get? k := by
  obtain ⟨isConnect, q, parse, rfl, persistent⟩ := resumes
  have found : (b.accept r.h₁ r.h₂).clients.get? b.nextToken = some (.accepted b.nextToken r.h₁ r.h₂) :=
    HashMap.get?_insert_self _ _ _
  obtain ⟨d, clients, sessions, -, restored, handled⟩ := connect_before_flush found parse persistent
  -- The session has no backlog, so the flush only erases it.
  have flushed : d.flushSession b.nextToken q.cid = (d.eraseSession q.cid, .ok ()) := by
    rw [flushSession, sessions, show (b.accept r.h₁ r.h₂).sessions = b.sessions from rfl, stored]
    simp [flushList, silent, deliverEach]
  rw [flushed] at handled
  obtain ⟨_, erased⟩ := d.eraseSession_frame q.cid
  have dispatched : (b.accept r.h₁ r.h₂).dispatch b.nextToken r.connect =
      .ok ((d.eraseSession q.cid).countConnect, .ok ()) := by
    rw [dispatch, if_pos isConnect, handled]
  have ran : (Op.packet b.nextToken r.connect).run (b.accept r.h₁ r.h₂) =
      .ok ((d.eraseSession q.cid).countConnect, .ok []) := by
    simp only [Op.run, dispatched]
    rfl
  have healthy : (b.accept r.h₁ r.h₂).Healthy :=
    start.healthy.act (.accept r.h₁ r.h₂) rfl
  refine ⟨_, q, dispatched, healthy.op _ ran, parse, rfl, persistent, ?_, ?_, ?_, ?_⟩
  · rw [countConnect, erased, clients]
    exact HashMap.get?_insert_self _ _ _
  · have before : (b.accept r.h₁ r.h₂).subs = [] := start.unsubscribed
    rw [countConnect, erased, restored sess stored, before]
    rfl
  · intro topic
    -- CONNECT publishes nothing, and the retained messages stay as they are.
    have uncalled : (Op.packet b.nextToken r.connect).publishCall (b.accept r.h₁ r.h₂) = none := by
      simp [Op.publishCall, packetCall, isConnect, show CONNECT ≠ PUBLISH by decide]
    have kept := Op.retained healthy ran topic
    rw [uncalled, Option.elim_none] at kept
    exact kept
  · intro k
    change (d.eraseSession q.cid).sessions.get? k = _
    rw [eraseSession_get?, sessions]
    rfl

/-! ### One round -/

/-- A connection that can go round: what it holds is what the connection `t₀` of `b₀` held, and no
more than that is stored. -/
structure Keeps (b₀ : Broker) (t₀ : Token) (cid : Str) (b : Broker) (t : Token) : Prop where
  client : ∃ c, b.clients.get? t = some c ∧ c.Persistent ∧ c.clientId = cid ∧ c.willFlag = false ∧
    c.reliablePackets = []
  subs : ∀ sub, sub ∈ b.subsOf t ↔ sub ∈ b₀.subsOf t₀
  consumed : b.sessions.get? cid = none
  others : ∀ other, other ≠ cid → b.sessions.get? other = b₀.sessions.get? other
  retained : b.retained.Equiv b₀.retained

/-- Tables with the same contents fit, too, when the session of the client has the same
subscriptions. -/
theorem Keeps.fits (keeps : Keeps b₀ t₀ cid b t)
    (fits : StateFits b₀.retained (b₀.sessions.insert cid (b₀.leaves t₀))) :
    StateFits b.retained (b.sessions.insert cid (b.leaves t)) := by
  have first := fits.sessions cid _ (HashMap.get?_insert_self _ _ _)
  obtain ⟨distinct, members⟩ := b.leaves_spec t
  -- The first departure already had the same subscriptions, up to repetition.
  have same : ∀ sub, sub ∈ (b.leaves t).subs ↔ sub ∈ (b₀.leaves t₀).subs := fun sub =>
    (members sub).trans ((keeps.subs sub).trans ((b₀.leaves_spec t₀).2 sub).symm)
  -- The entry that is written is no longer than the first one was.
  have origin : ∀ k sess, (b.sessions.insert cid (b.leaves t)).get? k = some sess →
      sess.Fits k ∧ ∃ before, (b₀.sessions.insert cid (b₀.leaves t₀)).get? k = some before := by
    intro k sess there
    rw [HashMap.get?_insert] at there
    split at there
    next own =>
      cases there
      subst own
      refine ⟨⟨first.cid, ?_, fun sub inside => first.subs sub ((same sub).mp inside), Nat.zero_le _,
        fun m inside => by cases inside⟩, _, HashMap.get?_insert_self _ _ _⟩
      have fewer := (List.subperm_of_subset distinct fun sub => (same sub).mp).length_le
      exact Nat.le_trans fewer first.subCount
    next other =>
      have before : (b₀.sessions.insert cid (b₀.leaves t₀)).get? k = some sess := by
        rw [HashMap.get?_insert, if_neg other, ← keeps.others k other]
        exact there
      exact ⟨fits.sessions k sess before, sess, before⟩
  refine ⟨?_, fun topic payload qos there => fits.retained topic payload qos ?_, ?_,
    fun k sess there => (origin k sess there).1⟩
  · refine Nat.le_trans (HashMap.size_le_of_keys fun k v there => ?_) fits.retainedCount
    exact ⟨v, (keeps.retained k).symm.trans there⟩
  · exact (keeps.retained topic).symm.trans there
  · refine Nat.le_trans (HashMap.size_le_of_keys fun k sess there => ?_) fits.sessionCount
    exact (origin k sess there).2

theorem subsOf_entries (subs : List (Str × UInt8)) (same : b.subs = entries t subs) (k : Token) :
    b.subsOf k = if k = t then subs else [] := by
  rw [subsOf, same, entries, List.filter_map]
  split
  next own => simp [own, Function.comp_def]
  next other => simp [Function.comp_def, Ne.symm other]

/-- A round brings the client back to where it was. -/
theorem Keeps.round (keeps : Keeps b₀ t₀ cid b t)
    (fits : StateFits b₀.retained (b₀.sessions.insert cid (b₀.leaves t₀))) {r : Round}
    (resumes : r.Resumes cid) :
    ∃ b' t', b.goRound t r = .ok (b', t', .ok ()) ∧ Restored b₀ t₀ cid b' t' ∧
      (b'.subsOf t').length ≤ (b.subsOf t).length ∧ (r.Unwilled → Keeps b₀ t₀ cid b' t') := by
  obtain ⟨c, found, persistent, rfl, unwilled, sent⟩ := keeps.client
  obtain ⟨d, removed, retained, sessions⟩ :=
    removeClient_leaves found persistent unwilled sent keeps.consumed
  -- What is written to disk fits the format, so the next start reads it back.
  have saved : StateFits d.retained d.sessions := by
    rw [retained, sessions]
    exact keeps.fits fits
  obtain ⟨loaded, loaded'⟩ := restarted_equiv r.h r.now saved
  have start := startup_restarted r.h r.now ⟨some (serializeState d.retained d.sessions), none⟩
  generalize running : restarted r.h r.now ⟨some (serializeState d.retained d.sessions), none⟩ = fresh
    at loaded loaded' start
  have stored : fresh.sessions.get? c.clientId = some (b.leaves t) := by
    rw [loaded' c.clientId, sessions, HashMap.get?_insert_self]
  obtain ⟨b', q, dispatched, healthy, parse, named, continued, there, subs, unretained, tables⟩ :=
    start.resume resumes stored rfl
  obtain ⟨distinct, members⟩ := b.leaves_spec t
  have held := subsOf_entries _ subs
  have own : b'.subsOf fresh.nextToken = (b.leaves t).subs := by rw [held, if_pos rfl]
  have same : ∀ sub, sub ∈ b'.subsOf fresh.nextToken ↔ sub ∈ b₀.subsOf t₀ := fun sub => by
    rw [own]
    exact (members sub).trans (keeps.subs sub)
  have consumed : b'.sessions.get? c.clientId = none := by rw [tables, if_pos rfl]
  have others : ∀ other, other ≠ c.clientId → b'.sessions.get? other = b₀.sessions.get? other := by
    intro other differ
    rw [tables, if_neg differ, loaded', sessions, HashMap.get?_insert_ne _ _ differ]
    exact keeps.others other differ
  refine ⟨b', fresh.nextToken, ?_, ⟨⟨_, there, named⟩, same, own ▸ distinct, consumed, others, ?_⟩, ?_, ?_⟩
  · rw [Broker.goRound, removed, Run.ok_bind, running]
    simp only [dispatched]
    rfl
  · intro topic payload srcQos retain
    obtain ⟨after, n, done, spec⟩ := b'.publish_spec healthy.indexed topic payload srcQos retain
    refine ⟨after, (n, 0), done, fun k => ?_⟩
    rw [spec.slots, forwards_subsOf]
    split
    next here => rw [here]
    next elsewhere =>
      rw [held, if_neg elsewhere]
      rfl
  · rw [own]
    exact b.length_leaves_le t
  · intro willless
    refine ⟨⟨_, there, ⟨continued, ?_⟩, named, willless q parse, rfl⟩, same, consumed, others, ?_⟩
    · change q.cid.isEmpty = false
      rw [named]
      exact persistent.2
    · intro topic
      rw [unretained topic, loaded topic, retained]
      exact keeps.retained topic

theorem Keeps.rounds {rs : List Round} (keeps : Keeps b₀ t₀ cid b t)
    (fits : StateFits b₀.retained (b₀.sessions.insert cid (b₀.leaves t₀)))
    (resume : ∀ r ∈ rs, r.Resumes cid ∧ r.Unwilled) :
    ∃ b' t', Broker.goRounds rs b t = .ok (b', t') ∧ Keeps b₀ t₀ cid b' t' := by
  induction rs generalizing b t with
  | nil => exact ⟨b, t, rfl, keeps⟩
  | cons r rs ih =>
    obtain ⟨resumes, unwilled⟩ := resume r List.mem_cons_self
    obtain ⟨d, k, went, -, -, again⟩ := keeps.round fits resumes
    obtain ⟨b', t', rest, keeps'⟩ := ih (again unwilled) fun r' later =>
      resume r' (List.mem_cons_of_mem _ later)
    refine ⟨b', t', ?_, keeps'⟩
    rw [Broker.goRounds, went, Run.ok_bind]
    exact rest

end Broker

/-- However many rounds a persistent client without a will makes for which nothing is stored and whose
state the file can hold, each of them succeeds and restores its subscriptions, with no more entries
than there were before it. -/
theorem subscriptions_survive (b : Broker) (t : Token) (c : Client)
    (found : b.clients.get? t = some c) (persistent : c.Persistent) (unwilled : c.willFlag = false)
    (sent : c.reliablePackets = []) (unstored : b.sessions.get? c.clientId = none)
    (fits : ∀ d, b.removeClient t = .ok d → StateFits d.retained d.sessions) (rs : List Round)
    (resume : ∀ r ∈ rs, r.Resumes c.clientId ∧ r.Unwilled) (r : Round) (last : r.Resumes c.clientId) :
    ∃ b₁ t₁ b₂ t₂, Broker.goRounds rs b t = .ok (b₁, t₁) ∧ b₁.goRound t₁ r = .ok (b₂, t₂, .ok ()) ∧
      Broker.Restored b t c.clientId b₂ t₂ ∧ (b₂.subsOf t₂).length ≤ (b₁.subsOf t₁).length := by
  obtain ⟨d, removed, retained, sessions⟩ :=
    Broker.removeClient_leaves found persistent unwilled sent unstored
  have saved := fits d removed
  rw [retained, sessions] at saved
  have keeps : Broker.Keeps b t c.clientId b t :=
    ⟨⟨c, found, persistent, rfl, unwilled, sent⟩, fun _ => .rfl, unstored, fun _ _ => rfl, fun _ => rfl⟩
  obtain ⟨b₁, t₁, went, keeps₁⟩ := keeps.rounds saved resume
  obtain ⟨b₂, t₂, again, restored, fewer, -⟩ := keeps₁.round saved last
  exact ⟨b₁, t₁, b₂, t₂, went, again, restored, fewer⟩

/-! ### Client `a` -/

/-- Client `a` comes back, with clean_session 0. -/
def returnA : Round :=
  ⟨⟨default, default, default, default⟩, 0, default, default,
    ⟨CONNECT, 0, [0, 4, 77, 81, 84, 84, 4, 0, 0, 0, 0, 1, 97]⟩⟩

theorem returnA_resumes : returnA.Resumes connectA.cid := ⟨rfl, connectA, parse_connectA, rfl, rfl⟩

theorem returnA_unwilled : returnA.Unwilled := by
  intro q parse
  cases parse_connectA.symm.trans parse
  rfl

/-- The connection `t` is the only one, and one of client `a` that can go round. -/
def Broker.aloneA (b : Broker) (t : Token) : Bool :=
  (b.clients.iter.all fun e => e.1 == t) &&
    ((b.clients.get? t).any fun c => c.clientId == connectA.cid && !c.cleanSession && !c.willFlag &&
      c.reliablePackets.isEmpty) &&
    match b.removeClient t with
    | .ok d => decide (StateFits d.retained d.sessions)
    | .error _ => false

theorem Broker.aloneA_spec {b : Broker} {t : Token} (alone : b.aloneA t = true) :
    (∀ k d, b.clients.get? k = some d → k = t) ∧
      (∃ c, b.clients.get? t = some c ∧ c.clientId = connectA.cid ∧ c.Persistent ∧ c.willFlag = false ∧
        c.reliablePackets = []) ∧
      ∀ d, b.removeClient t = .ok d → StateFits d.retained d.sessions := by
  simp only [aloneA, Bool.and_eq_true, List.all_eq_true, beq_iff_eq, Option.any_eq_true,
    Bool.not_eq_true', List.isEmpty_iff] at alone
  obtain ⟨⟨only, c, found, ⟨⟨named, kept⟩, unwilled⟩, sent⟩, saved⟩ := alone
  refine ⟨fun k d there => only (k, d) ((HashMap.mem_iter _ _ _).mpr there),
    ⟨c, found, named, ⟨kept, ?_⟩, unwilled, sent⟩, fun d removed => ?_⟩
  · rw [named]
    rfl
  · rw [removed] at saved
    exact of_decide_eq_true saved

/-- Client `a` subscribes to `t` with QoS 1 and goes round twice. -/
theorem subscriptions_survive_twice : ∃ (s : Loop) (b₁ b₂ : Broker) (t₁ t₂ : Token),
    s.broker.subsOf 1 = [(.fromUtf8Lossy [116], 1)] ∧
    Broker.goRounds [returnA] s.broker 1 = .ok (b₁, t₁) ∧ b₁.goRound t₁ returnA = .ok (b₂, t₂, .ok ()) ∧
    Broker.Restored s.broker 1 connectA.cid b₂ t₂ := by
  obtain ⟨s, -, checked⟩ := Loop.exists_after ([Io.listen, .connection] ++ List.replicate 3 Io.quiet ++
      [Io.read (connectBytes 0 97 ++ [0x82, 6, 0, 1, 0, 1, 116, 1]), .quiet, .quiet, .quiet])
    (fun s => s.broker.aloneA 1 && !s.broker.sessions.contains connectA.cid &&
      s.broker.subsOf 1 == [(.fromUtf8Lossy [116], 1)]) (by decide +kernel)
  simp only [Bool.and_eq_true, Bool.not_eq_true', beq_iff_eq] at checked
  obtain ⟨⟨alone, unstored⟩, subscribed⟩ := checked
  obtain ⟨-, ⟨c, found, named, persistent, unwilled, sent⟩, fits⟩ := Broker.aloneA_spec alone
  rw [HashMap.contains_eq_false] at unstored
  rw [← named] at unstored
  obtain ⟨b₁, t₁, b₂, t₂, went, again, restored, -⟩ := subscriptions_survive s.broker 1 c found persistent
    unwilled sent unstored fits [returnA]
    (fun r member => by
      cases List.mem_singleton.mp member
      exact ⟨named ▸ returnA_resumes, returnA_unwilled⟩)
    returnA (named ▸ returnA_resumes)
  exact ⟨s, b₁, b₂, t₁, t₂, subscribed, went, again, named ▸ restored⟩

/-- Client `a` connects twice, and the connection with a subscription ends: the other connection
comes back with it. -/
theorem subscriptions_merged : ¬∀ (s : Loop) (t : Token) (c : Client) (r : Round), s.Reachable →
    s.broker.clients.get? t = some c → c.Persistent →
    (∀ k d, s.broker.clients.get? k = some d → d.clientId = c.clientId → k = t) →
    c.willFlag = false → c.reliablePackets = [] → (∀ sub ∈ s.broker.subsOf t, sub.2 ≤ 2) →
    (∀ d, s.broker.removeClient t = .ok d → StateFits d.retained d.sessions) →
    r.Resumes c.clientId → r.Unwilled →
    ∃ b' t', s.broker.goRound t r = .ok (b', t', .ok ()) ∧
      Broker.Restored s.broker t c.clientId b' t' := by
  intro survive
  obtain ⟨s, done, checked⟩ := Loop.exists_after ([Io.listen, .connection, .connection] ++
      List.replicate 3 Io.quiet ++
      [Io.read (connectBytes 0 97 ++ [0x82, 6, 0, 1, 0, 1, 116, 1]), .quiet, .quiet, .quiet] ++
      [Io.read (connectBytes 0 97), .quiet, .quiet] ++ List.replicate 12 Io.quiet ++ [Io.read [], .quiet])
    (fun s => s.broker.aloneA 1 && (s.broker.subsOf 1).isEmpty &&
      match s.broker.goRound 1 returnA with
      | .ok (b, t, _) => !(b.subsOf t).isEmpty
      | .error _ => true) (by decide +kernel)
  simp only [Bool.and_eq_true, List.isEmpty_iff] at checked
  obtain ⟨⟨alone, unsubscribed⟩, more⟩ := checked
  obtain ⟨only, ⟨c, found, named, persistent, unwilled, sent⟩, fits⟩ := Broker.aloneA_spec alone
  obtain ⟨b', t', went, restored⟩ := survive s 1 c returnA (Loop.after_reachable done) found persistent
    (fun k d there _ => only k d there) unwilled sent (by simp [unsubscribed]) fits
    (named ▸ returnA_resumes) returnA_unwilled
  rw [went] at more
  have nothing : b'.subsOf t' = [] := by
    refine List.eq_nil_iff_forall_not_mem.mpr fun sub member => ?_
    have before := (restored.subs sub).mp member
    rw [unsubscribed] at before
    cases before
  simp [nothing] at more

end MioBroker
