import MioBroker.Flat

/-!
# The event loop refines the core

Without sessions, wills and retained messages every packet of the core is handled as there: the
index finds what a scan would find, and nothing is pruned as long as no queue overflows.
-/
namespace MioBroker

open Rust

namespace Client

/-- A connection of the core between two packets. -/
structure Plain (c : Client) : Prop where
  readBuf : c.readBuf = []
  cleanSession : c.cleanSession = true
  willFlag : c.willFlag = false

/-- `d` is `c` with more unreliable packets in its queue; other fields may differ. -/
structure Pushed (c : Client) (pkts : List Bytes) (d : Client) : Prop where
  plain : d.Plain
  queue : d.writeQueue = c.writeQueue ++ pkts.map fun p => (false, p)

theorem pushed_reply {c d : Client} (plain : d.Plain) (same : d.writeQueue = c.writeQueue)
    (pkt : Bytes) (room : c.writeQueue.length + 1 ≤ WRITE_QUEUE_CAP) :
    c.Pushed [pkt] (d.reply pkt) := by
  have made : d.reply pkt = { d with writeQueue := d.writeQueue ++ [(false, pkt)] } := by
    rw [reply, queueQos0_ok d pkt (same ▸ room)]
  rw [made, same]
  exact ⟨⟨plain.readBuf, plain.cleanSession, plain.willFlag⟩, rfl⟩

/-- Unreliable copies find room one after the other. -/
theorem serve_copies (now : Instant) (topic : Str) (payload : Bytes) (n : Nat) (c : Client)
    (room : c.writeQueue.length + n ≤ WRITE_QUEUE_CAP) :
    serve now topic payload (List.replicate n 0) (some c) = some { c with
      writeQueue := c.writeQueue ++ List.replicate n (false, forwarded topic payload) } ∧
    failures now topic payload (List.replicate n 0) (some c) = 0 := by
  -- The frame at QoS 0 carries no packet id, so all copies are one and the same.
  have same : buildForward topic.bytes payload 0 none false false = forwarded topic payload := by
    simp [buildForward, forwardFlags, forwardBody, forwarded, field, show PUBLISH <<< 4 = 0x30 by decide]
  induction n generalizing c with
  | zero => simp [serve, failures]
  | succ n ih =>
    have queued := offer_qos0_room c now topic payload false (by omega)
    obtain ⟨served, none_failed⟩ := ih { c with
      writeQueue := c.writeQueue ++ [(false, buildForward topic.bytes payload 0 none false false)] }
      (by simp only [List.length_append, List.length_singleton]; omega)
    simp only [List.replicate_succ, serve, failures, queued, served, none_failed]
    simp [same]

end Client

namespace Broker

/-- The view of the core. -/
def flat (b : Broker) : Flat where
  subs := b.subs.map fun s => (s.filter, s.token)
  queues := fun k => (b.clients.get? k).map fun c => c.writeQueue.map Prod.snd

/-- A broker that has seen nothing but the core. -/
structure Plain (b : Broker) : Prop where
  indexed : b.Indexed
  retained : ∀ topic, b.retained.get? topic = none
  sessions : ∀ cid, b.sessions.get? cid = none
  clients : ∀ k c, b.clients.get? k = some c → c.Plain ∧ k < b.nextToken
  homed : ∀ s ∈ b.subs, s.qos = 0 ∧ ∃ c, b.clients.get? s.token = some c

/-- There is room for the packets `out`. -/
def Room (b : Broker) (out : Token → List Bytes) : Prop :=
  ∀ k c, b.clients.get? k = some c → c.writeQueue.length + (out k).length ≤ WRITE_QUEUE_CAP

/-- From `b` to `b'` the queues have got the packets `out`. -/
structure Sends (b b' : Broker) (out : Token → List Bytes) : Prop where
  plain : b'.Plain
  token : b'.nextToken = b.nextToken
  subs : b'.subs = b.subs
  slots : ∀ k, Option.Rel (fun c d => c.Pushed (out k) d) (b.clients.get? k) (b'.clients.get? k)

theorem Room.left {b : Broker} {out out' : Token → List Bytes}
    (room : b.Room fun k => out k ++ out' k) : b.Room out := by
  intro k c found
  have whole := room k c found
  simp only [List.length_append] at whole
  omega

namespace Sends

variable {b b' b'' : Broker} {out out' : Token → List Bytes}

theorem nothing (plain : b.Plain) : Sends b b fun _ => [] := by
  refine ⟨plain, rfl, rfl, fun k => ?_⟩
  generalize found : b.clients.get? k = slot
  cases slot with
  | none => exact .none
  | some c => exact .some ⟨(plain.clients k c found).1, by simp⟩

theorem slot (sends : Sends b b' out) {k : Token} {d : Client} (found : b'.clients.get? k = some d) :
    ∃ c, b.clients.get? k = some c ∧ c.Pushed (out k) d := by
  have rel := sends.slots k
  rw [found] at rel
  generalize before : b.clients.get? k = slot at rel
  cases rel with
  | some pushed => exact ⟨_, rfl, pushed⟩

theorem trans (first : Sends b b' out) (second : Sends b' b'' out') :
    Sends b b'' fun k => out k ++ out' k := by
  refine ⟨second.plain, second.token.trans first.token, second.subs.trans first.subs, fun k => ?_⟩
  have one := first.slots k
  have two := second.slots k
  generalize b.clients.get? k = x at one
  generalize b'.clients.get? k = y at one two
  generalize b''.clients.get? k = z at two
  cases one with
  | none =>
    cases two
    exact .none
  | some pushed =>
    cases two with
    | some more => exact .some ⟨more.plain, by rw [more.queue, pushed.queue]; simp⟩

theorem room (sends : Sends b b' out) (room : b.Room fun k => out k ++ out' k) : b'.Room out' := by
  intro k d found
  obtain ⟨c, there, pushed⟩ := sends.slot found
  have whole := room k c there
  rw [pushed.queue]
  simp only [List.length_append, List.length_map] at whole ⊢
  omega

theorem queues (sends : Sends b b' out) (k : Token) :
    b'.flat.queues k = (b.flat.queues k).map fun q => q ++ out k := by
  have rel := sends.slots k
  simp only [flat]
  generalize b.clients.get? k = x at rel
  generalize b'.clients.get? k = y at rel
  cases rel with
  | none => rfl
  | some pushed => simp [pushed.queue, Function.comp_def]

end Sends

/-- One connection has got more packets. -/
theorem sends_insert {b : Broker} (plain : b.Plain) {t : Token} {c d : Client}
    (found : b.clients.get? t = some c) {pkts : List Bytes} (pushed : c.Pushed pkts d) :
    Sends b { b with clients := b.clients.insert t d } (addressed t pkts) := by
  constructor
  · refine ⟨plain.indexed, plain.retained, plain.sessions, fun k e there => ?_, fun s member => ?_⟩
    · simp only [HashMap.get?_insert] at there
      split at there
      next same =>
        cases there
        exact ⟨pushed.plain, same ▸ (plain.clients t c found).2⟩
      next => exact plain.clients k e there
    · obtain ⟨qos, e, there⟩ := plain.homed s member
      refine ⟨qos, ?_⟩
      simp only [HashMap.get?_insert]
      split
      · exact ⟨d, rfl⟩
      · exact ⟨e, there⟩
  · rfl
  · rfl
  · intro k
    simp only [HashMap.get?_insert]
    split
    next same =>
      rw [same, found, addressed_self]
      exact .some pushed
    -- A token other than the addressee is sent nothing.
    next other =>
      rw [addressed_ne _ other]
      exact (Sends.nothing plain).slots k

/-- The matching subscriptions of a connection, all of them with QoS 0. -/
theorem forwards_plain {b : Broker} (plain : b.Plain) (k : Token) (topic : Str) (srcQos : UInt8) :
    b.forwards k topic srcQos = List.replicate (Request.copies topic b.flat.subs k) 0 := by
  refine List.eq_replicate_iff.mpr ⟨?_, fun q member => ?_⟩
  · simp only [forwards, List.length_reverse, List.length_map, Request.copies, flat,
      List.countP_map, ← List.countP_eq_length_filter]
    rfl
  · obtain ⟨s, kept, rfl⟩ := List.mem_map.mp (List.mem_reverse.mp member)
    rw [(plain.homed s (List.mem_filter.mp kept).1).1]
    exact UInt8.le_antisymm Std.min_le_right UInt8.zero_le

/-- A message is routed as in the core, when every copy finds room. -/
theorem publish_flat {b : Broker} (plain : b.Plain) (topic : Str) (payload : Bytes) (qos : UInt8)
    (room : b.Room fun k => List.replicate (Request.copies topic b.flat.subs k)
      (forwarded topic payload)) :
    ∃ b' n, b.publish topic payload qos false = .ok (b', n, 0) ∧
      Sends b b' fun k => List.replicate (Request.copies topic b.flat.subs k)
        (forwarded topic payload) := by
  obtain ⟨b', n, run, published⟩ := b.publish_spec plain.indexed topic payload qos false
  have slot : ∀ k, (b'.clients.get? k = (b.clients.get? k).map fun c => { c with
      writeQueue := c.writeQueue ++ List.replicate (Request.copies topic b.flat.subs k)
        (false, forwarded topic payload) }) ∧
      Client.failures b.now topic payload (b.forwards k topic qos) (b.clients.get? k) = 0 := by
    intro k
    rw [published.slots k, forwards_plain plain k topic qos]
    generalize found : b.clients.get? k = slot
    cases slot with
    | none =>
      refine ⟨by simp, ?_⟩
      -- a subscription of `k` would need a connection
      have absent : Request.copies topic b.flat.subs k = 0 := by
        refine List.countP_eq_zero.mpr fun s member => ?_
        obtain ⟨s, there, rfl⟩ := List.mem_map.mp member
        obtain ⟨-, c, connected⟩ := plain.homed s there
        rintro matched
        simp only [Bool.and_eq_true, decide_eq_true_eq] at matched
        rw [matched.1, found] at connected
        cases connected
      simp [absent]
    | some c =>
      have fits := room k c found
      rw [List.length_replicate] at fits
      exact Client.serve_copies b.now topic payload _ c fits
  have subs : b'.subs = b.subs := published.kept fun k => (slot k).2
  refine ⟨b', n, run, ⟨published.indexed, fun k => ?_, fun cid => ?_, fun k d found => ?_,
    fun s member => ?_⟩, ?_, subs, fun k => ?_⟩
  · rw [published.retained]
    exact plain.retained k
  · rw [published.sessions, plain.sessions]
    split <;> rfl
  · rw [(slot k).1] at found
    obtain ⟨c, there, rfl⟩ := Option.map_eq_some_iff.mp found
    obtain ⟨⟨empty, clean, no_will⟩, known⟩ := plain.clients k c there
    rw [published.frame]
    exact ⟨⟨empty, clean, no_will⟩, known⟩
  · rw [subs] at member
    obtain ⟨zero, c, there⟩ := plain.homed s member
    exact ⟨zero, _, by rw [(slot s.token).1, there]; rfl⟩
  · rw [published.frame]
  · rw [(slot k).1]
    generalize found : b.clients.get? k = slot
    cases slot with
    | none => exact .none
    | some c =>
      obtain ⟨⟨empty, clean, no_will⟩, -⟩ := plain.clients k c found
      exact .some ⟨⟨empty, clean, no_will⟩, by simp⟩

/-! ### One request -/

/-- A request of `t` was handled as in the core. -/
structure Handles (b : Broker) (t : Token) (r : Request) (b' : Broker) : Prop where
  plain : b'.Plain
  token : b'.nextToken = b.nextToken
  flat : b'.flat = b.flat.process t r

section Requests

variable {b : Broker} {t : Token} {r : Request} {c : Client}

theorem room_of_fits (fits : b.flat.Fits WRITE_QUEUE_CAP t r) (stays : r ≠ .disconnect) :
    b.Room (r.output b.flat.subs t) := by
  intro k c found
  have queue : b.flat.queues k = some (c.writeQueue.map Prod.snd) := by
    simp only [Broker.flat, found, Option.map_some]
  have whole := fits k (c.writeQueue.map Prod.snd ++ r.output b.flat.subs t k) (by
    cases r <;> first
      | exact absurd rfl stays
      | simp only [Flat.process, queue, Option.map_some])
  simpa using whole

/-- A request that ends in sends, behind changes to the subscriptions. -/
theorem Sends.handles {d b' : Broker} (sends : Sends d b' (r.output b.flat.subs t))
    (stays : r ≠ .disconnect) (token : d.nextToken = b.nextToken)
    (subs : d.flat.subs = r.subscribed t b.flat.subs) (clients : d.clients = b.clients) :
    Handles b t r b' := by
  have queues : d.flat.queues = b.flat.queues := by rw [Broker.flat, clients]; rfl
  refine ⟨sends.plain, sends.token.trans token, Flat.ext ?_ fun k => ?_⟩
  · rw [Broker.flat, sends.subs]
    exact subs
  · rw [sends.queues, queues]
    cases r <;> first
      | exact absurd rfl stays
      | rfl

/-- A request that is answered with one packet and forwards nothing. -/
theorem handles_answer {d : Broker} {e : Client} {pkt : Bytes}
    (stays : r ≠ .disconnect) (silent : ∀ k, r.forwards b.flat.subs k = []) (one : r.answer = [pkt])
    (plain : d.Plain) (token : d.nextToken = b.nextToken)
    (subs : d.flat.subs = r.subscribed t b.flat.subs) (clients : d.clients = b.clients)
    (found : b.clients.get? t = some c) (pushed : c.Pushed [pkt] e) :
    Handles b t r { d with clients := d.clients.insert t e } := by
  have sends := sends_insert plain (clients ▸ found) pushed
  rw [← one, ← r.output_answer b.flat.subs t silent] at sends
  exact sends.handles stays token subs clients

theorem room_answer (found : b.clients.get? t = some c) (fits : b.flat.Fits WRITE_QUEUE_CAP t r)
    (stays : r ≠ .disconnect) {pkt : Bytes} (one : r.answer = [pkt]) :
    c.writeQueue.length + 1 ≤ WRITE_QUEUE_CAP := by
  have whole := room_of_fits fits stays t c found
  rw [Request.output, addressed_self, one, List.length_append, List.length_singleton] at whole
  omega

theorem dispatch_connect (plain : b.Plain) (found : b.clients.get? t = some c) (keepalive : UInt16)
    (cid : Str) (user : Option Str) (password : Option Bytes)
    (core : (Request.connect keepalive cid user password).Core)
    (fits : b.flat.Fits WRITE_QUEUE_CAP t (.connect keepalive cid user password)) :
    ∃ b', b.dispatch t (Request.connect keepalive cid user password).packet = .ok (b', .ok ()) ∧
      Handles b t (.connect keepalive cid user password) b' := by
  have room := room_answer found fits (by simp) rfl
  -- No session is stored on this path, so there is none to erase.
  have unstored : ∀ id, b.eraseSession id = b := fun id => by
    rw [eraseSession, if_neg]
    simp [HashMap.contains, plain.sessions]
  obtain ⟨e, connected⟩ : ∃ e, e = c.applyConnect
    ⟨cid, keepalive, false, 0, false, Str.empty, [], true⟩ b.now := ⟨_, rfl⟩
  have handled : b.dispatch t (Request.connect keepalive cid user password).packet =
      .ok (countConnect { b with clients := b.clients.insert t e }, .ok ()) := by
    simp [dispatch, Request.kind, handleConnect, parseConnect_request _ _ _ _ core.1, unstored,
      modifyClient, found, connected]
  have pushed : c.Pushed [buildConnack] e := by
    rw [connected, Client.applyConnect]
    refine Client.pushed_reply ?_ ?_ _ room
    · exact ⟨(plain.clients t c found).1.readBuf, rfl, rfl⟩
    · rfl
  have counted : b.countConnect.Plain :=
    ⟨plain.indexed, plain.retained, plain.sessions, plain.clients, plain.homed⟩
  exact ⟨_, handled, handles_answer (by simp) (fun _ => rfl) rfl counted rfl rfl rfl found pushed⟩

/-- Without retained messages the filter loop of SUBSCRIBE only subscribes. -/
theorem subscribeLoop_plain (unretained : ∀ topic, b.retained.get? topic = none) (t : Token)
    (topics : List (Str × UInt8)) : subscribeLoop t topics b = (b.restoreSubs t topics, .ok ()) := by
  induction topics generalizing b with
  | nil => rfl
  | cons e topics ih =>
    obtain ⟨_, _, frame⟩ := b.addSub_frame e.1 t e.2
    have unretained' : ∀ topic, (b.addSub e.1 t e.2).retained.get? topic = none := by
      rw [frame]
      exact unretained
    -- Nothing is retained, so a new filter replays nothing.
    have no_hits : (b.addSub e.1 t e.2).retainedHits e.1 e.2 = [] := by
      have no_entry : (b.addSub e.1 t e.2).retained.iter = [] :=
        List.eq_nil_iff_forall_not_mem.mpr fun entry member => by
          have found := (HashMap.mem_iter _ entry.1 entry.2).mp member
          rw [unretained'] at found
          cases found
      simp [retainedHits, no_entry]
    rw [subscribeLoop, no_hits]
    exact ih unretained'

theorem indexed_restoreSubs (indexed : b.Indexed) (t : Token) (topics : List (Str × UInt8)) :
    (b.restoreSubs t topics).Indexed := by
  induction topics generalizing b with
  | nil => exact indexed
  | cons e topics ih => exact ih (indexed_addSub b e.1 t e.2 indexed)

theorem buildSuback_answer (pid : UInt16) (filters : List Str) (few : filters.length ≤ 125) :
    (Request.subscribe pid filters).answer =
      [buildSuback pid ((filters.map fun f => (f, (0 : UInt8))).map Prod.snd)] := by
  have grants : (filters.map fun f => (f, (0 : UInt8))).map Prod.snd =
      List.replicate filters.length 0 := by
    rw [List.map_map]
    exact List.map_const'
  have one_byte : encodeRem (2 + filters.length) = [UInt8.ofNat (2 + filters.length)] := by
    have small : (2 + filters.length) / 128 = 0 := Nat.div_eq_of_lt (by omega)
    rw [encodeRem, Nat.add_comm 2, encodeRemAux, Nat.add_comm _ 2, small,
      Nat.mod_eq_of_lt (by omega)]
    rfl
  rw [grants]
  simp [buildSuback, Request.answer, show SUBACK <<< 4 = 0x90 by decide, one_byte]

theorem dispatch_subscribe (plain : b.Plain) (found : b.clients.get? t = some c) (pid : UInt16)
    (filters : List Str) (core : (Request.subscribe pid filters).Core)
    (fits : b.flat.Fits WRITE_QUEUE_CAP t (.subscribe pid filters)) :
    ∃ b', b.dispatch t (Request.subscribe pid filters).packet = .ok (b', .ok ()) ∧
      Handles b t (.subscribe pid filters) b' := by
  have room := room_answer found fits (by simp) rfl
  obtain ⟨topics, entries⟩ : ∃ topics, topics = filters.map fun f => (f, (0 : UInt8)) := ⟨_, rfl⟩
  obtain ⟨d, subscribed⟩ : ∃ d, d = b.restoreSubs t topics := ⟨_, rfl⟩
  obtain ⟨_, _, frame⟩ := b.restoreSubs_frame topics t
  rw [← subscribed] at frame
  have clients : d.clients = b.clients := by rw [frame]
  have subs : d.subs = b.subs ++ topics.map fun sub => ⟨sub.1, t, sub.2⟩ := by rw [frame]
  -- The grants are the requested ones; on this path all of them are 0.
  have handled : b.dispatch t (Request.subscribe pid filters).packet = .ok ({ d with
      clients := d.clients.insert t (c.reply (buildSuback pid (topics.map Prod.snd))) }, .ok ()) := by
    simp [dispatch, Request.kind, handleSubscribe, parseSubscribe_request _ _ core.1, ← entries,
      subscribeLoop_plain plain.retained, ← subscribed, modifyClient, clients, found,
      show SUBSCRIBE ≠ CONNECT by decide]
  refine ⟨_, handled, handles_answer (by simp) (fun _ => rfl)
    (entries ▸ buildSuback_answer pid filters (core.2 pid filters rfl)) ?_ (by rw [frame]) ?_ clients
    found (Client.pushed_reply (plain.clients t c found).1 rfl _ room)⟩
  · refine ⟨subscribed ▸ indexed_restoreSubs plain.indexed t topics, ?_, ?_, ?_, fun s member => ?_⟩
    · rw [frame]
      exact plain.retained
    · rw [frame]
      exact plain.sessions
    · rw [frame]
      exact plain.clients
    · rw [clients]
      rw [subs] at member
      rcases List.mem_append.mp member with old | new
      · exact plain.homed s old
      · obtain ⟨e, entry, rfl⟩ := List.mem_map.mp new
        rw [entries] at entry
        obtain ⟨f, -, rfl⟩ := List.mem_map.mp entry
        exact ⟨rfl, c, found⟩
  · simp [Broker.flat, subs, Request.subscribed, Function.comp_def, entries]

theorem dispatch_unsubscribe (plain : b.Plain) (found : b.clients.get? t = some c) (pid : UInt16)
    (filters : List Str) (core : (Request.unsubscribe pid filters).Core)
    (fits : b.flat.Fits WRITE_QUEUE_CAP t (.unsubscribe pid filters)) :
    ∃ b', b.dispatch t (Request.unsubscribe pid filters).packet = .ok (b', .ok ()) ∧
      Handles b t (.unsubscribe pid filters) b' := by
  have room := room_answer found fits (by simp) rfl
  obtain ⟨d, unsubscribed⟩ : ∃ d, d = b.unsubscribe t filters := ⟨_, rfl⟩
  obtain ⟨_, _, frame⟩ := b.unsubscribe_frame t filters
  rw [← unsubscribed] at frame
  have clients : d.clients = b.clients := by rw [frame]
  -- UNSUBACK is queued behind whatever the client already waits for.
  have handled : b.dispatch t (Request.unsubscribe pid filters).packet =
      .ok ({ d with clients := d.clients.insert t (c.reply (buildUnsuback pid)) }, .ok ()) := by
    simp [dispatch, Request.kind, handleUnsubscribe, parseUnsubscribe_request _ _ core.1,
      ← unsubscribed, modifyClient, clients, found, show UNSUBSCRIBE ≠ CONNECT by decide,
      show UNSUBSCRIBE ≠ SUBSCRIBE by decide]
  refine ⟨_, handled, handles_answer (by simp) (fun _ => rfl) rfl ?_ (by rw [frame]) ?_ clients found
    (Client.pushed_reply (plain.clients t c found).1 rfl _ room)⟩
  · refine ⟨unsubscribed ▸ indexed_rebuildIndex _, ?_, ?_, ?_, fun s member => ?_⟩
    · rw [frame]
      exact plain.retained
    · rw [frame]
      exact plain.sessions
    · rw [frame]
      exact plain.clients
    · rw [clients]
      rw [frame] at member
      exact plain.homed s (List.mem_filter.mp member).1
  · rw [frame]
    simp [Broker.flat, Request.subscribed, List.filter_map, Function.comp_def]

theorem dispatch_pingreq (plain : b.Plain) (found : b.clients.get? t = some c)
    (fits : b.flat.Fits WRITE_QUEUE_CAP t .pingreq) :
    ∃ b', b.dispatch t Request.pingreq.packet = .ok (b', .ok ()) ∧ Handles b t .pingreq b' := by
  have room := room_answer found fits (by simp) rfl
  have handled : b.dispatch t Request.pingreq.packet =
      .ok ({ b with clients := b.clients.insert t (c.reply buildPingresp) }, .ok ()) := by
    simp [dispatch, Request.kind, handlePingreq, modifyClient, found, show PINGREQ ≠ CONNECT by decide,
      show PINGREQ ≠ SUBSCRIBE by decide, show PINGREQ ≠ UNSUBSCRIBE by decide,
      show PINGREQ ≠ PUBLISH by decide, show PINGREQ ≠ PUBACK by decide,
      show PINGREQ ≠ PUBREC by decide, show PINGREQ ≠ PUBREL by decide,
      show PINGREQ ≠ PUBCOMP by decide]
  exact ⟨_, handled, handles_answer (by simp) (fun _ => rfl) rfl plain rfl rfl rfl found
    (Client.pushed_reply (plain.clients t c found).1 rfl _ room)⟩

/-- The acknowledgement of a PUBLISH, on the fast path and on the other. -/
theorem acknowledge_plain (plain : b.Plain) (found : b.clients.get? t = some c) (dup : Bool)
    (topic : Str) (pid : Option UInt16) (payload : Bytes) (p : Packet)
    (qos : publishQos p.flags = if pid.isSome then 1 else 0)
    (parse : parsePublish p.flags p.body =
      .ok (some ⟨topic, publishQos p.flags, pid, payload, publishRetain p.flags⟩))
    (room : b.Room (addressed t (Request.publish dup topic pid payload).answer)) :
    ∃ d, Sends b d (addressed t (Request.publish dup topic pid payload).answer) ∧
      b.acknowledge t ⟨topic, publishQos p.flags, pid, payload, publishRetain p.flags⟩ =
        .ok (d, false) ∧
      b.publishFast t (publishQos p.flags) p.body = .ok (d.countPublish, .ok ()) := by
  cases pid with
  -- QoS 0 is not acknowledged, so nothing is queued for the publisher.
  | none =>
    have nothing : addressed t (Request.publish dup topic none payload).answer = fun _ => [] :=
      funext (addressed_nil t)
    have unreliable : publishQos p.flags = 0 := qos
    rw [nothing]
    exact ⟨b, .nothing plain, rfl, by simp [publishFast, unreliable]⟩
  | some pid =>
    have reliable : publishQos p.flags = 1 := qos
    have fits := room t c found
    rw [addressed_self] at fits
    have read := parsePidOnly_eq (by rw [reliable]; decide) parse
    have sends := sends_insert plain found
      (Client.pushed_reply (plain.clients t c found).1 rfl (buildPuback pid) fits)
    exact ⟨_, sends, by simp [acknowledge, reliable, modifyClient, found, Except.map],
      by simp [publishFast, reliable, read, modifyClient, found]⟩

theorem dispatch_publish (plain : b.Plain) (found : b.clients.get? t = some c) (dup : Bool)
    (topic : Str) (pid : Option UInt16) (payload : Bytes)
    (core : (Request.publish dup topic pid payload).Core)
    (fits : b.flat.Fits WRITE_QUEUE_CAP t (.publish dup topic pid payload)) :
    ∃ b', b.dispatch t (Request.publish dup topic pid payload).packet = .ok (b', .ok ()) ∧
      Handles b t (.publish dup topic pid payload) b' := by
  obtain ⟨qos, unretained⟩ := Request.flags_publish dup topic pid payload
  obtain ⟨p, sent⟩ : ∃ p, p = (Request.publish dup topic pid payload).packet := ⟨_, rfl⟩
  have isPublish : p.ptype = PUBLISH := by rw [sent, Request.ptype_packet]; rfl
  have parse := parsePublish_request dup topic pid payload core.1 _ qos
  rw [← Request.body_packet, ← sent] at parse
  rw [← sent] at qos unretained ⊢
  have room : b.Room fun k => addressed t (Request.publish dup topic pid payload).answer k ++
    List.replicate (Request.copies topic b.flat.subs k) (forwarded topic payload) :=
      room_of_fits fits (by simp)
  obtain ⟨d, first, acked, fast⟩ :=
    acknowledge_plain plain found dup topic pid payload p qos parse room.left
  have counted : ∀ {e : Broker} {out : Token → List Bytes}, Sends b e out → Sends b e.countPublish out :=
    fun sends => ⟨⟨sends.plain.indexed, sends.plain.retained, sends.plain.sessions,
      sends.plain.clients, sends.plain.homed⟩, sends.token, sends.subs, sends.slots⟩
  rw [dispatch_isPublish isPublish, handlePublish]
  split
  next nowhere =>
    -- no subscription at all: nothing but the acknowledgement
    have none_there : b.subs = [] := by
      simp only [noRouting, unretained, Bool.not_false, Bool.true_and, Bool.and_eq_true,
        List.isEmpty_iff] at nowhere
      exact nowhere.1
    have output : (Request.publish dup topic pid payload).output b.flat.subs t =
        addressed t (Request.publish dup topic pid payload).answer := by
      refine Request.output_answer _ _ t fun k => ?_
      simp [Request.forwards, Request.copies, Broker.flat, none_there]
    have sends := counted first
    rw [← output] at sends
    exact ⟨_, fast, sends.handles (by simp) rfl rfl rfl⟩
  next =>
    have same : d.flat.subs = b.flat.subs := by rw [Broker.flat, first.subs]; rfl
    have room' := first.room room
    rw [← same] at room'
    obtain ⟨e, n, published, second⟩ :=
      publish_flat first.plain topic payload (publishQos p.flags) room'
    have handled : b.publishRouted t p.flags p.body =
        .ok ({ e.countPublish with deadPruned := 0 }, .ok ()) := by
      rw [unretained] at parse acked
      simp [publishRouted, parse, acked, published]
    rw [same] at second
    have sends := counted (first.trans second)
    have reset : Sends b { e.countPublish with deadPruned := 0 }
        ((Request.publish dup topic pid payload).output b.flat.subs t) :=
      ⟨⟨sends.plain.indexed, sends.plain.retained, sends.plain.sessions, sends.plain.clients,
        sends.plain.homed⟩, sends.token, sends.subs, sends.slots⟩
    exact ⟨_, handled, reset.handles (by simp) rfl rfl rfl⟩

end Requests

end Broker
end MioBroker
