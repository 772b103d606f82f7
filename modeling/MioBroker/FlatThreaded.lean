import Mathlib.Data.Nat.ModEq
import MioBroker.Flat
import MioBroker.Threaded

/-!
# The threaded broker refines the core
-/
namespace MioBroker.Threaded

open Rust

/-! ### Framing and parsing -/

/-- The words compute the value of the length bytes, and lose what does not fit. -/
theorem decodeRemWords_terminated {digits : Bytes} (terminated : Terminated digits) (bits : Nat) (rest : Bytes)
    (mult rem used : Nat) (overflowed : Bool) :
    (decodeRemWords bits (digits ++ rest) mult rem used overflowed).result =
      some ((rem + mult * remValue digits) % 2 ^ bits, rest) := by
  induction digits generalizing mult rem used overflowed with
  | nil => exact terminated.elim
  | cons x xs ih =>
    have digit : rem + (x.toNat % 128 * mult) % 2 ^ bits ≡ rem + mult * (x.toNat % 128) [MOD 2 ^ bits] := by
      rw [Nat.mul_comm mult]
      exact (Nat.ModEq.refl rem).add (Nat.mod_modEq _ _)
    rw [List.cons_append, decodeRemWords, seven_bits]
    cases xs with
    | nil =>
      -- The digit without its high bit ends the length.
      rw [if_pos ((continuation_iff x).mpr terminated)]
      simp only [remValue, Nat.mul_zero, Nat.add_zero]
      rw [show _ % 2 ^ bits = _ from digit, List.nil_append]
    | cons y ys =>
      -- Every digit before the last carries the continuation bit.
      obtain ⟨continued, terminated⟩ := terminated
      have more : ¬(x &&& 0x80 == 0) = true := fun last =>
        Nat.not_lt.mpr continued ((continuation_iff x).mp last)
      rw [if_neg more, ih terminated]
      have value : rem + mult * (x.toNat % 128) + mult * 128 * remValue (y :: ys) =
          rem + mult * remValue (x :: y :: ys) := by
        rw [remValue.eq_2 x (y :: ys)]
        ring
      have next := ((Nat.mod_modEq _ _).trans digit).add
        ((Nat.mod_modEq (mult * 128) (2 ^ bits)).mul_right (remValue (y :: ys)))
      rw [value] at next
      rw [show _ % 2 ^ bits = _ from next]

theorem decodeLength_result {digits : Bytes} (terminated : Terminated digits) (bits : Nat) (rest : Bytes) :
    (decodeLength bits (digits ++ rest)).result = some (remValue digits % 2 ^ bits, rest) := by
  rw [decodeLength, decodeRemWords_terminated terminated, Nat.zero_add, Nat.one_mul]

theorem readPacket_whole (header : UInt8) {digits body : Bytes} (terminated : Terminated digits)
    (counted : remValue digits % 2 ^ USIZE_BITS = body.length) (small : body.length < 2 ^ (USIZE_BITS - 1))
    (rest : Bytes) : readPacket (header :: (digits ++ (body ++ rest))) =
      .ok (some (⟨header >>> 4, header &&& 0x0f, body⟩, rest)) := by
  have whole : ¬(body ++ rest).length < body.length := by simp
  simp only [readPacket, decodeLength_result terminated, counted, if_neg (Nat.not_le.mpr small), if_neg whole,
    List.take_left, List.drop_left, Run.pure_eq]

theorem remValue_short {digits : Bytes} (short : digits.length ≤ 4) : remValue digits < 2 ^ 28 :=
  Nat.lt_of_lt_of_le (remValue_lt digits) (Nat.pow_le_pow_right (by decide : 0 < 128) short)

theorem readPacket_wire {r : Request} {bytes : Bytes} (wire : r.Wire bytes) :
    readPacket bytes = .ok (some (r.packet, [])) := by
  obtain ⟨digits, terminated, short, counted, rfl⟩ := wire
  have value := remValue_short short
  have words : 2 ^ 28 ≤ 2 ^ (USIZE_BITS - 1) ∧ 2 ^ 28 ≤ 2 ^ USIZE_BITS := by decide
  have read := readPacket_whole r.header terminated
    ((Nat.mod_eq_of_lt (Nat.lt_of_lt_of_le value words.2)).trans counted)
    (counted ▸ Nat.lt_of_lt_of_le value words.1) []
  rwa [List.append_nil] at read

theorem parseConnect_request (keepalive : UInt16) (cid : Str) (user : Option Str)
    (password : Option Bytes) (wellFormed : (Request.connect keepalive cid user password).WellFormed) :
    parseConnect (Request.connect keepalive cid user password).body = .ok (some (cid, keepalive)) := by
  have parsed := MioBroker.parseConnect_request keepalive cid user password wellFormed
  exact parseConnect_agrees parsed

/-- The threaded broker reads what the event loop reads, but for the retain bit. -/
theorem parsePublish_agrees {flags : UInt8} {body : Bytes} {q : PublishPacket}
    (parse : MioBroker.parsePublish flags body = .ok (some q)) :
    parsePublish flags body = .ok (some (q.topic, q.qos, q.pid, q.payload)) := by
  simp only [MioBroker.parsePublish] at parse
  split at parse
  · cases parse
  next long =>
  obtain ⟨tlen, tlen_ok, parse⟩ := Run.bind_ok.mp parse
  split at parse
  · cases parse
  next inside =>
  obtain ⟨topic, topic_ok, parse⟩ := Run.bind_ok.mp parse
  simp only [parsePublish]
  rw [if_neg long, tlen_ok, Run.ok_bind, if_neg inside, topic_ok, Run.ok_bind]
  split at parse
  next reliable =>
    split at parse
    · cases parse
    next room =>
    obtain ⟨pid, pid_ok, parse⟩ := Run.bind_ok.mp parse
    obtain ⟨payload, payload_ok, parse⟩ := Run.bind_ok.mp parse
    cases parse
    rw [publishQos] at reliable
    rw [if_pos reliable, if_neg room, pid_ok, Run.ok_bind, payload_ok]
    rfl
  next unreliable =>
    obtain ⟨payload, payload_ok, parse⟩ := Run.bind_ok.mp parse
    cases parse
    rw [publishQos] at unreliable
    rw [if_neg unreliable, payload_ok]
    rfl

/-! ### Sending -/

/-- A connection whose channel has got more packets. -/
def Connection.push (c : Connection) (pkts : List Bytes) : Connection :=
  { c with tx := { c.tx with queue := c.tx.queue ++ pkts } }

namespace World

/-- The view of the core. -/
def flat (w : World) : Flat where
  subs := w.broker.subs.map fun s => (s.filter, s.token)
  queues := fun k => (w.connections.get? k).map fun c => c.tx.queue

/-- Writer threads run as long as their connections, and subscriptions belong to connections. -/
structure Sound (w : World) : Prop where
  alive : ∀ k c, w.connections.get? k = some c → c.tx.connected = true
  known : ∀ k c, w.connections.get? k = some c → k < w.nextToken
  homed : ∀ s ∈ w.broker.subs, s.tx = s.token ∧ ∃ c, w.connections.get? s.token = some c

/-- Soundness reads no more of a connection than its channel. -/
theorem Sound.of_channels {w v : World} (sound : w.Sound) (token : v.nextToken = w.nextToken)
    (channels : ∀ k, (v.connections.get? k).map Connection.tx =
      (w.connections.get? k).map Connection.tx)
    (homed : ∀ s ∈ v.broker.subs, s.tx = s.token ∧ ∃ c, w.connections.get? s.token = some c) :
    v.Sound := by
  -- Channels that agree slot by slot are those of the same connections.
  have before : ∀ k d, v.connections.get? k = some d →
      ∃ c, w.connections.get? k = some c ∧ c.tx = d.tx := by
    intro k d found
    have same := channels k
    rw [found] at same
    exact Option.map_eq_some_iff.mp same.symm
  constructor
  · intro k d found
    obtain ⟨c, there, same⟩ := before k d found
    exact same ▸ sound.alive k c there
  · intro k d found
    obtain ⟨c, there, -⟩ := before k d found
    exact token ▸ sound.known k c there
  · intro s member
    obtain ⟨own, c, there⟩ := homed s member
    have same := channels s.token
    rw [there] at same
    obtain ⟨d, found, -⟩ := Option.map_eq_some_iff.mp same
    exact ⟨own, d, found⟩

/-- From `w` to `w'` the channels have got the packets `out`. -/
structure Sends (w w' : World) (out : Token → List Bytes) : Prop where
  frame : w' = { w with connections := w'.connections }
  slots : ∀ k, w'.connections.get? k = (w.connections.get? k).map fun c => c.push (out k)

/-- There is room for the packets `out`. -/
def Room (w : World) (out : Token → List Bytes) : Prop :=
  ∀ k c, w.connections.get? k = some c → (c.tx.queue ++ out k).length ≤ SUB_QUEUE_CAP

theorem Room.left {w : World} {out out' : Token → List Bytes}
    (room : w.Room fun k => out k ++ out' k) : w.Room out := by
  intro k c found
  have whole := room k c found
  simp only [List.length_append] at whole ⊢
  omega

namespace Sends

variable {w w' w'' : World} {out out' : Token → List Bytes}

theorem nothing (w : World) : Sends w w fun _ => [] :=
  ⟨rfl, fun k => by cases w.connections.get? k <;> simp [Connection.push]⟩

theorem trans (first : Sends w w' out) (second : Sends w' w'' out') :
    Sends w w'' fun k => out k ++ out' k := by
  refine ⟨by rw [second.frame, first.frame], fun k => ?_⟩
  rw [second.slots, first.slots]
  cases w.connections.get? k <;> simp [Connection.push]

theorem sound (sends : Sends w w' out) (sound : w.Sound) : w'.Sound := by
  have before : ∀ k d, w'.connections.get? k = some d →
      ∃ c, w.connections.get? k = some c ∧ c.push (out k) = d := fun k d found =>
    Option.map_eq_some_iff.mp ((sends.slots k).symm.trans found)
  constructor
  · intro k d found
    obtain ⟨c, there, rfl⟩ := before k d found
    exact sound.alive k c there
  · intro k d found
    obtain ⟨c, there, rfl⟩ := before k d found
    rw [sends.frame]
    exact sound.known k c there
  · intro s member
    rw [sends.frame] at member
    obtain ⟨same, c, there⟩ := sound.homed s member
    exact ⟨same, _, by rw [sends.slots, there]; rfl⟩

theorem room (sends : Sends w w' out) (room : w.Room fun k => out k ++ out' k) : w'.Room out' := by
  intro k d found
  obtain ⟨c, there, rfl⟩ := Option.map_eq_some_iff.mp ((sends.slots k).symm.trans found)
  simpa [Connection.push] using room k c there

theorem subs (sends : Sends w w' out) : w'.flat.subs = w.flat.subs := by
  rw [flat, sends.frame]
  rfl

theorem queues (sends : Sends w w' out) (k : Token) :
    w'.flat.queues k = (w.flat.queues k).map fun q => q ++ out k := by
  simp only [flat]
  rw [sends.slots]
  cases w.connections.get? k <;> rfl

end Sends

/-- One connection has got one packet more. -/
theorem sends_insert {w : World} {t : Token} {c : Connection}
    (found : w.connections.get? t = some c) (pkt : Bytes) :
    Sends w { w with connections := w.connections.insert t (c.push [pkt]) } (addressed t [pkt]) := by
  refine ⟨rfl, fun k => ?_⟩
  rw [HashMap.get?_insert]
  split
  next same => rw [same, found, addressed_self]; rfl
  next other =>
    rw [addressed_ne _ other]
    cases w.connections.get? k <;> simp [Connection.push]

/-- A blocking send goes through at once while there is room. -/
theorem send_spec {w : World} (sound : w.Sound) (t : Token) (pkt : Bytes)
    (room : w.Room (addressed t [pkt])) : Sends w (w.send t pkt) (addressed t [pkt]) := by
  simp only [send, modifyConnection]
  split
  next c found =>
    -- With room for the packet nothing is dropped from the head of the channel.
    have fits := room t c found
    rw [addressed_self, List.length_append, List.length_singleton] at fits
    have sent : c.tx.send pkt = { c.tx with queue := c.tx.queue ++ [pkt] } := by
      rw [Channel.send, if_pos (sound.alive t c found), Nat.sub_eq_zero_of_le fits, List.drop_zero]
    rw [sent]
    exact sends_insert found pkt
  next absent =>
    -- A token without a connection receives nothing, which is what its slot says.
    refine ⟨rfl, fun k => ?_⟩
    by_cases same : k = t
    · rw [same, absent]
      rfl
    · rw [addressed_ne _ same]
      cases w.connections.get? k <;> simp [Connection.push]

theorem trySend_spec {w : World} (sound : w.Sound) (t : Token) (pkt : Bytes)
    (room : w.Room (addressed t [pkt])) (c : Connection) (found : w.connections.get? t = some c) :
    ∃ w', w.trySend t pkt = (w', .ok) ∧ Sends w w' (addressed t [pkt]) := by
  have fits := room t c found
  rw [addressed_self, List.length_append, List.length_singleton] at fits
  have sent : c.tx.trySend pkt = ({ c.tx with queue := c.tx.queue ++ [pkt] }, .ok) := by
    rw [Channel.trySend, if_pos (sound.alive t c found), if_pos (Nat.lt_of_succ_le fits)]
  refine ⟨_, ?_, sends_insert found pkt⟩
  simp only [trySend, found, sent]
  rfl

/-- The packets a fan-out over `subs` adds for `k`. -/
def matched (topic : Str) (pkt : Bytes) (subs : List Subscription) (k : Token) : List Bytes :=
  List.replicate (subs.countP fun s => s.token = k && topicMatches s.filter topic) pkt

/-- With room for all of it, a fan-out reaches every matching subscription and drops none. -/
theorem fanout_spec (topic : Str) (pkt : Bytes) (subs : List Subscription) (w : World)
    (sound : w.Sound) (room : w.Room (matched topic pkt subs))
    (homed : ∀ s ∈ subs, s.tx = s.token ∧ ∃ c, w.connections.get? s.token = some c) :
    ∃ w' n, fanout topic pkt subs w = (w', ⟨subs, n, 0, 0⟩) ∧ Sends w w' (matched topic pkt subs) := by
  induction subs generalizing w with
  | nil => exact ⟨w, 0, rfl, .nothing w⟩
  | cons s rest ih =>
    by_cases hit : topicMatches s.filter topic = true
    · have split_off : matched topic pkt (s :: rest) = fun k =>
          (if k = s.token then [pkt] else []) ++ matched topic pkt rest k := by
        funext k
        by_cases own : k = s.token
        · simp [matched, own, hit, List.replicate_succ]
        · simp [matched, Ne.symm own, own]
      obtain ⟨same, c, found⟩ := homed s (by simp)
      rw [split_off] at room ⊢
      obtain ⟨v, sent, first⟩ := trySend_spec sound s.token pkt
        room.left c found
      obtain ⟨w', n, others, second⟩ := ih v (first.sound sound) (first.room room) fun s' member => by
        obtain ⟨same', c', there⟩ := homed s' (by simp [member])
        exact ⟨same', _, by rw [first.slots, there]; rfl⟩
      refine ⟨w', n + 1, ?_, first.trans second⟩
      rw [fanout, if_neg (by simp [hit]), same, sent]
      simp only [others]
    · have skip : matched topic pkt (s :: rest) = matched topic pkt rest := by
        funext k
        simp [matched, hit]
      rw [skip] at room ⊢
      obtain ⟨w', n, others, sends⟩ := ih w sound room fun s' member => homed s' (by simp [member])
      refine ⟨w', n, ?_, sends⟩
      rw [fanout, if_pos (by simp [hit]), others]

/-! ### One request -/

/-- A request of `t` was handled as in the core. -/
structure Handles (w : World) (t : Token) (r : Request) (w' : World) : Prop where
  sound : w'.Sound
  token : w'.nextToken = w.nextToken
  flat : w'.flat = w.flat.process t r

section Requests

variable {w : World} {t : Token} {r : Request}

theorem room_of_fits (fits : w.flat.Fits SUB_QUEUE_CAP t r) (stays : r ≠ .disconnect) :
    w.Room (r.output w.flat.subs t) := by
  intro k c found
  refine fits k _ ?_
  have queue : w.flat.queues k = some c.tx.queue := by simp only [World.flat, found, Option.map_some]
  cases r <;> first
    | exact absurd rfl stays
    | simp only [Flat.process, queue, Option.map_some]

/-- A request that ends in sends, behind changes that the channels do not see. -/
theorem Sends.handles {v w' : World} (sends : Sends v w' (r.output w.flat.subs t))
    (stays : r ≠ .disconnect) (sound : v.Sound) (token : v.nextToken = w.nextToken)
    (subs : v.flat.subs = r.subscribed t w.flat.subs)
    (queues : ∀ k, v.flat.queues k = w.flat.queues k) : Handles w t r w' := by
  refine ⟨sends.sound sound, ?_, Flat.ext ?_ fun k => ?_⟩
  · rw [sends.frame]
    exact token
  · rw [sends.subs, subs]
    rfl
  · rw [sends.queues, queues]
    cases r <;> first
      | exact absurd rfl stays
      | rfl

/-- A request that is answered with one packet and forwards nothing. -/
theorem handles_answer {v : World} {pkt : Bytes} (fits : w.flat.Fits SUB_QUEUE_CAP t r)
    (stays : r ≠ .disconnect) (silent : ∀ k, r.forwards w.flat.subs k = []) (one : r.answer = [pkt])
    (sound : w.Sound) (token : v.nextToken = w.nextToken)
    (subs : v.flat.subs = r.subscribed t w.flat.subs)
    (homed : ∀ s ∈ v.broker.subs, s.tx = s.token ∧ ∃ c, w.connections.get? s.token = some c)
    (channels : ∀ k, (v.connections.get? k).map Connection.tx =
      (w.connections.get? k).map Connection.tx) : Handles w t r (v.send t pkt) := by
  have sound := sound.of_channels token channels homed
  -- The request itself moved no packet: the answer below is all that is sent.
  have queues : ∀ k, v.flat.queues k = w.flat.queues k := fun k => by
    have same := congrArg (Option.map Channel.queue) (channels k)
    simpa [World.flat, Option.map_map, Function.comp_def] using same
  have room : v.Room (addressed t [pkt]) := by
    intro k c found
    have whole := room_of_fits fits stays
    rw [r.output_answer _ t silent, one] at whole
    have same := channels k
    rw [found] at same
    obtain ⟨d, there, same_tx⟩ := Option.map_eq_some_iff.mp same.symm
    rw [← same_tx]
    exact whole k d there
  have sends := send_spec sound t pkt room
  rw [← one, ← r.output_answer w.flat.subs t silent] at sends
  exact sends.handles stays sound token subs queues

theorem buildSuback_answer (pid : UInt16) (filters : List Str) :
    (Request.subscribe pid filters).answer =
      [buildSuback pid ((filters.map fun f => (f, (0 : UInt8))).map Prod.snd)] := by
  have grants : (filters.map fun f => (f, (0 : UInt8))).map Prod.snd =
      List.replicate filters.length 0 := by
    rw [List.map_map]
    exact List.map_const'
  rw [grants]
  simp [buildSuback, Request.answer, show SUBACK <<< 4 = 0x90 by decide, Nat.add_comm]

theorem handle_connect (sound : w.Sound) (keepalive : UInt16) (cid : Str) (user : Option Str)
    (password : Option Bytes) (core : (Request.connect keepalive cid user password).Core)
    (fits : w.flat.Fits SUB_QUEUE_CAP t (.connect keepalive cid user password)) :
    ∃ w', w.handle t (Request.connect keepalive cid user password).packet = .ok (w', true) ∧
      Handles w t (.connect keepalive cid user password) w' := by
  obtain ⟨v, same⟩ : ∃ v, v = w.modifyConnection t fun c =>
    { c with clientId := cid, keepaliveS := keepalive.toNat } := ⟨_, rfl⟩
  -- The client id and the keepalive are recorded before the acknowledgement goes out.
  have handled : w.handle t (Request.connect keepalive cid user password).packet =
      .ok (send { v with broker := { v.broker with clientIds := v.broker.clientIds ++ [cid] } } t
        buildConnack, true) := by
    simp [handle, Request.kind, parseConnect_request _ _ _ _ core.1, same]
  refine ⟨_, handled, ?_⟩
  rw [modifyConnection] at same
  subst same
  split
  next c found =>
    refine handles_answer fits (by simp) (fun _ => rfl) rfl sound rfl rfl sound.homed fun k => ?_
    simp only [HashMap.get?_insert]
    split
    next same => rw [same, found]; rfl
    next => rfl
  next => exact handles_answer fits (by simp) (fun _ => rfl) rfl sound rfl rfl sound.homed fun k => rfl

theorem subs_subscribe (t : Token) (topics : List (Str × UInt8)) (b : Broker) :
    topics.foldl (fun b e => b.subscribe e.1 e.2 t t) b =
      { b with subs := b.subs ++ topics.map fun e => ⟨e.1, e.2, t, t⟩ } := by
  induction topics generalizing b with
  | nil => simp
  | cons e rest ih => rw [List.foldl_cons, ih]; simp [Broker.subscribe]

theorem subs_unsubscribe (t : Token) (filters : List Str) (b : Broker) :
    filters.foldl (fun b f => b.unsubscribe f t) b =
      { b with subs := b.subs.filter fun s => !(s.token == t && filters.contains s.filter) } := by
  induction filters generalizing b with
  | nil => simp
  | cons f rest ih =>
    rw [List.foldl_cons, ih, Broker.unsubscribe]
    simp only [List.filter_filter]
    congr 1
    refine List.filter_congr fun s _ => ?_
    by_cases own : s.token = t
    · by_cases same : s.filter = f
      · simp [own, same]
      · simp [own, same]
    · simp [show (s.token == t) = false by simpa using own]

theorem handle_subscribe (sound : w.Sound) {c : Connection} (found : w.connections.get? t = some c)
    (pid : UInt16) (filters : List Str) (core : (Request.subscribe pid filters).Core)
    (fits : w.flat.Fits SUB_QUEUE_CAP t (.subscribe pid filters)) :
    ∃ w', w.handle t (Request.subscribe pid filters).packet = .ok (w', true) ∧
      Handles w t (.subscribe pid filters) w' := by
  obtain ⟨topics, entries⟩ : ∃ topics, topics = filters.map fun f => (f, (0 : UInt8)) := ⟨_, rfl⟩
  -- The threaded server grants QoS 0 whatever was asked, as the entries say.
  have handled : w.handle t (Request.subscribe pid filters).packet =
      .ok (send { w with broker := topics.foldl (fun b e => b.subscribe e.1 e.2 t t) w.broker } t
        (buildSuback pid (topics.map Prod.snd)), true) := by
    simp [handle, Request.kind, parseSubscribe, parseSubscribe_request _ _ core.1, entries,
      show SUBSCRIBE ≠ CONNECT by decide]
  refine ⟨_, handled, handles_answer fits (by simp) (fun _ => rfl)
    (entries ▸ buildSuback_answer pid filters) sound rfl ?_ ?_ fun k => rfl⟩
  · simp [World.flat, subs_subscribe, Request.subscribed, Function.comp_def, entries]
  · intro s member
    rw [subs_subscribe] at member
    rcases List.mem_append.mp member with old | new
    · exact sound.homed s old
    · obtain ⟨e, -, rfl⟩ := List.mem_map.mp new
      exact ⟨rfl, c, found⟩

theorem handle_unsubscribe (sound : w.Sound) (pid : UInt16) (filters : List Str)
    (core : (Request.unsubscribe pid filters).Core)
    (fits : w.flat.Fits SUB_QUEUE_CAP t (.unsubscribe pid filters)) :
    ∃ w', w.handle t (Request.unsubscribe pid filters).packet = .ok (w', true) ∧
      Handles w t (.unsubscribe pid filters) w' := by
  have handled : w.handle t (Request.unsubscribe pid filters).packet =
      .ok (send { w with broker := filters.foldl (fun b f => b.unsubscribe f t) w.broker } t
        (buildUnsuback pid), true) := by
    simp [handle, Request.kind, parseUnsubscribe, parseUnsubscribe_request _ _ core.1,
      show UNSUBSCRIBE ≠ CONNECT by decide, show UNSUBSCRIBE ≠ SUBSCRIBE by decide]
  refine ⟨_, handled, handles_answer fits (by simp) (fun _ => rfl) rfl sound rfl ?_ ?_ fun k => rfl⟩
  · simp [World.flat, subs_unsubscribe, Request.subscribed, List.filter_map, Function.comp_def]
  · intro s member
    rw [subs_unsubscribe] at member
    exact sound.homed s (List.mem_filter.mp member).1

theorem handle_pingreq (sound : w.Sound) (fits : w.flat.Fits SUB_QUEUE_CAP t .pingreq) :
    ∃ w', w.handle t Request.pingreq.packet = .ok (w', true) ∧ Handles w t .pingreq w' :=
  ⟨_, rfl, handles_answer fits (by simp) (fun _ => rfl) rfl sound rfl rfl sound.homed fun _ => rfl⟩

theorem buildForward_eq (topic : Str) (payload : Bytes) :
    buildForward topic.bytes payload = forwarded topic payload := by
  simp [buildForward, forwarded, field, show PUBLISH <<< 4 = 0x30 by decide]

/-- The fan-out of a PUBLISH, when every copy finds room. -/
theorem publish_spec (sound : w.Sound) (topic : Str) (payload : Bytes)
    (room : w.Room (matched topic (forwarded topic payload) w.broker.subs)) :
    ∃ n, Sends w (w.publish topic payload).1 (matched topic (forwarded topic payload) w.broker.subs) ∧
      (w.publish topic payload).2 = (n, 0) := by
  obtain ⟨v, n, sent, sends⟩ :=
    fanout_spec topic (forwarded topic payload) w.broker.subs w sound room sound.homed
  have broker : v.broker = w.broker := by rw [sends.frame]
  have same : (w.publish topic payload) = (v, n, 0) := by
    simp only [publish, buildForward_eq, sent, Nat.add_zero]
    rw [broker, ← broker]
  rw [same]
  exact ⟨n, sends, rfl⟩

theorem matched_flat (topic : Str) (payload : Bytes) (k : Token) (w : World) (dup : Bool)
    (pid : Option UInt16) : matched topic (forwarded topic payload) w.broker.subs k =
      (Request.publish dup topic pid payload).forwards w.flat.subs k := by
  simp [matched, Request.forwards, Request.copies, World.flat, List.countP_map, Function.comp_def]

theorem handle_publish (sound : w.Sound) (dup : Bool) (topic : Str) (pid : Option UInt16)
    (payload : Bytes) (core : (Request.publish dup topic pid payload).Core)
    (fits : w.flat.Fits SUB_QUEUE_CAP t (.publish dup topic pid payload)) :
    ∃ w', w.handle t (Request.publish dup topic pid payload).packet = .ok (w', true) ∧
      Handles w t (.publish dup topic pid payload) w' := by
  obtain ⟨qos, -⟩ := Request.flags_publish dup topic pid payload
  have parse := parsePublish_agrees (parsePublish_request dup topic pid payload core.1 _ qos)
  have room := room_of_fits fits (by simp)
  have output : (Request.publish dup topic pid payload).output w.flat.subs t = fun k =>
      addressed t (Request.publish dup topic pid payload).answer k ++
        matched topic (forwarded topic payload) w.broker.subs k := by
    funext k
    rw [matched_flat topic payload k w dup pid]
    rfl
  -- the acknowledgement goes first
  obtain ⟨v, first, handled⟩ : ∃ v,
      Sends w v (addressed t (Request.publish dup topic pid payload).answer) ∧
      w.handle t (Request.publish dup topic pid payload).packet =
        .ok ((v.publish topic payload).1, true) := by
    simp only [handle, Request.ptype_packet, Request.kind, Request.body_packet, parse, Run.ok_bind,
      show PUBLISH ≠ CONNECT by decide, show PUBLISH ≠ SUBSCRIBE by decide,
      show PUBLISH ≠ UNSUBSCRIBE by decide, if_false, if_true]
    cases pid with
    | none =>
      have nothing : addressed t (Request.publish dup topic none payload).answer = fun _ => [] :=
        funext (addressed_nil t)
      rw [nothing]
      exact ⟨w, .nothing w, rfl⟩
    | some p =>
      rw [output] at room
      refine ⟨w.send t (buildPuback p), send_spec sound t (buildPuback p) room.left, ?_⟩
      have reliable : publishQos (Request.publish dup topic (some p) payload).packet.flags = 1 := qos
      simp only [if_pos reliable]
      rfl
  have broker : v.broker = w.broker := by rw [first.frame]
  rw [output] at room
  have room' := first.room room
  rw [← broker] at room'
  obtain ⟨n, second, -⟩ := publish_spec (first.sound sound) topic payload room'
  have both := first.trans second
  rw [broker, ← output] at both
  exact ⟨_, handled, both.handles (by simp) sound rfl rfl fun _ => rfl⟩

theorem handles_close (sound : w.Sound) : Handles w t .disconnect (w.close t) := by
  constructor
  · constructor
    · intro k c found
      simp only [close, HashMap.get?_erase] at found
      split at found
      · cases found
      · exact sound.alive k c found
    · intro k c found
      simp only [close, HashMap.get?_erase] at found
      split at found
      · cases found
      · exact sound.known k c found
    · intro s member
      simp only [close, Broker.disconnectClient, List.mem_filter, bne_iff_ne] at member
      -- A subscription that is left belongs to another token, whose connection stays.
      obtain ⟨own, c, found⟩ := sound.homed s member.1
      refine ⟨own, c, ?_⟩
      simp only [close]
      rw [HashMap.get?_erase_ne _ member.2, found]
  · rfl
  · refine Flat.ext ?_ fun k => ?_
    · simp [World.flat, Flat.process, close, Broker.disconnectClient, Request.subscribed,
        List.filter_map, Function.comp_def]
    · simp only [World.flat, Flat.process, close, HashMap.get?_erase]
      split <;> rfl

/-- The reader thread of `t` handles a request as the core does. -/
theorem process_flat (sound : w.Sound) {c : Connection} (found : w.connections.get? t = some c)
    (core : r.Core) {bytes : Bytes} (wire : r.Wire bytes) (fits : w.flat.Fits SUB_QUEUE_CAP t r) :
    ∃ w', w.process t bytes = .ok w' ∧ Handles w t r w' := by
  -- A packet that keeps the loop going is written off to its own handler.
  have loops : (∃ w', w.handle t r.packet = .ok (w', true) ∧ Handles w t r w') →
      ∃ w', w.process t bytes = .ok w' ∧ Handles w t r w' := by
    rintro ⟨w', handled, handles⟩
    exact ⟨w', by simp only [process, readPacket_wire wire, handled, Run.ok_bind, Run.pure_eq], handles⟩
  cases r with
  | connect keepalive cid user password =>
    exact loops (handle_connect sound keepalive cid user password core fits)
  | subscribe pid filters => exact loops (handle_subscribe sound found pid filters core fits)
  | unsubscribe pid filters => exact loops (handle_unsubscribe sound pid filters core fits)
  | publish dup topic pid payload =>
    exact loops (handle_publish sound dup topic pid payload core fits)
  | pingreq => exact loops (handle_pingreq sound fits)
  | disconnect =>
    -- DISCONNECT alone ends the loop, and the connection is closed behind it.
    refine ⟨w.close t, ?_, handles_close sound⟩
    have left : w.handle t Request.disconnect.packet = .ok (w, false) := rfl
    simp only [process, readPacket_wire wire, left, Run.ok_bind, Run.pure_eq]

end Requests

/-! ### Everything else -/

theorem sound_new (h : RandomState Token) : (new h).Sound :=
  ⟨fun k c found => by simp [new] at found, fun k c found => by simp [new] at found,
    fun s member => by simp [new, Broker.new] at member⟩

theorem flat_new (h : RandomState Token) : (new h).flat = .empty :=
  Flat.ext rfl fun k => by simp [World.flat, new, Flat.empty]

theorem sound_accept {w : World} (sound : w.Sound) : w.accept.Sound := by
  -- The new token is above every known one, so no old slot is overwritten.
  have others : ∀ k, k < w.nextToken → w.accept.connections.get? k = w.connections.get? k :=
    fun k lt => HashMap.get?_insert_ne _ _ (Nat.ne_of_lt lt)
  constructor
  · intro k c found
    simp only [accept, HashMap.get?_insert] at found
    split at found
    · cases found
      rfl
    · exact sound.alive k c found
  · intro k c found
    simp only [accept, HashMap.get?_insert] at found
    split at found
    next same => exact same ▸ Nat.lt_succ_self _
    next => exact Nat.lt_succ_of_lt (sound.known k c found)
  · intro s member
    obtain ⟨own, c, found⟩ := sound.homed s member
    exact ⟨own, c, (others s.token (sound.known _ _ found)).trans found⟩

theorem flat_accept (w : World) : w.accept.flat = w.flat.accept w.nextToken := by
  refine Flat.ext rfl fun k => ?_
  simp only [World.flat, accept, Flat.accept, HashMap.get?_insert]
  split <;> rfl

/-- The writer thread empties its channel, no more. -/
theorem take_channels (w : World) (t : Token) (n : Nat) :
    ∃ connections, w.take t n = { w with connections } ∧ ∀ k,
      connections.get? k = (w.connections.get? k).map fun c =>
        if k = t then { c with tx := { c.tx with queue := c.tx.queue.drop n } } else c := by
  simp only [take]
  split
  next c found =>
    refine ⟨_, rfl, fun k => ?_⟩
    rw [HashMap.get?_insert]
    split
    next same => rw [same, found]; rfl
    next => cases w.connections.get? k <;> rfl
  next absent =>
    refine ⟨_, rfl, fun k => ?_⟩
    split
    next same => rw [same, absent]; rfl
    next => cases w.connections.get? k <;> rfl

theorem sound_take {w : World} (sound : w.Sound) (t : Token) (n : Nat) : (w.take t n).Sound := by
  obtain ⟨connections, same, slots⟩ := w.take_channels t n
  -- Writing to the socket shortens a queue and leaves the channel connected.
  have before : ∀ k d, connections.get? k = some d →
      ∃ c, w.connections.get? k = some c ∧ d.tx.connected = c.tx.connected := by
    intro k d found
    obtain ⟨c, there, rfl⟩ := Option.map_eq_some_iff.mp ((slots k).symm.trans found)
    exact ⟨c, there, by split <;> rfl⟩
  rw [same]
  constructor
  · intro k d found
    obtain ⟨c, there, kept⟩ := before k d found
    exact kept.trans (sound.alive k c there)
  · intro k d found
    obtain ⟨c, there, -⟩ := before k d found
    exact sound.known k c there
  · intro s member
    obtain ⟨own, c, found⟩ := sound.homed s member
    exact ⟨own, _, by rw [slots, found]; rfl⟩

theorem flat_take (w : World) (t : Token) (n : Nat) :
    (w.take t n).flat.subs = w.flat.subs ∧
      ∀ k, ((w.take t n).flat.queues k).isSome = (w.flat.queues k).isSome := by
  obtain ⟨connections, same, slots⟩ := w.take_channels t n
  rw [same]
  refine ⟨rfl, fun k => ?_⟩
  simp only [World.flat]
  rw [slots]
  cases w.connections.get? k <;> rfl

end World
end MioBroker.Threaded
