import MioBroker.FlatMio

/-!
# The core between socket and handlers

A packet arrives in chunks and is handled when the last of them is read. What else happens to a
connection of the core, its writes above all, does not touch the subscriptions.
-/
namespace MioBroker

open Rust

/-- The chunks of a packet: one read has at most 65536 bytes. -/
structure Request.Arrives (r : Request) (chunks : List Bytes) : Prop where
  sizes : ∀ chunk ∈ chunks, 1 ≤ chunk.length ∧ chunk.length ≤ 65536
  wire : r.Wire chunks.flatten

/-! ### Framing a single packet -/

section Frame

variable {r : Request}

theorem incomplete_wire {p q : Bytes} (wire : r.Wire (p ++ q)) (small : r.body.length ≤ MAX_PACKET)
    (missing : q ≠ []) : Incomplete p := by
  obtain ⟨digits, terminated, short, counted, whole⟩ := wire
  exact ⟨⟨r.header, digits, r.body, terminated, short, counted, small⟩, q, missing, whole⟩

/-- A request within the packet limit is framed alone. -/
theorem frame_wire {bytes : Bytes} (wire : r.Wire bytes) (small : r.body.length ≤ MAX_PACKET) :
    frame bytes = ⟨[r.packet], [], none⟩ := by
  obtain ⟨digits, terminated, short, counted, rfl⟩ := wire
  let w : WirePacket := ⟨r.header, digits, r.body, terminated, short, counted, small⟩
  have framed := frame_packets [w] .nil
  simpa [WirePacket.bytes, WirePacket.packet, Request.packet, w] using framed

/-- A longer one is refused, at the latest when all of it is there. -/
theorem frame_oversized {p q : Bytes} (wire : r.Wire (p ++ q)) (large : MAX_PACKET < r.body.length) :
    ∃ bad, frame p = ⟨[], p, bad⟩ ∧ (q = [] → bad ≠ none) := by
  obtain ⟨digits, terminated, short, counted, whole⟩ := wire
  cases p with
  | nil =>
    refine ⟨none, rfl, ?_⟩
    rintro rfl
    simp at whole
  | cons b₀ b =>
    obtain ⟨-, same⟩ := List.cons.inj whole
    rcases List.append_eq_append_iff.mp same with ⟨c, cut, rest⟩ | ⟨c, rfl, -⟩
    · by_cases all : c = []
      · -- the length is there, its body is not
        subst all
        rw [List.append_nil] at cut
        have length := decodeRem_terminated terminated 4 [] 1 1 0 short
        rw [List.append_nil, cut] at length
        refine ⟨some r.body.length, ?_, fun _ => by simp⟩
        rw [frame, List.length_cons, frameLoop, length]
        simp only [← cut, counted, Nat.mul_one, Nat.zero_add]
        rw [if_pos large]
      · rw [cut] at terminated
        refine ⟨none, ?_, ?_⟩
        · rw [frame, List.length_cons, frameLoop, decodeRem_cut b c terminated all]
        · rintro rfl
          exact absurd (List.append_eq_nil_iff.mp rest.symm).1 all
    · have length := decodeRem_terminated terminated 4 c 1 1 0 short
      refine ⟨some r.body.length, ?_, fun _ => by simp⟩
      rw [frame, List.length_cons, frameLoop, length]
      simp only [counted, Nat.mul_one, Nat.zero_add]
      rw [if_pos large]

end Frame

namespace Broker

/-- The reads of `t` that bring one packet, each with the removal a failure asks for. -/
def process (b : Broker) (t : Token) : List Bytes → Run Broker
  | [] => pure b
  | chunk :: chunks => do
    match ← b.drainClient t (.ok chunk) with
    | (b, .ok ()) => process b t chunks
    | (b, .error ()) => b.removeClient t

/-- `d` is a broker of the core but for the bytes `buf` of an incomplete packet of `t`; the view
of the core is that of `b`. -/
structure Buffers (b : Broker) (t : Token) (buf : Bytes) (d : Broker) (c : Client) : Prop where
  found : d.clients.get? t = some c
  readBuf : c.readBuf = buf
  quiet : Sends b { d with clients := d.clients.insert t { c with readBuf := [] } } fun _ => []

section Process

variable {b d : Broker} {t : Token} {r : Request} {c : Client} {buf chunk : Bytes}

/-- Removing a connection without will and session. -/
theorem removeClient_plain (found : b.clients.get? t = some c) (clean : c.cleanSession = true)
    (unwilled : c.willFlag = false) : b.removeClient t = .ok (b.dropClient t).save := by
  have no_will : b.publishLwt t = .ok b := by simp [publishLwt, found, Client.will, unwilled]
  have no_session : b.persistSession t = .ok b := by simp [persistSession, found, clean]
  simp only [removeClient]
  split
  · rw [no_will, Run.ok_bind, no_session, Run.ok_bind, Run.pure_eq]
  · rw [Run.pure_eq, Run.ok_bind, no_session, Run.ok_bind, Run.pure_eq]

/-- Whatever the record of `t` had become, without it the core goes on. -/
theorem handles_drop (plain : b.Plain) (t : Token) (d : Client) : Handles b t .disconnect
    (dropClient { b with clients := b.clients.insert t d } t).save := by
  obtain ⟨e, changed⟩ : ∃ e, e = ({ b with clients := b.clients.insert t d } : Broker) := ⟨_, rfl⟩
  -- Whatever record the client had, its slot is empty once it is dropped.
  have slots : ∀ k, (e.clients.erase t).get? k = if k = t then none else b.clients.get? k := by
    intro k
    rw [HashMap.get?_erase, changed]
    split
    · rfl
    next other => exact HashMap.get?_insert_ne _ _ other
  obtain ⟨_, _, _, saved⟩ := (e.dropClient t).save_frame
  obtain ⟨_, _, dropped⟩ := e.dropClient_frame t
  have indexed : (e.dropClient t).Indexed := indexed_rebuildIndex _
  rw [dropped] at indexed
  rw [← changed, saved, dropped]
  constructor
  · refine ⟨indexed, ?_, ?_, fun k c there => ?_, fun s member => ?_⟩
    · rw [changed]
      exact plain.retained
    · rw [changed]
      exact plain.sessions
    · rw [changed]
      simp only [slots] at there
      split at there
      · cases there
      · exact plain.clients k c there
    · rw [changed] at member
      simp only [List.mem_filter, bne_iff_ne] at member
      obtain ⟨zero, c, there⟩ := plain.homed s member.1
      exact ⟨zero, c, (slots s.token).trans ((if_neg member.2).trans there)⟩
  · rw [changed]
  · refine Flat.ext ?_ fun k => ?_
    · rw [changed]
      simp [Broker.flat, Flat.process, Request.subscribed, List.filter_map, Function.comp_def]
    · simp only [Broker.flat, Flat.process, slots]
      split <;> rfl

theorem Sends.flat_quiet {b' : Broker} (quiet : Sends b b' fun _ => []) : b'.flat = b.flat := by
  refine Flat.ext (by rw [Broker.flat, quiet.subs]; rfl) fun k => ?_
  rw [quiet.queues]
  cases b.flat.queues k <;> simp

theorem buffers_start (plain : b.Plain) (found : b.clients.get? t = some c) :
    Buffers b t [] b c := by
  obtain ⟨empty, clean, no_will⟩ := (plain.clients t c found).1
  have pushed : c.Pushed [] { c with readBuf := [] } := ⟨⟨rfl, clean, no_will⟩, by simp⟩
  have sends := sends_insert plain found pushed
  rw [show addressed t [] = fun _ => [] from funext (addressed_nil t)] at sends
  exact ⟨found, empty, sends⟩

/-- A record of `t` that differs in its read buffer and its deadline is as quiet. -/
theorem Buffers.refresh (buffers : Buffers b t buf d c) (c' : Client)
    (same : c' = ({ c with readBuf := [] } : Client).refreshKeepalive d.now) :
    Sends b { d with clients := d.clients.insert t c' } fun _ => [] := by
  obtain ⟨-, clean, no_will⟩ := (buffers.quiet.plain.clients t _ (HashMap.get?_insert_self _ _ _)).1
  have pushed : Client.Pushed { c with readBuf := [] } [] c' := by
    rw [same, Client.refreshKeepalive]
    split <;> exact ⟨⟨rfl, clean, no_will⟩, by simp⟩
  have sends := sends_insert buffers.quiet.plain (HashMap.get?_insert_self _ _ _) pushed
  rw [HashMap.insert_insert, show addressed t [] = fun _ => [] from funext (addressed_nil t)] at sends
  exact buffers.quiet.trans sends

/-- The buffer never gets near its cap while it holds less than a packet. -/
theorem readChunk_room (buffers : Buffers b t buf d c) (some_bytes : 1 ≤ chunk.length)
    (room : (buf ++ chunk).length ≤ READ_CAP) :
    d.readChunk t (.ok chunk) = .ok ({ d with
      clients := d.clients.insert t { c with readBuf := buf ++ chunk } }, .ok true) := by
  cases chunk with
  | nil => simp at some_bytes
  | cons x xs =>
    simp only [readChunk, buffers.found, Run.unwrap_some, Run.ok_bind, buffers.readBuf, Run.pure_eq,
      if_neg (Nat.not_lt.mpr room)]

/-- A chunk that does not complete its packet only fills the buffer. -/
theorem drain_partial (buffers : Buffers b t buf d c) (some_bytes : 1 ≤ chunk.length)
    (room : (buf ++ chunk).length ≤ READ_CAP) (framed : frame (buf ++ chunk) = ⟨[], buf ++ chunk, none⟩) :
    ∃ d' c', d.drainClient t (.ok chunk) = .ok (d', .ok ()) ∧ Buffers b t (buf ++ chunk) d' c' := by
  have read := readChunk_room buffers some_bytes room
  -- At least one byte came, so the empty buffer is not what was framed.
  have not_empty : buf ++ chunk ≠ [] := by
    rintro nothing
    rw [(List.append_eq_nil_iff.mp nothing).2] at some_bytes
    simp at some_bytes
  obtain ⟨c', alive⟩ : ∃ c', c' = ({ c with readBuf := buf ++ chunk } : Client).refreshKeepalive d.now :=
    ⟨_, rfl⟩
  refine ⟨countPackets { d with clients := d.clients.insert t c' } 0, c', ?_, ?_, ?_, ?_⟩
  · simp [drainClient, read, handlePackets, beginBatch, not_empty, framed, dispatchAll, alive]
  · exact HashMap.get?_insert_self _ _ _
  · rw [alive, Client.refreshKeepalive]
    split <;> rfl
  · have quiet := buffers.refresh { c' with readBuf := [] } (by
      rw [alive]
      simp only [Client.refreshKeepalive]
      split <;> rfl)
    simpa [countPackets] using quiet

/-- The last chunk of a packet brings it to its handler, with the read buffer empty. -/
theorem drain_complete (buffers : Buffers b t buf d c) (some_bytes : 1 ≤ chunk.length)
    (room : (buf ++ chunk).length ≤ READ_CAP) (wire : r.Wire (buf ++ chunk))
    (small : r.body.length ≤ MAX_PACKET) :
    ∃ e c', Sends b e (fun _ => []) ∧ e.clients.get? t = some c' ∧
      d.process t [chunk] = e.dispatch t r.packet >>= fun answer =>
        match answer with
        | (e, .ok ()) => pure (e.countPackets 1)
        | (e, .error _) => e.removeClient t := by
  have read := readChunk_room buffers some_bytes room
  have framed := frame_wire wire small
  have not_empty : buf ++ chunk ≠ [] := by
    obtain ⟨digits, -, -, -, whole⟩ := wire
    rw [whole]
    simp
  obtain ⟨c', alive⟩ : ∃ c', c' = ({ c with readBuf := [] } : Client).refreshKeepalive d.now := ⟨_, rfl⟩
  refine ⟨_, c', buffers.refresh c' alive, HashMap.get?_insert_self _ _ _, ?_⟩
  -- The whole buffer is one packet, and nothing of it stays behind.
  have begun : beginBatch { d with clients := d.clients.insert t { c with readBuf := buf ++ chunk } } t =
      .ok ({ d with clients := d.clients.insert t c' }, .ok [r.packet]) := by
    simp [beginBatch, not_empty, framed, alive]
  simp only [process, drainClient, read, Run.ok_bind, handlePackets, begun, dispatchAll]
  rcases ({ d with clients := d.clients.insert t c' } : Broker).dispatch t r.packet with
    e | ⟨e, ⟨⟩ | ⟨⟨⟩⟩⟩ <;> rfl

/-- Up to its last chunk a packet within the limit only fills the buffer. -/
theorem process_gather (buffers : Buffers b t buf d c) (chunks : List Bytes) (last : Bytes)
    (sizes : ∀ chunk ∈ chunks ++ [last], 1 ≤ chunk.length ∧ chunk.length ≤ 65536)
    (wire : r.Wire (buf ++ (chunks ++ [last]).flatten)) (small : r.body.length ≤ MAX_PACKET) :
    ∃ buf' d' c', Buffers b t buf' d' c' ∧ r.Wire (buf' ++ last) ∧
      d.process t (chunks ++ [last]) = d'.process t [last] := by
  induction chunks generalizing buf d c with
  | nil => exact ⟨buf, d, c, buffers, by simpa using wire, rfl⟩
  | cons chunk chunks ih =>
    have last_size := sizes last (by simp)
    have split_off : buf ++ (chunk :: chunks ++ [last]).flatten =
        (buf ++ chunk) ++ (chunks ++ [last]).flatten := by simp
    rw [split_off] at wire
    -- Chunks are still to come, so what is read so far is no whole packet.
    have incomplete := incomplete_wire wire small (by
      rintro nothing
      simp only [List.flatten_append, List.flatten_singleton, List.append_eq_nil_iff] at nothing
      rw [nothing.2] at last_size
      simp at last_size)
    have room : (buf ++ chunk).length ≤ READ_CAP := by
      have bound := incomplete.length
      have cap : READ_CAP = MAX_PACKET + 1048576 := rfl
      omega
    obtain ⟨d', c', drained, buffers'⟩ := drain_partial buffers (sizes chunk (by simp)).1 room
      (frame_packets [] incomplete.unfinished)
    obtain ⟨buf', d'', c'', more, whole, rest⟩ :=
      ih buffers' (fun chunk' member => sizes chunk' (by simp at member ⊢; tauto)) wire
    refine ⟨buf', d'', c'', more, whole, ?_⟩
    rw [List.cons_append, process, drained, Run.ok_bind]
    exact rest

/-- The event loop handles a request within the packet limit as the core does. -/
theorem process_flat (plain : b.Plain) (found : b.clients.get? t = some c) (core : r.Core)
    {chunks : List Bytes} (arrives : r.Arrives chunks) (small : r.body.length ≤ MAX_PACKET)
    (fits : b.flat.Fits WRITE_QUEUE_CAP t r) :
    ∃ b', b.process t chunks = .ok b' ∧ Handles b t r b' := by
  obtain ⟨sizes, wire⟩ := arrives
  rcases List.eq_nil_or_concat chunks with rfl | ⟨front, last, rfl⟩
  · obtain ⟨digits, -, -, -, whole⟩ := wire
    simp at whole
  rw [List.concat_eq_append] at sizes wire ⊢
  obtain ⟨buf, d, c₁, buffers, whole, gathered⟩ :=
    process_gather (buffers_start plain found) front last sizes wire small
  have last_size := sizes last (by simp)
  have room : (buf ++ last).length ≤ READ_CAP := by
    have bound := (incomplete_wire whole small (List.length_pos_iff.mp last_size.1)).length
    have cap : READ_CAP = MAX_PACKET + 1048576 := rfl
    rw [List.length_append]
    omega
  obtain ⟨e, c', quiet, found', processed⟩ := drain_complete buffers last_size.1 room whole small
  have same := quiet.flat_quiet
  rw [← same] at fits
  rw [gathered]
  -- A packet that keeps the client goes to its handler, and the batch ends behind it.
  have loops : (∃ f, e.dispatch t r.packet = .ok (f, .ok ()) ∧ Handles e t r f) →
      ∃ b', d.process t [last] = .ok b' ∧ Handles b t r b' := by
    rintro ⟨f, handled, handles⟩
    refine ⟨f.countPackets 1, by rw [processed, handled]; rfl, ?_⟩
    obtain ⟨⟨indexed, retained, sessions, clients, homed⟩, token, flat⟩ := handles
    exact ⟨⟨indexed, retained, sessions, clients, homed⟩, token.trans quiet.token, same ▸ flat⟩
  cases r with
  | connect keepalive cid user password =>
    exact loops (dispatch_connect quiet.plain found' keepalive cid user password core fits)
  | subscribe pid filters =>
    exact loops (dispatch_subscribe quiet.plain found' pid filters core fits)
  | unsubscribe pid filters =>
    exact loops (dispatch_unsubscribe quiet.plain found' pid filters core fits)
  | publish dup topic pid payload =>
    exact loops (dispatch_publish quiet.plain found' dup topic pid payload core fits)
  | pingreq => exact loops (dispatch_pingreq quiet.plain found' fits)
  | disconnect =>
    -- DISCONNECT marks the client clean and hands its removal to the caller.
    have handled : e.dispatch t Request.disconnect.packet = .ok ({ e with
        clients := e.clients.insert t { c' with cleanDisconnect := true } }, .error "disconnect") := by
      simp [dispatch, Request.kind, handleDisconnect, modifyClient, found',
        show DISCONNECT ≠ CONNECT by decide, show DISCONNECT ≠ SUBSCRIBE by decide,
        show DISCONNECT ≠ UNSUBSCRIBE by decide, show DISCONNECT ≠ PUBLISH by decide,
        show DISCONNECT ≠ PUBACK by decide, show DISCONNECT ≠ PUBREC by decide,
        show DISCONNECT ≠ PUBREL by decide, show DISCONNECT ≠ PUBCOMP by decide,
        show DISCONNECT ≠ PINGREQ by decide]
    obtain ⟨-, clean, unwilled⟩ := (quiet.plain.clients t c' found').1
    obtain ⟨left, token, flat⟩ := handles_drop quiet.plain t { c' with cleanDisconnect := true }
    refine ⟨_, ?_, left, token.trans quiet.token, same ▸ flat⟩
    rw [processed, handled]
    exact removeClient_plain (HashMap.get?_insert_self _ _ _) clean unwilled

/-- A refused chunk costs the connection, like a DISCONNECT. -/
theorem process_refused (buffers : Buffers b t buf d c) (some_bytes : 1 ≤ chunk.length)
    (refused : READ_CAP < (buf ++ chunk).length ∨
      ∃ n, frame (buf ++ chunk) = ⟨[], buf ++ chunk, some n⟩) (chunks : List Bytes) :
    ∃ b', d.process t (chunk :: chunks) = .ok b' ∧ Handles b t .disconnect b' := by
  obtain ⟨c', filled⟩ : ∃ c', c' = { c with readBuf := buf ++ chunk } := ⟨_, rfl⟩
  have drained : d.drainClient t (.ok chunk) =
      .ok ({ d with clients := d.clients.insert t c' }, .error ()) := by
    -- Either the frame is refused for its length or the buffer is full before it is read.
    by_cases room : (buf ++ chunk).length ≤ READ_CAP
    · obtain ⟨n, framed⟩ := refused.resolve_left (Nat.not_lt.mpr room)
      have not_empty : buf ++ chunk ≠ [] := by
        rintro nothing
        rw [(List.append_eq_nil_iff.mp nothing).2] at some_bytes
        simp at some_bytes
      have read := readChunk_room buffers some_bytes room
      simp [drainClient, read, handlePackets, beginBatch, not_empty, framed, filled]
    · cases chunk with
      | nil => simp at some_bytes
      | cons x xs =>
        have flooded := Nat.not_le.mp room
        simp only [drainClient, readChunk, buffers.found, Run.unwrap_some, Run.ok_bind, Run.pure_eq,
          buffers.readBuf, filled]
        rw [if_pos flooded]
  obtain ⟨-, clean, unwilled⟩ :=
    (buffers.quiet.plain.clients t _ (HashMap.get?_insert_self _ _ _)).1
  obtain ⟨left, token, flat⟩ := handles_drop buffers.quiet.plain t c'
  rw [HashMap.insert_insert] at left token flat
  refine ⟨_, ?_, left, token.trans buffers.quiet.token, flat.trans ?_⟩
  · rw [process, drained, Run.ok_bind]
    refine removeClient_plain (HashMap.get?_insert_self _ _ _) ?_ ?_
    · rw [filled]
      exact clean
    · rw [filled]
      exact unwilled
  · rw [buffers.quiet.flat_quiet]

/-- A packet over the limit is refused at one of its chunks. -/
theorem process_large (buffers : Buffers b t buf d c) (chunks : List Bytes) (more : chunks ≠ [])
    (sizes : ∀ chunk ∈ chunks, 1 ≤ chunk.length ∧ chunk.length ≤ 65536)
    (wire : r.Wire (buf ++ chunks.flatten)) (large : MAX_PACKET < r.body.length) :
    ∃ b', d.process t chunks = .ok b' ∧ Handles b t .disconnect b' := by
  induction chunks generalizing buf d c with
  | nil => exact absurd rfl more
  | cons chunk chunks ih =>
    rw [List.flatten_cons, ← List.append_assoc] at wire
    have some_bytes := (sizes chunk (by simp)).1
    obtain ⟨bad, framed, last⟩ := frame_oversized wire large
    by_cases room : (buf ++ chunk).length ≤ READ_CAP
    · -- The length is announced in the first digits, so the refusal can come chunks early.
      cases bad with
      | some n => exact process_refused buffers some_bytes (.inr ⟨n, framed⟩) chunks
      | none =>
        have unfinished : chunks ≠ [] := by
          rintro rfl
          exact last rfl rfl
        obtain ⟨d', c', drained, buffers'⟩ := drain_partial buffers some_bytes room framed
        rw [process, drained, Run.ok_bind]
        exact ih buffers' unfinished (fun other member => sizes other (by simp [member])) wire
    · exact process_refused buffers some_bytes (.inl (Nat.not_le.mp room)) chunks

theorem process_oversized (plain : b.Plain) (found : b.clients.get? t = some c) {chunks : List Bytes}
    (arrives : r.Arrives chunks) (large : MAX_PACKET < r.body.length) :
    ∃ b', b.process t chunks = .ok b' ∧ Handles b t .disconnect b' := by
  refine process_large (buffers_start plain found) chunks ?_ arrives.sizes arrives.wire large
  rintro rfl
  obtain ⟨digits, -, -, -, whole⟩ := arrives.wire
  simp at whole

end Process

/-! ### Everything else -/

/-- A fresh process that finds no state file. -/
def start (h : Hashers) (now : Instant) (fault : Option (Option Bytes)) : Broker :=
  (new h now ⟨none, fault⟩).loadState h

theorem plain_start (h : Hashers) (now : Instant) (fault : Option (Option Bytes)) :
    (start h now fault).Plain := by
  refine ⟨.empty h.exact, fun topic => ?_, fun cid => ?_, fun k c found => ?_, fun s member => ?_⟩
  · exact HashMap.get?_new _ _
  · exact HashMap.get?_new _ _
  · have none_there : (start h now fault).clients.get? k = none := HashMap.get?_new _ _
    rw [none_there] at found
    cases found
  · cases member

theorem flat_start (h : Hashers) (now : Instant) (fault : Option (Option Bytes)) :
    (start h now fault).flat = .empty := by
  refine Flat.ext rfl fun k => ?_
  have none_there : (start h now fault).clients.get? k = none := HashMap.get?_new _ _
  simp only [flat, none_there]
  rfl

theorem plain_accept {b : Broker} (plain : b.Plain) (h₁ h₂ : RandomState UInt16) :
    (b.accept h₁ h₂).Plain := by
  refine ⟨plain.indexed, plain.retained, plain.sessions, fun k c found => ?_, fun s member => ?_⟩
  · simp only [accept, HashMap.get?_insert] at found
    split at found
    next same =>
      cases found
      exact ⟨⟨rfl, rfl, rfl⟩, same ▸ Nat.lt_succ_self _⟩
    next =>
      obtain ⟨same, known⟩ := plain.clients k c found
      exact ⟨same, Nat.lt_succ_of_lt known⟩
  · obtain ⟨zero, c, found⟩ := plain.homed s member
    have older := (plain.clients _ _ found).2
    exact ⟨zero, c, (HashMap.get?_insert_ne _ _ (Nat.ne_of_lt older)).trans found⟩

theorem flat_accept (b : Broker) (h₁ h₂ : RandomState UInt16) :
    (b.accept h₁ h₂).flat = b.flat.accept b.nextToken := by
  refine Flat.ext rfl fun k => ?_
  simp only [flat, accept, Flat.accept, HashMap.get?_insert]
  split <;> rfl

/-- A write loop that does not fail leaves everything but the queue as it is. -/
theorem flush_flat {b : Broker} (plain : b.Plain) {t : Token} {c : Client}
    (found : b.clients.get? t = some c) (ws : List WriteResult) (writes : (c.writeLoop ws).2 ≠ .dead) :
    ∃ b', b.flushWrites t ws = .ok b' ∧ b'.Plain ∧ b'.nextToken = b.nextToken ∧
      b'.flat.subs = b.flat.subs ∧ ∀ k, (b'.flat.queues k).isSome = (b.flat.queues k).isSome := by
  -- Writing does not touch what makes the record plain.
  have own : (c.writeLoop ws).1.Plain := by
    obtain ⟨empty, clean, no_will⟩ := (plain.clients t c found).1
    rw [(Client.writeLoop_frame ws c).1]
    exact ⟨empty, clean, no_will⟩
  obtain ⟨d, result, loop⟩ : ∃ d result, c.writeLoop ws = (d, result) := ⟨_, _, rfl⟩
  rw [loop] at own writes
  simp only [flushWrites, found, Run.unwrap_some, Run.ok_bind, loop, if_neg writes, Run.pure_eq,
    HashMap.insert_insert]
  refine ⟨_, rfl, ⟨plain.indexed, plain.retained, plain.sessions, fun k e there => ?_,
    fun s member => ?_⟩, rfl, rfl, fun k => ?_⟩
  · simp only [HashMap.get?_insert] at there
    split at there
    next same =>
      cases there
      exact ⟨⟨own.readBuf, own.cleanSession, own.willFlag⟩, same ▸ (plain.clients t c found).2⟩
    next => exact plain.clients k e there
  · obtain ⟨zero, e, there⟩ := plain.homed s member
    refine ⟨zero, ?_⟩
    simp only [HashMap.get?_insert]
    split
    · exact ⟨_, rfl⟩
    · exact ⟨e, there⟩
  · simp only [flat, HashMap.get?_insert]
    split
    next same => rw [same, found]; rfl
    next => rfl

end Broker
end MioBroker
