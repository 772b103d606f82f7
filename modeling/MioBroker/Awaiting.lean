import MioBroker.Genuine

/-!
# Messages waiting to be acknowledged

How often one message is in flight on one connection without having been acknowledged, and how
deliveries, acknowledgements and disconnects change that number.
-/
namespace MioBroker

open Rust

/-- What follows the first byte of the PUBLISH that carries a message under a packet id. -/
def forwardTail (m : Str × Bytes) (pid : UInt16) : Bytes :=
  let body := forwardBody m.1.bytes m.2 (some pid)
  encodeRem body.length ++ body

theorem buildForward_tail (topic : Str) (payload : Bytes) (qos : UInt8) (pid : UInt16)
    (dup retain : Bool) :
    (buildForward topic.bytes payload qos (some pid) dup retain).tail =
      forwardTail (topic, payload) pid := rfl

/-- The entry is a copy of the message that PUBACK or PUBREC has yet to acknowledge. -/
def InFlight.awaits (entry : InFlight) (m : Str × Bytes) (pid : UInt16) : Bool :=
  !entry.awaitPubcomp && decide (entry.pkt.tail = forwardTail m pid)

namespace Client

/-- The number of such copies. -/
def awaiting (c : Client) (m : Str × Bytes) : Nat :=
  c.inFlight.sum fun pid entry => (entry.awaits m pid).toNat

@[simp] theorem awaiting_accepted (t : Token) (h₁ h₂ : RandomState UInt16) (m : Str × Bytes) :
    (accepted t h₁ h₂).awaiting m = 0 :=
  HashMap.sum_eq_zero _ _ fun pid entry found => by simp [accepted] at found

@[simp] theorem awaiting_reply (c : Client) (pkt : Bytes) (m : Str × Bytes) :
    (c.reply pkt).awaiting m = c.awaiting m := by
  rw [awaiting, inFlight_reply, awaiting]

/-- An accepted reliable message waits from then on. -/
theorem awaiting_offer {c d : Client} {now : Instant} {topic : Str} {payload : Bytes} {qos : UInt8}
    {retain : Bool} (done : c.offer now topic payload qos retain = .queued d) (m : Str × Bytes) :
    c.awaiting m + (if (topic, payload) = m ∧ qos ≠ 0 then 1 else 0) ≤ d.awaiting m := by
  by_cases unreliable : qos = 0
  · subst unreliable
    have same := (offer_qos0_counts c d now topic payload retain done).2.1
    simp [awaiting, same]
  · obtain ⟨pid, next, queue, -, fresh, -, rfl, -⟩ :=
      offer_reliable c d now topic payload qos retain unreliable done
    simp only [awaiting]
    -- The id is fresh, so its entry comes on top of what was awaited.
    have more := c.inFlight.sum_insert pid
      ⟨buildForward topic.bytes payload qos (some pid) false retain, now, 0, qos == 2, false⟩
      fun pid entry => (entry.awaits m pid).toNat
    rw [HashMap.share_none fresh, Nat.add_zero] at more
    rw [more]
    split
    next same =>
      obtain ⟨rfl, -⟩ := same
      simp [InFlight.awaits, buildForward_tail]
    next => omega

end Client

/-- How many of the copies a change of the record acknowledges. -/
def Change.settles (c : Client) (m : Str × Bytes) : Change → Nat
  | .acked pid => c.inFlight.share (fun pid entry => (entry.awaits m pid).toNat) pid
  | .pubrec pid =>
    c.inFlight.share (fun pid entry => (entry.qos2 && entry.awaits m pid).toNat) pid
  | _ => 0

namespace Client

theorem awaiting_restartTimer (c : Client) (pid : UInt16) (now : Instant) (m : Str × Bytes) :
    (c.restartTimer pid now).awaiting m = c.awaiting m := by
  simp only [restartTimer]
  split
  next entry found =>
    have more := c.inFlight.sum_insert pid { entry with sentAt := now, retries := entry.retries + 1 }
      fun pid entry => (entry.awaits m pid).toNat
    rw [HashMap.share_some found] at more
    exact Nat.add_right_cancel more
  next => rfl

/-- Nothing but acknowledgements ends the waiting. -/
theorem awaiting_change (c : Client) (now : Instant) (ch : Change) (m : Str × Bytes) :
    (ch.apply now c).awaiting m + ch.settles c m = c.awaiting m := by
  cases ch with
  | reply pkt => exact awaiting_reply c pkt m
  | connect p => exact awaiting_reply _ _ m
  | buffer buf => rfl
  | alive =>
    simp only [Change.apply, refreshKeepalive]
    split <;> rfl
  | publishQos2 pid =>
    refine (awaiting_reply _ _ m).trans ?_
    split <;> rfl
  | acked pid => exact c.inFlight.sum_erase pid _
  -- PUBREC settles the entry it moves on: from then on the receiver has the message.
  | pubrec pid =>
    simp only [Change.apply, pubrec, Change.settles]
    split
    next entry found =>
      rw [HashMap.share_some found]
      split
      next waiting =>
        have more := c.inFlight.sum_insert pid
          { entry with awaitPubcomp := true, sentAt := now, retries := 0 }
          fun pid entry => (entry.awaits m pid).toNat
        obtain ⟨qos2, open_⟩ := by simpa using waiting
        rw [HashMap.share_some found] at more
        rw [awaiting_reply]
        simpa [awaiting, qos2, InFlight.awaits] using more
      next settled =>
        -- At QoS 1 or behind an earlier PUBREC the entry is not settled once more.
        have none_left : (entry.qos2 && entry.awaits m pid).toNat = 0 := by
          cases qos2 : entry.qos2 with
          | false => rfl
          | true =>
            have released : entry.awaitPubcomp = true := by simpa [qos2] using settled
            simp [InFlight.awaits, released]
        rw [none_left, Nat.add_zero]
    next absent => rw [HashMap.share_none absent, Nat.add_zero]
  | pubrel pid => exact awaiting_reply _ _ m
  | disconnect => rfl
  | retry pid pkt scanned =>
    have same := inFlight_queueQos1 c pkt
    simp only [Change.apply, Change.settles, Nat.add_zero]
    split
    next d made =>
      rw [made] at same
      rw [awaiting_restartTimer, awaiting, same, awaiting]
    next d made =>
      rw [made] at same
      rw [awaiting, same, awaiting]
  | write ws =>
    simp only [Change.apply, Change.settles, Nat.add_zero]
    rw [awaiting, inFlight_writeLoop, awaiting]
  | rearm interest => rfl

/-! ### What a disconnect gives back -/

/-- Every copy that waits is also in the queue, short enough to be read back. -/
def Recoverable (c : Client) : Prop :=
  ∀ pid entry, c.inFlight.get? pid = some entry → entry.awaitPubcomp = false →
    ((true, entry.pkt) ∈ c.writeQueue ∨ (true, entry.retransmit pid) ∈ c.writeQueue) ∧
      entry.pkt.length < 130

/-- A reliable message is queued behind what is there. -/
theorem Recoverable.offer {c d : Client} (recoverable : c.Recoverable) {now : Instant} {topic : Str}
    {payload : Bytes} {qos : UInt8} {retain : Bool}
    (short : qos ≠ 0 → 4 + topic.length + payload.length < 128)
    (done : c.offer now topic payload qos retain = .queued d) : d.Recoverable := by
  by_cases unreliable : qos = 0
  · subst unreliable
    obtain ⟨room, -⟩ := offer_qos0_counts c d now topic payload retain done
    rw [offer_qos0_room c now topic payload retain room] at done
    cases done
    intro pid entry found waiting
    obtain ⟨queued, small⟩ := recoverable pid entry found waiting
    exact ⟨queued.imp (List.mem_append_left _) (List.mem_append_left _), small⟩
  · obtain ⟨pid, next, queue, -, -, -, rfl, filtered, -⟩ :=
      offer_reliable c d now topic payload qos retain unreliable done
    -- What an offer evicts is unreliable, so no reliable entry leaves the queue.
    have kept : ∀ pkt, (true, pkt) ∈ c.writeQueue → (true, pkt) ∈ queue :=
      fun pkt member => mem_of_filter_eq filtered.symm member rfl
    intro pid' entry found waiting
    rw [HashMap.get?_insert] at found
    split at found
    next =>
      cases found
      refine ⟨.inl (List.mem_append_right _ (by simp)), ?_⟩
      have fits := short unreliable
      -- The remaining length fits one byte, which is what the decoder of the queue assumes.
      have length : (forwardBody topic.bytes payload (some pid)).length =
          4 + topic.length + payload.length := by
        simp only [forwardBody, List.length_append, length_u16ToBe, Str.length]
        omega
      simp only [buildForward, List.length_cons, List.length_append]
      rw [encodeRem_short (by omega), length, List.length_singleton]
      omega
    next =>
      obtain ⟨queued, small⟩ := recoverable pid' entry found waiting
      exact ⟨queued.imp (fun member => List.mem_append_left _ (kept _ member))
        (fun member => List.mem_append_left _ (kept _ member)), small⟩

end Client

/-- A queued message of a session is this one, to be sent reliably. -/
def isMessage (m : Str × Bytes) (x : Str × Bytes × UInt8) : Bool :=
  decide (x.1 = m.1 ∧ x.2.1 = m.2 ∧ x.2.2 ≠ 0)

theorem length_forwardTail (m : Str × Bytes) (pid : UInt16) :
    (forwardTail m pid).length =
      (encodeRem (4 + m.1.length + m.2.length)).length + (4 + m.1.length + m.2.length) := by
  have length : (forwardBody m.1.bytes m.2 (some pid)).length = 4 + m.1.length + m.2.length := by
    simp only [forwardBody, List.length_append, length_u16ToBe, Str.length]
    omega
  rw [forwardTail, List.length_append, length]

theorem forwardTail_inj {m : Str × Bytes} {p q : UInt16} (same : forwardTail m p = forwardTail m q) :
    p = q := by
  simp only [forwardTail, forwardBody, List.length_append, length_u16ToBe] at same
  have ids := List.append_cancel_right (List.append_cancel_left
    ((List.append_assoc _ _ _).symm.trans ((List.append_cancel_left same).trans (List.append_assoc _ _ _))))
  simp only [u16ToBe, List.cons.injEq] at ids
  calc p
      _ = u16FromBe (UInt8.ofNat (p.toNat / 256)) (UInt8.ofNat p.toNat) := (u16FromBe_toBe p).symm
      _ = u16FromBe (UInt8.ofNat (q.toNat / 256)) (UInt8.ofNat q.toNat) := by rw [ids.1, ids.2.1]
      _ = q := u16FromBe_toBe q

/-- A short PUBLISH that carries the message is read back as the message. -/
theorem decode_of_tail {x : Queued} {m : Str × Bytes} {pid : UInt16} {y : Str × Bytes × UInt8}
    (tail : x.encode.tail = forwardTail m pid) (short : (forwardTail m pid).length < 129)
    (done : Broker.decodeQueued x.encode = .ok y) : isMessage m y = true := by
  have digits : 1 ≤ (encodeRem (4 + m.1.length + m.2.length)).length := length_encodeRemAux _ _
  rw [length_forwardTail] at short
  cases x with
  | pubrel id =>
    have sizes := congrArg List.length tail
    rw [length_forwardTail] at sizes
    simp only [Queued.encode, List.cons_append, List.nil_append, List.tail_cons, List.length_cons,
      length_u16ToBe] at sizes
    omega
  | publish f =>
    -- the same bytes as the forwarded message itself
    have same : (Queued.publish f).encode =
        Forward.encode { f with topic := m.1, payload := m.2, pid } := by
      rw [Queued.encode, Forward.encode_eq, List.cons_append] at tail ⊢
      rw [List.tail_cons] at tail
      rw [tail]
      rfl
    have fits : Forward.Short { f with topic := m.1, payload := m.2, pid } := by
      simp only [Forward.Short]
      omega
    rw [same, Forward.decode_short _ fits] at done
    cases done
    simpa [isMessage, Forward.message] using f.reliable

namespace Client

theorem forall₂_countP {α β : Type} {R : α → β → Prop} {p : α → Bool} {q : β → Bool} {l : List α}
    {r : List β} (pairs : List.Forall₂ R l r) (kept : ∀ a b, a ∈ l → R a b → p a = true → q b = true) :
    l.countP p ≤ r.countP q := by
  induction pairs with
  | nil => exact Nat.le_refl _
  | @cons a b l r first rest ih =>
    have tail := ih fun a b member => kept a b (List.mem_cons_of_mem _ member)
    have head := kept a b List.mem_cons_self first
    rw [List.countP_cons, List.countP_cons]
    cases holds : p a with
    | false =>
      simp only [Bool.false_eq_true, if_false]
      omega
    | true =>
      rw [head holds]
      simp only [if_true]
      omega

/-- The ids under which the window holds copies of `m` that wait for PUBACK or PUBREC. -/
def awaitingIds (c : Client) (m : Str × Bytes) : List UInt16 :=
  (c.inFlight.iter.filter fun e => e.2.awaits m e.1).map Prod.fst

theorem length_awaitingIds (c : Client) (m : Str × Bytes) : (c.awaitingIds m).length = c.awaiting m := by
  rw [awaitingIds, awaiting, HashMap.sum, List.length_map]
  induction c.inFlight.iter with
  | nil => rfl
  | cons e entries ih =>
    rw [List.map_cons, List.sum_cons, ← ih, List.filter_cons]
    cases e.2.awaits m e.1 <;> simp [Nat.add_comm]

/-- Ids are used once, so the copies differ behind their header. -/
theorem nodup_awaitingTails (c : Client) (m : Str × Bytes) :
    ((c.awaitingIds m).map (forwardTail m)).Nodup := by
  refine List.Nodup.map (fun p q same => forwardTail_inj same) ?_
  exact (c.inFlight.nodup_keys).sublist ((List.filter_sublist).map _)

/-- Each of these copies is still in the queue, as it was sent or as it was sent again. -/
theorem awaitingIds_queued {c : Client} (genuine : c.Genuine) (recoverable : c.Recoverable)
    {m : Str × Bytes} {pid : UInt16} (member : pid ∈ c.awaitingIds m) :
    ∃ e ∈ c.reliablePackets, e.2.tail = forwardTail m pid ∧ (forwardTail m pid).length < 129 := by
  obtain ⟨⟨pid', entry⟩, there, rfl⟩ := List.mem_map.mp member
  obtain ⟨listed, waits⟩ := List.mem_filter.mp there
  have found := (c.inFlight.mem_iter pid' entry).mp listed
  simp only [InFlight.awaits, Bool.and_eq_true, Bool.not_eq_true', decide_eq_true_eq] at waits
  obtain ⟨queued, small⟩ := recoverable pid' entry found waits.1
  obtain ⟨f, -, -, -, pkt⟩ := genuine.window pid' entry found
  have size : (forwardTail m pid').length < 129 := by
    rw [← waits.2, List.length_tail]
    omega
  rcases queued with original | copy
  · exact ⟨_, List.mem_filter.mpr ⟨original, rfl⟩, waits.2, size⟩
  · -- a retransmission has the DUP bit in its first byte, and the same tail
    refine ⟨_, List.mem_filter.mpr ⟨copy, rfl⟩, ?_, size⟩
    rw [retransmit_encode pkt, waits.1, Bool.and_false, if_neg (by simp), ← waits.2, pkt]
    rfl

/-- The copies in the window of a client that can be recovered are all read back. -/
theorem awaiting_le_readBack {c : Client} (genuine : c.Genuine) (recoverable : c.Recoverable)
    {offline : List (Str × Bytes × UInt8)}
    (decoded : (c.reliablePackets.mapM fun e => Broker.decodeQueued e.2) = .ok offline)
    (m : Str × Bytes) : c.awaiting m ≤ offline.countP (isMessage m) := by
  obtain ⟨tails, tails_eq⟩ : ∃ tails, tails = (c.awaitingIds m).map (forwardTail m) := ⟨_, rfl⟩
  calc c.awaiting m
      _ = tails.length := by rw [tails_eq, List.length_map, length_awaitingIds]
      _ ≤ ((c.reliablePackets.map fun e => e.2.tail).filter (· ∈ tails)).length := by
        -- different tails are those of different packets in the queue
        refine ((tails_eq ▸ c.nodup_awaitingTails m).subperm fun tail member => ?_).length_le
        rw [tails_eq] at member
        obtain ⟨pid, there, rfl⟩ := List.mem_map.mp member
        obtain ⟨e, queued, same, -⟩ := awaitingIds_queued genuine recoverable there
        refine List.mem_filter.mpr ⟨List.mem_map.mpr ⟨e, queued, same⟩, ?_⟩
        rw [tails_eq]
        exact decide_eq_true member
      _ = c.reliablePackets.countP fun e => e.2.tail ∈ tails := by
        rw [← List.countP_eq_length_filter, List.countP_map]
        rfl
      _ ≤ offline.countP (isMessage m) := by
        -- and each of these packets is decoded as the message
        refine forall₂_countP (Run.mapM_ok.mp decoded) fun e y member read listed => ?_
        rw [tails_eq] at listed
        obtain ⟨pid, there, same⟩ := List.mem_map.mp (of_decide_eq_true listed)
        obtain ⟨-, -, -, size⟩ := awaitingIds_queued genuine recoverable there
        obtain ⟨queued, isReliable⟩ := List.mem_filter.mp member
        obtain ⟨x, encoded⟩ := genuine.queue e queued isReliable
        rw [encoded] at same read
        exact decode_of_tail same.symm size read

end Client
end MioBroker
