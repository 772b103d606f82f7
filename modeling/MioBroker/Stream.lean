import MioBroker.Output

/-!
# The outgoing byte stream

What a socket has accepted, what is left of the batch and what is queued are together the
packets the queue took and did not evict, whole and in the order in which it took them.
-/
namespace MioBroker

open Rust

namespace Client

theorem fillBatch_eq (queue : List (Bool × Bytes)) (batch : Bytes) :
    ∃ n ≤ queue.length, fillBatch queue batch =
      (queue.drop n, batch ++ (queue.take n).flatMap Prod.snd) := by
  induction queue generalizing batch with
  | nil => exact ⟨0, Nat.le_refl _, by simp [fillBatch]⟩
  | cons entry queue ih =>
    obtain ⟨r, p⟩ := entry
    simp only [fillBatch]
    split
    · obtain ⟨n, le, filled⟩ := ih (batch ++ p)
      exact ⟨n + 1, Nat.succ_le_succ le, by simp [filled, List.append_assoc]⟩
    · exact ⟨0, Nat.zero_le _, by simp⟩

/-- The bytes of the packets that left the queue: those the socket accepted, and the rest of the batch. -/
def handed (c : Client) : Bytes := c.stream.accepted ++ c.writePending.drop c.writeOff

/-- The packets that left the queue in a refill are in the batch. -/
theorem refill_handed {c d : Client} (done : c.refill = some d) :
    ∃ n ≤ c.writeQueue.length, d.writeQueue = c.writeQueue.drop n ∧
      d.handed = c.handed ++ (c.writeQueue.take n).flatMap Prod.snd := by
  simp only [refill] at done
  split at done
  next written =>
    split at done
    · cases done
    · obtain ⟨n, le, filled⟩ := fillBatch_eq c.writeQueue []
      cases done
      exact ⟨n, le, by simp [filled], by simp [handed, filled, written]⟩
  next =>
    cases done
    exact ⟨0, Nat.zero_le _, by simp, by simp⟩

/-- A write moves bytes from the batch to the socket. -/
theorem handed_write (c : Client) (n : Nat) :
    handed { c with
      stream := ⟨c.stream.accepted ++ (c.writePending.drop c.writeOff).take n⟩
      writeOff := c.writeOff + n } = c.handed := by
  simp only [handed, List.append_assoc]
  rw [← List.drop_drop, List.take_append_drop]

/-- Whatever the socket answers, the packets that left the queue are handed over whole and in
order. -/
theorem writeLoop_handed (ws : List WriteResult) (c : Client) :
    ∃ n ≤ c.writeQueue.length, (c.writeLoop ws).1.writeQueue = c.writeQueue.drop n ∧
      (c.writeLoop ws).1.handed = c.handed ++ (c.writeQueue.take n).flatMap Prod.snd := by
  induction ws generalizing c with
  | nil =>
    rw [writeLoop]
    split
    · exact ⟨0, Nat.zero_le _, by simp, by simp⟩
    next d done => exact refill_handed done
  | cons w ws ih =>
    rw [writeLoop]
    split
    · exact ⟨0, Nat.zero_le _, by simp, by simp⟩
    next d done =>
      obtain ⟨n, le, queue, bytes⟩ := refill_handed done
      -- The induction goes on from the shortened queue; the two prefixes add up.
      have later : ∀ e : Client, e.writeQueue = d.writeQueue → e.handed = d.handed →
          ∃ m ≤ c.writeQueue.length, (e.writeLoop ws).1.writeQueue = c.writeQueue.drop m ∧
            (e.writeLoop ws).1.handed = c.handed ++ (c.writeQueue.take m).flatMap Prod.snd := by
        intro e same_queue same_bytes
        obtain ⟨m, le', queue', bytes'⟩ := ih e
        rw [same_queue, queue] at le' queue' bytes'
        rw [List.length_drop] at le'
        refine ⟨n + m, by omega, by rw [queue', List.drop_drop], ?_⟩
        rw [bytes', same_bytes, bytes, List.append_assoc, ← List.flatMap_append, ← List.take_add]
      cases w with
      | wouldBlock => exact ⟨n, le, queue, bytes⟩
      | err => exact ⟨n, le, queue, bytes⟩
      | ok size =>
        simp only
        split
        · exact ⟨n, le, queue, bytes⟩
        · refine later _ ?_ (handed_write d _)
          rfl

end Client

/-! ### Packets by number -/

/-- The calls that touch the outgoing half of a connection. -/
inductive Outgoing
  | queueQos0 (pkt : Bytes)
  | queueQos1 (pkt : Bytes)
  | flush (ws : List WriteResult)

/-- A connection with, not in the source, the packets its queue took so far. They are numbered
in the order in which they were taken. -/
structure Outbox where
  client : Client
  taken : List Bytes
  /-- the numbers of the entries of the queue -/
  queued : List Nat
  /-- the numbers of the packets that were evicted -/
  evicted : List Nat

namespace Outbox

def start (t : Token) (h₁ h₂ : RandomState UInt16) : Outbox := ⟨.accepted t h₁ h₂, [], [], []⟩

/-- The eviction loop of `queue_qos1` on the numbers of the entries: those that stay, and those
that are evicted. -/
def evict : Nat → List (Bool × Bytes) → List Nat → List Nat × List Nat
  | 0, _, numbers => (numbers, [])
  | fuel + 1, queue, numbers =>
    if queue.length ≥ WRITE_QUEUE_CAP then
      match queue.findIdx? fun entry => !entry.1 with
      | some idx =>
        let (left, gone) := evict fuel (queue.eraseIdx idx) (numbers.eraseIdx idx)
        (left, numbers[idx]?.toList ++ gone)
      | none => (numbers, [])
    else (numbers, [])

/-- The queue took one more packet. -/
def push (o : Outbox) (pkt : Bytes) : Outbox :=
  { o with taken := o.taken ++ [pkt], queued := o.queued ++ [o.taken.length] }

def call (o : Outbox) : Outgoing → Outbox
  | .queueQos0 pkt =>
    match o.client.queueQos0 pkt with
    | (c, true) => { o with client := c }.push pkt
    | (c, false) => { o with client := c }
  | .queueQos1 pkt =>
    let (left, gone) := evict o.client.writeQueue.length o.client.writeQueue o.queued
    let o' := { o with queued := left, evicted := o.evicted ++ gone }
    match o.client.queueQos1 pkt with
    | (c, .ok ()) => { o' with client := c }.push pkt
    | (c, .error ()) => { o' with client := c }
  | .flush ws =>
    let c := (o.client.writeLoop ws).1
    { o with client := c, queued := o.queued.drop (o.client.writeQueue.length - c.writeQueue.length) }

def run (o : Outbox) (calls : List Outgoing) : Outbox := calls.foldl call o

def packet (o : Outbox) (k : Nat) : Bytes := o.taken.getD k []

/-- The packets taken and not evicted, by number. -/
def survivors (o : Outbox) : List Nat := (List.range o.taken.length).filter (· ∉ o.evicted)

theorem nodup_survivors (o : Outbox) : o.survivors.Nodup := List.nodup_range.filter _

/-- The queue holds the last survivors; the bytes of those before it are handed over. -/
structure Intact (o : Outbox) : Prop where
  bounded : ∀ k ∈ o.evicted, k < o.taken.length
  queue : o.client.writeQueue.map Prod.snd = o.queued.map o.packet
  numbers : ∃ moved, o.survivors = moved ++ o.queued ∧ o.client.handed = moved.flatMap o.packet

/-- Evicting numbers follows evicting entries: what goes was queued, and the rest stays as it
was. -/
theorem evict_spec (packet : Nat → Bytes) (fuel : Nat) (queue : List (Bool × Bytes))
    (numbers : List Nat) (distinct : numbers.Nodup)
    (same : queue.map Prod.snd = numbers.map packet) :
    (Client.makeRoom fuel queue).1.map Prod.snd = (evict fuel queue numbers).1.map packet ∧
      (∀ k ∈ (evict fuel queue numbers).2, k ∈ numbers) ∧
      (evict fuel queue numbers).1 = numbers.filter (· ∉ (evict fuel queue numbers).2) := by
  induction fuel generalizing queue numbers with
  | zero => simp [evict, Client.makeRoom, same]
  | succ fuel ih =>
    simp only [evict, Client.makeRoom]
    split
    · cases found : queue.findIdx? fun entry => !entry.1 with
      | none => simp [same]
      | some idx =>
        have inside : idx < numbers.length := by
          have lengths := congrArg List.length same
          have lt := (List.findIdx?_eq_some_iff_getElem.mp found).1
          simp only [List.length_map] at lengths
          omega
        -- The numbers are distinct, so erasing by place is erasing by value.
        have erased : numbers.eraseIdx idx = numbers.filter (· ≠ numbers[idx]) := by
          rw [← distinct.erase_getElem idx inside, distinct.erase_eq_filter]
          refine List.filter_congr fun k _ => ?_
          by_cases same : k = numbers[idx] <;> simp [same]
        obtain ⟨left, queued, stay⟩ := ih (queue.eraseIdx idx) (numbers.eraseIdx idx)
          (distinct.sublist (List.eraseIdx_sublist _ _))
          (by rw [← List.eraseIdx_map, ← List.eraseIdx_map, same])
        simp only [List.getElem?_eq_getElem inside, Option.toList_some]
        refine ⟨left, fun k member => ?_, ?_⟩
        · rcases List.mem_append.mp member with own | later
          · rw [List.mem_singleton] at own
            exact own ▸ List.getElem_mem inside
          · exact List.mem_of_mem_eraseIdx (queued k later)
        · rw [stay]
          generalize (Outbox.evict fuel (queue.eraseIdx idx) (numbers.eraseIdx idx)).2 = gone
          rw [erased, List.filter_filter]
          refine List.filter_congr fun k _ => ?_
          simp [Bool.and_comm]
    · simp [same]

variable {o : Outbox}

theorem Intact.queued_survive (intact : o.Intact) : ∀ k ∈ o.queued, k < o.taken.length := by
  obtain ⟨moved, survivors, -⟩ := intact.numbers
  intro k member
  have alive : k ∈ o.survivors := survivors ▸ List.mem_append_right _ member
  exact List.mem_range.mp (List.mem_filter.mp alive).1

/-- Taking one more packet into the queue. -/
theorem Intact.push (intact : o.Intact) (pkt : Bytes) (c : Client) (r : Bool)
    (queue : c.writeQueue = o.client.writeQueue ++ [(r, pkt)]) (bytes : c.handed = o.client.handed) :
    (Outbox.push { o with client := c } pkt).Intact := by
  -- Taking one packet more does not renumber the ones before it.
  have packets : ∀ l : List Nat, (∀ k ∈ l, k < o.taken.length) →
      l.map (Outbox.push { o with client := c } pkt).packet = l.map o.packet := by
    intro l inside
    refine List.map_congr_left fun k member => ?_
    simp only [packet, Outbox.push, List.getD_eq_getElem?_getD,
      List.getElem?_append_left (inside k member)]
  have last : (Outbox.push { o with client := c } pkt).packet o.taken.length = pkt := by
    simp [packet, Outbox.push]
  -- The new number is above every evicted one, so it survives.
  have alive : (Outbox.push { o with client := c } pkt).survivors = o.survivors ++ [o.taken.length] := by
    have fresh : o.taken.length ∉ o.evicted := fun gone => Nat.lt_irrefl _ (intact.bounded _ gone)
    simp only [survivors, Outbox.push, List.length_append, List.length_singleton, List.range_succ,
      List.filter_append]
    congr 1
    simp [fresh]
  obtain ⟨moved, survivors, handed⟩ := intact.numbers
  refine ⟨fun k gone => ?_, ?_, moved, ?_, ?_⟩
  · have := intact.bounded k gone
    simp only [Outbox.push, List.length_append, List.length_singleton]
    omega
  · simp only [Outbox.push, queue, List.map_append, List.map_singleton, intact.queue] at packets last ⊢
    rw [packets _ intact.queued_survive, last]
  · rw [alive, survivors]
    simp [Outbox.push]
  · have before : ∀ k ∈ moved, k < o.taken.length := by
      intro k member
      have there : k ∈ o.survivors := survivors ▸ List.mem_append_left _ member
      exact List.mem_range.mp (List.mem_filter.mp there).1
    have same := packets moved before
    simp only [Outbox.push] at same ⊢
    rw [bytes, handed, List.flatMap_def, List.flatMap_def, ← same]

/-- Evicting entries from the queue. -/
theorem Intact.evict (intact : o.Intact) (c : Client)
    (queue : c.writeQueue = (Client.makeRoom o.client.writeQueue.length o.client.writeQueue).1)
    (bytes : c.handed = o.client.handed) :
    Intact { o with
      client := c
      queued := (Outbox.evict o.client.writeQueue.length o.client.writeQueue o.queued).1
      evicted := o.evicted ++
        (Outbox.evict o.client.writeQueue.length o.client.writeQueue o.queued).2 } := by
  obtain ⟨moved, survivors, handed⟩ := intact.numbers
  have distinct : (moved ++ o.queued).Nodup := survivors ▸ o.nodup_survivors
  obtain ⟨left, gone, stay⟩ := evict_spec o.packet o.client.writeQueue.length o.client.writeQueue
    o.queued (List.nodup_append.mp distinct).2.1 intact.queue
  generalize Outbox.evict o.client.writeQueue.length o.client.writeQueue o.queued = result
    at left gone stay ⊢
  refine ⟨fun k member => ?_, by rw [queue]; exact left, moved, ?_, bytes.trans handed⟩
  · rcases List.mem_append.mp member with old | new
    · exact intact.bounded k old
    · exact intact.queued_survive k (gone k new)
  · -- No packet is both moved and queued, so the eviction cannot reach what has moved.
    have spared : moved.filter (· ∉ result.2) = moved := by
      refine List.filter_eq_self.mpr fun k member => ?_
      have apart : k ∉ o.queued := fun again => (List.nodup_append.mp distinct).2.2 k member k again rfl
      simpa using fun lost => apart (gone k lost)
    simp only [stay]
    rw [← spared, ← List.filter_append, ← survivors]
    simp only [Outbox.survivors, List.filter_filter]
    refine List.filter_congr fun k _ => ?_
    simp [not_or, and_comm]

theorem Intact.call (intact : o.Intact) (call : Outgoing) : (o.call call).Intact := by
  cases call with
  -- At QoS 0 a full queue refuses the packet, and nothing changes.
  | queueQos0 pkt =>
    simp only [Outbox.call, Client.queueQos0]
    split
    next c ok =>
      split at ok
      · cases ok
      · cases ok
        exact intact.push pkt _ false rfl rfl
    next c full =>
      split at full
      · cases full
        exact intact
      · cases full
  | queueQos1 pkt =>
    simp only [Outbox.call, Client.queueQos1]
    cases made : Client.makeRoom o.client.writeQueue.length o.client.writeQueue with
    | mk queue room =>
      have evicted := intact.evict { o.client with writeQueue := queue } (by rw [made]) rfl
      -- The entries evicted to make room are gone even where that did not suffice.
      cases room with
      | true => exact evicted.push pkt _ true rfl rfl
      | false => exact evicted
  | flush ws =>
    obtain ⟨n, le, queue, bytes⟩ := o.client.writeLoop_handed ws
    obtain ⟨moved, survivors, handed⟩ := intact.numbers
    -- What is written in one go is a prefix of the queue.
    have count : o.client.writeQueue.length - (o.client.writeLoop ws).1.writeQueue.length = n := by
      rw [queue, List.length_drop]
      omega
    refine ⟨intact.bounded, ?_, moved ++ o.queued.take n, ?_, ?_⟩
    · simp only [Outbox.call, count]
      rw [queue, List.map_drop, intact.queue, ← List.map_drop]
      rfl
    · simp only [Outbox.call, count, List.append_assoc, List.take_append_drop]
      exact survivors
    · simp only [Outbox.call, bytes, handed, List.flatMap_append]
      congr 1
      rw [List.flatMap_def, List.flatMap_def, List.map_take, List.map_take, intact.queue]
      rfl

theorem Intact.run (intact : o.Intact) (calls : List Outgoing) : (o.run calls).Intact := by
  induction calls generalizing o with
  | nil => exact intact
  | cons call calls ih => exact ih (intact.call call)

theorem intact_start (t : Token) (h₁ h₂ : RandomState UInt16) : (start t h₁ h₂).Intact :=
  ⟨by simp [start], rfl, [], rfl, rfl⟩

/-- A call evicts numbers that are queued, no others. -/
theorem Intact.evicts (intact : o.Intact) (call : Outgoing) :
    ∀ k ∈ (o.call call).evicted, k ∈ o.evicted ∨ k ∈ o.queued := by
  obtain ⟨moved, survivors, -⟩ := intact.numbers
  have distinct : (moved ++ o.queued).Nodup := survivors ▸ o.nodup_survivors
  obtain ⟨-, gone, -⟩ := evict_spec o.packet o.client.writeQueue.length o.client.writeQueue
    o.queued (List.nodup_append.mp distinct).2.1 intact.queue
  cases call with
  | queueQos0 pkt =>
    simp only [Outbox.call]
    split <;> exact fun k member => .inl member
  | queueQos1 pkt =>
    have known : ∀ k ∈ o.evicted ++
        (Outbox.evict o.client.writeQueue.length o.client.writeQueue o.queued).2,
        k ∈ o.evicted ∨ k ∈ o.queued :=
      fun k member => (List.mem_append.mp member).imp id (gone k)
    simp only [Outbox.call]
    split <;> exact known
  | flush ws => exact fun k member => .inl member

/-- The queued packets are the last of the survivors, so the bytes handed over are those of the
others. -/
theorem Intact.handed (intact : o.Intact) :
    o.client.handed = (o.survivors.filter (· ∉ o.queued)).flatMap o.packet := by
  obtain ⟨moved, survivors, handed⟩ := intact.numbers
  have distinct : (moved ++ o.queued).Nodup := survivors ▸ o.nodup_survivors
  have first : moved.filter (· ∉ o.queued) = moved := by
    refine List.filter_eq_self.mpr fun k member => ?_
    simpa using fun again => (List.nodup_append.mp distinct).2.2 k member k again rfl
  have last : o.queued.filter (· ∉ o.queued) = [] :=
    List.filter_eq_nil_iff.mpr fun k member => by simpa using member
  rw [survivors, List.filter_append, first, last, List.append_nil]
  exact handed

/-- Whatever is queued and flushed and whatever the socket answers: the bytes the socket has
accepted, the rest of the batch and the queue are the packets taken and not evicted, whole and in
order. Only queued packets are evicted, and of these nothing has been handed over. -/
theorem stream_intact (t : Token) (h₁ h₂ : RandomState UInt16) (calls : List Outgoing) :
    let o := (start t h₁ h₂).run calls
    let c := o.client
    c.stream.accepted ++ c.writePending.drop c.writeOff ++ c.writeQueue.flatMap Prod.snd =
        o.survivors.flatMap o.packet ∧
      c.stream.accepted <+: o.survivors.flatMap o.packet ∧
      c.writeQueue.map Prod.snd = o.queued.map o.packet ∧
      c.stream.accepted ++ c.writePending.drop c.writeOff =
        (o.survivors.filter (· ∉ o.queued)).flatMap o.packet ∧
      ∀ call, ∀ k ∈ (o.call call).evicted, k ∈ o.evicted ∨ k ∈ o.queued := by
  intro o c
  have intact : o.Intact := (intact_start t h₁ h₂).run calls
  -- The bytes handed to the socket and those still queued are the surviving packets.
  have whole : c.stream.accepted ++ c.writePending.drop c.writeOff ++ c.writeQueue.flatMap Prod.snd =
      o.survivors.flatMap o.packet := by
    obtain ⟨moved, survivors, handed⟩ := intact.numbers
    rw [survivors, List.flatMap_append, ← handed, List.flatMap_def, intact.queue, ← List.flatMap_def]
    rfl
  refine ⟨whole, ?_, intact.queue, intact.handed, intact.evicts⟩
  rw [← whole, List.append_assoc]
  exact List.prefix_append _ _

end Outbox
end MioBroker
