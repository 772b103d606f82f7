import MioBroker.Rust.BoundedQueue
import MioBroker.Stream

/-!
# The outbound queue under overload

`write_queue` is a bounded queue with two grades of entries: what `queue_qos1` queued stays until
it is popped, what `queue_qos0` queued may be refused or evicted. The grade is all the queue
looks at, and protocol packets share theirs with the QoS 0 messages.
-/
namespace MioBroker

open Rust BoundedQueue

/-- The operations on a `write_queue`: `queue_qos0`, `queue_qos1` and `pop_front`. -/
abbrev QueueOp := BoundedQueue.Op Bytes

namespace Client

/-- The client behind an operation, and whether it succeeded. -/
def queueStep (c : Client) : QueueOp → Client × Bool
  | .offer pkt => c.queueQos0 pkt
  | .insist pkt =>
    match c.queueQos1 pkt with
    | (d, .ok ()) => (d, true)
    | (d, .error ()) => (d, false)
  | .pop => ({ c with writeQueue := c.writeQueue.tail }, !c.writeQueue.isEmpty)

def queueRun (c : Client) (ops : List QueueOp) : Client :=
  ops.foldl (fun c op => (c.queueStep op).1) c

@[simp] theorem queueRun_nil (c : Client) : c.queueRun [] = c := rfl

@[simp] theorem queueRun_append (c : Client) (ops more : List QueueOp) :
    c.queueRun (ops ++ more) = (c.queueRun ops).queueRun more := List.foldl_append

theorem queueRun_snoc (c : Client) (ops : List QueueOp) (op : QueueOp) :
    c.queueRun (ops ++ [op]) = ((c.queueRun ops).queueStep op).1 := queueRun_append _ _ _

/-- One round of the eviction loop makes room in a full queue. -/
theorem makeRoom_victim (fuel : Nat) (queue : List (Bool × Bytes))
    (full : queue.length = WRITE_QUEUE_CAP) :
    makeRoom (fuel + 1) queue =
      match victim queue with
      | some idx => (queue.eraseIdx idx, true)
      | none => (queue, false) := by
  simp only [makeRoom, full, ge_iff_le, Nat.le_refl, if_true, victim]
  cases found : queue.findIdx? fun entry => !entry.1 with
  | none => rfl
  | some idx =>
    have inside := (List.findIdx?_eq_some_iff_getElem.mp found).1
    have shorter : (queue.eraseIdx idx).length < WRITE_QUEUE_CAP := by
      rw [List.length_eraseIdx_of_lt inside]
      omega
    exact makeRoom_short fuel _ shorter

/-- The queue operations of a client are those of a bounded queue. -/
theorem queueStep_eq (c : Client) (bounded : c.Bounded) (op : QueueOp) :
    c.queueStep op = ({ c with writeQueue := (step WRITE_QUEUE_CAP c.writeQueue op).1 },
      (step WRITE_QUEUE_CAP c.writeQueue op).2) := by
  cases op with
  | offer pkt =>
    simp only [queueStep, queueQos0, step, ge_iff_le]
    split <;> rfl
  | insist pkt =>
    by_cases short : c.writeQueue.length < WRITE_QUEUE_CAP
    · rw [insist_room short]
      simp only [queueStep, queueQos1, makeRoom_short _ _ short]
    · have full : c.writeQueue.length = WRITE_QUEUE_CAP := Nat.le_antisymm bounded (Nat.not_lt.mp short)
      -- One eviction is enough: the queue is at its cap and not above it.
      have made := makeRoom_victim 8191 c.writeQueue full
      have cap : WRITE_QUEUE_CAP = 8191 + 1 := rfl
      rw [← cap] at made
      simp only [queueStep, queueQos1, full, made, step, Nat.le_refl, if_true]
      cases victim c.writeQueue <;> rfl
  | pop => rfl

theorem queueRun_eq (c : Client) (bounded : c.Bounded) (ops : List QueueOp) :
    c.queueRun ops = { c with writeQueue := run WRITE_QUEUE_CAP c.writeQueue ops } := by
  induction ops using List.reverseRecOn with
  | nil => rfl
  | append_singleton ops op ih =>
    have inside : (c.queueRun ops).Bounded := by
      rw [ih]
      exact length_run bounded ops
    rw [queueRun_snoc, queueStep_eq _ inside, ih, run_snoc]

theorem bounded_queueRun {c : Client} (bounded : c.Bounded) (ops : List QueueOp) :
    (c.queueRun ops).Bounded := by
  rw [queueRun_eq c bounded]
  exact length_run bounded ops

theorem queueQos1_step {c d : Client} {pkt : Bytes} {done : Bool}
    (stepped : c.queueStep (.insist pkt) = (d, done)) :
    c.queueQos1 pkt = (d, if done then .ok () else .error ()) := by
  simp only [queueStep] at stepped
  split at stepped
  next e same =>
    cases stepped
    exact same
  next e same =>
    cases stepped
    exact same

theorem queueStep_insist (c : Client) (pkt : Bytes) :
    (c.queueStep (.insist pkt)).1 = (c.queueQos1 pkt).1 := by
  simp only [queueStep]
  split
  next same => rw [same]
  next same => rw [same]

theorem queueQos1_congr {c d : Client} (same : c.writeQueue = d.writeQueue) (pkt : Bytes) :
    (c.queueQos1 pkt).1.writeQueue = (d.queueQos1 pkt).1.writeQueue := by
  simp only [queueQos1, same]
  split <;> rfl

theorem queueQos1_room (c : Client) (room : c.writeQueue.length < WRITE_QUEUE_CAP) (pkt : Bytes) :
    c.queueQos1 pkt = ({ c with writeQueue := c.writeQueue ++ [(true, pkt)] }, .ok ()) := by
  have stepped := queueStep_eq c (Nat.le_of_lt room) (.insist pkt)
  rw [insist_room room] at stepped
  exact queueQos1_step stepped

/-- Nothing is given up for a packet that is refused. -/
theorem queueQos1_refused (c : Client) (full : c.writeQueue.length = WRITE_QUEUE_CAP)
    (reliable : ∀ e ∈ c.writeQueue, e.1 = true) (pkt : Bytes) : c.queueQos1 pkt = (c, .error ()) := by
  have stepped := queueStep_eq c (Nat.le_of_eq full) (.insist pkt)
  rw [insist_refused (Nat.le_of_eq full.symm) reliable] at stepped
  exact queueQos1_step stepped

/-- A full queue gives up its oldest unreliable entry. -/
theorem queueQos1_evicts (c : Client) (full : c.writeQueue.length = WRITE_QUEUE_CAP)
    {older younger : List (Bool × Bytes)} {lost : Bytes}
    (parts : c.writeQueue = older ++ (false, lost) :: younger) (reliable : ∀ e ∈ older, e.1 = true)
    (pkt : Bytes) :
    c.queueQos1 pkt = ({ c with writeQueue := older ++ younger ++ [(true, pkt)] }, .ok ()) := by
  have stepped := queueStep_eq c (Nat.le_of_eq full) (.insist pkt)
  rw [parts, insist_evicts (Nat.le_of_eq (parts ▸ full.symm)) reliable] at stepped
  exact queueQos1_step stepped

/-- `queue_qos1` on a queue with room, on one full of reliable entries and on any other full one. -/
theorem queueQos1_cases (c : Client) (bounded : c.Bounded) (pkt : Bytes) :
    (c.writeQueue.length < WRITE_QUEUE_CAP ∧
      c.queueQos1 pkt = ({ c with writeQueue := c.writeQueue ++ [(true, pkt)] }, .ok ())) ∨
    (c.writeQueue.length = WRITE_QUEUE_CAP ∧ (∀ e ∈ c.writeQueue, e.1 = true) ∧
      c.queueQos1 pkt = (c, .error ())) ∨
    ∃ older lost younger, c.writeQueue.length = WRITE_QUEUE_CAP ∧
      c.writeQueue = older ++ (false, lost) :: younger ∧ (∀ e ∈ older, e.1 = true) ∧
      c.queueQos1 pkt = ({ c with writeQueue := older ++ younger ++ [(true, pkt)] }, .ok ()) := by
  by_cases room : c.writeQueue.length < WRITE_QUEUE_CAP
  · exact .inl ⟨room, c.queueQos1_room room pkt⟩
  · have full : c.writeQueue.length = WRITE_QUEUE_CAP := Nat.le_antisymm bounded (Nat.not_lt.mp room)
    rcases full_cases c.writeQueue with reliable | ⟨older, lost, younger, parts, front⟩
    · exact .inr (.inl ⟨full, reliable, c.queueQos1_refused full reliable pkt⟩)
    · exact .inr (.inr ⟨older, lost, younger, full, parts, front,
        c.queueQos1_evicts full parts front pkt⟩)

/-- A failure means that every entry of a full queue is reliable. -/
theorem queueQos1_error_iff (c : Client) (bounded : c.Bounded) (pkt : Bytes) :
    (c.queueQos1 pkt).2 = .error () ↔ c.reliable = WRITE_QUEUE_CAP := by
  have le := List.countP_le_length (p := Prod.fst) (l := c.writeQueue)
  rcases c.queueQos1_cases bounded pkt with ⟨room, made⟩ | ⟨full, reliable, made⟩ |
    ⟨older, lost, younger, full, parts, -, made⟩
  · rw [made, Client.reliable]
    simp only [reduceCtorEq, false_iff]
    omega
  · rw [made, Client.reliable, ← full, List.countP_eq_length]
    exact ⟨fun _ => reliable, fun _ => rfl⟩
  · have some_unreliable : c.reliable ≠ WRITE_QUEUE_CAP := by
      rw [Client.reliable, ← full, Ne, List.countP_eq_length]
      exact fun all => by simpa using all (false, lost) (parts ▸ by simp)
    rw [made]
    simp only [reduceCtorEq, false_iff]
    exact some_unreliable

theorem queueQos1_error (c : Client) (bounded : c.Bounded) {pkt : Bytes}
    (refused : (c.queueQos1 pkt).2 = .error ()) : (c.queueQos1 pkt).1 = c := by
  rcases c.queueQos1_cases bounded pkt with ⟨_, made⟩ | ⟨_, _, made⟩ | ⟨_, _, _, _, _, _, made⟩
  · rw [made] at refused
    cases refused
  · rw [made]
  · rw [made] at refused
    cases refused

/-- Success on a full queue costs its oldest unreliable entry. -/
theorem queueQos1_full (c : Client) (full : c.writeQueue.length = WRITE_QUEUE_CAP) {pkt : Bytes}
    (done : (c.queueQos1 pkt).2 = .ok ()) :
    ∃ older lost younger, c.writeQueue = older ++ (false, lost) :: younger ∧
      (∀ e ∈ older, e.1 = true) ∧
      (c.queueQos1 pkt).1 = { c with writeQueue := older ++ younger ++ [(true, pkt)] } := by
  rcases c.queueQos1_cases (Nat.le_of_eq full) pkt with ⟨room, -⟩ | ⟨_, _, made⟩ |
    ⟨older, lost, younger, _, parts, front, made⟩
  · omega
  · rw [made] at done
    cases done
  · exact ⟨older, lost, younger, parts, front, by rw [made]⟩

/-- `queue_qos0` fails on a full queue, changing nothing, and queues the packet on any other. -/
theorem queueQos0_spec (c : Client) (bounded : c.Bounded) (pkt : Bytes) :
    ((c.queueQos0 pkt).2 = false ↔ c.writeQueue.length = WRITE_QUEUE_CAP) ∧
      ((c.queueQos0 pkt).2 = false → (c.queueQos0 pkt).1 = c) ∧
      ((c.queueQos0 pkt).2 = true → (c.queueQos0 pkt).1 =
        { c with writeQueue := c.writeQueue ++ [(false, pkt)] }) := by
  by_cases room : c.writeQueue.length < WRITE_QUEUE_CAP
  · rw [queueQos0_ok c pkt room]
    exact ⟨by simp only [Bool.true_eq_false, false_iff]; omega, by simp, fun _ => rfl⟩
  · rw [queueQos0_full c pkt (Nat.not_lt.mp room)]
    exact ⟨by simp only [true_iff]; exact Nat.le_antisymm bounded (Nat.not_lt.mp room),
      fun _ => rfl, by simp⟩

theorem queueRun_pops (c : Client) (n : Nat) :
    (c.queueRun (List.replicate n .pop)).writeQueue = c.writeQueue.drop n := by
  induction n generalizing c with
  | zero => rfl
  | succ n ih =>
    rw [List.replicate_succ, ← List.singleton_append, queueRun_append, ih]
    simp [queueRun, queueStep]

end Client

/-- The queue under any history of operations. Its entries are those the history queued, each
once and in that order; a reliable one leaves by `pop_front` only. `queue_qos1` fails exactly on a
queue full of reliable entries, and changes nothing then; on a full queue it gives up the oldest
unreliable entry. `queue_qos0` fails exactly on a full queue, and changes nothing then. -/
theorem queue_discipline (c : Client) (empty : c.writeQueue = []) (history : List QueueOp) :
    let before := c.queueRun history
    let entries := held WRITE_QUEUE_CAP history
    before.writeQueue = entries.map (fun e => (e.1, e.2.2)) ∧
    (∀ e ∈ entries, history[e.2.1]? = some (if e.1 then .insist e.2.2 else .offer e.2.2)) ∧
    (entries.map fun e => e.2.1).Pairwise (· < ·) ∧
    (∀ op, ∀ e ∈ entries, e.1 = true → e ∉ held WRITE_QUEUE_CAP (history ++ [op]) →
      op = .pop ∧ entries.head? = some e) ∧
    (∀ pkt,
      ((before.queueQos1 pkt).2 = .error () ↔ before.reliable = WRITE_QUEUE_CAP) ∧
      ((before.queueQos1 pkt).2 = .error () → (before.queueQos1 pkt).1 = before) ∧
      (before.writeQueue.length < WRITE_QUEUE_CAP → before.queueQos1 pkt =
        ({ before with writeQueue := before.writeQueue ++ [(true, pkt)] }, .ok ())) ∧
      (before.writeQueue.length = WRITE_QUEUE_CAP → (before.queueQos1 pkt).2 = .ok () →
        ∃ older lost younger, before.writeQueue = older ++ (false, lost) :: younger ∧
          (∀ e ∈ older, e.1 = true) ∧
          (before.queueQos1 pkt).1 =
            { before with writeQueue := older ++ younger ++ [(true, pkt)] })) ∧
    ∀ pkt,
      ((before.queueQos0 pkt).2 = false ↔ before.writeQueue.length = WRITE_QUEUE_CAP) ∧
      ((before.queueQos0 pkt).2 = false → (before.queueQos0 pkt).1 = before) ∧
      ((before.queueQos0 pkt).2 = true → (before.queueQos0 pkt).1 =
        { before with writeQueue := before.writeQueue ++ [(false, pkt)] }) := by
  intro before entries
  have start : c.Bounded := by simp [Client.Bounded, empty]
  have bounded : before.Bounded := Client.bounded_queueRun start history
  refine ⟨?_, held_origin _ _, held_ordered _ _, ?_, fun pkt => ⟨?_, ?_, ?_, ?_⟩, fun pkt => ?_⟩
  · rw [held_values, ← empty]
    exact congrArg Client.writeQueue (Client.queueRun_eq c start history)
  · intro op e member reliable gone
    rw [held_snoc] at gone
    -- Of the three operations only a pop removes a reliable entry, and only the first.
    obtain ⟨popped, first⟩ := reliable_step _ _ _ e member reliable gone
    refine ⟨?_, first⟩
    cases op with
    | pop => rfl
    | _ => cases popped
  · exact before.queueQos1_error_iff bounded pkt
  · exact before.queueQos1_error bounded
  · exact fun room => before.queueQos1_room room pkt
  · exact fun full done => before.queueQos1_full full done
  · exact before.queueQos0_spec bounded pkt

/-- A reliable packet and an unreliable one, the first of them popped again. -/
theorem queue_discipline_new :
    let before := (Client.accepted 0 default default).queueRun [.insist [64], .offer [48], .pop]
    before.reliable = 0 ∧ before.writeQueue = [(false, [48])] ∧
      ((before.queueQos1 [50]).2 = .error () ↔ before.reliable = WRITE_QUEUE_CAP) := by
  obtain ⟨-, -, -, -, reliable, -⟩ := queue_discipline (Client.accepted 0 default default) rfl
    [.insist [64], .offer [48], .pop]
  exact ⟨rfl, rfl, (reliable [50]).1⟩

/-! ### What overload costs -/

/-- A PUBLISH with QoS 0, by its first byte. -/
def isPublishQos0 (pkt : Bytes) : Bool :=
  match pkt with
  | first :: _ => first >>> 4 == PUBLISH && publishQos first == 0
  | [] => false

theorem ProtocolPacket.not_publish {pkt : Bytes} (protocol : ProtocolPacket pkt) :
    isPublishQos0 pkt = false := by
  cases protocol <;> rfl

theorem isPublishQos0_forward (topic payload : Bytes) (retain : Bool) :
    isPublishQos0 (buildForward topic payload 0 none false retain) = true := by
  cases retain <;> rfl

namespace Client

/-- The packet is refused by `queue_qos0` or evicted by `queue_qos1`. -/
def Sacrifices (c : Client) (op : QueueOp) (pkt : Bytes) : Prop :=
  match op with
  | .offer p => p = pkt ∧ (c.queueQos0 p).2 = false
  | .insist p =>
    ∃ r, (c.queueQos1 p).1.writeQueue.count (r, pkt) < c.writeQueue.count (r, pkt)
  | .pop => False

/-- The operation does not meet a full queue with a packet, or with a victim, other than a
PUBLISH with QoS 0. -/
def Spares (c : Client) : QueueOp → Prop
  | .offer pkt => c.writeQueue.length = WRITE_QUEUE_CAP → isPublishQos0 pkt = true
  | .insist _ => c.writeQueue.length = WRITE_QUEUE_CAP → ∀ entry,
      (c.writeQueue.find? fun e => !e.1) = some entry → isPublishQos0 entry.2 = true
  | .pop => True

/-- What is evicted is the oldest unreliable entry of a full queue. -/
theorem sacrifices_insist (c : Client) (bounded : c.Bounded) (p pkt : Bytes) :
    c.Sacrifices (.insist p) pkt ↔ c.writeQueue.length = WRITE_QUEUE_CAP ∧
      (c.writeQueue.find? fun e => !e.1) = some (false, pkt) := by
  simp only [Sacrifices]
  rcases c.queueQos1_cases bounded p with ⟨room, made⟩ | ⟨-, reliable, made⟩ |
    ⟨older, lost, younger, full, parts, front, made⟩
  · rw [made]
    simp only [List.count_append]
    exact ⟨fun ⟨_, fewer⟩ => by omega, fun ⟨full, _⟩ => by omega⟩
  · -- All entries are reliable, so the packet itself is turned away and none is lost.
    have none_found : (c.writeQueue.find? fun e => !e.1) = none := by simpa using reliable
    simp [made, none_found]
  · have found : (c.writeQueue.find? fun e => !e.1) = some (false, lost) := by
      rw [parts, List.find?_append, List.find?_eq_none.mpr (by simpa using front)]
      simp
    rw [made, found, parts]
    simp only [List.count_append, List.count_cons, List.count_nil]
    constructor
    · rintro ⟨r, fewer⟩
      -- Only the count of the evicted entry goes down.
      by_cases same : ((false, lost) : Bool × Bytes) = (r, pkt)
      · cases same
        exact ⟨parts ▸ full, rfl⟩
      · have other : (((false, lost) : Bool × Bytes) == (r, pkt)) = false := by simpa using same
        simp only [other, Bool.false_eq_true, if_false] at fewer
        omega
    · rintro ⟨-, same⟩
      cases same
      refine ⟨false, ?_⟩
      simp

theorem spares_iff (c : Client) (bounded : c.Bounded) (op : QueueOp) :
    (∀ pkt, c.Sacrifices op pkt → isPublishQos0 pkt = true) ↔ c.Spares op := by
  cases op with
  | offer p =>
    by_cases room : c.writeQueue.length < WRITE_QUEUE_CAP
    · -- An offer loses nothing but itself, and that only on a full queue.
      have notFull : c.writeQueue.length ≠ WRITE_QUEUE_CAP := Nat.ne_of_lt room
      simp [Sacrifices, Spares, queueQos0_ok c p room, notFull]
    · have full : c.writeQueue.length = WRITE_QUEUE_CAP := Nat.le_antisymm bounded (Nat.not_lt.mp room)
      simp [Sacrifices, Spares, queueQos0_full c p (Nat.not_lt.mp room), full]
  | insist p =>
    simp only [sacrifices_insist c bounded, Spares]
    constructor
    · intro spared full entry found
      obtain ⟨r, pkt⟩ := entry
      obtain rfl : r = false := by simpa using List.find?_some found
      exact spared pkt ⟨full, found⟩
    · exact fun spares pkt ⟨full, found⟩ => spares full _ found
  | pop => simp [Sacrifices, Spares]

end Client

/-- The operations on the queue in a change of the record. -/
def Change.queueOps (c : Client) : Change → List QueueOp
  | .reply pkt => [.offer pkt]
  | .connect _ => [.offer buildConnack]
  | .publishQos2 pid => [.offer (buildPubrec pid)]
  | .pubrec pid =>
    match c.inFlight.get? pid with
    | some entry => if entry.qos2 && !entry.awaitPubcomp then [.offer (buildPubrel pid)] else []
    | none => []
  | .pubrel pid => [.offer (buildPubcomp pid)]
  | .retry _ pkt _ => [.insist pkt]
  | .write ws => List.replicate (c.writeQueue.length - (c.writeLoop ws).1.writeQueue.length) .pop
  | _ => []

/-- The queue of a record changes by these operations only. -/
theorem Change.queue_apply (now : Instant) (c : Client) (ch : Change) :
    (ch.apply now c).writeQueue = (c.queueRun (ch.queueOps c)).writeQueue := by
  -- Every answer is one offer.
  have replied : ∀ (d : Client) (pkt : Bytes), d.writeQueue = c.writeQueue →
      (d.reply pkt).writeQueue = (c.queueRun [.offer pkt]).writeQueue := by
    intro d pkt same
    simp only [Client.reply, Client.queueRun, List.foldl_cons, List.foldl_nil, Client.queueStep,
      Client.queueQos0, same]
    split
    · exact same
    · rfl
  cases ch with
  | reply pkt => exact replied c pkt rfl
  | connect p => exact replied _ _ rfl
  | buffer buf => rfl
  | alive =>
    simp only [apply, Client.refreshKeepalive]
    split <;> rfl
  | publishQos2 pid =>
    simp only [apply, Client.receiveQos2]
    split <;> exact replied _ _ rfl
  | acked pid => rfl
  | pubrec pid =>
    simp only [apply, Client.pubrec, queueOps]
    cases c.inFlight.get? pid with
    | none => rfl
    | some entry =>
      simp only
      split
      · exact replied _ _ rfl
      · rfl
  | pubrel pid => exact replied _ _ rfl
  | disconnect => rfl
  | retry pid pkt scanned =>
    simp only [apply, queueOps, Client.queueRun, List.foldl_cons, List.foldl_nil, Client.queueStep]
    rcases c.queueQos1 pkt with ⟨d, ⟨⟩ | ⟨⟩⟩
    · rfl
    · simp
  | write ws =>
    obtain ⟨n, le, queue, -⟩ := Client.writeLoop_handed ws c
    -- As many entries are popped as the write has taken off the queue.
    have popped : c.writeQueue.length - (c.writeLoop ws).1.writeQueue.length = n := by
      rw [queue, List.length_drop]
      omega
    rw [queueOps, popped, Client.queueRun_pops]
    exact queue
  | rearm interest => rfl

/-- A delivery queues a PUBLISH: with QoS 0 by `queue_qos0`, otherwise by `queue_qos1`. -/
theorem Client.offer_queue {c d : Client} {now : Instant} {topic : Str} {payload : Bytes}
    {qos : UInt8} {retain : Bool} (queued : c.offer now topic payload qos retain = .queued d) :
    if qos = 0 then
      d.writeQueue = (c.queueStep
        (.offer (buildForward topic.bytes payload 0 none false retain))).1.writeQueue
    else ∃ pid, d.writeQueue = (c.queueStep
      (.insist (buildForward topic.bytes payload qos (some pid) false retain))).1.writeQueue := by
  simp only [Client.offer] at queued
  split at queued
  next unreliable =>
    rw [if_pos unreliable]
    split at queued
    next e done =>
      cases queued
      rw [Client.queueStep, done]
    next => cases queued
  next isReliable =>
    rw [if_neg isReliable]
    split at queued
    next e pid alloc =>
      -- the id counter has moved on, the queue has not
      have same : e.writeQueue = c.writeQueue := by
        have kept := congrArg (fun r => r.1.writeQueue) alloc
        simp only [Client.allocPid] at kept
        split at kept <;> exact kept.symm
      split at queued
      next f done =>
        cases queued
        refine ⟨pid, ?_⟩
        have queue := Client.queueQos1_congr same
          (buildForward topic.bytes payload qos (some pid) false retain)
        rw [done] at queue
        rw [Client.queueStep_insist, ← queue]
      next => cases queued
    next => cases queued

/-- What is refused or evicted was offered. -/
theorem Client.offered_of_sacrifices {d : Client} {history : List QueueOp} {op : QueueOp} {pkt : Bytes}
    (queue : d.writeQueue = run WRITE_QUEUE_CAP [] history) (lost : d.Sacrifices op pkt) :
    .offer pkt ∈ history ++ [op] := by
  cases op with
  | offer p =>
    obtain ⟨rfl, -⟩ := lost
    exact List.mem_append_right _ List.mem_cons_self
  | insist p =>
    have bounded : d.Bounded := by
      rw [Client.Bounded, queue]
      exact length_run (Nat.zero_le _) history
    obtain ⟨-, oldest⟩ := (d.sacrifices_insist bounded p pkt).mp lost
    have member := List.mem_of_find?_eq_some oldest
    rw [queue] at member
    exact List.mem_append_left _ (mem_run member)
  | pop => exact lost.elim

/-- What is queued so that it may be given up. -/
def Expendable (pkt : Bytes) : Prop :=
  ProtocolPacket pkt ∨ ∃ topic payload retain, pkt = buildForward topic payload 0 none false retain

/-- It is of exactly one of the two kinds. -/
theorem Expendable.protocol_iff {pkt : Bytes} (expendable : Expendable pkt) :
    ProtocolPacket pkt ↔ isPublishQos0 pkt = false := by
  refine ⟨ProtocolPacket.not_publish, fun other => expendable.resolve_right ?_⟩
  rintro ⟨topic, payload, retain, rfl⟩
  rw [isPublishQos0_forward] at other
  cases other

/-- The queue is what this history of operations has made of an empty one. -/
structure Client.QueuedBy (c : Client) (history : List QueueOp) : Prop where
  queue : c.writeQueue = run WRITE_QUEUE_CAP [] history
  expendable : ∀ pkt, .offer pkt ∈ history → Expendable pkt

namespace Client.QueuedBy

variable {c d : Client} {history : List QueueOp}

theorem bounded (made : c.QueuedBy history) : c.Bounded := by
  rw [Client.Bounded, made.queue]
  exact length_run (Nat.zero_le _) history

theorem snoc (made : c.QueuedBy history) {ops : List QueueOp}
    (same : d.writeQueue = (c.queueRun ops).writeQueue) (expendable : ∀ pkt, .offer pkt ∈ ops → Expendable pkt) :
    d.QueuedBy (history ++ ops) := by
  constructor
  · rw [same, Client.queueRun_eq c made.bounded, run_append, ← made.queue]
  · intro pkt member
    rcases List.mem_append.mp member with old | new
    · exact made.expendable pkt old
    · exact expendable pkt new

/-- The handlers answer with packets of the protocol. -/
theorem change (made : c.QueuedBy history) (now : Instant) {ch : Change}
    (protocol : ∀ pkt, ch = .reply pkt → ProtocolPacket pkt) :
    (ch.apply now c).QueuedBy (history ++ ch.queueOps c) := by
  refine made.snoc (ch.queue_apply now c) fun pkt member => .inl ?_
  have answer : ∀ {sent : Bytes}, ProtocolPacket sent → (.offer pkt : QueueOp) ∈ [.offer sent] →
      ProtocolPacket pkt := by
    intro sent kind member
    cases List.mem_singleton.mp member
    exact kind
  cases ch with
  | reply sent => exact answer (protocol sent rfl) member
  | connect p => exact answer .connack member
  | publishQos2 pid => exact answer (.pubrec pid) member
  | pubrec pid =>
    simp only [Change.queueOps] at member
    split at member
    · split at member
      · exact answer (.pubrel pid) member
      · cases member
    · cases member
  | pubrel pid => exact answer (.pubcomp pid) member
  | retry pid sent scanned => cases List.mem_singleton.mp member
  | write ws => cases List.eq_of_mem_replicate member
  | _ => cases member

/-- A delivery is offered or insisted on. -/
theorem offer (made : c.QueuedBy history) {now : Instant} {topic : Str} {payload : Bytes} {qos : UInt8}
    {retain : Bool} (queued : c.offer now topic payload qos retain = .queued d) :
    ∃ ops, d.QueuedBy (history ++ ops) := by
  have same := Client.offer_queue queued
  split at same
  · refine ⟨[_], made.snoc same fun pkt member => .inr ?_⟩
    cases List.mem_singleton.mp member
    exact ⟨_, _, _, rfl⟩
  · obtain ⟨pid, same⟩ := same
    exact ⟨[_], made.snoc same fun pkt member => by cases List.mem_singleton.mp member⟩

end Client.QueuedBy

/-- The queue of every connection has such a history. -/
theorem Loop.Reachable.queued_by {s : Loop} (reached : s.Reachable) {t : Token} {c : Client}
    (found : s.broker.clients.get? t = some c) : ∃ history, c.QueuedBy history := by
  refine (Machine.Reaches.invariant (fun s => s.broker.Healthy ∧ ∀ t c, s.broker.clients.get? t = some c →
    ∃ history, c.QueuedBy history) ?_ ?_ reached).2 t c found
  · refine fun s start => ⟨start.startup.healthy, fun t c found => ?_⟩
    cases (start.startup.unconnected t).symm.trans found
  · rintro s io s' ⟨healthy, before⟩ - done
    obtain ⟨b, out, ran, rfl⟩ := Loop.step_ok.mp done
    refine ⟨healthy.op _ ran, ((s.op io).acts healthy ran).keeps healthy (fun b => ∀ t c,
      b.clients.get? t = some c → ∃ history, c.QueuedBy history) ?_ before⟩
    intro b a b' healthy before ok next t d found
    rcases Act.survivor healthy next found with ⟨h₁, h₂, -, -, rfl⟩ | ⟨c, there, ⟨ch, rfl, rfl⟩ | fed⟩
    · exact ⟨[], rfl, by simp⟩
    · obtain ⟨history, made⟩ := before t c there
      refine ⟨_, made.change b.now fun pkt same => ?_⟩
      subst same
      obtain ⟨p, -, protocol⟩ := Op.permits_ofPacket rfl ok.1
      exact protocol
    · refine fed.invariant (fun c => ∃ history, c.QueuedBy history) ?_ (before t c there)
      rintro c d topic payload qos retain - ⟨history, made⟩ queued
      obtain ⟨ops, made⟩ := made.offer queued
      exact ⟨_, made⟩

/-- Whatever a connection has lost from its queue was a packet of the protocol or a message with QoS 0. -/
theorem Loop.Reachable.sacrificed {s : Loop} (reached : s.Reachable) {t : Token} {c : Client}
    (found : s.broker.clients.get? t = some c) :
    ∃ history, c.writeQueue = run WRITE_QUEUE_CAP [] history ∧
      ∀ before op after pkt, history = before ++ op :: after → ∀ d : Client,
        d.writeQueue = run WRITE_QUEUE_CAP [] before → d.Sacrifices op pkt →
        (ProtocolPacket pkt ↔ isPublishQos0 pkt = false) := by
  obtain ⟨history, made⟩ := reached.queued_by found
  refine ⟨history, made.queue, ?_⟩
  rintro before op after pkt rfl d queue lost
  refine Expendable.protocol_iff (made.expendable pkt ?_)
  rw [List.append_cons]
  exact List.mem_append_left after (Client.offered_of_sacrifices queue lost)

/-- Only QoS 0 messages are refused or evicted in a history of operations exactly if no packet of
another kind is queued by `queue_qos0` on a full queue, and none is the oldest unreliable entry of
a full queue when `queue_qos1` needs room. -/
theorem sacrifices_iff (c : Client) (bounded : c.Bounded) (ops : List QueueOp) :
    (∀ history op later pkt, ops = history ++ op :: later →
      (c.queueRun history).Sacrifices op pkt → isPublishQos0 pkt = true) ↔
    ∀ history op later, ops = history ++ op :: later → (c.queueRun history).Spares op := by
  have at_each : ∀ history op, _ := fun history op =>
    Client.spares_iff (c.queueRun history) (Client.bounded_queueRun bounded history) op
  constructor
  · exact fun only history op later parts =>
      (at_each history op).mp fun pkt => only history op later pkt parts
  · exact fun spares history op later pkt parts =>
      (at_each history op).mpr (spares history op later parts) pkt

/-- QoS 0 messages for a subscriber that does not read. -/
def unread (n : Nat) : List QueueOp :=
  List.replicate n (.offer (buildForward [97] [] 0 none false false))

theorem queueRun_unread (c : Client) (n : Nat) (room : c.writeQueue.length + n ≤ WRITE_QUEUE_CAP) :
    (c.queueRun (unread n)).writeQueue =
      c.writeQueue ++ List.replicate n (false, buildForward [97] [] 0 none false false) := by
  induction n generalizing c with
  | zero => simp [unread]
  | succ n ih =>
    have first := Client.queueQos0_ok c (buildForward [97] [] 0 none false false) (by omega)
    have rest := ih (c.queueStep (.offer (buildForward [97] [] 0 none false false))).1 (by
      rw [Client.queueStep, first]
      simp only [List.length_append, List.length_singleton]
      omega)
    rw [unread, List.replicate_succ, ← List.singleton_append, Client.queueRun_append]
    refine rest.trans ?_
    rw [Client.queueStep, first, List.replicate_succ]
    simp

/-- Behind 8192 unread QoS 0 messages one more is refused, and a reliable message evicts the first. -/
theorem sacrifices_iff_unread :
    let ops : List QueueOp := unread 8193 ++ [.insist (buildForward [98] [] 1 (some 1) false false)]
    ((Client.accepted 0 default default).queueRun (unread 8192)).writeQueue.length = WRITE_QUEUE_CAP ∧
      ∀ history op later pkt, ops = history ++ op :: later →
        ((Client.accepted 0 default default).queueRun history).Sacrifices op pkt → isPublishQos0 pkt = true := by
  intro ops
  have offered : ∀ pkt, .offer pkt ∈ ops → isPublishQos0 pkt = true := by
    intro pkt member
    rcases List.mem_append.mp member with filler | last
    · cases List.eq_of_mem_replicate filler
      exact isPublishQos0_forward _ _ _
    · cases List.mem_singleton.mp last
  have full := queueRun_unread (Client.accepted 0 default default) 8192 (Nat.le_of_eq rfl)
  refine ⟨by rw [full, List.length_append, List.length_replicate]; rfl,
    (sacrifices_iff (.accepted 0 default default) (Nat.zero_le _) ops).mpr fun history op later parts => ?_⟩
  have bounded : (Client.accepted 0 default default).Bounded := Nat.zero_le _
  refine (Client.spares_iff _ (Client.bounded_queueRun bounded history) op).mp fun pkt lost => offered pkt ?_
  rw [parts, List.append_cons]
  refine List.mem_append_left later (Client.offered_of_sacrifices ?_ lost)
  rw [Client.queueRun_eq _ bounded]
  rfl

/-- Behind 8192 unread QoS 0 messages a PINGRESP is refused; in front of 8191 of them a PUBACK is
evicted by the next reliable message. -/
theorem protocol_sacrificed :
    (¬∀ (history : List QueueOp) (p pkt : Bytes), ProtocolPacket pkt →
      ¬((Client.accepted 0 default default).queueRun history).Sacrifices (.offer p) pkt) ∧
    ¬∀ (history : List QueueOp) (p pkt : Bytes), ProtocolPacket pkt →
      ¬((Client.accepted 0 default default).queueRun history).Sacrifices (.insist p) pkt := by
  constructor
  · intro spared
    have queue := queueRun_unread (Client.accepted 0 default default) 8192 (Nat.le_of_eq rfl)
    -- The socket is not read, so 8192 messages at QoS 0 fill the queue.
    have full : WRITE_QUEUE_CAP ≤
        ((Client.accepted 0 default default).queueRun (unread 8192)).writeQueue.length := by
      rw [queue, List.length_append, List.length_replicate]
      exact Nat.le_add_left _ _
    refine spared (unread 8192) buildPingresp buildPingresp .pingresp ⟨rfl, ?_⟩
    rw [Client.queueQos0_full _ _ full]
  · intro spared
    -- The PUBACK is the oldest unreliable entry, ahead of the messages that fill the queue.
    have acked := Client.queueQos0_ok (Client.accepted 0 default default) (buildPuback 1) (by decide)
    have queue := queueRun_unread
      ((Client.accepted 0 default default).queueRun [.offer (buildPuback 1)]) 8191 (Nat.le_of_eq rfl)
    rw [← Client.queueRun_append] at queue
    refine spared ([.offer (buildPuback 1)] ++ unread 8191) [50] (buildPuback 1) (.puback 1) ?_
    rw [Client.sacrifices_insist _ (Client.bounded_queueRun (Nat.zero_le _) _), queue]
    refine ⟨?_, rfl⟩
    rw [List.length_append, List.length_replicate]
    rfl

end MioBroker
