import Mathlib.Algebra.Order.BigOperators.Group.List
import MioBroker.Silence
import MioBroker.Stream
import MioBroker.Deadlines

/-!
# What is queued is written

A reliable packet waits behind the bytes of a batch and behind other packets. Nothing gets in front of it,
and every flush that a socket takes something from brings it nearer to the socket. What can keep it from
being taken is the end of a batch that is partly written when nothing is queued behind it.
-/
namespace MioBroker

open Rust

/-- What stays of a list on both sides of an element that may not be given up. -/
theorem split_of_sublist {α : Type} {keep : α → Bool} {front back rest : List α} {x : α}
    (kept : keep x = true) (sublist : rest.Sublist (front ++ x :: back))
    (same : rest.filter keep = (front ++ x :: back).filter keep) :
    ∃ front' back', rest = front' ++ x :: back' ∧ front'.Sublist front := by
  obtain ⟨left, right, rfl, before, behind⟩ := List.sublist_append_iff.mp sublist
  have shorter := (before.filter keep).length_le
  have total := congrArg List.length same
  rw [List.filter_append, List.filter_append, List.length_append, List.length_append,
    List.filter_cons_of_pos kept, List.length_cons] at total
  cases behind with
  | cons _ behind =>
    have less := (behind.filter keep).length_le
    omega
  | cons_cons _ behind => exact ⟨left, _, rfl, before⟩

namespace Client

/-- Nothing is written; unreliable packets may be given up, and new ones stand behind the others. -/
structure Restocked (c d : Client) : Prop where
  stream : d.stream = c.stream
  pending : d.writePending = c.writePending
  off : d.writeOff = c.writeOff
  queue : ∃ old new, d.writeQueue = old ++ new ∧ old.Sublist c.writeQueue ∧
    old.filter Prod.fst = c.writeQueue.filter Prod.fst
  queued : c.writeQueue ≠ [] → d.writeQueue ≠ []

variable {c d : Client} {pkt sent : Bytes} {n : Nat}

theorem Restocked.same (stream : d.stream = c.stream) (pending : d.writePending = c.writePending)
    (off : d.writeOff = c.writeOff) (queue : d.writeQueue = c.writeQueue) : Restocked c d :=
  ⟨stream, pending, off, ⟨d.writeQueue, [], (List.append_nil _).symm, queue ▸ List.Sublist.refl _, by rw [queue]⟩,
    fun queued => queue ▸ queued⟩

theorem restocked_reply (c : Client) (pkt : Bytes) : Restocked c (c.reply pkt) := by
  rw [reply]
  by_cases room : c.writeQueue.length < WRITE_QUEUE_CAP
  · rw [queueQos0_ok c pkt room]
    exact ⟨rfl, rfl, rfl, ⟨c.writeQueue, [(false, pkt)], rfl, List.Sublist.refl _, rfl⟩, fun _ => by simp⟩
  · rw [queueQos0_full c pkt (Nat.not_lt.mp room)]
    exact .same rfl rfl rfl rfl

theorem makeRoom_false (fuel : Nat) (queue : List (Bool × Bytes)) (refused : (makeRoom fuel queue).2 = false) :
    (makeRoom fuel queue).1 ≠ [] := by
  have full : ∀ queue : List (Bool × Bytes), WRITE_QUEUE_CAP ≤ queue.length → queue ≠ [] := by
    rintro queue long rfl
    exact absurd long (by decide)
  induction fuel generalizing queue with
  | zero => exact full queue (by simpa [makeRoom] using refused)
  | succ fuel ih =>
    simp only [makeRoom] at refused ⊢
    split
    next long =>
      rw [if_pos long] at refused
      split
      next idx found =>
        rw [found] at refused
        exact ih _ refused
      next => exact full queue long
    next short =>
      rw [if_neg short] at refused
      cases refused

theorem restocked_queueQos1 (c : Client) (pkt : Bytes) : Restocked c (c.queueQos1 pkt).1 := by
  have sublist := sublist_makeRoom c.writeQueue.length c.writeQueue
  have reliable := filter_makeRoom c.writeQueue.length c.writeQueue
  rw [queueQos1]
  split
  next queue made =>
    rw [made] at sublist reliable
    exact ⟨rfl, rfl, rfl, ⟨queue, [(true, pkt)], rfl, sublist, reliable⟩, fun _ => by simp⟩
  next queue made =>
    have kept := makeRoom_false c.writeQueue.length c.writeQueue (by rw [made])
    rw [made] at sublist reliable kept
    exact ⟨rfl, rfl, rfl, ⟨queue, [], (List.append_nil _).symm, sublist, reliable⟩, fun _ => kept⟩

theorem restocked_offer {now : Instant} {topic : Str} {payload : Bytes} {qos : UInt8} {retain : Bool}
    (done : c.offer now topic payload qos retain = .queued d) : Restocked c d := by
  simp only [offer] at done
  split at done
  · split at done
    next e queued =>
      cases done
      have stocked := c.restocked_reply (buildForward topic.bytes payload 0 none false retain)
      rw [reply, queued] at stocked
      exact stocked
    next => cases done
  · obtain ⟨next, pid, drawn⟩ : ∃ next pid, c.allocPid = ({ c with nextPid := next }, pid) := by
      simp only [allocPid]
      split
      · exact ⟨_, _, rfl⟩
      · exact ⟨_, _, rfl⟩
    rw [drawn] at done
    split at done
    next e p same =>
      cases same
      have stocked := restocked_queueQos1 { c with nextPid := next }
        (buildForward topic.bytes payload qos (some p) false retain)
      split at done
      next f queued =>
        cases done
        rw [queued] at stocked
        exact ⟨stocked.stream, stocked.pending, stocked.off, stocked.queue, stocked.queued⟩
      next => cases done
    next => cases done

end Client

theorem Change.restocked (now : Instant) (c : Client) {ch : Change} (unwritten : ∀ ws, ch ≠ .write ws) :
    Client.Restocked c (ch.apply now c) := by
  have answered : ∀ (d : Client) (pkt : Bytes), d.stream = c.stream → d.writePending = c.writePending →
      d.writeOff = c.writeOff → d.writeQueue = c.writeQueue → Client.Restocked c (d.reply pkt) := by
    intro d pkt stream pending off queue
    have stocked := d.restocked_reply pkt
    exact ⟨stocked.stream.trans stream, stocked.pending.trans pending, stocked.off.trans off,
      queue ▸ stocked.queue, queue ▸ stocked.queued⟩
  cases ch with
  | reply pkt => exact c.restocked_reply pkt
  | connect p => exact answered _ _ rfl rfl rfl rfl
  | buffer buf => exact .same rfl rfl rfl rfl
  | alive =>
    simp only [Change.apply, Client.refreshKeepalive]
    split <;> exact .same rfl rfl rfl rfl
  | publishQos2 pid =>
    obtain ⟨received, same, -⟩ := c.receiveQos2_spec pid
    rw [Change.apply, same]
    exact answered _ _ rfl rfl rfl rfl
  | acked pid => exact .same rfl rfl rfl rfl
  | pubrec pid =>
    simp only [Change.apply, Client.pubrec]
    split
    · split
      · exact answered _ _ rfl rfl rfl rfl
      · exact .same rfl rfl rfl rfl
    · exact .same rfl rfl rfl rfl
  | pubrel pid => exact answered _ _ rfl rfl rfl rfl
  | disconnect => exact .same rfl rfl rfl rfl
  | retry pid pkt scanned =>
    have stocked := c.restocked_queueQos1 pkt
    simp only [Change.apply]
    split
    next d queued =>
      rw [queued] at stocked
      simp only [Client.restartTimer]
      split
      · exact ⟨stocked.stream, stocked.pending, stocked.off, stocked.queue, stocked.queued⟩
      · exact stocked
    next d queued =>
      rw [queued] at stocked
      exact stocked
  | write ws => exact absurd rfl (unwritten ws)
  | rearm interest => exact .same rfl rfl rfl rfl

namespace Client

variable {c d : Client} {pkt sent : Bytes} {n : Nat}

/-- A packet counts for itself and its bytes. -/
def weight (queue : List (Bool × Bytes)) : Nat := (queue.map fun e => e.2.length + 1).sum

/-- The bytes of the batch that are not written yet. -/
def unwritten (c : Client) : Nat := (c.writePending.drop c.writeOff).length

/-- The batch is partly written and nothing is queued behind it. -/
def Stalled (c : Client) : Prop := c.writeQueue = [] ∧ c.writeOff < c.writePending.length

/-- The packet is queued, and the packets and bytes up to its end are fewer than `n`. -/
def Owes (c : Client) (sent pkt : Bytes) (n : Nat) : Prop :=
  sent <+: c.handed ∧ ∃ front back, c.writeQueue = front ++ (true, pkt) :: back ∧
    weight front + c.unwritten + pkt.length < n

/-- The packet left the queue behind what was `sent`, and up to its end at most `n` bytes are still to be
taken by the socket. -/
def Gave (c : Client) (sent pkt : Bytes) (n : Nat) : Prop :=
  ∃ between, sent ++ between ++ pkt <+: c.handed ∧
    (sent ++ between ++ pkt).length ≤ c.stream.accepted.length + n

/-- The packet is on its way, with a distance of `n` at most. -/
def Promises (c : Client) (sent pkt : Bytes) (n : Nat) : Prop := c.Gave sent pkt n ∨ c.Owes sent pkt n

theorem length_handed (c : Client) : c.handed.length = c.stream.accepted.length + c.unwritten :=
  List.length_append

theorem weight_append (front back : List (Bool × Bytes)) : weight (front ++ back) = weight front + weight back := by
  rw [weight, List.map_append, List.sum_append]
  rfl

theorem weight_bytes (queue : List (Bool × Bytes)) :
    weight queue = (queue.flatMap Prod.snd).length + queue.length := by
  induction queue with
  | nil => rfl
  | cons e queue ih =>
    rw [List.flatMap_cons, List.length_append, List.length_cons, weight, List.map_cons, List.sum_cons]
    rw [weight] at ih
    omega

theorem weight_le {front front' : List (Bool × Bytes)} (sublist : front'.Sublist front) :
    weight front' ≤ weight front :=
  (sublist.map _).sum_le_sum fun _ _ => Nat.zero_le _

theorem Restocked.handed (stocked : Restocked c d) : d.handed = c.handed := by
  rw [Client.handed, stocked.stream, stocked.pending, stocked.off]
  rfl

theorem Promises.mono (promises : c.Promises sent pkt n) {m : Nat} (le : n ≤ m) : c.Promises sent pkt m := by
  rcases promises with ⟨between, given, near⟩ | ⟨first, front, back, queue, near⟩
  · exact .inl ⟨between, given, Nat.le_trans near (Nat.add_le_add_left le _)⟩
  · exact .inr ⟨first, front, back, queue, Nat.lt_of_lt_of_le near le⟩

theorem Promises.restock (promises : c.Promises sent pkt n) (stocked : Restocked c d) :
    d.Promises sent pkt n := by
  rcases promises with ⟨between, given, near⟩ | ⟨before, front, back, queue, near⟩
  · exact .inl ⟨between, stocked.handed ▸ given, stocked.stream ▸ near⟩
  · obtain ⟨old, new, queue', sublist, reliable⟩ := stocked.queue
    rw [queue] at sublist reliable
    obtain ⟨front', back', rfl, fewer⟩ := split_of_sublist rfl sublist reliable
    refine .inr ⟨stocked.handed ▸ before, front', back' ++ new, by rw [queue', List.append_assoc]; rfl, ?_⟩
    have lighter := weight_le fewer
    rw [unwritten, stocked.pending, stocked.off]
    rw [unwritten] at near
    omega

/-- With nothing left of the batch and nothing queued the packet is taken. -/
theorem Promises.written (promises : c.Promises sent pkt n) (empty : c.writeQueue = [])
    (written : c.writePending.length ≤ c.writeOff) : c.Promises sent pkt 0 := by
  rcases promises with ⟨between, given, -⟩ | ⟨-, front, back, queue, -⟩
  · have all := given.length_le
    rw [length_handed, unwritten, List.drop_eq_nil_of_le written] at all
    exact .inl ⟨between, given, all⟩
  · exact absurd (empty.symm.trans queue) (by simp)

/-- At no distance the socket has taken the packet. -/
theorem Promises.taken (promises : c.Promises sent pkt 0) :
    ∃ between, sent ++ between ++ pkt <+: c.stream.accepted := by
  rcases promises with ⟨between, given, near⟩ | ⟨-, front, back, -, near⟩
  · exact ⟨between, List.prefix_of_prefix_length_le given (List.prefix_append _ _) near⟩
  · exact absurd near (Nat.not_lt_zero _)

theorem writeLoop_accepted (ws : List WriteResult) (c : Client) :
    c.stream.accepted.length ≤ (c.writeLoop ws).1.stream.accepted.length := by
  have refilled : ∀ c d : Client, c.refill = some d → d.stream = c.stream := by
    intro c d done
    rw [(refill_frame c d done).1]
  induction ws generalizing c with
  | nil =>
    rw [writeLoop]
    split
    · exact le_rfl
    next d done => rw [refilled c d done]
  | cons w ws ih =>
    rw [writeLoop]
    split
    · exact le_rfl
    next d done =>
      cases w with
      | wouldBlock => rw [refilled c d done]
      | err => rw [refilled c d done]
      | ok size =>
        simp only
        split
        · rw [refilled c d done]
        · refine Nat.le_trans ?_ (ih _)
          rw [refilled c d done, List.length_append]
          exact Nat.le_add_right _ _

/-- A socket that takes something takes it from a batch that is partly written. -/
theorem writeLoop_takes (partly : c.writeOff < c.writePending.length) {size : Nat} (takes : 0 < size)
    (ws : List WriteResult) : c.stream.accepted.length < (c.writeLoop (.ok size :: ws)).1.stream.accepted.length := by
  have same : c.refill = some c := by rw [refill, if_neg (Nat.ne_of_lt partly)]
  simp only [writeLoop, same]
  split
  next none =>
    rw [List.length_drop] at none
    omega
  next some =>
    refine Nat.lt_of_lt_of_le ?_ (writeLoop_accepted ws _)
    rw [List.length_append, List.length_take]
    omega

/-- Otherwise the next packets come off the queue. -/
theorem writeLoop_pops (written : c.writeOff = c.writePending.length) (queued : c.writeQueue ≠ [])
    (w : WriteResult) (ws : List WriteResult) :
    (c.writeLoop (w :: ws)).1.writeQueue.length < c.writeQueue.length := by
  obtain ⟨d, done, shorter⟩ : ∃ d, c.refill = some d ∧ d.writeQueue.length < c.writeQueue.length := by
    cases queue : c.writeQueue with
    | nil => exact absurd queue queued
    | cons e rest =>
      simp only [refill, if_pos written, queue, List.isEmpty_cons, Bool.false_eq_true, if_false]
      refine ⟨_, rfl, ?_⟩
      obtain ⟨r, p⟩ := e
      have short : ([] : Bytes).length < BATCH_MAX := by decide
      simp only [fillBatch, if_pos short]
      exact Nat.lt_succ_of_le (suffix_fillBatch _ _).length_le
  simp only [writeLoop, done]
  cases w with
  | wouldBlock => exact shorter
  | err => exact shorter
  | ok size =>
    simp only
    split
    · exact shorter
    · exact Nat.lt_of_le_of_lt (writeLoop_frame ws _).2.length_le shorter

/-- A flush that a socket takes something from brings the packet nearer. -/
theorem Promises.write (promises : c.Promises sent pkt n) (offset : c.writeOff ≤ c.writePending.length)
    {size : Nat} (takes : 0 < size) (ws : List WriteResult) :
    (c.writeLoop (.ok size :: ws)).1.Promises sent pkt (n - 1) := by
  obtain ⟨k, -, popped, handed⟩ := writeLoop_handed (.ok size :: ws) c
  have accepted := writeLoop_accepted (.ok size :: ws) c
  have total := congrArg List.length handed
  rw [List.length_append, length_handed, length_handed] at total
  rcases promises with ⟨between, given, near⟩ | ⟨⟨between, before⟩, front, back, queue, near⟩
  · refine .inl ⟨between, given.trans (handed ▸ List.prefix_append _ _), ?_⟩
    by_cases partly : c.writeOff < c.writePending.length
    · have more := writeLoop_takes partly takes ws
      omega
    · have all := given.length_le
      rw [length_handed, unwritten, List.drop_eq_nil_of_le (Nat.not_lt.mp partly), List.length_nil] at all
      omega
  · have bytes := weight_bytes (front.take k)
    by_cases reached : front.length < k
    · -- The packet is among those that were popped.
      have taken : c.writeQueue.take k = front ++ (true, pkt) :: back.take (k - (front.length + 1)) := by
        obtain ⟨j, rfl⟩ := Nat.exists_eq_add_of_lt reached
        rw [queue, Nat.add_assoc, List.take_length_add_append, List.take_succ_cons]
        congr 3
        omega
      refine .inl ⟨between ++ front.flatMap Prod.snd, ?_, ?_⟩
      · rw [handed, ← before, taken, List.flatMap_append, List.flatMap_cons]
        simp only [List.append_assoc]
        exact (List.prefix_append_right_inj _).mpr ((List.prefix_append_right_inj _).mpr
          ((List.prefix_append_right_inj _).mpr (List.prefix_append _ _)))
      · have start := congrArg List.length before
        rw [List.length_append, length_handed] at start
        rw [List.take_of_length_le (Nat.le_of_lt reached)] at bytes
        simp only [List.length_append]
        omega
    · have within : k ≤ front.length := Nat.not_lt.mp reached
      refine .inr ⟨?_, front.drop k, back, ?_, ?_⟩
      · rw [handed, ← before]
        exact (List.prefix_append _ _).trans (List.prefix_append _ _)
      · rw [popped, queue, List.drop_append_of_le_length within]
      · have parts := weight_append (front.take k) (front.drop k)
        rw [List.take_append_drop] at parts
        rw [queue, List.take_append_of_le_length within] at total
        rw [List.length_take_of_le within] at bytes
        have progress : 0 < k ∨ c.stream.accepted.length <
            (c.writeLoop (.ok size :: ws)).1.stream.accepted.length := by
          rcases Nat.lt_or_eq_of_le offset with partly | written
          · exact .inr (writeLoop_takes partly takes ws)
          · have queued : c.writeQueue ≠ [] := by
              rw [queue]
              exact List.append_ne_nil_of_right_ne_nil _ (List.cons_ne_nil _ _)
            have fewer := writeLoop_pops written queued (.ok size) ws
            rw [popped, List.length_drop] at fewer
            omega
        omega

end Client

variable {b b' : Broker} {out : Outcome} {t : Token} {sent pkt : Bytes} {n : Nat}

/-- Only a flush of the connection writes. -/
theorem Op.permits_write {op : Op} {ws : List WriteResult} (permitted : op.permits (.change t (.write ws))) :
    op = .flush t ws := by
  rcases Op.permits_change permitted with ⟨p, rfl, changes⟩ | ⟨_, -, ⟨_, same⟩ | same⟩ |
    ⟨_, rfl, same | ⟨_, same⟩⟩ | ⟨-, same⟩ | ⟨_, _, _, -, same⟩
  · exact changes.elim
  · cases same
  · cases same
  · cases same
    rfl
  all_goals cases same

/-- What is left alone where nothing is written is left alone by all other operations. -/
theorem Op.restocks {op : Op} (healthy : b.Healthy) (done : op.run b = .ok (b', out))
    (given : t < b.nextToken) (unflushed : ∀ ws, op ≠ .flush t ws) (P : Client → Prop)
    (stays : ∀ c d, P c → Client.Restocked c d → P d) (start : ∀ c, b.clients.get? t = some c → P c) :
    ∀ d, b'.clients.get? t = some d → P d := by
  refine op.record_invariant healthy done given P ?_ ?_ start
  · intro now ch c permitted before
    refine stays c _ before (Change.restocked now c fun ws same => ?_)
    subst same
    exact unflushed ws (Op.permits_write permitted)
  · intro s a c d topic payload qos retain _ _ queued before
    exact stays c d before (Client.restocked_offer queued)

/-- A flush the socket takes something from. -/
theorem Broker.flush_promise {c : Client} {size : Nat} {ws : List WriteResult}
    (done : b.flushWrites t (.ok size :: ws) = .ok b') (takes : 0 < size)
    (found : b.clients.get? t = some c) (offset : c.writeOff ≤ c.writePending.length)
    (promises : c.Promises sent pkt n) : ∀ d, b'.clients.get? t = some d → d.Promises sent pkt (n - 1) := by
  intro d after
  simp only [flushWrites, found, Run.unwrap_some, Run.ok_bind] at done
  split at done
  next dead => cases (Broker.removeClient_erases done).symm.trans after
  next alive =>
    cases done
    simp only [HashMap.get?_insert_self, Option.some.injEq] at after
    subst after
    exact promises.write offset takes ws

namespace Loop

/-- No connection has written more than its batch. -/
theorem Reachable.offset {s : Loop} (reached : s.Reachable) {c : Client}
    (found : s.broker.clients.get? t = some c) : c.writeOff ≤ c.writePending.length := by
  refine (reachable_invariant (fun b => ∀ t c, b.clients.get? t = some c →
    c.writeOff ≤ c.writePending.length) ?_ ?_ reached).2 t c found
  · intro b start t c found
    cases (start.unconnected t).symm.trans found
  · intro b a b' healthy offset done t d found
    rcases Act.survivor healthy done found with ⟨h₁, h₂, -, -, rfl⟩ | ⟨c, before, ⟨ch, rfl, rfl⟩ | fed⟩
    · exact le_rfl
    · by_cases writes : ∃ ws, ch = .write ws
      · obtain ⟨ws, rfl⟩ := writes
        exact (Client.writeLoop_offset ws c (offset t c before)).1
      · have stocked := Change.restocked b.now c fun ws same => writes ⟨ws, same⟩
        rw [stocked.pending, stocked.off]
        exact offset t c before
    · rw [fed.offered.frame]
      exact offset t c before

section Written

variable {state : Nat → Loop} {input : Nat → Io} (reached : (state 0).Reachable)
  (run : Machine.Endless step (fun s io => s.admits io = true) state input)

include reached run

/-- A promise is kept as long as its connection is there. -/
theorem promise_stays {n : Nat} {t : Token} {sent pkt : Bytes} {r : Nat} {c : Client}
    (takes : ∀ m ≥ n, ∀ ws, (state m).op (input m) = .flush t ws → ∃ size rest, ws = .ok size :: rest ∧ 0 < size)
    (found : (state n).broker.clients.get? t = some c) (promises : c.Promises sent pkt r) {m : Nat} (le : n ≤ m) :
    ∀ d, (state m).broker.clients.get? t = some d → d.Promises sent pkt r := by
  refine client_keeps reached run found le (fun _ d => d.Promises sent pkt r) promises ?_
  intro j from_n _ b out ran given kept d after
  have before := run.reaches reached j
  by_cases flushed : ∃ ws, (state j).op (input j) = .flush t ws
  · obtain ⟨ws, flushes⟩ := flushed
    obtain ⟨size, rest, rfl, positive⟩ := takes j from_n ws flushes
    rw [flushes] at ran
    obtain ⟨b', done, rest⟩ := Run.bind_ok.mp ran
    cases rest
    obtain ⟨e, there, -⟩ := Run.bind_ok.mp done
    have there := Run.unwrap_ok there
    exact (Broker.flush_promise done positive there (Reachable.offset before there) (kept e there) d after).mono
      (Nat.sub_le r 1)
  · exact Op.restocks (Reachable.healthy before) ran given (fun ws same => flushed ⟨ws, same⟩)
      (fun c => c.Promises sent pkt r) (fun c d promises stocked => promises.restock stocked) kept d after

variable (often : ∀ n, ∃ m ≥ n, (state m).Works (input m))

include often

/-- A connection with something in its queue is flushed in the end, or gone. -/
theorem flush_comes {n : Nat} {t : Token} {c : Client} (found : (state n).broker.clients.get? t = some c)
    (queued : c.writeQueue ≠ []) : ∃ m ≥ n, (state m).broker.clients.get? t = none ∨
      ∃ ws, (state m).op (input m) = .flush t ws := by
  by_contra never
  have unflushed : ∀ m ≥ n, ∀ ws, (state m).op (input m) ≠ .flush t ws := fun m le ws flushes =>
    never ⟨m, le, .inr ⟨ws, flushes⟩⟩
  -- Then its queue stays what it is, or grows.
  have kept : ∀ m, n ≤ m → ∀ d, (state m).broker.clients.get? t = some d → d.writeQueue ≠ [] := by
    intro m le
    refine client_keeps reached run found le (fun _ d => d.writeQueue ≠ []) queued ?_
    intro j from_n _ b out ran given before
    exact Op.restocks (Reachable.healthy (run.reaches reached j)) ran given (unflushed j from_n)
      (fun c => c.writeQueue ≠ []) (fun c d queued stocked => stocked.queued queued) before
  obtain ⟨m, k, after, before, scanned, ended⟩ := rounds_again reached run often n
  cases there : (state m).broker.clients.get? t with
  | none => exact never ⟨m, after, .inl there⟩
  | some d =>
    by_cases gone : (state k).broker.clients.get? t = none
    · exact never ⟨k, Nat.le_trans after before, .inl gone⟩
    · -- The round that the scan has begun flushes the connection.
      obtain ⟨ios, path, placed⟩ := path_between run before
      obtain ⟨ws, flushed⟩ := connection_flushed (run.reaches reached m) scanned path ended there
        (kept m after d there) gone
      obtain ⟨j, from_m, flushes⟩ := placed _ flushed
      exact unflushed j (Nat.le_trans after from_m) ws flushes

/-- The packet comes nearer to the socket. -/
theorem promise_nearer {n : Nat} {t : Token} {sent pkt : Bytes} {r : Nat} {c : Client}
    (takes : ∀ m ≥ n, ∀ ws, (state m).op (input m) = .flush t ws → ∃ size rest, ws = .ok size :: rest ∧ 0 < size)
    (unstalled : ∀ m ≥ n, ∃ k ≥ m, ∀ d, (state k).broker.clients.get? t = some d → ¬d.Stalled)
    (found : (state n).broker.clients.get? t = some c) (promises : c.Promises sent pkt r) :
    ∃ m ≥ n, (state m).broker.clients.get? t = none ∨
      ∃ d, (state m).broker.clients.get? t = some d ∧ d.Promises sent pkt (r - 1) := by
  have kept := fun m (le : n ≤ m) => promise_stays reached run takes found promises le
  obtain ⟨k, after, moving⟩ := unstalled n le_rfl
  cases there : (state k).broker.clients.get? t with
  | none => exact ⟨k, after, .inl there⟩
  | some d =>
    by_cases empty : d.writeQueue = []
    · have written : d.writePending.length ≤ d.writeOff :=
        Nat.not_lt.mp fun partly => moving d there ⟨empty, partly⟩
      exact ⟨k, after, .inr ⟨d, there, ((kept k after d there).written empty written).mono (Nat.zero_le _)⟩⟩
    · obtain ⟨m, later, gone | ⟨ws, flushes⟩⟩ := flush_comes reached run often there empty
      · exact ⟨m, Nat.le_trans after later, .inl gone⟩
      · have from_n : n ≤ m := Nat.le_trans after later
        obtain ⟨size, rest, rfl, positive⟩ := takes m from_n ws flushes
        obtain ⟨b, out, ran, same⟩ := step_ok.mp (run.next m)
        rw [flushes] at ran
        obtain ⟨b', done, rest⟩ := Run.bind_ok.mp ran
        cases rest
        obtain ⟨e, present, -⟩ := Run.bind_ok.mp done
        have present := Run.unwrap_ok present
        have nearer := Broker.flush_promise done positive present
          (Reachable.offset (run.reaches reached m) present) (kept m from_n e present)
        refine ⟨m + 1, Nat.le_succ_of_le from_n, ?_⟩
        rw [same]
        cases left : b.clients.get? t with
        | none => exact .inl rfl
        | some f => exact .inr ⟨f, rfl, nearer f left⟩

end Written

/-- What is queued reliably is taken by its socket in the end, whole and behind what it took before, if the
socket takes something whenever it is written to and the connection is not removed first; unless the end
of a batch stays partly written for ever because nothing more is queued. -/
theorem queued_packet_written (state : Nat → Loop) (input : Nat → Io) (reached : (state 0).Reachable)
    (run : Machine.Endless step (fun s io => s.admits io = true) state input)
    (often : ∀ n, ∃ m ≥ n, (state m).Works (input m)) (n : Nat) (t : Token) (c : Client)
    (found : (state n).broker.clients.get? t = some c) (pkt : Bytes) (queued : (true, pkt) ∈ c.writeQueue)
    (takes : ∀ m ≥ n, ∀ ws, (state m).op (input m) = .flush t ws →
      ∃ size rest, ws = .ok size :: rest ∧ 0 < size)
    (unstalled : ∀ m ≥ n, ∃ k ≥ m, ∀ d, (state k).broker.clients.get? t = some d → ¬d.Stalled) :
    ∃ m ≥ n, (state m).broker.clients.get? t = none ∨ ∃ d between,
      (state m).broker.clients.get? t = some d ∧ c.stream.accepted ++ between ++ pkt <+: d.stream.accepted := by
  obtain ⟨front, back, queue⟩ := List.append_of_mem queued
  have first : c.Promises c.stream.accepted pkt (Client.weight front + c.unwritten + pkt.length + 1) :=
    .inr ⟨List.prefix_append _ _, front, back, queue, Nat.lt_succ_self _⟩
  -- Every flush makes the distance smaller.
  have nearer : ∀ r k d, n ≤ k → (state k).broker.clients.get? t = some d → d.Promises c.stream.accepted pkt r →
      ∃ m ≥ n, (state m).broker.clients.get? t = none ∨ ∃ d between,
        (state m).broker.clients.get? t = some d ∧ c.stream.accepted ++ between ++ pkt <+: d.stream.accepted := by
    intro r
    induction r with
    | zero =>
      intro k d later there promises
      obtain ⟨between, taken⟩ := promises.taken
      exact ⟨k, later, .inr ⟨d, between, there, taken⟩⟩
    | succ r ih =>
      intro k d later there promises
      obtain ⟨m, after, gone | ⟨e, present, nearer⟩⟩ := promise_nearer reached run often
        (fun m le => takes m (Nat.le_trans later le)) (fun m le => unstalled m (Nat.le_trans later le))
        there promises
      · exact ⟨m, Nat.le_trans later after, .inl gone⟩
      · exact ih m e (Nat.le_trans later after) present nearer
  exact nearer _ n c le_rfl found first

/-- A subscriber whose socket was full for a while; it does not acknowledge either, so it stays for a while
only. -/
theorem queued_packet_written_lulled : ∃ (state : Nat → Loop) (c : Client) (pkt : Bytes), (state 0).Reachable ∧
    (state 0).broker.clients.get? 1 = some c ∧ (true, pkt) ∈ c.writeQueue ∧
    ∃ m ≥ 0, (state m).broker.clients.get? 1 = none ∨ ∃ d between, (state m).broker.clients.get? 1 = some d ∧
      c.stream.accepted ++ between ++ pkt <+: d.stream.accepted := by
  obtain ⟨s, reached, silent, reliable⟩ := exists_silent
    ([Io.listen, .connection] ++ List.replicate 3 Io.quiet ++ [Io.read (connectBytes 2 97)] ++
      List.replicate 13 Io.quiet ++ [Io.read [0x82, 6, 0, 1, 0, 1, 116, 1, 0x32, 5, 0, 1, 116, 0, 1]] ++
      List.replicate 11 Io.quiet)
    (fun s => (s.broker.clients.get? 1).any fun c => c.writeQueue.any Prod.fst && c.inFlight.contains 1)
    (by decide +kernel)
  obtain ⟨c, found, both⟩ := (Option.any_eq_true _ _).mp reliable
  obtain ⟨some_, window⟩ := (Bool.and_eq_true _ _).mp both
  obtain ⟨⟨r, pkt⟩, queued, kept⟩ := List.any_eq_true.mp some_
  cases kept
  obtain ⟨e, inWindow⟩ := (HashMap.contains_iff _ _).mp window
  have start : (s.lulled 0).broker.clients.get? 1 = some c := found
  have unacked : ∀ m ≥ 0, ¬((s.lulled m).op (lull m)).Acknowledges (s.lulled m).broker 1 1 := fun m _ =>
    silent.unacknowledged m 1 1
  have unstalled : ∀ m ≥ 0, ∃ k ≥ m, ∀ d, (s.lulled k).broker.clients.get? 1 = some d → ¬d.Stalled := by
    intro m _
    obtain ⟨k, after, gone | ⟨d, f, there, under, many⟩⟩ := tried_often reached silent.endless
      (lulled_often s) silent.passes unacked found inWindow (QOS1_MAX_RETRIES + 1)
    · refine ⟨max m k, Nat.le_max_left m k, fun d there => ?_⟩
      cases (gone_stays reached silent.endless start after gone (Nat.le_max_right m k)).symm.trans there
    · exact absurd many (tried_seldom reached silent.endless there under)
  exact ⟨s.lulled, c, pkt, reached, found, queued, queued_packet_written s.lulled lull reached silent.endless
    (lulled_often s) 0 1 c found pkt queued
    (fun m _ ws flushes => ⟨65536, [], lulled_takes flushes, by decide⟩) unstalled⟩

end Loop
end MioBroker
