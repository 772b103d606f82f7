import Mathlib.Data.List.Perm.Subperm
import MioBroker.Client

/-!
# The in-flight window and the outbound queue

What `alloc_pid` hands out, and when the two queueing operations accept a packet.
-/
namespace MioBroker

open Rust

namespace Client

/-! ### Packet ids -/

theorem allocPidLoop_some (m : HashMap UInt16 InFlight) (fuel : Nat) (start next pid : UInt16)
    (found : allocPidLoop m fuel start = (next, some pid)) : pid ≠ 0 ∧ m.get? pid = none := by
  induction fuel generalizing start with
  | zero => simp [allocPidLoop] at found
  | succ fuel ih =>
    have nonzero : (if start = 0 then 1 else start) ≠ 0 := by
      split
      · decide
      · assumption
    simp only [allocPidLoop] at found
    generalize (if start = 0 then 1 else start) = candidate at found nonzero
    split at found
    next => exact ih _ found
    next free =>
      simp only [Prod.mk.injEq, Option.some.injEq] at found
      obtain ⟨-, rfl⟩ := found
      exact ⟨nonzero, by simpa [HashMap.contains] using free⟩

private theorem ofNat_succ (p : Nat) : UInt16.ofNat p + 1 = UInt16.ofNat (p + 1) := by
  apply UInt16.toNat_inj.mp
  rw [UInt16.toNat_add, UInt16.toNat_ofNat', UInt16.toNat_ofNat']
  have one : (1 : UInt16).toNat = 1 := rfl
  omega

private theorem ofNat_ne_zero (p : Nat) (low : 1 ≤ p) (high : p < 65536) : UInt16.ofNat p ≠ 0 := by
  intro zero
  have value := congrArg UInt16.toNat zero
  rw [UInt16.toNat_ofNat', UInt16.toNat_zero] at value
  omega

/-- A failing search passes over every id up to the wrap-around. -/
private theorem allocPidLoop_none_step (m : HashMap UInt16 InFlight) (fuel j p : Nat)
    (next : UInt16) (low : 1 ≤ p) (high : p + j ≤ 65536)
    (failed : allocPidLoop m (fuel + j) (.ofNat p) = (next, none)) :
    allocPidLoop m fuel (.ofNat (p + j)) = (next, none) ∧
      ∀ i < j, ∃ entry, m.get? (.ofNat (p + i)) = some entry := by
  induction j generalizing p with
  | zero => exact ⟨failed, fun i lt => absurd lt (Nat.not_lt_zero i)⟩
  | succ j ih =>
    rw [← Nat.add_assoc, allocPidLoop, if_neg (ofNat_ne_zero p low (by omega))] at failed
    split at failed
    -- The id at hand is in use, and the search goes on at the next one.
    next taken =>
      rw [ofNat_succ] at failed
      obtain ⟨rest, below⟩ := ih (p + 1) (by omega) (by omega) failed
      refine ⟨by rw [show p + (j + 1) = p + 1 + j by omega]; exact rest, fun i lt => ?_⟩
      cases i with
      | zero => exact (m.contains_iff _).mp taken
      | succ i =>
        rw [show p + (i + 1) = p + 1 + i by omega]
        exact below i (by omega)
    next => simp at failed

/-- More consecutive ids than the map has entries cannot all be taken. -/
private theorem allocPidLoop_found (m : HashMap UInt16 InFlight) (fuel p : Nat) (next : UInt16)
    (small : m.size < IN_FLIGHT_CAP) (low : 1 ≤ p) (high : p + 256 ≤ 65536)
    (failed : allocPidLoop m (fuel + 256) (.ofNat p) = (next, none)) : False := by
  obtain ⟨-, taken⟩ := allocPidLoop_none_step m fuel 256 p next low high failed
  -- A failed search has seen 256 ids in use, more than the window holds.
  have inside : (List.range 256).map (fun i => UInt16.ofNat (p + i)) ⊆ m.table.keys := by
    intro pid member
    obtain ⟨i, lt, rfl⟩ := List.mem_map.mp member
    exact (m.mem_keys_table _).mpr (taken i (List.mem_range.mp lt))
  have distinct : ((List.range 256).map fun i => UInt16.ofNat (p + i)).Nodup := by
    refine (List.nodup_range).map_on ?_
    intro i hi j hj same
    have value := congrArg UInt16.toNat same
    rw [UInt16.toNat_ofNat', UInt16.toNat_ofNat'] at value
    have := List.mem_range.mp hi
    have := List.mem_range.mp hj
    omega
  have bound := (distinct.subperm inside).length_le
  simp only [List.length_map, List.length_range] at bound
  simp only [HashMap.size, IN_FLIGHT_CAP] at small
  omega

private theorem allocPidLoop_zero (m : HashMap UInt16 InFlight) (fuel : Nat) :
    allocPidLoop m (fuel + 1) 0 = allocPidLoop m (fuel + 1) (.ofNat 1) := rfl

/-- With room in the window the search always finds an id. -/
theorem allocPidLoop_isSome (m : HashMap UInt16 InFlight) (start : UInt16)
    (small : m.size < IN_FLIGHT_CAP) :
    ∃ next pid, allocPidLoop m 65536 start = (next, some pid) := by
  have start_eq : start = UInt16.ofNat start.toNat := (UInt16.ofNat_toNat).symm
  have start_lt := start.toNat_lt
  cases result : allocPidLoop m 65536 start with
  | mk next pid =>
    cases pid with
    | some pid => exact ⟨next, pid, rfl⟩
    | none =>
      exfalso
      have from_zero : ∀ fuel, allocPidLoop m (fuel + 256) 0 = (next, none) → False := by
        intro fuel failed
        rw [show fuel + 256 = fuel + 255 + 1 from rfl, allocPidLoop_zero] at failed
        exact allocPidLoop_found m fuel 1 next small (Nat.le_refl _) (by omega) failed
      generalize rounds : (65536 : Nat) = n at result
      by_cases zero : start.toNat = 0
      · have is_zero : start = 0 := UInt16.toNat_inj.mp zero
        rw [is_zero, show n = n - 256 + 256 by omega] at result
        exact from_zero _ result
      · by_cases near : start.toNat + 256 ≤ 65536
        · rw [start_eq, show n = n - 256 + 256 by omega] at result
          exact allocPidLoop_found m _ start.toNat next small (by omega) near result
        · -- the search runs into the wrap-around and starts over at 1
          rw [start_eq, show n = start.toNat + (65536 - start.toNat) by omega] at result
          obtain ⟨rest, -⟩ := allocPidLoop_none_step m start.toNat (65536 - start.toNat)
            start.toNat next (by omega) (by omega) result
          have wrapped : UInt16.ofNat (start.toNat + (65536 - start.toNat)) = 0 := by
            apply UInt16.toNat_inj.mp
            rw [UInt16.toNat_ofNat', UInt16.toNat_zero]
            omega
          rw [wrapped, show start.toNat = start.toNat - 256 + 256 by omega] at rest
          exact from_zero _ rest

/-- `alloc_pid` fails exactly when the window is full. -/
theorem allocPid_full (c : Client) (full : IN_FLIGHT_CAP ≤ c.inFlight.size) :
    c.allocPid = (c, none) := by
  simp [allocPid, full]

theorem allocPid_room (c : Client) (room : c.inFlight.size < IN_FLIGHT_CAP) :
    ∃ next pid, c.allocPid = ({ c with nextPid := next }, some pid) ∧ pid ≠ 0 ∧
      c.inFlight.get? pid = none := by
  obtain ⟨next, pid, found⟩ := allocPidLoop_isSome c.inFlight c.nextPid room
  refine ⟨next, pid, ?_, allocPidLoop_some _ _ _ _ _ found⟩
  rw [allocPid, if_neg (Nat.not_le.mpr room), found]

/-! ### The queue -/

/-- Number of reliable entries waiting in the queue. -/
def reliable (c : Client) : Nat := c.writeQueue.countP Prod.fst

/-- Eviction takes unreliable entries only. -/
theorem filter_makeRoom (fuel : Nat) (queue : List (Bool × Bytes)) :
    (makeRoom fuel queue).1.filter Prod.fst = queue.filter Prod.fst := by
  induction fuel generalizing queue with
  | zero => rfl
  | succ fuel ih =>
    simp only [makeRoom]
    split
    · split
      next idx found =>
        rw [ih]
        obtain ⟨lt, unreliable, -⟩ := List.findIdx?_eq_some_iff_getElem.mp found
        simp only [Bool.not_eq_true'] at unreliable
        calc (queue.eraseIdx idx).filter Prod.fst
            _ = (queue.take idx).filter Prod.fst ++ (queue.drop (idx + 1)).filter Prod.fst := by
              rw [List.eraseIdx_eq_take_drop_succ, List.filter_append]
            _ = (queue.take idx).filter Prod.fst ++
                (queue[idx] :: queue.drop (idx + 1)).filter Prod.fst := by
              rw [List.filter_cons_of_neg (by simp [unreliable])]
            _ = queue.filter Prod.fst := by
              rw [← List.filter_append, ← List.drop_eq_getElem_cons lt, List.take_append_drop]
      next => rfl
    · rfl

theorem sublist_makeRoom (fuel : Nat) (queue : List (Bool × Bytes)) :
    (makeRoom fuel queue).1.Sublist queue := by
  induction fuel generalizing queue with
  | zero => exact .refl _
  | succ fuel ih =>
    simp only [makeRoom]
    split
    · split
      · exact (ih _).trans (List.eraseIdx_sublist _ _)
      · exact .refl _
    · exact .refl _

/-- What room-making leaves is shorter than the cap, or consists of reliable entries. -/
theorem makeRoom_true (fuel : Nat) (queue : List (Bool × Bytes))
    (done : (makeRoom fuel queue).2 = true) : (makeRoom fuel queue).1.length < WRITE_QUEUE_CAP := by
  induction fuel generalizing queue with
  | zero => simpa [makeRoom] using done
  | succ fuel ih =>
    simp only [makeRoom] at done ⊢
    split at done
    next full =>
      rw [if_pos full]
      split at done
      next => exact ih _ done
      next => simp at done
    next short =>
      rw [if_neg short]
      exact Nat.not_le.mp short

theorem makeRoom_short (fuel : Nat) (queue : List (Bool × Bytes))
    (short : queue.length < WRITE_QUEUE_CAP) : makeRoom fuel queue = (queue, true) := by
  cases fuel with
  | zero => simp [makeRoom, short]
  | succ fuel => simp [makeRoom, Nat.not_le.mpr short]

private theorem findIdx?_unreliable (queue : List (Bool × Bytes)) :
    (queue.findIdx? fun entry => !entry.1) = none ↔ queue.countP Prod.fst = queue.length := by
  rw [List.findIdx?_eq_none_iff, List.countP_eq_length]
  simp

/-- A full queue makes room unless every entry is reliable. -/
theorem makeRoom_full (fuel : Nat) (queue : List (Bool × Bytes))
    (full : queue.length = WRITE_QUEUE_CAP) :
    (makeRoom (fuel + 1) queue).2 = true ↔ queue.countP Prod.fst < WRITE_QUEUE_CAP := by
  have le := List.countP_le_length (p := Prod.fst) (l := queue)
  simp only [makeRoom, full, ge_iff_le, Nat.le_refl, if_true]
  cases found : queue.findIdx? fun entry => !entry.1 with
  | none =>
    have all := (findIdx?_unreliable queue).mp found
    simp [all, full]
  | some idx =>
    have lt := (List.findIdx?_eq_some_iff_getElem.mp found).1
    have some_unreliable : queue.countP Prod.fst ≠ queue.length := fun all => by
      simp [(findIdx?_unreliable queue).mpr all] at found
    -- One eviction makes room enough.
    have shorter : (queue.eraseIdx idx).length < WRITE_QUEUE_CAP := by
      rw [List.length_eraseIdx_of_lt lt]
      omega
    simp only [makeRoom_short fuel _ shorter, true_iff]
    omega

/-- The exact length after a successful room-making. -/
theorem length_makeRoom_full (fuel : Nat) (queue : List (Bool × Bytes))
    (full : queue.length = WRITE_QUEUE_CAP) (room : queue.countP Prod.fst < WRITE_QUEUE_CAP) :
    (makeRoom (fuel + 1) queue).1.length + 1 = WRITE_QUEUE_CAP := by
  simp only [makeRoom, full, ge_iff_le, Nat.le_refl, if_true]
  cases found : queue.findIdx? fun entry => !entry.1 with
  | none =>
    have all := (findIdx?_unreliable queue).mp found
    omega
  | some idx =>
    have lt := (List.findIdx?_eq_some_iff_getElem.mp found).1
    have shorter : (queue.eraseIdx idx).length < WRITE_QUEUE_CAP := by
      rw [List.length_eraseIdx_of_lt lt]
      omega
    simp only [makeRoom_short fuel _ shorter, List.length_eraseIdx_of_lt lt]
    omega

/-- `queue_qos1` fails exactly when the queue is full of reliable entries. -/
theorem queueQos1_ok_iff (c : Client) (pkt : Bytes) (bound : c.writeQueue.length ≤ WRITE_QUEUE_CAP) :
    (c.queueQos1 pkt).2 = .ok () ↔ c.reliable < WRITE_QUEUE_CAP := by
  have le := List.countP_le_length (p := Prod.fst) (l := c.writeQueue)
  have made : (makeRoom c.writeQueue.length c.writeQueue).2 = true ↔
      c.reliable < WRITE_QUEUE_CAP := by
    by_cases short : c.writeQueue.length < WRITE_QUEUE_CAP
    · rw [makeRoom_short _ _ short]
      simp only [reliable, true_iff]
      omega
    · have full : c.writeQueue.length = WRITE_QUEUE_CAP := by omega
      rw [full]
      exact makeRoom_full 8191 c.writeQueue full
  rw [← made, queueQos1]
  rcases makeRoom c.writeQueue.length c.writeQueue with ⟨queue, ok⟩
  cases ok <;> simp

/-- A successful `queue_qos1` appends one reliable entry; evictions spare reliable ones. -/
theorem queueQos1_spec (c d : Client) (pkt : Bytes) (done : c.queueQos1 pkt = (d, .ok ())) :
    ∃ queue, d = { c with writeQueue := queue ++ [(true, pkt)] } ∧
      queue.filter Prod.fst = c.writeQueue.filter Prod.fst ∧
      queue.length < WRITE_QUEUE_CAP ∧ queue.length ≤ c.writeQueue.length ∧
      (c.writeQueue.length ≤ WRITE_QUEUE_CAP →
        queue.length + 1 = min WRITE_QUEUE_CAP (c.writeQueue.length + 1)) := by
  simp only [queueQos1] at done
  split at done
  next queue made =>
    cases done
    have eq1 : (makeRoom c.writeQueue.length c.writeQueue).1 = queue := by rw [made]
    have ok : (makeRoom c.writeQueue.length c.writeQueue).2 = true := by rw [made]
    refine ⟨queue, rfl, ?_, ?_, ?_, ?_⟩
    · rw [← eq1, filter_makeRoom]
    · rw [← eq1]
      exact makeRoom_true _ _ ok
    · rw [← eq1]
      exact (sublist_makeRoom _ _).length_le
    · intro bound
      by_cases short : c.writeQueue.length < WRITE_QUEUE_CAP
      · rw [makeRoom_short _ _ short] at eq1
        simp only at eq1
        subst eq1
        omega
      · have full : c.writeQueue.length = WRITE_QUEUE_CAP := by omega
        have room : c.writeQueue.countP Prod.fst < WRITE_QUEUE_CAP := by
          rw [full] at ok
          exact (makeRoom_full 8191 c.writeQueue full).mp ok
        have exact_length := length_makeRoom_full 8191 c.writeQueue full room
        have cap : WRITE_QUEUE_CAP = 8191 + 1 := rfl
        rw [full, cap] at eq1
        rw [eq1] at exact_length
        omega
  next => simp at done

theorem queueQos0_ok (c : Client) (pkt : Bytes) (short : c.writeQueue.length < WRITE_QUEUE_CAP) :
    c.queueQos0 pkt = ({ c with writeQueue := c.writeQueue ++ [(false, pkt)] }, true) := by
  simp [queueQos0, Nat.not_le.mpr short]

theorem queueQos0_full (c : Client) (pkt : Bytes) (full : WRITE_QUEUE_CAP ≤ c.writeQueue.length) :
    c.queueQos0 pkt = (c, false) := by
  simp [queueQos0, full]

end Client
end MioBroker
