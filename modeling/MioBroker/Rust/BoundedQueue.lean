import Mathlib.Data.List.Count
import Mathlib.Data.List.Induction
import Mathlib.Data.List.Pairwise

/-!
# A bounded queue with two grades of entries

A full queue refuses an expendable entry. For a reliable one it gives up its oldest expendable
entry, and refuses when it has none. A history is followed with the number of the operation on
every entry, so that equal values queued twice are still two entries.
-/
namespace Rust.BoundedQueue

variable {α β : Type}

/-- (reliable, value), the oldest entry first. -/
abbrev Queue (α : Type) := List (Bool × α)

inductive Op (α : Type)
  | offer (x : α)
  | insist (x : α)
  | pop

/-- The oldest expendable entry. -/
def victim (queue : Queue α) : Option Nat := queue.findIdx? fun entry => !entry.1

/-- One operation, and whether it was carried out. -/
def step (cap : Nat) (queue : Queue α) : Op α → Queue α × Bool
  | .offer x => if cap ≤ queue.length then (queue, false) else (queue ++ [(false, x)], true)
  | .insist x =>
    if cap ≤ queue.length then
      match victim queue with
      | some idx => (queue.eraseIdx idx ++ [(true, x)], true)
      | none => (queue, false)
    else (queue ++ [(true, x)], true)
  | .pop => (queue.tail, !queue.isEmpty)

def run (cap : Nat) (queue : Queue α) (ops : List (Op α)) : Queue α :=
  ops.foldl (fun queue op => (step cap queue op).1) queue

@[simp] theorem run_nil (cap : Nat) (queue : Queue α) : run cap queue [] = queue := rfl

@[simp] theorem run_append (cap : Nat) (queue : Queue α) (ops more : List (Op α)) :
    run cap queue (ops ++ more) = run cap (run cap queue ops) more := List.foldl_append

theorem run_snoc (cap : Nat) (queue : Queue α) (ops : List (Op α)) (op : Op α) :
    run cap queue (ops ++ [op]) = (step cap (run cap queue ops) op).1 := run_append _ _ _ _

/-! ### The victim -/

/-- The victim is the oldest expendable entry. -/
theorem victim_some {queue : Queue α} {idx : Nat} (found : victim queue = some idx) :
    ∃ older x younger, queue = older ++ (false, x) :: younger ∧ (∀ e ∈ older, e.1 = true) ∧
      older.length = idx ∧ queue.eraseIdx idx = older ++ younger := by
  obtain ⟨inside, expendable, before⟩ := List.findIdx?_eq_some_iff_getElem.mp found
  simp only [Bool.not_eq_true', Bool.not_eq_false] at expendable before
  have here : queue[idx] = (false, queue[idx].2) := Prod.ext expendable rfl
  have parts : queue = queue.take idx ++ (false, queue[idx].2) :: queue.drop (idx + 1) := by
    rw [← here, List.getElem_cons_drop, List.take_append_drop]
  refine ⟨queue.take idx, queue[idx].2, queue.drop (idx + 1), parts, fun e member => ?_,
    by rw [List.length_take]; omega, List.eraseIdx_eq_take_drop_succ _ _⟩
  obtain ⟨i, below, rfl⟩ := List.mem_take_iff_getElem.mp member
  exact before i (by omega)

theorem victim_none {queue : Queue α} : victim queue = none ↔ ∀ e ∈ queue, e.1 = true := by
  rw [victim, List.findIdx?_eq_none_iff]
  simp

/-! ### One operation -/

theorem offer_room {cap : Nat} {queue : Queue α} (room : queue.length < cap) (x : α) :
    step cap queue (.offer x) = (queue ++ [(false, x)], true) := by
  simp [step, Nat.not_le.mpr room]

theorem insist_room {cap : Nat} {queue : Queue α} (room : queue.length < cap) (x : α) :
    step cap queue (.insist x) = (queue ++ [(true, x)], true) := by
  simp [step, Nat.not_le.mpr room]

theorem insist_refused {cap : Nat} {queue : Queue α} (full : cap ≤ queue.length)
    (reliable : ∀ e ∈ queue, e.1 = true) (x : α) : step cap queue (.insist x) = (queue, false) := by
  simp [step, full, victim_none.mpr reliable]

theorem insist_evicts {cap : Nat} {older younger : Queue α} {v : α}
    (full : cap ≤ (older ++ (false, v) :: younger).length) (reliable : ∀ e ∈ older, e.1 = true)
    (x : α) : step cap (older ++ (false, v) :: younger) (.insist x) =
      (older ++ younger ++ [(true, x)], true) := by
  have found : victim (older ++ (false, v) :: younger) = some older.length := by
    rw [victim, List.findIdx?_append, List.findIdx?_eq_none_iff.mpr (by simpa using reliable)]
    simp [List.findIdx?_cons]
  simp only [step, if_pos full, found]
  rw [List.eraseIdx_append_of_length_le (Nat.le_refl _), Nat.sub_self, List.eraseIdx_cons_zero]

/-- A full queue, seen from its oldest expendable entry. -/
theorem full_cases (queue : Queue α) :
    (∀ e ∈ queue, e.1 = true) ∨
      ∃ older v younger, queue = older ++ (false, v) :: younger ∧ ∀ e ∈ older, e.1 = true := by
  cases found : victim queue with
  | none => exact .inl (victim_none.mp found)
  | some idx =>
    obtain ⟨older, v, younger, parts, reliable, -⟩ := victim_some found
    exact .inr ⟨older, v, younger, parts, reliable⟩

/-- No operation makes the queue longer than its capacity. -/
theorem length_step {cap : Nat} {queue : Queue α} (bound : queue.length ≤ cap) (op : Op α) :
    (step cap queue op).1.length ≤ cap := by
  cases op with
  | offer x =>
    simp only [step]
    split
    · exact bound
    · rw [List.length_append, List.length_singleton]
      omega
  | insist x =>
    by_cases full : cap ≤ queue.length
    · rcases full_cases queue with reliable | ⟨older, v, younger, rfl, reliable⟩
      · rw [insist_refused full reliable]
        exact bound
      · rw [insist_evicts full reliable]
        simp only [List.length_append, List.length_cons] at bound ⊢
        simp only [List.length_nil]
        omega
    · rw [insist_room (by omega), List.length_append, List.length_singleton]
      omega
  | pop =>
    simp only [step, List.length_tail]
    omega

theorem length_run {cap : Nat} {queue : Queue α} (bound : queue.length ≤ cap) (ops : List (Op α)) :
    (run cap queue ops).length ≤ cap := by
  induction ops using List.reverseRecOn with
  | nil => exact bound
  | append_singleton ops op ih =>
    rw [run_snoc]
    exact length_step ih op

/-- What is still in the queue, in its old order, and what is new at its end. -/
theorem step_sublist (cap : Nat) (queue : Queue α) (op : Op α) :
    ∃ kept, kept.Sublist queue ∧ ((step cap queue op).1 = kept ∨
      (∃ x, op = .offer x ∧ (step cap queue op).1 = kept ++ [(false, x)]) ∨
      ∃ x, op = .insist x ∧ (step cap queue op).1 = kept ++ [(true, x)]) := by
  cases op with
  | offer x =>
    refine ⟨queue, .refl _, ?_⟩
    simp only [step]
    split
    · exact .inl rfl
    · exact .inr (.inl ⟨x, rfl, rfl⟩)
  | insist x =>
    by_cases full : cap ≤ queue.length
    · rcases full_cases queue with reliable | ⟨older, v, younger, rfl, reliable⟩
      · exact ⟨queue, .refl _, .inl (by rw [insist_refused full reliable])⟩
      · exact ⟨older ++ younger, (List.sublist_cons_self _ _).append_left older,
          .inr (.inr ⟨x, rfl, by rw [insist_evicts full reliable]⟩)⟩
    · exact ⟨queue, .refl _, .inr (.inr ⟨x, rfl, by rw [insist_room (by omega)]⟩)⟩
  | pop => exact ⟨queue.tail, List.tail_sublist _, .inl rfl⟩

/-- Reliable entries are taken from the front and from nowhere else. -/
theorem reliable_step (cap : Nat) (queue : Queue α) (op : Op α) (e : Bool × α)
    (member : e ∈ queue) (reliable : e.1 = true) (gone : e ∉ (step cap queue op).1) :
    op = .pop ∧ queue.head? = some e := by
  cases op with
  | offer x =>
    simp only [step] at gone
    split at gone
    · exact absurd member gone
    · exact absurd (List.mem_append_left _ member) gone
  | insist x =>
    by_cases full : cap ≤ queue.length
    · rcases full_cases queue with all | ⟨older, v, younger, rfl, front⟩
      · rw [insist_refused full all] at gone
        exact absurd member gone
      · have kept : e ∈ older ++ younger := by
          rcases List.mem_append.mp member with early | late
          · exact List.mem_append_left _ early
          · rcases List.mem_cons.mp late with rfl | late
            · cases reliable
            · exact List.mem_append_right _ late
        rw [insist_evicts full front] at gone
        exact absurd (List.mem_append_left _ kept) gone
    · rw [insist_room (by omega)] at gone
      exact absurd (List.mem_append_left _ member) gone
  | pop =>
    cases queue with
    | nil => cases member
    | cons first rest =>
      rcases List.mem_cons.mp member with rfl | later
      · exact ⟨rfl, rfl⟩
      · exact absurd later gone

/-! ### Histories -/

def Op.map (f : α → β) : Op α → Op β
  | .offer x => .offer (f x)
  | .insist x => .insist (f x)
  | .pop => .pop

/-- The queue does not look at the values. -/
theorem step_map (cap : Nat) (f : α → β) (queue : Queue α) (op : Op α) :
    step cap (queue.map (Prod.map id f)) (op.map f) =
      ((step cap queue op).1.map (Prod.map id f), (step cap queue op).2) := by
  cases op with
  | offer x =>
    simp only [step, Op.map, List.length_map]
    split <;> simp
  | insist x =>
    have same : victim (queue.map (Prod.map id f)) = victim queue := by
      simp [victim, List.findIdx?_map, Function.comp_def]
    simp only [step, Op.map, List.length_map, same]
    split
    · split <;> simp [List.eraseIdx_eq_take_drop_succ]
    · simp
  | pop => simp [step, Op.map]

theorem run_map (cap : Nat) (f : α → β) (queue : Queue α) (ops : List (Op α)) :
    run cap (queue.map (Prod.map id f)) (ops.map (Op.map f)) =
      (run cap queue ops).map (Prod.map id f) := by
  induction ops using List.reverseRecOn with
  | nil => rfl
  | append_singleton ops op ih =>
    rw [List.map_append, List.map_singleton, run_snoc, run_snoc, ih, step_map]

/-- Every operation with its number. -/
def numbered (ops : List (Op α)) : List (Op (Nat × α)) :=
  ops.mapIdx fun i op => op.map (i, ·)

/-- The queue behind a history, each entry with the number of the operation that queued it. -/
def held (cap : Nat) (ops : List (Op α)) : Queue (Nat × α) := run cap [] (numbered ops)

theorem numbered_snoc (ops : List (Op α)) (op : Op α) :
    numbered (ops ++ [op]) = numbered ops ++ [op.map (ops.length, ·)] := by
  simp [numbered, List.mapIdx_append]

theorem held_snoc (cap : Nat) (ops : List (Op α)) (op : Op α) :
    held cap (ops ++ [op]) = (step cap (held cap ops) (op.map (ops.length, ·))).1 := by
  rw [held, numbered_snoc, run_snoc, held]

/-- Without the numbers it is the queue itself. -/
theorem held_values (cap : Nat) (ops : List (Op α)) :
    (held cap ops).map (fun e => (e.1, e.2.2)) = run cap [] ops := by
  have unnumbered : (numbered ops).map (Op.map Prod.snd) = ops := by
    refine List.ext_getElem? fun i => ?_
    simp only [numbered, List.getElem?_map, List.getElem?_mapIdx, Option.map_map]
    cases ops[i]? with
    | none => rfl
    | some op => cases op <;> rfl
  have mapped := run_map cap Prod.snd ([] : Queue (Nat × α)) (numbered ops)
  rw [unnumbered] at mapped
  exact mapped.symm

/-- Every entry is the one its operation queued. -/
theorem held_origin (cap : Nat) (ops : List (Op α)) (e : Bool × Nat × α) (member : e ∈ held cap ops) :
    ops[e.2.1]? = some (if e.1 then .insist e.2.2 else .offer e.2.2) := by
  induction ops using List.reverseRecOn with
  | nil => cases member
  | append_singleton ops op ih =>
    rw [held_snoc] at member
    obtain ⟨kept, sub, parts⟩ := step_sublist cap (held cap ops) (op.map (ops.length, ·))
    have older : e ∈ kept → (ops ++ [op])[e.2.1]? =
        some (if e.1 then Op.insist e.2.2 else .offer e.2.2) := by
      intro early
      have here := ih (sub.subset early)
      rw [List.getElem?_append_left (List.getElem?_eq_some_iff.mp here).1, here]
    rcases parts with same | ⟨x, offered, same⟩ | ⟨x, insisted, same⟩
    · exact older (same ▸ member)
    · rw [same] at member
      rcases List.mem_append.mp member with early | new
      · exact older early
      · rw [List.mem_singleton.mp new]
        cases op with
        | offer y =>
          cases offered
          simp
        | _ => cases offered
    · rw [same] at member
      rcases List.mem_append.mp member with early | new
      · exact older early
      · rw [List.mem_singleton.mp new]
        cases op with
        | insist y =>
          cases insisted
          simp
        | _ => cases insisted

/-- What is in the queue was queued. -/
theorem mem_run {cap : Nat} {ops : List (Op α)} {e : Bool × α} (member : e ∈ run cap [] ops) :
    (if e.1 then .insist e.2 else .offer e.2) ∈ ops := by
  rw [← held_values] at member
  obtain ⟨f, inside, rfl⟩ := List.mem_map.mp member
  exact List.mem_of_getElem? (held_origin cap ops f inside)

/-- The entries stand in the order in which they were queued. -/
theorem held_ordered (cap : Nat) (ops : List (Op α)) :
    ((held cap ops).map fun e => e.2.1).Pairwise (· < ·) := by
  induction ops using List.reverseRecOn with
  | nil => exact .nil
  | append_singleton ops op ih =>
    have earlier : ∀ e ∈ held cap ops, e.2.1 < ops.length := fun e member =>
      (List.getElem?_eq_some_iff.mp (held_origin cap ops e member)).1
    obtain ⟨kept, sub, parts⟩ := step_sublist cap (held cap ops) (op.map (ops.length, ·))
    have ordered := ih.sublist (sub.map fun e => e.2.1)
    -- what is new carries the highest number so far
    have snoc : ∀ (r : Bool) (x : α),
        ((kept ++ [(r, ops.length, x)]).map fun e => e.2.1).Pairwise (· < ·) := by
      intro r x
      rw [List.map_append, List.pairwise_append]
      refine ⟨ordered, by simp, fun i old j new => ?_⟩
      obtain ⟨e, member, rfl⟩ := List.mem_map.mp old
      obtain rfl : j = ops.length := by simpa using new
      exact earlier e (sub.subset member)
    rw [held_snoc]
    rcases parts with same | ⟨x, offered, same⟩ | ⟨x, insisted, same⟩
    · rw [same]
      exact ordered
    · rw [same]
      cases op with
      | offer y =>
        cases offered
        exact snoc false y
      | _ => cases offered
    · rw [same]
      cases op with
      | insist y =>
        cases insisted
        exact snoc true y
      | _ => cases insisted

end Rust.BoundedQueue
