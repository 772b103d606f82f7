import MioBroker.Rust.Core

/-!
# Pruning a vector while going through it

A loop over positions of a vector tries the value under each of them, in a state of its own, and
swap-removes those it fails for. The last value moves into the hole, so the positions to come must
lie below it: then they still mean what they meant at the start.
-/
namespace Rust

variable {σ α : Type}

/-- Go through positions of `v`; `kept` and `lost` count the attempts that succeed and fail. -/
def pruneLoop (attempt : σ → α → σ × Bool) :
    List Nat → σ → List α → Nat → Nat → Run (σ × List α × Nat × Nat)
  | [], s, v, kept, lost => pure (s, v, kept, lost)
  | i :: idxs, s, v, kept, lost => do
    let x ← Run.index v i
    match attempt s x with
    | (s, true) => pruneLoop attempt idxs s v (kept + 1) lost
    | (s, false) => pruneLoop attempt idxs s (swapRemove v i) kept (lost + 1)

/-- One attempt for each value of a list, with the outcomes. -/
def attemptAll (attempt : σ → α → σ × Bool) : List α → σ → σ × List (α × Bool)
  | [], s => (s, [])
  | x :: xs, s =>
    let rest := attemptAll attempt xs (attempt s x).1
    (rest.1, (x, (attempt s x).2) :: rest.2)

/-- The values whose attempts failed. -/
def failed (outcomes : List (α × Bool)) : List α :=
  (outcomes.filter fun outcome => !outcome.2).map Prod.fst

/-- The values under some positions of a vector. -/
def valuesAt (v : List α) (idxs : List Nat) : List α := idxs.filterMap (v[·]?)

theorem valuesAt_cons (v : List α) (i : Nat) (idxs : List Nat) (lt : i < v.length) :
    valuesAt v (i :: idxs) = v[i] :: valuesAt v idxs := by
  rw [valuesAt, List.filterMap_cons, List.getElem?_eq_getElem lt]
  rfl

theorem length_valuesAt (v : List α) (idxs : List Nat) (inside : ∀ i ∈ idxs, i < v.length) :
    (valuesAt v idxs).length = idxs.length := by
  induction idxs with
  | nil => rfl
  | cons i idxs ih =>
    rw [List.forall_mem_cons] at inside
    rw [valuesAt_cons v i idxs inside.1, List.length_cons, List.length_cons, ih inside.2]

/-- A hole above them leaves positions alone. -/
theorem valuesAt_swapRemove (v : List α) (i : Nat) (idxs : List Nat) (lt : i < v.length)
    (below : ∀ j ∈ idxs, j < i) : valuesAt (swapRemove v i) idxs = valuesAt v idxs :=
  List.filterMap_congr fun j member => getElem?_swapRemove_lt v i j lt (below j member)

/-- Every attempt succeeds or fails. -/
theorem countP_add_failed (outcomes : List (α × Bool)) :
    outcomes.countP (·.2) + (failed outcomes).length = outcomes.length := by
  induction outcomes with
  | nil => rfl
  | cons outcome rest ih =>
    rcases outcome with ⟨x, _ | _⟩
    all_goals simp only [failed, List.countP_cons, List.filter_cons, List.length_map] at ih ⊢
    all_goals simp; omega

theorem map_fst_attemptAll (attempt : σ → α → σ × Bool) (xs : List α) (s : σ) :
    (attemptAll attempt xs s).2.map Prod.fst = xs := by
  induction xs generalizing s with
  | nil => rfl
  | cons x xs ih => simp only [attemptAll, List.map_cons, ih]

/-- Along descending positions the loop tries what the vector had under them at the start, one
after the other, and what is left is the vector without the failed ones. -/
theorem pruneLoop_descending (attempt : σ → α → σ × Bool) (idxs : List Nat) (s : σ) (v : List α)
    (kept lost : Nat) (descending : idxs.Pairwise (· > ·)) (inside : ∀ i ∈ idxs, i < v.length) :
    ∃ w, pruneLoop attempt idxs s v kept lost =
        .ok ((attemptAll attempt (valuesAt v idxs) s).1, w,
          kept + (attemptAll attempt (valuesAt v idxs) s).2.countP (·.2),
          lost + (failed (attemptAll attempt (valuesAt v idxs) s).2).length) ∧
      (failed (attemptAll attempt (valuesAt v idxs) s).2 ++ w).Perm v := by
  induction idxs generalizing s v kept lost with
  | nil => exact ⟨v, rfl, .refl v⟩
  | cons i idxs ih =>
    obtain ⟨below, descending⟩ := List.pairwise_cons.mp descending
    obtain ⟨lt, inside⟩ := List.forall_mem_cons.mp inside
    rw [pruneLoop, Run.index_of_lt v i lt, Run.ok_bind, valuesAt_cons v i idxs lt]
    rcases outcome : attempt s v[i] with ⟨s', _ | _⟩
    · have inside' : ∀ j ∈ idxs, j < (swapRemove v i).length := by
        intro j member
        have := below j member
        rw [length_swapRemove v i lt]
        omega
      obtain ⟨w, run, perm⟩ := ih s' (swapRemove v i) kept (lost + 1) descending inside'
      rw [valuesAt_swapRemove v i idxs lt below] at run perm
      refine ⟨w, ?_, ?_⟩
      · simp only [run, attemptAll, outcome, failed, List.countP_cons, List.filter_cons]
        simp [Nat.add_assoc, Nat.add_comm]
      · have whole := (perm.cons v[i]).trans (swapRemove_perm v i lt)
        simpa [attemptAll, outcome, failed] using whole
    · obtain ⟨w, run, perm⟩ := ih s' v (kept + 1) lost descending inside
      refine ⟨w, ?_, ?_⟩
      · simp only [run, attemptAll, outcome, failed, List.countP_cons, List.filter_cons]
        simp [Nat.add_assoc, Nat.add_comm]
      · simpa [attemptAll, outcome, failed] using perm

end Rust
