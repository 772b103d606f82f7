import Mathlib.Data.Nat.Find
import Mathlib.Order.WellFounded
import MioBroker.Rust.Machine

/-!
# Runs without end

A machine that never stops comes back to some states again and again, when every step in between
lowers a rank.
-/
namespace Rust.Machine

variable {σ ι ε α : Type}

/-- What holds at first and not later on stops holding somewhere in between. -/
theorem crosses (P : Nat → Prop) {a b : Nat} (le : a ≤ b) (inside : P a) (outside : ¬P b) :
    ∃ j, a ≤ j ∧ j < b ∧ P j ∧ ¬P (j + 1) := by
  induction b, le using Nat.le_induction with
  | base => exact absurd inside outside
  | succ b le ih =>
    by_cases still : P b
    · exact ⟨b, le, Nat.lt_succ_self b, still, outside⟩
    · obtain ⟨j, after, before, crossed⟩ := ih still
      exact ⟨j, after, Nat.lt_succ_of_lt before, crossed⟩

/-- The machine is in `state n` when it gets `input n`. -/
structure Endless (step : σ → ι → Except ε σ) (ok : σ → ι → Prop) (state : Nat → σ) (input : Nat → ι) :
    Prop where
  admitted : ∀ n, ok (state n) (input n)
  next : ∀ n, step (state n) (input n) = .ok (state (n + 1))

namespace Endless

variable {step : σ → ι → Except ε σ} {ok : σ → ι → Prop} {init : σ → Prop} {state : Nat → σ}
  {input : Nat → ι}

theorem reaches (endless : Endless step ok state input) (start : Reaches step init ok (state 0)) (n : Nat) :
    Reaches step init ok (state n) := by
  induction n with
  | zero => exact start
  | succ n ih => exact ih.next (endless.admitted n) (endless.next n)

/-- Where every step that does some work lowers a well-founded rank, and no other step changes it, a run
that works again and again comes home again and again. -/
theorem recurs (endless : Endless step ok state input) (start : Reaches step init ok (state 0))
    {r : α → α → Prop} (wf : WellFounded r) (rank : σ → α) (works : σ → ι → Prop) (home : σ → Prop)
    (waits : ∀ s i s', step s i = .ok s' → ¬works s i → rank s' = rank s)
    (lowers : ∀ s i s', Reaches step init ok s → step s i = .ok s' → works s i →
      home s ∨ r (rank s') (rank s))
    (often : ∀ n, ∃ m ≥ n, works (state m) (input m)) : ∀ n, ∃ m ≥ n, home (state m) := by
  intro n
  generalize same : rank (state n) = a
  induction a using wf.induction generalizing n with
  | _ a ih =>
    subst same
    -- The rank stays what it is up to the next step that works.
    have still : ∀ k, (∀ m, n ≤ m → m < n + k → ¬works (state m) (input m)) →
        rank (state (n + k)) = rank (state n) := by
      intro k
      induction k with
      | zero => exact fun _ => rfl
      | succ k ih =>
        intro idle
        have before := ih fun m le lt => idle m le (Nat.lt_succ_of_lt lt)
        have last := idle (n + k) (Nat.le_add_right n k) (Nat.lt_succ_self _)
        exact (waits _ _ _ (endless.next (n + k)) last).trans before
    classical
    obtain ⟨le, work⟩ := Nat.find_spec (often n)
    obtain ⟨k, first⟩ := Nat.exists_eq_add_of_le le
    have idle : ∀ m, n ≤ m → m < n + k → ¬works (state m) (input m) := fun m after before work =>
      Nat.find_min (often n) (first ▸ before) ⟨after, work⟩
    rw [first] at work
    rcases lowers _ _ _ (endless.reaches start (n + k)) (endless.next (n + k)) work with there | lower
    · exact ⟨n + k, Nat.le_add_right n k, there⟩
    · rw [still k idle] at lower
      obtain ⟨m, later, there⟩ := ih _ lower (n + k + 1) rfl
      exact ⟨m, Nat.le_trans (Nat.le_add_right n (k + 1)) later, there⟩

end Endless
end Rust.Machine
