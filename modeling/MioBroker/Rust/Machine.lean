import Mathlib.Data.List.Basic

/-!
# Runs of a deterministic machine

A machine takes inputs one at a time and may abort. A path is a run in which every input was
admitted in the state it met.
-/
namespace Rust.Machine

variable {σ ι ε : Type}

/-- `Path step ok s is t`: from `s` the inputs `is`, each admitted by `ok`, lead to `t`. -/
inductive Path (step : σ → ι → Except ε σ) (ok : σ → ι → Prop) (s : σ) : List ι → σ → Prop
  | nil : Path step ok s [] s
  | snoc {is : List ι} {t u : σ} (i : ι) : Path step ok s is t → ok t i → step t i = .ok u →
      Path step ok s (is ++ [i]) u

namespace Path

variable {step : σ → ι → Except ε σ} {ok ok' : σ → ι → Prop} {s t u : σ} {is js : List ι}

theorem single (i : ι) (admitted : ok s i) (next : step s i = .ok t) : Path step ok s [i] t :=
  .snoc i .nil admitted next

theorem append (first : Path step ok s is t) (second : Path step ok t js u) :
    Path step ok s (is ++ js) u := by
  induction second with
  | nil => simpa using first
  | snoc i _ admitted next ih =>
    rw [← List.append_assoc]
    exact .snoc i ih admitted next

theorem cons (i : ι) (admitted : ok s i) (next : step s i = .ok t) (rest : Path step ok t js u) :
    Path step ok s (i :: js) u := append (single i admitted next) rest

theorem eq_of_nil (path : Path step ok s is t) (none_given : is = []) : t = s := by
  cases path with
  | nil => rfl
  | snoc i _ _ _ => simp at none_given

/-- The first step of a path. -/
theorem uncons {i : ι} (path : Path step ok s (i :: is) t) :
    ∃ u, ok s i ∧ step s i = .ok u ∧ Path step ok u is t := by
  generalize given : i :: is = all at path
  induction path generalizing is with
  | nil => cases given
  | @snoc earlier u v j before admitted next ih =>
    cases earlier with
    | nil =>
      cases given
      rw [before.eq_of_nil rfl] at admitted next
      exact ⟨v, admitted, next, .nil⟩
    | cons k earlier =>
      cases given
      obtain ⟨w, first, stepped, rest⟩ := ih rfl
      exact ⟨w, first, stepped, .snoc j rest admitted next⟩

theorem mono (path : Path step ok s is t) (weaker : ∀ s i, ok s i → ok' s i) :
    Path step ok' s is t := by
  induction path with
  | nil => exact .nil
  | snoc i _ admitted next ih => exact .snoc i ih (weaker _ _ admitted) next

/-- An invariant kept by every admitted step holds at the end of a path. -/
theorem invariant (inv : σ → Prop)
    (kept : ∀ s i t, inv s → ok s i → step s i = .ok t → inv t)
    (path : Path step ok s is t) (start : inv s) : inv t := by
  induction path with
  | nil => exact start
  | snoc i _ admitted next ih => exact kept _ i _ ih admitted next

end Path

/-- A path over two lists of inputs goes through a state between them. -/
theorem Path.split {step : σ → ι → Except ε σ} {ok : σ → ι → Prop} {s t : σ} {is js : List ι}
    (path : Path step ok s (is ++ js) t) : ∃ u, Path step ok s is u ∧ Path step ok u js t := by
  induction is generalizing s with
  | nil => exact ⟨s, .nil, path⟩
  | cons i is ih =>
    obtain ⟨u, admitted, next, rest⟩ := path.uncons
    obtain ⟨v, before, after⟩ := ih rest
    exact ⟨v, .cons i admitted next before, after⟩

/-- The machine is deterministic. -/
theorem Path.unique {step : σ → ι → Except ε σ} {ok ok' : σ → ι → Prop} {s t u : σ} {is : List ι}
    (first : Path step ok s is t) (second : Path step ok' s is u) : t = u := by
  induction is generalizing s with
  | nil => rw [first.eq_of_nil rfl, second.eq_of_nil rfl]
  | cons i is ih =>
    obtain ⟨v, -, next, rest⟩ := first.uncons
    obtain ⟨w, -, next', rest'⟩ := second.uncons
    cases next.symm.trans next'
    exact ih rest rest'

/-- `P` holds of every step of the run from `s` on the inputs `is`: of the inputs before it, of the
state it starts in, of its input and of the state it leads to. -/
def EachStep (step : σ → ι → Except ε σ) (ok : σ → ι → Prop) (s : σ) (is : List ι)
    (P : List ι → σ → ι → σ → Prop) : Prop :=
  ∀ before i after t u, is = before ++ i :: after → Path step ok s before t → ok t i →
    step t i = .ok u → P before t i u

namespace EachStep

variable {step : σ → ι → Except ε σ} {ok ok' : σ → ι → Prop} {s t : σ} {is : List ι}
  {P Q : List ι → σ → ι → σ → Prop}

theorem congr (same : ∀ before t i u, Path step ok s before t → ok t i → step t i = .ok u →
    (P before t i u ↔ Q before t i u)) :
    EachStep step ok s is P ↔ EachStep step ok s is Q := by
  constructor
  · intro each before i after t u cut path admitted next
    exact (same before t i u path admitted next).mp (each before i after t u cut path admitted next)
  · intro each before i after t u cut path admitted next
    exact (same before t i u path admitted next).mpr (each before i after t u cut path admitted next)

/-- What a path demands of its inputs holds of every step. -/
theorem of_path (path : Path step ok' s is t) :
    EachStep step ok s is fun _ t i _ => ok' t i := by
  rintro before i after t u rfl start - -
  obtain ⟨v, first, rest⟩ := path.split
  obtain ⟨w, admitted, -, -⟩ := rest.uncons
  cases start.unique first
  exact admitted

/-- What every step so far gave is an invariant of the states between the steps. -/
theorem always {inv : σ → Prop} (start : inv s)
    (kept : ∀ before t i u, Path step ok s before t → inv t → ok t i → step t i = .ok u →
      P before t i u → inv u)
    (each : EachStep step ok s is P) {before after : List ι} (cut : is = before ++ after)
    (path : Path step ok s before t) : inv t := by
  induction path generalizing after with
  | nil => exact start
  | @snoc earlier v w i path admitted next ih =>
    have cut' : is = earlier ++ i :: after := by rw [cut, List.append_assoc, List.singleton_append]
    exact kept earlier v i w path (ih cut') admitted next (each earlier i after v w cut' path admitted next)

/-- Two properties of steps that agree wherever an invariant holds which the first one keeps. -/
theorem invariant_iff (inv : σ → Prop) (start : inv s)
    (kept : ∀ before t i u, P before t i u → inv u)
    (same : ∀ before t i u, Path step ok s before t → inv t → ok t i → step t i = .ok u →
      (P before t i u ↔ Q before t i u)) :
    EachStep step ok s is P ↔ EachStep step ok s is Q := by
  constructor
  · intro each before i after t u cut path admitted next
    have holds : inv t := each.always start (fun _ _ _ _ _ _ _ _ => kept _ _ _ _) cut path
    exact (same before t i u path holds admitted next).mp (each before i after t u cut path admitted next)
  · intro each before i after t u cut path admitted next
    have holds : inv t := each.always start
      (fun _ _ _ _ path holds admitted next given =>
        kept _ _ _ _ ((same _ _ _ _ path holds admitted next).mpr given)) cut path
    exact (same before t i u path holds admitted next).mpr (each before i after t u cut path admitted next)

end EachStep

/-- States some path leads to from an initial state. -/
def Reaches (step : σ → ι → Except ε σ) (init : σ → Prop) (ok : σ → ι → Prop) (t : σ) : Prop :=
  ∃ s is, init s ∧ Path step ok s is t

namespace Reaches

variable {step : σ → ι → Except ε σ} {init : σ → Prop} {ok ok' : σ → ι → Prop} {s t : σ}

theorem initial (start : init s) : Reaches step init ok s := ⟨s, [], start, .nil⟩

theorem next {i : ι} (reached : Reaches step init ok s) (admitted : ok s i)
    (next : step s i = .ok t) : Reaches step init ok t := by
  obtain ⟨start, is, from_init, path⟩ := reached
  exact ⟨start, is ++ [i], from_init, .snoc i path admitted next⟩

theorem path {is : List ι} (reached : Reaches step init ok s) (more : Path step ok s is t) :
    Reaches step init ok t := by
  obtain ⟨start, js, from_init, before⟩ := reached
  exact ⟨start, js ++ is, from_init, before.append more⟩

theorem mono (reached : Reaches step init ok t) (weaker : ∀ s i, ok s i → ok' s i) :
    Reaches step init ok' t := by
  obtain ⟨s, is, start, path⟩ := reached
  exact ⟨s, is, start, path.mono weaker⟩

theorem invariant (inv : σ → Prop) (start : ∀ s, init s → inv s)
    (kept : ∀ s i t, inv s → ok s i → step s i = .ok t → inv t)
    (reached : Reaches step init ok t) : inv t := by
  obtain ⟨s, is, from_init, path⟩ := reached
  exact path.invariant inv kept (start s from_init)

end Reaches

/-- Run a list of inputs, checking that each is admitted. -/
def runChecked (step : σ → ι → Except ε σ) (ok : σ → ι → Bool) (s : σ) : List ι → Option σ
  | [] => some s
  | i :: is =>
    if ok s i then
      match step s i with
      | .ok t => runChecked step ok t is
      | .error _ => none
    else none

theorem runChecked_path (step : σ → ι → Except ε σ) (ok : σ → ι → Bool) (s t : σ) (is : List ι)
    (done : runChecked step ok s is = some t) : Path step (fun s i => ok s i = true) s is t := by
  induction is generalizing s with
  | nil =>
    cases done
    exact .nil
  | cons i is ih =>
    simp only [runChecked] at done
    split at done
    next admitted =>
      split at done
      next u next => exact .cons i admitted next (ih u done)
      next => cases done
    next => cases done

end Rust.Machine
