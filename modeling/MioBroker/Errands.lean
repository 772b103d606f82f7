import MioBroker.Loop

/-!
# What a round still has to do

The scan decides whom to reap, what to send again and whom to give up; all of it happens after the
sweep. In between the decisions stand in the program point, and are only worked off.
-/
namespace MioBroker

open Rust

/-- One kind of decision: what the scan takes, and what of it is left while the round reaps, sends
again and gives up. -/
structure Errand (α : Type) where
  whole : Scan → List α
  reap : List Token → Scan → List α
  retry : List (Token × UInt16 × Bytes) → Scan → List α
  giveUp : List (Token × UInt16) → List α
  toReap : ∀ scan, reap scan.dead scan ⊆ whole scan
  reaped : ∀ t todo scan, reap todo scan ⊆ reap (t :: todo) scan
  toRetry : ∀ scan, retry scan.retry scan ⊆ reap [] scan
  retried : ∀ r todo scan, retry todo scan ⊆ retry (r :: todo) scan
  toGiveUp : ∀ scan, giveUp scan.giveUp ⊆ retry [] scan
  givenUp : ∀ g todo, giveUp todo ⊆ giveUp (g :: todo)

namespace Errand

variable {α : Type} (errand : Errand α)

/-- What is left at a program point. -/
def left : Pc → List α
  | .packets _ _ _ next failed => left next ++ left failed
  | .close _ next => left next
  | .flushPending _ scan => errand.whole scan
  | .sweep _ scan => errand.whole scan
  | .flushForwards _ scan => errand.whole scan
  | .sysTopics scan => errand.whole scan
  | .sysPublish _ scan => errand.whole scan
  | .reap todo scan => errand.reap todo scan
  | .retry todo scan => errand.retry todo scan
  | .giveUp todo => errand.giveUp todo
  | _ => []

theorem left_afterReceive {t : Token} {next failed : Pc} {out : Outcome} {x : α}
    (listed : x ∈ errand.left (Loop.afterReceive t next failed out)) :
    x ∈ errand.left next ∨ x ∈ errand.left failed := by
  cases out with
  | ok pkts => exact List.mem_append.mp listed
  | error _ => exact .inr listed

/-- It comes from the scan, and is only worked off from there on. -/
theorem left_pcAfter {s : Loop} {io : Io} {b : Broker} {out : Outcome} {x : α}
    (listed : x ∈ errand.left (s.pcAfter io b out)) :
    x ∈ errand.left s.pc ∨ s.pc = .events [] ∧ x ∈ errand.whole (b.scan s.retryAfter) := by
  cases io with
  | tick dt fault => exact .inl listed
  | go os =>
    simp only [Loop.pcAfter] at listed
    cases here : s.pc with
    | poll => simp [Loop.next, here, left] at listed
    | events todo =>
      cases todo with
      | nil =>
        -- the scan
        simp only [Loop.next, here] at listed
        exact .inr ⟨rfl, listed⟩
      | cons e todo =>
        cases e with
        | listener =>
          simp only [Loop.next, here] at listed
          split at listed <;> cases listed
        | client k readable writable =>
          simp only [Loop.next, here] at listed
          split at listed
          · rcases errand.left_afterReceive listed with nothing | nothing <;> cases nothing
          · cases listed
    | writable k writable todo => simp [Loop.next, here, left] at listed
    -- the batch keeps both continuations; one of them goes on
    | packets k todo n next failed =>
      rw [left, List.mem_append]
      cases todo with
      | nil =>
        simp only [Loop.next, here] at listed
        exact .inl (.inl listed)
      | cons p todo =>
        simp only [Loop.next, here] at listed
        cases out with
        | ok pkts => exact .inl (List.mem_append.mp listed)
        | error _ => exact .inl (.inr listed)
    | close k next =>
      simp only [Loop.next, here] at listed
      exact .inl listed
    | flushPending todo scan =>
      cases todo <;> simp only [Loop.next, here] at listed <;> exact .inl listed
    | sweep todo scan =>
      cases todo with
      | nil =>
        simp only [Loop.next, here] at listed
        exact .inl listed
      | cons k todo =>
        simp only [Loop.next, here] at listed
        split at listed
        · exact .inl ((errand.left_afterReceive listed).elim id id)
        · exact .inl listed
    | flushForwards todo scan =>
      cases todo <;> simp only [Loop.next, here] at listed <;> exact .inl listed
    -- the first point where the scan starts to be worked off
    | sysTopics scan =>
      simp only [Loop.next, here] at listed
      split at listed
      · exact .inl listed
      · exact .inl (errand.toReap scan listed)
    | sysPublish todo scan =>
      cases todo with
      | nil =>
        simp only [Loop.next, here] at listed
        exact .inl (errand.toReap scan listed)
      | cons e todo =>
        simp only [Loop.next, here] at listed
        exact .inl listed
    | reap todo scan =>
      cases todo with
      | nil =>
        simp only [Loop.next, here] at listed
        exact .inl (errand.toRetry scan listed)
      | cons k todo =>
        simp only [Loop.next, here] at listed
        exact .inl (errand.reaped k todo scan listed)
    | retry todo scan =>
      cases todo with
      | nil =>
        simp only [Loop.next, here] at listed
        exact .inl (errand.toGiveUp scan listed)
      | cons r todo =>
        simp only [Loop.next, here] at listed
        cases out <;> exact .inl (errand.retried r todo scan listed)
    | giveUp todo =>
      cases todo with
      | nil => simp [Loop.next, here, left] at listed
      | cons g todo =>
        simp only [Loop.next, here] at listed
        exact .inl (errand.givenUp g todo listed)
    | save => simp [Loop.next, here, left] at listed

end Errand

/-- The connections found past their keepalive deadline. -/
def dying : Errand Token where
  whole := Scan.dead
  reap todo _ := todo
  retry _ _ := []
  giveUp _ := []
  toReap _ := List.Subset.refl _
  reaped t _ _ := List.subset_cons_self t _
  toRetry _ := List.nil_subset _
  retried _ _ _ := List.Subset.refl _
  toGiveUp _ := List.Subset.refl _
  givenUp _ _ := List.Subset.refl _

/-- The packets found overdue. -/
def resending : Errand (Token × UInt16 × Bytes) where
  whole := Scan.retry
  reap _ scan := scan.retry
  retry todo _ := todo
  giveUp _ := []
  toReap _ := List.Subset.refl _
  reaped _ _ _ := List.Subset.refl _
  toRetry _ := List.Subset.refl _
  retried r _ _ := List.subset_cons_self r _
  toGiveUp _ := List.nil_subset _
  givenUp _ _ := List.Subset.refl _

/-- The entries found out of retries. -/
def exhausting : Errand (Token × UInt16) where
  whole := Scan.giveUp
  reap _ scan := scan.giveUp
  retry _ scan := scan.giveUp
  giveUp todo := todo
  toReap _ := List.Subset.refl _
  reaped _ _ _ := List.Subset.refl _
  toRetry _ := List.Subset.refl _
  retried _ _ _ := List.Subset.refl _
  toGiveUp _ := List.Subset.refl _
  givenUp g _ := List.subset_cons_self g _

end MioBroker
