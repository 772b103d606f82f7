import MioBroker.Rust.Prune
import MioBroker.Publish

/-!
# Pruning while delivering

`publish` drops the subscriptions it could not deliver to by `swap_remove`, in the very loop that
goes through their positions.
-/
namespace MioBroker

open Rust

/-- What a loop over the positions `idxs` of `subs` comes to: one attempt of `deliver` for each
subscription under them, from the highest position down, and `left` without the failed ones. -/
structure Pruned {σ : Type} (deliver : σ → Subscription → σ × Bool) (subs : List Subscription)
    (idxs : List Nat) (s s' : σ) (left : List Subscription) (delivered dead : Nat) : Prop where
  attempted : s' = (attemptAll deliver (valuesAt subs idxs) s).1
  succeeded : delivered = (attemptAll deliver (valuesAt subs idxs) s).2.countP (·.2)
  failures : dead = (failed (attemptAll deliver (valuesAt subs idxs) s).2).length
  remaining : (failed (attemptAll deliver (valuesAt subs idxs) s).2 ++ left).Perm subs
  total : delivered + dead = idxs.length

theorem pruneLoop_pruned {σ : Type} (deliver : σ → Subscription → σ × Bool)
    (subs : List Subscription) (idxs : List Nat) (s : σ) (descending : idxs.Pairwise (· > ·))
    (inside : ∀ i ∈ idxs, i < subs.length) :
    ∃ s' left delivered dead, pruneLoop deliver idxs s subs 0 0 = .ok (s', left, delivered, dead) ∧
      Pruned deliver subs idxs s s' left delivered dead := by
  obtain ⟨left, run, perm⟩ := pruneLoop_descending deliver idxs s subs 0 0 descending inside
  rw [Nat.zero_add, Nat.zero_add] at run
  refine ⟨_, left, _, _, run, rfl, rfl, rfl, perm, ?_⟩
  have attempts := congrArg List.length (map_fst_attemptAll deliver (valuesAt subs idxs) s)
  rw [List.length_map, length_valuesAt subs idxs inside] at attempts
  rw [countP_add_failed, attempts]

theorem descending_insertionSort {idxs : List Nat} (distinct : idxs.Nodup) :
    (idxs.insertionSort (· ≥ ·)).Pairwise (· > ·) := by
  have unequal := (List.perm_insertionSort (· ≥ ·) idxs).nodup_iff.mpr distinct
  refine ((List.pairwise_insertionSort (· ≥ ·) idxs).and unequal).imp ?_
  rintro i j ⟨ge, ne⟩
  exact Nat.lt_of_le_of_ne ge (Ne.symm ne)

namespace Broker

/-- A delivery of the loop, and whether it succeeded. -/
def attempt (topic : Str) (payload : Bytes) (srcQos : UInt8) (b : Broker) (s : Subscription) :
    Broker × Bool :=
  match b.deliverTo s.token topic payload (min srcQos s.qos) false with
  | (b, .ok ()) => (b, true)
  | (b, .error ()) => (b, false)

/-- Delivery does not look at the subscriptions. -/
theorem deliverTo_subs (b : Broker) (subs : List Subscription) (token : Token) (topic : Str)
    (payload : Bytes) (qos : UInt8) (retain : Bool) :
    { b with subs := subs }.deliverTo token topic payload qos retain =
      ({ (b.deliverTo token topic payload qos retain).1 with subs := subs },
        (b.deliverTo token topic payload qos retain).2) := by
  simp only [deliverTo_eq]
  split
  · rfl
  · split <;> rfl

/-- The delivery loop prunes `subs` while the deliveries work on the rest of the broker. -/
theorem deliverAll_eq (topic : Str) (payload : Bytes) (srcQos : UInt8) (idxs : List Nat)
    (b : Broker) (subs : List Subscription) (delivered dead : Nat) :
    deliverAll topic payload srcQos idxs { b with subs := subs } delivered dead =
      pruneLoop (attempt topic payload srcQos) idxs b subs delivered dead >>=
        fun r => pure ({ r.1 with subs := r.2.1 }, r.2.2) := by
  induction idxs generalizing b subs delivered dead with
  | nil => rfl
  | cons i idxs ih =>
    simp only [deliverAll, pruneLoop, deliverTo_subs, attempt]
    rcases Run.index subs i with _ | s
    · rfl
    · simp only [Run.ok_bind]
      rcases b.deliverTo s.token topic payload (min srcQos s.qos) false with ⟨d, _ | _⟩
      · exact ih d _ _ _
      · exact ih d _ _ _

end Broker

/-- Every vector, every set of positions, whatever the deliveries come to; those of `publish` in
particular. -/
theorem publish_prunes (subs : List Subscription) (idxs : List Nat) (distinct : idxs.Nodup)
    (inside : ∀ i ∈ idxs, i < subs.length) :
    (∀ (σ : Type) (deliver : σ → Subscription → σ × Bool) (s : σ),
      ∃ s' left delivered dead,
        pruneLoop deliver (idxs.insertionSort (· ≥ ·)) s subs 0 0 =
          .ok (s', left, delivered, dead) ∧
        Pruned deliver subs (idxs.insertionSort (· ≥ ·)) s s' left delivered dead) ∧
    ∀ (b : Broker) (topic : Str) (payload : Bytes) (srcQos : UInt8), b.subs = subs →
      ∃ d left delivered dead,
        Broker.deliverAll topic payload srcQos (idxs.insertionSort (· ≥ ·)) b 0 0 =
          .ok ({ d with subs := left }, delivered, dead) ∧
        Pruned (Broker.attempt topic payload srcQos) subs (idxs.insertionSort (· ≥ ·)) b d left
          delivered dead := by
  have descending := descending_insertionSort distinct
  have inside' : ∀ i ∈ idxs.insertionSort (· ≥ ·), i < subs.length := fun i member =>
    inside i ((List.mem_insertionSort _).mp member)
  refine ⟨fun σ deliver s => pruneLoop_pruned deliver subs _ s descending inside', ?_⟩
  rintro b topic payload srcQos rfl
  obtain ⟨d, left, delivered, dead, run, pruned⟩ :=
    pruneLoop_pruned (Broker.attempt topic payload srcQos) b.subs _ b descending inside'
  refine ⟨d, left, delivered, dead, ?_, pruned⟩
  have eq := Broker.deliverAll_eq topic payload srcQos (idxs.insertionSort (· ≥ ·)) b b.subs 0 0
  rw [run] at eq
  exact eq

/-- The first and the last of three are tried, both in vain. -/
theorem publish_prunes_pair : ∃ s' left delivered dead,
    pruneLoop (fun _ _ => ((), false)) ([0, 2].insertionSort (· ≥ ·)) ()
        [⟨.fromUtf8Lossy [97], 2, 0⟩, ⟨.fromUtf8Lossy [98], 3, 1⟩, ⟨.fromUtf8Lossy [97], 4, 0⟩]
        0 0 = .ok (s', left, delivered, dead) ∧
      Pruned (fun _ _ => ((), false))
        [⟨.fromUtf8Lossy [97], 2, 0⟩, ⟨.fromUtf8Lossy [98], 3, 1⟩, ⟨.fromUtf8Lossy [97], 4, 0⟩]
        ([0, 2].insertionSort (· ≥ ·)) () s' left delivered dead :=
  (publish_prunes _ [0, 2] (by decide) (by decide)).1 Unit _ ()

end MioBroker
