import Mathlib.Data.List.Pairwise
import Mathlib.Data.List.Range
import Mathlib.Data.Set.Insert
import Mathlib.Logic.Function.Basic
import Mathlib.Logic.Relation

/-!
# A handshake that hands every message over once

A message is sent under an id and acknowledged by a receipt; then its id is released, and the
release is acknowledged by a completion. The packets of each direction stay in order. Messages
arrive; releases and acknowledgements may get lost, so whatever is not acknowledged is sent again.
The receiver remembers an id from the message to the release, and takes no second message under it
in between.
-/
namespace Rust.Handshake

variable {Id : Type}

/-- What the sender has under an id. Messages are numbered as they are first sent. -/
inductive Phase
  | free
  | sent (n : Nat)
  | released (n : Nat)

/-- The message a phase is about. -/
def Phase.number : Phase → Option Nat
  | .free => none
  | .sent n => some n
  | .released n => some n

inductive Forth (Id : Type)
  | message (id : Id) (n : Nat)
  | release (id : Id)

inductive Back (Id : Type)
  | receipt (id : Id)
  | completion (id : Id)

namespace Forth

def id : Forth Id → Id
  | .message id _ => id
  | .release id => id

def number : Forth Id → Option Nat
  | .message _ n => some n
  | .release _ => none

end Forth

def Back.id : Back Id → Id
  | .receipt id => id
  | .completion id => id

/-- The packets under way. -/
structure Wires (Id : Type) where
  forth : List (Forth Id)
  back : List (Back Id)

/-- The messages among the packets under way. -/
def Wires.numbers (w : Wires Id) : List Nat := w.forth.filterMap Forth.number

structure Sender (Id : Type) where
  phase : Id → Phase
  /-- the number of the next message -/
  next : Nat

structure Receiver (Id : Type) where
  /-- the ids it remembers -/
  held : Set Id
  /-- the messages it has taken, the first one first -/
  delivered : List Nat

structure State (Id : Type) where
  sender : Sender Id
  wires : Wires Id
  receiver : Receiver Id

def Sender.start : Sender Id := ⟨fun _ => .free, 0⟩

def Wires.start : Wires Id := ⟨[], []⟩

def Receiver.start : Receiver Id := ⟨∅, []⟩

def State.start : State Id := ⟨.start, .start, .start⟩

/-! ### One id -/

/-- An order among the packets about one thing does not see the packets appended about others. -/
theorem pairwise_append_others {α : Type} {R : α → α → Prop} {about : α → Prop} {l others : List α}
    (order : l.Pairwise R) (vacuous : ∀ p q, ¬about q → R p q) (vacuous' : ∀ p q, ¬about p → R p q)
    (elsewhere : ∀ p ∈ others, ¬about p) : (l ++ others).Pairwise R := by
  refine List.pairwise_append.mpr ⟨order, List.pairwise_of_forall_mem_list ?_, ?_⟩
  · exact fun p member q _ => vacuous' p q (elsewhere p member)
  · exact fun p _ q member => vacuous p q (elsewhere q member)

/-- No release of the id comes after a message. -/
def MessagesLast (id : Id) (forth : List (Forth Id)) : Prop :=
  forth.Pairwise fun p q => ∀ n, p = .message id n → q ≠ .release id

/-- No message comes after a release of the id. -/
def ReleasesLast (id : Id) (forth : List (Forth Id)) : Prop :=
  forth.Pairwise fun p q => p = .release id → ∀ n, q ≠ .message id n

/-- No completion of the id comes after a receipt. -/
def ReceiptsLast (id : Id) (back : List (Back Id)) : Prop :=
  back.Pairwise fun p q => p = .receipt id → q ≠ .completion id

/-- No receipt comes after a completion of the id. -/
def CompletionsLast (id : Id) (back : List (Back Id)) : Prop :=
  back.Pairwise fun p q => p = .completion id → q ≠ .receipt id

section Orders

variable {id : Id} {forth more : List (Forth Id)} {back more' : List (Back Id)}

theorem MessagesLast.others (order : MessagesLast id forth) (elsewhere : ∀ p ∈ more, p.id ≠ id) :
    MessagesLast id (forth ++ more) := by
  refine pairwise_append_others order ?_ ?_ elsewhere
  · rintro p q other n - rfl
    exact other rfl
  · rintro p q other n rfl
    exact absurd rfl other

theorem ReleasesLast.others (order : ReleasesLast id forth) (elsewhere : ∀ p ∈ more, p.id ≠ id) :
    ReleasesLast id (forth ++ more) := by
  refine pairwise_append_others order ?_ ?_ elsewhere
  · rintro p q other - n rfl
    exact other rfl
  · rintro p q other rfl
    exact absurd rfl other

theorem ReceiptsLast.others (order : ReceiptsLast id back) (elsewhere : ∀ p ∈ more', p.id ≠ id) :
    ReceiptsLast id (back ++ more') := by
  refine pairwise_append_others order ?_ ?_ elsewhere
  · rintro p q other - rfl
    exact other rfl
  · rintro p q other rfl
    exact absurd rfl other

theorem CompletionsLast.others (order : CompletionsLast id back) (elsewhere : ∀ p ∈ more', p.id ≠ id) :
    CompletionsLast id (back ++ more') := by
  refine pairwise_append_others order ?_ ?_ elsewhere
  · rintro p q other - rfl
    exact other rfl
  · rintro p q other rfl
    exact absurd rfl other

theorem MessagesLast.message (order : MessagesLast id forth) (n : Nat) :
    MessagesLast id (forth ++ [.message id n]) := by
  refine List.pairwise_append.mpr ⟨order, List.pairwise_singleton _ _, ?_⟩
  rintro p - q member m -
  rw [List.mem_singleton.mp member]
  simp

theorem ReleasesLast.release (order : ReleasesLast id forth) :
    ReleasesLast id (forth ++ [.release id]) := by
  refine List.pairwise_append.mpr ⟨order, List.pairwise_singleton _ _, ?_⟩
  rintro p - q member - n
  rw [List.mem_singleton.mp member]
  simp

theorem ReceiptsLast.receipt (order : ReceiptsLast id back) : ReceiptsLast id (back ++ [.receipt id]) := by
  refine List.pairwise_append.mpr ⟨order, List.pairwise_singleton _ _, ?_⟩
  rintro p - q member -
  rw [List.mem_singleton.mp member]
  simp

theorem ReceiptsLast.completion (order : ReceiptsLast id back) (unreceived : .receipt id ∉ back) :
    ReceiptsLast id (back ++ [.completion id]) := by
  refine List.pairwise_append.mpr ⟨order, List.pairwise_singleton _ _, ?_⟩
  rintro p earlier q - rfl
  exact absurd earlier unreceived

theorem CompletionsLast.completion (order : CompletionsLast id back) :
    CompletionsLast id (back ++ [.completion id]) := by
  refine List.pairwise_append.mpr ⟨order, List.pairwise_singleton _ _, ?_⟩
  rintro p - q member -
  rw [List.mem_singleton.mp member]
  simp

theorem CompletionsLast.receipt (order : CompletionsLast id back) (incomplete : .completion id ∉ back) :
    CompletionsLast id (back ++ [.receipt id]) := by
  refine List.pairwise_append.mpr ⟨order, List.pairwise_singleton _ _, ?_⟩
  rintro p earlier q - rfl
  exact absurd earlier incomplete

end Orders

/-- How the packets under an id and the memory of the receiver fit to the phase of the sender. -/
def Settled (w : Wires Id) (r : Receiver Id) (id : Id) : Phase → Prop
  | .free => (∀ n, .message id n ∉ w.forth) ∧ .receipt id ∉ w.back ∧ id ∉ r.held
  | .sent n =>
    (∀ m, .message id m ∈ w.forth → m = n) ∧ MessagesLast id w.forth ∧ ReceiptsLast id w.back ∧
      (n ∈ r.delivered → id ∈ r.held ∧ .release id ∉ w.forth) ∧
      (n ∉ r.delivered → id ∉ r.held ∧ .receipt id ∉ w.back)
  | .released n =>
    (∀ m, .message id m ∈ w.forth → m = n ∧ id ∈ r.held) ∧ ReleasesLast id w.forth ∧
      CompletionsLast id w.back ∧ n ∈ r.delivered ∧ (.completion id ∈ w.back → id ∉ r.held)

namespace Settled

variable {w v : Wires Id} {r q : Receiver Id} {id : Id} {phase : Phase}

/-- Losing packets does not unsettle anything. -/
theorem mono (settled : Settled w r id phase) (forth : v.forth.Sublist w.forth)
    (back : v.back.Sublist w.back) : Settled v r id phase := by
  cases phase with
  | free =>
    obtain ⟨unsent, unreceived, unheld⟩ := settled
    exact ⟨fun n member => unsent n (forth.subset member), fun member => unreceived (back.subset member),
      unheld⟩
  | sent n =>
    obtain ⟨only, messages, receipts, taken, untaken⟩ := settled
    refine ⟨fun m member => only m (forth.subset member), messages.sublist forth, receipts.sublist back,
      fun done => ?_, fun undone => ?_⟩
    · obtain ⟨remembered, unreleased⟩ := taken done
      exact ⟨remembered, fun member => unreleased (forth.subset member)⟩
    · obtain ⟨unheld, unreceived⟩ := untaken undone
      exact ⟨unheld, fun member => unreceived (back.subset member)⟩
  | released n =>
    obtain ⟨only, releases, completions, done, forgotten⟩ := settled
    exact ⟨fun m member => only m (forth.subset member), releases.sublist forth, completions.sublist back,
      done, fun member => forgotten (back.subset member)⟩

/-- What happens under another id does not either. -/
theorem frame (settled : Settled w r id phase) {forth : List (Forth Id)} {back : List (Back Id)}
    (elsewhere : ∀ p ∈ forth, p.id ≠ id) (elsewhere' : ∀ p ∈ back, p.id ≠ id)
    (held : id ∈ q.held ↔ id ∈ r.held)
    (delivered : ∀ n, phase.number = some n → (n ∈ q.delivered ↔ n ∈ r.delivered)) :
    Settled ⟨w.forth ++ forth, w.back ++ back⟩ q id phase := by
  have message : ∀ n, .message id n ∈ w.forth ++ forth ↔ .message id n ∈ w.forth := by
    intro n
    rw [List.mem_append]
    exact or_iff_left fun member => elsewhere _ member rfl
  have release : .release id ∈ w.forth ++ forth ↔ .release id ∈ w.forth := by
    rw [List.mem_append]
    exact or_iff_left fun member => elsewhere _ member rfl
  have receipt : .receipt id ∈ w.back ++ back ↔ .receipt id ∈ w.back := by
    rw [List.mem_append]
    exact or_iff_left fun member => elsewhere' _ member rfl
  have completion : .completion id ∈ w.back ++ back ↔ .completion id ∈ w.back := by
    rw [List.mem_append]
    exact or_iff_left fun member => elsewhere' _ member rfl
  cases phase with
  | free =>
    simp only [Settled, message, receipt, held]
    exact settled
  | sent n =>
    simp only [Settled, message, release, receipt, held, delivered n rfl]
    obtain ⟨only, order, order', rest⟩ := settled
    exact ⟨only, order.others elsewhere, order'.others elsewhere', rest⟩
  | released n =>
    simp only [Settled, message, completion, held, delivered n rfl]
    obtain ⟨only, order, order', rest⟩ := settled
    exact ⟨only, order.others elsewhere, order'.others elsewhere', rest⟩

end Settled

/-! ### Moves -/

section Moves

variable [DecidableEq Id]

/-- One move of the sender. An acknowledgement it has no use for may be taken to be lost. -/
inductive Sender.Move (a : Sender Id) (w : Wires Id) : Sender Id → Wires Id → Prop
  | send {id : Id} (free : a.phase id = .free) :
    Move a w ⟨Function.update a.phase id (.sent a.next), a.next + 1⟩
      { w with forth := w.forth ++ [.message id a.next] }
  | resend {id : Id} {n : Nat} (sent : a.phase id = .sent n) :
    Move a w a { w with forth := w.forth ++ [.message id n] }
  | rerelease {id : Id} {n : Nat} (released : a.phase id = .released n) :
    Move a w a { w with forth := w.forth ++ [.release id] }
  | receipt {id : Id} {n : Nat} {rest : List (Back Id)} (first : w.back = .receipt id :: rest)
      (sent : a.phase id = .sent n) :
    Move a w { a with phase := Function.update a.phase id (.released n) }
      ⟨w.forth ++ [.release id], rest⟩
  | completion {id : Id} {n : Nat} {rest : List (Back Id)} (first : w.back = .completion id :: rest)
      (released : a.phase id = .released n) :
    Move a w { a with phase := Function.update a.phase id .free } { w with back := rest }

omit [DecidableEq Id] in
/-- One move of the receiver. -/
inductive Receiver.Move (r : Receiver Id) (w : Wires Id) : Receiver Id → Wires Id → Prop
  | deliver {id : Id} {n : Nat} {rest : List (Forth Id)} (first : w.forth = .message id n :: rest)
      (fresh : id ∉ r.held) :
    Move r w ⟨insert id r.held, r.delivered ++ [n]⟩ ⟨rest, w.back ++ [.receipt id]⟩
  | repeated {id : Id} {n : Nat} {rest : List (Forth Id)} (first : w.forth = .message id n :: rest)
      (held : id ∈ r.held) : Move r w r ⟨rest, w.back ++ [.receipt id]⟩
  | release {id : Id} {rest : List (Forth Id)} (first : w.forth = .release id :: rest) :
    Move r w { r with held := r.held \ {id} } ⟨rest, w.back ++ [.completion id]⟩

omit [DecidableEq Id] in
/-- Releases and acknowledgements get lost. -/
inductive Wires.Loss (w : Wires Id) : Wires Id → Prop
  | forth {left : List (Forth Id)} (lost : left.Sublist w.forth)
      (messages : left.filterMap Forth.number = w.numbers) : Loss w { w with forth := left }
  | back {left : List (Back Id)} (lost : left.Sublist w.back) : Loss w { w with back := left }

inductive Step (s : State Id) : State Id → Prop
  | sender {a : Sender Id} {w : Wires Id} (move : s.sender.Move s.wires a w) :
    Step s { s with sender := a, wires := w }
  | receiver {r : Receiver Id} {w : Wires Id} (move : s.receiver.Move s.wires r w) :
    Step s { s with receiver := r, wires := w }
  | loss {w : Wires Id} (loss : s.wires.Loss w) : Step s { s with wires := w }

/-- What can come of a sequence of moves. -/
abbrev Reachable (s : State Id) : Prop := Relation.ReflTransGen Step .start s

end Moves

/-! ### Numbers in order -/

/-- In front of every number stand all smaller ones. -/
def Grounded (l : List Nat) : Prop := ∀ before n after, l = before ++ n :: after → ∀ m < n, m ∈ before

namespace Grounded

variable {l a b : List Nat} {n : Nat}

theorem snoc (grounded : Grounded l) (all : ∀ m < n, m ∈ l) : Grounded (l ++ [n]) := by
  intro before k after split m small
  rcases List.eq_nil_or_concat after with rfl | ⟨after, last, rfl⟩
  · obtain ⟨rfl, same⟩ := List.append_inj' split rfl
    cases same
    exact all m small
  · have split' : l ++ [n] = (before ++ k :: after) ++ [last] := by simpa using split
    obtain ⟨same, -⟩ := List.append_inj' split' rfl
    exact grounded before k after same m small

/-- A repetition may be left out. -/
theorem skip (grounded : Grounded (a ++ n :: b)) (repeated : n ∈ a) : Grounded (a ++ b) := by
  intro before k after split m small
  rcases List.append_eq_append_iff.mp split with ⟨c, rfl, same⟩ | ⟨c, rfl, same⟩
  · have member := grounded (a ++ n :: c) k after (by rw [same]; simp) m small
    rcases List.mem_append.mp member with old | new
    · exact List.mem_append_left _ old
    · rcases List.mem_cons.mp new with rfl | new
      · exact List.mem_append_left _ repeated
      · exact List.mem_append_right _ new
  · cases c with
    | nil =>
      simp only [List.append_nil, List.nil_append] at grounded repeated same
      have member := grounded (before ++ [n]) k after (by rw [← same]; simp) m small
      rcases List.mem_append.mp member with old | new
      · exact old
      · rw [List.mem_singleton.mp new]
        exact repeated
    | cons first c =>
      cases same
      exact grounded before k (c ++ n :: b) (by simp) m small

/-- Without repetitions nothing but the order is left. -/
theorem eq_range (grounded : Grounded (a ++ b)) (once : a.Nodup) : a = List.range a.length := by
  induction a using List.reverseRecOn generalizing b with
  | nil => rfl
  | append_singleton a n ih =>
    obtain ⟨once', -, apart⟩ := List.nodup_append.mp once
    rw [List.append_assoc] at grounded
    have below := ih grounded once'
    have smaller := grounded a n b rfl
    have unlisted : n ∉ a := fun member => apart n member n (by simp) rfl
    have same : n = a.length := by
      rcases Nat.lt_trichotomy n a.length with short | same | long
      · rw [below] at unlisted
        exact absurd (List.mem_range.mpr short) unlisted
      · exact same
      · have listed := smaller a.length long
        rw [below] at listed
        simp at listed
    rw [List.length_append, List.length_singleton, List.range_succ, ← below, ← same]

end Grounded

/-! ### Once and in order -/

/-- What holds between the two parties and the packets under way. -/
structure State.Sound (s : State Id) : Prop where
  settled : ∀ id, Settled s.wires s.receiver id (s.sender.phase id)
  numbered : ∀ id n, (s.sender.phase id).number = some n → n < s.sender.next
  apart : ∀ id id' n, (s.sender.phase id).number = some n → (s.sender.phase id').number = some n →
    id = id'
  known : ∀ n, n ∈ s.receiver.delivered ++ s.wires.numbers ↔ n < s.sender.next
  ordered : Grounded (s.receiver.delivered ++ s.wires.numbers)
  once : s.receiver.delivered.Nodup
  complete : ∀ n < s.sender.next, n ∈ s.receiver.delivered ∨ ∃ id, s.sender.phase id = .sent n

namespace State.Sound

theorem start : (State.start : State Id).Sound where
  settled id := by simp [Settled, State.start, Sender.start, Wires.start, Receiver.start]
  numbered id n has := by cases has
  apart id id' n has := by cases has
  known n := by simp [State.start, Sender.start, Wires.start, Receiver.start, Wires.numbers]
  ordered := by
    intro before n after split
    simp [State.start, Wires.start, Receiver.start, Wires.numbers] at split
  once := List.nodup_nil
  complete n small := absurd small (Nat.not_lt_zero n)

variable [DecidableEq Id] {s : State Id}

/-- What happens under one id settles that id and leaves the others settled. -/
theorem settledAfter (sound : s.Sound) {id : Id} {phase : Phase} {forth more : List (Forth Id)}
    {back more' : List (Back Id)} {r : Receiver Id}
    (here : Settled ⟨forth ++ more, back ++ more'⟩ r id phase)
    (left : forth.Sublist s.wires.forth) (left' : back.Sublist s.wires.back)
    (about : ∀ p ∈ more, p.id = id) (about' : ∀ p ∈ more', p.id = id)
    (held : ∀ j, j ≠ id → (j ∈ r.held ↔ j ∈ s.receiver.held))
    (delivered : ∀ j, j ≠ id → ∀ n, (s.sender.phase j).number = some n →
      (n ∈ r.delivered ↔ n ∈ s.receiver.delivered)) (j : Id) :
    Settled ⟨forth ++ more, back ++ more'⟩ r j (Function.update s.sender.phase id phase j) := by
  by_cases other : j = id
  · rw [other, Function.update_self]
    exact here
  · rw [Function.update_of_ne other]
    have thinned : Settled ⟨forth, back⟩ s.receiver j (s.sender.phase j) :=
      (sound.settled j).mono left left'
    refine thinned.frame (fun p member same => ?_) (fun p member same => ?_) (held j other)
      (delivered j other)
    · exact other (same.symm.trans (about p member))
    · exact other (same.symm.trans (about' p member))

omit [DecidableEq Id] in
/-- A message that is neither delivered nor under way is one of those to come. -/
theorem unknown (sound : s.Sound) : s.sender.next ∉ s.receiver.delivered ++ s.wires.numbers :=
  fun member => absurd ((sound.known _).mp member) (Nat.lt_irrefl _)

/-- An id gets no number it did not have. -/
theorem number_update {phase : Id → Phase} {id j : Id} {next : Phase} {n : Nat}
    (has : (Function.update phase id next j).number = some n)
    (had : next.number = some n → (phase id).number = some n) : (phase j).number = some n := by
  by_cases same : j = id
  · rw [same, Function.update_self] at has
    rw [same]
    exact had has
  · rwa [Function.update_of_ne same] at has

omit [DecidableEq Id] in
/-- Moves that send no new message. -/
theorem kept (sound : s.Sound) {t : State Id}
    (settled : ∀ id, Settled t.wires t.receiver id (t.sender.phase id))
    (next : t.sender.next = s.sender.next)
    (numbers : ∀ id n, (t.sender.phase id).number = some n → (s.sender.phase id).number = some n)
    (members : ∀ n, n ∈ t.receiver.delivered ++ t.wires.numbers ↔
      n ∈ s.receiver.delivered ++ s.wires.numbers)
    (ordered : Grounded (t.receiver.delivered ++ t.wires.numbers)) (once : t.receiver.delivered.Nodup)
    (complete : ∀ n, n ∈ s.receiver.delivered ∨ (∃ id, s.sender.phase id = .sent n) →
      n ∈ t.receiver.delivered ∨ ∃ id, t.sender.phase id = .sent n) : t.Sound where
  settled := settled
  numbered id n has := next ▸ sound.numbered id n (numbers id n has)
  apart id id' n has has' := sound.apart id id' n (numbers id n has) (numbers id' n has')
  known n := by rw [members, sound.known, next]
  ordered := ordered
  once := once
  complete n small := complete n (sound.complete n (next ▸ small))

theorem send (sound : s.Sound) {id : Id} (free : s.sender.phase id = .free) :
    State.Sound ⟨⟨Function.update s.sender.phase id (.sent s.sender.next), s.sender.next + 1⟩,
      { s.wires with forth := s.wires.forth ++ [.message id s.sender.next] }, s.receiver⟩ := by
  have numbers : Wires.numbers { s.wires with
      forth := s.wires.forth ++ [.message id s.sender.next] } = s.wires.numbers ++ [s.sender.next] := by
    simp [Wires.numbers, Forth.number]
  have number : ∀ j n, (Function.update s.sender.phase id (.sent s.sender.next) j).number = some n →
      j = id ∧ n = s.sender.next ∨ j ≠ id ∧ (s.sender.phase j).number = some n := by
    intro j n has
    by_cases same : j = id
    · rw [same, Function.update_self] at has
      cases has
      exact .inl ⟨same, rfl⟩
    · rw [Function.update_of_ne same] at has
      exact .inr ⟨same, has⟩
  have settled := sound.settled id
  rw [free] at settled
  obtain ⟨unsent, unreceived, unheld⟩ := settled
  have undelivered : s.sender.next ∉ s.receiver.delivered :=
    fun member => sound.unknown (List.mem_append_left _ member)
  constructor
  · have here : Settled ⟨s.wires.forth ++ [.message id s.sender.next], s.wires.back ++ []⟩ s.receiver id
        (.sent s.sender.next) := by
      have order : MessagesLast id s.wires.forth := by
        refine List.pairwise_of_forall_mem_list fun p member q _ n same => ?_
        exact absurd (same ▸ member) (unsent n)
      have order' : ReceiptsLast id s.wires.back := by
        refine List.pairwise_of_forall_mem_list fun p member q _ same => ?_
        exact absurd (same ▸ member) unreceived
      refine ⟨fun m member => ?_, order.message _, by simpa using order',
        fun member => absurd member undelivered, fun _ => ⟨unheld, by simpa using unreceived⟩⟩
      rcases List.mem_append.mp member with old | new
      · exact absurd old (unsent m)
      · cases List.mem_singleton.mp new
        rfl
    have all := sound.settledAfter here (.refl _) (.refl _) (by simp [Forth.id]) (by simp)
      (fun _ _ => .rfl) (fun _ _ _ _ => .rfl)
    simpa using all
  · intro j n has
    rcases number j n has with ⟨-, rfl⟩ | ⟨-, has⟩
    · exact Nat.lt_succ_self _
    · exact Nat.lt_succ_of_lt (sound.numbered j n has)
  · intro j k n has has'
    rcases number j n has with ⟨rfl, rfl⟩ | ⟨-, has⟩
    · rcases number k _ has' with ⟨rfl, -⟩ | ⟨-, has'⟩
      · rfl
      · exact absurd (sound.numbered k _ has') (Nat.lt_irrefl _)
    · rcases number k n has' with ⟨-, rfl⟩ | ⟨-, has'⟩
      · exact absurd (sound.numbered j _ has) (Nat.lt_irrefl _)
      · exact sound.apart j k n has has'
  · intro n
    rw [numbers, ← List.append_assoc, List.mem_append, sound.known, List.mem_singleton]
    exact Nat.lt_succ_iff_lt_or_eq.symm
  · rw [numbers, ← List.append_assoc]
    exact sound.ordered.snoc fun m small => (sound.known m).mpr small
  · exact sound.once
  · intro n small
    rcases Nat.lt_succ_iff_lt_or_eq.mp small with old | rfl
    · rcases sound.complete n old with done | ⟨j, sent⟩
      · exact .inl done
      · have other : j ≠ id := by
          rintro rfl
          cases free.symm.trans sent
        exact .inr ⟨j, (Function.update_of_ne other _ _).trans sent⟩
    · exact .inr ⟨id, Function.update_self _ _ _⟩

theorem resend (sound : s.Sound) {id : Id} {n : Nat} (sent : s.sender.phase id = .sent n) :
    State.Sound { s with wires := { s.wires with forth := s.wires.forth ++ [.message id n] } } := by
  have numbers : Wires.numbers { s.wires with forth := s.wires.forth ++ [.message id n] } =
      s.wires.numbers ++ [n] := by
    simp [Wires.numbers, Forth.number]
  have small : n < s.sender.next := sound.numbered id n (by rw [sent]; rfl)
  have settled := sound.settled id
  rw [sent] at settled
  obtain ⟨only, messages, receipts, taken, untaken⟩ := settled
  refine sound.kept ?_ rfl (fun _ _ has => has) (fun m => ?_) ?_ sound.once fun _ done => done
  · have here : Settled ⟨s.wires.forth ++ [.message id n], s.wires.back ++ []⟩ s.receiver id (.sent n) := by
      refine ⟨fun m member => ?_, messages.message n, by simpa using receipts, fun done => ?_,
        by simpa using untaken⟩
      · rcases List.mem_append.mp member with old | new
        · exact only m old
        · cases List.mem_singleton.mp new
          rfl
      · obtain ⟨held, unreleased⟩ := taken done
        exact ⟨held, by simpa using unreleased⟩
    have all := sound.settledAfter here (.refl _) (.refl _) (by simp [Forth.id]) (by simp)
      (fun _ _ => .rfl) (fun _ _ _ _ => .rfl)
    rw [← sent, Function.update_eq_self] at all
    simpa using all
  · rw [numbers, ← List.append_assoc, List.mem_append, List.mem_singleton, sound.known]
    exact or_iff_left_of_imp fun same => same ▸ small
  · rw [numbers, ← List.append_assoc]
    exact sound.ordered.snoc fun m below => (sound.known m).mpr (below.trans small)

theorem rerelease (sound : s.Sound) {id : Id} {n : Nat} (released : s.sender.phase id = .released n) :
    State.Sound { s with wires := { s.wires with forth := s.wires.forth ++ [.release id] } } := by
  have numbers : Wires.numbers { s.wires with forth := s.wires.forth ++ [.release id] } =
      s.wires.numbers := by
    simp [Wires.numbers, Forth.number]
  have settled := sound.settled id
  rw [released] at settled
  obtain ⟨only, releases, completions, done, forgotten⟩ := settled
  refine sound.kept ?_ rfl (fun _ _ has => has) (fun m => by rw [numbers]) ?_ sound.once
    fun _ done => done
  · have here : Settled ⟨s.wires.forth ++ [.release id], s.wires.back ++ []⟩ s.receiver id
        (.released n) :=
      ⟨fun m member => only m (by simpa using member), releases.release, by simpa using completions,
        done, by simpa using forgotten⟩
    have all := sound.settledAfter here (.refl _) (.refl _) (by simp [Forth.id]) (by simp)
      (fun _ _ => .rfl) (fun _ _ _ _ => .rfl)
    rw [← released, Function.update_eq_self] at all
    simpa using all
  · rw [numbers]
    exact sound.ordered

theorem receipt (sound : s.Sound) {id : Id} {n : Nat} {rest : List (Back Id)}
    (first : s.wires.back = .receipt id :: rest) (sent : s.sender.phase id = .sent n) :
    State.Sound ⟨{ s.sender with phase := Function.update s.sender.phase id (.released n) },
      ⟨s.wires.forth ++ [.release id], rest⟩, s.receiver⟩ := by
  have numbers : Wires.numbers ⟨s.wires.forth ++ [.release id], rest⟩ = s.wires.numbers := by
    simp [Wires.numbers, Forth.number]
  have shorter : rest.Sublist s.wires.back := first ▸ List.sublist_cons_self _ _
  have settled := sound.settled id
  rw [sent] at settled
  obtain ⟨only, messages, receipts, taken, untaken⟩ := settled
  -- A receipt says that the message was taken.
  have done : n ∈ s.receiver.delivered := by
    by_contra undone
    exact (untaken undone).2 (first ▸ List.mem_cons_self)
  obtain ⟨held, unreleased⟩ := taken done
  have incomplete : .completion id ∉ rest := by
    rw [first] at receipts
    exact fun member => (List.pairwise_cons.mp receipts).1 _ member rfl rfl
  refine sound.kept ?_ rfl (fun j m has => number_update has fun has => by rw [sent]; exact has)
    (fun m => by rw [numbers]) ?_ sound.once fun m known => ?_
  · have here : Settled ⟨s.wires.forth ++ [.release id], rest ++ []⟩ s.receiver id (.released n) := by
      refine ⟨fun m member => ⟨only m (by simpa using member), held⟩, ?_, ?_, done, ?_⟩
      · have order : ReleasesLast id s.wires.forth := by
          refine List.pairwise_of_forall_mem_list fun p member q _ same => ?_
          exact absurd (same ▸ member) unreleased
        exact order.release
      · rw [List.append_nil]
        refine List.pairwise_of_forall_mem_list fun p member q _ same => ?_
        exact absurd (same ▸ member) incomplete
      · exact fun member => absurd (by simpa using member) incomplete
    have all := sound.settledAfter here (.refl _) shorter (by simp [Forth.id]) (by simp)
      (fun _ _ => .rfl) (fun _ _ _ _ => .rfl)
    simpa using all
  · rw [numbers]
    exact sound.ordered
  · rcases known with known | ⟨j, waiting⟩
    · exact .inl known
    · by_cases same : j = id
      · rw [same, sent] at waiting
        cases waiting
        exact .inl done
      · exact .inr ⟨j, (Function.update_of_ne same _ _).trans waiting⟩

theorem completion (sound : s.Sound) {id : Id} {n : Nat} {rest : List (Back Id)}
    (first : s.wires.back = .completion id :: rest) (released : s.sender.phase id = .released n) :
    State.Sound ⟨{ s.sender with phase := Function.update s.sender.phase id .free },
      { s.wires with back := rest }, s.receiver⟩ := by
  have shorter : rest.Sublist s.wires.back := first ▸ List.sublist_cons_self _ _
  have settled := sound.settled id
  rw [released] at settled
  obtain ⟨only, releases, completions, done, forgotten⟩ := settled
  have unheld : id ∉ s.receiver.held := forgotten (first ▸ List.mem_cons_self)
  have unreceived : .receipt id ∉ rest := by
    rw [first] at completions
    exact fun member => (List.pairwise_cons.mp completions).1 _ member rfl rfl
  refine sound.kept ?_ rfl (fun j m has => number_update has fun has => by cases has) (fun _ => .rfl)
    sound.ordered sound.once fun m known => ?_
  · have here : Settled ⟨s.wires.forth ++ [], rest ++ []⟩ s.receiver id .free := by
      refine ⟨fun m member => ?_, by simpa using unreceived, unheld⟩
      exact unheld (only m (by simpa using member)).2
    have all := sound.settledAfter here (.refl _) shorter (by simp) (by simp)
      (fun _ _ => .rfl) (fun _ _ _ _ => .rfl)
    simpa using all
  · rcases known with known | ⟨j, waiting⟩
    · exact .inl known
    · have other : j ≠ id := by
        rintro rfl
        cases released.symm.trans waiting
      exact .inr ⟨j, (Function.update_of_ne other _ _).trans waiting⟩

omit [DecidableEq Id] in
theorem loss (sound : s.Sound) {w : Wires Id} (loss : s.wires.Loss w) :
    State.Sound { s with wires := w } := by
  cases loss with
  | forth lost messages =>
    refine sound.kept (fun id => (sound.settled id).mono lost (.refl _)) rfl (fun _ _ has => has)
      (fun m => ?_) ?_ sound.once fun _ done => done
    · simp only [Wires.numbers, messages]
    · simp only [Wires.numbers, messages]
      exact sound.ordered
  | back lost =>
    exact sound.kept (fun id => (sound.settled id).mono (.refl _) lost) rfl (fun _ _ has => has)
      (fun _ => .rfl) sound.ordered sound.once fun _ done => done

theorem deliver (sound : s.Sound) {id : Id} {n : Nat} {rest : List (Forth Id)}
    (first : s.wires.forth = .message id n :: rest) (fresh : id ∉ s.receiver.held) :
    State.Sound ⟨s.sender, ⟨rest, s.wires.back ++ [.receipt id]⟩,
      ⟨insert id s.receiver.held, s.receiver.delivered ++ [n]⟩⟩ := by
  have numbers : s.wires.numbers = n :: Wires.numbers ⟨rest, s.wires.back ++ [.receipt id]⟩ := by
    simp [Wires.numbers, first, Forth.number]
  have shorter : rest.Sublist s.wires.forth := first ▸ List.sublist_cons_self _ _
  have head : .message id n ∈ s.wires.forth := first ▸ List.mem_cons_self
  have settled := sound.settled id
  -- Under an id that is not remembered comes the message that was sent under it last.
  have sent : s.sender.phase id = .sent n := by
    cases phase : s.sender.phase id with
    | free =>
      rw [phase] at settled
      exact absurd head (settled.1 n)
    | sent m =>
      rw [phase] at settled
      rw [settled.1 n head]
    | released m =>
      rw [phase] at settled
      exact absurd (settled.1 n head).2 fresh
  rw [sent] at settled
  obtain ⟨only, messages, receipts, taken, untaken⟩ := settled
  have undone : n ∉ s.receiver.delivered := fun done => fresh (taken done).1
  have unreceived := (untaken undone).2
  refine sound.kept ?_ rfl (fun _ _ has => has) (fun m => ?_) ?_ ?_ fun m known => ?_
  · have here : Settled ⟨rest ++ [], s.wires.back ++ [.receipt id]⟩
        ⟨insert id s.receiver.held, s.receiver.delivered ++ [n]⟩ id (.sent n) := by
      refine ⟨fun m member => only m (shorter.subset (by simpa using member)), ?_, receipts.receipt,
        fun _ => ⟨Set.mem_insert _ _, ?_⟩, fun absent => absurd (by simp) absent⟩
      · rw [List.append_nil]
        exact messages.sublist shorter
      · rw [first] at messages
        rw [List.append_nil]
        exact fun member => (List.pairwise_cons.mp messages).1 _ member n rfl rfl
    have all := sound.settledAfter here shorter (.refl _) (by simp) (by simp [Back.id])
      (fun j other => by simp [other]) (fun j other m has => ?_)
    · rw [← sent, Function.update_eq_self] at all
      simpa using all
    · have different : m ≠ n := by
        rintro rfl
        exact other (sound.apart j id m has (by rw [sent]; rfl))
      simp [different]
  · rw [numbers]
    simp
  · have ordered := sound.ordered
    rw [numbers] at ordered
    simpa using ordered
  · refine List.nodup_append.mpr ⟨sound.once, by simp, fun m member k last => ?_⟩
    rw [List.mem_singleton.mp last]
    rintro rfl
    exact undone member
  · rcases known with known | waiting
    · exact .inl (List.mem_append_left _ known)
    · exact .inr waiting

theorem repeated (sound : s.Sound) {id : Id} {n : Nat} {rest : List (Forth Id)}
    (first : s.wires.forth = .message id n :: rest) (held : id ∈ s.receiver.held) :
    State.Sound { s with wires := ⟨rest, s.wires.back ++ [.receipt id]⟩ } := by
  have numbers : s.wires.numbers = n :: Wires.numbers ⟨rest, s.wires.back ++ [.receipt id]⟩ := by
    simp [Wires.numbers, first, Forth.number]
  have shorter : rest.Sublist s.wires.forth := first ▸ List.sublist_cons_self _ _
  have head : .message id n ∈ s.wires.forth := first ▸ List.mem_cons_self
  have settled := sound.settled id
  -- It is remembered from the first copy on.
  have done : n ∈ s.receiver.delivered ∧
      Settled ⟨rest ++ [], s.wires.back ++ [.receipt id]⟩ s.receiver id (s.sender.phase id) := by
    cases phase : s.sender.phase id with
    | free =>
      rw [phase] at settled
      exact absurd head (settled.1 n)
    | sent m =>
      rw [phase] at settled
      obtain ⟨only, messages, receipts, taken, untaken⟩ := settled
      cases only n head
      have done : n ∈ s.receiver.delivered := by
        by_contra undone
        exact (untaken undone).1 held
      refine ⟨done, fun k member => only k (shorter.subset (by simpa using member)), ?_,
        receipts.receipt, fun _ => ⟨held, fun member => ?_⟩, fun undone => absurd done undone⟩
      · rw [List.append_nil]
        exact messages.sublist shorter
      · exact (taken done).2 (shorter.subset (by simpa using member))
    | released m =>
      rw [phase] at settled
      obtain ⟨only, releases, completions, done, forgotten⟩ := settled
      cases (only n head).1
      have incomplete : .completion id ∉ s.wires.back := fun member => forgotten member held
      refine ⟨done, fun k member => only k (shorter.subset (by simpa using member)), ?_,
        completions.receipt incomplete, done, fun member => ?_⟩
      · rw [List.append_nil]
        exact releases.sublist shorter
      · rcases List.mem_append.mp member with old | new
        · exact forgotten old
        · cases List.mem_singleton.mp new
  obtain ⟨done, here⟩ := done
  refine sound.kept ?_ rfl (fun _ _ has => has) (fun m => ?_) ?_ sound.once fun _ done => done
  · have all := sound.settledAfter here shorter (.refl _) (by simp) (by simp [Back.id])
      (fun _ _ => .rfl) (fun _ _ _ _ => .rfl)
    rw [Function.update_eq_self] at all
    simpa using all
  · rw [numbers, List.mem_append, List.mem_append, List.mem_cons]
    constructor
    · exact fun known => known.imp_right .inr
    · rintro (known | rfl | known)
      · exact .inl known
      · exact .inl done
      · exact .inr known
  · have ordered := sound.ordered
    rw [numbers] at ordered
    exact ordered.skip done

theorem release (sound : s.Sound) {id : Id} {rest : List (Forth Id)}
    (first : s.wires.forth = .release id :: rest) :
    State.Sound ⟨s.sender, ⟨rest, s.wires.back ++ [.completion id]⟩,
      { s.receiver with held := s.receiver.held \ {id} }⟩ := by
  have numbers : Wires.numbers ⟨rest, s.wires.back ++ [.completion id]⟩ = s.wires.numbers := by
    rw [Wires.numbers, Wires.numbers, first]
    rfl
  have shorter : rest.Sublist s.wires.forth := first ▸ List.sublist_cons_self _ _
  have head : .release id ∈ s.wires.forth := first ▸ List.mem_cons_self
  have settled := sound.settled id
  have here : Settled ⟨rest ++ [], s.wires.back ++ [.completion id]⟩
      { s.receiver with held := s.receiver.held \ {id} } id (s.sender.phase id) := by
    cases phase : s.sender.phase id with
    | free =>
      rw [phase] at settled
      obtain ⟨unsent, unreceived, unheld⟩ := settled
      refine ⟨fun n member => unsent n (shorter.subset (by simpa using member)), ?_,
        fun member => unheld member.1⟩
      simpa using unreceived
    | sent n =>
      rw [phase] at settled
      obtain ⟨only, messages, receipts, taken, untaken⟩ := settled
      -- Nothing is released before it was taken, and what was taken is not released yet.
      have undone : n ∉ s.receiver.delivered := fun done => (taken done).2 head
      obtain ⟨unheld, unreceived⟩ := untaken undone
      refine ⟨fun m member => only m (shorter.subset (by simpa using member)), ?_,
        receipts.completion unreceived, fun done => absurd done undone,
        fun _ => ⟨fun member => unheld member.1, by simpa using unreceived⟩⟩
      rw [List.append_nil]
      exact messages.sublist shorter
    | released n =>
      rw [phase] at settled
      obtain ⟨only, releases, completions, done, forgotten⟩ := settled
      -- No message is left behind the release.
      rw [first] at releases
      have unsent : ∀ m, .message id m ∉ rest ++ [] := fun m member =>
        (List.pairwise_cons.mp releases).1 _ (by simpa using member) rfl m rfl
      refine ⟨fun m member => absurd member (unsent m), ?_, completions.completion, done,
        fun _ member => member.2 rfl⟩
      rw [List.append_nil]
      exact releases.sublist (List.sublist_cons_self _ _)
  refine sound.kept ?_ rfl (fun _ _ has => has) (fun m => by rw [numbers]) ?_ sound.once
    fun _ done => done
  · have all := sound.settledAfter here shorter (.refl _) (by simp) (by simp [Back.id])
      (fun j other => by simp [other]) (fun _ _ _ _ => .rfl)
    rw [Function.update_eq_self] at all
    simpa using all
  · rw [numbers]
    exact sound.ordered

theorem step (sound : s.Sound) {t : State Id} (step : Step s t) : t.Sound := by
  cases step with
  | sender move =>
    cases move with
    | send free => exact sound.send free
    | resend sent => exact sound.resend sent
    | rerelease released => exact sound.rerelease released
    | receipt first sent => exact sound.receipt first sent
    | completion first released => exact sound.completion first released
  | receiver move =>
    cases move with
    | deliver first fresh => exact sound.deliver first fresh
    | repeated first held => exact sound.repeated first held
    | release first => exact sound.release first
  | loss loss => exact sound.loss loss

end State.Sound

section Reachable

variable [DecidableEq Id] {s : State Id}

theorem Reachable.sound (reached : Reachable s) : s.Sound := by
  induction reached with
  | refl => exact .start
  | tail _ step sound => exact sound.step step

/-- Each message is delivered at most once, and in the order in which they were first sent. -/
theorem Reachable.delivered (reached : Reachable s) :
    s.receiver.delivered = List.range s.receiver.delivered.length :=
  reached.sound.ordered.eq_range reached.sound.once

/-- A message the sender no longer waits for a receipt of was delivered. -/
theorem Reachable.complete (reached : Reachable s) {n : Nat} (small : n < s.sender.next)
    (received : ∀ id, s.sender.phase id ≠ .sent n) : n ∈ s.receiver.delivered := by
  rcases reached.sound.complete n small with done | ⟨id, sent⟩
  · exact done
  · exact absurd sent (received id)

end Reachable

end Rust.Handshake
