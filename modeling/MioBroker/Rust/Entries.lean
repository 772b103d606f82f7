import MioBroker.Rust.Core

/-!
# Loops that read entries

A payload is a sequence of entries, each with an encoding of its own. A loop reads one entry after
another, for as long as so much is left that there may be another one.
-/
namespace Rust

variable {α β γ : Type}

/-- Read entries while at least `least` items are left; `none` from `read` is the answer of the
loop. `fuel` bounds the number of entries. -/
def entryLoop (read : Nat → Run (Option (β × Nat))) (least stop : Nat) :
    Nat → Nat → List β → Run (Option (List β))
  | 0, _, out => pure (some out)
  | fuel + 1, pos, out => do
    if pos + least ≤ stop then
      match ← read pos with
      | some (entry, pos) => entryLoop read least stop fuel pos (out ++ [entry])
      | none => return none
    else return some out

/-- `read` reads the encodings of valid entries off `body`, and nothing else. -/
structure EntryReader (body : List γ) (read : Nat → Run (Option (β × Nat))) (least : Nat)
    (valid : α → Prop) (encode : α → List γ) (decode : α → β) : Prop where
  some_needed : 0 < least
  long : ∀ a, valid a → least ≤ (encode a).length
  reads : ∀ a pos rest, valid a → body.drop pos = encode a ++ rest →
    read pos = .ok (some (decode a, pos + (encode a).length))
  only : ∀ pos entry next, pos + least ≤ body.length → read pos = .ok (some (entry, next)) →
    ∃ a rest, valid a ∧ entry = decode a ∧ next = pos + (encode a).length ∧
      body.drop pos = encode a ++ rest

namespace EntryReader

variable {body : List γ} {read : Nat → Run (Option (β × Nat))} {least : Nat} {valid : α → Prop}
  {encode : α → List γ} {decode : α → β}

theorem drop_entry {pos : Nat} {a : α} {rest : List γ} (layout : body.drop pos = encode a ++ rest) :
    body.drop (pos + (encode a).length) = rest := by
  rw [← List.drop_drop, layout, List.drop_left]

/-- An entry leaves the loop room for it. -/
theorem room (reader : EntryReader body read least valid encode decode) {pos : Nat} {a : α}
    {rest : List γ} (ok : valid a) (layout : body.drop pos = encode a ++ rest) :
    pos + least ≤ body.length := by
  have long := reader.long a ok
  have needed := reader.some_needed
  have size := congrArg List.length layout
  rw [List.length_drop, List.length_append] at size
  omega

/-- The loop accepts a sequence of entries with too little behind it for another one. -/
theorem loop_iff (reader : EntryReader body read least valid encode decode) (fuel pos : Nat)
    (out r : List β) (enough : body.length ≤ pos + fuel) :
    entryLoop read least body.length fuel pos out = .ok (some r) ↔
      ∃ (entries : List α) (stray : List γ), (∀ a ∈ entries, valid a) ∧
        body.drop pos = entries.flatMap encode ++ stray ∧ stray.length < least ∧
        r = out ++ entries.map decode := by
  have needed := reader.some_needed
  constructor
  · intro done
    induction fuel generalizing pos out with
    | zero =>
      cases done
      refine ⟨[], [], by simp, ?_, needed, by simp⟩
      exact List.drop_eq_nil_of_le enough
    | succ fuel ih =>
      rw [entryLoop] at done
      split at done
      next more =>
        obtain ⟨answer, read_ok, done⟩ := Run.bind_ok.mp done
        cases answer with
        | none => cases done
        | some answer =>
          obtain ⟨entry, next⟩ := answer
          obtain ⟨a, rest, ok, rfl, rfl, layout⟩ := reader.only pos entry next more read_ok
          have long := reader.long a ok
          obtain ⟨entries, stray, oks, behind, short, rfl⟩ := ih _ _ (by omega) done
          refine ⟨a :: entries, stray, ?_, ?_, short, by simp⟩
          · exact List.forall_mem_cons.mpr ⟨ok, oks⟩
          · rw [layout, List.flatMap_cons, List.append_assoc, ← behind, drop_entry layout]
      next last =>
        cases done
        refine ⟨[], body.drop pos, by simp, rfl, ?_, by simp⟩
        rw [List.length_drop]
        omega
  · rintro ⟨entries, stray, oks, layout, short, rfl⟩
    induction entries generalizing fuel pos out with
    | nil =>
      have size := congrArg List.length layout
      rw [List.length_drop, List.flatMap_nil, List.nil_append] at size
      cases fuel with
      | zero => simp [entryLoop]
      | succ fuel =>
        rw [entryLoop, if_neg (by omega)]
        simp
    | cons a entries ih =>
      obtain ⟨ok, oks⟩ := List.forall_mem_cons.mp oks
      rw [List.flatMap_cons, List.append_assoc] at layout
      have more := reader.room ok layout
      have long := reader.long a ok
      cases fuel with
      | zero => omega
      | succ fuel =>
        rw [entryLoop, if_pos more, reader.reads a pos _ ok layout, Run.ok_bind]
        simp only
        rw [ih fuel _ _ (by omega) oks (drop_entry layout)]
        simp

/-- What is left behind the entries does not depend on how they are read. -/
theorem stray_unique (reader : EntryReader body read least valid encode decode) (pos : Nat)
    {entries entries' : List α} {stray stray' : List γ} (oks : ∀ a ∈ entries, valid a)
    (oks' : ∀ a ∈ entries', valid a) (layout : body.drop pos = entries.flatMap encode ++ stray)
    (layout' : body.drop pos = entries'.flatMap encode ++ stray') (short : stray.length < least)
    (short' : stray'.length < least) : stray = stray' := by
  induction entries generalizing pos entries' with
  | nil =>
    cases entries' with
    | nil => exact layout.symm.trans layout'
    | cons b entries' =>
      have long := reader.long b (oks' b (by simp))
      have size := congrArg List.length (layout.symm.trans layout')
      simp only [List.flatMap_nil, List.nil_append, List.flatMap_cons, List.length_append] at size
      omega
  | cons a entries ih =>
    obtain ⟨ok, oks⟩ := List.forall_mem_cons.mp oks
    cases entries' with
    | nil =>
      have long := reader.long a ok
      have size := congrArg List.length (layout.symm.trans layout')
      simp only [List.flatMap_nil, List.nil_append, List.flatMap_cons, List.length_append] at size
      omega
    | cons b entries' =>
      obtain ⟨ok', oks'⟩ := List.forall_mem_cons.mp oks'
      rw [List.flatMap_cons, List.append_assoc] at layout layout'
      -- both first entries are what `read` finds here, so they are equally long
      have same := (reader.reads a pos _ ok layout).symm.trans (reader.reads b pos _ ok' layout')
      simp only [Except.ok.injEq, Option.some.injEq, Prod.mk.injEq] at same
      refine ih (pos + (encode a).length) oks oks' (drop_entry layout) ?_
      rw [same.2]
      exact drop_entry layout'

end EntryReader

/-- Entries that take something are no more than what they take. -/
theorem length_le_flatMap (encode : α → List γ) (nonempty : ∀ a, 0 < (encode a).length) (l : List α) :
    l.length ≤ (l.flatMap encode).length := by
  induction l with
  | nil => exact Nat.le_refl _
  | cons a l ih =>
    have first := nonempty a
    rw [List.flatMap_cons, List.length_append, List.length_cons]
    omega

end Rust
