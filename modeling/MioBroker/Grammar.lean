import MioBroker.Layout
import MioBroker.Rust.Entries

/-!
# The payloads of SUBSCRIBE and UNSUBSCRIBE

Both parsers read a packet id and then entries, as long as two more bytes are there. What they accept
is a sequence of entries with at most one byte behind it.
-/
namespace MioBroker

open Rust

/-- One round of the loop of `parse_subscribe`: a filter with its QoS, and the position behind it. -/
def subscribeEntryAt (body : Bytes) (pos : Nat) : Run (Option ((Str × UInt8) × Nat)) := do
  let tlen := (← u16At body pos).toNat
  let pos := pos + 2
  if pos + tlen + 1 > body.length then return none
  let filter := Str.fromUtf8Lossy (← Run.slice body pos (pos + tlen))
  let pos := pos + tlen
  let qos := (← Run.index body pos) &&& 0x03
  return some ((filter, qos), pos + 1)

/-- One round of the loop of `parse_unsubscribe`. -/
def unsubscribeEntryAt (body : Bytes) (pos : Nat) : Run (Option (Str × Nat)) := do
  let tlen := (← u16At body pos).toNat
  let pos := pos + 2
  if pos + tlen > body.length then return none
  let filter := Str.fromUtf8Lossy (← Run.slice body pos (pos + tlen))
  return some (filter, pos + tlen)

theorem parseSubscribeLoop_eq (body : Bytes) (fuel pos : Nat) (out : List (Str × UInt8)) :
    parseSubscribeLoop body fuel pos out =
      entryLoop (subscribeEntryAt body) 2 body.length fuel pos out := by
  induction fuel generalizing pos out with
  | zero => rfl
  | succ fuel ih =>
    rw [parseSubscribeLoop, entryLoop, subscribeEntryAt]
    split
    · cases u16At body pos with
      | error e => rfl
      | ok tlen =>
        simp only [Run.ok_bind]
        split
        · rfl
        · cases Run.slice body (pos + 2) (pos + 2 + tlen.toNat) with
          | error e => rfl
          | ok filter =>
            simp only [Run.ok_bind]
            cases Run.index body (pos + 2 + tlen.toNat) with
            | error e => rfl
            | ok option => exact ih _ _
    · rfl

theorem parseUnsubscribeLoop_eq (body : Bytes) (fuel pos : Nat) (out : List Str) :
    parseUnsubscribeLoop body fuel pos out =
      entryLoop (unsubscribeEntryAt body) 2 body.length fuel pos out := by
  induction fuel generalizing pos out with
  | zero => rfl
  | succ fuel ih =>
    rw [parseUnsubscribeLoop, entryLoop, unsubscribeEntryAt]
    split
    · cases u16At body pos with
      | error e => rfl
      | ok tlen =>
        simp only [Run.ok_bind]
        split
        · rfl
        · cases Run.slice body (pos + 2) (pos + 2 + tlen.toNat) with
          | error e => rfl
          | ok filter => exact ih _ _
    · rfl

/-- Both parsers around their loops: a packet id, and the entries behind it. -/
def parsePayload {β : Type} (read : Nat → Run (Option (β × Nat))) (body : Bytes) :
    Run (Option (UInt16 × List β)) := do
  if body.length < 3 then return none
  let pid ← u16At body 0
  match ← entryLoop read 2 body.length body.length 2 [] with
  | some out => return some (pid, out)
  | none => return none

theorem parseSubscribe_eq (body : Bytes) :
    parseSubscribe body = parsePayload (subscribeEntryAt body) body := by
  rw [parseSubscribe, parsePayload, parseSubscribeLoop_eq]
  split
  · rfl
  · cases u16At body 0 with
    | error e => rfl
    | ok pid =>
      simp only [Run.ok_bind]
      cases entryLoop (subscribeEntryAt body) 2 body.length body.length 2 [] with
      | error e => rfl
      | ok answer => cases answer <;> rfl

theorem parseUnsubscribe_eq (body : Bytes) :
    parseUnsubscribe body = parsePayload (unsubscribeEntryAt body) body := by
  rw [parseUnsubscribe, parsePayload, parseUnsubscribeLoop_eq]
  split
  · rfl
  · cases u16At body 0 with
    | error e => rfl
    | ok pid =>
      simp only [Run.ok_bind]
      cases entryLoop (unsubscribeEntryAt body) 2 body.length body.length 2 [] with
      | error e => rfl
      | ok answer => cases answer <;> rfl

/-! ### Entries on the wire -/

/-- A filter, as the bytes that are sent, and its option byte. -/
abbrev SubscribeEntry := Bytes × UInt8

def SubscribeEntry.encode (e : SubscribeEntry) : Bytes := field e.1 ++ [e.2]

/-- The length of a filter fits its prefix. -/
def SubscribeEntry.Valid (e : SubscribeEntry) : Prop := e.1.length ≤ 65535

/-- What the parser makes of it. -/
def SubscribeEntry.decode (e : SubscribeEntry) : Str × UInt8 :=
  (.fromUtf8Lossy e.1, e.2 &&& 0x03)

theorem subscribe_reader (body : Bytes) : EntryReader body (subscribeEntryAt body) 2
    SubscribeEntry.Valid SubscribeEntry.encode SubscribeEntry.decode where
  some_needed := by decide
  long e _ := by
    rw [SubscribeEntry.encode, List.length_append, length_field]
    omega
  reads := by
    rintro ⟨filter, option⟩ pos rest short layout
    have nonempty : SubscribeEntry.encode (filter, option) ≠ [] := by simp [SubscribeEntry.encode]
    obtain ⟨whole, at_pos⟩ := layout_of_drop layout nonempty
    have entry : body = body.take pos ++ (field filter ++ (option :: rest)) := by
      rw [SubscribeEntry.encode, List.append_assoc] at whole
      exact whole
    have size := congrArg List.length entry
    simp only [List.length_append, length_field, List.length_cons, ← at_pos] at size
    obtain ⟨len, read, value, named⟩ :=
      field_layout (body.take pos) _ entry at_pos (Nat.lt_succ_of_le short)
    have byte : Run.index body (pos + 2 + filter.length) = .ok option := by
      refine index_layout (body.take pos ++ field filter) rest ?_ ?_
      · rw [List.append_assoc]
        exact entry
      · rw [List.length_append, length_field, ← at_pos, Nat.add_assoc]
    rw [subscribeEntryAt, read, Run.ok_bind]
    simp only [value]
    rw [if_neg (by omega), named, Run.ok_bind, byte, Run.ok_bind]
    simp only [SubscribeEntry.decode, SubscribeEntry.encode, List.length_append, length_field,
      List.length_singleton, Run.pure_eq, Except.ok.injEq, Option.some.injEq, Prod.mk.injEq, true_and]
    omega
  only := by
    rintro pos ⟨filter, qos⟩ next more read
    simp only [subscribeEntryAt] at read
    obtain ⟨len, len_ok, read⟩ := Run.bind_ok.mp read
    split at read
    · cases read
    obtain ⟨bytes, named, read⟩ := Run.bind_ok.mp read
    obtain ⟨option, byte, read⟩ := Run.bind_ok.mp read
    cases read
    obtain ⟨cut, length⟩ := field_drop len_ok named
    refine ⟨(bytes, option), body.drop (pos + 2 + len.toNat + 1), ?_, rfl, ?_, ?_⟩
    · rw [SubscribeEntry.Valid, length]
      exact Nat.le_of_lt_succ len.toNat_lt
    · rw [SubscribeEntry.encode, List.length_append, length_field, length, List.length_singleton]
      omega
    · rw [cut, index_drop byte, SubscribeEntry.encode, List.append_assoc]
      rfl

theorem unsubscribe_reader (body : Bytes) : EntryReader body (unsubscribeEntryAt body) 2
    (fun filter : Bytes => filter.length ≤ 65535) field Str.fromUtf8Lossy where
  some_needed := by decide
  long filter _ := by
    rw [length_field]
    omega
  reads := by
    intro filter pos rest short layout
    have nonempty : field filter ≠ [] := by simp [field, u16ToBe]
    obtain ⟨whole, at_pos⟩ := layout_of_drop layout nonempty
    have size := congrArg List.length whole
    simp only [List.length_append, length_field, ← at_pos] at size
    obtain ⟨len, read, value, named⟩ :=
      field_layout (body.take pos) _ whole at_pos (Nat.lt_succ_of_le short)
    rw [unsubscribeEntryAt, read, Run.ok_bind]
    simp only [value]
    rw [if_neg (by omega), named, Run.ok_bind, length_field, Nat.add_assoc]
    rfl
  only := by
    intro pos filter next more read
    simp only [unsubscribeEntryAt] at read
    obtain ⟨len, len_ok, read⟩ := Run.bind_ok.mp read
    split at read
    · cases read
    obtain ⟨bytes, named, read⟩ := Run.bind_ok.mp read
    cases read
    obtain ⟨cut, length⟩ := field_drop len_ok named
    refine ⟨bytes, body.drop (pos + 2 + len.toNat), ?_, rfl, ?_, cut⟩
    · rw [length]
      exact Nat.le_of_lt_succ len.toNat_lt
    · rw [length_field, length, Nat.add_assoc]

/-! ### Packet id and entries -/

/-- A packet id, entries, and what is left behind the last of them. -/
structure Payload {α : Type} (valid : α → Prop) (encode : α → Bytes) (body : Bytes) (pid : UInt16)
    (entries : List α) (stray : Bytes) : Prop where
  valid : ∀ e ∈ entries, valid e
  layout : body = u16ToBe pid ++ (entries.flatMap encode ++ stray)

/-- What the protocol allows: entries, at least one, and nothing behind them. -/
def Grammar {α β : Type} (valid : α → Prop) (encode : α → Bytes) (decode : α → β) (body : Bytes)
    (pid : UInt16) (l : List β) : Prop :=
  ∃ entries, entries ≠ [] ∧ Payload valid encode body pid entries [] ∧ l = entries.map decode

/-- Entries, possibly none, and one more byte. -/
def Stray {α : Type} (valid : α → Prop) (encode : α → Bytes) (body : Bytes) : Prop :=
  ∃ pid entries x, Payload valid encode body pid entries [x]

section Payload

variable {α β : Type} {valid : α → Prop} {encode : α → Bytes} {decode : α → β}
  {read : Nat → Run (Option (β × Nat))} {body : Bytes}

theorem Payload.id {pid : UInt16} {entries : List α} {stray : Bytes}
    (payload : Payload valid encode body pid entries stray) :
    u16At body 0 = .ok pid ∧ body.drop 2 = entries.flatMap encode ++ stray := by
  refine ⟨u16At_layout [] _ payload.layout rfl, ?_⟩
  rw [payload.layout]
  rfl

theorem parsePayload_iff (reader : EntryReader body read 2 valid encode decode) (pid : UInt16)
    (l : List β) :
    parsePayload read body = .ok (some (pid, l)) ↔ 3 ≤ body.length ∧ ∃ entries stray,
      Payload valid encode body pid entries stray ∧ stray.length < 2 ∧ l = entries.map decode := by
  have loop := reader.loop_iff body.length 2 [] l (by omega)
  rw [parsePayload]
  constructor
  · intro done
    split at done
    · cases done
    next long =>
    obtain ⟨id, id_ok, done⟩ := Run.bind_ok.mp done
    obtain ⟨answer, loop_ok, done⟩ := Run.bind_ok.mp done
    cases answer with
    | none => cases done
    | some out =>
      cases done
      obtain ⟨entries, stray, oks, layout, short, rfl⟩ := loop.mp loop_ok
      refine ⟨by omega, entries, stray, ⟨oks, ?_⟩, short, List.nil_append _⟩
      rw [← layout, ← u16At_drop id_ok, List.drop_zero]
  · rintro ⟨long, entries, stray, payload, short, rfl⟩
    obtain ⟨id, behind⟩ := payload.id
    have done := loop.mpr ⟨entries, stray, payload.valid, behind, short, (List.nil_append _).symm⟩
    rw [if_neg (by omega), id, Run.ok_bind, done]
    rfl

/-- A parser of this kind accepts its grammar, but for the bodies with one byte behind the entries. -/
theorem grammar_iff (reader : EntryReader body read 2 valid encode decode) :
    (∀ pid l, parsePayload read body = .ok (some (pid, l)) ↔ Grammar valid encode decode body pid l) ↔
      ¬Stray valid encode body := by
  have accepts := parsePayload_iff reader
  constructor
  · rintro exact_grammar ⟨pid, entries, x, payload⟩
    have long : 3 ≤ body.length := by
      rw [payload.layout]
      simp only [List.length_append, length_u16ToBe, List.length_singleton]
      omega
    have accepted := (accepts pid _).mpr ⟨long, entries, [x], payload, by simp, rfl⟩
    obtain ⟨others, -, payload', -⟩ := (exact_grammar pid _).mp accepted
    have same := reader.stray_unique 2 payload.valid payload'.valid payload.id.2 payload'.id.2
      (by simp) (by simp)
    cases same
  · intro clean pid l
    rw [accepts]
    constructor
    · rintro ⟨long, entries, stray, payload, short, rfl⟩
      cases stray with
      | cons x stray =>
        rw [List.length_cons] at short
        have alone : stray = [] := List.length_eq_zero_iff.mp (by omega)
        exact absurd ⟨pid, entries, x, alone ▸ payload⟩ clean
      | nil =>
        refine ⟨entries, ?_, payload, rfl⟩
        rintro rfl
        rw [payload.layout] at long
        simp at long
    · rintro ⟨entries, nonempty, payload, rfl⟩
      refine ⟨?_, entries, [], payload, by simp, rfl⟩
      obtain ⟨e, rest, rfl⟩ := List.exists_cons_of_ne_nil nonempty
      have long := reader.long e (payload.valid e (by simp))
      rw [payload.layout]
      simp only [List.length_append, length_u16ToBe, List.flatMap_cons, List.append_nil]
      omega

end Payload

theorem parseSubscribe_iff (body : Bytes) (pid : UInt16) (l : List (Str × UInt8)) :
    parseSubscribe body = .ok (some (pid, l)) ↔ 3 ≤ body.length ∧ ∃ entries stray,
      Payload SubscribeEntry.Valid SubscribeEntry.encode body pid entries stray ∧ stray.length < 2 ∧
      l = entries.map SubscribeEntry.decode := by
  rw [parseSubscribe_eq]
  exact parsePayload_iff (subscribe_reader body) pid l

theorem parseUnsubscribe_iff (body : Bytes) (pid : UInt16) (l : List Str) :
    parseUnsubscribe body = .ok (some (pid, l)) ↔ 3 ≤ body.length ∧ ∃ entries stray,
      Payload (fun filter => filter.length ≤ 65535) field body pid entries stray ∧ stray.length < 2 ∧
      l = entries.map Str.fromUtf8Lossy := by
  rw [parseUnsubscribe_eq]
  exact parsePayload_iff (unsubscribe_reader body) pid l

/-- Both parsers accept their grammar and nothing else, unless the body is entries with a single byte
behind them. -/
theorem grammar_parsed_iff (body : Bytes) :
    ((∀ pid l, parseSubscribe body = .ok (some (pid, l)) ↔
        Grammar SubscribeEntry.Valid SubscribeEntry.encode SubscribeEntry.decode body pid l) ↔
      ¬Stray SubscribeEntry.Valid SubscribeEntry.encode body) ∧
    ((∀ pid l, parseUnsubscribe body = .ok (some (pid, l)) ↔
        Grammar (fun filter => filter.length ≤ 65535) field Str.fromUtf8Lossy body pid l) ↔
      ¬Stray (fun filter => filter.length ≤ 65535) field body) := by
  rw [parseSubscribe_eq, parseUnsubscribe_eq]
  exact ⟨grammar_iff (subscribe_reader body), grammar_iff (unsubscribe_reader body)⟩

/-- A packet id and one byte: no filter at all, and a byte too many. -/
theorem grammar_exceeded : ¬∀ body : Bytes,
    (∀ pid l, parseSubscribe body = .ok (some (pid, l)) ↔
      Grammar SubscribeEntry.Valid SubscribeEntry.encode SubscribeEntry.decode body pid l) ∧
    ∀ pid l, parseUnsubscribe body = .ok (some (pid, l)) ↔
      Grammar (fun filter => filter.length ≤ 65535) field Str.fromUtf8Lossy body pid l := by
  intro claim
  obtain ⟨entries, nonempty, -, none_listed⟩ := ((claim [0, 1, 0]).1 1 []).mp rfl
  exact nonempty (List.map_eq_nil_iff.mp none_listed.symm)

end MioBroker
