import MioBroker.Persist

/-!
# Reading the state file

A decoder reads an encoding when it gives back what was encoded and leaves what follows
untouched; it yields a property when everything it answers has it.
-/
namespace MioBroker

open Rust

namespace Decoder

variable {α β : Type}

/-- Whatever follows the bytes `bs`, the decoder answers `a` and stops behind them. -/
def Reads (d : Decoder α) (bs : Bytes) (a : α) : Prop := ∀ rest, d (bs ++ rest) = some (a, rest)

/-- Whatever the decoder answers has the property. -/
def Yields (d : Decoder α) (P : α → Prop) : Prop := ∀ data a rest, d data = some (a, rest) → P a

theorem bind_some {d : Decoder α} {f : α → Decoder β} {data : Bytes} {r : β × Bytes} :
    (d >>= f) data = some r ↔ ∃ a rest, d data = some (a, rest) ∧ f a rest = some r := by
  change Option.bind (d data) (fun p => f p.1 p.2) = some r ↔ _
  rw [Option.bind_eq_some_iff]
  exact ⟨fun ⟨⟨a, rest⟩, first, second⟩ => ⟨a, rest, first, second⟩,
    fun ⟨a, rest, first, second⟩ => ⟨(a, rest), first, second⟩⟩

theorem Reads.pure (a : α) : Reads (Pure.pure a : Decoder α) [] a := fun _ => rfl

theorem Reads.bind {d : Decoder α} {f : α → Decoder β} {bs bs' : Bytes} {a : α} {b : β}
    (first : Reads d bs a) (second : Reads (f a) bs' b) : Reads (d >>= f) (bs ++ bs') b := by
  intro rest
  rw [List.append_assoc]
  exact bind_some.mpr ⟨a, bs' ++ rest, first _, second rest⟩

/-- A pure step behind the last read. -/
theorem Reads.map {d : Decoder α} {f : α → β} {bs : Bytes} {a : α} (first : Reads d bs a) :
    Reads (d >>= fun a => Pure.pure (f a)) bs (f a) := by
  intro rest
  exact bind_some.mpr ⟨a, rest, first rest, rfl⟩

/-- What it answers does not depend on what follows the bytes it takes. -/
def Local (d : Decoder α) : Prop :=
  ∀ data a rest more, d data = some (a, rest) → d (data ++ more) = some (a, rest ++ more)

/-- It answers from the bytes it takes: whatever follows these, the answer is the same. -/
def Exact (d : Decoder α) : Prop :=
  ∀ data a rest, d data = some (a, rest) → ∃ used, data = used ++ rest ∧ Reads d used a

theorem Exact.locally {d : Decoder α} (exact : Exact d) : Local d := by
  intro data a rest more done
  obtain ⟨used, rfl, reads⟩ := exact _ _ _ done
  rw [List.append_assoc]
  exact reads _

theorem Exact.pure (a : α) : Exact (Pure.pure a : Decoder α) := by
  intro data b rest done
  cases done
  exact ⟨[], rfl, .pure a⟩

theorem Exact.fail : Exact (fun _ => none : Decoder α) := fun _ _ _ done => by cases done

theorem Exact.bind {d : Decoder α} {f : α → Decoder β} (first : Exact d) (second : ∀ a, Exact (f a)) :
    Exact (d >>= f) := by
  intro data b rest done
  obtain ⟨a, left, one, two⟩ := bind_some.mp done
  obtain ⟨used, rfl, reads⟩ := first _ _ _ one
  obtain ⟨used', rfl, reads'⟩ := second a _ _ _ two
  exact ⟨used ++ used', (List.append_assoc _ _ _).symm, reads.bind reads'⟩

theorem Exact.takeMany {item : Decoder α} (each : Exact item) (n : Nat) :
    Exact (MioBroker.takeMany item n) := by
  induction n with
  | zero => exact .pure []
  | succ n ih => exact each.bind fun a => ih.bind fun rest => .pure (a :: rest)

/-- An encoding of which the end is missing is not read. -/
theorem Reads.cut {d : Decoder α} {bs : Bytes} {a : α} (reads : Reads d bs a) (locally : Local d)
    {torn more : Bytes} (whole : torn ++ more = bs) (missing : more ≠ []) : d torn = none := by
  refine Option.eq_none_iff_forall_ne_some.mpr ?_
  rintro ⟨b, rest⟩ done
  -- with the missing bytes given back, they would be left over
  have extended := locally torn b rest more done
  have read := reads []
  rw [List.append_nil, ← whole, extended] at read
  have left : rest ++ more = [] := congrArg Prod.snd (Option.some.inj read)
  exact missing (List.append_eq_nil_iff.mp left).2

theorem Yields.trivial (d : Decoder α) : Yields d fun _ => True := fun _ _ _ _ => True.intro

theorem Yields.pure {P : α → Prop} {a : α} (holds : P a) : Yields (Pure.pure a) P := by
  intro data b rest done
  cases done
  exact holds

theorem Yields.bind {d : Decoder α} {f : α → Decoder β} {P : α → Prop} {Q : β → Prop}
    (first : Yields d P) (second : ∀ a, P a → Yields (f a) Q) : Yields (d >>= f) Q := by
  intro data b rest done
  obtain ⟨a, left, one, two⟩ := bind_some.mp done
  exact second a (first _ _ _ one) _ _ _ two

theorem Yields.takeMany {item : Decoder α} {P : α → Prop} (each : Yields item P) (n : Nat) :
    Yields (MioBroker.takeMany item n) fun l => l.length = n ∧ ∀ a ∈ l, P a := by
  induction n with
  | zero => exact .pure ⟨rfl, by simp⟩
  | succ n ih =>
    refine each.bind fun a holds => ih.bind fun l ⟨len, all⟩ => .pure ?_
    exact ⟨by simp [len], by simpa using ⟨holds, all⟩⟩

end Decoder

open Decoder

/-! ### Every decoder takes what it needs and no more -/

theorem take_exact (n : Nat) : Exact (take n) := by
  intro data bs rest done
  simp only [take] at done
  split at done
  · cases done
  next enough =>
    cases done
    refine ⟨data.take n, (List.take_append_drop n data).symm, fun more => ?_⟩
    have len : (data.take n).length = n := List.length_take_of_le (Nat.not_lt.mp enough)
    rw [take, if_neg (by rw [List.length_append]; omega), List.take_left' len, List.drop_left' len]

theorem takeU16_exact : Exact takeU16 := by
  refine (take_exact 2).bind fun bs => ?_
  split
  · exact .pure _
  · exact .fail

theorem takeBytes_exact : Exact takeBytes := takeU16_exact.bind fun n => take_exact n

theorem takeQos_exact : Exact takeQos := by
  refine (take_exact 1).bind fun bs => ?_
  split
  · split
    · exact .fail
    · exact .pure _
  · exact .fail

theorem takeMessage_exact : Exact takeMessage :=
  takeBytes_exact.bind fun _ => takeBytes_exact.bind fun _ => takeQos_exact.bind fun _ => .pure _

theorem takeSub_exact : Exact takeSub :=
  takeBytes_exact.bind fun _ => takeQos_exact.bind fun _ => .pure _

theorem takeSession_exact : Exact takeSession :=
  takeBytes_exact.bind fun _ => takeU16_exact.bind fun _ => (takeSub_exact.takeMany _).bind fun _ =>
    takeU16_exact.bind fun _ => (takeMessage_exact.takeMany _).bind fun _ => .pure _

theorem takeState_exact (h : Hashers) : Exact (takeState h) :=
  takeU16_exact.bind fun _ => (takeMessage_exact.takeMany _).bind fun _ => takeU16_exact.bind fun _ =>
    (takeSession_exact.takeMany _).bind fun _ => .pure _

/-! ### What is refused -/

/-- No QoS above 2 is read. -/
theorem takeQos_yields : Yields takeQos fun qos => qos ≤ 2 := by
  refine (Yields.trivial _).bind fun bs _ => ?_
  split
  · split
    next => exact fun _ _ _ done => by cases done
    next low => exact .pure (UInt8.not_lt.mp low)
  · exact fun _ _ _ done => by cases done

theorem takeMessage_yields : Yields takeMessage fun m => m.2.2 ≤ 2 :=
  (Yields.trivial _).bind fun _ _ => (Yields.trivial _).bind fun _ _ =>
    takeQos_yields.bind fun _ low => .pure low

theorem takeSub_yields : Yields takeSub fun sub => sub.2 ≤ 2 :=
  (Yields.trivial _).bind fun _ _ => takeQos_yields.bind fun _ low => .pure low

/-- No subscription and no queued message of the session has a QoS above 2. -/
structure SessionState.Graded (sess : SessionState) : Prop where
  subs : ∀ sub ∈ sess.subs, sub.2 ≤ 2
  offline : ∀ m ∈ sess.offline, m.2.2 ≤ 2

theorem takeSession_yields : Yields takeSession fun e => e.2.Graded :=
  (Yields.trivial _).bind fun _ _ => (Yields.trivial _).bind fun _ _ =>
    (takeSub_yields.takeMany _).bind fun _ subs => (Yields.trivial _).bind fun _ _ =>
      (takeMessage_yields.takeMany _).bind fun _ offline => .pure ⟨subs.2, offline.2⟩

/-- What holds of every inserted entry holds of the table. -/
theorem insertAll_get? {V : Type} {P : V → Prop} (entries : List (Str × V)) (m : HashMap Str V)
    (all : ∀ e ∈ entries, P e.2) (before : ∀ k v, m.get? k = some v → P v) :
    ∀ k v, (insertAll m entries).get? k = some v → P v := by
  induction entries generalizing m with
  | nil => exact before
  | cons e entries ih =>
    refine ih (m.insert e.1 e.2) (fun e' member => all e' (by simp [member])) fun k v found => ?_
    rw [HashMap.get?_insert] at found
    split at found
    · cases found
      exact all e (by simp)
    · exact before k v found

/-- No QoS of a loaded state is above 2. -/
theorem takeState_yields (h : Hashers) : Yields (takeState h) fun r =>
    (∀ topic e, r.1.get? topic = some e → e.2 ≤ 2) ∧
      ∀ cid sess, r.2.get? cid = some sess → sess.Graded := by
  refine (Yields.trivial _).bind fun _ _ => (takeMessage_yields.takeMany _).bind fun retained low =>
    (Yields.trivial _).bind fun _ _ => (takeSession_yields.takeMany _).bind fun l all => .pure ⟨?_, ?_⟩
  · refine insertAll_get? (P := fun e => e.2 ≤ 2) retained (.new h.retained) low.2 ?_
    exact fun k v found => by simp at found
  · refine insertAll_get? (P := SessionState.Graded) l (.new h.sessions) all.2 ?_
    exact fun k v found => by simp at found

theorem deserializeState_graded {h : Hashers} {data : Bytes} {retained : HashMap Str (Bytes × UInt8)}
    {sessions : HashMap Str SessionState} (done : deserializeState h data = some (retained, sessions)) :
    (∀ topic e, retained.get? topic = some e → e.2 ≤ 2) ∧
      ∀ cid sess, sessions.get? cid = some sess → sess.Graded := by
  simp only [deserializeState] at done
  split at done
  · cases done
  split at done
  · cases done
  split at done
  · cases done
  obtain ⟨⟨state, rest⟩, read, same⟩ := Option.map_eq_some_iff.mp done
  simp only at same
  subst same
  exact takeState_yields h _ _ _ read

end MioBroker
