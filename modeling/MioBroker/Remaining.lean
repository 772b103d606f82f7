import MioBroker.Relay
import MioBroker.FlatThreaded

/-!
# The remaining length in the threaded broker

`decode_rem` takes length bytes for as long as they ask for another one, and counts in machine words.
Four bytes are what the protocol has; the decoder does not count them.
-/
namespace MioBroker.Threaded

open Rust

/-- The buffer `read_packet` allocates, once it has read the header byte and the length. -/
def allocated (bits : Nat) : Bytes → Option Nat
  | [] => none
  | _ :: stream => (decodeLength bits stream).result.map Prod.fst

/-- The decoder fails or stops within the four bytes and 28 bits of the protocol, without overflow, and
no larger buffer is asked for. -/
structure Bounded (bits : Nat) (stream : Bytes) : Prop where
  exactly : (decodeLength bits stream).overflowed = false
  value : ∀ len rest, (decodeLength bits stream).result = some (len, rest) →
    (decodeLength bits stream).used ≤ 4 ∧ len ≤ 268435455
  buffer : ∀ header len, allocated bits (header :: stream) = some len → len ≤ 268435455

/-- The number of bytes read does not depend on the arithmetic. -/
theorem decodeRemWords_used {digits : Bytes} (terminated : Terminated digits) (bits : Nat) (rest : Bytes)
    (mult rem used : Nat) (overflowed : Bool) :
    ∃ len, (decodeRemWords bits (digits ++ rest) mult rem used overflowed).result = some (len, rest) ∧
      (decodeRemWords bits (digits ++ rest) mult rem used overflowed).used = used + digits.length := by
  induction digits generalizing mult rem used overflowed with
  | nil => exact terminated.elim
  | cons x xs ih =>
    rw [List.cons_append, decodeRemWords]
    cases xs with
    | nil =>
      rw [if_pos ((continuation_iff x).mpr terminated)]
      exact ⟨_, rfl, rfl⟩
    | cons y ys =>
      obtain ⟨continued, terminated⟩ := terminated
      have more : ¬(x &&& 0x80 == 0) = true :=
        fun last => Nat.not_lt.mpr continued ((continuation_iff x).mp last)
      rw [if_neg more]
      obtain ⟨len, result, count⟩ := ih terminated _ _ (used + 1) _
      refine ⟨len, result, count.trans ?_⟩
      simp only [List.length_cons]
      omega

/-! ### Where the words suffice -/

theorem pow_128_le {i bits : Nat} : 128 ^ i ≤ 2 ^ bits ↔ 7 * i ≤ bits := by
  rw [show 128 = 2 ^ 7 from rfl, ← Nat.pow_mul]
  exact Nat.pow_le_pow_iff_right (by decide)

theorem pow_128_lt {i bits : Nat} : 128 ^ i < 2 ^ bits ↔ 7 * i < bits := by
  rw [show 128 = 2 ^ 7 from rfl, ← Nat.pow_mul]
  exact Nat.pow_lt_pow_iff_right (by decide)

/-- One more digit keeps the value below the next power. -/
theorem digit_fits {x : UInt8} {i rem bits : Nat} (below : rem < 128 ^ i) (fits : 7 * (i + 1) ≤ bits) :
    x.toNat % 128 * 128 ^ i < 2 ^ bits ∧ rem + x.toNat % 128 * 128 ^ i < 128 ^ (i + 1) ∧
      rem + x.toNat % 128 * 128 ^ i < 2 ^ bits := by
  have digit : x.toNat % 128 + 1 ≤ 128 := Nat.mod_lt _ (by decide)
  have power : 128 ^ (i + 1) ≤ 2 ^ bits := pow_128_le.mpr fits
  have next : (x.toNat % 128 + 1) * 128 ^ i ≤ 128 ^ (i + 1) := by
    rw [Nat.pow_succ']
    exact Nat.mul_le_mul_right _ digit
  rw [Nat.add_mul, Nat.one_mul] at next
  omega

/-- A length overflows nothing when there is room for its digits. -/
theorem decodeRemWords_fits {digits : Bytes} (terminated : Terminated digits) (rest : Bytes)
    (bits i rem used : Nat) (below : rem < 128 ^ i) (fits : 7 * (i + digits.length) ≤ bits) :
    (decodeRemWords bits (digits ++ rest) (128 ^ i) rem used false).overflowed = false := by
  induction digits generalizing i rem used with
  | nil => exact terminated.elim
  | cons x xs ih =>
    rw [List.length_cons] at fits
    have within : 7 * (i + 1) ≤ bits := by omega
    obtain ⟨product, power, sum⟩ := digit_fits (x := x) below within
    rw [List.cons_append, decodeRemWords, seven_bits]
    simp only [Nat.mod_eq_of_lt product, Nat.mod_eq_of_lt sum, Nat.not_le.mpr product,
      Nat.not_le.mpr sum, decide_false, Bool.or_false]
    cases xs with
    | nil => rw [if_pos ((continuation_iff x).mpr terminated)]
    | cons y ys =>
      obtain ⟨continued, terminated⟩ := terminated
      have more : ¬(x &&& 0x80 == 0) = true :=
        fun last => Nat.not_lt.mpr continued ((continuation_iff x).mp last)
      -- the multiplier for the next digit still fits
      have next : 128 ^ (i + 1) < 2 ^ bits := by
        rw [pow_128_lt]
        simp only [List.length_cons] at fits
        omega
      rw [if_neg more, ← Nat.pow_succ, Nat.mod_eq_of_lt next]
      simp only [Nat.not_le.mpr next, decide_false, Bool.or_false]
      exact ih terminated (i + 1) _ (used + 1) power (by omega)

/-- What has overflowed has overflowed. -/
theorem decodeRemWords_overflowed (bits : Nat) (stream : Bytes) (mult rem used : Nat) :
    (decodeRemWords bits stream mult rem used true).overflowed = true := by
  induction stream generalizing mult rem used with
  | nil => rfl
  | cons x xs ih =>
    rw [decodeRemWords]
    simp only [Bool.true_or]
    split
    · rfl
    · exact ih _ _ _

theorem decodeRemWords_unended {stream : Bytes} (endless : ∀ x ∈ stream, 128 ≤ x.toNat)
    (bits mult rem used : Nat) (overflowed : Bool) :
    (decodeRemWords bits stream mult rem used overflowed).result = none := by
  induction stream generalizing mult rem used overflowed with
  | nil => rfl
  | cons x xs ih =>
    obtain ⟨continued, endless⟩ := List.forall_mem_cons.mp endless
    have more : ¬(x &&& 0x80 == 0) = true :=
      fun last => Nat.not_lt.mpr continued ((continuation_iff x).mp last)
    rw [decodeRemWords]
    simp only [if_neg more]
    exact ih endless _ _ _ _

/-- A length that does not end overflows as soon as it has more bits than a word. -/
theorem decodeRemWords_endless {stream : Bytes} (endless : ∀ x ∈ stream, 128 ≤ x.toNat)
    (bits i rem used : Nat) (below : rem < 128 ^ i) (fits : 7 * i < bits) :
    (decodeRemWords bits stream (128 ^ i) rem used false).result = none ∧
      ((decodeRemWords bits stream (128 ^ i) rem used false).overflowed = false ↔
        7 * (i + stream.length) < bits) := by
  induction stream generalizing i rem used with
  | nil => exact ⟨rfl, by simpa [decodeRemWords] using fits⟩
  | cons x xs ih =>
    obtain ⟨continued, endless⟩ := List.forall_mem_cons.mp endless
    have more : ¬(x &&& 0x80 == 0) = true :=
      fun last => Nat.not_lt.mpr continued ((continuation_iff x).mp last)
    rw [List.length_cons, decodeRemWords, seven_bits]
    simp only [if_neg more, ← Nat.pow_succ]
    by_cases room : 7 * (i + 1) < bits
    · obtain ⟨product, power, sum⟩ := digit_fits (x := x) below (Nat.le_of_lt room)
      have next := pow_128_lt.mpr room
      simp only [Nat.mod_eq_of_lt product, Nat.mod_eq_of_lt sum, Nat.mod_eq_of_lt next,
        Nat.not_le.mpr product, Nat.not_le.mpr sum, Nat.not_le.mpr next, decide_false, Bool.or_false]
      obtain ⟨result, exactly⟩ := ih endless (i + 1) _ (used + 1) power room
      refine ⟨result, exactly.trans ?_⟩
      omega
    · -- the multiplier does not fit a word any more
      have large : 2 ^ bits ≤ 128 ^ (i + 1) :=
        Nat.not_lt.mp fun small => room (pow_128_lt.mp small)
      simp only [large, decide_true, Bool.or_true]
      refine ⟨decodeRemWords_unended endless _ _ _ _ _, ?_⟩
      rw [decodeRemWords_overflowed]
      simp only [Bool.true_eq_false, false_iff]
      omega

/-! ### The bound -/

theorem decodeLength_terminated {digits : Bytes} (terminated : Terminated digits) {bits : Nat}
    (word : bits = 32 ∨ bits = 64) (few : digits.length ≤ 4) (rest : Bytes) :
    decodeLength bits (digits ++ rest) = ⟨some (remValue digits, rest), digits.length, false⟩ := by
  have exactly : (decodeLength bits (digits ++ rest)).overflowed = false :=
    decodeRemWords_fits terminated rest bits 0 0 0 (by decide) (by omega)
  have value : remValue digits < 2 ^ bits :=
    Nat.lt_of_lt_of_le (remValue_short few) (Nat.pow_le_pow_right (by decide) (by omega))
  have result := decodeLength_result terminated bits rest
  rw [Nat.mod_eq_of_lt value] at result
  obtain ⟨len, -, used⟩ := decodeRemWords_used terminated bits rest 1 0 0 false
  rw [Nat.zero_add] at used
  exact Decoding.ext result used exactly

theorem decodeLength_endless {stream : Bytes} (endless : ∀ x ∈ stream, 128 ≤ x.toNat) {bits : Nat}
    (word : bits = 32 ∨ bits = 64) : (decodeLength bits stream).result = none ∧
      ((decodeLength bits stream).overflowed = false ↔ 7 * stream.length < bits) := by
  have outcome := decodeRemWords_endless endless bits 0 0 0 (by decide) (by omega)
  rwa [Nat.pow_zero, Nat.zero_add] at outcome

/-- The decoder keeps to four bytes and 28 bits exactly when one of the first four bytes ends the
length, or the stream itself ends before a word is full; and it reads back what was encoded. -/
theorem remaining_length_iff (bits : Nat) (word : bits = 32 ∨ bits = 64) (stream : Bytes) :
    (Bounded bits stream ↔ (∃ x ∈ stream.take 4, x.toNat < 128) ∨
      (∀ x ∈ stream, 128 ≤ x.toNat) ∧ 7 * stream.length < bits) ∧
    ∀ n ≤ 268435455, ∀ rest, decodeLength bits (encodeRem n ++ rest) =
      ⟨some (n, rest), (encodeRem n).length, false⟩ := by
  constructor
  · rcases terminated_front stream with endless | ⟨digits, rest, rfl, terminated⟩
    · obtain ⟨result, exactly⟩ := decodeLength_endless endless word
      have continued : ¬∃ x ∈ stream.take 4, x.toNat < 128 := by
        rintro ⟨x, member, last⟩
        exact Nat.not_lt.mpr (endless x (List.mem_of_mem_take member)) last
      rw [or_iff_right continued, and_iff_right endless, ← exactly]
      refine ⟨fun bounded => bounded.exactly, fun none_lost => ⟨none_lost, ?_, ?_⟩⟩
      · intro len rest found
        cases result.symm.trans found
      · intro header len asked
        rw [allocated, result] at asked
        cases asked
    · have ends : ∃ x ∈ digits ++ rest, x.toNat < 128 := by
        obtain ⟨x, member, last⟩ := (terminated.take_iff rest _).mpr (Nat.le_refl digits.length)
        exact ⟨x, List.mem_of_mem_take member, last⟩
      have unending : ¬((∀ x ∈ digits ++ rest, 128 ≤ x.toNat) ∧
          7 * (digits ++ rest).length < bits) := by
        rintro ⟨endless, -⟩
        obtain ⟨x, member, last⟩ := ends
        exact Nat.not_lt.mpr (endless x member) last
      rw [or_iff_left unending, terminated.take_iff]
      constructor
      · intro bounded
        obtain ⟨len, found, used⟩ := decodeRemWords_used terminated bits rest 1 0 0 false
        have four := (bounded.value len rest found).1
        rw [decodeLength, used] at four
        omega
      · intro few
        have read := decodeLength_terminated terminated word few rest
        have small : remValue digits ≤ 268435455 := by
          have power := Nat.pow_le_pow_right (by decide : 0 < 128) few
          have value := remValue_lt digits
          omega
        refine ⟨by rw [read], ?_, ?_⟩
        · intro len left found
          rw [read] at found ⊢
          cases found
          exact ⟨few, small⟩
        · intro header len asked
          rw [allocated, read] at asked
          cases asked
          exact small
  · intro n small rest
    obtain ⟨terminated, value⟩ := encodeRemAux_digits n n (Nat.le_refl _)
    have few : (encodeRem n).length ≤ 4 := length_encodeRemAux_le 3 n n (Nat.lt_succ_of_le small)
    have read := decodeLength_terminated terminated word few rest
    rw [value] at read
    exact read

/-- The smallest length of four bytes. -/
theorem remaining_length_four : Bounded 64 [0x80, 0x80, 0x80, 1] ∧
    decodeLength 64 ([0x80, 0x80, 0x80, 1] ++ [7]) = ⟨some (2097152, [7]), 4, false⟩ := by
  obtain ⟨bounded, inverse⟩ := remaining_length_iff 64 (.inr rfl) [0x80, 0x80, 0x80, 1]
  exact ⟨bounded.mpr (.inl ⟨1, by decide, by decide⟩), inverse 2097152 (by decide) [7]⟩

/-- Five length bytes ask for a buffer of 268435456. -/
theorem remaining_length_unbounded :
    ¬∀ (bits : Nat), bits = 32 ∨ bits = 64 → ∀ stream, Bounded bits stream := by
  intro claim
  have bounded := claim 64 (.inr rfl) [0x80, 0x80, 0x80, 0x80, 1]
  have four := (bounded.value 268435456 [] (by decide +kernel)).1
  exact absurd four (by decide +kernel)

end MioBroker.Threaded
