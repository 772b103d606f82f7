import Mathlib.Data.List.Basic
import Mathlib.Tactic.Common

/-!
# UTF-8 validation and lossy decoding

A byte string is read chunk by chunk. A chunk is either one well-formed scalar
value or a maximal ill-formed prefix; lossy decoding keeps the former and puts
the encoding of U+FFFD in place of the latter.
-/
namespace Rust.Utf8

abbrev Bytes := List UInt8

def isCont (b : UInt8) : Bool := b &&& 192 == 128

/-- Length announced by a lead byte; 0 for a byte that starts no scalar. -/
def charWidth (b : UInt8) : Nat :=
  if b < 0x80 then 1
  else if b < 0xC2 then 0
  else if b < 0xE0 then 2
  else if b < 0xF0 then 3
  else if b < 0xF5 then 4
  else 0

/-- Second byte of a three-byte scalar: no overlong forms, no surrogates. -/
def second3 (b0 b1 : UInt8) : Bool :=
  if b0 == 0xE0 then 0xA0 ≤ b1 && b1 ≤ 0xBF
  else if b0 == 0xED then 0x80 ≤ b1 && b1 ≤ 0x9F
  else 0x80 ≤ b1 && b1 ≤ 0xBF

/-- Second byte of a four-byte scalar: no overlong forms, nothing above U+10FFFF. -/
def second4 (b0 b1 : UInt8) : Bool :=
  if b0 == 0xF0 then 0x90 ≤ b1 && b1 ≤ 0xBF
  else if b0 == 0xF4 then 0x80 ≤ b1 && b1 ≤ 0x8F
  else 0x80 ≤ b1 && b1 ≤ 0xBF

/-- Bytes taken by the chunk at the head, and whether it is well formed. -/
def chunk : Bytes → Nat × Bool
  | [] => (0, false)
  | b0 :: rest =>
    match charWidth b0, rest with
    | 1, _ => (1, true)
    | 2, b1 :: _ => if isCont b1 then (2, true) else (1, false)
    | 3, b1 :: b2 :: _ =>
      if second3 b0 b1 then if isCont b2 then (3, true) else (2, false) else (1, false)
    | 3, [b1] => if second3 b0 b1 then (2, false) else (1, false)
    | 4, b1 :: b2 :: b3 :: _ =>
      if second4 b0 b1 then
        if isCont b2 then if isCont b3 then (4, true) else (3, false) else (2, false)
      else (1, false)
    | 4, [b1, b2] => if second4 b0 b1 then if isCont b2 then (3, false) else (2, false) else (1, false)
    | 4, [b1] => if second4 b0 b1 then (2, false) else (1, false)
    | _, _ => (1, false)

/-- The encoding of U+FFFD. -/
def replacement : Bytes := [0xEF, 0xBF, 0xBD]

def validateAux : Nat → Bytes → Bool
  | _, [] => true
  | 0, _ :: _ => false
  | n + 1, b :: bs =>
    (chunk (b :: bs)).2 && validateAux n ((b :: bs).drop (chunk (b :: bs)).1)

def validate (bs : Bytes) : Bool := validateAux bs.length bs

def lossyAux : Nat → Bytes → Bytes
  | _, [] => []
  | 0, _ :: _ => []
  | n + 1, b :: bs =>
    (if (chunk (b :: bs)).2 then (b :: bs).take (chunk (b :: bs)).1 else replacement) ++
      lossyAux n ((b :: bs).drop (chunk (b :: bs)).1)

def lossy (bs : Bytes) : Bytes := lossyAux bs.length bs

/-- A chunk is never empty and never longer than what is left. -/
theorem chunk_bounds (b : UInt8) (bs : Bytes) :
    1 ≤ (chunk (b :: bs)).1 ∧ (chunk (b :: bs)).1 ≤ (b :: bs).length := by
  simp only [chunk]
  split <;> (repeat' split) <;> simp

/-- A well-formed chunk is recognised whatever follows it. -/
theorem chunk_append (bs rest : Bytes) (k : Nat) (ok : chunk bs = (k, true)) :
    chunk (bs.take k ++ rest) = (k, true) := by
  cases bs with
  | nil => simp [chunk] at ok
  | cons b bs =>
    simp only [chunk] at ok
    split at ok <;> (repeat' split at ok) <;> simp_all [chunk] <;> (obtain ⟨rfl⟩ := ok; simp_all)

theorem chunk_replacement (rest : Bytes) : chunk (replacement ++ rest) = (3, true) := by
  have second : second3 0xEF 0xBF = true := by decide
  have third : isCont 0xBD = true := by decide
  have width : charWidth 0xEF = 3 := by decide
  simp only [replacement, List.cons_append, List.nil_append, chunk, width, second, third, ite_true]

/-- Reading on after a chunk needs strictly less fuel. -/
private theorem drop_chunk_length (b : UInt8) (bs : Bytes) :
    ((b :: bs).drop (chunk (b :: bs)).1).length ≤ bs.length := by
  have bounds := chunk_bounds b bs
  simp only [List.length_drop, List.length_cons] at *
  omega

theorem validateAux_fuel (n m : Nat) (bs : Bytes) (hn : bs.length ≤ n) (hm : bs.length ≤ m) :
    validateAux n bs = validateAux m bs := by
  induction n generalizing m bs with
  | zero =>
    cases bs with
    | nil => simp [validateAux]
    | cons b bs => simp at hn
  | succ n ih =>
    cases bs with
    | nil => simp [validateAux]
    | cons b bs =>
      cases m with
      | zero => simp at hm
      | succ m =>
        have short := drop_chunk_length b bs
        simp only [List.length_cons] at hn hm
        simp only [validateAux]
        rw [ih m _ (Nat.le_trans short (by omega)) (Nat.le_trans short (by omega))]

/-- A well-formed chunk in front decides nothing about the rest. -/
theorem validate_chunk_append (bs rest : Bytes) (k : Nat) (ok : chunk bs = (k, true))
    (exact : bs.length = k) : validate (bs ++ rest) = validate rest := by
  cases bs with
  | nil => simp [chunk] at ok
  | cons b bs =>
    have whole : (b :: bs).take k = b :: bs := List.take_of_length_le (by omega)
    have front : chunk (b :: bs ++ rest) = (k, true) := by
      simpa [whole] using chunk_append (b :: bs) rest k ok
    simp only [List.cons_append] at front
    simp only [validate, List.cons_append, List.length_cons, validateAux, front, Bool.true_and]
    have after : (b :: (bs ++ rest)).drop k = rest := by
      rw [← List.cons_append, List.drop_append_of_le_length (by omega),
        List.drop_of_length_le (by omega), List.nil_append]
    rw [after]
    simp only [List.length_cons] at exact
    exact validateAux_fuel _ _ _ (by simp) (Nat.le_refl _)

private theorem lossy_validAux (n : Nat) (bs : Bytes) : validate (lossyAux n bs) = true := by
  induction n generalizing bs with
  | zero => cases bs <;> simp [lossyAux, validate, validateAux]
  | succ n ih =>
    cases bs with
    | nil => simp [lossyAux, validate, validateAux]
    | cons b bs =>
      have bounds := chunk_bounds b bs
      simp only [lossyAux]
      split
      next ok =>
        have read : chunk (b :: bs) = ((chunk (b :: bs)).1, true) := by rw [← ok]
        have kept := chunk_append (b :: bs) [] _ read
        rw [List.append_nil] at kept
        rw [validate_chunk_append _ _ _ kept (by rw [List.length_take]; omega)]
        exact ih _
      next =>
        rw [validate_chunk_append _ _ 3 (by simpa using chunk_replacement []) rfl]
        exact ih _

/-- Lossy decoding always yields well-formed text. -/
theorem validate_lossy (bs : Bytes) : validate (lossy bs) = true := lossy_validAux _ _

private theorem lossyAux_valid (n : Nat) (bs : Bytes) (enough : bs.length ≤ n)
    (valid : validateAux n bs = true) : lossyAux n bs = bs := by
  induction n generalizing bs with
  | zero =>
    cases bs with
    | nil => simp [lossyAux]
    | cons b bs => simp at enough
  | succ n ih =>
    cases bs with
    | nil => simp [lossyAux]
    | cons b bs =>
      have short := drop_chunk_length b bs
      simp only [validateAux, Bool.and_eq_true] at valid
      simp only [List.length_cons] at enough
      simp only [lossyAux]
      rw [if_pos valid.1, ih _ (by omega) valid.2, List.take_append_drop]

/-- Well-formed text is decoded to itself. -/
theorem lossy_of_validate (bs : Bytes) (valid : validate bs = true) : lossy bs = bs :=
  lossyAux_valid _ bs (Nat.le_refl _) valid

private theorem chunk_bad_short (b : UInt8) (bs : Bytes) (bad : ¬(chunk (b :: bs)).2 = true) :
    (chunk (b :: bs)).1 ≤ 3 := by
  revert bad
  simp only [chunk]
  split <;> (repeat' split) <;> simp

private theorem length_lossyAux (n : Nat) (bs : Bytes) (enough : bs.length ≤ n) :
    bs.length ≤ (lossyAux n bs).length := by
  induction n generalizing bs with
  | zero => exact Nat.le_trans enough (Nat.zero_le _)
  | succ n ih =>
    cases bs with
    | nil => simp
    | cons b bs =>
      have bounds := chunk_bounds b bs
      have short := drop_chunk_length b bs
      simp only [List.length_cons] at enough
      have rest := ih ((b :: bs).drop (chunk (b :: bs)).1) (by omega)
      simp only [List.length_drop] at rest
      simp only [lossyAux, List.length_append]
      split
      next => rw [List.length_take]; omega
      next bad =>
        have few := chunk_bad_short b bs bad
        simp only [replacement, List.length_cons, List.length_nil] at *
        omega

/-- Decoding never shortens: an ill-formed chunk has at most three bytes. -/
theorem length_le_lossy (bs : Bytes) : bs.length ≤ (lossy bs).length :=
  length_lossyAux _ bs (Nat.le_refl _)

end Rust.Utf8
