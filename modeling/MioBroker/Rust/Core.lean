import Mathlib.Data.List.Forall2
import MioBroker.Rust.Utf8

/-!
# Panics, slices, strings and fixed-width integers

A computation that may abort the process lives in `Run`; an ordinary `Result`
is a value inside it.
-/
namespace Rust

/-- The ways a safe program dies. -/
inductive Panic
  | unwrapNone
  | indexOutOfBounds
  | sliceOutOfRange
  /-- a `Vec` of more than `isize::MAX` bytes -/
  | capacityOverflow
  deriving DecidableEq, Repr

abbrev Run := Except Panic

abbrev Bytes := List UInt8

def Run.unwrap {α : Type} : Option α → Run α
  | some a => .ok a
  | none => .error .unwrapNone

/-- `v[i]` -/
def Run.index {α : Type} (v : List α) (i : Nat) : Run α :=
  match v[i]? with
  | some a => .ok a
  | none => .error .indexOutOfBounds

/-- `v[lo..hi]` -/
def Run.slice {α : Type} (v : List α) (lo hi : Nat) : Run (List α) :=
  if lo ≤ hi ∧ hi ≤ v.length then .ok ((v.take hi).drop lo) else .error .sliceOutOfRange

/-- `Vec::swap_remove` at a valid index: the last element fills the hole. -/
def swapRemove {α : Type} (v : List α) (i : Nat) : List α :=
  match v.getLast? with
  | some last => (v.set i last).dropLast
  | none => []

/-- `u16::from_be_bytes` -/
def u16FromBe (hi lo : UInt8) : UInt16 := UInt16.ofNat (hi.toNat * 256 + lo.toNat)

/-- `u16::to_be_bytes` -/
def u16ToBe (v : UInt16) : Bytes := [UInt8.ofNat (v.toNat / 256), UInt8.ofNat v.toNat]

/-- `u16::from_le_bytes` -/
def u16FromLe (lo hi : UInt8) : UInt16 := UInt16.ofNat (hi.toNat * 256 + lo.toNat)

/-- `u16::to_le_bytes` -/
def u16ToLe (v : UInt16) : Bytes := [UInt8.ofNat v.toNat, UInt8.ofNat (v.toNat / 256)]

/-- `String`: its bytes are well-formed UTF-8. -/
structure Str where
  bytes : Bytes
  valid : Utf8.validate bytes = true

namespace Str

theorem ext {s t : Str} (same : s.bytes = t.bytes) : s = t := by
  cases s
  cases t
  simp_all

instance : DecidableEq Str := fun s t =>
  decidable_of_iff (s.bytes = t.bytes) ⟨ext, congrArg bytes⟩

def empty : Str := ⟨[], rfl⟩

instance : Inhabited Str := ⟨empty⟩

/-- `str::len`, in bytes -/
def length (s : Str) : Nat := s.bytes.length

/-- `str::is_empty` -/
def isEmpty (s : Str) : Bool := s.bytes.isEmpty

/-- `String::from_utf8_lossy` -/
def fromUtf8Lossy (bs : Bytes) : Str := ⟨Utf8.lossy bs, Utf8.validate_lossy bs⟩

@[simp] theorem fromUtf8Lossy_bytes (s : Str) : fromUtf8Lossy s.bytes = s :=
  ext (Utf8.lossy_of_validate s.bytes s.valid)

theorem length_le_fromUtf8Lossy (bs : Bytes) : bs.length ≤ (fromUtf8Lossy bs).length :=
  Utf8.length_le_lossy bs

end Str

@[simp] theorem Run.unwrap_some {α : Type} (a : α) : Run.unwrap (some a) = .ok a := rfl

@[simp] theorem Run.unwrap_none {α : Type} :
    Run.unwrap (none : Option α) = .error .unwrapNone := rfl

theorem Run.unwrap_ok {α : Type} {o : Option α} {a : α} (done : Run.unwrap o = .ok a) :
    o = some a := by
  cases o with
  | none => cases done
  | some b =>
    cases done
    rfl

theorem Run.index_of_lt {α : Type} (v : List α) (i : Nat) (h : i < v.length) :
    Run.index v i = .ok v[i] := by
  simp [Run.index, h]

theorem Run.slice_of_le {α : Type} (v : List α) (lo hi : Nat) (h : lo ≤ hi) (h' : hi ≤ v.length) :
    Run.slice v lo hi = .ok ((v.take hi).drop lo) := by
  simp [Run.slice, h, h']

/-- A successful sequence of two computations is a success of each. -/
theorem Run.bind_ok {α β : Type} {x : Run α} {f : α → Run β} {r : β} :
    (x >>= f) = .ok r ↔ ∃ a, x = .ok a ∧ f a = .ok r := by
  cases x with
  | error e => simp [bind, Except.bind]
  | ok a => simp [bind, Except.bind]

@[simp] theorem Run.ok_bind {α β : Type} (a : α) (f : α → Run β) :
    ((Except.ok a : Run α) >>= f) = f a := rfl

@[simp] theorem Run.error_bind {α β : Type} (e : Panic) (f : α → Run β) :
    ((Except.error e : Run α) >>= f) = .error e := rfl

@[simp] theorem Run.pure_eq {α : Type} (a : α) : (pure a : Run α) = .ok a := rfl

/-- A loop that collects succeeds exactly when every round does. -/
theorem Run.mapM_ok {α β : Type} {f : α → Run β} {l : List α} {r : List β} :
    l.mapM f = .ok r ↔ List.Forall₂ (fun a b => f a = .ok b) l r := by
  induction l generalizing r with
  | nil =>
    rw [List.mapM_nil, List.forall₂_nil_left_iff]
    exact ⟨fun same => (Except.ok.inj same).symm, fun same => same ▸ rfl⟩
  | cons a l ih =>
    rw [List.mapM_cons, Run.bind_ok, List.forall₂_cons_left_iff]
    constructor
    · rintro ⟨b, first, done⟩
      obtain ⟨bs, rest, done⟩ := Run.bind_ok.mp done
      cases done
      exact ⟨b, bs, first, ih.mp rest, rfl⟩
    · rintro ⟨b, bs, first, rest, rfl⟩
      exact ⟨b, first, Run.bind_ok.mpr ⟨bs, ih.mpr rest, rfl⟩⟩

/-- The first results of `mapM` come from the first items. -/
theorem Run.mem_take_mapM {α β : Type} {f : α → Run β} {l : List α} {r : List β}
    (done : l.mapM f = .ok r) {n : Nat} {b : β} (member : b ∈ r.take n) :
    ∃ a ∈ l.take n, f a = .ok b := by
  have pairs := List.forall₂_take n (mapM_ok.mp done)
  generalize l.take n = first at pairs
  generalize r.take n = results at pairs member
  induction pairs with
  | nil => simp at member
  | cons pair rest ih =>
    rcases List.mem_cons.mp member with rfl | later
    · exact ⟨_, List.mem_cons_self, pair⟩
    · obtain ⟨a, inside, same⟩ := ih later
      exact ⟨a, List.mem_cons_of_mem _ inside, same⟩

/-- The computation aborts the process. -/
def Run.Panics {α : Type} (x : Run α) : Prop := ∃ e, x = .error e

@[simp] theorem Run.panics_ok {α : Type} (a : α) : ¬Run.Panics (.ok a) := by
  rintro ⟨e, same⟩
  cases same

@[simp] theorem Run.panics_error {α : Type} (e : Panic) : Run.Panics (.error e : Run α) := ⟨e, rfl⟩

theorem Run.panics_bind {α β : Type} (x : Run α) (f : α → Run β) :
    Run.Panics (x >>= f) ↔ Run.Panics x ∨ ∃ a, x = .ok a ∧ Run.Panics (f a) := by
  cases x with
  | error e => simp
  | ok a => simp

theorem Run.not_panics_iff {α : Type} (x : Run α) : ¬Run.Panics x ↔ ∃ a, x = .ok a := by
  cases x with
  | error e => simp
  | ok a => simp

@[simp] theorem toNat_u16FromBe (hi lo : UInt8) :
    (u16FromBe hi lo).toNat = hi.toNat * 256 + lo.toNat := by
  have hi_lt := hi.toNat_lt
  have lo_lt := lo.toNat_lt
  rw [u16FromBe, UInt16.toNat_ofNat']
  omega

@[simp] theorem u16FromBe_toBe (v : UInt16) :
    u16FromBe (UInt8.ofNat (v.toNat / 256)) (UInt8.ofNat v.toNat) = v := by
  have bound := v.toNat_lt
  apply UInt16.toNat_inj.mp
  rw [toNat_u16FromBe, UInt8.toNat_ofNat', UInt8.toNat_ofNat']
  omega

@[simp] theorem u16FromLe_toLe (v : UInt16) :
    u16FromLe (UInt8.ofNat v.toNat) (UInt8.ofNat (v.toNat / 256)) = v := u16FromBe_toBe v

@[simp] theorem length_u16ToBe (v : UInt16) : (u16ToBe v).length = 2 := rfl

@[simp] theorem length_u16ToLe (v : UInt16) : (u16ToLe v).length = 2 := rfl

/-- `swap_remove` drops the element at `i` and nothing else. -/
theorem swapRemove_perm {α : Type} (v : List α) (i : Nat) (h : i < v.length) :
    (v[i] :: swapRemove v i).Perm v := by
  obtain ⟨front, last, rfl⟩ : ∃ front last, v = front ++ [last] :=
    ⟨v.dropLast, v.getLast (List.ne_nil_of_length_pos (by omega)), (List.dropLast_append_getLast _).symm⟩
  have last_eq : swapRemove (front ++ [last]) i = ((front ++ [last]).set i last).dropLast := by
    simp [swapRemove]
  rw [last_eq]
  by_cases inner : i < front.length
  · rw [List.set_append_left _ _ inner, List.dropLast_concat, List.getElem_append_left inner]
    have split : front = front.take i ++ front[i] :: front.drop (i + 1) := by simp
    have moved : front.set i last = front.take i ++ last :: front.drop (i + 1) :=
      List.set_eq_take_append_cons_drop.trans (if_pos inner)
    rw [moved]
    calc front[i] :: (front.take i ++ last :: front.drop (i + 1))
        _ |>.Perm (front[i] :: last :: (front.take i ++ front.drop (i + 1))) :=
          (List.perm_middle).cons _
        _ |>.Perm (last :: (front.take i ++ front[i] :: front.drop (i + 1))) :=
          (List.Perm.swap _ _ _).trans ((List.perm_middle.symm).cons _)
        _ |>.Perm (front ++ [last]) := by
          rw [← split]
          exact (List.perm_append_singleton _ _).symm
  · have at_end : i = front.length := by simp at h; omega
    subst at_end
    simp only [List.getElem_concat_length, List.set_append_right _ _ (Nat.le_refl _),
      Nat.sub_self, List.set_cons_zero, List.dropLast_concat]
    exact (List.perm_append_singleton _ _).symm

/-- Indices below the removed one keep their elements. -/
theorem getElem?_swapRemove_lt {α : Type} (v : List α) (i j : Nat) (h : i < v.length) (lt : j < i) :
    (swapRemove v i)[j]? = v[j]? := by
  have nonempty : v ≠ [] := List.ne_nil_of_length_pos (by omega)
  rw [swapRemove, List.getLast?_eq_some_getLast nonempty]
  simp only [List.getElem?_dropLast, List.length_set]
  rw [if_pos (by omega), List.getElem?_set_ne (by omega)]

theorem length_swapRemove {α : Type} (v : List α) (i : Nat) (h : i < v.length) :
    (swapRemove v i).length = v.length - 1 := by
  have whole := (swapRemove_perm v i h).length_eq
  simp only [List.length_cons] at whole
  omega

end Rust
