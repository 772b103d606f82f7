import MioBroker.Parsing

/-!
# Where the fields of a body lie

Reads of a body whose layout is known, and what a successful read says about the layout.
-/
namespace MioBroker

open Rust

/-- A length-prefixed field. -/
def field (bs : Bytes) : Bytes := u16ToBe (.ofNat bs.length) ++ bs

section Layout

variable {body : Bytes} (front back : Bytes) {i : Nat}

theorem u16At_layout {v : UInt16} (layout : body = front ++ (u16ToBe v ++ back))
    (at_i : i = front.length) : u16At body i = .ok v := by
  subst layout at_i
  have hi : (front ++ (u16ToBe v ++ back))[front.length]? = some (UInt8.ofNat (v.toNat / 256)) := by
    simp [u16ToBe]
  have lo : (front ++ (u16ToBe v ++ back))[front.length + 1]? = some (UInt8.ofNat v.toNat) := by
    rw [List.getElem?_append_right (by omega)]
    simp [u16ToBe]
  simp only [u16At, Run.index, hi, lo, Run.ok_bind, Run.pure_eq]
  exact congrArg Except.ok (u16FromBe_toBe v)

theorem index_layout {x : UInt8} (layout : body = front ++ (x :: back)) (at_i : i = front.length) :
    Run.index body i = .ok x := by
  subst layout at_i
  simp [Run.index]

theorem slice_layout {mid : Bytes} {j : Nat} (layout : body = front ++ (mid ++ back))
    (at_i : i = front.length) (at_j : j = front.length + mid.length) :
    Run.slice body i j = .ok mid := by
  subst layout at_i at_j
  rw [Run.slice_of_le _ _ _ (by omega) (by simp), List.take_length_add_append,
    List.drop_left, List.take_left]

theorem length_field (bs : Bytes) : (field bs).length = 2 + bs.length := by
  simp [field, Nat.add_comm]

/-- A field: its length prefix, and what that announces. -/
theorem field_layout {bs : Bytes} (layout : body = front ++ (field bs ++ back))
    (at_i : i = front.length) (short : bs.length < 65536) :
    ∃ len, u16At body i = .ok len ∧ len.toNat = bs.length ∧
      Run.slice body (i + 2) (i + 2 + bs.length) = .ok bs := by
  subst at_i
  refine ⟨.ofNat bs.length, ?_, ?_, ?_⟩
  · refine u16At_layout front (bs ++ back) (layout.trans ?_) rfl
    rw [field, List.append_assoc]
  · rw [UInt16.toNat_ofNat']
    exact Nat.mod_eq_of_lt short
  · refine slice_layout (front ++ u16ToBe (.ofNat bs.length)) back (layout.trans ?_) ?_ ?_
    · rw [field, List.append_assoc, List.append_assoc]
    · simp
    · simp

end Layout

/-! ### From reads to the layout -/

@[simp] theorem u16ToBe_fromBe (hi lo : UInt8) : u16ToBe (u16FromBe hi lo) = [hi, lo] := by
  have hi_lt := hi.toNat_lt
  have lo_lt := lo.toNat_lt
  have first : UInt8.ofNat ((hi.toNat * 256 + lo.toNat) / 256) = hi := by
    rw [← UInt8.toNat_inj, UInt8.toNat_ofNat']
    omega
  have second : UInt8.ofNat (hi.toNat * 256 + lo.toNat) = lo := by
    rw [← UInt8.toNat_inj, UInt8.toNat_ofNat']
    omega
  rw [u16ToBe, toNat_u16FromBe, first, second]

section Drop

variable {body : Bytes} {i : Nat}

theorem index_drop {x : UInt8} (read : Run.index body i = .ok x) :
    body.drop i = x :: body.drop (i + 1) := by
  simp only [Run.index] at read
  split at read
  next y found =>
    cases read
    obtain ⟨inside, rfl⟩ := List.getElem?_eq_some_iff.mp found
    exact List.drop_eq_getElem_cons inside
  next => cases read

theorem u16At_drop {v : UInt16} (read : u16At body i = .ok v) :
    body.drop i = u16ToBe v ++ body.drop (i + 2) := by
  obtain ⟨hi, first, read⟩ := Run.bind_ok.mp read
  obtain ⟨lo, second, read⟩ := Run.bind_ok.mp read
  cases read
  rw [index_drop first, index_drop second, u16ToBe_fromBe]
  rfl

theorem slice_drop {j : Nat} {mid : Bytes} (read : Run.slice body i j = .ok mid) :
    body.drop i = mid ++ body.drop j ∧ i + mid.length = j ∧ j ≤ body.length := by
  simp only [Run.slice] at read
  split at read
  next inside =>
    cases read
    have length : ((body.take j).drop i).length = j - i := by
      rw [List.length_drop, List.length_take_of_le inside.2]
    refine ⟨?_, by omega, inside.2⟩
    calc body.drop i
        _ = (body.take j ++ body.drop j).drop i := by rw [List.take_append_drop]
        _ = (body.take j).drop i ++ body.drop j := by
          rw [List.drop_append_of_le_length]
          rw [List.length_take_of_le inside.2]
          exact inside.1
  next => cases read

/-- A length and as many bytes are a field. -/
theorem field_drop {len : UInt16} {bs : Bytes} (read : u16At body i = .ok len)
    (whole : Run.slice body (i + 2) (i + 2 + len.toNat) = .ok bs) :
    body.drop i = field bs ++ body.drop (i + 2 + len.toNat) ∧ bs.length = len.toNat := by
  obtain ⟨cut, length, -⟩ := slice_drop whole
  have length : bs.length = len.toNat := by omega
  refine ⟨?_, length⟩
  rw [u16At_drop read, cut, field, length, UInt16.ofNat_toNat, List.append_assoc]

/-- A layout seen from the position reached. -/
theorem layout_of_drop {mid back : Bytes} (layout : body.drop i = mid ++ back) (nonempty : mid ≠ []) :
    body = body.take i ++ (mid ++ back) ∧ i = (body.take i).length := by
  have inside : i ≤ body.length := by
    by_contra outside
    rw [List.drop_of_length_le (by omega)] at layout
    exact nonempty (List.append_eq_nil_iff.mp layout.symm).1
  exact ⟨by rw [← layout, List.take_append_drop], (List.length_take_of_le inside).symm⟩

/-- What is read off the front of a body is read off the body. -/
theorem index_of_take {k : Nat} {x : UInt8} (read : Run.index (body.take k) i = .ok x) :
    Run.index body i = .ok x := by
  simp only [Run.index] at read ⊢
  split at read
  next y found =>
    cases read
    rw [List.getElem?_take] at found
    split at found
    · rw [found]
    · cases found
  next => cases read

theorem u16At_of_take {k : Nat} {v : UInt16} (read : u16At (body.take k) i = .ok v) :
    u16At body i = .ok v := by
  obtain ⟨hi, first, read⟩ := Run.bind_ok.mp read
  obtain ⟨lo, second, read⟩ := Run.bind_ok.mp read
  rw [u16At, index_of_take first, Run.ok_bind, index_of_take second, Run.ok_bind]
  exact read

end Drop
end MioBroker
