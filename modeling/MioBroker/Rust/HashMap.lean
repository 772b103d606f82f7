import Mathlib.Algebra.GroupWithZero.Nat
import Mathlib.Data.List.AList
import Mathlib.Data.List.Perm.Basic

/-!
# Hash maps with an unspecified iteration order

A hash map is a finite map together with the hasher that decides in which order
its keys are visited. Nothing is known about that order except that it visits
every key once, so whatever is proved of an iteration holds for every hasher.
-/
namespace Rust

/-- The hasher of one map: a key list is visited in some permuted order. -/
structure RandomState (K : Type) where
  visit : List K → List K
  perm : ∀ keys, (visit keys).Perm keys

instance {K : Type} : Inhabited (RandomState K) := ⟨⟨id, fun _ => .refl _⟩⟩

structure HashMap (K V : Type) where
  table : AList (fun _ : K => V)
  hasher : RandomState K

namespace HashMap

variable {K V : Type} [DecidableEq K]

def new (hasher : RandomState K) : HashMap K V := ⟨∅, hasher⟩

instance : Inhabited (HashMap K V) := ⟨new default⟩

def get? (m : HashMap K V) (k : K) : Option V := m.table.lookup k

def insert (m : HashMap K V) (k : K) (v : V) : HashMap K V :=
  { m with table := m.table.insert k v }

def erase (m : HashMap K V) (k : K) : HashMap K V :=
  { m with table := m.table.erase k }

def contains (m : HashMap K V) (k : K) : Bool := (m.get? k).isSome

def size (m : HashMap K V) : Nat := m.table.keys.length

def isEmpty (m : HashMap K V) : Bool := m.size == 0

/-- Every entry once, in the hasher's order. -/
def iter (m : HashMap K V) : List (K × V) :=
  (m.hasher.visit m.table.keys).filterMap fun k => (m.get? k).map fun v => (k, v)

def keys (m : HashMap K V) : List K := m.iter.map Prod.fst

/-- Two maps with the same entries; the hashers may differ. -/
def Equiv (m n : HashMap K V) : Prop := ∀ k, m.get? k = n.get? k

@[simp] theorem get?_new (hasher : RandomState K) (k : K) :
    (new hasher : HashMap K V).get? k = none := rfl

@[simp] theorem get?_insert_self (m : HashMap K V) (k : K) (v : V) :
    (m.insert k v).get? k = some v := AList.lookup_insert _

theorem get?_insert_ne (m : HashMap K V) {k k' : K} (v : V) (ne : k' ≠ k) :
    (m.insert k v).get? k' = m.get? k' := AList.lookup_insert_ne ne

@[simp] theorem insert_insert (m : HashMap K V) (k : K) (v w : V) :
    (m.insert k v).insert k w = m.insert k w := by
  simp [insert, AList.insert_insert]

theorem get?_insert (m : HashMap K V) (k k' : K) (v : V) :
    (m.insert k v).get? k' = if k' = k then some v else m.get? k' := by
  by_cases same : k' = k
  · subst same
    simp
  · simp [get?_insert_ne, same]

@[simp] theorem get?_erase_self (m : HashMap K V) (k : K) : (m.erase k).get? k = none :=
  AList.lookup_erase _ _

theorem get?_erase_ne (m : HashMap K V) {k k' : K} (ne : k' ≠ k) :
    (m.erase k).get? k' = m.get? k' := AList.lookup_erase_ne ne

theorem get?_erase (m : HashMap K V) (k k' : K) :
    (m.erase k).get? k' = if k' = k then none else m.get? k' := by
  by_cases same : k' = k
  · subst same
    simp
  · simp [get?_erase_ne, same]

/-- What holds of every entry and of a new one holds after the insertion. -/
theorem forall_insert {m : HashMap K V} {P : K → V → Prop}
    (all : ∀ k v, m.get? k = some v → P k v) {k : K} {v : V} (new : P k v) :
    ∀ k' v', (m.insert k v).get? k' = some v' → P k' v' := by
  intro k' v' found
  rw [get?_insert] at found
  split at found
  next same =>
    cases found
    exact same ▸ new
  next => exact all k' v' found

theorem forall_erase {m : HashMap K V} {P : K → V → Prop}
    (all : ∀ k v, m.get? k = some v → P k v) (k : K) :
    ∀ k' v', (m.erase k).get? k' = some v' → P k' v' := by
  intro k' v' found
  rw [get?_erase] at found
  split at found
  · cases found
  · exact all k' v' found

@[simp] theorem contains_new (hasher : RandomState K) (k : K) :
    (new hasher : HashMap K V).contains k = false := rfl

theorem contains_iff (m : HashMap K V) (k : K) : m.contains k = true ↔ ∃ v, m.get? k = some v := by
  simp [contains, Option.isSome_iff_exists]

theorem contains_eq_false (m : HashMap K V) (k : K) :
    m.contains k = false ↔ m.get? k = none := by
  simp [contains]

theorem mem_keys_table (m : HashMap K V) (k : K) :
    k ∈ m.table.keys ↔ ∃ v, m.get? k = some v := by
  rw [← AList.mem_keys, ← AList.lookup_isSome, Option.isSome_iff_exists]
  rfl

/-- Iteration visits exactly the entries of the map. -/
theorem mem_iter (m : HashMap K V) (k : K) (v : V) : (k, v) ∈ m.iter ↔ m.get? k = some v := by
  simp only [iter, List.mem_filterMap, Option.map_eq_some_iff, Prod.mk.injEq]
  constructor
  · rintro ⟨a, _, w, found, rfl, rfl⟩
    exact found
  · intro found
    refine ⟨k, ?_, v, found, rfl, rfl⟩
    exact (m.hasher.perm _).mem_iff.mpr ((m.mem_keys_table k).mpr ⟨v, found⟩)

omit [DecidableEq K] in
private theorem filterMap_keys (f : K → Option V) (ks : List K)
    (all : ∀ k ∈ ks, ∃ v, f k = some v) :
    (ks.filterMap fun k => (f k).map fun v => (k, v)).map Prod.fst = ks := by
  induction ks with
  | nil => rfl
  | cons k ks ih =>
    obtain ⟨v, found⟩ := all k (by simp)
    simp [found, ih (fun k' member => all k' (by simp [member]))]

theorem keys_eq_visit (m : HashMap K V) : m.keys = m.hasher.visit m.table.keys :=
  filterMap_keys m.get? _ fun k member =>
    (m.mem_keys_table k).mp ((m.hasher.perm _).mem_iff.mp member)

theorem nodup_keys (m : HashMap K V) : m.keys.Nodup := by
  rw [keys_eq_visit]
  exact (m.hasher.perm _).nodup_iff.mpr m.table.keys_nodup

theorem mem_keys (m : HashMap K V) (k : K) : k ∈ m.keys ↔ ∃ v, m.get? k = some v := by
  rw [keys_eq_visit, (m.hasher.perm _).mem_iff, mem_keys_table]

theorem length_iter (m : HashMap K V) : m.iter.length = m.size := by
  have same : m.iter.length = m.keys.length := by simp [keys]
  rw [same, keys_eq_visit, (m.hasher.perm _).length_eq, size]

theorem length_keys (m : HashMap K V) : m.keys.length = m.size := by
  rw [← length_iter]
  simp [keys]

omit [DecidableEq K] in
@[simp] theorem size_new (hasher : RandomState K) : (new hasher : HashMap K V).size = 0 := rfl

theorem size_insert_new (m : HashMap K V) (k : K) (v : V) (fresh : m.get? k = none) :
    (m.insert k v).size = m.size + 1 := by
  have absent : k ∉ m.table.keys := by
    rw [mem_keys_table]
    simp [fresh]
  simp only [size, insert, AList.keys_insert, List.erase_of_not_mem absent, List.length_cons]

theorem size_insert_old (m : HashMap K V) (k : K) (v w : V) (found : m.get? k = some w) :
    (m.insert k v).size = m.size := by
  have member : k ∈ m.table.keys := (m.mem_keys_table k).mpr ⟨w, found⟩
  have positive : 0 < m.table.keys.length := List.length_pos_of_mem member
  simp only [size, insert, AList.keys_insert, List.length_cons, List.length_erase_of_mem member]
  omega

/-- A map has no more entries than one with all its keys. -/
theorem size_le_of_keys {W : Type} {m : HashMap K V} {n : HashMap K W}
    (all : ∀ k v, m.get? k = some v → ∃ w, n.get? k = some w) : m.size ≤ n.size := by
  rw [← length_keys, ← length_keys]
  refine (List.subperm_of_subset m.nodup_keys fun k member => ?_).length_le
  obtain ⟨v, found⟩ := (m.mem_keys k).mp member
  exact (n.mem_keys k).mpr (all k v found)

/-- A map in which a new key must find room stays within its bound. -/
theorem size_insert_le {m : HashMap K V} {k : K} {n : Nat} (v : V) (small : m.size ≤ n)
    (room : m.contains k = false → m.size < n) : (m.insert k v).size ≤ n := by
  cases found : m.get? k with
  | none =>
    rw [size_insert_new _ _ _ found]
    exact room ((contains_eq_false m k).mpr found)
  | some w =>
    rw [size_insert_old _ _ _ _ found]
    exact small

theorem size_erase_le (m : HashMap K V) (k : K) : (m.erase k).size ≤ m.size := by
  simp only [size, erase, AList.keys_erase]
  exact List.length_erase_le

/-! ### Sums over the entries -/

/-- The sum of `f` over all entries. -/
def sum (m : HashMap K V) (f : K → V → Nat) : Nat := (m.iter.map fun e => f e.1 e.2).sum

theorem nodup_iter (m : HashMap K V) : m.iter.Nodup := .of_map Prod.fst m.nodup_keys

/-- What one slot contributes to a sum. -/
def share (m : HashMap K V) (f : K → V → Nat) (k : K) : Nat := ((m.get? k).map (f k)).getD 0

theorem share_some {m : HashMap K V} {k : K} {v : V} (found : m.get? k = some v) (f : K → V → Nat) :
    m.share f k = f k v := by
  rw [share, found]
  rfl

theorem share_none {m : HashMap K V} {k : K} (absent : m.get? k = none) (f : K → V → Nat) :
    m.share f k = 0 := by
  rw [share, absent]
  rfl

theorem sum_erase (m : HashMap K V) (k : K) (f : K → V → Nat) :
    (m.erase k).sum f + m.share f k = m.sum f := by
  cases found : m.get? k with
  | none =>
    have same : (m.erase k).iter.Perm m.iter := by
      refine (List.perm_ext_iff_of_nodup (nodup_iter _) (nodup_iter _)).mpr fun e => ?_
      obtain ⟨a, v⟩ := e
      rw [mem_iter, mem_iter, get?_erase]
      split
      next same => simp [same, found]
      next => rfl
    rw [share_none found, sum, (same.map _).sum_nat]
    rfl
  | some w =>
    have split : m.iter.Perm ((k, w) :: (m.erase k).iter) := by
      refine (List.perm_ext_iff_of_nodup (nodup_iter _) ?_).mpr fun e => ?_
      · refine List.nodup_cons.mpr ⟨fun member => ?_, nodup_iter _⟩
        rw [mem_iter, get?_erase_self] at member
        cases member
      · obtain ⟨a, v⟩ := e
        rw [List.mem_cons, mem_iter, mem_iter, get?_erase]
        split
        next same => simp [same, found, eq_comm]
        next other => simp [other]
    rw [share_some found, sum, sum, (split.map _).sum_nat]
    simp [Nat.add_comm]

theorem sum_insert (m : HashMap K V) (k : K) (v : V) (f : K → V → Nat) :
    (m.insert k v).sum f + m.share f k = m.sum f + f k v := by
  have again : ((m.insert k v).erase k).sum f = (m.erase k).sum f := by
    have same : ((m.insert k v).erase k).iter.Perm (m.erase k).iter := by
      refine (List.perm_ext_iff_of_nodup (nodup_iter _) (nodup_iter _)).mpr fun e => ?_
      obtain ⟨a, w⟩ := e
      rw [mem_iter, mem_iter, get?_erase, get?_erase]
      split
      · rfl
      next other => rw [get?_insert_ne _ _ other]
    exact (same.map _).sum_nat
  have with_v := (m.insert k v).sum_erase k f
  rw [share_some (get?_insert_self m k v), again] at with_v
  have without := m.sum_erase k f
  omega

theorem sum_eq_zero (m : HashMap K V) (f : K → V → Nat) (all : ∀ k v, m.get? k = some v → f k v = 0) :
    m.sum f = 0 := by
  rw [sum, List.sum_eq_zero_iff_forall_eq_nat]
  intro n member
  obtain ⟨⟨k, v⟩, there, rfl⟩ := List.mem_map.mp member
  exact all k v ((m.mem_iter k v).mp there)

/-- A sum to which one slot alone contributes. -/
theorem sum_eq_single (m : HashMap K V) (f : K → V → Nat) (k : K)
    (others : ∀ k' v, k' ≠ k → m.get? k' = some v → f k' v = 0) : m.sum f = m.share f k := by
  rw [← m.sum_erase k f, sum_eq_zero, Nat.zero_add]
  intro k' v found
  rw [get?_erase] at found
  split at found
  · cases found
  next other => exact others k' v other found

theorem isEmpty_iff (m : HashMap K V) : m.isEmpty = true ↔ ∀ k, m.get? k = none := by
  simp only [isEmpty, size, beq_iff_eq, List.length_eq_zero_iff]
  constructor
  · intro none_left k
    cases found : m.get? k with
    | none => rfl
    | some v =>
      have member := (m.mem_keys_table k).mpr ⟨v, found⟩
      simp [none_left] at member
  · intro all
    apply List.eq_nil_iff_forall_not_mem.mpr
    intro k member
    obtain ⟨v, found⟩ := (m.mem_keys_table k).mp member
    simp [all k] at found

end HashMap
end Rust
