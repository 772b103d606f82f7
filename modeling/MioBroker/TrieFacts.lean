import Mathlib.Data.List.Count
import MioBroker.Topic

/-!
# The trie is an exact index

Every filter has one place in the trie, its storage key; insertion appends to the bucket of
that key and changes no other. A walk collects, up to order, exactly the indices whose filter
matches the topic.
-/
namespace MioBroker

open Rust

theorem hashLevel_ne_plusLevel : hashLevel ≠ plusLevel := by decide

/-- The levels in front of the first `#`, and whether there is a `#`. -/
def storeKey : List Level → List Level × Bool
  | [] => ([], false)
  | lvl :: rest =>
    if lvl = hashLevel then ([], true) else (lvl :: (storeKey rest).1, (storeKey rest).2)

namespace TrieNode

/-- The index list in which `insert` keeps a filter with these levels. -/
def bucket : List Level → TrieNode → List Nat
  | [], node => node.ends
  | lvl :: rest, node =>
    if lvl = hashLevel then node.hashSubs
    else if lvl = plusLevel then
      match node.plus with
      | some plus => bucket rest plus
      | none => []
    else
      match node.child lvl with
      | some child => bucket rest child
      | none => []

/-- What `collect_node` appends, as a value. -/
def gather : TrieNode → List Level → List Nat
  | node, [] => node.hashSubs ++ node.ends
  | node, t :: ts =>
    node.hashSubs ++ gather (node.plus.getD empty) ts ++ gather ((node.child t).getD empty) ts

@[simp] theorem bucket_empty (ls : List Level) : bucket ls empty = [] := by
  cases ls with
  | nil => rfl
  | cons lvl rest =>
    simp only [bucket, empty, hashSubs, plus, child, children, List.lookup_nil]
    split
    · rfl
    · split <;> rfl

@[simp] theorem gather_empty (ts : List Level) : gather empty ts = [] := by
  induction ts with
  | nil => rfl
  | cons t ts ih => simp [gather, ih, show empty.plus = none from rfl,
      show empty.child t = none from rfl, show empty.hashSubs = [] from rfl]

/-- The walk appends what `gather` yields and counts it. -/
theorem collectNode_eq (node : TrieNode) (ts : List Level) (out : List Nat) (calls : Nat) :
    node.collectNode ts (out, calls) =
      (out ++ node.gather ts, calls + (node.gather ts).length) := by
  induction ts generalizing node out calls with
  | nil => simp [collectNode, gather, Nat.add_assoc]
  | cons t ts ih =>
    simp only [collectNode, gather]
    cases node.plus with
    | none =>
      cases node.child t with
      | none => simp
      | some child => simp [ih, Nat.add_assoc]
    | some plus =>
      cases node.child t with
      | none => simp [ih, Nat.add_assoc]
      | some child => simp [ih, Nat.add_assoc]

theorem lookup_filter_ne (c : List (Level × TrieNode)) (lvl t : Level) (ne : t ≠ lvl) :
    (c.filter fun entry => entry.1 != lvl).lookup t = c.lookup t := by
  induction c with
  | nil => rfl
  | cons entry c ih =>
    obtain ⟨k, node⟩ := entry
    by_cases same : k = lvl
    · subst same
      have other : (t == k) = false := by simpa using ne
      simp [List.lookup_cons, other, ih]
    · have kept : (k != lvl) = true := by simpa using same
      simp [List.lookup_cons, kept, ih]

/-- `children.insert` replaces the entry of its key. -/
theorem lookup_setChild (c : List (Level × TrieNode)) (lvl t : Level) (node : TrieNode) :
    (setChild c lvl node).lookup t = if t = lvl then some node else c.lookup t := by
  simp only [setChild, List.lookup_cons]
  by_cases same : t = lvl
  · simp [same]
  · have other : (t == lvl) = false := by simpa using same
    simp only [other, same, if_false]
    exact lookup_filter_ne c lvl t same

/-- Insertion appends to the bucket of its storage key and to no other. -/
theorem bucket_insert (idx : Nat) (ls ks : List Level) (node : TrieNode) :
    bucket ks (node.insert idx ls) =
      if storeKey ks = storeKey ls then bucket ks node ++ [idx] else bucket ks node := by
  induction ls generalizing ks node with
  | nil =>
    cases node with | mk c p e h =>
    cases ks with
    | nil => simp [insert, bucket, ends]
    | cons k ks =>
      have differ : storeKey (k :: ks) ≠ storeKey [] := by
        simp only [storeKey]
        split <;> simp
      rw [if_neg differ]
      simp only [insert, bucket, hashSubs, plus, child, children]
  | cons lvl rest ih =>
    cases node with | mk c p e h =>
    -- `#` ends the path, `+` has a child of its own, and other levels are looked up.
    by_cases hash : lvl = hashLevel
    · cases ks with
      | nil => simp [insert, hash, bucket, storeKey, ends]
      | cons k ks =>
        by_cases khash : k = hashLevel
        · simp [insert, hash, bucket, storeKey, khash, hashSubs]
        · simp [insert, hash, bucket, storeKey, khash, plus, child, children]
    · by_cases isPlus : lvl = plusLevel
      · cases ks with
        | nil => simp [insert, isPlus, bucket, storeKey, ends, hashLevel_ne_plusLevel.symm]
        | cons k ks =>
          by_cases khash : k = hashLevel
          · simp [insert, isPlus, bucket, storeKey, khash, hashSubs, hashLevel_ne_plusLevel.symm]
          · by_cases kplus : k = plusLevel
            · have same := ih ks (p.getD empty)
              cases p with
              | none =>
                simpa [insert, isPlus, bucket, storeKey, kplus, plus,
                  hashLevel_ne_plusLevel.symm, Prod.ext_iff] using same
              | some p =>
                simpa [insert, isPlus, bucket, storeKey, kplus, plus,
                  hashLevel_ne_plusLevel.symm, Prod.ext_iff] using same
            · simp [insert, isPlus, bucket, storeKey, khash, kplus, child, children,
                hashLevel_ne_plusLevel.symm]
      · cases ks with
        | nil => simp [insert, hash, isPlus, bucket, storeKey, ends]
        | cons k ks =>
          by_cases khash : k = hashLevel
          · simp [insert, hash, isPlus, bucket, storeKey, khash, hashSubs]
          · by_cases kplus : k = plusLevel
            · have differ : plusLevel ≠ lvl := fun same => isPlus same.symm
              simp [insert, hash, isPlus, bucket, storeKey, kplus, plus, differ,
                hashLevel_ne_plusLevel.symm]
            · simp only [insert, hash, isPlus, if_false, bucket, khash, kplus, child, children,
                lookup_setChild, storeKey]
              by_cases same : k = lvl
              · subst same
                have below := ih ks ((c.lookup k).getD empty)
                simp only [if_true, Prod.mk.injEq, List.cons.injEq, true_and]
                rw [below]
                cases c.lookup k with
                | none => simp [Prod.ext_iff]
                | some child => simp [Prod.ext_iff]
              · simp [same]

/-- Collecting after an insertion yields the new index exactly when its filter matches. -/
theorem gather_insert (idx : Nat) (ls ts : List Level) (node : TrieNode) :
    ((node.insert idx ls).gather ts).Perm
      ((if matchLevels ls ts then [idx] else []) ++ node.gather ts) := by
  induction ls generalizing ts node with
  | nil =>
    cases node with | mk c p e h =>
    cases ts with
    | nil =>
      simp only [insert, gather, hashSubs, ends, matchLevels, List.isEmpty_nil, if_true]
      rw [← List.append_assoc]
      exact List.perm_append_singleton _ _
    | cons t ts =>
      simp [insert, gather, hashSubs, plus, child, children, matchLevels]
  | cons lvl rest ih =>
    cases node with | mk c p e h =>
    by_cases hash : lvl = hashLevel
    · cases ts with
      | nil => simp [insert, hash, gather, hashSubs, ends, matchLevels]
      | cons t ts => simp [insert, hash, gather, hashSubs, plus, child, children, matchLevels]
    · by_cases isPlus : lvl = plusLevel
      · cases ts with
        | nil => simp [insert, isPlus, gather, hashSubs, ends, matchLevels, hashLevel_ne_plusLevel.symm]
        | cons t ts =>
          -- Counting each index turns the permutation into arithmetic.
          have below := List.perm_iff_count.mp (ih ts (p.getD empty))
          apply List.perm_iff_count.mpr
          intro a
          have here := below a
          simp only [List.count_append] at here
          simp only [insert, isPlus, hashLevel_ne_plusLevel.symm, if_false, if_true, gather,
            hashSubs, plus, child, children, matchLevels, ne_eq, not_true_eq_false, false_and,
            Option.getD_some, List.count_append]
          omega
      · cases ts with
        | nil => simp [insert, hash, isPlus, gather, hashSubs, ends, matchLevels]
        | cons t ts =>
          simp only [insert, hash, isPlus, if_false, gather, hashSubs, plus, child, children,
            lookup_setChild, matchLevels, ne_eq, not_false_eq_true, true_and]
          by_cases same : t = lvl
          · subst same
            have below := List.perm_iff_count.mp (ih ts ((c.lookup t).getD empty))
            apply List.perm_iff_count.mpr
            intro a
            have here := below a
            simp only [List.count_append] at here
            simp only [if_true, not_true_eq_false, if_false, Option.getD_some, List.count_append]
            omega
          · have differ : ¬lvl = t := fun eq => same eq.symm
            simp [same, differ]

end TrieNode

theorem Trie.collect_eq (trie : Trie) (topic : Str) (acc : List Nat × Nat) :
    trie.collect topic acc =
      (acc.1 ++ trie.root.gather (levels topic),
        acc.2 + (trie.root.gather (levels topic)).length) :=
  TrieNode.collectNode_eq _ _ _ _

/-! ### Filters without wildcards -/

theorem mem_intercalate (sep : Bytes) (parts : List Bytes) (part : Bytes) (member : part ∈ parts)
    (x : UInt8) (inside : x ∈ part) : x ∈ sep.intercalate parts := by
  induction parts with
  | nil => simp at member
  | cons first rest ih =>
    cases rest with
    | nil => simp_all
    | cons second rest =>
      rw [List.intercalate_cons_cons]
      rcases List.mem_cons.mp member with rfl | later
      · simp [inside]
      · simp [ih later]

theorem intercalate_levels (s : Str) : List.intercalate [47] (levels s) = s.bytes :=
  List.intercalate_splitOn 47

/-- A level contains only bytes of the string it was split from. -/
theorem mem_of_mem_levels (s : Str) (lvl : Level) (member : lvl ∈ levels s) (x : UInt8)
    (inside : x ∈ lvl) : x ∈ s.bytes := by
  rw [← intercalate_levels s]
  exact mem_intercalate _ _ lvl member x inside

theorem levels_injective (s t : Str) (same : levels s = levels t) : s = t := by
  apply Str.ext
  rw [← intercalate_levels s, ← intercalate_levels t, same]

theorem matchLevels_exact (fs ts : List Level) (plain : ∀ f ∈ fs, f ≠ hashLevel ∧ f ≠ plusLevel) :
    matchLevels fs ts = true ↔ fs = ts := by
  induction fs generalizing ts with
  | nil => cases ts <;> simp [matchLevels]
  | cons f fs ih =>
    have here := plain f (by simp)
    cases ts with
    | nil => simp [matchLevels, here.1]
    | cons t ts =>
      by_cases same : f = t
      · subst same
        simp [matchLevels, here.1, ih ts (fun g member => plain g (by simp [member]))]
      · simp [matchLevels, here.1, here.2, same]

/-- A filter without `+` and `#` matches the topic equal to it and no other. -/
theorem topicMatches_exact (filter topic : Str) (plain : isWildFilter filter = false) :
    topicMatches filter topic = true ↔ filter = topic := by
  simp only [isWildFilter, Bool.or_eq_false_iff, List.contains_eq_mem, decide_eq_false_iff_not] at plain
  have levels_plain : ∀ f ∈ levels filter, f ≠ hashLevel ∧ f ≠ plusLevel := by
    intro f member
    constructor
    · rintro rfl
      exact plain.2 (mem_of_mem_levels filter _ member 35 (by simp [hashLevel]))
    · rintro rfl
      exact plain.1 (mem_of_mem_levels filter _ member 43 (by simp [plusLevel]))
  rw [topicMatches, matchLevels_exact _ _ levels_plain]
  exact ⟨levels_injective filter topic, fun same => by rw [same]⟩

end MioBroker
