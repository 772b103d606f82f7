import Mathlib.Data.List.Forall2
import Mathlib.Data.List.Induction
import Mathlib.Data.List.Nodup
import MioBroker.TrieFacts

/-!
# Matching, level by level

`topic_matches` walks filter and topic together. Said without the walk: the levels in front of
the first `#` are admitted one by one, and without a `#` nothing may be left over. The trie is an
exact index for this relation: whatever was inserted, a walk finds the matching filters, each
once.
-/
namespace MioBroker

open Rust

/-- A filter level admits the topic level at its place. -/
def Admits (f t : Level) : Prop := f = plusLevel ∨ f = t

instance (f t : Level) : Decidable (Admits f t) := inferInstanceAs (Decidable (_ ∨ _))

theorem matchLevels_cons (f t : Level) (fs ts : List Level) (plain : f ≠ hashLevel) :
    matchLevels (f :: fs) (t :: ts) = true ↔ Admits f t ∧ matchLevels fs ts = true := by
  simp only [matchLevels, plain, if_false, Admits]
  by_cases isPlus : f = plusLevel
  · simp [isPlus]
  · by_cases same : f = t <;> simp [isPlus, same]

/-- Without `#` every level is needed, on both sides. -/
theorem matchLevels_plain (fs ts : List Level) (plain : hashLevel ∉ fs) :
    matchLevels fs ts = true ↔ List.Forall₂ Admits fs ts := by
  induction fs generalizing ts with
  | nil => cases ts <;> simp [matchLevels]
  | cons f fs ih =>
    have here : f ≠ hashLevel := fun same => plain (by simp [same])
    have later : hashLevel ∉ fs := fun member => plain (by simp [member])
    cases ts with
    | nil => simp [matchLevels, here]
    | cons t ts => rw [matchLevels_cons f t fs ts here, ih ts later, List.forall₂_cons]

/-- What stands behind a `#` is not looked at, in the filter and in the topic. -/
theorem matchLevels_hash (front behind ts : List Level) (plain : hashLevel ∉ front) :
    matchLevels (front ++ hashLevel :: behind) ts = true ↔
      front.length ≤ ts.length ∧ List.Forall₂ Admits front (ts.take front.length) := by
  induction front generalizing ts with
  | nil => simp [matchLevels]
  | cons f fs ih =>
    have here : f ≠ hashLevel := fun same => plain (by simp [same])
    have later : hashLevel ∉ fs := fun member => plain (by simp [member])
    cases ts with
    -- the topic ends in front of the `#`: only here may both be used up together
    | nil => simp [matchLevels, here]
    | cons t ts =>
      rw [List.cons_append, matchLevels_cons f t _ ts here, ih ts later, List.length_cons,
        List.take_succ_cons, List.forall₂_cons, List.length_cons, Nat.succ_le_succ_iff]
      exact and_left_comm

/-- `Forall₂` by positions. -/
theorem forall₂_admits (fs ts : List Level) :
    List.Forall₂ Admits fs ts ↔
      fs.length = ts.length ∧
      ∀ (i : Nat) (f t : Level), fs[i]? = some f → ts[i]? = some t → f = plusLevel ∨ f = t := by
  rw [List.forall₂_iff_get]
  refine and_congr_right fun _ => ⟨fun each i f t filter topic => ?_, fun each i inside inside' => ?_⟩
  · obtain ⟨inside, rfl⟩ := List.getElem?_eq_some_iff.mp filter
    obtain ⟨inside', rfl⟩ := List.getElem?_eq_some_iff.mp topic
    exact each i inside inside'
  · exact each i _ _ (List.getElem?_eq_getElem inside) (List.getElem?_eq_getElem inside')

theorem contains_wild (filter : Str) :
    isWildFilter filter = false ↔ 43 ∉ filter.bytes ∧ 35 ∉ filter.bytes := by
  simp [isWildFilter, List.contains_eq_mem]

/-- `topic_matches` is the level-wise relation. Without a `#` level both sides have the same
number of levels and every filter level is `+` or the topic level at its position; with the first
`#` at position `k` the same is asked of the first `k` levels only, which the topic must have. A
filter without wildcard characters matches the topic equal to it. -/
theorem topicMatches_levelwise (filter topic : Str) :
    (hashLevel ∉ levels filter →
      (topicMatches filter topic = true ↔
        (levels filter).length = (levels topic).length ∧
        ∀ (i : Nat) (f t : Level), (levels filter)[i]? = some f → (levels topic)[i]? = some t →
          f = plusLevel ∨ f = t)) ∧
    (∀ k, (levels filter)[k]? = some hashLevel →
      (∀ i < k, (levels filter)[i]? ≠ some hashLevel) →
      (topicMatches filter topic = true ↔
        k ≤ (levels topic).length ∧
        ∀ (i : Nat) (f t : Level), i < k → (levels filter)[i]? = some f → (levels topic)[i]? = some t →
          f = plusLevel ∨ f = t)) ∧
    (43 ∉ filter.bytes → 35 ∉ filter.bytes →
      (topicMatches filter topic = true ↔ topic = filter)) := by
  refine ⟨fun plain => ?_, fun k hash first => ?_, fun noPlus noHash => ?_⟩
  · rw [topicMatches, matchLevels_plain _ _ plain, forall₂_admits]
  · obtain ⟨inside, here⟩ := List.getElem?_eq_some_iff.mp hash
    -- The first `#` cuts the filter in two, and nothing behind it is looked at.
    have parts : levels filter =
        (levels filter).take k ++ hashLevel :: (levels filter).drop (k + 1) := by
      rw [← here, List.getElem_cons_drop, List.take_append_drop]
    have front : ((levels filter).take k).length = k := by
      rw [List.length_take]
      omega
    -- The levels before it hold no `#`.
    have plain : hashLevel ∉ (levels filter).take k := by
      intro member
      obtain ⟨i, below, same⟩ := List.mem_take_iff_getElem.mp member
      exact first i (by omega) (by rw [List.getElem?_eq_getElem (by omega), same])
    rw [topicMatches, parts, matchLevels_hash _ _ _ plain, front, forall₂_admits, ← parts]
    refine and_congr_right fun enough => ?_
    have sameLength : ((levels filter).take k).length = ((levels topic).take k).length := by
      simp only [List.length_take]
      omega
    simp only [sameLength, true_and, List.getElem?_take]
    refine forall_congr' fun i => forall_congr' fun f => forall_congr' fun t => ?_
    by_cases below : i < k <;> simp [below]
  · rw [topicMatches_exact filter topic ((contains_wild filter).mpr ⟨noPlus, noHash⟩)]
    exact eq_comm

/-- `a/#` also matches its parent `a`. -/
example : topicMatches ⟨[97, 47, 35], by decide⟩ ⟨[97], by decide⟩ = true := by decide

/-! ### The trie -/

/-- A trie after a sequence of `insert` calls. -/
def Trie.build (entries : List (Nat × Str)) : Trie :=
  entries.foldl (fun trie entry => trie.insert entry.1 (levels entry.2)) .new

/-- What a walk appends is a permutation of the matching indices in insertion order. -/
theorem Trie.gather_build (entries : List (Nat × Str)) (topic : Str) :
    ((Trie.build entries).root.gather (levels topic)).Perm
      ((entries.filter fun entry => topicMatches entry.2 topic).map Prod.fst) := by
  induction entries using List.reverseRecOn with
  | nil => simp [build, new]
  | append_singleton entries entry ih =>
    have step : (build (entries ++ [entry])).root =
        (build entries).root.insert entry.1 (levels entry.2) := by
      simp [build, Trie.insert]
    rw [step, List.filter_append, List.map_append]
    refine (TrieNode.gather_insert _ _ _ _).trans (List.perm_append_comm.trans (ih.append ?_))
    rw [← topicMatches]
    cases matching : topicMatches entry.2 topic <;> simp [matching]

/-- The trie is exact and free of duplicates: after any insertions under distinct indices a walk
appends each index at most once, and exactly those whose filter matches the topic; the counter
grows by their number. -/
theorem trie_exact (entries : List (Nat × Str)) (distinct : (entries.map Prod.fst).Nodup)
    (topic : Str) (out : List Nat) (calls : Nat) :
    ∃ found, (Trie.build entries).collect topic (out, calls) =
        (out ++ found, calls + found.length) ∧
      found.Nodup ∧
      (∀ i, i ∈ found → ∃ filter, (i, filter) ∈ entries) ∧
      ∀ i filter, (i, filter) ∈ entries → (i ∈ found ↔ topicMatches filter topic = true) := by
  have perm := Trie.gather_build entries topic
  refine ⟨_, Trie.collect_eq _ _ _, ?_, fun i member => ?_, fun i filter stored => ?_⟩
  · exact perm.nodup_iff.mpr (distinct.sublist (List.filter_sublist.map _))
  · obtain ⟨entry, kept, rfl⟩ := List.mem_map.mp (perm.mem_iff.mp member)
    exact ⟨entry.2, (List.mem_filter.mp kept).1⟩
  · rw [perm.mem_iff]
    constructor
    · intro member
      obtain ⟨entry, kept, same⟩ := List.mem_map.mp member
      obtain ⟨stored', matching⟩ := List.mem_filter.mp kept
      -- the index has one filter only
      have one : entry = (i, filter) := List.inj_on_of_nodup_map distinct stored' stored same
      rw [one] at matching
      exact matching
    · intro matching
      exact List.mem_map.mpr ⟨(i, filter), List.mem_filter.mpr ⟨stored, matching⟩, rfl⟩

/-- The filters `+/b` and `a/#` under the indices 7 and 2, in this order. -/
theorem trie_exact_two :
    ∃ found,
      (Trie.build [(7, ⟨[43, 47, 98], by decide⟩), (2, ⟨[97, 47, 35], by decide⟩)]).collect
        ⟨[97, 47, 98], by decide⟩ ([], 0) = ([] ++ found, 0 + found.length) ∧
      found.Nodup ∧ 7 ∈ found ∧ 2 ∈ found := by
  obtain ⟨found, same, nodup, -, exact⟩ :=
    trie_exact [(7, ⟨[43, 47, 98], by decide⟩), (2, ⟨[97, 47, 35], by decide⟩)] (by decide)
      ⟨[97, 47, 98], by decide⟩ [] 0
  exact ⟨found, same, nodup, (exact 7 _ (.head _)).mpr (by decide),
    (exact 2 _ (.tail _ (.head _))).mpr (by decide)⟩

end MioBroker
