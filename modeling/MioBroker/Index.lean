import Mathlib.Data.List.Induction
import Mathlib.Data.List.Sort
import MioBroker.TrieFacts
import MioBroker.Broker

/-!
# The two-tier index is a view of `subs`

`subs` is the source of truth; the exact map and the trie only cache positions in it. Every
bucket of either tier is the list of positions it would be computed as from scratch, and the
candidates of a topic are exactly the positions a scan of `subs` finds.
-/
namespace MioBroker

open Rust

/-- The positions of a list whose elements satisfy `p`, in ascending order. -/
def positions {α : Type} (p : α → Bool) (l : List α) : List Nat :=
  (l.zipIdx.filter fun e => p e.1).map Prod.snd

section Positions

variable {α : Type}

@[simp] theorem positions_nil (p : α → Bool) : positions p [] = [] := rfl

theorem positions_concat (p : α → Bool) (l : List α) (a : α) :
    positions p (l ++ [a]) = positions p l ++ if p a then [l.length] else [] := by
  simp only [positions, List.zipIdx_append, List.filter_append, List.map_append,
    List.zipIdx_singleton, Nat.zero_add]
  congr 1
  by_cases holds : p a = true
  · simp [holds]
  · simp [holds]

theorem mem_positions (p : α → Bool) (l : List α) (i : Nat) :
    i ∈ positions p l ↔ ∃ a, l[i]? = some a ∧ p a = true := by
  simp [positions, List.mk_mem_zipIdx_iff_getElem?]

theorem nodup_positions (p : α → Bool) (l : List α) : (positions p l).Nodup := by
  have all : (l.zipIdx.map Prod.snd).Nodup := by
    rw [List.zipIdx_map_snd]
    exact List.nodup_range'
  exact all.sublist (List.filter_sublist.map _)

theorem sorted_positions (p : α → Bool) (l : List α) : (positions p l).Pairwise (· < ·) := by
  have all : (l.zipIdx.map Prod.snd).Pairwise (· < ·) := by
    rw [List.zipIdx_map_snd]
    exact List.pairwise_lt_range'
  exact all.sublist (List.filter_sublist.map _)

/-- Looking the positions up again gives the elements. -/
theorem filterMap_positions {β : Type} (p : α → Bool) (f : α → Option β) (l : List α) :
    (positions p l).filterMap (fun i => l[i]?.bind f) = (l.filter p).filterMap f := by
  induction l using List.reverseRec with
  | nil => rfl
  | append_singleton l a ih =>
    rw [positions_concat, List.filterMap_append, List.filter_append, List.filterMap_append, ← ih]
    congr 1
    · apply List.filterMap_congr
      intro i member
      obtain ⟨b, found, -⟩ := (mem_positions p l i).mp member
      rw [List.getElem?_append_left (List.getElem?_eq_some_iff.mp found).1]
    · by_cases holds : p a = true
      · simp [holds, List.filterMap_cons]
      · simp [holds]

end Positions

/-- The entries of the exact tier under one filter. -/
def exactBucket (exact : HashMap Str (List Nat)) (filter : Str) : List Nat :=
  (exact.get? filter).getD []

/-- Subscriptions kept in the exact tier under `filter`. -/
def inExact (filter : Str) (s : Subscription) : Bool :=
  !isWildFilter s.filter && s.filter = filter

/-- Subscriptions kept in the trie where `ls` leads to. -/
def inTrie (ls : List Level) (s : Subscription) : Bool :=
  isWildFilter s.filter && storeKey (levels s.filter) = storeKey ls

/-- Wildcard subscriptions that match a topic given by its levels. -/
def trieMatch (ts : List Level) (s : Subscription) : Bool :=
  isWildFilter s.filter && matchLevels (levels s.filter) ts

/-- The two tiers index exactly the list `subs`. -/
structure Indexes (subs : List Subscription) (exact : HashMap Str (List Nat)) (wild : Trie) :
    Prop where
  exactBuckets : ∀ filter, exactBucket exact filter = positions (inExact filter) subs
  trieBuckets : ∀ ls, wild.root.bucket ls = positions (inTrie ls) subs
  gathered : ∀ ts, (wild.root.gather ts).Perm (positions (trieMatch ts) subs)

theorem Indexes.empty (hasher : RandomState Str) : Indexes [] (.new hasher) .new where
  exactBuckets _ := rfl
  trieBuckets ls := TrieNode.bucket_empty ls
  gathered ts := by simp [Trie.new]

namespace Broker

/-- The index of a broker agrees with its subscriptions. -/
def Indexed (b : Broker) : Prop := Indexes b.subs b.subsExact b.subsWild

/-- Indexing the next position extends the indexed list by it. -/
theorem indexes_indexSub (b : Broker) (subs : List Subscription) (s : Subscription)
    (before : Indexes subs b.subsExact b.subsWild) :
    Indexes (subs ++ [s]) (b.indexSub subs.length s.filter).subsExact
      (b.indexSub subs.length s.filter).subsWild := by
  by_cases wild : isWildFilter s.filter = true
  · simp only [indexSub, if_pos wild]
    constructor
    · intro filter
      rw [positions_concat, before.exactBuckets]
      simp [inExact, wild]
    · intro ls
      rw [positions_concat, Trie.insert, TrieNode.bucket_insert, before.trieBuckets]
      by_cases same : storeKey ls = storeKey (levels s.filter)
      · simp [inTrie, wild, same]
      · have differ : storeKey (levels s.filter) ≠ storeKey ls := fun eq => same eq.symm
        simp [inTrie, same, differ]
    · intro ts
      rw [positions_concat, Trie.insert]
      refine (TrieNode.gather_insert _ _ _ _).trans ?_
      refine List.perm_append_comm.trans ((before.gathered ts).append ?_)
      simp [trieMatch, wild]
  · simp only [indexSub, if_neg wild]
    simp only [Bool.not_eq_true] at wild
    constructor
    · intro filter
      rw [positions_concat, ← before.exactBuckets]
      simp only [exactBucket, HashMap.get?_insert]
      by_cases same : filter = s.filter
      · simp [inExact, wild, same]
      · have differ : s.filter ≠ filter := fun eq => same eq.symm
        simp [inExact, same, differ]
    · intro ls
      rw [positions_concat, before.trieBuckets]
      simp [inTrie, wild]
    · intro ts
      rw [positions_concat]
      simpa [trieMatch, wild] using before.gathered ts

theorem subs_indexSub (b : Broker) (idx : Nat) (filter : Str) :
    b.indexSub idx filter =
      { b with
        subsExact := (b.indexSub idx filter).subsExact
        subsWild := (b.indexSub idx filter).subsWild } := by
  simp only [indexSub]
  split <;> rfl

theorem indexed_addSub (b : Broker) (filter : Str) (token : Token) (qos : UInt8)
    (indexed : b.Indexed) : (b.addSub filter token qos).Indexed := by
  rw [Indexed, addSub, subs_indexSub]
  exact indexes_indexSub { b with subs := b.subs ++ [⟨filter, token, qos⟩] } b.subs
    ⟨filter, token, qos⟩ indexed

/-- `rebuild_index` touches the two tiers only. -/
theorem rebuildLoop_frame (rest : List Subscription) (idx : Nat) (b : Broker) :
    rebuildLoop rest idx b =
      { b with
        subsExact := (rebuildLoop rest idx b).subsExact
        subsWild := (rebuildLoop rest idx b).subsWild } := by
  induction rest generalizing idx b with
  | nil => rfl
  | cons s rest ih =>
    rw [rebuildLoop, ih]
    simp only
    rw [subs_indexSub]

theorem rebuildIndex_frame (b : Broker) :
    b.rebuildIndex = { b with
      subsExact := b.rebuildIndex.subsExact
      subsWild := b.rebuildIndex.subsWild } := by
  rw [rebuildIndex, rebuildLoop_frame]

private theorem indexes_rebuildLoop (rest done : List Subscription) (b : Broker)
    (before : Indexes done b.subsExact b.subsWild) :
    Indexes (done ++ rest) (rebuildLoop rest done.length b).subsExact
      (rebuildLoop rest done.length b).subsWild := by
  induction rest generalizing done b with
  | nil => simpa [rebuildLoop] using before
  | cons s rest ih =>
    have extended := ih (done ++ [s]) _ (indexes_indexSub b done s before)
    simpa [rebuildLoop] using extended

/-- A rebuild repairs the index whatever it was before. -/
theorem indexed_rebuildIndex (b : Broker) : b.rebuildIndex.Indexed := by
  rw [Indexed, rebuildIndex_frame]
  exact indexes_rebuildLoop b.subs [] _ (Indexes.empty _)

/-! ### Candidates -/

/-- Whether a subscription matches a topic. -/
def matching (topic : Str) (s : Subscription) : Bool := topicMatches s.filter topic

private theorem matching_tiers (topic : Str) (s : Subscription) :
    matching topic s = (inExact topic s || trieMatch (levels topic) s) := by
  cases wild : isWildFilter s.filter with
  | true => simp [matching, inExact, trieMatch, wild, topicMatches]
  | false =>
    have exact_match := topicMatches_exact s.filter topic wild
    cases same : matching topic s with
    | true =>
      rw [exact_match.mp same] at wild
      simp [inExact, wild, exact_match.mp same]
    | false =>
      have differ : s.filter ≠ topic := fun eq => by simp [matching, exact_match.mpr eq] at same
      simp [inExact, trieMatch, wild, differ]

/-- The two tiers together yield every matching position once. -/
theorem candidates_perm (b : Broker) (indexed : b.Indexed) (topic : Str) :
    (b.candidates topic).Perm (positions (matching topic) b.subs) := by
  have both : (b.candidates topic).Perm
      (positions (inExact topic) b.subs ++ positions (trieMatch (levels topic)) b.subs) := by
    simp only [candidates, Trie.collect_eq]
    rw [← indexed.exactBuckets topic]
    exact (List.Perm.refl _).append (indexed.gathered _)
  refine both.trans ?_
  apply (List.perm_ext_iff_of_nodup _ (nodup_positions _ _)).mpr
  · intro i
    simp only [List.mem_append, mem_positions, matching_tiers, Bool.or_eq_true]
    constructor
    · rintro (⟨s, found, holds⟩ | ⟨s, found, holds⟩)
      · exact ⟨s, found, .inl holds⟩
      · exact ⟨s, found, .inr holds⟩
    · rintro ⟨s, found, holds | holds⟩
      · exact .inl ⟨s, found, holds⟩
      · exact .inr ⟨s, found, holds⟩
  · apply List.nodup_append'.mpr
    refine ⟨nodup_positions _ _, nodup_positions _ _, ?_⟩
    intro i left right
    obtain ⟨s, found, exact_tier⟩ := (mem_positions _ _ _).mp left
    obtain ⟨s', found', trie_tier⟩ := (mem_positions _ _ _).mp right
    cases found.symm.trans found'
    simp only [inExact, trieMatch, Bool.and_eq_true, Bool.not_eq_true'] at exact_tier trie_tier
    simp [exact_tier.1] at trie_tier

/-- The `retain` of `publish` never indexes out of bounds when its candidates do not. -/
theorem retainMatching_ok (subs : List Subscription) (topic : Str) (idxs : List Nat)
    (inside : ∀ i ∈ idxs, i < subs.length) :
    retainMatching subs topic idxs =
      .ok (idxs.filter fun i => (subs[i]?).any (matching topic)) := by
  induction idxs with
  | nil => rfl
  | cons i rest ih =>
    have lt := inside i (by simp)
    rw [retainMatching, Run.index_of_lt subs i lt, Run.ok_bind,
      ih fun j member => inside j (by simp [member]), Run.ok_bind, Run.pure_eq]
    simp only [List.filter_cons, List.getElem?_eq_getElem lt, Option.any_some, matching]

/-- What `publish` keeps of its candidates is what a scan of `subs` finds. -/
theorem retainMatching_candidates (b : Broker) (indexed : b.Indexed) (topic : Str) :
    ∃ idxs, retainMatching b.subs topic (b.candidates topic) = .ok idxs ∧
      idxs.Perm (positions (matching topic) b.subs) := by
  have perm := b.candidates_perm indexed topic
  refine ⟨_, retainMatching_ok b.subs topic _ ?_, ?_⟩
  · intro i member
    obtain ⟨s, found, -⟩ := (mem_positions _ _ _).mp (perm.mem_iff.mp member)
    exact (List.getElem?_eq_some_iff.mp found).1
  · rw [List.filter_eq_self.mpr]
    · exact perm
    · intro i member
      obtain ⟨s, found, holds⟩ := (mem_positions _ _ _).mp (perm.mem_iff.mp member)
      simp [found, holds]

/-- The delivery order: matching positions, highest first. -/
theorem sorted_candidates (b : Broker) (indexed : b.Indexed) (topic : Str) :
    ∃ idxs, retainMatching b.subs topic (b.candidates topic) = .ok idxs ∧
      idxs.insertionSort (· ≥ ·) = (positions (matching topic) b.subs).reverse := by
  obtain ⟨idxs, done, perm⟩ := b.retainMatching_candidates indexed topic
  have descending : (positions (matching topic) b.subs).reverse.Pairwise (· ≥ ·) := by
    rw [List.pairwise_reverse]
    exact (sorted_positions _ _).imp Nat.le_of_lt
  refine ⟨idxs, done, List.Perm.eq_of_pairwise ?_ (List.pairwise_insertionSort _ _) descending ?_⟩
  · intro i j _ _ ge le
    exact Nat.le_antisymm le ge
  · exact (List.perm_insertionSort _ _).trans (perm.trans (List.reverse_perm _).symm)

end Broker
end MioBroker
