import MioBroker.Scenario

/-!
# The index in every reachable state
-/
namespace MioBroker

open Rust

namespace Broker

/-- The two tiers and the candidate list for a topic are what a scan of `subs` says. -/
structure IndexExact (b : Broker) (topic : Str) : Prop where
  /-- a position is in the exact tier once, under its own filter, unless the filter is wild -/
  inExactTier : ∀ i s, b.subs[i]? = some s → ∀ filter,
    (exactBucket b.subsExact filter).count i =
      if filter = s.filter ∧ isWildFilter s.filter = false then 1 else 0
  /-- a position is in the trie once, at the node of its own filter, if the filter is wild -/
  inTrieTier : ∀ i s, b.subs[i]? = some s → ∀ ls,
    (b.subsWild.root.bucket ls).count i =
      if storeKey ls = storeKey (levels s.filter) ∧ isWildFilter s.filter = true then 1 else 0
  inRange : ∀ i ∈ b.candidates topic, i < b.subs.length
  nodup : (b.candidates topic).Nodup
  /-- the `retain` of `publish` succeeds and leaves the positions of a full scan -/
  scanned : ∃ idxs, retainMatching b.subs topic (b.candidates topic) = .ok idxs ∧ idxs.Nodup ∧
    ∀ i, i ∈ idxs ↔ ∃ s, b.subs[i]? = some s ∧ topicMatches s.filter topic = true

theorem count_positions {α : Type} (p : α → Bool) (l : List α) (i : Nat) (a : α)
    (found : l[i]? = some a) : (positions p l).count i = if p a = true then 1 else 0 := by
  by_cases holds : p a = true
  · rw [if_pos holds]
    exact List.count_eq_one_of_mem (nodup_positions p l) ((mem_positions p l i).mpr ⟨a, found, holds⟩)
  · rw [if_neg holds]
    refine List.count_eq_zero_of_not_mem fun member => ?_
    obtain ⟨a', found', holds'⟩ := (mem_positions p l i).mp member
    cases found.symm.trans found'
    exact holds holds'

theorem indexExact_of_indexed (b : Broker) (indexed : b.Indexed) (topic : Str) :
    b.IndexExact topic := by
  have candidates := b.candidates_perm indexed topic
  obtain ⟨idxs, kept, perm⟩ := b.retainMatching_candidates indexed topic
  constructor
  · intro i s found filter
    rw [indexed.exactBuckets, count_positions _ _ i s found]
    refine if_congr ?_ rfl rfl
    simp only [inExact, Bool.and_eq_true, Bool.not_eq_true', decide_eq_true_eq]
    rw [and_comm, eq_comm]
  · intro i s found ls
    rw [indexed.trieBuckets, count_positions _ _ i s found]
    refine if_congr ?_ rfl rfl
    simp only [inTrie, Bool.and_eq_true, decide_eq_true_eq]
    rw [and_comm, eq_comm]
  · intro i member
    obtain ⟨s, found, -⟩ := (mem_positions _ _ _).mp (candidates.mem_iff.mp member)
    exact (List.getElem?_eq_some_iff.mp found).1
  · exact candidates.nodup_iff.mpr (nodup_positions _ _)
  · refine ⟨idxs, kept, perm.nodup_iff.mpr (nodup_positions _ _), fun i => ?_⟩
    rw [perm.mem_iff, mem_positions]
    rfl

end Broker

/-- The two-tier index equals a flat scan: after any sequence of acts (session restores,
subscriptions, unsubscriptions, removals, publishes that prune, in any order and with any
other change of the clients between them), and in the state of every call of `publish` the
process makes in any of its runs. -/
theorem index_equals_scan :
    (∀ b, Act.Reachable b → ∀ topic, b.IndexExact topic) ∧
    ∀ s : Loop, s.Reachable → ∀ (op : Op) call, op.publishCall s.broker = some call →
      ∀ topic, call.broker.IndexExact topic := by
  constructor
  · exact fun b reached topic => b.indexExact_of_indexed reached.healthy.indexed topic
  · exact fun s reached op call made topic =>
      call.broker.indexExact_of_indexed 
        (Broker.healthy_publishCall reached.healthy op made).indexed topic

theorem index_equals_scan_fresh :
    Loop.fresh.broker.IndexExact .empty ∧
      (Loop.fresh.broker.addSub .empty 1 0).IndexExact .empty := by
  refine ⟨index_equals_scan.1 _ Loop.fresh_reachable.acts _, ?_⟩
  exact index_equals_scan.1 _ (Loop.fresh_reachable.acts.next (i := .addSub .empty 1 0) trivial rfl) _

end MioBroker
