import MioBroker.Rust.Core

/-!
# Topic filters and the wildcard trie
-/
namespace MioBroker

open Rust

/-- One `/`-separated level of a topic or a filter. -/
abbrev Level := Bytes

/-- `"#"` -/
def hashLevel : Level := [35]

/-- `"+"` -/
def plusLevel : Level := [43]

/-- `s.split('/')` -/
def levels (s : Str) : List Level := s.bytes.splitOn 47

/-- The loop of `topic_matches`, `f` and `t` being what is left from index `i` on. -/
def matchLevels : List Level → List Level → Bool
  | [], t => t.isEmpty
  | f :: fs, t =>
    -- `#` takes the rest, also when there is none
    if f = hashLevel then true
    else match t with
      | [] => false
      | t :: ts => if f ≠ plusLevel ∧ f ≠ t then false else matchLevels fs ts

def topicMatches (filter topic : Str) : Bool := matchLevels (levels filter) (levels topic)

/-- A filter is wild if it contains `+` or `#`, in whatever position. -/
def isWildFilter (filter : Str) : Bool := filter.bytes.contains 43 || filter.bytes.contains 35

inductive TrieNode where
  | mk (children : List (Level × TrieNode)) (plus : Option TrieNode)
      (ends : List Nat) (hashSubs : List Nat)

namespace TrieNode

def empty : TrieNode := .mk [] none [] []

instance : Inhabited TrieNode := ⟨empty⟩

def children : TrieNode → List (Level × TrieNode)
  | .mk c _ _ _ => c

def plus : TrieNode → Option TrieNode
  | .mk _ p _ _ => p

def ends : TrieNode → List Nat
  | .mk _ _ e _ => e

def hashSubs : TrieNode → List Nat
  | .mk _ _ _ h => h

/-- `children.get(lvl)` -/
def child (node : TrieNode) (lvl : Level) : Option TrieNode := node.children.lookup lvl

/-- `children.insert(lvl, node)` -/
def setChild (children : List (Level × TrieNode)) (lvl : Level) (node : TrieNode) :
    List (Level × TrieNode) :=
  (lvl, node) :: children.filter fun entry => entry.1 != lvl

/-- The walk of `Trie::insert`: a `#` level ends it, the levels behind are dropped. -/
def insert (idx : Nat) : List Level → TrieNode → TrieNode
  | [], .mk c p e h => .mk c p (e ++ [idx]) h
  | lvl :: rest, .mk c p e h =>
    if lvl = hashLevel then .mk c p e (h ++ [idx])
    else if lvl = plusLevel then .mk c (some (insert idx rest (p.getD empty))) e h
    else .mk (setChild c lvl (insert idx rest ((c.lookup lvl).getD empty))) p e h

/-- `collect_node`: `out` and `calls` are the two accumulators. -/
def collectNode : TrieNode → List Level → List Nat × Nat → List Nat × Nat
  | node, [], (out, calls) =>
    (out ++ node.hashSubs ++ node.ends, calls + node.hashSubs.length + node.ends.length)
  | node, t :: ts, (out, calls) =>
    let acc := (out ++ node.hashSubs, calls + node.hashSubs.length)
    let acc := match node.plus with
      | some plus => collectNode plus ts acc
      | none => acc
    match node.child t with
    | some child => collectNode child ts acc
    | none => acc

end TrieNode

structure Trie where
  root : TrieNode

namespace Trie

def new : Trie := ⟨.empty⟩

def insert (trie : Trie) (idx : Nat) (levels : List Level) : Trie :=
  ⟨trie.root.insert idx levels⟩

def collect (trie : Trie) (topic : Str) (acc : List Nat × Nat) : List Nat × Nat :=
  trie.root.collectNode (levels topic) acc

end Trie
end MioBroker
