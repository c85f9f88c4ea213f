import UnstableOS.Rbtree.Order

/-! The trees as the rest of the kernel uses them: structures that are found by their keys.
A structure is named by its key, and its node has an even address of its own. As long as the calls
return, a search finds what was added and not removed.
-/

namespace UnstableOS.Rbtree

open Lib.LinkedTree Data List

variable {m : Mem} {fuel : Nat}

-- Searches

/-- The loop of `rbtree_search_exact`. -/
def rbtreeSearchExact (m : Mem) (key : Nat) : Nat → Nat → Option Nat
  | 0, _ => none
  | fuel + 1, tree =>
    if tree = 0 ∨ Mem.val m tree = key then some tree
    else rbtreeSearchExact m key fuel (m.child tree (Mem.val m tree < key))

/-- The loop of `rbtree_search_lte`. -/
def rbtreeSearchLte (m : Mem) (key : Nat) : Nat → Nat → Nat → Option Nat
  | 0, _, _ => none
  | fuel + 1, tree, best =>
    if tree = 0 then some best
    else if Mem.val m tree < key then rbtreeSearchLte m key fuel (m.child tree true) tree
    else if Mem.val m tree = key then some tree
    else rbtreeSearchLte m key fuel (m.child tree false) best

/-- The loop of `rbtree_search_gte`. -/
def rbtreeSearchGte (m : Mem) (key : Nat) : Nat → Nat → Nat → Option Nat
  | 0, _, _ => none
  | fuel + 1, tree, best =>
    if tree = 0 then some best
    else if Mem.val m tree < key then rbtreeSearchGte m key fuel (m.child tree true) best
    else if Mem.val m tree = key then some tree
    else rbtreeSearchGte m key fuel (m.child tree false) tree

section Search
variable {position : Node} {parent key best : Nat}

/-- What a search meets at a node: its links and its key, between the keys of the subtrees. -/
theorem Sorted.at_node {a d left right} (sorted : Sorted (.node a d left right))
    (holds : Holds 0 m parent (.node a d left right))
    (enough : (.node a d left right : Node).addrs.length < fuel + 1)
    : ∃ rest, fuel = rest + 1 ∧ a ≠ 0 ∧ Mem.val m a = d.val
        ∧ (m.child a false = left.addr 0 ∧ Holds 0 m a left ∧ Sorted left
          ∧ left.addrs.length < rest + 1 ∧ ∀ entry ∈ left.inorder val, entry.2 ≤ d.val)
        ∧ m.child a true = right.addr 0 ∧ Holds 0 m a right ∧ Sorted right
        ∧ right.addrs.length < rest + 1 ∧ ∀ entry ∈ right.inorder val, d.val ≤ entry.2 := by
  obtain ⟨real, _, payload, toLeft, toRight, holdsLeft, holdsRight⟩ := holds
  simp only [Tree.addrs, length_cons, length_append] at enough
  refine ⟨fuel - 1, by omega, real, congrArg Data.val payload,
    ⟨toLeft, holdsLeft, sorted.of_left, by omega, fun entry mem => ?_⟩,
    toRight, holdsRight, sorted.of_right, by omega, fun entry mem => ?_⟩
  · exact sorted.left_le entry (mem_append_left _ mem)
  · exact sorted.right_ge entry (mem_cons_of_mem _ mem)

/-- The node with the key is found, if there is one.
Witness: induction on the subtree that is left to search.
-/
theorem rbtreeSearchExact_finds (holds : Holds 0 m parent position) (sorted : Sorted position)
    (enough : position.addrs.length < fuel)
    : ∃ found, rbtreeSearchExact m key fuel (position.addr 0) = some found
        ∧ ((found = 0 ∧ ∀ entry ∈ position.inorder val, entry.2 ≠ key)
          ∨ (found, key) ∈ position.inorder val) := by
  obtain ⟨fuel, rfl⟩ := Nat.exists_eq_add_one_of_ne_zero (Nat.ne_zero_of_lt enough)
  induction position generalizing fuel parent with
  | nil => exact ⟨0, if_pos (.inl rfl), .inl ⟨rfl, nofun⟩⟩
  | node a d left right ihLeft ihRight =>
    obtain ⟨fuel, rfl, real, isKey, ⟨toLeft, holdsLeft, ofLeft, fewLeft, below⟩,
      toRight, holdsRight, ofRight, fewRight, above⟩ := sorted.at_node holds enough
    rw [Tree.addr, rbtreeSearchExact, isKey]
    simp only [Tree.inorder, mem_append, mem_cons]
    by_cases here : d.val = key
    · exact ⟨a, if_pos (.inr here), .inr (by simp [here])⟩
    rw [if_neg (by simp [real, here])]
    by_cases less : d.val < key
    · rw [decide_eq_true less, toRight]
      obtain ⟨found, done, inside⟩ := ihRight holdsRight ofRight fuel fewRight
      exact ⟨found, done, by grind⟩
    · rw [decide_eq_false less, toLeft]
      obtain ⟨found, done, inside⟩ := ihLeft holdsLeft ofLeft fuel fewLeft
      exact ⟨found, done, by grind⟩

/-- The node with the greatest key up to the given one is found, or the best one so far. -/
theorem rbtreeSearchLte_finds (holds : Holds 0 m parent position) (sorted : Sorted position)
    (enough : position.addrs.length < fuel)
    : ∃ found, rbtreeSearchLte m key fuel (position.addr 0) best = some found
        ∧ ((found = best ∧ ∀ entry ∈ position.inorder val, key < entry.2)
          ∨ ∃ entry ∈ position.inorder val, found = entry.1 ∧ entry.2 ≤ key
            ∧ ∀ other ∈ position.inorder val, other.2 ≤ key → other.2 ≤ entry.2) := by
  obtain ⟨fuel, rfl⟩ := Nat.exists_eq_add_one_of_ne_zero (Nat.ne_zero_of_lt enough)
  induction position generalizing fuel parent best with
  | nil => exact ⟨best, if_pos rfl, .inl ⟨rfl, nofun⟩⟩
  | node a d left right ihLeft ihRight =>
    obtain ⟨fuel, rfl, real, isKey, ⟨toLeft, holdsLeft, ofLeft, fewLeft, below⟩,
      toRight, holdsRight, ofRight, fewRight, above⟩ := sorted.at_node holds enough
    rw [Tree.addr, rbtreeSearchLte, if_neg real, isKey]
    simp only [Tree.inorder, mem_append, mem_cons]
    by_cases less : d.val < key
    · rw [if_pos less, toRight]
      obtain ⟨found, done, ⟨isBest, _⟩ | ⟨entry, mem, isFound, low, greatest⟩⟩ :=
        @ihRight a a holdsRight ofRight fuel fewRight
      · exact ⟨found, done, .inr ⟨(a, d.val), by simp, isBest, Nat.le_of_lt less, by grind⟩⟩
      · exact ⟨found, done, .inr ⟨entry, by simp [mem], isFound, low, by grind⟩⟩
    rw [if_neg less]
    by_cases same : d.val = key
    · exact ⟨a, if_pos same, .inr ⟨(a, d.val), by simp, rfl, by omega, by omega⟩⟩
    · rw [if_neg same, toLeft]
      obtain ⟨found, done, inside⟩ := @ihLeft a best holdsLeft ofLeft fuel fewLeft
      exact ⟨found, done, by grind⟩

/-- The node with the smallest key from the given one on is found, or the best one so far. -/
theorem rbtreeSearchGte_finds (holds : Holds 0 m parent position) (sorted : Sorted position)
    (enough : position.addrs.length < fuel)
    : ∃ found, rbtreeSearchGte m key fuel (position.addr 0) best = some found
        ∧ ((found = best ∧ ∀ entry ∈ position.inorder val, entry.2 < key)
          ∨ ∃ entry ∈ position.inorder val, found = entry.1 ∧ key ≤ entry.2
            ∧ ∀ other ∈ position.inorder val, key ≤ other.2 → entry.2 ≤ other.2) := by
  obtain ⟨fuel, rfl⟩ := Nat.exists_eq_add_one_of_ne_zero (Nat.ne_zero_of_lt enough)
  induction position generalizing fuel parent best with
  | nil => exact ⟨best, if_pos rfl, .inl ⟨rfl, nofun⟩⟩
  | node a d left right ihLeft ihRight =>
    obtain ⟨fuel, rfl, real, isKey, ⟨toLeft, holdsLeft, ofLeft, fewLeft, below⟩,
      toRight, holdsRight, ofRight, fewRight, above⟩ := sorted.at_node holds enough
    rw [Tree.addr, rbtreeSearchGte, if_neg real, isKey]
    simp only [Tree.inorder, mem_append, mem_cons]
    by_cases less : d.val < key
    · rw [if_pos less, toRight]
      obtain ⟨found, done, inside⟩ := @ihRight a best holdsRight ofRight fuel fewRight
      exact ⟨found, done, by grind⟩
    rw [if_neg less]
    by_cases same : d.val = key
    · exact ⟨a, if_pos same, .inr ⟨(a, d.val), by simp, rfl, by omega, by omega⟩⟩
    · rw [if_neg same, toLeft]
      obtain ⟨found, done, ⟨isBest, _⟩ | ⟨entry, mem, isFound, high, least⟩⟩ :=
        @ihLeft a a holdsLeft ofLeft fuel fewLeft
      · exact ⟨found, done, .inr ⟨(a, d.val), by simp, isBest, by omega, by grind⟩⟩
      · exact ⟨found, done, .inr ⟨entry, by simp [mem], isFound, high, by grind⟩⟩

theorem inorder_real (holds : Holds 0 m parent position)
    : ∀ entry ∈ position.inorder val, entry.1 ≠ 0 := by
  induction position generalizing parent with
  | nil => nofun
  | node a d left right ihLeft ihRight =>
    obtain ⟨real, _, _, _, _, holdsLeft, holdsRight⟩ := holds
    simp only [Tree.inorder, mem_append, mem_cons]
    rintro entry (inLeft | rfl | inRight)
    · exact ihLeft holdsLeft entry inLeft
    · exact real
    · exact ihRight holdsRight entry inRight

/-- In every search tree, whatever its shape, the searches return the node they are for, and `NULL`
exactly when there is none.
-/
theorem searches_find {tree : Nat} (rep : Represents 0 m tree position) (sorted : Sorted position)
    (enough : position.addrs.length < fuel) (key : Nat)
    : (∃ found, rbtreeSearchLte m key fuel tree 0 = some found
        ∧ (found = 0 ↔ ∀ entry ∈ position.inorder val, key < entry.2)
        ∧ (found ≠ 0 → ∃ entry ∈ position.inorder val, found = entry.1 ∧ entry.2 ≤ key
          ∧ ∀ other ∈ position.inorder val, other.2 ≤ key → other.2 ≤ entry.2))
      ∧ (∃ found, rbtreeSearchGte m key fuel tree 0 = some found
        ∧ (found = 0 ↔ ∀ entry ∈ position.inorder val, entry.2 < key)
        ∧ (found ≠ 0 → ∃ entry ∈ position.inorder val, found = entry.1 ∧ key ≤ entry.2
          ∧ ∀ other ∈ position.inorder val, key ≤ other.2 → entry.2 ≤ other.2))
      ∧ ∃ found, rbtreeSearchExact m key fuel tree = some found
        ∧ (found = 0 ↔ ∀ entry ∈ position.inorder val, entry.2 ≠ key)
        ∧ (found ≠ 0 → (found, key) ∈ position.inorder val) := by
  have real := inorder_real rep.holds
  obtain ⟨low, lteDone, lte⟩ := @rbtreeSearchLte_finds m _ _ _ key 0 rep.holds sorted enough
  obtain ⟨high, gteDone, gte⟩ := @rbtreeSearchGte_finds m _ _ _ key 0 rep.holds sorted enough
  obtain ⟨same, exactDone, exactly⟩ := @rbtreeSearchExact_finds m _ _ _ key rep.holds sorted enough
  rw [rep.root]
  refine ⟨⟨low, lteDone, ?_, ?_⟩, ⟨high, gteDone, ?_, ?_⟩, same, exactDone, ?_, ?_⟩ <;> grind

/-- A list of three nodes, two of them with the same key. -/
def twins : Mem where
  child q side := if side = true ∧ q < 6 then q + 2 else 0
  parent q := if q = 2 then 0 else q - 2
  data q := ⟨false, if q = 2 then 10 else 20⟩

def twinsTree : Node :=
  .node 2 ⟨false, 10⟩ .nil (.node 4 ⟨false, 20⟩ .nil (.node 6 ⟨false, 20⟩ .nil .nil))

theorem searches_find_twins
    : (∃ low, rbtreeSearchLte twins 15 4 2 0 = some low
        ∧ ∃ entry ∈ twinsTree.inorder val, low = entry.1 ∧ entry.2 ≤ 15
          ∧ ∀ other ∈ twinsTree.inorder val, other.2 ≤ 15 → other.2 ≤ entry.2)
      ∧ (∃ high, rbtreeSearchGte twins 15 4 2 0 = some high
        ∧ ∃ entry ∈ twinsTree.inorder val, high = entry.1 ∧ 15 ≤ entry.2
          ∧ ∀ other ∈ twinsTree.inorder val, 15 ≤ other.2 → entry.2 ≤ other.2)
      ∧ rbtreeSearchExact twins 15 4 2 = some 0 := by
  have rep : Represents 0 twins 2 twinsTree := by
    refine ⟨rfl, ?_, by decide⟩
    simp [twinsTree, twins, Holds, Tree.addr]
  have sorted : Sorted twinsTree := by
    unfold Sorted
    decide
  obtain ⟨⟨low, lte, noLow, isLow⟩, ⟨high, gte, noHigh, isHigh⟩, same, exactly, noSame, -⟩ :=
    searches_find rep sorted (show _ < 4 by decide) 15
  refine ⟨⟨low, lte, isLow fun zero => ?_⟩, ⟨high, gte, isHigh fun zero => ?_⟩, ?_⟩
  · exact absurd (noLow.mp zero (2, 10) (by decide)) (by decide)
  · exact absurd (noHigh.mp zero (4, 20) (by decide)) (by decide)
  · rw [exactly, noSame.mpr (by decide)]

end Search

-- An index of structures

/-- The memory of the nodes, and the pointer to the root. -/
structure Index where
  mem : Mem
  tree : Nat

/-- The node in the structure with a key. -/
def nodeOf (key : Nat) : Nat := 2 * key + 2

namespace Index

def empty : Index := ⟨⟨fun _ _ => 0, fun _ => 0, fun _ => ⟨false, 0⟩⟩, 0⟩

/-- `rbtree_add` of a new structure. -/
def add (fuel : Nat) (index : Index) (key : Nat) : Option Index :=
  let m := { index.mem with data := Function.update index.mem.data (nodeOf key) ⟨false, key⟩ }
  (rbtreeAdd fuel m index.tree (nodeOf key)).map fun (m, tree) => ⟨m, tree⟩

/-- `rbtree_remove` of the structure with the key. -/
def remove (fuel : Nat) (index : Index) (key : Nat) : Option Index :=
  (rbtreeRemove fuel index.mem index.tree (nodeOf key)).map fun (m, tree) => ⟨m, tree⟩

/-- The structures in the tree are those with these keys, each key once. -/
def Has (index : Index) (keys : List Nat) : Prop :=
  ∃ sorted : List Nat, sorted.Perm keys ∧ sorted.Pairwise (· < ·)
    ∧ Holding index.mem index.tree (sorted.map fun key => (nodeOf key, key))

theorem empty_has : empty.Has [] := ⟨[], .refl _, .nil, .nil, ⟨rfl, trivial, nodup_nil⟩, rfl⟩

variable {index index' : Index} {keys : List Nat} {key : Nat}

theorem map_nodeOf (sorted : List Nat)
    : (sorted.map fun key => (nodeOf key, key)).map Prod.fst = sorted.map nodeOf := by
  rw [map_map]
  rfl

theorem nodeOf_mem {sorted : List Nat} : nodeOf key ∈ sorted.map nodeOf ↔ key ∈ sorted := by
  simp only [mem_map, nodeOf]
  exact ⟨fun ⟨other, mem, same⟩ => (show other = key by omega) ▸ mem, fun mem => ⟨key, mem, rfl⟩⟩

namespace Has

theorem perm {keys'} (has : index.Has keys) (same : keys.Perm keys') : index.Has keys' := by
  obtain ⟨sorted, perm, rest⟩ := has
  exact ⟨sorted, perm.trans same, rest⟩

theorem add (has : index.Has keys) (fresh : key ∉ keys) (enough : keys.length < fuel)
    (done : index.add fuel key = some index')
    : index'.Has (key :: keys) := by
  obtain ⟨sorted, perm, increasing, old, rep, order⟩ := has
  obtain ⟨⟨m', tree'⟩, call, rfl⟩ := Option.map_eq_some_iff.mp done
  have notIn : nodeOf key ∉ (sorted.map fun key => (nodeOf key, key)).map Prod.fst := by
    rw [map_nodeOf, nodeOf_mem, perm.mem_iff]
    exact fresh
  have kept : Holding { index.mem with
      data := Function.update index.mem.data (nodeOf key) ⟨false, key⟩ } index.tree
      (sorted.map fun key => (nodeOf key, key)) := by
    refine ⟨old, rep.congr fun q mem => ⟨fun _ => rfl, rfl, Function.update_of_ne ?_ _ _⟩, order⟩
    rintro rfl
    exact notIn (order ▸ (inorder_addrs old).mem_iff.mpr mem)
  obtain ⟨smaller, larger, split, below, above, holding⟩ := kept.rbtreeAdd (by simp [nodeOf]) notIn
    (by rwa [length_map, perm.length_eq])
    (pairwise_map.mpr (increasing.imp fun less => Nat.le_of_lt less)) call
  obtain ⟨first, second, rfl, rfl, rfl⟩ := map_eq_append_iff.mp split
  have isKey : Mem.val { index.mem with
      data := Function.update index.mem.data (nodeOf key) ⟨false, key⟩ } (nodeOf key) = key := by
    simp [Mem.val]
  rw [isKey] at below above holding
  have other {k} (mem : k ∈ first ++ second) : k ≠ key := fun same =>
    fresh (perm.mem_iff.mp (same ▸ mem))
  refine ⟨first ++ key :: second, perm_middle.trans (perm.cons key), ?_, by simpa using holding⟩
  obtain ⟨ofFirst, ofSecond, between⟩ := pairwise_append.mp increasing
  refine pairwise_append.mpr ⟨ofFirst, pairwise_cons.mpr ⟨fun k mem => ?_, ofSecond⟩,
    fun k inFirst l mem => ?_⟩
  · exact Nat.lt_of_le_of_ne (above _ (mem_map_of_mem mem)) (other (mem_append_right _ mem)).symm
  · rcases mem_cons.mp mem with rfl | inSecond
    · exact Nat.lt_of_le_of_ne (below _ (mem_map_of_mem inFirst))
        (other (mem_append_left _ inFirst))
    · exact between k inFirst l inSecond

theorem remove (has : index.Has keys) (mem : key ∈ keys) (enough : keys.length < fuel)
    (done : index.remove fuel key = some index')
    : index'.Has (keys.erase key) := by
  obtain ⟨sorted, perm, increasing, holding⟩ := has
  obtain ⟨⟨m', tree'⟩, call, rfl⟩ := Option.map_eq_some_iff.mp done
  have isNode : nodeOf key ∈ (sorted.map fun key => (nodeOf key, key)).map Prod.fst := by
    rw [map_nodeOf, nodeOf_mem, perm.mem_iff]
    exact mem
  have left := holding.rbtreeRemove isNode (by rwa [length_map, perm.length_eq]) call
  have nodup : sorted.Nodup := increasing.imp fun less => Nat.ne_of_lt less
  refine ⟨sorted.erase key, perm.erase key, increasing.sublist (erase_sublist ..), ?_⟩
  rw [nodup.erase_eq_filter]
  rw [filter_map] at left
  have same : ((fun entry : Nat × Nat => decide (entry.1 ≠ nodeOf key)) ∘ fun k => (nodeOf k, k))
      = (· != key) := by
    funext k
    rw [Bool.eq_iff_iff]
    simp [nodeOf]
  rwa [same] at left

theorem sorted_of (has : index.Has keys)
    : ∃ old : Node, Represents 0 index.mem index.tree old ∧ Sorted old
        ∧ old.addrs.length = keys.length
        ∧ ∀ entry, entry ∈ old.inorder val ↔ entry.1 = nodeOf entry.2 ∧ entry.2 ∈ keys := by
  obtain ⟨sorted, perm, increasing, old, rep, order⟩ := has
  refine ⟨old, rep, ?_, ?_, fun entry => ?_⟩
  · rw [Sorted, order]
    exact pairwise_map.mpr (increasing.imp fun less => Nat.le_of_lt less)
  · rw [← (inorder_addrs old).length_eq, length_map, order, length_map, perm.length_eq]
  · rw [order, mem_map]
    constructor
    · rintro ⟨key, mem, rfl⟩
      exact ⟨rfl, perm.mem_iff.mp mem⟩
    · rintro ⟨isNode, mem⟩
      exact ⟨entry.2, perm.mem_iff.mpr mem, by rw [← isNode]⟩

/-- `rbtree_search_exact` finds just the keys that are there. -/
theorem searchExact (has : index.Has keys) (enough : keys.length < fuel) (key : Nat)
    : rbtreeSearchExact index.mem key fuel index.tree
        = some (if key ∈ keys then nodeOf key else 0) := by
  obtain ⟨old, rep, sorted, count, entries⟩ := has.sorted_of
  obtain ⟨found, done, ⟨rfl, missing⟩ | inside⟩ := rbtreeSearchExact_finds rep.holds sorted
    (count ▸ enough)
  · have absent : key ∉ keys := fun mem =>
      missing (nodeOf key, key) ((entries _).mpr ⟨rfl, mem⟩) rfl
    rw [rep.root, done, if_neg absent]
  · obtain ⟨isNode, mem⟩ := (entries _).mp inside
    rw [rep.root, done, if_pos mem]
    exact congrArg some isNode

/-- `rbtree_search_lte` finds the greatest key up to the given one. -/
theorem searchLte (has : index.Has keys) (enough : keys.length < fuel) (key : Nat)
    : ∃ found, rbtreeSearchLte index.mem key fuel index.tree 0 = some found
        ∧ ((found = 0 ∧ ∀ k ∈ keys, key < k)
          ∨ ∃ k ∈ keys, found = nodeOf k ∧ k ≤ key ∧ ∀ l ∈ keys, l ≤ key → l ≤ k) := by
  obtain ⟨old, rep, sorted, count, entries⟩ := has.sorted_of
  have entry {k} (mem : k ∈ keys) := (entries (nodeOf k, k)).mpr ⟨rfl, mem⟩
  obtain ⟨found, done, ⟨rfl, above⟩ | ⟨e, inside, isFound, low, greatest⟩⟩ :=
    @rbtreeSearchLte_finds _ _ _ _ key 0 rep.holds sorted (count ▸ enough)
  · exact ⟨0, rep.root ▸ done, .inl ⟨rfl, fun k mem => above _ (entry mem)⟩⟩
  · obtain ⟨isNode, mem⟩ := (entries _).mp inside
    exact ⟨found, rep.root ▸ done, .inr ⟨e.2, mem, isFound.trans isNode, low,
      fun l mem small => greatest _ (entry mem) small⟩⟩

end Has

end Index

-- Several trees, as the calls on them have left them

/-- A call of `rbtree_add` or `rbtree_remove` on one of several trees. -/
inductive Change (τ : Type) where
  | add (tree : τ) (key : Nat)
  | remove (tree : τ) (key : Nat)
deriving DecidableEq

variable {τ : Type} [DecidableEq τ]

def Change.tree : Change τ → τ
  | .add tree _ | .remove tree _ => tree

def Change.apply (fuel : Nat) (index : Index) : Change τ → Option Index
  | .add _ key => index.add fuel key
  | .remove _ key => index.remove fuel key

/-- The trees after the calls, the last one first; none if one of them went through a null pointer.
No tree has more nodes than there were calls.
-/
def replay : List (Change τ) → Option (τ → Index)
  | [] => some fun _ => .empty
  | change :: earlier =>
    (replay earlier).bind fun trees =>
      (change.apply (earlier.length + 1) (trees change.tree)).map
        (Function.update trees change.tree)

/-- As long as all calls have returned, each tree has the structures with these keys. -/
structure Keeps (changes : List (Change τ)) (keys : τ → List Nat) : Prop where
  few : ∀ tree, (keys tree).length ≤ changes.length
  has : ∀ trees, replay changes = some trees → ∀ tree, (trees tree).Has (keys tree)

namespace Keeps

variable {changes : List (Change τ)} {keys : τ → List Nat} {tree : τ} {key : Nat}

theorem nil : Keeps ([] : List (Change τ)) fun _ => [] := by
  refine ⟨fun _ => Nat.le_refl _, ?_⟩
  rintro trees ⟨⟩ tree
  exact Index.empty_has

/-- One more call changes one tree. -/
theorem cons (keeps : Keeps changes keys) (change : Change τ) {keys'}
    (few : keys'.length ≤ changes.length + 1)
    (has : ∀ index index', index.Has (keys change.tree) →
      change.apply (changes.length + 1) index = some index' → index'.Has keys')
    : Keeps (change :: changes) (Function.update keys change.tree keys') := by
  refine ⟨fun other => ?_, fun trees done other => ?_⟩
  · rw [Function.update_apply]
    split
    · exact few
    · exact Nat.le_succ_of_le (keeps.few other)
  · obtain ⟨before, replayed, done⟩ := Option.bind_eq_some_iff.mp done
    obtain ⟨index, applied, rfl⟩ := Option.map_eq_some_iff.mp done
    by_cases same : other = change.tree
    · rw [same, Function.update_self, Function.update_self]
      exact has _ _ (keeps.has before replayed _) applied
    · rw [Function.update_of_ne same, Function.update_of_ne same]
      exact keeps.has before replayed other

theorem add (keeps : Keeps changes keys) (fresh : key ∉ keys tree)
    : Keeps (.add tree key :: changes) (Function.update keys tree (key :: keys tree)) := by
  have few := keeps.few tree
  refine keeps.cons (.add tree key) (Nat.succ_le_succ few) fun _ _ has done => ?_
  exact has.add fresh (Nat.lt_succ_of_le few) done

theorem remove (keeps : Keeps changes keys) (mem : key ∈ keys tree)
    : Keeps (.remove tree key :: changes) (Function.update keys tree ((keys tree).erase key)) := by
  have few := keeps.few tree
  have shorter := (@erase_sublist _ _ key (keys tree)).length_le
  refine keeps.cons (.remove tree key) (by omega) fun _ _ has done => ?_
  exact has.remove mem (Nat.lt_succ_of_le few) done

end Keeps

end UnstableOS.Rbtree
