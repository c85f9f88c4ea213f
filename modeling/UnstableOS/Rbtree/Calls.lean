import UnstableOS.Rbtree.Remove

/-! One call of `rbtree_add` or `rbtree_remove` on a red-black tree. -/

namespace UnstableOS.Rbtree

open Lib.LinkedTree Data List

variable {m : Mem} {tree fuel : Nat} {old : Node}

/-- A root with two red leaves, and a node that is not in the tree. -/
def family : Mem where
  child q side := if q = 2 then (if side then 6 else 4) else 0
  parent q := if q = 4 ∨ q = 6 then 2 else 0
  data q := ⟨q == 4 || q == 6, if q = 4 then 10 else if q = 2 then 20 else 30⟩

def familyTree : Node :=
  .node 2 ⟨false, 20⟩ (.node 4 ⟨true, 10⟩ .nil .nil) (.node 6 ⟨true, 30⟩ .nil .nil)

theorem represents_family : Represents 0 family 2 familyTree where
  root := rfl
  holds := ⟨by decide, rfl, rfl, rfl, rfl, ⟨by decide, rfl, rfl, rfl, rfl, trivial, trivial⟩,
    ⟨by decide, rfl, rfl, rfl, rfl, trivial, trivial⟩⟩
  distinct := by decide

theorem redBlack_family : RedBlack red familyTree :=
  ⟨1, .black rfl (.red rfl .nil .nil) (.red rfl .nil .nil)⟩

theorem sorted_family : Sorted familyTree := by
  unfold Sorted
  decide

/-- `rbtree_add` returns, and the tree has the new node and is a red-black search tree as before. -/
theorem rbtreeAdd_redBlack {node : Nat} (rep : Represents 0 m tree old) (valid : RedBlack red old)
    (sorted : Sorted old) (real : node ≠ 0) (fresh : node ∉ old.addrs)
    (enough : old.addrs.length < fuel)
    : ∃ m' tree' new, rbtreeAdd fuel m tree node = some (m', tree') ∧ Represents 0 m' tree' new
        ∧ rootRed red new = false ∧ NoRedRed red new
        ∧ (∃ n, ∀ count ∈ blackCounts red new, count = n) ∧ RedBlack red new ∧ Sorted new
        ∧ (new.inorder val).Perm ((node, Mem.val m node) :: old.inorder val) := by
  obtain ⟨smaller, larger, order, fits, m', tree', new, call, rep', ⟨n, balanced⟩, newOrder⟩ :=
    rbtreeAdd_yields rep valid real fresh enough
  obtain ⟨below, above⟩ := fits sorted
  rw [Sorted, order] at sorted
  obtain ⟨sortedSmaller, sortedLarger, between⟩ := pairwise_append.mp sorted
  refine ⟨m', tree', new, call, rep', balanced.rootRed_eq, balanced.noRedRed,
    ⟨n, fun count mem => balanced.eq_of_mem_blackCounts mem⟩, ⟨n, balanced⟩, ?_, ?_⟩
  · rw [Sorted, newOrder, append_assoc]
    refine pairwise_append.mpr ⟨sortedSmaller, pairwise_cons.mpr ⟨above, sortedLarger⟩, ?_⟩
    intro first inSmaller second mem
    rcases mem_cons.mp mem with rfl | inLarger
    · exact below first inSmaller
    · exact between first inSmaller second inLarger
  · rw [newOrder, order, append_assoc]
    exact perm_middle

theorem rbtreeAdd_redBlack_family
    : ∃ m' tree' new, rbtreeAdd 4 family 2 8 = some (m', tree') ∧ Represents 0 m' tree' new
        ∧ rootRed red new = false ∧ NoRedRed red new
        ∧ (∃ n, ∀ count ∈ blackCounts red new, count = n) ∧ RedBlack red new ∧ Sorted new
        ∧ (new.inorder val).Perm ((8, Mem.val family 8) :: familyTree.inorder val) :=
  rbtreeAdd_redBlack represents_family redBlack_family sorted_family (by decide) (by decide)
    (by decide)

/-- `rbtree_remove` returns and takes just the node out of the tree, unless the node has two
children and its right child has none.
-/
theorem rbtreeRemove_erases_iff {a : Nat} (rep : Represents 0 m tree old) (valid : RedBlack red old)
    (sorted : Sorted old) (mem : a ∈ old.addrs) (enough : old.addrs.length < fuel)
    : (∃ m' tree' new, rbtreeRemove fuel m tree a = some (m', tree') ∧ Represents 0 m' tree' new
      ∧ Sorted new
        ∧ new.inorder val = (old.inorder val).filter (·.1 ≠ a))
      ↔ ¬ LeafSuccessor m a := by
  obtain ⟨context, d, left, right, rfl⟩ := exists_plug mem
  refine ⟨fun ⟨m', tree', new, call, _⟩ leaf => ?_, fun notLeaf => ?_⟩
  · rw [rbtreeRemove_of_leafSuccessor rep leaf] at call
    cases call
  · obtain ⟨smaller, larger, key, order, m', tree', new, call, rep', _, newOrder⟩ :=
      rbtreeRemove_erased rep valid notLeaf enough
    have filtered := newOrder.trans
      (filter_erased order ((inorder_addrs _).nodup_iff.mpr rep.distinct)).symm
    refine ⟨m', tree', new, call, rep', ?_, filtered⟩
    rw [Sorted, filtered]
    exact sorted.filter _

theorem rbtreeRemove_family_leaf
    : ∃ m' tree' new, rbtreeRemove 4 family 2 4 = some (m', tree') ∧ Represents 0 m' tree' new
      ∧ Sorted new
        ∧ new.inorder val = (familyTree.inorder val).filter (·.1 ≠ 4) :=
  (rbtreeRemove_erases_iff represents_family redBlack_family sorted_family (by decide)
    (by decide)).mpr
    fun leaf => leaf.1 rfl

-- The right leaf takes the root's place. The store to its parent, the root, has just cleared the
-- link to it, and the next access goes through that link.
theorem rbtreeRemove_family_root
    : Represents 0 family 2 familyTree ∧ RedBlack red familyTree ∧ Sorted familyTree
        ∧ 2 ∈ familyTree.addrs ∧ ∀ fuel, rbtreeRemove fuel family 2 2 = none := by
  refine ⟨represents_family, redBlack_family, sorted_family, by decide, fun fuel => ?_⟩
  exact rbtreeRemove_leafSuccessor ⟨by decide, by decide, rfl, rfl⟩ rfl (by decide)

end UnstableOS.Rbtree
