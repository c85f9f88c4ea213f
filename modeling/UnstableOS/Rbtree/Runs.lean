import UnstableOS.Rbtree.Remove

/-! Every run of `rbtree_add` and `rbtree_remove` from the empty tree.
Between the calls the memory outside of the tree's nodes may change in any way; so the key of a
node is set before it is added.
-/

namespace UnstableOS.Rbtree

open Lib.LinkedTree List

/-- The memory, the root pointer, and the nodes that were added and not removed since. -/
structure System where
  mem : Mem
  tree : Nat
  nodes : List Nat

/-- One call, or a change of the memory outside of the tree. Removals are those the given
predicate allows; the loops may take at least as many rounds as the tree has nodes.
-/
inductive Step (allowed : System → Nat → Prop) : System → System → Prop where
  | add {sys : System} {node fuel tree : Nat} {m : Mem} (real : node ≠ 0)
      (fresh : node ∉ sys.nodes) (enough : sys.nodes.length < fuel)
      (call : rbtreeAdd fuel sys.mem sys.tree node = some (m, tree))
      : Step allowed sys ⟨m, tree, node :: sys.nodes⟩
  | remove {sys : System} {node fuel tree : Nat} {m : Mem} (member : node ∈ sys.nodes)
      (permitted : allowed sys node) (enough : sys.nodes.length < fuel)
      (call : rbtreeRemove fuel sys.mem sys.tree node = some (m, tree))
      : Step allowed sys ⟨m, tree, sys.nodes.erase node⟩
  | write {sys : System} {m : Mem} (outside : ∀ q ∈ sys.nodes, sys.mem.SameAt m q)
      : Step allowed sys ⟨m, sys.tree, sys.nodes⟩

def Run (allowed : System → Nat → Prop) : System → System → Prop :=
  Relation.ReflTransGen (Step allowed)

/-- The system holds the tree: its pointers represent it, and its nodes are the ones added. -/
structure System.Has (sys : System) (tree : Node) : Prop where
  represents : Represents 0 sys.mem sys.tree tree
  nodes : tree.addrs.Perm sys.nodes

/-- The removals that keep the balance. -/
def SafeRemoval (sys : System) (node : Nat) : Prop :=
  ∃ context position, sys.Has (plug context position) ∧ position.addr 0 = node
    ∧ Removable context position = true

/-- What the runs maintain. -/
def System.Balanced (sys : System) : Prop := ∃ tree, sys.Has tree ∧ RedBlack Data.red tree

namespace System.Has

variable {sys : System} {old : Node}

theorem unique {other} (has : sys.Has old) (hasOther : sys.Has other) : other = old := by
  have sameRoot := hasOther.represents.root.symm.trans has.represents.root
  exact hasOther.represents.holds.unique has.represents.holds sameRoot

section
variable {node fuel : Nat} (has : sys.Has old) (valid : RedBlack Data.red old)
include has valid

theorem add (real : node ≠ 0) (fresh : node ∉ sys.nodes) (enough : sys.nodes.length < fuel)
    : ∃ m tree, rbtreeAdd fuel sys.mem sys.tree node = some (m, tree)
        ∧ System.Balanced ⟨m, tree, node :: sys.nodes⟩ := by
  have notIn : node ∉ old.addrs := fun member => fresh (has.nodes.mem_iff.mp member)
  obtain ⟨smaller, larger, order, _, m, tree, new, call, rep, newValid, newOrder⟩ :=
    rbtreeAdd_yields has.represents valid real notIn (has.nodes.length_eq ▸ enough)
  refine ⟨m, tree, call, new, ⟨rep, ?_⟩, newValid⟩
  have nodes := newOrder ▸ inorder_addrs new
  have oldNodes := order ▸ inorder_addrs old
  refine nodes.symm.trans (Perm.trans ?_ ((oldNodes.trans has.nodes).cons node))
  simp

theorem remove (safe : SafeRemoval sys node) (enough : sys.nodes.length < fuel)
    : ∃ m tree, rbtreeRemove fuel sys.mem sys.tree node = some (m, tree)
        ∧ System.Balanced ⟨m, tree, sys.nodes.erase node⟩ := by
  obtain ⟨context, position, hasSplit, rfl, removable⟩ := safe
  obtain rfl := has.unique hasSplit
  obtain ⟨smaller, larger, key, order, m, tree, new, call, rep, newValid, newOrder⟩ :=
    rbtreeRemove_erases has.represents valid removable (has.nodes.length_eq ▸ enough)
  refine ⟨m, tree, call, new, ⟨rep, ?_⟩, newValid⟩
  have nodes := newOrder ▸ inorder_addrs new
  have oldNodes := order ▸ inorder_addrs _
  have split : (position.addr 0 :: map Prod.fst (smaller ++ larger)).Perm sys.nodes := by
    refine Perm.trans ?_ (oldNodes.trans has.nodes)
    simp only [map_append, map_cons, append_assoc, cons_append, nil_append]
    exact perm_middle.symm
  have erased := split.erase (position.addr 0)
  rw [erase_cons_head] at erased
  exact nodes.symm.trans erased

end

theorem write {m : Mem} (has : sys.Has old) (outside : ∀ q ∈ sys.nodes, sys.mem.SameAt m q)
    : System.Has ⟨m, sys.tree, sys.nodes⟩ old :=
  ⟨has.represents.congr fun q member => outside q (has.nodes.mem_iff.mp member), has.nodes⟩

end System.Has

/-- Each step with a safe removal keeps the tree balanced. -/
theorem Step.balanced {sys sys'} (step : Step SafeRemoval sys sys') (balanced : sys.Balanced)
    : sys'.Balanced := by
  obtain ⟨old, has, valid⟩ := balanced
  cases step with
  | add real fresh enough call =>
    obtain ⟨m, tree, returns, new⟩ := has.add valid real fresh enough
    cases call.symm.trans returns
    exact new
  | remove member permitted enough call =>
    obtain ⟨m, tree, returns, new⟩ := has.remove valid permitted enough
    cases call.symm.trans returns
    exact new
  | write outside => exact ⟨old, has.write outside, valid⟩

theorem Run.balanced {m sys} (run : Run SafeRemoval ⟨m, 0, []⟩ sys)
    : sys.Balanced := by
  induction run with
  | refl => exact ⟨.nil, ⟨⟨rfl, trivial, nodup_nil⟩, .refl _⟩, 0, .nil⟩
  | tail _ step ih => exact step.balanced ih

/-- The descent has a round for each node, and no red node follows another. -/
theorem descend_isSome {m : Mem} {tree : Node} {c n} (balanced : Balanced Data.red tree c n)
    (key : Nat) {parent fuel prev idx} (holds : Holds 0 m parent tree)
    (enough : 2 * n + c.toNat < fuel)
    : (descend m key fuel (tree.addr 0) prev idx).isSome := by
  induction balanced generalizing parent fuel prev idx with
  | nil =>
    cases fuel with
    | zero => cases enough
    | succ fuel => rfl
  | red _ _ _ ihLeft ihRight | black _ _ _ ihLeft ihRight =>
    obtain ⟨real, -, -, toLeft, toRight, holdsLeft, holdsRight⟩ := holds
    cases fuel with
    | zero => cases enough
    | succ fuel =>
      rw [Tree.addr, descend, if_neg real]
      cases decide (Mem.val m _ < key) with
      | false =>
        simp only [toLeft]
        exact ihLeft holdsLeft (by grind [Bool.toNat_le])
      | true =>
        simp only [toRight]
        exact ihRight holdsRight (by grind [Bool.toNat_le])

/-- In every run with safe removals the tree is a red-black tree after each call, and the next call
returns.
-/
theorem safe_run_redBlack {m : Mem} {sys : System} (run : Run SafeRemoval ⟨m, 0, []⟩ sys)
    : ∃ tree, sys.Has tree ∧ rootRed Data.red tree = false ∧ NoRedRed Data.red tree
        ∧ (∃ n, ∀ count ∈ blackCounts Data.red tree, count = n)
        ∧ ∀ fuel, sys.nodes.length < fuel
          → (∀ node, SafeRemoval sys node → (rbtreeRemove fuel sys.mem sys.tree node).isSome)
            ∧ ∀ node, node ≠ 0 → node ∉ sys.nodes
              → (rbtreeAdd fuel sys.mem sys.tree node).isSome := by
  obtain ⟨tree, has, n, balanced⟩ := run.balanced
  refine ⟨tree, has, balanced.rootRed_eq, balanced.noRedRed,
    ⟨n, fun count member => balanced.eq_of_mem_blackCounts member⟩, ?_⟩
  intro fuel enough
  refine ⟨?_, ?_⟩
  · intro node safe
    obtain ⟨m', tree', returns, _⟩ := has.remove ⟨n, balanced⟩ safe enough
    rw [returns]
    rfl
  · intro node real fresh
    obtain ⟨m', tree', returns, _⟩ := has.add ⟨n, balanced⟩ real fresh enough
    rw [returns]
    rfl

/-- All nodes have no links, and the address as the key. -/
def blankMem : Mem := ⟨fun _ _ => 0, fun _ => 0, fun q => ⟨false, q⟩⟩

/-- The node 4 is added, and the node 2 below it. -/
theorem run_two_nodes (allowed : System → Nat → Prop)
    : ∃ m, Run allowed ⟨blankMem, 0, []⟩ ⟨m, 4, [2, 4]⟩
        ∧ System.Has ⟨m, 4, [2, 4]⟩
          (plug [⟨4, ⟨false, 4⟩, false, .nil⟩] (.node 2 ⟨true, 2⟩ .nil .nil))
        ∧ (rbtreeRemove 3 m 4 2).isSome
        ∧ (rbtreeRemove 3 m 4 4).map (fun result => (result.2, Mem.red result.1 2))
          = some (2, true) := by
  obtain ⟨m₁, m₂, first, second, holds, leaf, root⟩ : ∃ m₁ m₂,
      rbtreeAdd 3 blankMem 0 4 = some (m₁, 4) ∧ rbtreeAdd 3 m₁ 4 2 = some (m₂, 4)
        ∧ Holds 0 m₂ 0 (.node 4 ⟨false, 4⟩ (.node 2 ⟨true, 2⟩ .nil .nil) .nil)
        ∧ (rbtreeRemove 3 m₂ 4 2).isSome
        ∧ (rbtreeRemove 3 m₂ 4 4).map (fun result => (result.2, Mem.red result.1 2))
          = some (2, true) := by
    refine ⟨_, _, rfl, rfl, ?_, rfl, rfl⟩
    exact ⟨by decide, rfl, rfl, rfl, rfl, ⟨by decide, rfl, rfl, rfl, rfl, trivial, trivial⟩,
      trivial⟩
  have addFirst : Step allowed ⟨blankMem, 0, []⟩ ⟨m₁, 4, [4]⟩ :=
    .add (by decide) (by simp) (show 0 < 3 by decide) first
  have addSecond : Step allowed ⟨m₁, 4, [4]⟩ ⟨m₂, 4, [2, 4]⟩ :=
    .add (by decide) (by simp) (show 1 < 3 by decide) second
  have run := (Relation.ReflTransGen.single addFirst).tail addSecond
  refine ⟨m₂, run, ⟨⟨rfl, holds, ?_⟩, ?_⟩, leaf, root⟩
  · decide
  · exact .swap _ _ _

/-- The node 2, a red leaf, may be removed. -/
theorem safe_run_redBlack_red_leaf
    : ∃ m sys, Run SafeRemoval ⟨m, 0, []⟩ sys ∧ sys.nodes = [4]
        ∧ ∃ tree, sys.Has tree ∧ rootRed Data.red tree = false := by
  obtain ⟨m, run, has, returns, _⟩ := run_two_nodes SafeRemoval
  obtain ⟨⟨m', tree'⟩, call⟩ := Option.isSome_iff_exists.mp returns
  have removeLeaf : Step SafeRemoval ⟨m, 4, [2, 4]⟩ ⟨m', tree', [2, 4].erase 2⟩ :=
    .remove (by simp) ⟨_, _, has, rfl, rfl⟩ (show 2 < 3 by decide) call
  obtain ⟨tree, hasNew, black, _⟩ := safe_run_redBlack (run.tail removeLeaf)
  exact ⟨_, _, run.tail removeLeaf, rfl, tree, hasNew, black⟩

/-- In every run with safe removals the place of a new node is found in a number of rounds that is
logarithmic in the number of nodes.
-/
theorem safe_run_descends {m : Mem} {sys : System} (run : Run SafeRemoval ⟨m, 0, []⟩ sys)
    {fuel} (enough : 2 * (sys.nodes.length + 1).log2 < fuel) (key prev : Nat) (idx : Bool)
    : (descend sys.mem key fuel sys.tree prev idx).isSome := by
  obtain ⟨tree, has, n, balanced⟩ := run.balanced
  have size := balanced.pow_le
  rw [has.nodes.length_eq, ← Nat.le_log2 (by omega)] at size
  rw [has.represents.root]
  exact descend_isSome balanced key has.represents.holds (by simp; omega)

theorem safe_run_descends_two
    : ∃ m sys, Run SafeRemoval ⟨m, 0, []⟩ sys ∧ sys.nodes.length = 2
        ∧ (descend sys.mem 0 3 sys.tree 0 false).isSome := by
  obtain ⟨m, run, _⟩ := run_two_nodes SafeRemoval
  exact ⟨_, _, run, rfl, safe_run_descends run (show 2 * Nat.log2 3 < 3 by decide) 0 0 false⟩

/-- Removing the root, the node 4, leaves the red node 2 as the root. -/
theorem remove_root_leaves_red_root
    : ¬ ∀ m sys, Run (fun _ _ => True) ⟨m, 0, []⟩ sys
        → ∃ tree, sys.Has tree ∧ rootRed Data.red tree = false := by
  intro alwaysBlack
  obtain ⟨m, run, _, _, returns⟩ := run_two_nodes (fun _ _ => True)
  obtain ⟨⟨m', tree'⟩, call, result⟩ := Option.map_eq_some_iff.mp returns
  obtain ⟨rfl, red⟩ := Prod.mk.inj result
  have removeRoot : Step (fun _ _ => True) ⟨m, 4, [2, 4]⟩ ⟨m', 2, [2, 4].erase 4⟩ :=
    .remove (by simp) trivial (show 2 < 3 by decide) call
  obtain ⟨tree, has, black⟩ := alwaysBlack _ _ (run.tail removeRoot)
  have atRoot := has.represents.root
  cases tree with
  | nil => cases atRoot
  | node a d left right =>
    obtain rfl : 2 = a := atRoot
    have payload := has.represents.holds.2.2.1
    rw [Mem.red, payload] at red
    rw [rootRed, red] at black
    cases black

end UnstableOS.Rbtree
