import UnstableOS.Rbtree.Calls

/-! The order of the nodes, whatever the colours are.
`rbtree_remove` may lose the balance, or go through a null pointer; but each of its stores is a
colour or part of a rotation, and a call that returns has kept the order of the other nodes.
-/

namespace UnstableOS.Rbtree

open Lib.LinkedTree Data List

variable {m m' : Mem} {tree tree' fuel q : Nat} {entries : List (Nat × Nat)}

/-- The nodes of the tree and their keys, in order. -/
def Holding (m : Mem) (tree : Nat) (entries : List (Nat × Nat)) : Prop :=
  ∃ old : Node, Represents 0 m tree old ∧ old.inorder val = entries

namespace Holding

/-- A node of the tree is at a position of it. -/
theorem position (holding : Holding m tree entries) (mem : q ∈ entries.map Prod.fst)
    : ∃ context d left right, Represents 0 m tree (plug context (.node q d left right))
        ∧ (plug context (.node q d left right)).inorder val = entries := by
  obtain ⟨old, rep, rfl⟩ := holding
  obtain ⟨context, d, left, right, rfl⟩ := exists_plug ((inorder_addrs old).mem_iff.mp mem)
  exact ⟨context, d, left, right, rep, rfl⟩

theorem setRed (holding : Holding m tree entries) (q : Nat) (value : Bool)
    : Holding (Mem.setRed m q value) tree entries := by
  by_cases mem : q ∈ entries.map Prod.fst
  · obtain ⟨context, d, left, right, rep, rfl⟩ := holding.position mem
    have focus : Represents 0 m tree (plug context (join false q d left right)) := rep
    exact ⟨_, represents_setRed focus value, inorder_plug_congr (inorder_join_congr rfl rfl rfl)⟩
  · obtain ⟨old, rep, rfl⟩ := holding
    refine ⟨old, rep.congr fun p inside => ⟨fun _ => rfl, rfl, Function.update_of_ne ?_ _ _⟩, rfl⟩
    rintro rfl
    exact mem ((inorder_addrs old).mem_iff.mpr inside)

theorem rotate (holding : Holding m tree entries) (mem : q ∈ entries.map Prod.fst) (dir : Bool)
    : Holding (bstreeRotate m tree q dir).1 (bstreeRotate m tree q dir).2 entries := by
  obtain ⟨context, d, left, right, rep, rfl⟩ := holding.position mem
  obtain ⟨near, far, shape⟩ : ∃ near far,
      (.node q d left right : Node) = join dir q d near far := by
    cases dir with
    | false => exact ⟨left, right, rfl⟩
    | true => exact ⟨right, left, rfl⟩
  rw [shape] at rep ⊢
  cases far with
  | nil =>
    have missing : m.child q (!dir) = 0 := (holds_join.mp rep.atPosition.2.1).2.2.2.2.1
    rw [bstreeRotate, if_pos missing]
    exact ⟨_, rep, rfl⟩
  | node r dr x y =>
    obtain ⟨inner, outer, below⟩ : ∃ inner outer,
        (.node r dr x y : Node) = join dir r dr inner outer := by
      cases dir with
      | false => exact ⟨x, y, rfl⟩
      | true => exact ⟨y, x, rfl⟩
    rw [below] at rep ⊢
    exact ⟨_, represents_rotate rep, inorder_plug_congr (inorder_rotate dir)⟩

theorem parent_mem (holding : Holding m tree entries) (mem : q ∈ entries.map Prod.fst)
    (real : m.parent q ≠ 0)
    : m.parent q ∈ entries.map Prod.fst := by
  obtain ⟨context, d, left, right, rep, rfl⟩ := holding.position mem
  have up : m.parent q = holeParent 0 context := rep.atPosition.2.1.2.1
  rw [(inorder_addrs _).mem_iff, (addrs_plug _ _).mem_iff, up]
  cases context with
  | nil => exact absurd up real
  | cons frame rest => exact mem_append_right _ (holeParent_mem (cons_ne_nil _ _))

theorem child_mem (holding : Holding m tree entries) (mem : q ∈ entries.map Prod.fst) {dir}
    (real : m.child q dir ≠ 0)
    : m.child q dir ∈ entries.map Prod.fst := by
  obtain ⟨context, d, left, right, rep, rfl⟩ := holding.position mem
  obtain ⟨_, _, _, toLeft, toRight, _, _⟩ := rep.atPosition.2.1
  rw [(inorder_addrs _).mem_iff, (addrs_plug _ _).mem_iff, mem_append, Tree.addrs, mem_cons,
    mem_append]
  cases dir with
  | false =>
    rw [toLeft] at real ⊢
    exact .inl (.inr (.inl (addr_mem fun empty => real (by rw [empty]; rfl))))
  | true =>
    rw [toRight] at real ⊢
    exact .inl (.inr (.inr (addr_mem fun empty => real (by rw [empty]; rfl))))

/-- The repair of `rbtree_add` keeps the order.
Witness: induction on the bound; every store is a colour or part of a rotation at a node.
-/
theorem addFixup {node prev} (holding : Holding m tree entries) (mem : prev ∈ entries.map Prod.fst)
    (done : Rbtree.addFixup fuel m tree node prev = some (m', tree'))
    : Holding m' tree' entries := by
  induction fuel generalizing m tree node prev with
  | zero => cases done
  | succ fuel ih =>
    rw [Rbtree.addFixup] at done
    split at done
    · cases done
      exact holding
    simp only at done
    split at done
    · cases done
      exact holding.setRed _ _
    next real =>
    have above := holding.parent_mem mem real
    split at done
    · cases done
    split at done
    · cases done
      split
      · exact (((holding.rotate mem _).rotate above _).setRed _ _).setRed _ _
      · exact ((holding.rotate above _).setRed _ _).setRed _ _
    · have coloured := ((holding.setRed prev false).setRed
        (m.child (m.parent prev) (!!(prev == m.child (m.parent prev) false))) false).setRed
        (m.parent prev) true
      split at done
      next higher => exact ih coloured (coloured.parent_mem above higher) done
      · cases done
        exact coloured.setRed _ _

/-- So does the repair of `rbtree_remove`. -/
theorem removeFixup {parent idx} (holding : Holding m tree entries)
    (mem : parent ∈ entries.map Prod.fst)
    (done : Rbtree.removeFixup fuel m tree parent idx = some (m', tree'))
    : Holding m' tree' entries := by
  induction fuel generalizing m tree parent idx with
  | zero => cases done
  | succ fuel ih =>
    rw [Rbtree.removeFixup] at done
    simp only at done
    split at done
    · cases done
    next real =>
    have sibling := holding.child_mem mem real
    -- a red sibling is turned up first
    obtain ⟨⟨⟨m₁, tree₁⟩, s⟩, turned, holding₁, inTree⟩ : ∃ turned, turned
        = (if Mem.red m (m.child parent (!idx)) then
          ((Mem.setRed (Mem.setRed (bstreeRotate m tree parent idx).1 parent true)
                (m.child parent (!idx)) false, (bstreeRotate m tree parent idx).2),
            (Mem.setRed (Mem.setRed (bstreeRotate m tree parent idx).1 parent true)
                (m.child parent (!idx)) false).child (m.child parent (!idx)) idx)
        else ((m, tree), m.child parent (!idx)))
        ∧ Holding turned.1.1 turned.1.2 entries
        ∧ (turned.2 ≠ 0 → turned.2 ∈ entries.map Prod.fst) := by
      refine ⟨_, rfl, ?_⟩
      split
      · have coloured := ((holding.rotate mem idx).setRed parent true).setRed
          (m.child parent (!idx)) false
        exact ⟨coloured, coloured.child_mem sibling⟩
      · exact ⟨holding, fun _ => sibling⟩
    rw [← turned] at done
    split at done
    · cases done
    next some =>
    have blackened := (holding₁.setRed s false).setRed parent false
    split at done
    · cases done
      exact ((blackened.rotate mem idx).setRed _ _).setRed _ _
    split at done
    · cases done
      exact (((blackened.rotate (inTree some) (!idx)).rotate mem idx).setRed _ _).setRed _ _
    have reddened := blackened.setRed s true
    split at done
    · cases done
      exact reddened
    split at done
    next higher => exact ih reddened (reddened.parent_mem mem higher) done
    · cases done
      exact reddened

/-- `rbtree_add` puts the node where its key fits. -/
theorem rbtreeAdd {node} (holding : Holding m tree entries) (real : node ≠ 0)
    (fresh : node ∉ entries.map Prod.fst) (enough : entries.length < fuel)
    (sorted : entries.Pairwise fun first second => first.2 ≤ second.2)
    (done : Rbtree.rbtreeAdd fuel m tree node = some (m', tree'))
    : ∃ smaller larger, entries = smaller ++ larger
        ∧ (∀ entry ∈ smaller, entry.2 ≤ Mem.val m node)
        ∧ (∀ entry ∈ larger, Mem.val m node ≤ entry.2)
        ∧ Holding m' tree' (smaller ++ (node, Mem.val m node) :: larger) := by
  obtain ⟨old, rep, rfl⟩ := holding
  by_cases empty : old = .nil
  · subst empty
    refine ⟨[], [], rfl, by simp, by simp, .node node ⟨false, Mem.val m node⟩ .nil .nil, ?_, rfl⟩
    rw [Rbtree.rbtreeAdd, if_neg real] at done
    obtain ⟨rfl, rfl⟩ := Prod.mk.inj (Option.some.inj ((if_pos rep.root).symm.trans done))
    exact ⟨rfl, freshNode_holds real, by simp [Tree.addrs]⟩
  rw [(inorder_addrs old).mem_iff] at fresh
  rw [← length_map Prod.fst, (inorder_addrs old).length_eq] at enough
  obtain ⟨frame, rest, rfl, fits, run⟩ := rbtreeAdd_hangs rep empty real fresh enough
  rw [(addrs_plug _ _).mem_iff, Tree.addrs, nil_append] at fresh
  have hung := represents_addAt rep real fresh
  obtain ⟨below, above⟩ := fits sorted
  refine ⟨before val (frame :: rest), after val (frame :: rest), ?_, below, above, ?_⟩
  · rw [inorder_plug, Tree.inorder, append_nil]
  have order : (plug (frame :: rest) (join false node ⟨true, Mem.val m node⟩ .nil .nil)).inorder val
      = before val (frame :: rest) ++ (node, Mem.val m node) :: after val (frame :: rest) := by
    rw [inorder_plug]
    simp [join, Tree.inorder]
  rw [run] at done
  refine addFixup ⟨_, hung, order⟩ ?_ done
  rw [← order, (inorder_addrs _).mem_iff, (addrs_plug _ _).mem_iff]
  exact mem_append_right _ (holeParent_mem (cons_ne_nil _ _))

/-- `rbtree_remove` takes just the node out, if it returns. -/
theorem rbtreeRemove (holding : Holding m tree entries) (mem : q ∈ entries.map Prod.fst)
    (enough : entries.length < fuel) (done : Rbtree.rbtreeRemove fuel m tree q = some (m', tree'))
    : Holding m' tree' (entries.filter (·.1 ≠ q)) := by
  obtain ⟨context, d, left, right, rep, rfl⟩ := holding.position mem
  have distinct : (((plug context (.node q d left right)).inorder val).map Prod.fst).Nodup :=
    (inorder_addrs _).nodup_iff.mpr rep.distinct
  rw [← length_map Prod.fst, (inorder_addrs _).length_eq] at enough
  have ofErased (erased : Erased (fun _ => True) (Rbtree.rbtreeRemove fuel m tree q)
      (plug context (.node q d left right)) q)
      : Holding m' tree'
          (((plug context (.node q d left right)).inorder val).filter (·.1 ≠ q)) := by
    obtain ⟨smaller, larger, key, order, m₁, tree₁, new, call, rep₁, _, newOrder⟩ := erased
    cases done.symm.trans call
    exact ⟨new, rep₁, newOrder.trans (filter_erased order distinct).symm⟩
  have ofSingle {other} (single : OnlyChild left right other)
      : Holding m' tree'
          (((plug context (.node q d left right)).inorder val).filter (·.1 ≠ q)) := by
    cases context with
    | nil => exact ofErased (remove_root_single rep single trivial)
    | cons frame rest =>
    obtain ⟨smaller, larger, order, newOrder⟩ := @inorder_single q (frame :: rest) d _ _ _ single
    rw [filter_erased order distinct, ← newOrder]
    have linked : Holding _ tree ((plug (frame :: rest) other).inorder val) :=
      ⟨_, represents_replace rep single, rfl⟩
    have fields : FrameFields m frame rest q := frameFields (by simp) rep
    rw [rbtreeRemove_single rep single, holeParent, relink_below fields (below_ne_root rep)] at done
    simp only at done
    split at done
    · cases done
      exact linked.setRed _ _
    split at done
    · cases done
      exact linked
    refine linked.removeFixup ?_ done
    rw [(inorder_addrs _).mem_iff, (addrs_plug _ _).mem_iff]
    exact mem_append_right _ (holeParent_mem (cons_ne_nil _ _))
  by_cases noLeft : left = .nil
  · exact ofSingle (.inl ⟨noLeft, rfl⟩)
  by_cases noRight : right = .nil
  · exact ofSingle (.inr ⟨noRight, rfl⟩)
  by_cases leaf : LeafSuccessor m q
  · rw [rbtreeRemove_of_leafSuccessor rep leaf] at done
    cases done
  · exact ofErased (remove_inner_erased rep noLeft noRight leaf enough)

end Holding

end UnstableOS.Rbtree
