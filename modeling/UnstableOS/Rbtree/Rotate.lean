import UnstableOS.Rbtree.Code

/-! The stores of the operations as changes of the represented tree: rotations, colours, and
another subtree hung at a position.
-/

namespace UnstableOS.Rbtree

open Lib.LinkedTree Function List

abbrev Node := Tree Nat Data
abbrev Context := List (Frame Nat Data)

variable {m : Mem} {tree : Nat} {context : Context}

variable {m' : Mem} {position x y z : Node} {a r child : Nat} {da dr : Data} {dir : Bool}
    {frame : Frame Nat Data} {rest : Context}

attribute [local simp] contextAddrs

/-- The pointer at the position of a context is redirected by `parent->nodes[...] = target`, or
by a store to the root pointer when there is no parent.
-/
theorem retargets_of_fields {target} (above : HoldsContext 0 m context (position.addr 0))
    (distinct : (contextAddrs context).Nodup)
    (children : ∀ q ∈ contextAddrs context, ∀ dir, m'.child q dir
      = if q = holeParent 0 context ∧ m.child q dir = position.addr 0 then target
        else m.child q dir)
    (sameParent : ∀ q ∈ contextAddrs context, m'.parent q = m.parent q)
    (sameData : ∀ q ∈ contextAddrs context, m'.data q = m.data q)
    (apart : ∀ frame rest, context = frame :: rest → frame.sibling.addr 0 ≠ position.addr 0)
    : m.Retargets 0 context m' target := by
  constructor
  · intro q mem notParent
    refine ⟨fun dir => ?_, sameParent q mem, sameData q mem⟩
    rw [children q mem, if_neg (fun both => notParent both.1)]
  · rintro frame rest rfl
    exact sameParent _ (by simp)
  · rintro frame rest rfl
    exact sameData _ (by simp)
  · rintro frame rest rfl
    obtain ⟨_, _, _, toHole, _⟩ := above
    rw [children _ (by simp), if_pos ⟨rfl, toHole⟩]
  · rintro frame rest rfl
    obtain ⟨_, _, _, _, toSibling, _⟩ := above
    rw [children _ (by simp), if_neg]
    rintro ⟨_, same⟩
    exact apart frame rest rfl (toSibling.symm.trans same)

section RotateFields
variable {node parent root child : Nat} {dir : Bool}

theorem rotateLinks_child (q : Nat) (side : Bool)
    : (rotateLinks m node parent root child dir).child q side = if q = root ∧ side = dir then node
        else if q = node ∧ side = !dir then child
        else m.child q side := by
  simp only [rotateLinks]
  by_cases leaf : child = 0
  · rw [if_neg (by simp [leaf])]
    rfl
  · rw [if_pos leaf]
    rfl

theorem rotateLinks_parent (q : Nat)
    : (rotateLinks m node parent root child dir).parent q = if q = node then root
        else if q = root then parent
        else if child ≠ 0 ∧ q = child then node
        else m.parent q := by
  simp only [rotateLinks]
  by_cases leaf : child = 0
  · rw [if_neg (by simp [leaf])]
    simp [Mem.setParent, Mem.setChild, update_apply, leaf]
  · rw [if_pos leaf]
    simp [Mem.setParent, Mem.setChild, update_apply, leaf]

theorem rotateLinks_data : (rotateLinks m node parent root child dir).data = m.data := by
  simp only [rotateLinks]
  split <;> rfl

end RotateFields

/-- The subtree after a rotation. -/
theorem holds_rotateLinks {parent} (holds : Holds 0 m parent (join dir a da x (join dir r dr y z)))
    (distinct : (join dir a da x (join dir r dr y z)).addrs.Nodup)
    (children : ∀ q ∈ (join dir a da x (join dir r dr y z)).addrs, ∀ side,
      m'.child q side = (rotateLinks m a parent r (y.addr 0) dir).child q side)
    (parents : m'.parent = (rotateLinks m a parent r (y.addr 0) dir).parent)
    (sameData : m'.data = m.data)
    : Holds 0 m' parent (join dir r dr (join dir a da x y) z) := by
  obtain ⟨aReal, _, aData, toX, toR, holdsX, holdsR⟩ := holds_join.mp holds
  obtain ⟨rReal, _, rData, toY, toZ, holdsY, holdsZ⟩ := holds_join.mp holdsR
  have explicit := ((addrs_join _ _ _ _ _).trans
      (((addrs_join _ _ _ _ _).append_left _).cons _)).nodup_iff.mp distinct
  have inTree (q) : q ∈ (join dir a da x (join dir r dr y z)).addrs
      ↔ q = a ∨ q ∈ x.addrs ∨ q = r ∨ q ∈ y.addrs ∨ q ∈ z.addrs := by
    rw [(addrs_join _ _ _ _ _).mem_iff, mem_cons, mem_append,
      (addrs_join _ _ _ _ _).mem_iff, mem_cons, mem_append]
  simp only [nodup_cons, nodup_append, mem_append, mem_cons] at explicit
  obtain ⟨aFresh, xDistinct, ⟨rFresh, yDistinct, zDistinct, yzApart⟩, xApart⟩ := explicit
  have ar : a ≠ r := fun same => aFresh (.inr (.inl same))
  have yIn (some : y.addr 0 ≠ 0) : y.addr 0 ∈ y.addrs :=
    addr_mem (fun empty => some (by rw [empty]; rfl))
  have childAt (q) (mem : q ∈ (join dir a da x (join dir r dr y z)).addrs) (side)
      : m'.child q side = if q = r ∧ side = dir then a
          else if q = a ∧ side = !dir then y.addr 0 else m.child q side := by
    rw [children q mem, rotateLinks_child]
  have parentAt (q) : m'.parent q = if q = a then r else if q = r then parent
      else if y.addr 0 ≠ 0 ∧ q = y.addr 0 then a else m.parent q := by
    rw [parents, rotateLinks_parent]
  -- the subtrees keep their inner pointers; only the middle one changes its parent
  have away (q) (notA : q ≠ a) (notR : q ≠ r) (mem : q ∈ x.addrs ∨ q ∈ y.addrs ∨ q ∈ z.addrs) (side)
      : m'.child q side = m.child q side := by
    rw [childAt q ((inTree q).mpr (.inr (mem.imp_right .inr))), if_neg (fun both => notR both.1),
      if_neg (fun both => notA both.1)]
  have sameAt (q) (notA : q ≠ a) (notR : q ≠ r) (mem : q ∈ x.addrs ∨ q ∈ z.addrs)
      (notY : q ∉ y.addrs)
      : m.SameAt m' q := by
    refine ⟨away q notA notR (mem.imp_right .inr), ?_, by rw [sameData]⟩
    rw [parentAt, if_neg notA, if_neg notR, if_neg]
    rintro ⟨real, rfl⟩
    exact notY (yIn real)
  have aIn := (inTree a).mpr (.inl rfl)
  have rIn := (inTree r).mpr (.inr (.inr (.inl rfl)))
  refine holds_join.mpr ⟨rReal, ?_, ?_, ?_, ?_, holds_join.mpr ⟨aReal, ?_, ?_, ?_, ?_, ?_, ?_⟩, ?_⟩
  · rw [parentAt, if_neg ar.symm, if_pos rfl]
  · rw [sameData, rData]
  · rw [childAt r rIn, if_pos ⟨rfl, rfl⟩, addr_join]
  · rw [childAt r rIn, if_neg (by simp), if_neg (by simp [ar.symm]), toZ]
  · rw [parentAt, if_pos rfl]
  · rw [sameData, aData]
  · rw [childAt a aIn, if_neg (by simp [ar]), if_neg (by simp), toX]
  · rw [childAt a aIn, if_neg (by simp), if_pos ⟨rfl, rfl⟩]
  · refine holdsX.congr fun q mem => sameAt q ?_ ?_ (.inl mem) ?_
    · rintro rfl
      exact aFresh (.inl mem)
    · rintro rfl
      exact xApart q mem q (.inl rfl) rfl
    · intro inY
      exact xApart q mem q (.inr (.inl inY)) rfl
  · have notA {q} (mem : q ∈ y.addrs) : q ≠ a := by
      rintro rfl
      exact aFresh (.inr (.inr (.inl mem)))
    have notR {q} (mem : q ∈ y.addrs) : q ≠ r := by
      rintro rfl
      exact rFresh (.inl mem)
    refine holdsY.hang yDistinct ?_ ?_
    · intro some
      have real := holdsY.addr_ne_null some
      have mem := yIn real
      rw [parentAt, if_neg (notA mem), if_neg (notR mem), if_pos ⟨real, rfl⟩]
    · intro q mem
      refine ⟨away q (notA mem) (notR mem) (.inr (.inl mem)), by rw [sameData], ?_⟩
      intro notRoot
      rw [parentAt, if_neg (notA mem), if_neg (notR mem), if_neg (fun both => notRoot both.2)]
  · refine holdsZ.congr fun q mem => sameAt q ?_ ?_ (.inr mem) ?_
    · rintro rfl
      exact aFresh (.inr (.inr (.inr mem)))
    · rintro rfl
      exact rFresh (.inr mem)
    · intro inY
      exact yzApart q inY q mem rfl

/-- The slot of the parent that leads to the position is the one `node == parent->nodes[1]`
selects.
-/
theorem slot_iff (above : HoldsContext 0 m (frame :: rest) (position.addr 0))
    (apart : frame.sibling.addr 0 ≠ position.addr 0) (side : Bool)
    : m.child frame.addr side = position.addr 0
      ↔ side = (position.addr 0 == m.child frame.addr true) := by
  obtain ⟨_, _, _, toHole, toSibling, _⟩ := above
  cases dir : frame.dir with
  | false =>
    rw [dir] at toHole toSibling
    have right : (position.addr 0 == m.child frame.addr true) = false := by
      rw [beq_eq_false_iff_ne]
      intro same
      exact apart (toSibling.symm.trans same.symm)
    rw [right]
    cases side with
    | false => simp [toHole]
    | true =>
      simp only [Bool.true_eq_false, iff_false]
      intro same
      exact apart (toSibling.symm.trans same)
  | true =>
    rw [dir] at toHole toSibling
    rw [toHole, beq_self_eq_true]
    cases side with
    | false =>
      simp only [Bool.false_eq_true, iff_false]
      intro same
      exact apart (toSibling.symm.trans same)
    | true => simp [toHole]

/-- Nothing else in the context has the address of a nonempty subtree at its position. -/
theorem sibling_apart (real : position.addr 0 ≠ 0)
    (distinct : (position.addrs ++ contextAddrs (frame :: rest)).Nodup)
    : frame.sibling.addr 0 ≠ position.addr 0 := by
  intro same
  have inPosition : position.addr 0 ∈ position.addrs :=
    addr_mem (fun empty => real (by rw [empty]; rfl))
  have inSibling : frame.sibling.addr 0 ∈ frame.sibling.addrs :=
    addr_mem (fun empty => real (by rw [← same, empty]; rfl))
  refine (nodup_append.mp distinct).2.2 _ inPosition _ ?_ same.symm
  simp [inSibling]

theorem holeParent_mem (some : context ≠ []) : holeParent 0 context ∈ contextAddrs context := by
  cases context with
  | nil => exact absurd rfl some
  | cons frame rest => simp [holeParent]

/-- `bstree_rotate` turns an edge of the represented tree. -/
theorem represents_rotate
    (rep : Represents 0 m tree (plug context (join dir a da x (join dir r dr y z))))
    : Represents 0 (bstreeRotate m tree a dir).1 (bstreeRotate m tree a dir).2
        (plug context (join dir r dr (join dir a da x y) z)) := by
  obtain ⟨above, below, distinct⟩ := rep.atPosition
  obtain ⟨aReal, toParent, _, _, toR, _, holdsR⟩ := holds_join.mp below
  obtain ⟨rReal, _, _, toY, _, _, _⟩ := holds_join.mp holdsR
  rw [addr_join] at toR
  obtain ⟨treeDistinct, contextDistinct, apart⟩ := nodup_append.mp distinct
  have notInside (q) (mem : q ∈ (join dir a da x (join dir r dr y z)).addrs) (some : context ≠ [])
      : q ≠ holeParent 0 context :=
    fun same => apart q mem _ (holeParent_mem some) same
  have inA : a ∈ (join dir a da x (join dir r dr y z)).addrs := by
    rw [(addrs_join _ _ _ _ _).mem_iff]
    simp
  have inR : r ∈ (join dir a da x (join dir r dr y z)).addrs := by
    rw [(addrs_join _ _ _ _ _).mem_iff, mem_cons, mem_append, (addrs_join _ _ _ _ _).mem_iff]
    simp
  have perm : (join dir r dr (join dir a da x y) z).addrs.Perm
      (join dir a da x (join dir r dr y z)).addrs := by
    refine (addrs_join _ _ _ _ _).trans ?_
    refine Perm.trans ?_ (addrs_join _ _ _ _ _).symm
    refine (((addrs_join _ _ _ _ _).append_right _).cons _).trans ?_
    refine Perm.trans ?_ (((addrs_join _ _ _ _ _).append_left _).cons _).symm
    simp only [cons_append, append_assoc]
    refine (Perm.swap _ _ _).trans (Perm.cons _ ?_)
    exact (perm_middle).symm
  have newDistinct := (perm.append_right _).nodup_iff.mpr distinct
  have run : bstreeRotate m tree a dir = if holeParent 0 context ≠ 0 then
          (Mem.setChild (rotateLinks m a (holeParent 0 context) r (y.addr 0) dir)
            (holeParent 0 context)
            (a == (rotateLinks m a (holeParent 0 context) r (y.addr 0) dir).child
              (holeParent 0 context) true) r, tree)
        else (rotateLinks m a (holeParent 0 context) r (y.addr 0) dir, r) := by
    simp [bstreeRotate, toR, if_neg rReal, toParent, toY]
  cases context with
  | nil =>
    rw [run, if_neg (by simp [holeParent])]
    refine rep.subst ?_ newDistinct ?_ (fun _ => by rw [addr_join]) (fun some => absurd rfl some)
    · exact holds_rotateLinks below treeDistinct (fun _ _ _ => rfl) rfl rotateLinks_data
    · constructor <;> simp
  | cons frame rest =>
    have parentReal : holeParent 0 (frame :: rest) ≠ 0 := above.1
    have sameData : (rotateLinks m a (holeParent 0 (frame :: rest)) r (y.addr 0) dir).data
        = m.data := rotateLinks_data
    have notA := (notInside a inA (by simp)).symm
    have notR := (notInside r inR (by simp)).symm
    have sibApart := sibling_apart (by rw [addr_join]; exact aReal) distinct
    have slot (side) := slot_iff above sibApart side
    rw [addr_join] at slot
    have sameSlot (side)
        : (rotateLinks m a (holeParent 0 (frame :: rest)) r (y.addr 0) dir).child
            (holeParent 0 (frame :: rest)) side
          = m.child (holeParent 0 (frame :: rest)) side := by
      rw [rotateLinks_child, if_neg (fun both => notR both.1), if_neg (fun both => notA both.1)]
    rw [run, if_pos parentReal, sameSlot]
    refine rep.subst ?_ newDistinct ?_ (fun empty => absurd empty (by simp)) (fun _ => rfl)
    · refine holds_rotateLinks below treeDistinct ?_ rfl sameData
      intro q mem side
      exact if_neg (fun both => notInside q mem (by simp) both.1)
    · rw [addr_join]
      refine retargets_of_fields above contextDistinct ?_ ?_ ?_ ?_
      · intro q mem side
        have qNotA : q ≠ a := fun same => apart a inA q mem same.symm
        have qNotR : q ≠ r := fun same => apart r inR q mem same.symm
        simp only [Mem.setChild, rotateLinks_child, qNotA, qNotR, false_and, if_false, addr_join]
        by_cases atParent : q = holeParent 0 (frame :: rest)
        · subst atParent
          simp only [true_and]
          exact if_congr (slot side).symm rfl rfl
        · simp [atParent]
      · intro q mem
        have qNotA : q ≠ a := fun same => apart a inA q mem same.symm
        have qNotR : q ≠ r := fun same => apart r inR q mem same.symm
        have parents : (Mem.setChild (rotateLinks m a (holeParent 0 (frame :: rest)) r (y.addr 0)
            dir) (holeParent 0 (frame :: rest)) (a == m.child (holeParent 0 (frame :: rest)) true)
            r).parent q
            = (rotateLinks m a (holeParent 0 (frame :: rest)) r (y.addr 0) dir).parent q := rfl
        rw [parents, rotateLinks_parent, if_neg qNotA, if_neg qNotR, if_neg]
        rintro ⟨real, rfl⟩
        have inY : y.addr 0 ∈ y.addrs := addr_mem (fun empty => real (by rw [empty]; rfl))
        refine apart _ ?_ _ mem rfl
        rw [(addrs_join _ _ _ _ _).mem_iff, mem_cons, mem_append, (addrs_join _ _ _ _ _).mem_iff]
        simp [inY]
      · intro q _
        exact congrFun sameData q
      · rintro frame' rest' ⟨⟩
        exact sibApart

/-- A colour change at a position. -/
theorem represents_setRed {d}
    (rep : Represents 0 m tree (plug context (join dir a d x y))) (value : Bool)
    : Represents 0 (Mem.setRed m a value) tree
        (plug context (join dir a { d with red := value } x y)) := by
  obtain ⟨above, below, distinct⟩ := rep.atPosition
  obtain ⟨real, up, payload, toX, toY, holdsX, holdsY⟩ := holds_join.mp below
  have elsewhere (q) (notHere : q ≠ a) : m.SameAt (Mem.setRed m a value) q :=
    ⟨fun _ => rfl, rfl, update_of_ne notHere _ _⟩
  have explicit := (((addrs_join dir a d x y).append_right _).nodup_iff).mp distinct
  have fresh := (nodup_cons.mp explicit).1
  have newPerm : (join dir a { d with red := value } x y).addrs.Perm (join dir a d x y).addrs :=
    (addrs_join _ _ _ _ _).trans (addrs_join _ _ _ _ _).symm
  refine rep.subst ?_ ((newPerm.append_right _).nodup_iff.mpr distinct) ?_ ?_ (fun _ => rfl)
  · refine holds_join.mpr ⟨real, up, ?_, toX, toY, holdsX.congr ?_, holdsY.congr ?_⟩
    · rw [← payload]
      exact update_self _ _ _
    · exact fun q mem => elsewhere q fun same => fresh (by simp [← same, mem])
    · exact fun q mem => elsewhere q fun same => fresh (by simp [← same, mem])
  · have outside (q) (mem : q ∈ contextAddrs context) : m.SameAt (Mem.setRed m a value) q :=
      elsewhere q fun same => fresh (by simp [← same, mem])
    constructor
    · exact fun q mem _ => outside q mem
    · exact fun frame rest _ => rfl
    · rintro frame rest rfl
      exact (outside _ (by simp)).data
    · rintro frame rest rfl
      rw [addr_join]
      have := above.2.2.2.1
      rwa [addr_join] at this
    · exact fun frame rest _ => rfl
  · rintro rfl
    rw [addr_join, rep.root]
    exact addr_join _ _ _ _ _

/-- The root of the subtree gets a new parent, if there is a root. -/
def hang (m : Mem) (child parent : Nat) : Mem :=
  if child ≠ 0 then Mem.setParent m child parent else m

theorem hang_child (child parent : Nat) : (hang m child parent).child = m.child := by
  simp only [hang]
  split <;> rfl

theorem hang_data (child parent : Nat) : (hang m child parent).data = m.data := by
  simp only [hang]
  split <;> rfl

theorem hang_parent {q} (other : q ≠ child) (parent : Nat)
    : (hang m child parent).parent q = m.parent q := by
  simp only [hang]
  split
  · exact update_of_ne other _ _
  · rfl

theorem hang_root (real : child ≠ 0) (parent : Nat)
    : (hang m child parent).parent child = parent := by
  rw [hang, if_pos real]
  exact update_self _ _ _

/-- Another subtree takes the place of the one at the position. -/
theorem represents_hang {other : Node} {hole up} (above : HoldsContext 0 m (frame :: rest) hole)
    (root : tree = (plug (frame :: rest) position).addr 0) (below : Holds 0 m up other)
    (distinct : (other.addrs ++ contextAddrs (frame :: rest)).Nodup)
    : Represents 0
        (Mem.setChild (hang m (other.addr 0) frame.addr) frame.addr frame.dir (other.addr 0))
        tree (plug (frame :: rest) other) := by
  obtain ⟨inside, outside, apart⟩ := nodup_append.mp distinct
  have notAbove {q} (mem : q ∈ other.addrs) : q ≠ frame.addr :=
    fun same => apart q mem _ (by simp) same
  have notRoot {q} (mem : q ∈ contextAddrs (frame :: rest)) (real : other ≠ .nil)
      : q ≠ other.addr 0 :=
    fun same => apart _ (addr_mem real) q mem same.symm
  have sameParent {q} (mem : q ∈ contextAddrs (frame :: rest))
      : (hang m (other.addr 0) frame.addr).parent q = m.parent q := by
    cases other with
    | nil => rfl
    | node a d l r => exact hang_parent (notRoot mem (by simp)) _
  refine ⟨root.trans (addr_plug_cons _ _ _ _), ?_, (addrs_plug _ _).nodup_iff.mpr distinct⟩
  refine holds_plug.mpr ⟨above.retarget outside ⟨?_, ?_, ?_, ?_, ?_⟩, below.hang inside ?_ ?_⟩
  · intro q mem elsewhere
    refine ⟨fun side => ?_, sameParent mem, congrFun (hang_data _ _) q⟩
    rw [Mem.setChild, hang_child]
    exact if_neg (fun both => elsewhere both.1)
  · rintro frame' rest' ⟨⟩
    exact sameParent (by simp)
  · intro frame' rest' _
    exact congrFun (hang_data _ _) _
  · rintro frame' rest' ⟨⟩
    exact if_pos ⟨rfl, rfl⟩
  · rintro frame' rest' ⟨⟩
    rw [Mem.setChild, hang_child]
    exact if_neg (by simp)
  · intro real
    exact hang_root (below.addr_ne_null real) _
  · intro q mem
    refine ⟨fun side => ?_, congrFun (hang_data _ _) q, fun notTop => hang_parent notTop _⟩
    rw [Mem.setChild, hang_child]
    exact if_neg (fun both => notAbove mem both.1)

end UnstableOS.Rbtree
