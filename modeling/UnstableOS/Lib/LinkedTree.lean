import Mathlib.Data.List.Nodup
import Mathlib.Data.List.Perm.Basic

/-! Binary trees in memory, linked by child and parent pointers.
`Represents` relates a memory to a tree whose nodes carry their addresses. A position in a tree is
a context, the list of frames from the position up to the root; a change of the memory below one
position is a change of the tree that is plugged into its context.
-/

namespace UnstableOS.Lib.LinkedTree

open List

variable {ι β : Type*}

inductive Tree (ι β : Type*) where
  | nil
  | node (addr : ι) (data : β) (left right : Tree ι β)
deriving DecidableEq, Repr

open LinkedTree.Tree

/-- The pointers and payloads of all nodes; child `false` is the left one. -/
@[ext] structure Memory (ι β : Type*) where
  child : ι → Bool → ι
  parent : ι → ι
  data : ι → β

/-- One step from a node to its parent: the node, the side the position is on, and the subtree on
the other side.
-/
structure Frame (ι β : Type*) where
  addr : ι
  data : β
  dir : Bool
  sibling : Tree ι β
deriving DecidableEq, Repr

def Tree.addrs : Tree ι β → List ι
  | .nil => []
  | .node addr _ left right => addr :: (left.addrs ++ right.addrs)

/-- The node with the given subtree on the side `dir` and the other subtree on the other. -/
def join (dir : Bool) (addr : ι) (data : β) (near far : Tree ι β) : Tree ι β :=
  if dir then .node addr data far near else .node addr data near far

def Frame.fill (frame : Frame ι β) (tree : Tree ι β) : Tree ι β :=
  join frame.dir frame.addr frame.data tree frame.sibling

/-- The frames are listed from the position upwards. -/
def plug : List (Frame ι β) → Tree ι β → Tree ι β
  | [], tree => tree
  | frame :: rest, tree => plug rest (frame.fill tree)

def contextAddrs : List (Frame ι β) → List ι
  | [] => []
  | frame :: rest => frame.addr :: (frame.sibling.addrs ++ contextAddrs rest)

section Null
variable (null : ι)

def Tree.addr : Tree ι β → ι
  | .nil => null
  | .node addr _ _ _ => addr

/-- The address of the node above the position. -/
def holeParent : List (Frame ι β) → ι
  | [] => null
  | frame :: _ => frame.addr

/-- The memory holds the subtree, below the given parent. -/
def Holds (m : Memory ι β) (parent : ι) : Tree ι β → Prop
  | .nil => True
  | .node addr data left right =>
    addr ≠ null ∧ m.parent addr = parent ∧ m.data addr = data
      ∧ m.child addr false = left.addr null ∧ m.child addr true = right.addr null
      ∧ Holds m addr left ∧ Holds m addr right

/-- The memory holds the context, with the pointer `hole` at the position. -/
def HoldsContext (m : Memory ι β) : List (Frame ι β) → ι → Prop
  | [], _ => True
  | frame :: rest, hole =>
    frame.addr ≠ null ∧ m.parent frame.addr = holeParent null rest
      ∧ m.data frame.addr = frame.data ∧ m.child frame.addr frame.dir = hole
      ∧ m.child frame.addr (!frame.dir) = frame.sibling.addr null
      ∧ Holds null m frame.addr frame.sibling ∧ HoldsContext m rest frame.addr

/-- The memory and the root pointer represent the tree. -/
structure Represents (m : Memory ι β) (root : ι) (tree : Tree ι β) : Prop where
  root : root = tree.addr null
  holds : Holds null m null tree
  distinct : tree.addrs.Nodup

end Null

section Shape
variable {null : ι}

section
variable (dir : Bool) (addr : ι) (data : β) (near far : Tree ι β)
include dir addr data near far

@[simp] theorem addr_join : (join dir addr data near far).addr null = addr := by
  cases dir <;> rfl

theorem join_not : join (!dir) addr data near far = join dir addr data far near := by
  cases dir <;> rfl

theorem addrs_join
    : (join dir addr data near far).addrs.Perm (addr :: (near.addrs ++ far.addrs)) := by
  cases dir with
  | false => exact .refl _
  | true => exact (perm_append_comm).cons addr

end

/-- A plugged tree has the nodes of the subtree and those of the context. -/
theorem addrs_plug (context : List (Frame ι β)) (tree : Tree ι β)
    : (plug context tree).addrs.Perm (tree.addrs ++ contextAddrs context) := by
  induction context generalizing tree with
  | nil => simp [plug, contextAddrs]
  | cons frame rest ih =>
    refine (ih (frame.fill tree)).trans ?_
    refine ((addrs_join _ _ _ _ _).append_right _).trans ?_
    simp only [contextAddrs, cons_append, append_assoc]
    exact (@List.perm_middle _ _ tree.addrs _).symm

theorem plug_append (inner outer : List (Frame ι β)) (tree : Tree ι β)
    : plug (inner ++ outer) tree = plug outer (plug inner tree) := by
  induction inner generalizing tree with
  | nil => rfl
  | cons frame rest ih => exact ih (frame.fill tree)

/-- Every node is at a position. -/
theorem exists_plug {tree : Tree ι β} {a} (mem : a ∈ tree.addrs)
    : ∃ context data left right, tree = plug context (.node a data left right) := by
  induction tree with
  | nil => cases mem
  | node addr data left right ihLeft ihRight =>
    rcases mem_cons.mp mem with rfl | below
    · exact ⟨[], data, left, right, rfl⟩
    rcases mem_append.mp below with inLeft | inRight
    · obtain ⟨context, d, l, r, rfl⟩ := ihLeft inLeft
      refine ⟨context ++ [⟨addr, data, false, right⟩], d, l, r, ?_⟩
      rw [plug_append]
      rfl
    · obtain ⟨context, d, l, r, rfl⟩ := ihRight inRight
      refine ⟨context ++ [⟨addr, data, true, left⟩], d, l, r, ?_⟩
      rw [plug_append]
      rfl

theorem plug_cons_ne_nil (frame : Frame ι β) (rest : List (Frame ι β)) (tree : Tree ι β)
    : plug (frame :: rest) tree ≠ .nil := by
  induction rest generalizing frame tree with
  | nil => cases dir : frame.dir <;> simp [plug, Frame.fill, join, dir]
  | cons above rest ih => exact ih above (frame.fill tree)

theorem length_le_addrs_plug (context : List (Frame ι β)) (tree : Tree ι β)
    : context.length ≤ (plug context tree).addrs.length := by
  rw [(addrs_plug context tree).length_eq, length_append]
  induction context with
  | nil => simp
  | cons frame rest ih =>
    simp only [contextAddrs, length_cons, length_append]
    omega

-- In-order sequence

/-- The nodes from left to right, each with what `key` keeps of its payload. -/
def Tree.inorder {γ : Type*} (key : β → γ) : Tree ι β → List (ι × γ)
  | .nil => []
  | .node addr data left right => left.inorder key ++ (addr, key data) :: right.inorder key

section Inorder
variable {γ : Type*} {key : β → γ}

theorem inorder_addrs (tree : Tree ι β)
    : ((tree.inorder key).map Prod.fst).Perm tree.addrs := by
  induction tree with
  | nil => exact .refl _
  | node addr data left right ihLeft ihRight =>
    simp only [inorder, map_append, map_cons, addrs]
    exact (perm_middle).trans ((ihLeft.append ihRight).cons addr)

/-- What is read before and after the position. -/
def before (key : β → γ) : List (Frame ι β) → List (ι × γ)
  | [] => []
  | frame :: rest =>
    before key rest
      ++ if frame.dir then frame.sibling.inorder key ++ [(frame.addr, key frame.data)] else []

def after (key : β → γ) : List (Frame ι β) → List (ι × γ)
  | [] => []
  | frame :: rest =>
    (if frame.dir then [] else (frame.addr, key frame.data) :: frame.sibling.inorder key)
      ++ after key rest

/-- Nothing is read before a position that is reached through left children only. -/
theorem before_eq_nil {context : List (Frame ι β)} (leftmost : ∀ frame ∈ context, frame.dir = false)
    : before key context = [] := by
  induction context with
  | nil => rfl
  | cons frame rest ih =>
    have here := leftmost frame (by simp)
    have above := ih fun other mem => leftmost other (by simp [mem])
    simp [before, here, above]

theorem inorder_plug (context : List (Frame ι β)) (tree : Tree ι β)
    : (plug context tree).inorder key
      = before key context ++ tree.inorder key ++ after key context := by
  induction context generalizing tree with
  | nil => simp [plug, before, after]
  | cons frame rest ih =>
    rw [plug, ih, Frame.fill]
    cases dir : frame.dir <;> simp [join, before, after, dir, inorder]

theorem inorder_plug_congr {context} {tree tree' : Tree ι β}
    (same : tree'.inorder key = tree.inorder key)
    : (plug context tree').inorder key = (plug context tree).inorder key := by
  rw [inorder_plug, inorder_plug, same]

theorem inorder_rotate (dir : Bool) {a r da dr} {x y z : Tree ι β}
    : (join dir r dr (join dir a da x y) z).inorder key
      = (join dir a da x (join dir r dr y z)).inorder key := by
  cases dir <;> simp [join, inorder]

theorem inorder_join_congr {dir addr data data'} {near near' far far' : Tree ι β}
    (sameKey : key data' = key data) (sameNear : near'.inorder key = near.inorder key)
    (sameFar : far'.inorder key = far.inorder key)
    : (join dir addr data' near' far').inorder key = (join dir addr data near far).inorder key := by
  cases dir <;> simp [join, inorder, sameKey, sameNear, sameFar]

end Inorder

theorem holds_join {m parent dir addr data} {near far : Tree ι β}
    : Holds null m parent (join dir addr data near far)
      ↔ addr ≠ null ∧ m.parent addr = parent ∧ m.data addr = data
        ∧ m.child addr dir = near.addr null ∧ m.child addr (!dir) = far.addr null
        ∧ Holds null m addr near ∧ Holds null m addr far := by
  cases dir with
  | false => exact Iff.rfl
  | true =>
    simp only [join, if_true, Holds, Bool.not_true]
    tauto

/-- Holding a plugged tree is holding the context and the subtree. -/
theorem holds_plug {m context} {tree : Tree ι β}
    : Holds null m null (plug context tree)
      ↔ HoldsContext null m context (tree.addr null)
        ∧ Holds null m (holeParent null context) tree := by
  induction context generalizing tree with
  | nil => simp [plug, HoldsContext, holeParent]
  | cons frame rest ih =>
    rw [plug, ih, Frame.fill, holds_join, addr_join]
    simp only [HoldsContext, holeParent]
    tauto

/-- Below at least one frame, the root pointer does not depend on the subtree. -/
theorem addr_plug_cons (frame : Frame ι β) (rest : List (Frame ι β)) (tree other : Tree ι β)
    : (plug (frame :: rest) tree).addr null = (plug (frame :: rest) other).addr null := by
  induction rest generalizing frame tree other with
  | nil => simp [plug, Frame.fill]
  | cons above rest ih => exact ih above (frame.fill tree) (frame.fill other)

theorem addr_plug_mem (frame : Frame ι β) (rest : List (Frame ι β)) (tree : Tree ι β)
    : (plug (frame :: rest) tree).addr null ∈ contextAddrs (frame :: rest) := by
  induction rest generalizing frame tree with
  | nil => simp [plug, Frame.fill, contextAddrs]
  | cons above rest ih =>
    have higher := ih above (frame.fill tree)
    rw [contextAddrs, mem_cons, mem_append]
    exact .inr (.inr higher)

end Shape

section Change
variable {null : ι} {m m' : Memory ι β}

/-- The memories agree on a node. -/
structure Memory.SameAt (m m' : Memory ι β) (q : ι) : Prop where
  child : ∀ dir, m'.child q dir = m.child q dir
  parent : m'.parent q = m.parent q
  data : m'.data q = m.data q

theorem Holds.congr {parent tree} (holds : Holds null m parent tree)
    (same : ∀ q ∈ tree.addrs, m.SameAt m' q)
    : Holds null m' parent tree := by
  induction tree generalizing parent with
  | nil => trivial
  | node addr data left right ihLeft ihRight =>
    obtain ⟨real, up, payload, toLeft, toRight, holdsLeft, holdsRight⟩ := holds
    have here := same addr (by simp [addrs])
    refine ⟨real, here.parent.trans up, here.data.trans payload, (here.child _).trans toLeft,
      (here.child _).trans toRight, ihLeft holdsLeft ?_, ihRight holdsRight ?_⟩
    · exact fun q mem => same q (by simp [addrs, mem])
    · exact fun q mem => same q (by simp [addrs, mem])

/-- A subtree can be hung below another node by changing the parent pointer of its root. -/
theorem Holds.hang {parent parent' tree} (holds : Holds null m parent tree)
    (distinct : tree.addrs.Nodup) (up : tree ≠ .nil → m'.parent (tree.addr null) = parent')
    (same : ∀ q ∈ tree.addrs, (∀ dir, m'.child q dir = m.child q dir) ∧ m'.data q = m.data q
      ∧ (q ≠ tree.addr null → m'.parent q = m.parent q))
    : Holds null m' parent' tree := by
  cases tree with
  | nil => trivial
  | node addr data left right =>
    obtain ⟨real, _, payload, toLeft, toRight, holdsLeft, holdsRight⟩ := holds
    have notBelow := (nodup_cons.mp distinct).1
    have sameBelow (q) (mem : q ∈ left.addrs ++ right.addrs) : m.SameAt m' q := by
      obtain ⟨children, payloads, parents⟩ := same q (mem_cons_of_mem _ mem)
      refine ⟨children, parents ?_, payloads⟩
      intro atRoot
      have eq : q = addr := atRoot
      exact notBelow (eq ▸ mem)
    obtain ⟨children, payloads, _⟩ := same addr (by simp [addrs])
    refine ⟨real, up (by simp), payloads.trans payload, (children _).trans toLeft,
      (children _).trans toRight, holdsLeft.congr ?_, holdsRight.congr ?_⟩
    · exact fun q mem => sameBelow q (by simp [mem])
    · exact fun q mem => sameBelow q (by simp [mem])

theorem addr_mem {tree : Tree ι β} (some : tree ≠ .nil) : tree.addr null ∈ tree.addrs := by
  cases tree with
  | nil => exact absurd rfl some
  | node addr data left right => simp [Tree.addr, addrs]

theorem Holds.addr_ne_null {parent tree} (holds : Holds null m parent tree) (some : tree ≠ .nil)
    : tree.addr null ≠ null := by
  cases tree with
  | nil => exact absurd rfl some
  | node addr data left right => exact holds.1

/-- The root's address determines the subtree. -/
theorem Holds.unique {parent parent' tree tree'}
    (holds : Holds null m parent tree) (holds' : Holds null m parent' tree')
    (sameRoot : tree.addr null = tree'.addr null)
    : tree = tree' := by
  induction tree generalizing parent parent' tree' with
  | nil =>
    cases tree' with
    | nil => rfl
    | node addr data left right => exact absurd sameRoot.symm holds'.1
  | node addr data left right ihLeft ihRight =>
    cases tree' with
    | nil => exact absurd sameRoot holds.1
    | node addr' data' left' right' =>
      obtain ⟨_, _, payload, toLeft, toRight, holdsLeft, holdsRight⟩ := holds
      obtain ⟨_, _, payload', toLeft', toRight', holdsLeft', holdsRight'⟩ := holds'
      obtain rfl : addr = addr' := sameRoot
      rw [ihLeft holdsLeft holdsLeft' (toLeft.symm.trans toLeft'),
        ihRight holdsRight holdsRight' (toRight.symm.trans toRight'),
        payload.symm.trans payload']

theorem HoldsContext.congr {context hole}
    (holds : HoldsContext null m context hole) (same : ∀ q ∈ contextAddrs context, m.SameAt m' q)
    : HoldsContext null m' context hole := by
  induction context generalizing hole with
  | nil => trivial
  | cons frame rest ih =>
    obtain ⟨real, up, payload, toHole, toSibling, sibling, above⟩ := holds
    have here := same frame.addr (by simp [contextAddrs])
    refine ⟨real, here.parent.trans up, here.data.trans payload, (here.child _).trans toHole,
      (here.child _).trans toSibling, sibling.congr ?_, ih above ?_⟩
    · exact fun q mem => same q (by simp [contextAddrs, mem])
    · exact fun q mem => same q (by simp [contextAddrs, mem])

/-- A memory in which only the pointer at the position of a context has changed. -/
structure Memory.Retargets (null : ι) (context : List (Frame ι β)) (m m' : Memory ι β) (hole' : ι)
    : Prop where
  same : ∀ q ∈ contextAddrs context, q ≠ holeParent null context → m.SameAt m' q
  parent : ∀ frame rest, context = frame :: rest → m'.parent frame.addr = m.parent frame.addr
  data : ∀ frame rest, context = frame :: rest → m'.data frame.addr = m.data frame.addr
  hole : ∀ frame rest, context = frame :: rest → m'.child frame.addr frame.dir = hole'
  sibling
    : ∀ frame rest, context = frame :: rest
        → m'.child frame.addr (!frame.dir) = m.child frame.addr (!frame.dir)

theorem HoldsContext.retarget {context hole hole'}
    (holds : HoldsContext null m context hole) (distinct : (contextAddrs context).Nodup)
    (changed : m.Retargets null context m' hole')
    : HoldsContext null m' context hole' := by
  cases context with
  | nil => trivial
  | cons frame rest =>
    obtain ⟨real, up, payload, _, toSibling, sibling, above⟩ := holds
    have notBelow := (nodup_cons.mp distinct).1
    have same (q) (mem : q ∈ frame.sibling.addrs ++ contextAddrs rest) : m.SameAt m' q := by
      refine changed.same q (mem_cons_of_mem _ mem) ?_
      intro atParent
      have eq : q = frame.addr := atParent
      exact notBelow (eq ▸ mem)
    refine ⟨real, (changed.parent _ _ rfl).trans up, (changed.data _ _ rfl).trans payload,
      changed.hole _ _ rfl, (changed.sibling _ _ rfl).trans toSibling, sibling.congr ?_,
      above.congr ?_⟩
    · exact fun q mem => same q (by simp [mem])
    · exact fun q mem => same q (by simp [mem])

end Change

namespace Represents

variable {null root root' : ι} {m m' : Memory ι β} {context : List (Frame ι β)}
  {tree tree' : Tree ι β}

theorem atPosition (rep : Represents null m root (plug context tree))
    : HoldsContext null m context (tree.addr null) ∧ Holds null m (holeParent null context) tree
      ∧ (tree.addrs ++ contextAddrs context).Nodup :=
  ⟨(holds_plug.mp rep.holds).1, (holds_plug.mp rep.holds).2,
    (addrs_plug context tree).nodup_iff.mp rep.distinct⟩

theorem congr (rep : Represents null m root tree) (same : ∀ q ∈ tree.addrs, m.SameAt m' q)
    : Represents null m' root tree :=
  ⟨rep.root, rep.holds.congr same, rep.distinct⟩

/-- Replacing the subtree at a position. -/
theorem subst (rep : Represents null m root (plug context tree))
    (below : Holds null m' (holeParent null context) tree')
    (distinct : (tree'.addrs ++ contextAddrs context).Nodup)
    (changed : m.Retargets null context m' (tree'.addr null))
    (newRoot : context = [] → root' = tree'.addr null) (oldRoot : context ≠ [] → root' = root)
    : Represents null m' root' (plug context tree') := by
  obtain ⟨above, _, _⟩ := rep.atPosition
  refine ⟨?_, ?_, (addrs_plug context tree').nodup_iff.mpr distinct⟩
  · cases context with
    | nil => exact newRoot rfl
    | cons frame rest =>
      rw [oldRoot (by simp), rep.root]
      exact addr_plug_cons frame rest tree tree'
  · exact holds_plug.mpr ⟨above.retarget distinct.of_append_right changed, below⟩

end Represents

end UnstableOS.Lib.LinkedTree
