import UnstableOS.Lib.LinkedTree

/-! The red-black tree of `rbtree.c`.
The word `parent` of a node holds the parent pointer and, in its lowest bit, the colour; here they
are two fields, as nodes lie at even addresses. A result of `none` is a failed `kassert` or an
access through a null pointer. Loops take a bound on their rounds, and run out of it with `none`.
-/

namespace UnstableOS.Rbtree

open Lib.LinkedTree

/-- The colour bit and the key of a node. -/
structure Data where
  red : Bool
  val : Nat
deriving DecidableEq, Repr

abbrev Mem := Memory Nat Data

namespace Mem

variable (m : Mem) (node : Nat)

def red : Bool := (m.data node).red

def val : Nat := (m.data node).val

def setChild (dir : Bool) (target : Nat) : Mem :=
  { m with
    child := fun q side => if q = node ∧ side = dir then target else m.child q side }

/-- The parent pointer changes, the colour bit stays. -/
def setParent (target : Nat) : Mem := { m with parent := Function.update m.parent node target }

def setRed (value : Bool) : Mem :=
  { m with data := Function.update m.data node { m.data node with red := value } }

end Mem

/-- The loop of `bstree_min`. -/
def bstreeMin (m : Mem) : Nat → Nat → Option Nat
  | 0, _ => none
  | fuel + 1, node =>
    if m.child node false ≠ 0 then bstreeMin m fuel (m.child node false) else some node

/-- The climbing loop of `bstree_successor`. -/
def climbRight (m : Mem) : Nat → Nat → Nat → Option Nat
  | 0, _, _ => none
  | fuel + 1, node, parent =>
    if parent ≠ 0 ∧ node = m.child parent true then climbRight m fuel parent (m.parent parent)
    else some parent

def bstreeSuccessor (m : Mem) (fuel node : Nat) : Option Nat :=
  if m.child node true ≠ 0 then bstreeMin m fuel (m.child node true)
  else climbRight m fuel node (m.parent node)

/-- The stores of `bstree_rotate` to the three nodes it turns. -/
def rotateLinks (m : Mem) (node parent root child : Nat) (dir : Bool) : Mem :=
  let m := Mem.setChild m node (!dir) child
  let m := if child ≠ 0 then Mem.setParent m child node else m
  let m := Mem.setChild m root dir node
  let m := Mem.setParent m root parent
  Mem.setParent m node root

/-- The memory and the root pointer after `bstree_rotate`. -/
def bstreeRotate (m : Mem) (tree node : Nat) (dir : Bool) : Mem × Nat :=
  let parent := m.parent node
  let root := m.child node (!dir)
  if root = 0 then (m, tree)
  else
    let m := rotateLinks m node parent root (m.child root dir) dir
    if parent ≠ 0 then (Mem.setChild m parent (node == m.child parent true) root, tree)
    else (m, root)

/-- The descent of `rbtree_add`: the node to hang the new one below, and on which side. -/
def descend (m : Mem) (key : Nat) : Nat → Nat → Nat → Bool → Option (Nat × Bool)
  | 0, _, _, _ => none
  | fuel + 1, cur, prev, idx =>
    if cur = 0 then some (prev, idx)
    else
      let idx := decide (Mem.val m cur < key)
      descend m key fuel (m.child cur idx) cur idx

/-- The loop of `rbtree_add` that repairs the colours. -/
def addFixup : Nat → Mem → Nat → Nat → Nat → Option (Mem × Nat)
  | 0, _, _, _, _ => none
  | fuel + 1, m, tree, node, prev =>
    if !Mem.red m prev then some (m, tree)
    else
      let gp := m.parent prev
      if gp = 0 then some (Mem.setRed m prev false, tree)
      else
        let idx := !(prev == m.child gp false)
        if m.child gp idx ≠ prev then none
        else
          let unc := m.child gp (!idx)
          if unc = 0 ∨ Mem.red m unc = false then
            let inner :=
              if node = m.child prev (!idx) then
                let rotated := bstreeRotate m tree prev idx
                (rotated, rotated.1.child gp idx)
              else ((m, tree), prev)
            let rotated := bstreeRotate inner.1.1 inner.1.2 gp (!idx)
            some (Mem.setRed (Mem.setRed rotated.1 inner.2 false) gp true, rotated.2)
          else
            let m := Mem.setRed m prev false
            let m := Mem.setRed m unc false
            let m := Mem.setRed m gp true
            let prev := m.parent gp
            if prev ≠ 0 then addFixup fuel m tree gp prev
            else some (Mem.setRed m tree false, tree)

def rbtreeAdd (fuel : Nat) (m : Mem) (tree node : Nat) : Option (Mem × Nat) :=
  if node = 0 then none
  else
    let m := Mem.setRed (Mem.setParent m node 0) node false
    let m := Mem.setChild (Mem.setChild m node true 0) node false 0
    if tree = 0 then some (m, node)
    else do
      let (prev, idx) ← descend m (Mem.val m node) fuel tree tree false
      let m := Mem.setChild m prev idx node
      let m := Mem.setRed (Mem.setParent m node prev) node true
      addFixup fuel m tree node prev

/-- The loop of `rbtree_remove` that repairs the black heights; the subtree on the side `idx` of
`parent` is one black node short.
-/
def removeFixup : Nat → Mem → Nat → Nat → Bool → Option (Mem × Nat)
  | 0, _, _, _, _ => none
  | fuel + 1, m, tree, parent, idx =>
    let sibling := m.child parent (!idx)
    if sibling = 0 then none
    else
      let turned :=
        if Mem.red m sibling then
          let rotated := bstreeRotate m tree parent idx
          let m := Mem.setRed (Mem.setRed rotated.1 parent true) sibling false
          ((m, rotated.2), m.child sibling idx)
        else ((m, tree), sibling)
      let m := turned.1.1
      let tree := turned.1.2
      let sibling := turned.2
      if sibling = 0 then none
      else
        let dnephew := m.child sibling (!idx)
        let cnephew := m.child sibling idx
        let m := Mem.setRed m sibling false
        let originalColor := Mem.red m parent
        let m := Mem.setRed m parent false
        if dnephew ≠ 0 ∧ Mem.red m dnephew = true then
          let rotated := bstreeRotate m tree parent idx
          let m := Mem.setRed rotated.1 sibling (Mem.red rotated.1 sibling || originalColor)
          some (Mem.setRed m dnephew false, rotated.2)
        else if cnephew ≠ 0 ∧ Mem.red m cnephew = true then
          let first := bstreeRotate m tree sibling (!idx)
          let second := bstreeRotate first.1 first.2 parent idx
          let m := Mem.setRed second.1 cnephew false
          some (Mem.setRed m cnephew (Mem.red m cnephew || originalColor), second.2)
        else
          let m := Mem.setRed m sibling true
          if originalColor then some (m, tree)
          else
            let node := parent
            let parent := m.parent node
            if parent ≠ 0 then removeFixup fuel m tree parent (m.child parent true == node)
            else some (m, tree)

/-- What follows the label `relink`. -/
def relink (fuel : Nat) (m : Mem) (tree node parent replacement : Nat) : Option (Mem × Nat) :=
  let m := if replacement ≠ 0 then Mem.setParent m replacement parent else m
  if node = tree then some (m, replacement)
  else if parent = 0 then none
  else
    let idx := !(m.child parent false == node)
    let m := Mem.setChild m parent idx replacement
    if replacement ≠ 0 then some (Mem.setRed m replacement false, tree)
    else if Mem.red m node then some (m, tree)
    else removeFixup fuel m tree parent idx

def rbtreeRemove (fuel : Nat) (m : Mem) (tree node : Nat) : Option (Mem × Nat) :=
  if tree = 0 ∨ node = 0 then none
  else
    let parent := m.parent node
    if m.child node false = 0 ∨ m.child node true = 0 then
      let idx := !(m.child node false != 0)
      relink fuel m tree node parent (m.child node idx)
    else do
      let replacement ← bstreeSuccessor m fuel node
      let succp := m.parent replacement
      let right := m.child replacement true
      let m := if right ≠ 0 then Mem.setRed (Mem.setParent m right succp) right true else m
      if succp = 0 then none
      else
        let m := Mem.setChild m succp (!(m.child succp false == replacement)) right
        let m := Mem.setChild m replacement false (m.child node false)
        let m := Mem.setChild m replacement true (m.child node true)
        if m.child node false = 0 then none
        else
          let m := Mem.setParent m (m.child node false) replacement
          if m.child node true = 0 then none
          else
            let m := Mem.setParent m (m.child node true) replacement
            relink fuel m tree node parent replacement

end UnstableOS.Rbtree
