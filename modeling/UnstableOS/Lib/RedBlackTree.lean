import UnstableOS.Lib.LinkedTree
import Mathlib.Algebra.Ring.Nat

/-! Red-black balance of trees and of contexts.
(Balanced red t c n) says that the tree has black height `n` and a root of colour `c`, true for
red. (BalancedContext red context n strict) says that plugging in a tree of black height `n` gives
a red-black tree, if the tree's root is black or `strict` is false.
-/

namespace UnstableOS.Lib.LinkedTree

open List

variable {ι β : Type*} {red : β → Bool}

inductive Balanced (red : β → Bool) : Tree ι β → Bool → Nat → Prop where
  | nil : Balanced red .nil false 0
  | red {addr : ι} {data : β} {left right : Tree ι β} {n : Nat} (colour : red data = true)
      (ofLeft : Balanced red left false n) (ofRight : Balanced red right false n)
      : Balanced red (.node addr data left right) true n
  | black {addr : ι} {data : β} {left right : Tree ι β} {leftRed rightRed : Bool} {n : Nat}
      (colour : red data = false)
      (ofLeft : Balanced red left leftRed n) (ofRight : Balanced red right rightRed n)
      : Balanced red (.node addr data left right) false (n + 1)

/-- The root is black, no red node has a red child, and all paths down have as many black
nodes.
-/
def RedBlack (red : β → Bool) (tree : Tree ι β) : Prop := ∃ n, Balanced red tree false n

/-- The colour of the root; a missing node is black. -/
def rootRed (red : β → Bool) : Tree ι β → Bool
  | .nil => false
  | .node _ data _ _ => red data

/-- No red node has a red child. -/
def NoRedRed (red : β → Bool) : Tree ι β → Prop
  | .nil => True
  | .node _ data left right =>
    (red data = true → rootRed red left = false ∧ rootRed red right = false)
      ∧ NoRedRed red left ∧ NoRedRed red right

/-- The number of black nodes on each path from the root to a missing child. -/
def blackCounts (red : β → Bool) : Tree ι β → List Nat
  | .nil => [0]
  | .node _ data left right =>
    (blackCounts red left ++ blackCounts red right).map (· + if red data then 0 else 1)

inductive BalancedContext (red : β → Bool) : List (Frame ι β) → Nat → Bool → Prop where
  | root (n : Nat) : BalancedContext red [] n true
  | red {frame : Frame ι β} {rest : List (Frame ι β)} {n : Nat} (colour : red frame.data = true)
      (sibling : Balanced red frame.sibling false n) (above : BalancedContext red rest n false)
      : BalancedContext red (frame :: rest) n true
  | black {frame : Frame ι β} {rest : List (Frame ι β)} {siblingRed strict : Bool} {n : Nat}
      (colour : red frame.data = false) (sibling : Balanced red frame.sibling siblingRed n)
      (above : BalancedContext red rest (n + 1) strict)
      : BalancedContext red (frame :: rest) n false

namespace Balanced

variable {dir : Bool} {addr : ι} {data : β} {near far : Tree ι β} {n : Nat}

section
variable {tree : Tree ι β} {c : Bool} (balanced : Balanced red tree c n)
include balanced

theorem rootRed_eq : rootRed red tree = c := by
  cases balanced with
  | nil => rfl
  | red colour _ _ | black colour _ _ => exact colour

theorem noRedRed : NoRedRed red tree := by
  induction balanced with
  | nil => trivial
  | red colour ofLeft ofRight ihLeft ihRight =>
    exact ⟨fun _ => ⟨ofLeft.rootRed_eq, ofRight.rootRed_eq⟩, ihLeft, ihRight⟩
  | black colour ofLeft ofRight ihLeft ihRight =>
    refine ⟨fun isRed => ?_, ihLeft, ihRight⟩
    rw [colour] at isRed
    cases isRed

theorem pow_le : 2 ^ n ≤ tree.addrs.length + 1 := by
  induction balanced with
  | nil => exact Nat.le_refl _
  | red | black =>
    simp only [Tree.addrs, length_cons, length_append, Nat.pow_succ]
    omega

theorem eq_of_mem_blackCounts {count} (mem : count ∈ blackCounts red tree)
    : count = n := by
  induction balanced generalizing count with
  | nil => exact mem_singleton.mp mem
  | red colour _ _ ihLeft ihRight =>
    simp only [blackCounts, colour, if_true, Nat.add_zero, map_id', mem_append] at mem
    exact mem.elim ihLeft ihRight
  | black colour _ _ ihLeft ihRight =>
    simp only [blackCounts, colour, Bool.false_eq_true, if_false, mem_map,
      mem_append] at mem
    obtain ⟨below, inSubtree, rfl⟩ := mem
    exact congrArg (· + 1) (inSubtree.elim ihLeft ihRight)

end

theorem join_red (colour : red data = true) (ofNear : Balanced red near false n)
    (ofFar : Balanced red far false n)
    : Balanced red (join dir addr data near far) true n := by
  cases dir with
  | false => exact .red colour ofNear ofFar
  | true => exact .red colour ofFar ofNear

theorem join_black {nearRed farRed} (colour : red data = false)
    (ofNear : Balanced red near nearRed n) (ofFar : Balanced red far farRed n)
    : Balanced red (join dir addr data near far) false (n + 1) := by
  cases dir with
  | false => exact .black colour ofNear ofFar
  | true => exact .black colour ofFar ofNear

/-- The colour of the root decides the rest. -/
theorem join_inv {c} (balanced : Balanced red (join dir addr data near far) c n)
    : (c = true ∧ red data = true ∧ Balanced red near false n ∧ Balanced red far false n)
      ∨ (c = false ∧ red data = false ∧ ∃ k nearRed farRed, n = k + 1
          ∧ Balanced red near nearRed k ∧ Balanced red far farRed k) := by
  cases dir with
  | false =>
    cases balanced with
    | red colour ofLeft ofRight => exact .inl ⟨rfl, colour, ofLeft, ofRight⟩
    | black colour ofLeft ofRight =>
      exact .inr ⟨rfl, colour, _, _, _, rfl, ofLeft, ofRight⟩
  | true =>
    cases balanced with
    | red colour ofLeft ofRight => exact .inl ⟨rfl, colour, ofRight, ofLeft⟩
    | black colour ofLeft ofRight =>
      exact .inr ⟨rfl, colour, _, _, _, rfl, ofRight, ofLeft⟩

theorem red_shape {tree : Tree ι β} (dir : Bool) (balanced : Balanced red tree true n)
    : ∃ addr data near far, tree = join dir addr data near far ∧ red data = true
        ∧ Balanced red near false n ∧ Balanced red far false n := by
  cases balanced with
  | red colour ofLeft ofRight =>
    cases dir with
    | false => exact ⟨_, _, _, _, rfl, colour, ofLeft, ofRight⟩
    | true => exact ⟨_, _, _, _, rfl, colour, ofRight, ofLeft⟩

theorem black_shape {tree : Tree ι β} (dir : Bool) (balanced : Balanced red tree false (n + 1))
    : ∃ addr data near far nearRed farRed, tree = join dir addr data near far ∧ red data = false
        ∧ Balanced red near nearRed n ∧ Balanced red far farRed n := by
  cases balanced with
  | black colour ofLeft ofRight =>
    cases dir with
    | false => exact ⟨_, _, _, _, _, _, rfl, colour, ofLeft, ofRight⟩
    | true => exact ⟨_, _, _, _, _, _, rfl, colour, ofRight, ofLeft⟩

theorem nil_inv {c} (balanced : Balanced red (Tree.nil : Tree ι β) c n)
    : c = false ∧ n = 0 := by
  cases balanced
  exact ⟨rfl, rfl⟩

theorem eq_nil {tree : Tree ι β} (balanced : Balanced red tree false 0) : tree = .nil := by
  cases balanced
  rfl

end Balanced

theorem BalancedContext.sibling {frame} {rest : List (Frame ι β)} {n strict}
    (context : BalancedContext red (frame :: rest) n strict)
    : ∃ c, Balanced red frame.sibling c n := by
  cases context with
  | red _ sibling _ | black _ sibling _ => exact ⟨_, sibling⟩

/-- A tree that fits its context gives a red-black tree. -/
theorem BalancedContext.plug {context} {tree : Tree ι β} {n strict c}
    (above : BalancedContext red context n strict)
    (balanced : Balanced red tree c n) (fits : strict = true → c = false)
    : RedBlack red (plug context tree) := by
  induction above generalizing tree c with
  | root n => exact ⟨n, fits rfl ▸ balanced⟩
  | red colour sibling _ ih =>
    exact ih (Balanced.join_red colour (fits rfl ▸ balanced) sibling) (by simp)
  | black colour sibling _ ih => exact ih (Balanced.join_black colour balanced sibling) (by simp)

/-- Every position of a red-black tree splits it into a balanced subtree and a balanced context
that fit.
-/
theorem RedBlack.split {context} {tree : Tree ι β}
    (valid : RedBlack red (LinkedTree.plug context tree))
    : ∃ n c strict, Balanced red tree c n ∧ BalancedContext red context n strict
        ∧ (strict = true → c = false) := by
  induction context generalizing tree with
  | nil =>
    obtain ⟨n, balanced⟩ := valid
    exact ⟨n, false, true, balanced, .root n, fun _ => rfl⟩
  | cons frame rest ih =>
    obtain ⟨n, c, strict, balanced, above, fits⟩ := ih valid
    rcases balanced.join_inv with ⟨isRed, colour, ofTree, ofSibling⟩
      | ⟨isBlack, colour, k, treeRed, siblingRed, rfl, ofTree, ofSibling⟩
    · have lenient : strict = false := by
        cases strict with
        | false => rfl
        | true => rw [fits rfl] at isRed; cases isRed
      exact ⟨n, false, true, ofTree, .red colour ofSibling (lenient ▸ above), fun _ => rfl⟩
    · exact ⟨k, treeRed, false, ofTree, .black colour ofSibling above, by simp⟩

end UnstableOS.Lib.LinkedTree
