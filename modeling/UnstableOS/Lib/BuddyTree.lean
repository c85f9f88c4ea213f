import Mathlib.Tactic.Ring

/-! Binary buddy trees.
Node `i` of order `k` covers the units whose quotient by `2 ^ k` is `i`; its children are the
nodes `2 * i` and `2 * i + 1` of the order below. A node exists exactly when its parent is split,
so the existing nodes that are not split, the leaves, partition the units.
-/

namespace UnstableOS.Lib

inductive NodeStatus where
  | absent
  | free
  | live
  | split
deriving DecidableEq, Repr

namespace BuddyTree

open NodeStatus Nat

/-- (Shape height tree) holds when `tree` describes one tree with its root at order `height`. -/
structure Shape (height : Nat) (tree : Nat → Nat → NodeStatus) : Prop where
  root : tree height 0 ≠ absent
  outside : ∀ i, i ≠ 0 → tree height i = absent
  present : ∀ k < height, ∀ i, tree k i ≠ absent ↔ tree (k + 1) (i / 2) = split
  bottom : ∀ i, tree 0 i ≠ split

/-- No two children of a node are both free. -/
def Merged (height : Nat) (tree : Nat → Nat → NodeStatus) : Prop :=
  ∀ k < height, ∀ i, tree (k + 1) i = split
    → ¬ (tree k (2 * i) = free ∧ tree k (2 * i + 1) = free)

def IsLeaf (status : NodeStatus) : Prop := status = free ∨ status = live

variable (tree : Nat → Nat → NodeStatus)

/-- The node is handed out, or has been split. -/
def busy (k i : Nat) : Bool :=
  tree k i = live ∨ tree k i = split

/-- Some unit below the node belongs to a live leaf. -/
def InUse (height : Nat) (tree : Nat → Nat → NodeStatus) (k i : Nat) : Prop :=
  ∃ unit, unit / 2 ^ k = i ∧ ∃ j ≤ height, tree j (unit / 2 ^ j) = live

section Units
variable {j k i unit other : Nat}

theorem div_pow_succ (unit k : Nat) : unit / 2 ^ (k + 1) = unit / 2 ^ k / 2 := by
  rw [pow_succ, Nat.div_div_eq_div_mul]

theorem div_eq_of_le (le : j ≤ k) (same : unit / 2 ^ j = other / 2 ^ j)
    : unit / 2 ^ k = other / 2 ^ k := by
  obtain ⟨more, rfl⟩ := Nat.exists_eq_add_of_le le
  rw [pow_add, ← Nat.div_div_eq_div_mul, ← Nat.div_div_eq_div_mul, same]

end Units

section Leaves
variable {height : Nat} {tree : Nat → Nat → NodeStatus} {j k i unit : Nat}

theorem IsLeaf.ne_split {status} (leaf : IsLeaf status) : status ≠ split := by
  rcases leaf with rfl | rfl <;> decide

theorem IsLeaf.ne_absent {status} (leaf : IsLeaf status) : status ≠ absent := by
  rcases leaf with rfl | rfl <;> decide

theorem isLeaf_iff {status} : IsLeaf status ↔ status ≠ absent ∧ status ≠ split := by
  cases status <;> simp [IsLeaf]

section
variable (shape : Shape height tree)
include shape

theorem Shape.child_absent (kLt : k < height) (whole : tree (k + 1) (i / 2) ≠ split)
    : tree k i = absent := by
  by_cases gone : tree k i = absent
  · exact gone
  · exact absurd ((shape.present k kLt i).mp gone) whole

/-- Nothing exists below a node that is not split. -/
theorem Shape.below (kLe : k ≤ height) (jLt : j < k) (whole : tree k (unit / 2 ^ k) ≠ split)
    : tree j (unit / 2 ^ j) = absent := by
  induction k with
  | zero => omega
  | succ k ih =>
    have child : tree k (unit / 2 ^ k) = absent :=
      shape.child_absent (by omega) (by rwa [← div_pow_succ])
    by_cases same : j = k
    · exact same ▸ child
    · exact ih (by omega) (by omega) (by rw [child]; decide)

/-- Every unit lies in a leaf.
Witness: descend from the root, where a split node has the child that covers the unit.
-/
theorem Shape.exists_leaf (inside : unit < 2 ^ height)
    : ∃ k ≤ height, IsLeaf (tree k (unit / 2 ^ k)) := by
  have descend (k : Nat) (kLe : k ≤ height) (present : tree k (unit / 2 ^ k) ≠ absent)
      : ∃ j ≤ height, IsLeaf (tree j (unit / 2 ^ j)) := by
    induction k with
    | zero => exact ⟨0, kLe, isLeaf_iff.mpr ⟨present, shape.bottom _⟩⟩
    | succ k ih =>
      by_cases whole : tree (k + 1) (unit / 2 ^ (k + 1)) = split
      · refine ih (by omega) ?_
        rw [shape.present k (by omega), ← div_pow_succ]
        exact whole
      · exact ⟨k + 1, kLe, isLeaf_iff.mpr ⟨present, whole⟩⟩
  refine descend height le_rfl ?_
  rw [div_eq_of_lt inside]
  exact shape.root

theorem Shape.leaf_unique (jLe : j ≤ height) (kLe : k ≤ height)
    (inJ : IsLeaf (tree j (unit / 2 ^ j))) (inK : IsLeaf (tree k (unit / 2 ^ k)))
    : j = k := by
  rcases lt_trichotomy j k with less | same | more
  · exact absurd (shape.below kLe less inK.ne_split) inJ.ne_absent
  · exact same
  · exact absurd (shape.below jLe more inJ.ne_split) inK.ne_absent

/-- A node that exists lies inside the root. -/
theorem Shape.index_lt (kLe : k ≤ height) (present : tree k i ≠ absent)
    : i < 2 ^ (height - k) := by
  obtain ⟨depth, depthEq⟩ := Nat.exists_eq_add_of_le kLe
  have heightEq : height - k = depth := by omega
  rw [heightEq]
  induction depth generalizing k i with
  | zero =>
    have root : k = height := by omega
    by_cases first : i = 0
    · simp [first]
    · exact absurd (root ▸ shape.outside i first) present
  | succ depth ih =>
    have divided := (shape.present k (by omega) i).mp present
    have parent := ih (by omega : k + 1 ≤ height) (by rw [divided]; decide) (by omega)
    omega

end

end Leaves

section Use
variable {height : Nat} {tree : Nat → Nat → NodeStatus} {k i : Nat}

theorem inUse_of_live (kLe : k ≤ height) (live : tree k i = NodeStatus.live)
    : InUse height tree k i := by
  have quotient := Nat.mul_div_cancel i (Nat.two_pow_pos k)
  exact ⟨i * 2 ^ k, quotient, k, kLe, by rw [quotient]; exact live⟩

theorem InUse.parent {child} (use : InUse height tree k child)
    : InUse height tree (k + 1) (child / 2) := by
  obtain ⟨unit, within, owner⟩ := use
  exact ⟨unit, by rw [div_pow_succ, within], owner⟩

section
variable (shape : Shape height tree)
include shape

/-- A split node is in use, because its children are never both free. -/
theorem Shape.inUse_of_split (merged : Merged height tree)
    (kLe : k ≤ height) (divided : tree k i = split)
    : InUse height tree k i := by
  induction k generalizing i with
  | zero => exact absurd divided (shape.bottom i)
  | succ k ih =>
    have child (c : Nat) (ofNode : c / 2 = i) (notFree : tree k c ≠ free)
        : InUse height tree (k + 1) i := by
      have present : tree k c ≠ absent := by
        rw [shape.present k (by omega), ofNode]
        exact divided
      rw [← ofNode]
      apply InUse.parent
      cases status : tree k c with
      | absent => exact absurd status present
      | free => exact absurd status notFree
      | live => exact inUse_of_live (by omega) status
      | split => exact ih (by omega) status
    by_cases left : tree k (2 * i) = free
    · exact child (2 * i + 1) (by omega) fun right => merged k (by omega) i divided ⟨left, right⟩
    · exact child (2 * i) (by omega) left

/-- For a node that exists, being in use is read off its own status. -/
theorem Shape.inUse_iff_busy (merged : Merged height tree)
    (kLe : k ≤ height) (present : tree k i ≠ absent)
    : InUse height tree k i ↔ busy tree k i = true := by
  cases status : tree k i with
  | absent => exact absurd status present
  | free =>
    have leaf : IsLeaf (tree k i) := .inl status
    simp only [busy, status, reduceCtorEq, or_self, decide_false, Bool.false_eq_true, iff_false]
    rintro ⟨unit, within, j, jLe, live⟩
    have leafHere := within.symm ▸ leaf
    have same := shape.leaf_unique jLe kLe (.inr live) leafHere
    subst same
    rw [within, status] at live
    cases live
  | live => simp [busy, status, inUse_of_live kLe status]
  | split => simp [busy, status, shape.inUse_of_split merged kLe status]

/-- Below a node that is not split, the two halves are in use together. -/
theorem Shape.inUse_halves (kLt : k < height)
    (whole : tree (k + 1) i ≠ split) {left right} (leftOf : left / 2 = i)
    (rightOf : right / 2 = i) (use : InUse height tree k left)
    : InUse height tree k right := by
  obtain ⟨unit, within, j, jLe, live⟩ := use
  have parent : unit / 2 ^ (k + 1) = i := by rw [div_pow_succ, within, leftOf]
  have quotient := Nat.mul_div_cancel right (Nat.two_pow_pos k)
  have above : k + 1 ≤ j := by
    by_contra below
    have whole' : tree (k + 1) (unit / 2 ^ (k + 1)) ≠ split := by rwa [parent]
    rw [shape.below (by omega) (by omega) whole'] at live
    cases live
  have same : right * 2 ^ k / 2 ^ (k + 1) = unit / 2 ^ (k + 1) := by
    rw [parent, div_pow_succ, quotient, rightOf]
  exact ⟨right * 2 ^ k, quotient, j, jLe, by rw [div_eq_of_le above same]; exact live⟩

/-- Whether exactly one of two buddies is in use shows in their own statuses, also where they
do not exist.
-/
theorem Shape.busy_ne_iff (merged : Merged height tree) (kLt : k < height)
    : (busy tree k (2 * i) ^^ busy tree k (2 * i + 1)) = true
      ↔ ¬ (InUse height tree k (2 * i) ↔ InUse height tree k (2 * i + 1)) := by
  have left : 2 * i / 2 = i := by omega
  have right : (2 * i + 1) / 2 = i := by omega
  by_cases divided : tree (k + 1) i = split
  · have leftUse := shape.inUse_iff_busy merged kLt.le
      ((shape.present k kLt (2 * i)).mpr (left.symm ▸ divided))
    have rightUse := shape.inUse_iff_busy merged kLt.le
      ((shape.present k kLt (2 * i + 1)).mpr (right.symm ▸ divided))
    rw [leftUse, rightUse]
    cases busy tree k (2 * i) <;> cases busy tree k (2 * i + 1) <;> simp
  · have gone (c) (ofNode : c / 2 = i) : tree k c = absent :=
      shape.child_absent kLt (by rwa [ofNode])
    have together : InUse height tree k (2 * i) ↔ InUse height tree k (2 * i + 1) :=
      ⟨shape.inUse_halves kLt divided left right, shape.inUse_halves kLt divided right left⟩
    simp [busy, gone (2 * i) left, gone (2 * i + 1) right, together]

end

end Use

-- Changing the tree

/-- One node gets another status. -/
def setNode (k i : Nat) (status : NodeStatus)
    : Nat → Nat → NodeStatus :=
  fun k' i' => if k' = k ∧ i' = i then status else tree k' i'

/-- A leaf of order `k + 1` is split into two leaves. -/
def divide (k i : Nat) (left right : NodeStatus)
    : Nat → Nat → NodeStatus :=
  setNode (setNode (setNode tree (k + 1) i split) k (2 * i) left) k (2 * i + 1) right

/-- The two children of a node of order `k + 1` disappear and the node becomes a leaf. -/
def join (k i : Nat) (status : NodeStatus)
    : Nat → Nat → NodeStatus :=
  setNode (setNode (setNode tree k (2 * i) absent) k (2 * i + 1) absent) (k + 1) i status

section Changes
variable {height : Nat} {tree : Nat → Nat → NodeStatus} {k i k' i' : Nat}
  {status left right : NodeStatus}

@[simp] theorem setNode_self : setNode tree k i status k i = status := by simp [setNode]

theorem setNode_of_ne (ne : ¬ (k' = k ∧ i' = i)) : setNode tree k i status k' i' = tree k' i' := by
  rw [setNode, if_neg ne]

theorem Shape.setLeaf (shape : Shape height tree) (old : IsLeaf (tree k i)) (new : IsLeaf status)
    : Shape height (setNode tree k i status) := by
  have sameAbsent (k' i') : setNode tree k i status k' i' = absent ↔ tree k' i' = absent := by
    by_cases same : k' = k ∧ i' = i
    · obtain ⟨rfl, rfl⟩ := same
      simp [new.ne_absent, old.ne_absent]
    · rw [setNode_of_ne same]
  have sameSplit (k' i') : setNode tree k i status k' i' = split ↔ tree k' i' = split := by
    by_cases same : k' = k ∧ i' = i
    · obtain ⟨rfl, rfl⟩ := same
      simp [new.ne_split, old.ne_split]
    · rw [setNode_of_ne same]
  constructor
  case root => exact (sameAbsent _ _).not.mpr shape.root
  case outside => exact fun j notRoot => (sameAbsent _ _).mpr (shape.outside j notRoot)
  case present =>
    intro j jLt c
    rw [ne_eq, sameAbsent, sameSplit]
    exact shape.present j jLt c
  case bottom => exact fun c => (sameSplit _ _).not.mpr (shape.bottom c)

theorem divide_apply
    : divide tree k i left right k' i' = if k' = k + 1 ∧ i' = i then split
        else if k' = k ∧ i' = 2 * i then left
        else if k' = k ∧ i' = 2 * i + 1 then right
        else tree k' i' := by
  simp only [divide, setNode]
  split_ifs <;> first | rfl | omega

theorem join_apply
    : join tree k i status k' i' = if k' = k + 1 ∧ i' = i then status
        else if k' = k ∧ i' / 2 = i then absent
        else tree k' i' := by
  simp only [join, setNode]
  split_ifs <;> first | rfl | omega

theorem Shape.divide (shape : Shape height tree) (kLt : k < height)
    (old : IsLeaf (tree (k + 1) i)) (leftLeaf : IsLeaf left) (rightLeaf : IsLeaf right)
    : Shape height (divide tree k i left right) := by
  have := leftLeaf.ne_absent
  have := leftLeaf.ne_split
  have := rightLeaf.ne_absent
  have := rightLeaf.ne_split
  have := old.ne_absent
  have := old.ne_split
  have gone (c) (ofNode : c / 2 = i) : tree k c = absent :=
    shape.child_absent kLt (by rw [ofNode]; assumption)
  constructor
  case root =>
    have := shape.root
    rw [divide_apply]
    split_ifs <;> first | assumption | decide
  case outside =>
    intro c notRoot
    have := shape.outside c notRoot
    rw [divide_apply]
    split_ifs with atNode
    · rw [← atNode.1, ← atNode.2] at old
      exact absurd this old.ne_absent
    · omega
    · omega
    · exact this
  case present =>
    intro j jLt c
    have := shape.present j jLt c
    rw [divide_apply, divide_apply]
    grind
  case bottom =>
    intro c
    have := shape.bottom c
    rw [divide_apply, if_neg (by omega)]
    split_ifs <;> assumption

theorem Shape.join (shape : Shape height tree) (kLt : k < height)
    (old : tree (k + 1) i = split) (leftLeaf : IsLeaf (tree k (2 * i)))
    (rightLeaf : IsLeaf (tree k (2 * i + 1))) (new : IsLeaf status)
    : Shape height (join tree k i status) := by
  have := leftLeaf.ne_split
  have := rightLeaf.ne_split
  have := new.ne_absent
  have := new.ne_split
  constructor
  case root =>
    have := shape.root
    rw [join_apply]
    split_ifs with atNode below
    · assumption
    · omega
    · assumption
  case outside =>
    intro c notRoot
    have := shape.outside c notRoot
    rw [join_apply]
    split_ifs with atNode
    · rw [atNode.1, atNode.2, old] at this
      cases this
    · rfl
    · exact this
  case present =>
    intro j jLt c
    have := shape.present j jLt c
    rw [join_apply, join_apply]
    grind
  case bottom =>
    intro c
    have := shape.bottom c
    rw [join_apply, if_neg (by omega)]
    split_ifs
    · decide
    · assumption

end Changes

end BuddyTree

end UnstableOS.Lib
