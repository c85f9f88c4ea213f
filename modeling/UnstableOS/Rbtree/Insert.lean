import UnstableOS.Rbtree.Rotate
import UnstableOS.Lib.RedBlackTree

/-! `rbtree_add` keeps the tree red-black and inserts the node into the in-order sequence. -/

namespace UnstableOS.Rbtree

open Lib.LinkedTree Function Mem Frame Bool Nat
open List hiding after

variable {m : Mem} {tree : Nat} {context rest : Context} {frame above : Frame Nat Data}

theorem plug_other_side (frame : Frame Nat Data) (rest : Context) (position : Node)
    : plug (frame :: rest) position
      = plug (⟨frame.addr, frame.data, !frame.dir, position⟩ :: rest) frame.sibling := by
  simp [plug, fill, join_not]

/-- What the operations read at a frame. -/
structure FrameFields (m : Mem) (frame : Frame Nat Data) (rest : Context) (hole : Nat) : Prop where
  real : frame.addr ≠ 0
  parent : m.parent frame.addr = holeParent 0 rest
  data : m.data frame.addr = frame.data
  toHole : m.child frame.addr frame.dir = hole
  toSibling : m.child frame.addr (!frame.dir) = frame.sibling.addr 0
  sibling : Holds 0 m frame.addr frame.sibling
  apart : frame.sibling.addr 0 ≠ hole

variable {position : Node} {hole k fuel u node : Nat} {strict : Bool} {du : Data}

theorem frameFields (some : position ≠ .nil)
    (rep : Represents 0 m tree (plug (frame :: rest) position))
    : FrameFields m frame rest (position.addr 0) := by
  obtain ⟨holds, below, distinct⟩ := rep.atPosition
  obtain ⟨real, up, payload, toHole, toSibling, sibling, _⟩ := holds
  exact ⟨real, up, payload, toHole, toSibling, sibling, sibling_apart (below.addr_ne_null some)
    distinct⟩

/-- Comparing with the left child tells the side of the position. -/
theorem FrameFields.side (fields : FrameFields m frame rest hole)
    : (!(hole == m.child frame.addr false)) = frame.dir := by
  have toHole := fields.toHole
  have toSibling := fields.toSibling
  cases dir : frame.dir with
  | false => simp [← toHole, dir]
  | true =>
    rw [dir, Bool.not_true] at toSibling
    simp [toSibling, fields.apart.symm]

/-- So does comparing with the right one. -/
theorem FrameFields.side_right (fields : FrameFields m frame rest hole)
    : (m.child frame.addr true == hole) = frame.dir := by
  have toHole := fields.toHole
  have toSibling := fields.toSibling
  cases dir : frame.dir with
  | false =>
    rw [dir, Bool.not_false] at toSibling
    simp [toSibling, fields.apart]
  | true => simp [← toHole, dir]

theorem root_black {parent} (holds : Holds 0 m parent position)
    (balanced : Balanced Data.red position false k)
    : position.addr 0 = 0 ∨ red m (position.addr 0) = false := by
  cases position with
  | nil => exact .inl rfl
  | node a d l r =>
    cases balanced with
    | black colour _ _ =>
      right
      have payload := holds.2.2.1
      rw [Tree.addr, red, payload, colour]

/-- The result of an operation: a represented red-black tree with the given in-order sequence. -/
def Yields (result : Option (Mem × Nat)) (inorder : List (Nat × Nat)) : Prop :=
  ∃ m' tree' after, result = some (m', tree') ∧ Represents 0 m' tree' after
    ∧ RedBlack Data.red after ∧ after.inorder Data.val = inorder

theorem join_ne_nil (dir : Bool) (a : Nat) (d : Data) (x y : Node) : join dir a d x y ≠ .nil := by
  cases dir <;> simp [join]

/-- After the last rotation the new parent becomes black and the old grandparent red. -/
theorem turned_yields {dir p g dp dg} {uncle inner outer : Node} {c}
    (rep : Represents 0 m tree (plug rest (join dir p dp (join dir g dg uncle inner) outer)))
    (ofUncle : Balanced Data.red uncle false k) (ofInner : Balanced Data.red inner false k)
    (ofOuter : Balanced Data.red outer c k) (higher : BalancedContext Data.red rest (k + 1) strict)
    : Yields (some (setRed (setRed m p false) g true, tree))
        ((plug rest (join dir p dp (join dir g dg uncle inner) outer)).inorder Data.val) := by
  have first : Represents 0 (setRed m p false) tree
      (plug (⟨p, { dp with red := false }, dir, outer⟩ :: rest) (join dir g dg uncle inner)) :=
    represents_setRed rep false
  have second := represents_setRed first true
  refine ⟨_, _, _, rfl, second, ?_, ?_⟩
  · have ofGrandparent
        : Balanced Data.red (join dir g { dg with red := true } uncle inner) true k :=
      .join_red rfl ofUncle ofInner
    exact higher.plug (Balanced.join_black rfl ofGrandparent ofOuter) (fun _ => rfl)
  · rw [plug, fill]
    exact inorder_plug_congr (inorder_join_congr rfl (inorder_join_congr rfl rfl rfl) rfl)

/-- The uncle is black: one or two rotations end the repair.
Witness: with the new node on the outer side the grandparent is rotated; on the inner side its
parent is rotated first, which brings the node to the outer side.
-/
theorem addFixup_rotate {n d} {near far : Node}
    (rep : Represents 0 m tree (plug (frame :: above :: rest) (join above.dir n d near far)))
    (isRed : d.red = true) (parentRed : frame.data.red = true)
    (ofNear : Balanced Data.red near false k) (ofFar : Balanced Data.red far false k)
    (ofSibling : Balanced Data.red frame.sibling false k)
    (ofUncle : Balanced Data.red above.sibling false k)
    (outer : BalancedContext Data.red rest (k + 1) strict)
    : Yields (addFixup (fuel + 1) m tree n frame.addr)
        ((plug (frame :: above :: rest) (join above.dir n d near far)).inorder Data.val) := by
  have inner := frameFields (join_ne_nil _ _ _ _ _) rep
  have upper : FrameFields m above rest frame.addr := by
    have filled : frame.fill (join above.dir n d near far) ≠ .nil := join_ne_nil _ _ _ _ _
    have fields := frameFields filled rep
    rwa [fill, addr_join] at fields
  rw [addr_join] at inner
  have isParentRed : red m frame.addr = true := by
    rw [red, inner.data, parentRed]
  have toGrandparent : m.parent frame.addr = above.addr := inner.parent
  have uncleBlack : above.sibling.addr 0 = 0 ∨ red m (above.sibling.addr 0) = false := by
    exact root_black upper.sibling ofUncle
  rw [addFixup, isParentRed]
  simp only [Bool.not_true, false_eq_true, if_false, toGrandparent, if_neg upper.real,
    upper.side, upper.toHole, ne_eq, not_true_eq_false, upper.toSibling, if_pos uncleBlack]
  by_cases sameSide : frame.dir = above.dir
  · have notInner : n ≠ m.child frame.addr (!above.dir) := by
      rw [← sameSide, inner.toSibling]
      exact inner.apart.symm
    rw [if_neg notInner]
    have turned : Represents 0 m tree (plug rest (join (!above.dir) above.addr above.data
        above.sibling (join (!above.dir) frame.addr frame.data frame.sibling
          (join above.dir n d near far)))) := by
      rw [join_not, join_not]
      have := rep
      simp only [plug, fill, sameSide] at this
      exact this
    have yields := turned_yields (represents_rotate turned) ofUncle ofSibling
      (Balanced.join_red isRed ofNear ofFar) outer
    have order : (plug (frame :: above :: rest) (join above.dir n d near far)).inorder Data.val
        = (plug rest (join (!above.dir) frame.addr frame.data
          (join (!above.dir) above.addr above.data
          above.sibling frame.sibling) (join above.dir n d near far))).inorder Data.val := by
      rw [plug, plug]
      refine inorder_plug_congr ?_
      rw [inorder_rotate, join_not, join_not, fill, fill, sameSide]
    rw [order]
    exact yields
  · have otherSide : frame.dir = !above.dir := by
      cases frameDir : frame.dir <;> cases aboveDir : above.dir <;> simp_all
    have isInner : n = m.child frame.addr (!above.dir) := by
      rw [← otherSide, inner.toHole]
    rw [if_pos isInner]
    have start : Represents 0 m tree (plug (above :: rest) (join above.dir frame.addr frame.data
        frame.sibling (join above.dir n d near far))) := by
      have := rep
      rw [plug, fill, otherSide, join_not] at this
      exact this
    have once := represents_rotate start
    have newParent : (bstreeRotate m tree frame.addr above.dir).1.child above.addr above.dir
        = n := by
      have fields := frameFields (join_ne_nil _ _ _ _ _) once
      rw [fields.toHole, addr_join]
    have turned : Represents 0 (bstreeRotate m tree frame.addr above.dir).1
        (bstreeRotate m tree frame.addr above.dir).2
        (plug rest (join (!above.dir) above.addr above.data above.sibling
          (join (!above.dir) n d far (join above.dir frame.addr frame.data frame.sibling
            near)))) := by
      rw [join_not, join_not]
      exact once
    have yields := turned_yields (represents_rotate turned) ofUncle ofFar
      (Balanced.join_red parentRed ofSibling ofNear) outer
    have order : (plug (frame :: above :: rest) (join above.dir n d near far)).inorder Data.val
        = (plug rest (join (!above.dir) n d (join (!above.dir) above.addr above.data above.sibling
          far)
          (join above.dir frame.addr frame.data frame.sibling near))).inorder Data.val := by
      rw [plug, plug]
      refine inorder_plug_congr ?_
      rw [inorder_rotate, join_not, join_not, fill, fill, otherSide, join_not]
      exact inorder_join_congr rfl (inorder_rotate _).symm rfl
    rw [order]
    simp only [newParent]
    exact yields

/-- The memory after a round with a red uncle. -/
def recolour (m : Mem) (parent uncle grandparent : Nat) : Mem :=
  Mem.setRed (Mem.setRed (Mem.setRed m parent false) uncle false) grandparent true

section
variable (rep : Represents 0 m tree (plug (frame :: above :: rest) position))
include rep

/-- The uncle is red: it and the parent become black, the grandparent red. -/
theorem represents_recolour {uncleNear uncleFar : Node}
    (isUncle : above.sibling = .node u du uncleNear uncleFar)
    : Represents 0 (recolour m frame.addr u above.addr) tree
        (plug rest (join above.dir above.addr { above.data with red := true }
          (join frame.dir frame.addr { frame.data with red := false } position frame.sibling)
          (.node u { du with red := false } uncleNear uncleFar))) := by
  have first := represents_setRed rep false
  have focus : Represents 0 (setRed m frame.addr false) tree
      (plug (⟨above.addr, above.data, !above.dir,
          join frame.dir frame.addr { frame.data with red := false } position frame.sibling⟩ ::
            rest)
        (join false u du uncleNear uncleFar)) := by
    rw [plug_other_side, isUncle] at first
    exact first
  have second := represents_setRed focus false
  have third : Represents 0 (setRed (setRed m frame.addr false) u false) tree
      (plug rest (join above.dir above.addr above.data
        (join frame.dir frame.addr { frame.data with red := false } position frame.sibling)
        (.node u { du with red := false } uncleNear uncleFar))) := by
    rw [plug, fill, join_not] at second
    exact second
  exact represents_setRed third true

/-- A red uncle moves the position two levels up. -/
theorem addFixup_red_uncle {uncleLeft uncleRight : Node} (some : position ≠ .nil)
    (parentRed : frame.data.red = true)
    (isUncle : above.sibling = .node u du uncleLeft uncleRight) (uncleRed : du.red = true)
    : addFixup (fuel + 1) m tree (position.addr 0) frame.addr = if holeParent 0 rest ≠ 0 then
          addFixup fuel (recolour m frame.addr u above.addr) tree above.addr (holeParent 0 rest)
        else .some (setRed (recolour m frame.addr u above.addr) tree false, tree) := by
  have fields := frameFields some rep
  have filled : frame.fill position ≠ .nil := join_ne_nil _ _ _ _ _
  have upper := frameFields filled rep
  rw [fill, addr_join] at upper
  have isParentRed : red m frame.addr = true := by
    rw [red, fields.data, parentRed]
  have toGrandparent : m.parent frame.addr = above.addr := fields.parent
  have toUncle : m.child above.addr (!above.dir) = u := by
    rw [upper.toSibling, isUncle, Tree.addr]
  have uncleHeld := upper.sibling
  rw [isUncle] at uncleHeld
  have notBlack : ¬ (u = 0 ∨ red m u = false) := by
    rw [red, uncleHeld.2.2.1, uncleRed]
    simp [uncleHeld.1]
  have next := upper.parent
  rw [addFixup, isParentRed, ← next]
  simp only [Bool.not_true, false_eq_true, if_false, toGrandparent, if_neg upper.real,
    upper.side, upper.toHole, ne_eq, not_true_eq_false, toUncle, if_neg notBlack, recolour]
  rfl

end

/-- The repair of `rbtree_add`, from a red node at any position.
Witness: induction on the bound; a red uncle moves the position two levels up.
-/
theorem addFixup_yields (rep : Represents 0 m tree (plug (frame :: rest) position))
    (isRed : Balanced Data.red position true k)
    (context : BalancedContext Data.red (frame :: rest) k strict)
    (enough : (frame :: rest).length < fuel)
    : Yields (addFixup fuel m tree (position.addr 0) frame.addr)
        ((plug (frame :: rest) position).inorder Data.val) := by
  induction fuel generalizing m tree frame rest position k strict with
  | zero => cases enough
  | succ fuel ih =>
    have nonempty : position ≠ .nil := by
      rintro rfl
      cases isRed
    cases context with
    | black colour sibling higher =>
      refine ⟨m, tree, _, ?_, rep, ?_, rfl⟩
      · rw [addFixup, red, (frameFields nonempty rep).data, colour]
        rfl
      · exact higher.plug (Balanced.join_black colour isRed sibling) (fun _ => rfl)
    | red parentRed sibling higher =>
      -- a red parent is not the root
      cases higher with
      | @black above rest uncleRed _ _ _ ofUncle outer =>
      cases uncleRed with
      | false =>
        obtain ⟨n, d, near, far, rfl, colour, ofNear, ofFar⟩ := isRed.red_shape above.dir
        rw [addr_join]
        exact addFixup_rotate rep colour parentRed ofNear ofFar sibling ofUncle outer
      | true =>
        generalize uncle : above.sibling = subtree at ofUncle
        cases ofUncle with
        | @red u du uncleLeft uncleRight _ uncleRed ofUncleLeft ofUncleRight =>
        have recoloured := represents_recolour rep uncle
        have ofParent : Balanced Data.red
            (join frame.dir frame.addr { frame.data with red := false } position
              frame.sibling) false (k + 1) := .join_black rfl isRed sibling
        have newUncle : Balanced Data.red
            (.node u { du with red := false } uncleLeft uncleRight) false (k + 1) :=
          .black rfl ofUncleLeft ofUncleRight
        have sameOrder : ∀ colour, (plug rest (join above.dir above.addr
              { above.data with red := colour }
              (join frame.dir frame.addr { frame.data with red := false } position frame.sibling)
              (.node u { du with red := false } uncleLeft uncleRight))).inorder Data.val
            = (plug (frame :: above :: rest) position).inorder Data.val := by
          intro colour
          rw [plug, plug, fill, fill, uncle]
          exact inorder_plug_congr (inorder_join_congr rfl (inorder_join_congr rfl rfl rfl) rfl)
        rw [addFixup_red_uncle rep nonempty parentRed uncle uncleRed]
        cases rest with
        | nil =>
          obtain rfl : tree = above.addr := by
            rw [recoloured.root, plug, addr_join]
          rw [if_neg (by simp [holeParent]), ← sameOrder false]
          refine ⟨_, _, _, rfl, represents_setRed recoloured false, ?_, rfl⟩
          exact ⟨_, Balanced.join_black rfl ofParent newUncle⟩
        | cons higher rest =>
          have notRoot : holeParent 0 (higher :: rest) ≠ 0 := recoloured.atPosition.1.1
          rw [if_pos notRoot, ← sameOrder true]
          have yields := ih recoloured (Balanced.join_red rfl ofParent newUncle) outer
            (by simp at enough ⊢; omega)
          rw [addr_join] at yields
          exact yields

/-- The in-order sequence of the keys does not descend. -/
def Sorted (position : Node) : Prop :=
  (position.inorder Data.val).Pairwise fun first second => first.2 ≤ second.2

namespace Sorted

variable {a : Nat} {d : Data} {left right : Node} (sorted : Sorted (.node a d left right))
include sorted

theorem of_left : Sorted left := (pairwise_append.mp sorted).1

theorem of_right : Sorted right := (pairwise_cons.mp (pairwise_append.mp sorted).2.1).2

theorem left_le : ∀ entry ∈ left.inorder Data.val ++ [(a, d.val)], entry.2 ≤ d.val := by
  intro entry mem
  rcases mem_append.mp mem with inLeft | here
  · exact (pairwise_append.mp sorted).2.2 entry inLeft (a, d.val) mem_cons_self
  · exact Nat.le_of_eq (congrArg Prod.snd (mem_singleton.mp here))

theorem right_ge : ∀ entry ∈ (a, d.val) :: right.inorder Data.val, d.val ≤ entry.2 := by
  intro entry mem
  rcases mem_cons.mp mem with rfl | inRight
  · exact Nat.le_refl d.val
  · exact (pairwise_cons.mp (pairwise_append.mp sorted).2.1).1 entry inRight

end Sorted

/-- The keys before the position are not above the new key, those behind it not below. -/
def Fits (key : Nat) (context : Context) : Prop :=
  (∀ entry ∈ before Data.val context, entry.2 ≤ key)
    ∧ ∀ entry ∈ after Data.val context, key ≤ entry.2

/-- The descent ends at a missing child, and in a search tree at one where the key fits.
Witness: induction on the subtree that is left to search.
-/
theorem descend_hole (key : Nat) {prev idx} (context : Context)
    (below : Holds 0 m (holeParent 0 context) position)
    (start : position = .nil → ∃ frame rest, context = frame :: rest ∧ frame.addr = prev
      ∧ frame.dir = idx)
    (enough : position.addrs.length < fuel)
    : ∃ frame rest, descend m key fuel (position.addr 0) prev idx = some (frame.addr, frame.dir)
        ∧ plug (frame :: rest) .nil = plug context position
        ∧ (Sorted position → Fits key context → Fits key (frame :: rest)) := by
  induction position generalizing fuel prev idx context with
  | nil =>
    obtain ⟨frame, rest, rfl, rfl, rfl⟩ := start rfl
    cases fuel with
    | zero => cases enough
    | succ fuel => exact ⟨frame, rest, by rw [Tree.addr, descend, if_pos rfl], rfl,
        fun _ fits => fits⟩
  | node a d left right ihLeft ihRight =>
    obtain ⟨real, _, payload, toLeft, toRight, holdsLeft, holdsRight⟩ := below
    cases fuel with
    | zero => cases enough
    | succ fuel =>
      simp only [Tree.addrs, length_cons, length_append] at enough
      rw [Tree.addr, descend, if_neg real]
      have isKey := congrArg Data.val payload
      cases side : decide (val m a < key) with
      | false =>
        simp only [toLeft]
        have into : Holds 0 m (holeParent 0 (⟨a, d, false, right⟩ :: context)) left :=
          holdsLeft
        have less : left.addrs.length < fuel := by omega
        obtain ⟨frame, rest, found, same, narrows⟩ :=
          ihLeft _ into (fun _ => ⟨_, _, rfl, rfl, rfl⟩) less
        refine ⟨frame, rest, found, same, fun sorted fits => narrows sorted.of_left ⟨?_, ?_⟩⟩
        · simpa [before] using fits.1
        · have above : key ≤ d.val := Nat.le_of_not_lt (isKey ▸ of_decide_eq_false side)
          intro entry mem
          rcases mem_append.mp mem with inside | outside
          · exact Nat.le_trans above (sorted.right_ge entry inside)
          · exact fits.2 entry outside
      | true =>
        simp only [toRight]
        have into : Holds 0 m (holeParent 0 (⟨a, d, true, left⟩ :: context)) right :=
          holdsRight
        have less : right.addrs.length < fuel := by omega
        obtain ⟨frame, rest, found, same, narrows⟩ :=
          ihRight _ into (fun _ => ⟨_, _, rfl, rfl, rfl⟩) less
        refine ⟨frame, rest, found, same, fun sorted fits => narrows sorted.of_right ⟨?_, ?_⟩⟩
        · have below : d.val ≤ key := Nat.le_of_lt (isKey ▸ of_decide_eq_true side)
          intro entry mem
          rcases mem_append.mp mem with outside | inside
          · exact fits.1 entry outside
          · exact Nat.le_trans (sorted.left_le entry inside) below
        · simpa [after] using fits.2

/-- The memory after the first stores of `rbtree_add`. -/
def freshNode (m : Mem) (node : Nat) : Mem :=
  Mem.setChild (Mem.setChild (Mem.setRed (Mem.setParent m node 0) node false) node true 0) node
    false 0

theorem freshNode_sameAt {q} (other : q ≠ node) : m.SameAt (freshNode m node) q := by
  refine ⟨fun side => ?_, update_of_ne other _ _, update_of_ne other _ _⟩
  simp [freshNode, setChild, setRed, setParent, other]

theorem freshNode_holds (real : node ≠ 0)
    : Holds 0 (freshNode m node) 0 (.node node ⟨false, val m node⟩ .nil .nil) := by
  refine ⟨real, update_self _ _ _, ?_, ?_, ?_, trivial, trivial⟩
  · exact update_self _ _ _
  · exact if_pos ⟨rfl, rfl⟩
  · simp [freshNode, setChild, Tree.addr]

/-- The new node, hung red at a missing child. -/
def addAt (m : Mem) (frame : Frame Nat Data) (node : Nat) : Mem :=
  setRed (setParent (setChild (freshNode m node) frame.addr frame.dir node) node frame.addr) node
    true

theorem represents_addAt (rep : Represents 0 m tree (plug (frame :: rest) .nil)) (real : node ≠ 0)
    (fresh : node ∉ contextAddrs (frame :: rest))
    : Represents 0 (addAt m frame node) tree
        (plug (frame :: rest) (join false node ⟨true, val m node⟩ .nil .nil)) := by
  have kept : Represents 0 (freshNode m node) tree (plug (frame :: rest) .nil) := by
    refine rep.congr fun q mem => freshNode_sameAt ?_
    rw [(addrs_plug _ _).mem_iff, Tree.addrs, nil_append] at mem
    exact fun same => fresh (same ▸ mem)
  obtain ⟨above, _, distinct⟩ := kept.atPosition
  have newDistinct := nodup_cons.mpr ⟨fresh, distinct⟩
  have hung := represents_hang above kept.root (freshNode_holds real) newDistinct
  rw [Tree.addr, hang, if_pos real] at hung
  have focus : Represents 0 (setParent (setChild (freshNode m node) frame.addr frame.dir
      node) node frame.addr) tree
      (plug (frame :: rest) (join false node ⟨false, val m node⟩ .nil .nil)) := hung
  exact represents_setRed focus true

/-- `rbtree_add` hangs the node at a missing child, in a search tree at one where its key fits, and
goes on with the repair.
-/
theorem rbtreeAdd_hangs {old : Node} (rep : Represents 0 m tree old) (some : old ≠ .nil)
    (real : node ≠ 0) (fresh : node ∉ old.addrs) (enough : old.addrs.length < fuel)
    : ∃ frame rest, plug (frame :: rest) .nil = old
        ∧ (Sorted old → Fits (val m node) (frame :: rest))
        ∧ rbtreeAdd fuel m tree node = addFixup fuel (addAt m frame node) tree node frame.addr := by
  have kept : Represents 0 (freshNode m node) tree old :=
    rep.congr fun q mem => freshNode_sameAt fun same => fresh (same ▸ mem)
  have notEmpty : tree ≠ 0 := by
    rw [rep.root]
    exact rep.holds.addr_ne_null some
  have sameKey : val (freshNode m node) node = val m node := by
    have payload := (freshNode_holds (m := m) real).2.2.1
    rw [val, payload]
  obtain ⟨frame, rest, found, hole, narrows⟩ : ∃ frame rest,
      descend (freshNode m node) (val m node) fuel tree tree false = .some (frame.addr, frame.dir)
        ∧ plug (frame :: rest) .nil = plug [] old
        ∧ (Sorted old → Fits (val m node) [] → Fits (val m node) (frame :: rest)) := by
    rw [rep.root]
    exact descend_hole _ [] kept.holds (fun empty => absurd empty some) enough
  refine ⟨frame, rest, hole, fun sorted => narrows sorted (by simp [Fits, before, after]), ?_⟩
  have first : setChild (setChild (setRed (setParent m node 0) node false)
      node true 0) node false 0 = freshNode m node := rfl
  simp only [rbtreeAdd, if_neg real, if_neg notEmpty, first, sameKey, found]
  rfl

/-- `rbtree_add` puts the new node somewhere into the in-order sequence, in a search tree where its
key fits, and repairs the colours.
-/
theorem rbtreeAdd_yields {old : Node} (rep : Represents 0 m tree old)
    (valid : RedBlack Data.red old) (real : node ≠ 0) (fresh : node ∉ old.addrs)
    (enough : old.addrs.length < fuel)
    : ∃ smaller larger, old.inorder Data.val = smaller ++ larger
        ∧ (Sorted old → (∀ entry ∈ smaller, entry.2 ≤ val m node)
          ∧ ∀ entry ∈ larger, val m node ≤ entry.2)
        ∧ Yields (rbtreeAdd fuel m tree node) (smaller ++ [(node, val m node)] ++ larger) := by
  by_cases some : old = .nil
  · subst some
    refine ⟨[], [], rfl, by simp, freshNode m node, node, _, ?_,
      ⟨rfl, freshNode_holds real, ?_⟩, ?_, rfl⟩
    · rw [rbtreeAdd, if_neg real]
      exact if_pos rep.root
    · simp [Tree.addrs]
    · exact ⟨1, .black rfl .nil .nil⟩
  obtain ⟨frame, rest, rfl, fits, run⟩ := rbtreeAdd_hangs rep some real fresh enough
  have shallow := length_le_addrs_plug (frame :: rest) .nil
  rw [(addrs_plug _ _).mem_iff, Tree.addrs, nil_append] at fresh
  refine ⟨_, _, (inorder_plug _ _).trans (congrArg (· ++ _) (append_nil _)), fits, ?_⟩
  obtain ⟨n, c, strict, empty, context, _⟩ := valid.split
  obtain ⟨_, rfl⟩ := empty.nil_inv
  have yields := addFixup_yields (represents_addAt rep real fresh) (.join_red rfl .nil .nil) context
    (Nat.lt_of_le_of_lt shallow enough)
  rw [inorder_plug, addr_join] at yields
  rw [run]
  exact yields

end UnstableOS.Rbtree
