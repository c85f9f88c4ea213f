import UnstableOS.Rbtree.Insert

/-! The repair of `rbtree_remove`. It returns and keeps the order; where it meets no red sibling it
also restores the balance.
-/

namespace UnstableOS.Rbtree

open Lib.LinkedTree Data Bool List

variable {m : Mem} {tree : Nat} {rest : Context} {frame above : Frame Nat Data}

def hasRedChild : Node → Bool
  | .nil => false
  | .node _ _ left right => rootRed Data.red left || rootRed Data.red right

/-- The climb of the repair meets no red sibling before it ends. -/
def Repairable : Context → Bool
  | [] => true
  | frame :: rest =>
    !rootRed Data.red frame.sibling
      && (hasRedChild frame.sibling || frame.data.red || Repairable rest)

theorem rootRed_iff {parent} {position : Node} (holds : Holds 0 m parent position)
    : (position.addr 0 ≠ 0 ∧ Mem.red m (position.addr 0) = true) ↔ rootRed red position = true := by
  cases position with
  | nil => simp [Tree.addr, rootRed]
  | node a d left right =>
    obtain ⟨real, _, payload, _⟩ := holds
    simp [Tree.addr, rootRed, Mem.red, real, payload]

theorem hasRedChild_join (dir : Bool) (a : Nat) (d : Data) (near far : Node)
    : hasRedChild (join dir a d near far) = (rootRed red near || rootRed red far) := by
  cases dir with
  | false => rfl
  | true => exact or_comm _ _

/-- A node of the old colour over two black subtrees fits where the frame was. -/
theorem redBlack_refill {k a d dir strict} {near far : Node}
    (context : BalancedContext red (frame :: rest) k strict)
    (sameColour : d.red = frame.data.red)
    (ofNear : Balanced red near false k) (ofFar : Balanced red far false k)
    : RedBlack red (plug rest (join dir a d near far)) := by
  cases context with
  | red colour _ higher =>
    exact higher.plug (Balanced.join_red (sameColour.trans colour) ofNear ofFar) (by simp)
  | black colour _ higher =>
    exact higher.plug (Balanced.join_black (sameColour.trans colour) ofNear ofFar) (by simp)

theorem rootRed_join (dir : Bool) (a : Nat) (d : Data) (near far : Node)
    : rootRed red (join dir a d near far) = d.red := by
  cases dir <;> rfl

/-- The operation returns a represented tree that is good and has the given in-order sequence. -/
def Leaves (good : Node → Prop) (result : Option (Mem × Nat)) (inorder : List (Nat × Nat)) : Prop :=
  ∃ m' tree' after, result = some (m', tree') ∧ Represents 0 m' tree' after ∧ good after
    ∧ after.inorder Data.val = inorder

section Repair
variable {position near far : Node} {s p : Nat} {ds dp : Data} {dir : Bool}

/-- A colour change on the far side of a position. -/
theorem represents_setRed_far {side}
    (rep : Represents 0 m tree (plug rest (join dir p dp position (join side s ds near far))))
    (value : Bool)
    : Represents 0 (Mem.setRed m s value) tree
        (plug rest (join dir p dp position (join side s { ds with red := value } near far))) := by
  have focus : Represents 0 m tree
      (plug (⟨p, dp, !dir, position⟩ :: rest) (join side s ds near far)) := by
    rw [plug, Frame.fill, join_not]
    exact rep
  have changed := represents_setRed focus value
  rwa [plug, Frame.fill, join_not] at changed

/-- The memory after the first stores of a round: the sibling and the parent become black. -/
def blacken (m : Mem) (sibling parent : Nat) : Mem :=
  Mem.setRed (Mem.setRed m sibling false) parent false

theorem represents_blacken
    (rep : Represents 0 m tree (plug rest (join dir p dp position (join dir s ds near far))))
    : Represents 0 (blacken m s p) tree (plug rest (join dir p { dp with red := false } position
          (join dir s { ds with red := false } near far))) :=
  represents_setRed (represents_setRed_far rep false) false

variable {x fuel k : Nat} {dx : Data} {left right inner outer : Node} {c strict : Bool}

theorem represents_distant (colour : Bool) (rep : Represents 0 m tree
      (plug rest (join dir p dp position (join dir s ds near (join false x dx left right)))))
    : Represents 0 (Mem.setRed (Mem.setRed (bstreeRotate m tree p dir).1 s colour) x false)
        (bstreeRotate m tree p dir).2
        (plug rest (join dir s { ds with red := colour } (join dir p dp position near)
          (join false x { dx with red := false } left right))) :=
  represents_setRed_far (represents_setRed (represents_rotate rep) colour) false

/-- A red close nephew: two rotations end the repair. -/
theorem represents_close (rep : Represents 0 m tree
      (plug rest (join dir p dp position (join dir s ds (join dir x dx inner outer) far))))
    : let first := bstreeRotate m tree s (!dir)
      let second := bstreeRotate first.1 first.2 p dir
      Represents 0 second.1 second.2
        (plug rest (join dir x dx (join dir p dp position inner) (join dir s ds outer far))) := by
  have focus : Represents 0 m tree (plug (⟨p, dp, !dir, position⟩ :: rest)
        (join (!dir) s ds far (join (!dir) x dx outer inner))) := by
    rw [plug, Frame.fill, join_not, join_not, join_not]
    exact rep
  have once := represents_rotate focus
  rw [plug, Frame.fill, join_not, join_not, join_not] at once
  exact represents_rotate once

/-- One round of the repair at a black sibling. -/
theorem removeFixup_round
    (rep : Represents 0 m tree (plug rest (join dir p dp position (join dir s ds near far))))
    (black : ds.red = false)
    : removeFixup (fuel + 1) m tree p dir = if rootRed red far then
          let rotated := bstreeRotate (blacken m s p) tree p dir
          some (Mem.setRed (Mem.setRed rotated.1 s dp.red) (far.addr 0) false, rotated.2)
        else if rootRed red near then
          let first := bstreeRotate (blacken m s p) tree s (!dir)
          let second := bstreeRotate first.1 first.2 p dir
          some (Mem.setRed (Mem.setRed second.1 (near.addr 0) false) (near.addr 0) dp.red, second.2)
        else if dp.red then some (Mem.setRed (blacken m s p) s true, tree)
        else if holeParent 0 rest ≠ 0 then
          removeFixup fuel (Mem.setRed (blacken m s p) s true) tree (holeParent 0 rest)
            (m.child (holeParent 0 rest) true == p)
        else some (Mem.setRed (blacken m s p) s true, tree) := by
  have first := represents_setRed_far rep false
  have second := represents_blacken rep
  have rotatedBlack : Mem.red (bstreeRotate (blacken m s p) tree p dir).1 s = false := by
    have holds := (represents_rotate second).atPosition.2.1
    rw [Mem.red, (holds_join.mp holds).2.2.1]
  have oldColour : Mem.red (Mem.setRed m s false) p = dp.red := by
    rw [Mem.red, (holds_join.mp first.atPosition.2.1).2.2.1]
  obtain ⟨_, toParent, _, _, toSibling, _, sibling⟩ := holds_join.mp rep.atPosition.2.1
  obtain ⟨real, _, colour, toNear, toFar, _, _⟩ := holds_join.mp sibling
  obtain ⟨_, _, _, _, _, _, newSibling⟩ := holds_join.mp second.atPosition.2.1
  obtain ⟨_, _, _, _, _, holdsNear, holdsFar⟩ := holds_join.mp newSibling
  have distantRed := rootRed_iff holdsFar
  have closeRed := rootRed_iff holdsNear
  have siblingBlack : Mem.red m s = false := by
    rw [Mem.red, colour, black]
  rw [addr_join] at toSibling
  have up : (Mem.setRed (blacken m s p) s true).parent p = holeParent 0 rest := toParent
  have slot : (Mem.setRed (blacken m s p) s true).child = m.child := rfl
  have recoloured (q) (target : Mem) : Mem.red (Mem.setRed target q false) q = false := by
    simp [Mem.red, Mem.setRed]
  simp only [blacken] at rotatedBlack up slot distantRed closeRed ⊢
  simp [removeFixup, toSibling, if_neg real, siblingBlack,
    toNear, toFar, oldColour, up, slot, rotatedBlack, recoloured, distantRed,
    closeRed]

/-- How a round at a black sibling ends: with a rotation at a red nephew, with the sibling red below
a parent that was red or is the root, or one level up.
-/
inductive Round (fuel : Nat) (rest : Context) (dir : Bool) (p : Nat) (dp : Data) (position : Node)
    (s : Nat)
    (ds : Data) (near far : Node) (tree : Nat) : Option (Mem × Nat) → Prop where
  | distant {m' : Mem} {tree' x : Nat} {dx : Data} {left right : Node}
      (isFar : far = join false x dx left right) (isRed : dx.red = true)
      (rep : Represents 0 m' tree' (plug rest (join dir s { ds with red := dp.red }
        (join dir p { dp with red := false } position near)
        (join false x { dx with red := false } left right))))
      : Round fuel rest dir p dp position s ds near far tree (some (m', tree'))
  | close {m' : Mem} {tree' x : Nat} {dx : Data} {inner outer : Node}
      (isNear : near = join dir x dx inner outer) (isRed : dx.red = true)
      (farBlack : rootRed Data.red far = false)
      (rep : Represents 0 m' tree' (plug rest (join dir x { dx with red := dp.red }
        (join dir p { dp with red := false } position inner)
        (join dir s { ds with red := false } outer far))))
      : Round fuel rest dir p dp position s ds near far tree (some (m', tree'))
  | stop {m' : Mem} (nearBlack : rootRed Data.red near = false)
      (farBlack : rootRed Data.red far = false)
      (ends : dp.red = true ∨ rest = [])
      (rep : Represents 0 m' tree (plug rest (join dir p { dp with red := false } position
        (join dir s { ds with red := true } near far))))
      : Round fuel rest dir p dp position s ds near far tree (some (m', tree))
  | climb {m' : Mem} {above : Frame Nat Data} {rest' : Context}
      (nearBlack : rootRed Data.red near = false)
      (farBlack : rootRed Data.red far = false) (goesOn : dp.red = false)
      (isRest : rest = above :: rest')
      (rep : Represents 0 m' tree (plug rest (join dir p { dp with red := false } position
        (join dir s { ds with red := true } near far))))
      : Round fuel rest dir p dp position s ds near far tree
        (removeFixup fuel m' tree above.addr above.dir)

theorem rootRed_shape {tree : Node} (dir : Bool) (isRed : rootRed red tree = true)
    : ∃ x dx near far, tree = join dir x dx near far ∧ dx.red = true := by
  cases tree with
  | nil => cases isRed
  | node x dx left right =>
    cases dir with
    | false => exact ⟨x, dx, left, right, rfl, isRed⟩
    | true => exact ⟨x, dx, right, left, rfl, isRed⟩

theorem removeFixup_cases (fuel : Nat)
    (rep : Represents 0 m tree (plug rest (join dir p dp position (join dir s ds near far))))
    (black : ds.red = false)
    : Round fuel rest dir p dp position s ds near far tree
      (removeFixup (fuel + 1) m tree p dir) := by
  have blackened := represents_blacken rep
  rw [removeFixup_round rep black]
  cases farRed : rootRed red far with
  | true =>
    obtain ⟨x, dx, left, right, rfl, isRed⟩ := rootRed_shape false farRed
    have turned := represents_distant dp.red blackened
    exact .distant rfl isRed turned
  | false =>
  cases nearRed : rootRed red near with
  | true =>
    obtain ⟨x, dx, inner, outer, rfl, isRed⟩ := rootRed_shape dir nearRed
    rw [addr_join]
    exact .close rfl isRed farRed
      (represents_setRed (represents_setRed (represents_close blackened) false) dp.red)
  | false =>
  have reddened := represents_setRed_far blackened true
  cases colour : dp.red with
  | true =>
    exact .stop nearRed farRed (.inl colour) reddened
  | false =>
  cases rest with
  | nil => exact .stop nearRed farRed (.inr rfl) reddened
  | cons above rest =>
    have fields := frameFields (join_ne_nil _ _ _ _ _) reddened
    rw [addr_join] at fields
    have sameSlot : (m.child (holeParent 0 (above :: rest)) true == p) = above.dir :=
      fields.side_right
    have real : holeParent 0 (above :: rest) ≠ 0 := fields.real
    rw [if_pos real, sameSlot]
    exact .climb nearRed farRed colour rfl reddened

theorem inorder_reddened
    : (plug rest (join dir p { dp with red := false } position
      (join dir s { ds with red := true } near far))).inorder
        val
      = (plug rest (join dir p dp position (join dir s ds near far))).inorder val :=
  inorder_plug_congr (inorder_join_congr rfl rfl (inorder_join_congr rfl rfl rfl))

theorem inorder_distant
    : (plug rest (join dir s { ds with red := c }
        (join dir p { dp with red := false } position near)
        (join false x { dx with red := false } left right))).inorder val
      = (plug rest (join dir p dp position
        (join dir s ds near (join false x dx left right)))).inorder val := by
  refine inorder_plug_congr ((inorder_rotate _).trans ?_)
  exact inorder_join_congr rfl rfl (inorder_join_congr rfl rfl (inorder_join_congr rfl rfl rfl))

theorem inorder_close
    : (plug rest (join dir x { dx with red := c }
        (join dir p { dp with red := false } position inner)
        (join dir s { ds with red := false } outer far))).inorder val
      = (plug rest (join dir p dp position
        (join dir s ds (join dir x dx inner outer) far))).inorder val := by
  refine inorder_plug_congr ?_
  cases dir <;> simp [join, Tree.inorder]

/-- The repair of `rbtree_remove`, where the subtree at the position is one black node short.
Witness: induction on the bound; without a red nephew and below a black parent the shortage moves
one level up.
-/
theorem removeFixup_yields (rep : Represents 0 m tree (plug (frame :: rest) position))
    (ofPosition : Balanced red position false k)
    (context : BalancedContext red (frame :: rest) (k + 1) strict)
    (repairable : Repairable (frame :: rest) = true) (enough : (frame :: rest).length < fuel)
    : Yields (removeFixup fuel m tree frame.addr frame.dir)
        ((plug (frame :: rest) position).inorder val) := by
  induction fuel generalizing m tree frame rest position k strict with
  | zero => cases enough
  | succ fuel ih =>
    simp only [Repairable, and_eq_true, not_eq_true', or_eq_true] at repairable
    obtain ⟨siblingBlack, further⟩ := repairable
    obtain ⟨siblingRed, ofSibling⟩ := context.sibling
    obtain rfl : siblingRed = false := ofSibling.rootRed_eq.symm.trans siblingBlack
    obtain ⟨s, ds, near, far, nearRed, farRed, isSibling, black, ofNear, ofFar⟩ :=
      ofSibling.black_shape frame.dir
    have filled : plug (frame :: rest) position
        = plug rest (join frame.dir frame.addr frame.data position
          (join frame.dir s ds near far)) := by
      rw [plug, Frame.fill, isSibling]
    rw [filled] at rep ⊢
    have refilled (nearBlack : rootRed red near = false) (farBlack : rootRed red far = false)
        : Balanced red (join frame.dir frame.addr { frame.data with red := false } position
          (join frame.dir s { ds with red := true } near far)) false (k + 1) := by
      refine .join_black rfl ofPosition (.join_red rfl ?_ ?_)
      · exact (ofNear.rootRed_eq.symm.trans nearBlack) ▸ ofNear
      · exact (ofFar.rootRed_eq.symm.trans farBlack) ▸ ofFar
    have round := removeFixup_cases fuel rep black
    generalize removeFixup (fuel + 1) m tree frame.addr frame.dir = result at round ⊢
    cases round with
    | distant isFar isRed rep' =>
      subst isFar
      rcases ofFar.join_inv with ⟨_, _, ofLeft, ofRight⟩ | ⟨_, isBlack, _⟩
      · refine ⟨_, _, _, rfl, rep', ?_, inorder_distant⟩
        exact redBlack_refill context rfl (.join_black rfl ofPosition ofNear)
          (.join_black rfl ofLeft ofRight)
      · rw [isRed] at isBlack
        cases isBlack
    | close isNear isRed farBlack rep' =>
      subst isNear
      rcases ofNear.join_inv with ⟨_, _, ofInner, ofOuter⟩ | ⟨_, isBlack, _⟩
      · refine ⟨_, _, _, rfl, rep', ?_, inorder_close⟩
        exact redBlack_refill context rfl (.join_black rfl ofPosition ofInner)
          (.join_black rfl ofOuter ofFar)
      · rw [isRed] at isBlack
        cases isBlack
    | stop nearBlack farBlack ends rep' =>
      refine ⟨_, _, _, rfl, rep', ?_, inorder_reddened⟩
      cases context with
      | red colour _ higher => exact higher.plug (refilled nearBlack farBlack) (by simp)
      | black colour _ higher =>
        obtain rfl : rest = [] := ends.resolve_left (by simp [colour])
        exact ⟨_, refilled nearBlack farBlack⟩
    | climb nearBlack farBlack goesOn isRest rep' =>
      subst isRest
      rw [isSibling, hasRedChild_join, nearBlack, farBlack, goesOn] at further
      cases context with
      | red colour _ higher =>
        rw [goesOn] at colour
        cases colour
      | black colour _ higher =>
        rw [← inorder_reddened]
        refine ih rep' (refilled nearBlack farBlack) higher ?_ (by simp at enough ⊢; omega)
        simpa using further

/-- A red sibling is turned up, and the repair goes on one level below it. -/
theorem removeFixup_red (fuel : Nat)
    (rep : Represents 0 m tree (plug rest (join dir p dp position (join dir s ds near far))))
    (isRed : ds.red = true) (positionBlack : rootRed red position = false)
    (nearBlack : rootRed red near = false)
    : ∃ m' tree', removeFixup (fuel + 1) m tree p dir = removeFixup fuel m' tree' s dir
        ∧ Represents 0 m' tree' (plug rest (join dir s { ds with red := false }
          (join dir p { dp with red := true } position near) far)) := by
  obtain ⟨pReal, _, _, _, toSibling, _, sibling⟩ := holds_join.mp rep.atPosition.2.1
  obtain ⟨sReal, _, colour, _⟩ := holds_join.mp sibling
  have siblingRed : Mem.red m s = true := by rw [Mem.red, colour, isRed]
  rw [addr_join] at toSibling
  have turned : Represents 0 (bstreeRotate m tree p dir).1 (bstreeRotate m tree p dir).2
      (plug (⟨s, ds, dir, far⟩ :: rest) (join dir p dp position near)) := represents_rotate rep
  have reddened : Represents 0 (Mem.setRed (bstreeRotate m tree p dir).1 p true)
      (bstreeRotate m tree p dir).2
      (plug rest (join dir s ds (join dir p { dp with red := true } position near) far)) :=
    represents_setRed turned true
  have coloured : Represents 0
      (Mem.setRed (Mem.setRed (bstreeRotate m tree p dir).1 p true) s false)
      (bstreeRotate m tree p dir).2 (plug (⟨s, { ds with red := false }, dir, far⟩ :: rest)
        (join dir p { dp with red := true } position near)) := represents_setRed reddened false
  rw [removeFixup]
  simp only [toSibling, if_neg sReal, siblingRed, if_true]
  generalize Mem.setRed (Mem.setRed (bstreeRotate m tree p dir).1 p true) s false = m₁ at coloured ⊢
  generalize (bstreeRotate m tree p dir).2 = tree₁ at coloured ⊢
  have blackened := represents_setRed (represents_setRed coloured false) false
  have fields := frameFields (join_ne_nil _ _ _ _ _) coloured
  rw [addr_join] at fields
  obtain ⟨_, toParent, _, toPosition, toNear, _, _⟩ := holds_join.mp coloured.atPosition.2.1
  obtain ⟨_, _, _, _, _, holdsPosition, holdsNear⟩ := holds_join.mp blackened.atPosition.2.1
  have positionNotRed := (rootRed_iff holdsPosition).not.mpr (by simp [positionBlack])
  have nearNotRed := (rootRed_iff holdsNear).not.mpr (by simp [nearBlack])
  have black : Mem.red (Mem.setRed m₁ p false) p = false := by simp [Mem.red, Mem.setRed]
  have toTurned := fields.toHole
  have slot := fields.side_right
  have up : (Mem.setRed (Mem.setRed (Mem.setRed m₁ p false) p false) p true).parent p = s :=
    toParent
  refine ⟨_, tree₁, ?_, represents_setRed blackened true⟩
  simp only [toTurned, if_neg pReal, toNear, toPosition, if_neg nearNotRed, if_neg positionNotRed,
    black,
    false_eq_true, if_false, up, ne_eq, sReal, not_false_eq_true, if_true]
  exact congrArg _ slot

/-- If the repair one level up keeps the order, so does the repair from this round on. -/
theorem Round.leaves {result} (round : Round fuel rest dir p dp position s ds near far tree result)
    (climbs : ∀ {m' : Mem} {above} {rest' : Context}, rest = above :: rest' →
      Represents 0 m' tree (plug rest (join dir p { dp with red := false } position
        (join dir s { ds with red := true } near far))) →
      Leaves (fun _ => True) (removeFixup fuel m' tree above.addr above.dir)
        ((plug rest (join dir p dp position (join dir s ds near far))).inorder val))
    : Leaves (fun _ => True) result
        ((plug rest (join dir p dp position (join dir s ds near far))).inorder val) := by
  cases round with
  | distant isFar _ rep => exact ⟨_, _, _, rfl, rep, trivial, isFar ▸ inorder_distant⟩
  | close isNear _ _ rep => exact ⟨_, _, _, rfl, rep, trivial, isNear ▸ inorder_close⟩
  | stop _ _ _ rep => exact ⟨_, _, _, rfl, rep, trivial, inorder_reddened⟩
  | climb _ _ _ isRest rep => exact climbs isRest rep

/-- Whatever the colours above are, the repair returns and keeps the order.
Witness: induction on the context; a level takes two rounds if its sibling is red.
-/
theorem removeFixup_keeps (rep : Represents 0 m tree (plug (frame :: rest) position))
    (context : BalancedContext red (frame :: rest) (k + 1) strict)
    (black : rootRed red position = false)
    (enough : (contextAddrs (frame :: rest)).length < fuel)
    : Leaves (fun _ => True) (removeFixup fuel m tree frame.addr frame.dir)
        ((plug (frame :: rest) position).inorder val) := by
  induction fuel using Nat.strongRecOn generalizing m tree frame rest position k strict with
  | ind fuel ih =>
    obtain ⟨siblingRed, ofSibling⟩ := context.sibling
    obtain ⟨k', strict', higher⟩ : ∃ k' strict', BalancedContext red rest (k' + 1) strict' := by
      cases context with
      | red _ _ higher => exact ⟨k, _, higher⟩
      | black _ _ higher => exact ⟨k + 1, _, higher⟩
    have filled (tree : Node) (isSibling : frame.sibling = tree)
        : plug (frame :: rest) position
          = plug rest (join frame.dir frame.addr frame.data position tree) := by
      rw [plug, Frame.fill, isSibling]
    have size {s} {ds} {near far} (isSibling : frame.sibling = join frame.dir s ds near far)
        : (contextAddrs (frame :: rest)).length
          = near.addrs.length + far.addrs.length + (contextAddrs rest).length + 2 := by
      rw [contextAddrs, isSibling, length_cons, length_append, (addrs_join _ _ _ _ _).length_eq,
        length_cons, length_append]
      omega
    cases siblingRed with
    | false =>
      obtain ⟨s, ds, near, far, _, _, isSibling, isBlack, _, _⟩ := ofSibling.black_shape frame.dir
      have length := size isSibling
      obtain ⟨fuel, rfl⟩ : ∃ less, fuel = less + 1 := ⟨fuel - 1, by omega⟩
      rw [filled _ isSibling] at rep ⊢
      refine (removeFixup_cases _ rep isBlack).leaves fun isRest rep' => ?_
      subst isRest
      rw [← inorder_reddened]
      exact ih fuel (Nat.lt_succ_self fuel) rep' higher (rootRed_join _ _ _ _ _) (by omega)
    | true =>
      obtain ⟨s, ds, near, far, isSibling, isRed, ofNear, ofFar⟩ := ofSibling.red_shape frame.dir
      obtain ⟨f, df, inner, outer, _, _, rfl, isBlack, _, _⟩ := ofFar.black_shape frame.dir
      have length := size isSibling
      rw [(addrs_join _ _ _ _ _).length_eq] at length
      obtain ⟨fuel, rfl⟩ : ∃ less, fuel = less + 1 + 1 := ⟨fuel - 2, by simp at length; omega⟩
      rw [filled _ isSibling] at rep ⊢
      obtain ⟨m₁, tree₁, turned, rep₁⟩ :=
        removeFixup_red (fuel + 1) rep isRed black ofNear.rootRed_eq
      have sameOrder : (plug rest (join frame.dir s { ds with red := false }
            (join frame.dir frame.addr { frame.data with red := true } position near)
            (join frame.dir f df inner outer))).inorder val
          = (plug rest (join frame.dir frame.addr frame.data position
            (join frame.dir s ds near (join frame.dir f df inner outer)))).inorder val :=
        inorder_plug_congr ((inorder_rotate _).trans
          (inorder_join_congr rfl rfl (inorder_join_congr rfl rfl rfl)))
      rw [turned, ← sameOrder]
      refine (removeFixup_cases _ rep₁ isBlack).leaves fun isRest rep' => ?_
      subst isRest
      rw [← inorder_reddened]
      refine ih fuel (by omega) rep' higher (rootRed_join _ _ _ _ _) ?_
      omega

end Repair

end UnstableOS.Rbtree
