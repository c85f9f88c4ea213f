import UnstableOS.Rbtree.Repair

/-! `rbtree_remove`: on which nodes it returns and takes just the node out of the in-order sequence,
and on which it keeps the balance too.
-/

namespace UnstableOS.Rbtree

open Lib.LinkedTree Lib.LinkedTree.Tree Function Data List Bool Option

variable {m : Mem} {tree fuel a y : Nat} {frame : Frame Nat Data} {context rest inside : Context}
  {d dy : Data} {left right position other tail : Node}

-- Nodes with at most one child

/-- The label `relink`, for a node below the root. -/
theorem relink_below {replacement} (fields : FrameFields m frame rest a) (notRoot : a ≠ tree)
    : relink fuel m tree a frame.addr replacement
      = let linked := Mem.setChild (hang m replacement frame.addr) frame.addr frame.dir replacement
        if replacement ≠ 0 then some (Mem.setRed linked replacement false, tree)
        else if Mem.red m a then some (linked, tree)
        else removeFixup fuel linked tree frame.addr frame.dir := by
  have slot : (!((hang m replacement frame.addr).child frame.addr false == a)) = frame.dir := by
    rw [hang_child, beq_comm, fields.side]
  have sameColour : Mem.red (Mem.setChild (hang m replacement frame.addr) frame.addr frame.dir
      replacement) a = Mem.red m a := by
    rw [Mem.red, Mem.setChild, hang_data, Mem.red]
  rw [relink, ← hang]
  simp [if_neg notRoot, if_neg fields.real, slot, sameColour]

/-- A node below another one is not the root. -/
theorem below_ne_root (rep : Represents 0 m tree (plug (frame :: rest) (.node a d left right)))
    : a ≠ tree := by
  obtain ⟨_, _, distinct⟩ := rep.atPosition
  have inContext : tree ∈ contextAddrs (frame :: rest) := by
    rw [rep.root]
    exact addr_plug_mem _ _ _
  intro same
  have fresh := (nodup_cons.mp distinct).1
  exact fresh (by rw [same]; simp [inContext])

/-- A successful removal: the node leaves the in-order sequence. -/
def Erases (result : Option (Mem × Nat)) (old : Node) (a : Nat) : Prop :=
  ∃ smaller larger key, old.inorder Data.val = smaller ++ [(a, key)] ++ larger
    ∧ Yields result (smaller ++ larger)

/-- The same with another property of the tree that is left. -/
def Erased (good : Node → Prop) (result : Option (Mem × Nat)) (old : Node) (a : Nat) : Prop :=
  ∃ smaller larger key, old.inorder Data.val = smaller ++ [(a, key)] ++ larger
    ∧ Leaves good result (smaller ++ larger)

/-- The node has at most one child, whose subtree is `other`. -/
def OnlyChild (left right other : Node) : Prop :=
  (left = .nil ∧ other = right) ∨ (right = .nil ∧ other = left)

theorem root_ne_zero (rep : Represents 0 m tree (plug context (.node a d left right)))
    : tree ≠ 0 := by
  rw [rep.root]
  refine rep.holds.addr_ne_null ?_
  cases context with
  | nil => exact nofun
  | cons frame rest => exact plug_cons_ne_nil _ _ _

theorem represents_hang_root {up} (below : Holds 0 m up other) (distinct : other.addrs.Nodup)
    : Represents 0 (hang m (other.addr 0) 0) (other.addr 0) other := by
  refine ⟨rfl, below.hang distinct ?_ fun q _ => ⟨?_, ?_, fun notTop => hang_parent notTop 0⟩,
    distinct⟩
  · exact fun real => hang_root (below.addr_ne_null real) 0
  · exact fun side => congrFun (congrFun (hang_child _ _) q) side
  · exact congrFun (hang_data _ _) q

/-- With a missing child the other one is the replacement. -/
theorem rbtreeRemove_single (rep : Represents 0 m tree (plug context (.node a d left right)))
    (single : OnlyChild left right other)
    : rbtreeRemove fuel m tree a = relink fuel m tree a (holeParent 0 context) (other.addr 0) := by
  obtain ⟨real, up, _, toLeft, toRight, ofLeft, ofRight⟩ := rep.atPosition.2.1
  have missing : m.child a false = 0 ∨ m.child a true = 0 := by
    rcases single with ⟨rfl, _⟩ | ⟨rfl, _⟩
    · exact .inl toLeft
    · exact .inr toRight
  have chosen : m.child a (!(m.child a false != 0)) = other.addr 0 := by
    cases left with
    | nil =>
      have noLeft : m.child a false = 0 := toLeft
      rcases single with ⟨_, rfl⟩ | ⟨rfl, rfl⟩ <;> simp [noLeft, toRight]
    | node x dx l r =>
      have found : (m.child a false != 0) = true := by
        rw [toLeft]
        exact bne_iff_ne.mpr ofLeft.1
      rcases single with ⟨impossible, _⟩ | ⟨rfl, rfl⟩
      · cases impossible
      · rw [found, Bool.not_true, toLeft]
  rw [rbtreeRemove, if_neg (by simp [root_ne_zero rep, real])]
  simp [if_pos missing, up, chosen]

/-- The root is removed, if it has at most one child. -/
theorem remove_root_single {good} (rep : Represents 0 m tree (.node a d left right))
    (single : OnlyChild left right other) (isGood : good other)
    : Erased good (rbtreeRemove fuel m tree a) (.node a d left right) a := by
  have atRoot : Represents 0 m tree (plug [] (.node a d left right)) := rep
  obtain ⟨_, _, _, _, _, ofLeft, ofRight⟩ := rep.holds
  have distinct := (nodup_cons.mp rep.distinct).2
  obtain ⟨below, otherDistinct⟩ : Holds 0 m a other ∧ other.addrs.Nodup := by
    rcases single with ⟨rfl, rfl⟩ | ⟨rfl, rfl⟩
    · exact ⟨ofRight, distinct⟩
    · rw [addrs, append_nil] at distinct
      exact ⟨ofLeft, distinct⟩
  refine ⟨left.inorder val, right.inorder val, d.val, by simp [inorder], _, _, other, ?_,
    represents_hang_root below otherDistinct, isGood, ?_⟩
  · rw [rbtreeRemove_single atRoot single, relink, ← hang]
    exact if_pos rep.root.symm
  · rcases single with ⟨rfl, rfl⟩ | ⟨rfl, rfl⟩
    · rfl
    · exact (append_nil _).symm

/-- The subtree of the removed node takes its place. -/
theorem represents_replace (rep : Represents 0 m tree (plug (frame :: rest) (.node a d left right)))
    (single : OnlyChild left right other)
    : Represents 0
        (Mem.setChild (hang m (other.addr 0) frame.addr) frame.addr frame.dir (other.addr 0))
        tree (plug (frame :: rest) other) := by
  obtain ⟨above, below, distinct⟩ := rep.atPosition
  obtain ⟨_, _, _, _, _, ofLeft, ofRight⟩ := below
  have inner := (nodup_cons.mp distinct).2
  rcases single with ⟨rfl, rfl⟩ | ⟨rfl, rfl⟩
  · exact represents_hang above rep.root ofRight inner
  · rw [addrs, append_nil] at inner
    exact represents_hang above rep.root ofLeft inner

/-- The subtree takes the place of the node in the in-order sequence. -/
theorem inorder_single (single : OnlyChild left right other)
    : ∃ smaller larger,
        (plug context (.node a d left right)).inorder val = smaller ++ [(a, d.val)] ++ larger
          ∧ (plug context other).inorder val = smaller ++ larger := by
  refine ⟨before val context ++ left.inorder val, right.inorder val ++ after val context, ?_, ?_⟩
  · rw [inorder_plug, inorder]
    simp
  · rw [inorder_plug]
    rcases single with ⟨rfl, rfl⟩ | ⟨rfl, rfl⟩ <;> simp [inorder]

/-- A node below the root with at most one child is removed. The balance leaves three cases: a red
leaf, a black node over a red leaf, and a black leaf, which needs a repair.
-/
theorem remove_single_below {good} (isGood : ∀ {position}, RedBlack red position → good position)
    (rep : Represents 0 m tree (plug (frame :: rest) (.node a d left right)))
    (valid : RedBlack red (plug (frame :: rest) (.node a d left right)))
    (single : OnlyChild left right other)
    (repair : other = .nil → d.red = false → ∀ {m' : Mem} {strict},
      Represents 0 m' tree (plug (frame :: rest) .nil)
        → BalancedContext red (frame :: rest) 1 strict →
      Leaves good (removeFixup fuel m' tree frame.addr frame.dir)
        ((plug (frame :: rest) .nil).inorder val))
    : Erased good (rbtreeRemove fuel m tree a) (plug (frame :: rest) (.node a d left right)) a := by
  obtain ⟨n, c, strict, balanced, context, fits⟩ := valid.split
  have fields : FrameFields m frame rest a := frameFields (by simp) rep
  have colour : Mem.red m a = d.red := by
    rw [Mem.red, rep.atPosition.2.1.2.2.1]
  have linked := represents_replace rep single
  obtain ⟨smaller, larger, order, newOrder⟩ := @inorder_single a (frame :: rest) d _ _ _ single
  refine ⟨smaller, larger, _, order, ?_⟩
  rw [← newOrder, rbtreeRemove_single rep single, holeParent,
    relink_below fields (below_ne_root rep), colour]
  have height : ∀ {k leftRed rightRed}, Balanced red left leftRed k
      → Balanced red right rightRed k → k = 0 ∧ ∃ c, Balanced red other c 0 := by
    intro k leftRed rightRed ofLeft ofRight
    rcases single with ⟨rfl, rfl⟩ | ⟨rfl, rfl⟩
    · obtain ⟨_, rfl⟩ := ofLeft.nil_inv
      exact ⟨rfl, _, ofRight⟩
    · obtain ⟨_, rfl⟩ := ofRight.nil_inv
      exact ⟨rfl, _, ofLeft⟩
  cases balanced with
  | red isRed ofLeft ofRight =>
    have both : Balanced red other false n := by
      rcases single with ⟨_, rfl⟩ | ⟨_, rfl⟩
      · exact ofRight
      · exact ofLeft
    obtain ⟨rfl, _⟩ := height ofLeft ofRight
    obtain rfl := both.eq_nil
    refine ⟨_, _, _, ?_, linked, isGood (context.plug .nil (fun _ => rfl)), rfl⟩
    rw [addr, isRed]
    rfl
  | black isBlack ofLeft ofRight =>
    obtain ⟨rfl, otherRed, ofOther⟩ := height ofLeft ofRight
    cases otherRed with
    | true =>
      obtain ⟨x, dx, near, far, rfl, _, ofNear, ofFar⟩ := ofOther.red_shape false
      have real := (holds_join.mp linked.atPosition.2.1).1
      refine ⟨_, _, _, if_pos real, represents_setRed linked false, ?_, ?_⟩
      · exact isGood (context.plug (Balanced.join_black rfl ofNear ofFar) (fun _ => rfl))
      · exact inorder_plug_congr (inorder_join_congr rfl rfl rfl)
    | false =>
      obtain rfl := ofOther.eq_nil
      rw [addr, isBlack]
      exact repair rfl isBlack linked context

-- Nodes with two children

/-- The first node in order is red. -/
def firstRed : Node → Bool
  | .nil => false
  | .node _ d .nil _ => d.red
  | .node _ _ (.node b e left right) _ => firstRed (.node b e left right)

/-- `bstree_min` finds the first node, at a position reached through left children. -/
theorem bstreeMin_first {parent} (holds : Holds 0 m parent position)
    (some : position ≠ .nil) (enough : position.addrs.length < fuel)
    : ∃ context y d tail, bstreeMin m fuel (position.addr 0) = .some y
        ∧ position = plug context (.node y d .nil tail) ∧ firstRed position = d.red
        ∧ ∀ frame ∈ context, frame.dir = false := by
  induction position generalizing fuel parent with
  | nil => exact absurd rfl some
  | node a d left right ih _ =>
    obtain ⟨real, _, _, toLeft, _, holdsLeft, _⟩ := holds
    cases fuel with
    | zero => cases enough
    | succ fuel =>
      simp only [addrs, length_cons, length_append] at enough
      cases left with
      | nil =>
        have noLeft : m.child a false = 0 := toLeft
        refine ⟨[], a, d, right, ?_, rfl, rfl, by simp⟩
        rw [addr, bstreeMin, if_neg (by simp [noLeft])]
      | node b e l r =>
        have less : (node b e l r).addrs.length < fuel := by omega
        obtain ⟨context, y, dy, tail, found, shape, colour, leftmost⟩ :=
          ih holdsLeft (by simp) less
        have onLeft : m.child a false ≠ 0 := by
          rw [toLeft]
          exact holdsLeft.1
        refine ⟨context ++ [⟨a, d, false, right⟩], y, dy, tail, ?_, ?_, colour, ?_⟩
        · rw [addr, bstreeMin, if_pos onLeft, toLeft, found]
        · rw [plug_append, ← shape]
          rfl
        · intro frame mem
          rcases mem_append.mp mem with inner | outer
          · exact leftmost frame inner
          · rw [mem_singleton.mp outer]

/-- The stores that hand the children of the removed node to its successor. -/
def adopt (m : Mem) (y left right : Nat) : Mem :=
  Mem.setParent (Mem.setParent (Mem.setChild (Mem.setChild m y false left) y true right) left y)
    right y

theorem adopt_child (q x z : Nat) (side : Bool)
    : (adopt m y x z).child q side = if q = y then (if side then z else x) else m.child q side := by
  simp only [adopt, Mem.setParent, Mem.setChild]
  by_cases atY : q = y
  · cases side <;> simp
  · simp [atY]

theorem adopt_parent {q x z} (notLeft : q ≠ x) (notRight : q ≠ z)
    : (adopt m y x z).parent q = m.parent q := by
  simp [adopt, Mem.setParent, Mem.setChild, update_of_ne notLeft, update_of_ne notRight]

theorem adopt_parent_child {q x z} (isChild : q = x ∨ q = z)
    : (adopt m y x z).parent q = y := by
  simp only [adopt, Mem.setParent, Mem.setChild, update_apply]
  rcases isChild with rfl | rfl <;> simp

/-- The successor, which is not in the tree any more, holds both subtrees of the node. -/
theorem adopt_holds (rep : Represents 0 m tree (plug context (.node a d left right)))
    (someLeft : left ≠ .nil) (someRight : right ≠ .nil) (real : y ≠ 0)
    (fresh : y ∉ (plug context (.node a d left right)).addrs)
    : Holds 0 (adopt m y (left.addr 0) (right.addr 0)) (m.parent y) (.node y (m.data y) left right)
      ∧ HoldsContext 0 (adopt m y (left.addr 0) (right.addr 0)) context a := by
  obtain ⟨above, below, distinct⟩ := rep.atPosition
  obtain ⟨_, _, _, _, _, ofLeft, ofRight⟩ := below
  rw [(addrs_plug _ _).mem_iff] at fresh
  have explicit : (a :: (left.addrs ++ right.addrs ++ contextAddrs context)).Nodup :=
    distinct
  have freshAt : y ≠ a ∧ y ∉ left.addrs ∧ y ∉ right.addrs ∧ y ∉ contextAddrs context := by
    simpa [addrs] using fresh
  simp only [nodup_cons, nodup_append, mem_append] at explicit
  obtain ⟨_, ⟨leftDistinct, rightDistinct, leftRight⟩, _, apart⟩ := explicit
  obtain ⟨_, notLeft, notRight, notAbove⟩ := freshAt
  have topLeft : left.addr 0 ∈ left.addrs := addr_mem someLeft
  have topRight : right.addr 0 ∈ right.addrs := addr_mem someRight
  have sameChild {q} (other : q ≠ y) (side)
      : (adopt m y (left.addr 0) (right.addr 0)).child q side = m.child q side := by
    rw [adopt_child, if_neg other]
  refine ⟨⟨real, ?_, rfl, ?_, ?_, ?_, ?_⟩, ?_⟩
  · refine adopt_parent ?_ ?_
    · exact fun same => notLeft (same ▸ topLeft)
    · exact fun same => notRight (same ▸ topRight)
  · rw [adopt_child, if_pos rfl]
    rfl
  · rw [adopt_child, if_pos rfl]
    rfl
  · refine ofLeft.hang leftDistinct (fun _ => adopt_parent_child (.inl rfl)) ?_
    intro q mem
    refine ⟨sameChild fun same => notLeft (same ▸ mem), rfl, fun notTop => ?_⟩
    exact adopt_parent notTop (leftRight q mem _ topRight)
  · refine ofRight.hang rightDistinct (fun _ => adopt_parent_child (.inr rfl)) ?_
    intro q mem
    refine ⟨sameChild fun same => notRight (same ▸ mem), rfl, fun notTop => ?_⟩
    exact adopt_parent (leftRight _ topLeft q mem).symm notTop
  · refine above.congr fun q mem => ⟨sameChild fun same => notAbove (same ▸ mem), ?_, rfl⟩
    refine adopt_parent ?_ ?_
    · exact (apart _ (.inl topLeft) q mem).symm
    · exact (apart _ (.inr topRight) q mem).symm

/-- The rest of the removal below the root, once the successor has left its position. -/
theorem relink_adopted (good : Node → Prop)
    (rep : Represents 0 m tree (plug (frame :: rest) (.node a d left right)))
    (someLeft : left ≠ .nil) (someRight : right ≠ .nil) (real : y ≠ 0)
    (fresh : y ∉ (plug (frame :: rest) (.node a d left right)).addrs)
    (isGood : good (plug (frame :: rest) (.node y { m.data y with red := false } left right)))
    : Leaves good (relink fuel (adopt m y (left.addr 0) (right.addr 0)) tree a frame.addr y)
        ((plug (frame :: rest) (.node y (m.data y) left right)).inorder val) := by
  obtain ⟨holds, above⟩ := adopt_holds rep someLeft someRight real fresh
  obtain ⟨_, _, distinct⟩ := rep.atPosition
  have apart := (frameFields (by simp) rep).apart
  have fields : FrameFields (adopt m y (left.addr 0) (right.addr 0)) frame rest a := by
    obtain ⟨frameReal, up, payload, toHole, toSibling, sibling, _⟩ := above
    exact ⟨frameReal, up, payload, toHole, toSibling, sibling, apart⟩
  have newDistinct : ((.node y (m.data y) left right : Node).addrs
      ++ contextAddrs (frame :: rest)).Nodup := by
    rw [(addrs_plug _ _).mem_iff] at fresh
    refine nodup_cons.mpr ⟨?_, (nodup_cons.mp distinct).2⟩
    exact fun mem => fresh (mem_cons_of_mem _ mem)
  have hung : Represents 0 _ tree (plug (frame :: rest) (join false y (m.data y) left right)) :=
    represents_hang above rep.root holds newDistinct
  rw [relink_below fields (below_ne_root rep)]
  exact ⟨_, _, _, if_pos real, represents_setRed hung false, isGood, inorder_plug_congr rfl⟩

/-- The rest of the removal of the root. -/
theorem relink_adopted_root (rep : Represents 0 m tree (.node a d left right))
    (someLeft : left ≠ .nil) (someRight : right ≠ .nil) (real : y ≠ 0)
    (fresh : y ∉ (node a d left right).addrs)
    : Leaves (fun _ => True) (relink fuel (adopt m y (left.addr 0) (right.addr 0)) tree a 0 y)
        ((node y (m.data y) left right).inorder val) := by
  have atRoot : Represents 0 m tree (plug [] (.node a d left right)) := rep
  obtain ⟨holds, _⟩ := adopt_holds atRoot someLeft someRight real fresh
  have distinct : (node y (m.data y) left right).addrs.Nodup := by
    refine nodup_cons.mpr ⟨?_, (nodup_cons.mp rep.distinct).2⟩
    exact fun mem => fresh (mem_cons_of_mem _ mem)
  exact ⟨_, _, _, if_pos rep.root.symm, represents_hang_root holds distinct, trivial, rfl⟩

-- Taking the successor out of its position

/-- The subtree that takes the place of the successor becomes red. -/
def redden : Node → Node
  | .nil => .nil
  | .node a d left right => .node a { d with red := true } left right

theorem redden_inorder (tail : Node) : (redden tail).inorder val = tail.inorder val := by
  cases tail <;> rfl

theorem redden_addrs (tail : Node) : (redden tail).addrs = tail.addrs := by
  cases tail <;> rfl

def unhook (m : Mem) (succp right : Nat) (dir : Bool) : Mem :=
  Mem.setChild (if right ≠ 0 then Mem.setRed (Mem.setParent m right succp) right true else m) succp
    dir right

theorem represents_unhook
    (rep : Represents 0 m tree (plug (frame :: rest) (.node y dy .nil tail)))
    : Represents 0 (unhook m frame.addr (tail.addr 0) frame.dir) tree
      (plug (frame :: rest) (redden tail))
      ∧ (unhook m frame.addr (tail.addr 0) frame.dir).data y = dy := by
  have replaced := represents_replace rep (.inl ⟨rfl, rfl⟩)
  obtain ⟨_, below, distinct⟩ := rep.atPosition
  obtain ⟨_, _, payload, _, _, _, ofTail⟩ := below
  cases tail with
  | nil => exact ⟨replaced, payload⟩
  | node x dx left right =>
    have real := ofTail.1
    have other : y ≠ x := by
      rintro rfl
      exact (nodup_cons.mp distinct).1 (by simp [addrs])
    have focus : Represents 0 (Mem.setChild (hang m x frame.addr) frame.addr frame.dir x) tree
        (plug (frame :: rest) (join false x dx left right)) := replaced
    have isUnhook : unhook m frame.addr x frame.dir
        = Mem.setRed (Mem.setChild (hang m x frame.addr) frame.addr frame.dir x) x true := by
      rw [unhook, hang, if_pos real, if_pos real]
      rfl
    rw [addr, isUnhook]
    refine ⟨represents_setRed focus true, ?_⟩
    rw [← payload]
    refine (update_of_ne other _ _).trans ?_
    rw [Mem.setChild, hang_data]

/-- The stores of `rbtree_remove` before the label `relink`, for a node with two children. -/
theorem rbtreeRemove_inner {sp t x z dir} (notEmpty : tree ≠ 0)
    (real : a ≠ 0) (someLeft : m.child a false ≠ 0) (someRight : m.child a true ≠ 0)
    (found : bstreeMin m fuel (m.child a true) = some y) (other : a ≠ y)
    (toParent : m.parent y = sp) (parentReal : sp ≠ 0) (toTail : m.child y true = t)
    (slot : (!(m.child sp false == y)) = dir)
    (toLeft : (unhook m sp t dir).child a false = x) (xReal : x ≠ 0)
    (toRight : (unhook m sp t dir).child a true = z) (zReal : z ≠ 0)
    : rbtreeRemove fuel m tree a
      = relink fuel (adopt (unhook m sp t dir) y x z) tree a (m.parent a) y := by
  have successor : bstreeSuccessor m fuel a = some y := by
    rw [bstreeSuccessor, if_pos someRight, found]
  have kept (target : Mem) (side value) (at' : Bool)
      : (Mem.setChild target y side value).child a at' = target.child a at' :=
    if_neg (fun both => other both.1)
  have sameChild (target : Mem) (q up) : (Mem.setParent target q up).child = target.child := rfl
  have sameSlot
      : (if t ≠ 0 then Mem.setRed (Mem.setParent m t sp) t true else m).child = m.child := by
    split <;> rfl
  rw [unhook] at toLeft toRight
  rw [rbtreeRemove, if_neg (by simp [notEmpty, real]), if_neg (by simp [someLeft, someRight]),
    successor]
  simp only [bind_eq_bind, bind_some, toTail, toParent, if_neg parentReal, sameSlot, slot, kept,
    sameChild, toLeft, toRight, if_neg xReal, if_neg zReal, adopt, unhook]

/-- The successor of a node with a right child. -/
theorem successor_of
    (rep : Represents 0 m tree (plug context (.node a d left right))) (someRight : right ≠ .nil)
    (enough : (plug context (.node a d left right)).addrs.length < fuel)
    : ∃ inside y dy tail, bstreeMin m fuel (right.addr 0) = .some y
        ∧ right = plug inside (.node y dy .nil tail) ∧ firstRed right = dy.red
        ∧ ∀ frame ∈ inside, frame.dir = false := by
  obtain ⟨_, _, _, _, _, _, ofRight⟩ := rep.atPosition.2.1
  refine bstreeMin_first ofRight someRight ?_
  rw [(addrs_plug _ _).length_eq] at enough
  simp only [addrs, length_append, length_cons] at enough
  omega

/-- Something is left of the right subtree when the successor has gone. -/
theorem remove_inner
    (rep : Represents 0 m tree (plug context (.node a d left (plug inside (.node y dy .nil tail)))))
    (someLeft : left ≠ .nil) (someRest : plug inside (redden tail) ≠ .nil)
    (found : bstreeMin m fuel ((plug inside (.node y dy .nil tail)).addr 0) = some y)
    : ∃ m', Represents 0 m' tree (plug context (.node a d left (plug inside (redden tail)))) ∧ y ≠ 0
        ∧ y ∉ (plug context (.node a d left (plug inside (redden tail)))).addrs ∧ m'.data y = dy
        ∧ rbtreeRemove fuel m tree a
          = relink fuel (adopt m' y (left.addr 0) ((plug inside (redden tail)).addr 0)) tree a
            (holeParent 0 context) y := by
  obtain ⟨aReal, toParent, _, toLeft, toRight, ofLeft, ofRight⟩ := rep.atPosition.2.1
  obtain ⟨sframe, outside, isFrames⟩ : ∃ sframe outside,
      inside ++ ⟨a, d, true, left⟩ :: context = sframe :: outside := by
    cases inside with
    | nil | cons sframe inside => exact ⟨_, _, rfl⟩
  have whole (position : Node)
      : plug context (.node a d left (plug inside position))
        = plug (sframe :: outside) position := by
    rw [← isFrames, plug_append]
    rfl
  rw [whole] at rep
  have fields : FrameFields m sframe outside y := frameFields (by simp) rep
  obtain ⟨_, ⟨yReal, yParent, _, _, yRight, _, _⟩, distinct⟩ := rep.atPosition
  obtain ⟨cut, payload⟩ := represents_unhook rep
  have fresh : y ∉ (plug (sframe :: outside) (redden tail)).addrs := by
    rw [(addrs_plug _ _).mem_iff, redden_addrs]
    exact (nodup_cons.mp distinct).1
  rw [← whole] at cut fresh
  obtain ⟨_, _, _, cutLeft, cutRight, cutOfLeft, cutOfRight⟩ := cut.atPosition.2.1
  have other : a ≠ y := by
    rintro rfl
    rw [(addrs_plug _ _).mem_iff] at fresh
    exact fresh (by simp [addrs])
  refine ⟨_, cut, yReal, fresh, payload, ?_⟩
  rw [← toParent]
  refine rbtreeRemove_inner (root_ne_zero rep) aReal ?_ ?_ ?_ other yParent fields.real yRight ?_
    cutLeft
    (cutOfLeft.addr_ne_null someLeft) cutRight (cutOfRight.addr_ne_null someRest)
  · rw [toLeft]
    exact ofLeft.addr_ne_null someLeft
  · rw [toRight]
    refine ofRight.addr_ne_null ?_
    cases inside with
    | nil => rintro ⟨⟩
    | cons sframe inside => exact plug_cons_ne_nil _ _ _
  · rw [toRight, found]
  · rw [beq_comm, fields.side]

/-- The successor takes the place of the node in the in-order sequence. -/
theorem inorder_inner (leftmost : ∀ frame ∈ inside, frame.dir = false)
    : ∃ smaller larger,
        (plug context (.node a d left (plug inside (.node y dy .nil tail)))).inorder val
            = smaller ++ [(a, d.val)] ++ larger
          ∧ (plug context (.node y dy left (plug inside (redden tail)))).inorder val
            = smaller ++ larger := by
  refine ⟨before val context ++ left.inorder val, (y, dy.val)
    :: (tail.inorder val ++ after val inside ++ after val context), ?_, ?_⟩
  · rw [inorder_plug, inorder, inorder_plug, before_eq_nil leftmost]
    simp [inorder]
  · rw [inorder_plug, inorder, inorder_plug, before_eq_nil leftmost, redden_inorder]
    simp

/-- A black node below the root with two children is removed, where its successor is red and not
its child.
-/
theorem remove_inner_below {b e} {inner outer : Node} (rep : Represents 0 m tree
      (plug (frame :: rest) (.node a d left (.node b e inner outer))))
    (valid : RedBlack red (plug (frame :: rest) (.node a d left (.node b e inner outer))))
    (someLeft : left ≠ .nil) (black : d.red = false) (redSuccessor : firstRed inner = true)
    (enough : (plug (frame :: rest) (.node a d left (.node b e inner outer))).addrs.length < fuel)
    : Erases (rbtreeRemove fuel m tree a)
        (plug (frame :: rest) (.node a d left (.node b e inner outer))) a := by
  obtain ⟨inside, y, dy, tail, found, shape, colour, leftmost⟩ := successor_of rep (by simp) enough
  have someInner : inner ≠ .nil := by
    rintro rfl
    cases redSuccessor
  have successorRed : dy.red = true := by
    rw [← colour, ← redSuccessor]
    cases inner with
    | nil => exact absurd rfl someInner
    | node c f l r => rfl
  obtain ⟨sframe, inside, rfl⟩ : ∃ sframe inside', inside = sframe :: inside' := by
    cases inside with
    | nil =>
      cases shape
      exact absurd rfl someInner
    | cons sframe inside => exact ⟨sframe, inside, rfl⟩
  rw [shape] at rep valid found ⊢
  have whole (position : Node)
      : plug (frame :: rest) (.node a d left (plug (sframe :: inside) position))
        = plug (sframe :: (inside ++ ⟨a, d, true, left⟩ :: frame :: rest)) position :=
    (plug_append (sframe :: inside) (⟨a, d, true, left⟩ :: frame :: rest) position).symm
  obtain ⟨n, c, strict, balanced, context, _⟩ := RedBlack.split (whole _ ▸ valid)
  obtain ⟨rfl, rfl⟩ : tail = .nil ∧ n = 0 := by
    cases balanced with
    | red _ ofNil ofTail =>
      obtain ⟨_, rfl⟩ := ofNil.nil_inv
      exact ⟨ofTail.eq_nil, rfl⟩
    | black isBlack _ _ =>
      rw [successorRed] at isBlack
      cases isBlack
  have cutValid := context.plug Balanced.nil (fun _ => rfl)
  rw [← whole] at cutValid
  have someRest : plug (sframe :: inside) (redden .nil) ≠ .nil := plug_cons_ne_nil _ _ _
  obtain ⟨m', cut, yReal, fresh, payload, run⟩ := remove_inner rep someLeft someRest found
  obtain ⟨smaller, larger, oldOrder, newOrder⟩ :=
    @inorder_inner a y (frame :: rest) (sframe :: inside) d dy left .nil leftmost
  refine ⟨smaller, larger, d.val, oldOrder, ?_⟩
  rw [run, ← newOrder, ← payload]
  refine relink_adopted (RedBlack red) cut someLeft someRest yReal fresh ?_
  obtain ⟨n, c, strict, balanced, context, _⟩ := cutValid.split
  cases balanced with
  | red isRed _ _ =>
    rw [black] at isRed
    cases isRed
  | black _ ofLeft ofRight => exact context.plug (Balanced.black rfl ofLeft ofRight) (by simp)

-- All removals that keep the balance

/-- The removal of the subtree's root keeps the balance: the only node of the tree; below the root
a node with one child, a red leaf, or a black leaf that can be repaired; a black node with two
children whose successor is red and not its child.
-/
def Removable : Context → Node → Bool
  | [], .node _ _ .nil .nil => true
  | [], _ => false
  | _ :: _, .nil => false
  | frame :: rest, .node _ d .nil .nil => d.red || Repairable (frame :: rest)
  | _ :: _, .node _ _ .nil (.node ..) => true
  | _ :: _, .node _ _ (.node ..) .nil => true
  | _ :: _, .node _ d (.node ..) (.node _ _ inner _) => !d.red && firstRed inner

theorem rbtreeRemove_erases (rep : Represents 0 m tree (plug context position))
    (valid : RedBlack red (plug context position))
    (removable : Removable context position = true)
    (enough : (plug context position).addrs.length < fuel)
    : Erases (rbtreeRemove fuel m tree (position.addr 0)) (plug context position)
        (position.addr 0) := by
  have shallow := length_le_addrs_plug context position
  have deeper : context.length < fuel := by omega
  cases context with
  | nil =>
    match position, removable with
    | .node a d .nil .nil, _ => exact remove_root_single rep (.inl ⟨rfl, rfl⟩) ⟨0, .nil⟩
  | cons frame rest =>
    match position, removable with
    | .node a d .nil .nil, removable =>
      refine remove_single_below id rep valid (.inl ⟨rfl, rfl⟩)
        fun _ isBlack _ _ linked higher => ?_
      rw [Removable, isBlack, Bool.false_or] at removable
      exact removeFixup_yields linked .nil higher removable deeper
    | .node a d .nil (.node b e l r), _ =>
      exact remove_single_below id rep valid (.inl ⟨rfl, rfl⟩) nofun
    | .node a d (.node b e l r) .nil, _ =>
      exact remove_single_below id rep valid (.inr ⟨rfl, rfl⟩) nofun
    | .node a d (.node b e l r) (.node c f inner outer), removable =>
      simp only [Removable, and_eq_true, not_eq_true'] at removable
      exact remove_inner_below rep valid (by simp) removable.1 removable.2 enough

-- All removals that keep the order

/-- The node has two children, and its right child has none. -/
def LeafSuccessor (m : Mem) (node : Nat) : Prop :=
  m.child node false ≠ 0 ∧ m.child node true ≠ 0 ∧ m.child (m.child node true) false = 0
    ∧ m.child (m.child node true) true = 0

/-- In this case the code follows the right child that it has just cut off. -/
theorem rbtreeRemove_leafSuccessor {node} (leaf : LeafSuccessor m node)
    (child : m.parent (m.child node true) = node) (apart : m.child node false ≠ m.child node true)
    : rbtreeRemove fuel m tree node = none := by
  obtain ⟨someLeft, someRight, noLeft, noRight⟩ := leaf
  have other : node ≠ m.child node true := by
    intro same
    rw [← same] at noRight
    exact someRight noRight
  have slot : (!(m.child node false == m.child node true)) = true := by simp [apart]
  rw [rbtreeRemove]
  split_ifs with missing single
  · rfl
  · exact absurd single (by simp [someLeft, someRight])
  cases fuel with
  | zero =>
    have successor : bstreeSuccessor m 0 node = none := by
      rw [bstreeSuccessor, if_pos someRight, bstreeMin]
    rw [successor]
    rfl
  | succ fuel =>
    have successor : bstreeSuccessor m (fuel + 1) node = some (m.child node true) := by
      rw [bstreeSuccessor, if_pos someRight, bstreeMin, if_neg (not_not_intro noLeft)]
    rw [successor]
    simp only [bind_eq_bind, bind_some, noRight, child, ne_eq, not_true_eq_false, if_false, slot]
    split_ifs with nowhere noLeft noRight
    · rfl
    · rfl
    · rfl
    · exact absurd (by simp [Mem.setChild, Mem.setParent]) noRight

theorem rbtreeRemove_of_leafSuccessor
    (rep : Represents 0 m tree (plug context (.node a d left right))) (leaf : LeafSuccessor m a)
    : rbtreeRemove fuel m tree a = none := by
  obtain ⟨_, below, distinct⟩ := rep.atPosition
  obtain ⟨_, _, _, toLeft, toRight, ofLeft, ofRight⟩ := below
  have someLeft : left ≠ .nil := fun empty => leaf.1 (toLeft.trans (by rw [empty]; rfl))
  have someRight : right ≠ .nil := fun empty => leaf.2.1 (toRight.trans (by rw [empty]; rfl))
  have child : m.parent (m.child a true) = a := by
    rw [toRight]
    cases right with
    | nil => exact absurd rfl someRight
    | node b e l r => exact ofRight.2.1
  have apart : m.child a false ≠ m.child a true := by
    rw [toLeft, toRight]
    have inner := (nodup_append.mp (nodup_cons.mp distinct).2).1
    exact (nodup_append.mp inner).2.2 _ (addr_mem someLeft) _ (addr_mem someRight)
  exact rbtreeRemove_leafSuccessor leaf child apart

/-- A node with two children is removed, whatever the colours are. -/
theorem remove_inner_erased (rep : Represents 0 m tree (plug context (.node a d left right)))
    (someLeft : left ≠ .nil) (someRight : right ≠ .nil) (notLeaf : ¬ LeafSuccessor m a)
    (enough : (plug context (.node a d left right)).addrs.length < fuel)
    : Erased (fun _ => True) (rbtreeRemove fuel m tree a)
        (plug context (.node a d left right)) a := by
  obtain ⟨_, _, _, toLeft, toRight, ofLeft, ofRight⟩ := rep.atPosition.2.1
  obtain ⟨inside, y, dy, tail, found, rfl, _, leftmost⟩ := successor_of rep someRight enough
  have someRest : plug inside (redden tail) ≠ .nil := by
    cases inside with
    | cons sframe inside => exact plug_cons_ne_nil _ _ _
    | nil =>
      cases tail with
      | node x dx l r => exact nofun
      | nil =>
        obtain ⟨real, _, _, noLeft, noRight, _, _⟩ := ofRight
        have isRight := toRight
        refine absurd ⟨?_, ?_, ?_, ?_⟩ notLeaf
        · exact toLeft ▸ ofLeft.addr_ne_null someLeft
        · exact isRight ▸ real
        · exact isRight ▸ noLeft
        · exact isRight ▸ noRight
  obtain ⟨m', cut, yReal, fresh, payload, run⟩ := remove_inner rep someLeft someRest found
  obtain ⟨smaller, larger, oldOrder, newOrder⟩ :=
    @inorder_inner a y context inside d dy left tail leftmost
  refine ⟨smaller, larger, d.val, oldOrder, ?_⟩
  rw [run, ← newOrder, ← payload]
  cases context with
  | nil => exact relink_adopted_root cut someLeft someRest yReal fresh
  | cons frame rest => exact relink_adopted _ cut someLeft someRest yReal fresh trivial

theorem rbtreeRemove_erased (rep : Represents 0 m tree (plug context (.node a d left right)))
    (valid : RedBlack red (plug context (.node a d left right)))
    (notLeaf : ¬ LeafSuccessor m a)
    (enough : (plug context (.node a d left right)).addrs.length < fuel)
    : Erased (fun _ => True) (rbtreeRemove fuel m tree a)
        (plug context (.node a d left right)) a := by
  have shorter : (contextAddrs context).length < fuel := by
    rw [(addrs_plug _ _).length_eq, length_append] at enough
    omega
  have ofSingle {other} (single : OnlyChild left right other)
      : Erased (fun _ => True) (rbtreeRemove fuel m tree a)
          (plug context (.node a d left right)) a := by
    cases context with
    | nil => exact remove_root_single rep single trivial
    | cons frame rest =>
      refine remove_single_below (fun _ => trivial) rep valid single fun _ _ _ _ linked higher => ?_
      exact removeFixup_keeps linked higher rfl shorter
  by_cases someLeft : left = .nil
  · exact ofSingle (.inl ⟨someLeft, rfl⟩)
  by_cases someRight : right = .nil
  · exact ofSingle (.inr ⟨someRight, rfl⟩)
  exact remove_inner_erased rep someLeft someRight notLeaf enough

/-- What is left of the in-order sequence are the other nodes. -/
theorem filter_erased {entries smaller larger : List (Nat × Nat)} {key}
    (order : entries = smaller ++ [(a, key)] ++ larger) (distinct : (entries.map Prod.fst).Nodup)
    : entries.filter (·.1 ≠ a) = smaller ++ larger := by
  rw [order] at distinct ⊢
  simp only [map_append, map_cons, append_assoc, cons_append, nil_append] at distinct
  obtain ⟨fresh, _⟩ := nodup_cons.mp ((perm_middle).nodup_iff.mp distinct)
  have kept (entries : List (Nat × Nat)) (absent : a ∉ entries.map Prod.fst)
      : entries.filter (·.1 ≠ a) = entries := by
    refine filter_eq_self.mpr fun entry inEntries => decide_eq_true fun same => absent ?_
    exact same ▸ mem_map_of_mem inEntries
  rw [filter_append, filter_append, kept smaller fun inSmaller => fresh (by simp [inSmaller]),
    kept larger fun inLarger => fresh (by simp [inLarger])]
  simp

end UnstableOS.Rbtree
