import UnstableOS.Mm.Kalloc.Nodes

/-! The heap as a whole: a buddy tree, the two bitmaps and the buckets that represent it, and
what each step of `kalloc` and `kfree` does to them.
-/

namespace UnstableOS.Mm.Kalloc

open Lib Lib.BuddyTree Lib.NodeStatus Kernel Function Nat

-- Buckets

/-- The bucket of order `k` leads through `lists k`, and no block is in two buckets. -/
structure Chains (s : State) (lists : Nat → List Nat) : Prop where
  chain : ∀ k ≤ 19, TailList s.links (s.buckets k) (lists k)
  distinct : ∀ k ≤ 19, (lists k).Nodup
  apart : ∀ j ≤ 19, ∀ k ≤ 19, ∀ block ∈ lists j, block ∈ lists k → j = k

namespace Chains

variable {s t : State} {lists : Nat → List Nat} {k block : Nat}

theorem congr (chains : Chains s lists) (same : t.links = s.links ∧ t.buckets = s.buckets)
    : Chains t lists where
  chain j jLe := by
    rw [same.1, same.2]
    exact chains.chain j jLe
  distinct := chains.distinct
  apart := chains.apart

/-- One bucket changes, in links that no other bucket uses. -/
theorem change (chains : Chains s lists) {links head nodes written}
    (chain : TailList links head nodes) (outside : s.links.SameOutside written links)
    (away : ∀ j ≤ 19, j ≠ k → ∀ node ∈ lists j, ¬ written node) (distinct : nodes.Nodup)
    (apart : ∀ node ∈ nodes, ∀ j ≤ 19, node ∈ lists j → j = k)
    : Chains { s with links := links, buckets := update s.buckets k head }
        (update lists k nodes) := by
  constructor
  case chain =>
    intro j jLe
    by_cases same : j = k
    · subst same
      simpa using chain
    · simp only [update_of_ne same]
      exact (chains.chain j jLe).congr outside (away j jLe same)
  case distinct =>
    intro j jLe
    rw [update_apply]
    split_ifs
    exacts [distinct, chains.distinct j jLe]
  case apart =>
    intro i iLe j jLe node inI inJ
    rw [update_apply] at inI inJ
    split_ifs at inI inJ with isI isJ isJ
    · exact isI.trans isJ.symm
    · exact isI.trans (apart node inI j jLe inJ).symm
    · exact (apart node inJ i iLe inI).trans isJ.symm
    · exact chains.apart i iLe j jLe node inI inJ

theorem mem_update_append {j a}
    : a ∈ update lists k (lists k ++ [block]) j ↔ a ∈ lists j ∨ (j = k ∧ a = block) := by
  by_cases same : j = k
  · subst same
    simp
  · rw [update_of_ne same]
    simp [same]

theorem append (chains : Chains s lists) (kLe : k ≤ 19) (real : block ≠ 0)
    (fresh : ∀ j ≤ 19, block ∉ lists j)
    : Chains (appendBlock s block k) (update lists k (lists k ++ [block])) := by
  obtain ⟨appended, outside⟩ :=
    (chains.chain k kLe).append (chains.distinct k kLe) (fresh k kLe) real
  refine chains.change appended outside ?_ ?_ ?_
  · rintro j jLe other node mem (rfl | inK)
    · exact fresh j jLe mem
    · exact other (chains.apart j jLe k kLe node mem inK)
  · rw [← List.concat_eq_append]
    exact (chains.distinct k kLe).concat (fresh k kLe)
  · intro node mem j jLe inJ
    rcases List.mem_append.mp mem with inK | new
    · exact chains.apart j jLe k kLe node inJ inK
    · exact absurd (List.mem_singleton.mp new ▸ inJ) (fresh j jLe)

theorem mem_update_erase (chains : Chains s lists) {j a} (jLe : j ≤ 19)
    : a ∈ update lists k ((lists k).erase block) j
      ↔ a ∈ lists j ∧ ¬ (j = k ∧ a = block) := by
  by_cases same : j = k
  · subst same
    rw [update_self, (chains.distinct j jLe).mem_erase_iff]
    tauto
  · rw [update_of_ne same]
    tauto

theorem unlink (chains : Chains s lists) (kLe : k ≤ 19) (mem : block ∈ lists k)
    : Chains (unlinkBlock s block k) (update lists k ((lists k).erase block)) := by
  obtain ⟨unlinked, outside⟩ := (chains.chain k kLe).unlink (chains.distinct k kLe) mem
  refine chains.change unlinked outside ?_ ((chains.distinct k kLe).erase block) ?_
  · exact fun j jLe other node inJ inK => other (chains.apart j jLe k kLe node inJ inK)
  · intro node mem j jLe inJ
    exact chains.apart j jLe k kLe node inJ (List.mem_of_mem_erase mem)

theorem popBlock_eq (s : State) (k : Nat) : popBlock s k = unlinkBlock s (s.buckets k) k := by
  simp only [popBlock, unlinkBlock, unlinkDoubleLinkedList]
  split <;> simp

end Chains

-- The tree and its representation

/-- Both bitmaps describe the tree. -/
structure Bits (s : State) (tree : Nat → Nat → NodeStatus) : Prop where
  split
    : ∀ k i, 0 < k → k ≤ 19 → i < 2 ^ (19 - k)
        → (bmGet s.splitBitmap (nodeIdx k i) = true ↔ tree k i = NodeStatus.split)
  used
    : ∀ k i, k < 19 → i < 2 ^ (19 - (k + 1))
        → bmGet s.usedBitmap (nodeIdx (k + 1) i) = (busy tree k (2 * i) ^^ busy tree k (2 * i + 1))

namespace Bits

variable {s t : State} {tree tree' : Nat → Nat → NodeStatus} {k i : Nat}

theorem parent_inside (kLt : k < 19) (inside : i < 2 ^ (19 - k))
    : i / 2 < 2 ^ (19 - (k + 1)) := by
  have : 2 ^ (19 - k) = 2 ^ (19 - (k + 1)) * 2 := by
    rw [← pow_succ]
    congr 1
    omega
  omega

/-- When one node changes between busy and not, the bit of its parent is toggled; the whole heap
has no parent.
-/
theorem used_flip (bits : Bits s tree) (kLe : k ≤ 19) (inside : i < 2 ^ (19 - k))
    (flipped : busy tree' k i = !busy tree k i)
    (others : ∀ k' i', ¬ (k' = k ∧ i' = i) → busy tree' k' i' = busy tree k' i')
    (toggled : t.usedBitmap
      = if k < 19 then (bmToggle s.usedBitmap (nodeIdx (k + 1) (i / 2))).1 else s.usedBitmap)
    (k' i' : Nat) (kLt' : k' < 19) (inside' : i' < 2 ^ (19 - (k' + 1)))
    : bmGet t.usedBitmap (nodeIdx (k' + 1) i')
      = (busy tree' k' (2 * i') ^^ busy tree' k' (2 * i' + 1)) := by
  by_cases kLt : k < 19
  · have parentInside := parent_inside kLt inside
    rw [toggled, if_pos kLt, bmGet_toggle]
    by_cases same : k' = k ∧ i' = i / 2
    · obtain ⟨rfl, rfl⟩ := same
      rw [if_pos rfl, bits.used _ _ kLt' inside']
      rcases mod_two_eq_zero_or_one i with even | odd
      · have left : 2 * (i / 2) = i := by omega
        rw [left, flipped, others _ _ (by omega)]
        cases busy tree k' i <;> cases busy tree k' (i + 1) <;> rfl
      · have right : 2 * (i / 2) + 1 = i := by omega
        rw [right, flipped, others _ (2 * (i / 2)) (by omega)]
        cases busy tree k' i <;> cases busy tree k' (2 * (i / 2)) <;> rfl
    · have elsewhere : nodeIdx (k' + 1) i' ≠ nodeIdx (k + 1) (i / 2) := by
        intro eq
        obtain ⟨orders, indices⟩ := nodeIdx_inj kLt' kLt inside' parentInside eq
        exact same ⟨by omega, indices⟩
      rw [if_neg elsewhere, bits.used _ _ kLt' inside', others _ _ (by omega),
        others _ _ (by omega)]
  · rw [toggled, if_neg kLt, bits.used _ _ kLt' inside', others _ _ (by omega),
      others _ _ (by omega)]

/-- When one node becomes split or stops being split, its own bit is set accordingly. -/
theorem split_set (bits : Bits s tree) (kPos : 0 < k) (kLe : k ≤ 19) (inside : i < 2 ^ (19 - k))
    {value} (changed : value = true ↔ tree' k i = NodeStatus.split)
    (others : ∀ k' i', ¬ (k' = k ∧ i' = i)
      → (tree' k' i' = NodeStatus.split ↔ tree k' i' = NodeStatus.split))
    (stored : t.splitBitmap = bmSet s.splitBitmap (nodeIdx k i) value)
    (k' i' : Nat) (kPos' : 0 < k') (kLe' : k' ≤ 19) (inside' : i' < 2 ^ (19 - k'))
    : bmGet t.splitBitmap (nodeIdx k' i') = true ↔ tree' k' i' = NodeStatus.split := by
  rw [stored, bmGet_set]
  by_cases same : k' = k ∧ i' = i
  · obtain ⟨rfl, rfl⟩ := same
    rw [if_pos rfl]
    exact changed
  · have elsewhere : nodeIdx k' i' ≠ nodeIdx k i := fun eq =>
      same (nodeIdx_inj kLe' kLe inside' inside eq)
    rw [if_neg elsewhere, others _ _ same]
    exact bits.split _ _ kPos' kLe' inside'

end Bits

theorem norder_sub_one : norder - 1 = 19 := rfl

theorem toggleParent_usedBitmap (s : State) (k i : Nat)
    : (if k < 19 then toggleUsed s (getIdx (nodeAddr k i) (k + 1)) else s).usedBitmap
      = if k < 19 then (bmToggle s.usedBitmap (nodeIdx (k + 1) (i / 2))).1 else s.usedBitmap := by
  by_cases kLt : k < 19
  · rw [if_pos kLt, if_pos kLt, toggleUsed, getIdx_parent kLt]
  · rw [if_neg kLt, if_neg kLt]

theorem splitBlock_splitBitmap (s : State) {k i} (kLe : k ≤ 19)
    : (splitBlock s (nodeAddr k i) k).splitBitmap = bmSet s.splitBitmap (nodeIdx k i) true := by
  simp only [splitBlock, getIdx_self kLe]
  split <;> rfl

section
variable (s : State) (block k : Nat)
include s block k

theorem splitBlock_chains
    : (splitBlock s block k).links = s.links ∧ (splitBlock s block k).buckets = s.buckets := by
  simp only [splitBlock]
  split <;> exact ⟨rfl, rfl⟩

theorem finishAlloc_splitBitmap : (finishAlloc s block k).splitBitmap = s.splitBitmap := by
  simp only [finishAlloc, subFreeMem]
  split <;> rfl

theorem finishAlloc_chains
    : (finishAlloc s block k).links = s.links ∧ (finishAlloc s block k).buckets = s.buckets := by
  simp only [finishAlloc, subFreeMem]
  split <;> exact ⟨rfl, rfl⟩

end

/-- The state represents the tree. The `held` nodes are free but on no bucket: an operation has
them in its hands.
-/
structure Heap (s : State) (tree : Nat → Nat → NodeStatus) (lists : Nat → List Nat)
    (held : Nat → Nat → Prop)
    : Prop where
  shape : Shape height tree
  bits : Bits s tree
  chains : Chains s lists
  entries
    : ∀ k ≤ 19, ∀ block, block ∈ lists k ↔ ∃ i, block = nodeAddr k i ∧ tree k i = free ∧ ¬ held k i
  merged
    : ∀ k < 19, ∀ i, tree (k + 1) i = NodeStatus.split
        → tree k (2 * i) = free → tree k (2 * i + 1) = free → held k (2 * i) ∨ held k (2 * i + 1)

/-- Exactly one node is held. -/
def only (k i : Nat) : Nat → Nat → Prop := fun k' i' => k' = k ∧ i' = i

def nothing : Nat → Nat → Prop := fun _ _ => False

namespace Heap

variable {s : State} {tree : Nat → Nat → NodeStatus} {lists : Nat → List Nat} {k i : Nat}

theorem pop (heap : Heap s tree lists nothing) (kLe : k ≤ 19) (nonempty : s.buckets k ≠ 0)
    : ∃ i, s.buckets k = nodeAddr k i ∧ tree k i = free
        ∧ Heap (popBlock s k) tree (update lists k ((lists k).erase (s.buckets k)))
          (only k i) := by
  have mem := (heap.chains.chain k kLe).head_mem nonempty
  obtain ⟨i, addr, isFree, _⟩ := (heap.entries k kLe _).mp mem
  refine ⟨i, addr, isFree, heap.shape, ?_, ?_, ?_, ?_⟩
  · rw [Chains.popBlock_eq]
    exact ⟨heap.bits.split, heap.bits.used⟩
  · rw [Chains.popBlock_eq]
    exact heap.chains.unlink kLe mem
  · intro j jLe block
    rw [heap.chains.mem_update_erase jLe, heap.entries j jLe]
    constructor
    · rintro ⟨⟨c, rfl, free, _⟩, notThis⟩
      refine ⟨c, rfl, free, ?_⟩
      rintro ⟨rfl, rfl⟩
      exact notThis ⟨rfl, addr.symm⟩
    · rintro ⟨c, rfl, free, notThis⟩
      refine ⟨⟨c, rfl, free, id⟩, ?_⟩
      rintro ⟨rfl, same⟩
      rw [addr] at same
      exact notThis (leaf_eq_of_addr heap.shape jLe kLe (.inl free) (.inl isFree) same)
  · intro j jLt c divided left right
    exact ((heap.merged j jLt c divided left right).elim id id).elim

section
variable (heap : Heap s tree lists (only (k + 1) i)) (kLt : k < 19)
    (isFree : tree (k + 1) i = free)
include heap kLt isFree

/-- The second half of a held block has an address that no bucket holds. -/
theorem right_fresh (j : Nat) (jLe : j ≤ 19) : nodeAddr k (2 * i + 1) ∉ lists j := by
  intro mem
  obtain ⟨c, addr, leaf, notHeld⟩ := (heap.entries j jLe _).mp mem
  have units : (2 * i + 1) * 2 ^ k = c * 2 ^ j := by rw [nodeAddr_unit, nodeAddr_unit, addr]
  have quotient : c * 2 ^ j / 2 ^ (k + 1) = i := by
    rw [← units, div_pow_succ, Nat.mul_div_cancel _ (Nat.two_pow_pos k)]
    omega
  have own := Nat.mul_div_cancel c (Nat.two_pow_pos j)
  have leafJ : IsLeaf (tree j (c * 2 ^ j / 2 ^ j)) := own.symm ▸ .inl leaf
  have leafK : IsLeaf (tree (k + 1) (c * 2 ^ j / 2 ^ (k + 1))) := quotient.symm ▸ .inl isFree
  have orders := heap.shape.leaf_unique jLe kLt leafJ leafK
  subst orders
  exact notHeld ⟨rfl, own.symm.trans quotient⟩

/-- One round of splitting: the held block is cut in two, the second half goes on its bucket and
the first half is held.
-/
theorem splitStep
    : Heap (appendBlock (splitBlock s (nodeAddr (k + 1) i) (k + 1)) (nodeAddr k (2 * i + 1)) k)
        (divide tree k i free free)
        (update lists k (lists k ++ [nodeAddr k (2 * i + 1)])) (only k (2 * i)) := by
  have leaf : IsLeaf (tree (k + 1) i) := .inl isFree
  have inside := heap.shape.index_lt kLt leaf.ne_absent
  have gone (c) (ofNode : c / 2 = i) : tree k c = absent :=
    heap.shape.child_absent kLt (by rw [ofNode]; exact leaf.ne_split)
  constructor
  case shape => exact heap.shape.divide kLt leaf (.inl rfl) (.inl rfl)
  case bits =>
    refine ⟨?_, ?_⟩
    · refine heap.bits.split_set (succ_pos k) kLt inside (by simp [divide_apply]) ?_
        (splitBlock_splitBitmap s kLt)
      intro k' i' elsewhere
      rw [divide_apply]
      grind
    · refine heap.bits.used_flip kLt inside (by simp [busy, divide_apply, isFree]) ?_
        (toggleParent_usedBitmap s _ _)
      intro k' i' elsewhere
      rw [busy, busy, divide_apply]
      grind
  case chains =>
    exact (heap.chains.congr (splitBlock_chains _ _ _)).append kLt.le (nodeAddr_ne_zero _ _)
      (heap.right_fresh kLt isFree)
  case entries =>
    intro j jLe block
    rw [Chains.mem_update_append, heap.entries j jLe]
    simp only [divide_apply, only]
    grind
  case merged =>
    intro j jLt c divided left right
    have old := heap.merged j jLt c
    simp only [divide_apply, only] at divided left right old ⊢
    grind

end

/-- The held block is handed out. -/
theorem handOut (heap : Heap s tree lists (only k i)) (kLe : k ≤ 19) (isFree : tree k i = free)
    : Heap (finishAlloc s (nodeAddr k i) k) (setNode tree k i live) lists nothing := by
  have leaf : IsLeaf (tree k i) := .inl isFree
  have inside := heap.shape.index_lt kLe leaf.ne_absent
  constructor
  case shape => exact heap.shape.setLeaf leaf (.inr rfl)
  case bits =>
    refine ⟨?_, ?_⟩
    · intro k' i' kPos' kLe' inside'
      have old := heap.bits.split k' i' kPos' kLe' inside'
      rw [finishAlloc_splitBitmap, old, setNode]
      grind
    · refine heap.bits.used_flip kLe inside (by simp [busy, isFree]) ?_
        (toggleParent_usedBitmap s _ _)
      intro k' i' elsewhere
      rw [busy, busy, setNode_of_ne elsewhere]
  case chains => exact heap.chains.congr (finishAlloc_chains _ _ _)
  case entries =>
    intro j jLe block
    rw [heap.entries j jLe]
    simp only [setNode, only, nothing]
    grind
  case merged =>
    intro j jLt c divided left right
    have old := heap.merged j jLt c
    simp only [setNode, only, nothing] at divided left right old ⊢
    grind

/-- The other child of the same parent. -/
def sibling (i : Nat) : Nat := if i % 2 = 1 then i - 1 else i + 1

theorem sibling_div (i : Nat) : sibling i / 2 = i / 2 := by
  simp only [sibling]
  split <;> omega

section
variable (heap : Heap s tree lists nothing)
include heap

/-- The used bit of the parent of a live block tells whether its sibling is busy. -/
theorem used_parent (kLt : k < 19) (isLive : tree k i = live)
    : bmGet s.usedBitmap (nodeIdx (k + 1) (i / 2)) = !busy tree k (sibling i) := by
  have inside := heap.shape.index_lt kLt.le (i := i) (by rw [isLive]; decide)
  have parentInside := Bits.parent_inside kLt inside
  have own : busy tree k i = true := by simp [busy, isLive]
  rw [heap.bits.used k (i / 2) kLt parentInside, sibling]
  rcases mod_two_eq_zero_or_one i with even | odd
  · rw [show 2 * (i / 2) = i by omega, own, if_neg (by omega), Bool.true_xor]
  · rw [show 2 * (i / 2) + 1 = i by omega, show 2 * (i / 2) = i - 1 by omega, own, if_pos odd,
      Bool.xor_true]

/-- A live block without a free sibling goes on its bucket. -/
theorem release (kLe : k ≤ 19) (isLive : tree k i = live)
    (notFree : k < 19 → tree k (sibling i) ≠ free) {t} (toggled : t.usedBitmap
      = if k < 19 then (bmToggle s.usedBitmap (nodeIdx (k + 1) (i / 2))).1 else s.usedBitmap)
    (sameSplit : t.splitBitmap = s.splitBitmap)
    (same : t.links = s.links ∧ t.buckets = s.buckets)
    : Heap (finishFree t (nodeAddr k i) k) (setNode tree k i free)
        (update lists k (lists k ++ [nodeAddr k i])) nothing := by
  have leaf : IsLeaf (tree k i) := .inr isLive
  have inside := heap.shape.index_lt kLe leaf.ne_absent
  have fresh (j) (jLe : j ≤ 19) : nodeAddr k i ∉ lists j := by
    intro mem
    obtain ⟨c, addr, isFree, _⟩ := (heap.entries j jLe _).mp mem
    obtain ⟨rfl, rfl⟩ := leaf_eq_of_addr heap.shape kLe jLe leaf (.inl isFree) addr
    rw [isFree] at isLive
    cases isLive
  constructor
  case shape => exact heap.shape.setLeaf leaf (.inl rfl)
  case bits =>
    refine ⟨?_, ?_⟩
    · intro k' i' kPos' kLe' inside'
      have old := heap.bits.split k' i' kPos' kLe' inside'
      have same : (finishFree t (nodeAddr k i) k).splitBitmap = s.splitBitmap := sameSplit
      rw [same, old, setNode]
      grind
    · refine heap.bits.used_flip kLe inside (by simp [busy, isLive]) ?_ toggled
      intro k' i' elsewhere
      rw [busy, busy, setNode_of_ne elsewhere]
  case chains =>
    exact ((heap.chains.congr same).append kLe (nodeAddr_ne_zero _ _) fresh).congr ⟨rfl, rfl⟩
  case entries =>
    intro j jLe block
    rw [Chains.mem_update_append, heap.entries j jLe]
    simp only [setNode, nothing]
    grind
  case merged =>
    intro j jLt c divided left right
    have old := heap.merged j jLt c
    simp only [setNode, nothing, sibling] at divided left right old notFree ⊢
    grind

/-- A live block and its free sibling become one live block. -/
theorem mergeStep (kLt : k < 19) (isLive : tree k i = live)
    (isFree : tree k (sibling i) = free) {t}
    (toggled : t.usedBitmap = (bmToggle s.usedBitmap (nodeIdx (k + 1) (i / 2))).1)
    (cleared : t.splitBitmap = bmSet s.splitBitmap (nodeIdx (k + 1) (i / 2)) false)
    (same : t.links = s.links ∧ t.buckets = s.buckets)
    : Heap (unlinkBlock t (nodeAddr k (sibling i)) k) (join tree k (i / 2) live)
        (update lists k ((lists k).erase (nodeAddr k (sibling i)))) nothing := by
  have leaf : IsLeaf (tree k i) := .inr isLive
  have siblingLeaf : IsLeaf (tree k (sibling i)) := .inl isFree
  have inside := heap.shape.index_lt kLt.le leaf.ne_absent
  have divided := (heap.shape.present k kLt i).mp leaf.ne_absent
  have parentInside := heap.shape.index_lt kLt (by rw [divided]; decide)
  have mem := (heap.entries k kLt.le _).mpr ⟨_, rfl, isFree, id⟩
  have children (c) (ofParent : c / 2 = i / 2) : c = i ∨ c = sibling i := by
    simp only [sibling]
    split <;> omega
  have childLeaf (c) (ofParent : c / 2 = i / 2) : IsLeaf (tree k c) := by
    rcases children c ofParent with rfl | rfl
    · exact leaf
    · exact siblingLeaf
  have siblingParent := sibling_div i
  constructor
  case shape =>
    exact heap.shape.join kLt divided (childLeaf _ (by omega)) (childLeaf _ (by omega)) (.inr rfl)
  case bits =>
    refine ⟨?_, ?_⟩
    · refine heap.bits.split_set (succ_pos k) kLt parentInside (by simp [join_apply]) ?_ cleared
      intro k' i' elsewhere
      rw [join_apply, if_neg elsewhere]
      split
      next below =>
        grind
      next => exact Iff.rfl
    · refine heap.bits.used_flip kLt.le inside ?_ ?_ (toggled.trans (if_pos kLt).symm)
      · simp [busy, isLive, join_apply]
      · intro k' i' elsewhere
        rw [busy, busy, join_apply]
        split
        next atParent => simp [atParent.1, atParent.2, divided]
        next =>
        split
        next below =>
          have other := (children i' below.2).resolve_left fun same => elsewhere ⟨below.1, same⟩
          simp [below.1, other, isFree]
        next => rfl
  case chains => exact (heap.chains.congr same).unlink kLt.le mem
  case entries =>
    intro j jLe block
    rw [heap.chains.mem_update_erase jLe, heap.entries j jLe]
    simp only [nothing, not_false_eq_true, and_true]
    constructor
    · rintro ⟨⟨c, rfl, free⟩, notThis⟩
      refine ⟨c, rfl, ?_⟩
      rw [join_apply]
      grind
    · rintro ⟨c, rfl, free⟩
      rw [join_apply] at free
      have keptFree : tree j c = NodeStatus.free ∧ ¬ (j = k ∧ c / 2 = i / 2) := by grind
      refine ⟨⟨c, rfl, keptFree.1⟩, ?_⟩
      rintro ⟨rfl, same⟩
      have eq := (leaf_eq_of_addr heap.shape jLe jLe (.inl keptFree.1) siblingLeaf same).2
      exact keptFree.2 ⟨rfl, by rw [eq, siblingParent]⟩
  case merged =>
    intro j jLt c divided' left right
    have old := heap.merged j jLt c
    simp only [join_apply, nothing] at divided' left right old ⊢
    grind

end

end Heap

end UnstableOS.Mm.Kalloc
