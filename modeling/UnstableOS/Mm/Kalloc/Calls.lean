import UnstableOS.Mm.Kalloc.Heap
import Mathlib.Data.Nat.Log

/-! What `get_order`, `kalloc` and `kfree` do to the buddy tree. -/

namespace UnstableOS.Mm.Kalloc

open Lib Lib.BuddyTree Lib.NodeStatus Nat Heap

-- Orders

section Orders
variable {s : State} {tree : Nat → Nat → NodeStatus} {lists : Nat → List Nat} {k i : Nat}

theorem findSplit_eq {left j} (jLe : j ≤ k) (reach : k < j + left) (before : ∀ c, j ≤ c → c < k
      → bmGet s.splitBitmap (getIdx (nodeAddr k i) (c + 1)) = false)
    (found : bmGet s.splitBitmap (getIdx (nodeAddr k i) (k + 1)) = true)
    : findSplit s (nodeAddr k i) left j = k := by
  induction left generalizing j with
  | zero => omega
  | succ left ih =>
    simp only [findSplit]
    by_cases same : j = k
    · subst same
      rw [if_pos found]
    · rw [before j le_rfl (by omega), if_neg (by decide)]
      exact ih (by omega) (by omega) fun c low high => before c (by omega) high

theorem findSplit_none {left j} (before : ∀ c, j ≤ c → c < j + left
      → bmGet s.splitBitmap (getIdx (nodeAddr k i) (c + 1)) = false)
    : findSplit s (nodeAddr k i) left j = 19 := by
  induction left generalizing j with
  | zero => rfl
  | succ left ih =>
    simp only [findSplit]
    rw [before j le_rfl (by omega), if_neg (by decide)]
    exact ih fun c low high => before c (by omega) (by omega)

/-- `get_order` recovers the order of every block that is handed out.
Witness: no ancestor bit below the block's parent is set, because nothing below a leaf exists,
and the parent is split, because the block exists.
-/
theorem Heap.getOrder_eq (heap : Heap s tree lists nothing) (kLe : k ≤ 19)
    (isLive : tree k i = live)
    : getOrder s (nodeAddr k i) = k := by
  have leaf : IsLeaf (tree k i) := .inr isLive
  have inside := heap.shape.index_lt kLe leaf.ne_absent
  have quotient := Nat.mul_div_cancel i (Nat.two_pow_pos k)
  have unitInside : i * 2 ^ k < 2 ^ 19 := by
    have := mul_lt_mul_of_pos_right inside (Nat.two_pow_pos k)
    rwa [← pow_add, Nat.sub_add_cancel kLe] at this
  have bitIff (c) (cPos : 0 < c) (cLe : c ≤ 19)
      : bmGet s.splitBitmap (getIdx (nodeAddr k i) c) = true
        ↔ tree c (i * 2 ^ k / 2 ^ c) = NodeStatus.split := by
    rw [getIdx_nodeAddr cLe]
    refine heap.bits.split _ _ cPos cLe ?_
    rw [div_lt_iff_lt_mul (Nat.two_pow_pos c), ← pow_add, Nat.sub_add_cancel cLe]
    exact unitInside
  have below (c) (cLt : c < k) : bmGet s.splitBitmap (getIdx (nodeAddr k i) (c + 1)) = false := by
    rw [← Bool.not_eq_true, bitIff (c + 1) (by omega) (by omega)]
    by_cases same : c + 1 = k
    · rw [same, quotient]
      exact leaf.ne_split
    have whole : tree k (i * 2 ^ k / 2 ^ k) ≠ NodeStatus.split := by
      rw [quotient]
      exact leaf.ne_split
    rw [heap.shape.below kLe (by omega : c + 1 < k) whole]
    decide
  by_cases top : k = 19
  · subst top
    exact findSplit_none fun c _ high => below c (by simpa [norder_sub_one] using high)
  refine findSplit_eq (zero_le k) (by rw [norder_sub_one]; omega)
    (fun c _ high => below c high) ?_
  rw [bitIff (k + 1) (by omega) (by omega), div_pow_succ, quotient]
  exact (heap.shape.present k (by simp only [height]; omega) i).mp leaf.ne_absent

/-- The order computed from a size is the least that is large enough, and fits the heap. -/
theorem sizeOrder_spec {size} (positive : size ≠ 0) (le : size ≤ maxAlloc)
    : 6 ≤ sizeOrder size ∧ sizeOrder size ≤ 25 ∧ size ≤ 2 ^ sizeOrder size
      ∧ ∀ m, 6 ≤ m → size ≤ 2 ^ m → sizeOrder size ≤ m := by
  have low := log2_self_le positive
  have high : size < 2 ^ (log2 size + 1) := lt_log2_self
  have maxEq : maxAlloc = 2 ^ 25 := rfl
  have logLe : log2 size ≤ 25 := by
    by_contra more
    have : 2 ^ 26 ≤ 2 ^ log2 size := Nat.pow_le_pow_right (by decide) (by omega)
    omega
  have remainder : size &&& (1 <<< log2 size - 1) = size % 2 ^ log2 size := by
    rw [shiftLeft_eq, one_mul, and_two_pow_sub_one_eq_mod]
  simp only [sizeOrder, minOrder, remainder]
  by_cases power : size % 2 ^ log2 size = 0
  · have eq : size = 2 ^ log2 size := by
      obtain ⟨factor, product⟩ := dvd_of_mod_eq_zero power
      have factorLt : factor < 2 := by
        by_contra two
        have := mul_le_mul_left (2 ^ log2 size) (not_lt.mp two)
        omega
      have factorOne : factor = 1 := by
        rcases lt_or_ge factor 1 with zero | one
        · rw [lt_one_iff.mp zero, mul_zero] at product
          exact absurd product positive
        · omega
      rw [factorOne, mul_one] at product
      exact product
    rw [if_neg (by simp [power])]
    refine ⟨le_max_right _ _, by omega, ?_, ?_⟩
    · calc size = 2 ^ log2 size := eq
        _ ≤ 2 ^ max (log2 size) 6 := Nat.pow_le_pow_right (by decide) (le_max_left _ _)
    · intro m atLeast enough
      rw [eq] at enough
      exact max_le ((Nat.pow_le_pow_iff_right (by decide)).mp enough) atLeast
  · have logLt : log2 size ≠ 25 := by
      intro top
      rw [top] at low power
      have : size = 2 ^ 25 := by omega
      rw [this] at power
      exact power (by decide)
    rw [if_pos power]
    refine ⟨le_max_right _ _, by omega, ?_, ?_⟩
    · calc size ≤ 2 ^ (log2 size + 1) := high.le
        _ ≤ 2 ^ max (log2 size + 1) 6 := Nat.pow_le_pow_right (by decide) (le_max_left _ _)
    · intro m atLeast enough
      have notPower : size ≠ 2 ^ log2 size := fun eq => power (by rw [← eq, mod_self])
      have less : 2 ^ log2 size < 2 ^ m := by omega
      exact max_le ((Nat.pow_lt_pow_iff_right (by decide)).mp less) atLeast

end Orders

-- Allocation

/-- The trees have the same live nodes. -/
def SameLive (tree tree' : Nat → Nat → NodeStatus) : Prop :=
  ∀ k i, tree' k i = live ↔ tree k i = live

section Allocation
variable (mapPage : Nat → Bool) {s : State} {tree : Nat → Nat → NodeStatus}
  {lists : Nat → List Nat} {order i : Nat}

/-- The split loop ends with the block of the wanted order in hand, at the same address.
Witness: induction on the excess order, one split for each.
-/
theorem splitDown_spec {excess} (le : order + excess ≤ 19)
    (heap : Heap s tree lists (only (order + excess) i)) (isFree : tree (order + excess) i = free)
    : (∀ t, splitDown mapPage (nodeAddr (order + excess) i) order excess s = some t
        → ∃ c tree' lists', nodeAddr order c = nodeAddr (order + excess) i
          ∧ Heap t tree' lists' (only order c) ∧ tree' order c = free ∧ SameLive tree tree')
      ∧ ((∀ page, mapPage page = true)
        → ∃ t, splitDown mapPage (nodeAddr (order + excess) i) order excess s = some t) := by
  induction excess generalizing s tree lists i with
  | zero =>
    refine ⟨?_, fun _ => ⟨s, rfl⟩⟩
    rintro t ⟨⟩
    exact ⟨i, tree, lists, rfl, heap, isFree, fun _ _ => Iff.rfl⟩
  | succ excess ih =>
    have step := heap.splitStep (k := order + excess) (by omega) isFree
    have halfFree : divide tree (order + excess) i free free (order + excess) (2 * i) = free := by
      rw [divide_apply, if_neg (by omega), if_pos ⟨rfl, rfl⟩]
    have sameLive : SameLive tree (divide tree (order + excess) i free free) := by
      intro k' c
      have children (c') (ofNode : c' / 2 = i) : tree (order + excess) c' = absent :=
        heap.shape.child_absent (by simp only [height]; omega)
          (by rw [ofNode, add_assoc, isFree]; decide)
      rw [divide_apply]
      grind
    have target : nodeAddr (order + (excess + 1)) i + 1 <<< (minOrder + (order + excess + 1) - 1)
        = nodeAddr (order + excess) (2 * i + 1) := by
      rw [nodeAddr_right, shiftLeft_eq, one_mul, minOrder, ← add_assoc]
      congr 2
      omega
    have same : nodeAddr (order + excess) (2 * i) = nodeAddr (order + (excess + 1)) i :=
      nodeAddr_left _ _
    rw [← nodeAddr_left] at step
    obtain ⟨result, returns⟩ := ih (by omega) step halfFree
    simp only [splitDown, target]
    rw [Nat.add_sub_cancel, ← same]
    refine ⟨?_, ?_⟩
    · intro t run
      split at run
      next =>
        obtain ⟨c, tree', lists', addr, after, stillFree, live⟩ := result t run
        exact ⟨c, tree', lists', addr, after, stillFree, fun k' c' =>
          (live k' c').trans (sameLive k' c')⟩
      next => cases run
    · intro mapped
      rw [if_pos (mapped _)]
      exact returns mapped

/-- What an allocation of the given order leaves: a new live node at the returned address. -/
structure Allocated (tree : Nat → Nat → NodeStatus) (order block : Nat) (t : State) : Prop where
  node
    : ∃ i tree' lists', block = nodeAddr order i ∧ Heap t tree' lists' nothing
        ∧ tree order i ≠ live
        ∧ ∀ k c, tree' k c = live ↔ tree k c = live ∨ (k = order ∧ c = i)

section
variable (heap : Heap s tree lists nothing)
include heap

/-- Taking a block of some order and splitting it down. -/
theorem takeAndSplit {top} (low : order ≤ top)
    (high : top ≤ 19) (nonempty : s.buckets top ≠ 0)
    : (∀ t, splitDown mapPage (s.buckets top) order (top - order) (popBlock s top) = some t
        → Allocated tree order (s.buckets top) (finishAlloc t (s.buckets top) order))
      ∧ ((∀ page, mapPage page = true)
        → ∃ t,
          splitDown mapPage (s.buckets top) order (top - order) (popBlock s top) = some t) := by
  obtain ⟨i, addr, isFree, popped⟩ := heap.pop high nonempty
  obtain ⟨excess, rfl⟩ := Nat.exists_eq_add_of_le low
  obtain ⟨result, returns⟩ := splitDown_spec mapPage high popped isFree
  rw [Nat.add_sub_cancel_left, addr]
  refine ⟨?_, returns⟩
  intro t run
  obtain ⟨c, tree', lists', same, after, stillFree, sameLive⟩ := result t run
  have handed := after.handOut (by omega) stillFree
  rw [← same]
  refine ⟨c, _, _, rfl, handed, ?_, ?_⟩
  · intro wasLive
    rw [← sameLive, stillFree] at wasLive
    cases wasLive
  · intro k' c'
    rw [setNode, ← sameLive]
    grind

theorem allocLarger_spec {left start}
    (low : order ≤ start) (reach : start + left = 20)
    : (∀ block t, allocLarger mapPage order left start s = some (block, t)
        → (block = 0 ∧ t = s ∧ ∀ k, start ≤ k → k ≤ 19 → lists k = [])
          ∨ Allocated tree order block t)
      ∧ ((∀ page, mapPage page = true)
        → ∃ result, allocLarger mapPage order left start s = some result) := by
  induction left generalizing start with
  | zero =>
    refine ⟨?_, fun _ => ⟨_, rfl⟩⟩
    rintro block t ⟨⟩
    exact .inl ⟨rfl, rfl, fun k above below => by omega⟩
  | succ left ih =>
    simp only [allocLarger]
    by_cases empty : s.buckets start = 0
    · rw [if_pos empty]
      obtain ⟨result, returns⟩ := ih (le_succ_of_le low) (by omega)
      refine ⟨?_, returns⟩
      intro block t run
      rcases result block t run with ⟨null, same, exhausted⟩ | allocated
      · refine .inl ⟨null, same, ?_⟩
        intro k above below
        rcases eq_or_lt_of_le above with rfl | more
        · exact (heap.chains.chain start below).eq_zero_iff.mp empty
        · exact exhausted k more below
      · exact .inr allocated
    · rw [if_neg empty]
      obtain ⟨result, returns⟩ := takeAndSplit mapPage heap low (by omega) empty
      refine ⟨?_, ?_⟩
      · intro block t run
        obtain ⟨u, split, eq⟩ := Option.map_eq_some_iff.mp run
        cases eq
        exact .inr (result u split)
      · intro mapped
        obtain ⟨u, split⟩ := returns mapped
        rw [split]
        exact ⟨_, rfl⟩

/-- `kalloc` hands out a block that is large enough, or returns null because the size is zero or
no bucket of a sufficient order has a block. It only stops the kernel when a page cannot be
mapped.
-/
theorem Heap.kalloc (size : Nat)
    : (∀ block t, Kalloc.kalloc mapPage s size = some (block, t)
        → (block = 0 ∧ t = s
            ∧ (size = 0 ∨ ∀ k ≤ 19, size ≤ 2 ^ (k + 6) → lists k = []))
          ∨ (size ≠ 0 ∧ size ≤ maxAlloc ∧ Allocated tree (sizeOrder size - minOrder) block t))
      ∧ ((∀ page, mapPage page = true) → ∃ result, Kalloc.kalloc mapPage s size = some result) := by
  by_cases refused : size = 0 ∨ maxAlloc < size
  · rw [Kalloc.kalloc, if_pos refused]
    refine ⟨?_, fun _ => ⟨_, rfl⟩⟩
    rintro block t ⟨⟩
    refine .inl ⟨rfl, rfl, refused.imp_right fun tooLarge k kLe enough => ?_⟩
    have : 2 ^ (k + 6) ≤ 2 ^ 25 := Nat.pow_le_pow_right (by decide) (by omega)
    have maxEq : maxAlloc = 2 ^ 25 := rfl
    omega
  · rw [Kalloc.kalloc, if_neg refused]
    push Not at refused
    obtain ⟨_, high, _, least⟩ := sizeOrder_spec refused.1 refused.2
    have minEq : minOrder = 6 := rfl
    generalize orderEq : sizeOrder size - minOrder = order
    have orderLe : order ≤ 19 := by omega
    by_cases direct : s.buckets order ≠ 0
    · rw [if_pos direct]
      refine ⟨?_, fun _ => ⟨_, rfl⟩⟩
      rintro block t ⟨⟩
      have allocated := (takeAndSplit mapPage heap le_rfl orderLe direct).1 (popBlock s order)
        (by rw [Nat.sub_self]; rfl)
      exact .inr ⟨refused.1, refused.2, allocated⟩
    rw [if_neg direct]
    have norderEq : norder = 20 := rfl
    have reach : order + (norder - order) = 20 := by omega
    obtain ⟨result, returns⟩ := allocLarger_spec mapPage heap le_rfl reach
    refine ⟨?_, returns⟩
    intro block t run
    rcases result block t run with ⟨null, same, exhausted⟩ | allocated
    · refine .inl ⟨null, same, .inr fun k kLe larger => exhausted k ?_ kLe⟩
      have := least (k + 6) (by omega) larger
      omega
    · exact .inr ⟨refused.1, refused.2, allocated⟩

end

end Allocation

-- Freeing

section Freeing
variable {s : State} {tree : Nat → Nat → NodeStatus} {lists : Nat → List Nat} {k i : Nat}

theorem nodeAddr_sibling (k i : Nat)
    : nodeAddr k (sibling i)
      = if i % 2 = 1 then nodeAddr k i - 2 ^ (k + 6) else nodeAddr k i + 2 ^ (k + 6) := by
  simp only [sibling, nodeAddr]
  split
  next odd =>
    obtain ⟨half, rfl⟩ : ∃ half, i = half + 1 := ⟨i - 1, by omega⟩
    rw [Nat.add_sub_cancel, succ_mul]
    omega
  next => rw [succ_mul, add_assoc]

/-- The merge loop returns, and takes exactly the given block out of the live ones.
Witness: induction on the orders left; a free sibling turns the block into its parent.
-/
theorem mergeUp_spec {left} (heap : Heap s tree lists nothing) (reach : k + left = 19)
    (isLive : tree k i = live)
    : ∃ t tree' lists', mergeUp (left + 1) s (nodeAddr k i) k = some t
        ∧ Heap t tree' lists' nothing
        ∧ ∀ k' c, tree' k' c = live ↔ tree k' c = live ∧ ¬ (k' = k ∧ c = i) := by
  induction left generalizing s tree lists k i with
  | zero =>
    have released := heap.release (t := s) (by omega) isLive (by omega)
      (by rw [if_neg (by omega)]) rfl ⟨rfl, rfl⟩
    refine ⟨_, _, _, ?_, released, ?_⟩
    · rw [mergeUp, if_pos (by rw [norder_sub_one]; omega)]
    · intro k' c
      rw [setNode]
      grind
  | succ left ih =>
    have kLt : k < 19 := by omega
    have bit := heap.used_parent kLt isLive
    simp only [mergeUp]
    rw [if_neg (by rw [norder_sub_one]; omega), getIdx_parent kLt, bmToggle_snd, bit]
    by_cases siblingBusy : busy tree k (sibling i) = true
    · have released := heap.release (t := { s with
          usedBitmap := (bmToggle s.usedBitmap (nodeIdx (k + 1) (i / 2))).1 })
        (by omega) isLive (by intro _ isFree; simp [busy, isFree] at siblingBusy)
        (by rw [if_pos kLt]) rfl ⟨rfl, rfl⟩
      refine ⟨_, _, _, ?_, released, ?_⟩
      · rw [siblingBusy]
        rfl
      · intro k' c
        rw [setNode]
        grind
    · have parent := (heap.shape.present k kLt i).mp (by rw [isLive]; decide)
      have present : tree k (sibling i) ≠ absent := by
        rw [heap.shape.present k kLt, sibling_div]
        exact parent
      have isFree : tree k (sibling i) = free := by
        cases status : tree k (sibling i) with
        | absent => exact absurd status present
        | free => rfl
        | live | split => simp [busy, status] at siblingBusy
      have merged := heap.mergeStep (t := { s with
          usedBitmap := (bmToggle s.usedBitmap (nodeIdx (k + 1) (i / 2))).1
          splitBitmap := bmSet s.splitBitmap (nodeIdx (k + 1) (i / 2)) false })
        kLt isLive isFree rfl rfl ⟨rfl, rfl⟩
      have parentLive : join tree k (i / 2) live (k + 1) (i / 2) = live := by
        rw [join_apply, if_pos ⟨rfl, rfl⟩]
      obtain ⟨t, tree', lists', run, after, sameLive⟩ := ih merged (by omega) parentLive
      refine ⟨t, tree', lists', ?_, after, ?_⟩
      · have level : getIdxInLvl (nodeAddr k i) k = i := by
          rw [getIdxInLvl_nodeAddr kLt.le, Nat.mul_div_cancel _ (Nat.two_pow_pos k)]
        have bytes : 1 <<< (minOrder + k) = 2 ^ (k + 6) := by
          rw [shiftLeft_eq, one_mul, minOrder, add_comm]
        have other := nodeAddr_sibling k i
        rw [← nodeAddr_left] at run
        rw [Bool.eq_false_iff.mpr siblingBusy, if_neg (by decide), level, bytes]
        by_cases odd : i % 2 = 1
        · have first : 2 * (i / 2) = sibling i := by
            simp only [sibling, if_pos odd]
            omega
          rw [if_pos odd] at other ⊢
          rw [← other]
          rw [first] at run
          exact run
        · have first : 2 * (i / 2) = i := by omega
          rw [if_neg odd] at other ⊢
          rw [← other]
          rw [first] at run
          exact run
      · intro k' c
        have siblings : c / 2 = i / 2 → c = i ∨ c = sibling i := by
          simp only [sibling]
          split <;> omega
        rw [sameLive, join_apply]
        grind

/-- Freeing a live block returns and takes exactly that block out of the live ones. -/
theorem Heap.kfree (heap : Heap s tree lists nothing) (kLe : k ≤ 19) (isLive : tree k i = live)
    : ∃ t tree' lists', Kalloc.kfree s (nodeAddr k i) = some t
        ∧ Heap t tree' lists' nothing
        ∧ ∀ k' c, tree' k' c = live ↔ tree k' c = live ∧ ¬ (k' = k ∧ c = i) := by
  have offset : nodeAddr k i - kernelHeapBase = i * 2 ^ (k + 6) := Nat.add_sub_cancel_left _ _
  have aligned : (nodeAddr k i - kernelHeapBase) % 2 ^ (minOrder + k) = 0 := by
    rw [offset, minOrder, add_comm 6 k, mul_mod_left]
  have alignedMin : (nodeAddr k i - kernelHeapBase) % 2 ^ minOrder = 0 := by
    rw [offset, minOrder, pow_add, ← mul_assoc, mul_mod_left]
  have norderEq : norder = 20 := rfl
  obtain ⟨t, tree', lists', run, after, live⟩ := mergeUp_spec heap
    (Nat.add_sub_cancel' kLe) isLive
  refine ⟨t, tree', lists', ?_, after, live⟩
  rw [Kalloc.kfree, if_neg (nodeAddr_ne_zero k i), if_neg (by simpa using alignedMin)]
  simp only [heap.getOrder_eq kLe isLive]
  rw [if_neg (by simpa using aligned), show norder - k = 19 - k + 1 by omega]
  exact run

end Freeing

end UnstableOS.Mm.Kalloc
