import UnstableOS.Mm.Pmm.Coalescing

/-! Live blocks, and what each call of the interface does to them.
A live block is one that was handed out and still has references. The page records describe it
completely: its head carries the reference count and the order, its other pages name the head.
-/

namespace UnstableOS.Mm.Pmm

open Lib Lib.Dyadic Function List PageInfo Nat

structure LiveBlock where
  head : Nat
  order : Nat
  refs : Nat
deriving DecidableEq, Repr

/-- The page belongs to the live block. -/
def LiveBlock.Owns (block : LiveBlock) (page : Nat) : Prop := Span block.order block.head page

/-- The records of a live block. -/
structure LiveBlock.Marked (s : State) (block : LiveBlock) : Prop where
  le : block.order ≤ pmmOrderMax
  real : block.head ≠ 0
  aligned : 2 ^ block.order ∣ block.head
  inside : block.head + 2 ^ block.order ≤ s.usablePagesEnd
  refs : 0 < block.refs ∧ block.refs < 2 ^ 20
  head
    : (s.pages block.head).refcount = block.refs ∧ (s.pages block.head).order = block.order
  tail
    : ∀ page, block.Owns page → page ≠ block.head
        → (s.pages page).refcount = block.head ∧ (s.pages page).order = orderTail

/-- The page is in the range list handed over at boot. -/
def InRanges (ranges : List Range) (page : Nat) : Prop :=
  ∃ range ∈ ranges, range.start ≤ page ∧ page < range.stop

/-- The invariant of the allocator between calls. -/
structure Inv (s : State) (live : List LiveBlock) (lists : Nat → List Nat) : Prop where
  free : FreeInv s lists (fun _ => False)
  started : s.preVmm = false
  count : s.freePageCount = totalPages lists
  marked : ∀ block ∈ live, block.Marked s
  heads : (live.map LiveBlock.head).Nodup
  pages
    : ∀ page, InRanges s.ranges page
        ↔ Covered lists page ∨ ∃ block ∈ live, block.Owns page
  real : ∀ page, InRanges s.ranges page → page ≠ 0

namespace LiveBlock.Marked

variable {s t : State} {block : LiveBlock}

section
variable (marked : block.Marked s)
include marked

theorem used {page} (owns : block.Owns page) : (s.pages page).refcount ≠ 0 := by
  by_cases atHead : page = block.head
  · rw [atHead, marked.head.1]
    exact pos_iff_ne_zero.mp marked.refs.1
  · rw [(marked.tail page owns atHead).1]
    exact marked.real

theorem in_bounds : ¬ s.usablePagesEnd ≤ block.head := by
  have := marked.inside
  have := Nat.two_pow_pos block.order
  omega

theorem is_head
    : ¬ ((s.pages block.head).refcount = 0 ∨ (s.pages block.head).order = orderTail) := by
  have := marked.le
  have := marked.refs.1
  rw [marked.head.1, marked.head.2]
  simp only [orderTail]
  omega

/-- Only the records of the block's own pages matter. -/
theorem congr (sameEnd : t.usablePagesEnd = s.usablePagesEnd) (same : ∀ page, block.Owns page
      → (t.pages page).refcount = (s.pages page).refcount
        ∧ (t.pages page).order = (s.pages page).order)
    : block.Marked t where
  le := marked.le
  real := marked.real
  aligned := marked.aligned
  inside := sameEnd ▸ marked.inside
  refs := marked.refs
  head := by
    obtain ⟨refcount, order⟩ := same block.head (span_base _ _)
    rw [refcount, order]
    exact marked.head
  tail page owns notHead := by
    obtain ⟨refcount, order⟩ := same page owns
    rw [refcount, order]
    exact marked.tail page owns notHead

end

/-- The records of a page name the live block it belongs to. -/
theorem unique {other : LiveBlock} (marked : block.Marked s) (otherMarked : other.Marked s)
    {page} (owns : block.Owns page) (otherOwns : other.Owns page)
    : block.head = other.head := by
  have notTail {live : LiveBlock} (valid : live.Marked s)
      : (s.pages live.head).order ≠ orderTail := fun eq =>
    valid.is_head (.inr eq)
  by_cases atHead : page = block.head <;> by_cases atOther : page = other.head
  · exact atHead.symm.trans atOther
  · exact absurd (otherMarked.tail page otherOwns atOther).2 (atHead ▸ notTail marked)
  · exact absurd (marked.tail page owns atHead).2 (atOther ▸ notTail otherMarked)
  · exact (marked.tail page owns atHead).1.symm.trans (otherMarked.tail page otherOwns atOther).1

end LiveBlock.Marked

namespace Inv

variable {s : State} {live : List LiveBlock} {lists : Nat → List Nat}

theorem live_not_covered (inv : Inv s live lists) {block} (mem : block ∈ live)
    {page} (owns : block.Owns page)
    : ¬ Covered lists page := by
  rintro ⟨k, le, entry, inK, within⟩
  exact (inv.marked block mem).used owns (inv.free.marked k le entry inK page within).1

theorem covered_ne_zero (inv : Inv s live lists) (page : Nat) (cover : Covered lists page)
    : page ≠ 0 :=
  inv.real page ((inv.pages page).mpr (.inl cover))

theorem owner_unique (inv : Inv s live lists) {block other}
    (mem : block ∈ live) (otherMember : other ∈ live)
    {page} (owns : block.Owns page) (otherOwns : other.Owns page)
    : block = other :=
  inj_on_of_nodup_map inv.heads mem otherMember
    ((inv.marked block mem).unique (inv.marked other otherMember) owns otherOwns)

end Inv

-- Allocation

/-- The search stops at the first order with a nonempty list, or past the last order. -/
theorem findOrder_spec (s : State) (left order : Nat)
    : order ≤ findOrder s left order
      ∧ findOrder s left order ≤ order + left
      ∧ (∀ k, order ≤ k → k < findOrder s left order → s.freelists k = 0)
      ∧ (findOrder s left order < order + left → s.freelists (findOrder s left order) ≠ 0) := by
  induction left generalizing order with
  | zero =>
    simp only [findOrder]
    exact ⟨le_rfl, le_rfl, fun k low high => by omega, fun below => by omega⟩
  | succ left ih =>
    simp only [findOrder]
    split
    next some => exact ⟨le_rfl, by omega, fun k low high => by omega, fun _ => some⟩
    next none =>
    obtain ⟨low, high, empty, found⟩ := ih (order + 1)
    refine ⟨by omega, by omega, ?_, fun below => found (by omega)⟩
    intro k kLow kHigh
    by_cases same : k = order
    · subst same
      simpa using none
    · exact empty k (by omega) kHigh

/-- What the split loop leaves of a block of the larger order: the block of the wanted order in
hand, and the rest on the free lists.
-/
structure Split (s : State) (lists : Nat → List Nat) (block order top : Nat)
    (t : State) (lists' : Nat → List Nat)
    : Prop where
  inv : FreeInv t lists' (Span order block)
  refcount : ∀ page, (t.pages page).refcount = (s.pages page).refcount
  orders : ∀ page, ¬ Span top block page → (t.pages page).order = (s.pages page).order
  pages
    : ∀ page, Covered lists' page ∨ Span order block page
        ↔ Covered lists page ∨ Span top block page
  total : totalPages lists' + 2 ^ order = totalPages lists + 2 ^ top
  usablePagesEnd : t.usablePagesEnd = s.usablePagesEnd
  freePageCount : t.freePageCount = s.freePageCount
  preVmm : t.preVmm = s.preVmm
  ranges : t.ranges = s.ranges

variable {s : State} {lists : Nat → List Nat} {block order : Nat} {live : List LiveBlock}

theorem Split.trans {k top t t' lists' lists''} (upper : Split s lists block k top t lists')
    (lower : Split t lists' block order k t' lists'') (le : k ≤ top)
    : Split s lists block order top t' lists'' where
  inv := lower.inv
  refcount page := (lower.refcount page).trans (upper.refcount page)
  orders page outside := by
    have notLower : ¬ Span k block page := fun within =>
      outside ⟨within.1, within.2.trans_le
        (Nat.add_le_add_left (Nat.pow_le_pow_right (by decide) le) _)⟩
    exact (lower.orders page notLower).trans (upper.orders page outside)
  pages page := (lower.pages page).trans (upper.pages page)
  total := by
    have := upper.total
    have := lower.total
    omega
  usablePagesEnd := lower.usablePagesEnd.trans upper.usablePagesEnd
  freePageCount := lower.freePageCount.trans upper.freePageCount
  preVmm := lower.preVmm.trans upper.preVmm
  ranges := lower.ranges.trans upper.ranges

section
variable {k page : Nat}

/-- One round of the split loop: the upper half of the block goes on its list. -/
def halve (s : State) (block k : Nat) : State :=
  freelistInsert
    { s with
      pages := updatePages s.pages (block + 2 ^ k) (fun info => info.setOrder k) (2 ^ k) }
    (block + 2 ^ k) k

theorem halve_refcount (s : State) (block k page : Nat)
    : ((halve s block k).pages page).refcount = (s.pages page).refcount := by
  rw [halve, (freelistInsert_sameMarks _ _ _).refcount]
  simp only [updatePages_apply]
  split <;> rfl

theorem halve_order_upper (le : k ≤ pmmOrderMax) (within : Span k (block + 2 ^ k) page)
    : ((halve s block k).pages page).order = k := by
  rw [halve, (freelistInsert_sameMarks _ _ _).order]
  have fits : k % 2 ^ 4 = k := mod_eq_of_lt (by simp only [pmmOrderMax] at le; omega)
  simp only [updatePages_apply]
  exact (congrArg PageInfo.order (if_pos within)).trans fits

theorem halve_order_other (outside : ¬ Span k (block + 2 ^ k) page)
    : ((halve s block k).pages page).order = (s.pages page).order := by
  rw [halve, (freelistInsert_sameMarks _ _ _).order]
  simp only [updatePages_apply]
  exact congrArg PageInfo.order (if_neg outside)

theorem span_lower_half
    : (fun page => Span (k + 1) block page ∧ ¬ Span k (block + 2 ^ k) page) = Span k block := by
  funext page
  refine propext ⟨?_, fun within => ⟨(span_halves k block page).mpr (.inl within), ?_⟩⟩
  · rintro ⟨within, notUpper⟩
    exact ((span_halves k block page).mp within).resolve_right notUpper
  · intro both
    have := within.2
    have := both.1
    omega

section
variable (inv : FreeInv s lists (Span (k + 1) block)) (le : k < pmmOrderMax)
  (inside : block + 2 ^ (k + 1) ≤ s.usablePagesEnd)
include inv le inside

/-- The list with the upper half at its front; it is on no list yet. -/
theorem halve_links : Lists (halve s block k) (update lists k ((block + 2 ^ k) :: lists k)) := by
  have links : Lists { s with
      pages := updatePages s.pages (block + 2 ^ k) (fun info => info.setOrder k) (2 ^ k) }
      lists := by
    refine inv.links.congr (fun page => ?_) rfl
    simp only [State.nxt, State.prv, updatePages_apply]
    split <;> exact ⟨rfl, rfl⟩
  have small := inv.small
  have half := Nat.two_pow_pos k
  have double : 2 ^ (k + 1) = 2 ^ k + 2 ^ k := by ring
  refine links.insert le.le (by omega) (by omega) fun j jLe mem => ?_
  exact inv.apart _ ⟨j, jLe, _, mem, span_base j _⟩
    ((span_halves k block _).mpr (.inr (span_base _ _)))

theorem halve_split (aligned : 2 ^ (k + 1) ∣ block)
    (unused : ∀ page, Span (k + 1) block page → (s.pages page).refcount = 0)
    : Split s lists block k (k + 1) (halve s block k)
        (update lists k ((block + 2 ^ k) :: lists k)) := by
  have marks := freelistInsert_sameMarks
    { s with pages := updatePages s.pages (block + 2 ^ k) (fun info => info.setOrder k) (2 ^ k) }
    (block + 2 ^ k) k
  have upperBuddy : buddy k (block + 2 ^ k) = block := by
    rw [← buddy_of_dvd_succ (k := k) aligned, buddy_buddy]
  have double : 2 ^ (k + 1) = 2 ^ k + 2 ^ k := by ring
  have put := inv.put le.le (halve_links inv le inside) marks.usablePagesEnd
    (Nat.dvd_add (dvd_of_le (by omega) aligned) (dvd_refl _)) (by omega)
    (fun page within => (span_halves k block page).mpr (.inr within))
    (fun page outside => ⟨halve_refcount .., halve_order_other outside⟩)
    (fun page within => ⟨(halve_refcount ..).trans
      (unused page ((span_halves k block page).mpr (.inr within))), halve_order_upper le.le within⟩)
    (fun _ mem => ?_)
  · rw [span_lower_half] at put
    refine ⟨put, halve_refcount s block k, ?_, ?_, ?_, marks.usablePagesEnd, marks.freePageCount,
      marks.preVmm, marks.ranges⟩
    · exact fun page outside =>
        halve_order_other fun within => outside ((span_halves k block page).mpr (.inr within))
    · intro page
      rw [covered_cons le.le, span_halves]
      tauto
    · rw [totalPages_cons le.le]
      omega
  · rw [upperBuddy] at mem
    exact inv.apart block ⟨k, le.le, block, mem, span_base k block⟩ (span_base _ _)

end

end

/-- The split loop never fails its assertion.
Witness: induction on the excess order; each round puts the upper half of the block in hand on
its list, where its buddy, the lower half, is not.
-/
theorem splitBlock_split {excess} (inv : FreeInv s lists (Span (order + excess) block))
    (le : order + excess ≤ pmmOrderMax) (aligned : 2 ^ (order + excess) ∣ block)
    (inside : block + 2 ^ (order + excess) ≤ s.usablePagesEnd)
    (unused : ∀ page, Span (order + excess) block page → (s.pages page).refcount = 0)
    : ∃ t lists', splitBlock block order excess s = some t
        ∧ Split s lists block order (order + excess) t lists' := by
  induction excess generalizing s lists with
  | zero =>
    exact ⟨s, lists, rfl, inv, fun _ => rfl, fun _ _ => rfl, fun _ => Iff.rfl, rfl, rfl, rfl,
      rfl, rfl⟩
  | succ excess ih =>
    have upperUnused : ∀ i < 2 ^ (order + excess),
        (s.pages (block + 2 ^ (order + excess) + i)).refcount = 0 := fun i small =>
      unused _ ((span_halves (order + excess) block _).mpr (.inr ⟨by omega, by omega⟩))
    have double : 2 ^ (order + (excess + 1)) = 2 ^ (order + excess) + 2 ^ (order + excess) := by
      ring
    have round := halve_split inv le inside aligned unused
    obtain ⟨t, lists', run, rest⟩ := ih round.inv (by omega) (dvd_of_le (by omega) aligned)
      (by rw [round.usablePagesEnd]; omega)
      (fun page within => (round.refcount page).trans
        (unused page ((span_halves (order + excess) block page).mpr (.inl within))))
    refine ⟨t, lists', ?_, round.trans rest (by omega)⟩
    rw [splitBlock, if_pos upperUnused]
    exact run

theorem markAllocated_apply (pages : Nat → PageInfo) (block order page : Nat)
    : markAllocated pages block order page
      = if page = block then ((pages block).setRefcount 1).setOrder order
        else if Span order block page then ((pages page).setOrder orderTail).setRefcount block
        else pages page := by
  simp only [markAllocated, updatePages_apply]
  by_cases atHead : page = block
  · subst atHead
    rw [if_neg (by omega), if_pos rfl, update_self]
  rw [update_of_ne atHead, if_neg atHead]
  congr 1
  simp only [Span, eq_iff_iff]
  omega

theorem markAllocated_outside {page} (pages : Nat → PageInfo) (outside : ¬ Span order block page)
    : markAllocated pages block order page = pages page := by
  have notHead : page ≠ block := fun eq => outside (eq ▸ span_base order block)
  rw [markAllocated_apply, if_neg notHead, if_neg outside]

/-- The pages of a block that is marked as allocated read as a live block with one reference. -/
theorem LiveBlock.marked_allocated {t : State} {count} (le : order ≤ pmmOrderMax) (real : block ≠ 0)
    (aligned : 2 ^ order ∣ block) (inside : block + 2 ^ order ≤ t.usablePagesEnd)
    (fits : block < 2 ^ 20)
    : LiveBlock.Marked
        { t with pages := markAllocated t.pages block order, freePageCount := count }
        ⟨block, order, 1⟩ := by
  refine ⟨le, real, aligned, inside, ⟨one_pos, by norm_num⟩, ?_, fun page owns notHead => ?_⟩
  · simp only [markAllocated_apply, if_true]
    exact ⟨rfl, mod_eq_of_lt (by simp only [pmmOrderMax] at le; omega)⟩
  · have within : Span order block page := owns
    simp only [markAllocated_apply]
    rw [if_neg notHead, if_pos within]
    exact ⟨mod_eq_of_lt fits, rfl⟩

/-- A block in hand whose pages read as unused becomes a live block with one reference. -/
theorem Inv.handOut {t lists' top} (inv : Inv s live lists) (topLe : top ≤ pmmOrderMax)
    (mem : block ∈ lists top) (low : order ≤ top)
    (split : Split (freelistRemove s block) (update lists top ((lists top).erase block))
      block order top t lists')
    : Inv
        { t with
          pages := markAllocated t.pages block order
          freePageCount := t.freePageCount - 2 ^ order }
        (⟨block, order, 1⟩ :: live) lists' := by
  have marks := freelistRemove_sameMarks s block
  have held := split.inv
  have le := low.trans topLe
  have real := inv.free.links.ne_zero topLe mem
  have sameEnd := split.usablePagesEnd.trans marks.usablePagesEnd
  have ranges := split.ranges.trans marks.ranges
  have pages (page) : Covered lists' page ∨ Span order block page ↔ Covered lists page := by
    rw [split.pages page]
    exact covered_erase topLe mem
  have inside : block + 2 ^ order ≤ t.usablePagesEnd := by
    rw [sameEnd]
    have := inv.free.inside top topLe block mem
    have := Nat.pow_le_pow_right (n := 2) (by omega) low
    omega
  have blockFits : block < 2 ^ 20 := by
    have := held.small
    have := Nat.two_pow_pos order
    omega
  have notOurs {other} (mem : other ∈ live) {page} (owns : other.Owns page)
      : ¬ Span order block page := fun within =>
    inv.live_not_covered mem owns ((pages page).mp (.inr within))
  have used (page) (within : Span order block page)
      : (markAllocated t.pages block order page).refcount ≠ 0 := by
    rw [markAllocated_apply]
    split
    · simp [setRefcount, setOrder]
    · simp only [setRefcount, mod_eq_of_lt blockFits]
      exact real
  constructor
  case free =>
    refine held.change (Span order block) ?_ rfl ?_ held.apart (fun _ _ => id) ?_
    · refine held.links.congr (fun page => ?_) rfl
      simp only [State.nxt, State.prv, markAllocated_apply]
      split
      · next atHead => exact atHead ▸ ⟨rfl, rfl⟩
      · split <;> exact ⟨rfl, rfl⟩
    · intro page outside
      simp [markAllocated_outside t.pages outside]
    · intro page _ zero
      have outside : ¬ Span order block page := fun within => used page within zero
      exact ⟨outside, outside⟩
  case started => exact (split.preVmm.trans marks.preVmm).trans inv.started
  case count =>
    simp only [split.freePageCount, marks.freePageCount, inv.count]
    have := split.total
    have := totalPages_erase topLe mem
    omega
  case marked =>
    intro other inNew
    rcases mem_cons.mp inNew with rfl | old
    · have aligned := dvd_of_le low (inv.free.aligned top topLe block mem)
      exact LiveBlock.marked_allocated le real aligned inside blockFits
    refine (inv.marked other old).congr sameEnd ?_
    intro page owns
    have notTop : ¬ Span top block page := fun within =>
      inv.live_not_covered old owns ⟨top, topLe, block, mem, within⟩
    simp only [markAllocated_outside t.pages (notOurs old owns)]
    exact ⟨(split.refcount page).trans (marks.refcount page),
      (split.orders page notTop).trans (marks.order page)⟩
  case heads =>
    rw [map_cons, nodup_cons]
    refine ⟨?_, inv.heads⟩
    intro mem
    obtain ⟨other, old, eq⟩ := mem_map.mp mem
    exact notOurs old (span_base other.order other.head) (eq ▸ span_base order block)
  case pages =>
    intro page
    have before := inv.pages page
    simp only [ranges, exists_mem_cons_iff, before, ← pages page]
    exact or_assoc
  case real => exact ranges ▸ inv.real

/-- Every permitted allocation returns. It returns zero exactly when no list of a sufficient
order has an entry, and otherwise the head of a new live block.
-/
theorem Inv.pmmAlloc (inv : Inv s live lists) (le : order ≤ pmmOrderMax)
    : ∃ block t lists', Pmm.pmmAlloc s order = some (block, t)
        ∧ Inv t (if block = 0 then live else ⟨block, order, 1⟩ :: live) lists'
        ∧ t.ranges = s.ranges
        ∧ (block = 0 → ∀ k, order ≤ k → k ≤ pmmOrderMax → lists k = []) := by
  obtain ⟨low, high, empty, found⟩ := findOrder_spec s (pmmOrderMax + 1 - order) order
  simp only [Pmm.pmmAlloc, inv.started, Bool.false_eq_true, if_false, if_neg (not_lt.mpr le)]
  generalize findOrder s (pmmOrderMax + 1 - order) order = top at *
  by_cases exhausted : pmmOrderMax < top
  · rw [if_pos exhausted]
    refine ⟨0, s, lists, rfl, by simpa using inv, rfl, ?_⟩
    intro _ k kLow kHigh
    exact (inv.free.links.freelists_eq_zero_iff kHigh).mp (empty k kLow (by omega))
  rw [if_neg exhausted]
  have topLe : top ≤ pmmOrderMax := by omega
  have nonempty := found (by omega)
  have mem := inv.free.links.head_mem topLe nonempty
  generalize s.freelists top = block at *
  have taken := inv.free.take topLe mem
  have marks := freelistRemove_sameMarks s block
  have topEq : order + (top - order) = top := by omega
  have heldEq : (fun page => False ∨ Span top block page) = Span (order + (top - order)) block := by
    funext page
    rw [topEq]
    exact false_or _
  rw [heldEq] at taken
  obtain ⟨t, lists', run, split⟩ := splitBlock_split taken (topEq.symm ▸ topLe)
    (topEq.symm ▸ inv.free.aligned top topLe block mem)
    (by rw [topEq, marks.usablePagesEnd]; exact inv.free.inside top topLe block mem)
    (by
      intro page within
      rw [marks.refcount]
      rw [topEq] at within
      exact (inv.free.marked top topLe block mem page within).1)
  rw [topEq] at split
  refine ⟨block, _, lists', by rw [run]; rfl, ?_, ?_, fun zero => absurd zero nonempty⟩
  · rw [if_neg nonempty]
    exact inv.handOut topLe mem low split
  · exact split.ranges.trans marks.ranges

-- References

/-- The live blocks after one reference to the block is gone. -/
def LiveBlock.released (block : LiveBlock) (live : List LiveBlock) : List LiveBlock :=
  if block.refs = 1 then live.erase block
  else { block with refs := block.refs - 1 } :: live.erase block

/-- The live blocks after one more reference to the block. -/
def LiveBlock.retained (block : LiveBlock) (live : List LiveBlock) : List LiveBlock :=
  { block with refs := block.refs + 1 } :: live.erase block

namespace Inv

variable {s : State} {live : List LiveBlock} {lists : Nat → List Nat} {block : LiveBlock}

section
variable (inv : Inv s live lists)
include inv

theorem live_nodup : live.Nodup := Nodup.of_map _ inv.heads

theorem mem_erase_iff {other}
    : other ∈ live.erase block ↔ other ≠ block ∧ other ∈ live :=
  inv.live_nodup.mem_erase_iff

/-- The other live blocks keep their records when only the head of this one is rewritten. -/
theorem others_marked {t} (mem : block ∈ live) (sameEnd : t.usablePagesEnd = s.usablePagesEnd)
    (same : ∀ page, ¬ block.Owns page → ¬ Covered lists page
      → (t.pages page).refcount = (s.pages page).refcount
        ∧ (t.pages page).order = (s.pages page).order)
    {other} (inRest : other ∈ live.erase block)
    : other.Marked t := by
  obtain ⟨different, old⟩ := inv.mem_erase_iff.mp inRest
  refine (inv.marked other old).congr sameEnd ?_
  intro page owns
  refine same page ?_ (inv.live_not_covered old owns)
  intro ours
  exact different (inv.owner_unique old mem owns ours)

theorem erase_heads : ((live.erase block).map LiveBlock.head).Nodup :=
  inv.heads.sublist ((erase_sublist).map _)

theorem head_not_in_rest (mem : block ∈ live)
    : block.head ∉ (live.erase block).map LiveBlock.head := by
  intro inRest
  obtain ⟨other, inErase, eq⟩ := mem_map.mp inRest
  obtain ⟨different, old⟩ := inv.mem_erase_iff.mp inErase
  exact different (inj_on_of_nodup_map inv.heads old mem eq)

theorem exists_owner_iff (mem : block ∈ live) (page : Nat)
    : (∃ other ∈ live, other.Owns page)
      ↔ block.Owns page ∨ ∃ other ∈ live.erase block, other.Owns page := by
  constructor
  · rintro ⟨other, old, owns⟩
    by_cases same : other = block
    · exact .inl (same ▸ owns)
    · exact .inr ⟨other, inv.mem_erase_iff.mpr ⟨same, old⟩, owns⟩
  · rintro (owns | ⟨other, inErase, owns⟩)
    · exact ⟨block, mem, owns⟩
    · exact ⟨other, (inv.mem_erase_iff.mp inErase).2, owns⟩

end

section
variable {t : State} {page refs : Nat}
    (pages : t.pages = update s.pages page ((s.pages page).setRefcount refs)) (q : Nat)
include pages q

theorem recount_links : t.nxt q = s.nxt q ∧ t.prv q = s.prv q := by
  by_cases same : q = page
  · subst same
    simp [State.nxt, State.prv, pages, setRefcount]
  · simp [State.nxt, State.prv, pages, update_of_ne same]

end

section
variable (inv : Inv s live lists) (mem : block ∈ live)
include inv mem

/-- Rewriting the reference count of a live block's head to another nonzero value. -/
theorem recount {refs} (positive : 0 < refs) (fits : refs < 2 ^ 20)
    : Inv
        { s with
          pages := update s.pages block.head ((s.pages block.head).setRefcount refs) }
        ({ block with refs := refs } :: live.erase block) lists := by
  have valid := inv.marked block mem
  have refsEq := mod_eq_of_lt fits
  have elsewhere (page) (notHead : page ≠ block.head)
      : update s.pages block.head ((s.pages block.head).setRefcount refs) page = s.pages page :=
    update_of_ne notHead _ _
  constructor
  case free =>
    refine inv.free.change (· = block.head) ?_ rfl ?_ ?_ (fun _ _ => id) ?_
    · exact inv.free.links.congr (recount_links rfl) rfl
    · intro page notHead
      simp [elsewhere page notHead]
    · intro page cover atHead
      exact inv.live_not_covered mem (span_base _ _) (atHead ▸ cover)
    · intro page _ zero
      refine ⟨id, fun atHead => ?_⟩
      subst atHead
      simp only [update_self, setRefcount, refsEq] at zero
      omega
  case started => exact inv.started
  case count => exact inv.count
  case marked =>
    intro other inNew
    rcases mem_cons.mp inNew with rfl | inRest
    · refine ⟨valid.le, valid.real, valid.aligned, valid.inside, ⟨positive, fits⟩, ?_, ?_⟩
      · simp only [update_self, setRefcount, refsEq, valid.head.2, and_self]
      · intro page owns notHead
        simp only [elsewhere page notHead]
        exact valid.tail page owns notHead
    · apply inv.others_marked mem ?_ ?_ inRest
      · rfl
      · intro page notOurs _
        have notHead : page ≠ block.head := fun eq => notOurs (eq ▸ span_base _ _)
        simp [elsewhere page notHead]
  case heads =>
    rw [map_cons, nodup_cons]
    exact ⟨inv.head_not_in_rest mem, inv.erase_heads⟩
  case pages =>
    intro page
    rw [exists_mem_cons_iff, inv.pages, inv.exists_owner_iff mem]
    exact Iff.rfl
  case real => exact inv.real

theorem pmmRetain (fits : block.refs + 1 < 2 ^ 20)
    : ∃ t, Pmm.pmmRetain s block.head = some t
        ∧ Inv t (block.retained live) lists ∧ t.ranges = s.ranges := by
  have valid := inv.marked block mem
  refine ⟨_, ?_, inv.recount mem (succ_pos block.refs) fits, rfl⟩
  rw [Pmm.pmmRetain, if_neg (by simp [inv.started]), if_neg valid.real, if_neg valid.in_bounds,
    if_neg valid.is_head, valid.head.1]

/-- The last reference gone, the pages of the block are free again. -/
theorem freeLast {u} (stateEq : { s with
      pages := update s.pages block.head ((s.pages block.head).setRefcount 0)
      freePageCount := s.freePageCount + 2 ^ block.order } = u)
    : ∃ lists', Inv (insertFreeBlock u block.head block.order) (live.erase block) lists'
        ∧ (insertFreeBlock u block.head block.order).ranges = s.ranges := by
  have valid := inv.marked block mem
  have uPages : u.pages = update s.pages block.head ((s.pages block.head).setRefcount 0) := by
    rw [← stateEq]
  have uEnd : u.usablePagesEnd = s.usablePagesEnd := by rw [← stateEq]
  have elsewhere (page) (notHead : page ≠ block.head) : u.pages page = s.pages page := by
    rw [uPages, update_of_ne notHead]
  have held : FreeInv u lists (Span block.order block.head) := by
    refine inv.free.change (· = block.head) ?_ uEnd ?_ ?_ ?_ ?_
    · exact inv.free.links.congr (recount_links uPages) (by rw [← stateEq])
    · intro page notHead
      rw [elsewhere page notHead]
      exact ⟨rfl, rfl⟩
    · intro page cover atHead
      exact inv.live_not_covered mem (span_base _ _) (atHead ▸ cover)
    · exact fun page cover within => inv.live_not_covered mem within cover
    · intro page outside _
      exact ⟨id, fun atHead => outside (atHead ▸ span_base _ _)⟩
  obtain ⟨lists', inserted⟩ := insertFreeBlock_inserted held valid.real valid.le valid.aligned
    (uEnd ▸ valid.inside) inv.covered_ne_zero
  have ranges := inserted.ranges.trans (by rw [← stateEq])
  refine ⟨lists', ⟨inserted.inv, ?_, ?_, ?_, inv.erase_heads, ?_, ranges ▸ inv.real⟩, ranges⟩
  · rw [inserted.preVmm, ← stateEq]
    exact inv.started
  · rw [inserted.freePageCount, inserted.total, ← inv.count, ← stateEq]
  · intro other inRest
    have old := (inv.mem_erase_iff.mp inRest).2
    refine (inv.marked other old).congr (inserted.usablePagesEnd.trans uEnd) ?_
    intro page owns
    have notOurs : ¬ block.Owns page := fun ours =>
      (inv.mem_erase_iff.mp inRest).1 (inv.owner_unique old mem owns ours)
    have notHead : page ≠ block.head := fun eq => notOurs (eq ▸ span_base _ _)
    have notFree : ¬ Covered lists' page := by
      rw [inserted.pages]
      exact fun either => either.elim (inv.live_not_covered old owns) notOurs
    rw [← elsewhere page notHead]
    exact inserted.kept page notFree
  · intro page
    rw [ranges, inv.pages, inserted.pages, inv.exists_owner_iff mem, or_assoc]
    exact Iff.rfl

/-- Freeing a live block returns. -/
theorem pmmFree
    : ∃ t lists', Pmm.pmmFree s block.head = some t
        ∧ Inv t (block.released live) lists' ∧ t.ranges = s.ranges := by
  have valid := inv.marked block mem
  have fits := valid.refs.2
  have some := valid.refs.1
  have decremented : (block.refs - 1) % 2 ^ 20 = block.refs - 1 := mod_eq_of_lt (by omega)
  rw [Pmm.pmmFree, if_neg (by simp [inv.started]), if_neg valid.real, if_neg valid.in_bounds,
    if_neg valid.is_head]
  simp only [update_self, valid.head.1, valid.head.2, LiveBlock.released]
  by_cases last : block.refs = 1
  · obtain ⟨lists', freed, ranges⟩ := inv.freeLast mem rfl
    refine ⟨_, lists', ?_, ?_, ranges⟩
    · rw [last]
      rfl
    · rw [if_pos last]
      exact freed
  · have positive : 0 < block.refs - 1 := by omega
    have recounted := inv.recount mem positive (by omega)
    have stillUsed : ((s.pages block.head).setRefcount (block.refs - 1)).refcount ≠ 0 := by
      simp only [setRefcount, decremented]
      omega
    rw [if_neg stillUsed, if_neg last]
    exact ⟨_, lists, rfl, recounted, rfl⟩

end

end Inv

end UnstableOS.Mm.Pmm
