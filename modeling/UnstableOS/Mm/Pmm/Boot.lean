import UnstableOS.Mm.Pmm.Blocks
import Mathlib.Data.List.TakeWhile

/-! From the memory map to the first state of the running allocator.
The range list stays sorted and above the lowest usable page, so the blocks cut from it never
meet and never contain page zero, the terminator of the free lists.
-/

namespace UnstableOS.Mm.Pmm

open Lib Lib.Dyadic List Nat

-- Sorted range lists

/-- Ranges in ascending order that do not overlap, between two page numbers. -/
def Ordered (high : Nat) : Nat → List Range → Prop
  | _, [] => True
  | low, range :: rest =>
    low ≤ range.start ∧ range.start ≤ range.stop ∧ range.stop ≤ high
      ∧ Ordered high range.stop rest

open Ordered

/-- Where the list ends, the given bound if it is empty. -/
def endOf (low : Nat) (ranges : List Range) : Nat :=
  ranges.foldl (fun _ range => range.stop) low

def sumPages (ranges : List Range) : Nat := (ranges.map Range.pageCount).sum

variable {high low bound stop page order pageTables : Nat}
    {ranges rest result reserved : List Range} {range : Range} {start s t : State}
    {boot : BootInfo} {lists : Nat → List Nat} {filled : Nat → Prop}

theorem Ordered.append_iff {before after}
    : Ordered high low (before ++ after)
      ↔ Ordered high low before ∧ Ordered high (endOf low before) after := by
  induction before generalizing low with
  | nil => simp [Ordered, endOf]
  | cons range rest ih =>
    simp only [cons_append, Ordered, ih, endOf, foldl_cons]
    tauto

theorem Ordered.raise {high'}
    (ordered : Ordered high low ranges) (bound : ∀ range ∈ ranges, range.stop ≤ high')
    : Ordered high' low ranges := by
  induction ranges generalizing low with
  | nil => trivial
  | cons range rest ih =>
    obtain ⟨start, nonneg, _, tail⟩ := ordered
    exact ⟨start, nonneg, bound range (by simp), ih tail fun other mem =>
      bound other (mem_cons_of_mem _ mem)⟩

theorem Ordered.stop_le (ordered : Ordered high low ranges) (mem : range ∈ ranges)
    : low ≤ range.start ∧ range.stop ≤ high := by
  induction ranges generalizing low with
  | nil => cases mem
  | cons first rest ih =>
    obtain ⟨start, nonneg, stop, tail⟩ := ordered
    rcases mem_cons.mp mem with rfl | later
    · exact ⟨start, stop⟩
    · have := ih tail later
      omega

theorem endOf_le (le : low ≤ bound) (stops : ∀ range ∈ ranges, range.stop ≤ bound)
    : endOf low ranges ≤ bound := by
  induction ranges generalizing low with
  | nil => exact le
  | cons range rest ih =>
    exact ih (stops range (by simp)) fun other mem =>
      stops other (mem_cons_of_mem _ mem)

theorem absorbRanges_ordered
    (start : low ≤ range.start) (nonneg : range.start ≤ range.stop) (stop : range.stop ≤ high)
    (ordered : Ordered high bound rest)
    : Ordered high low (absorbRanges range rest) := by
  induction rest generalizing range bound with
  | nil => exact ⟨start, nonneg, stop, trivial⟩
  | cons next rest ih =>
    obtain ⟨_, nextNonneg, nextStop, tail⟩ := ordered
    simp only [absorbRanges]
    split
    next touches =>
      exact ih start (le_max_of_le_left nonneg) (max_le stop nextStop) tail
    next apart =>
      exact ⟨start, nonneg, stop, by omega, nextNonneg, nextStop, tail⟩

/-- Inserting a range keeps the list sorted. -/
theorem preVmmInsertRange_ordered {start rangesMax}
    (ordered : Ordered high low ranges) (above : low ≤ start) (below : stop ≤ high)
    (run : preVmmInsertRange start stop ranges rangesMax = some result)
    : Ordered high low result := by
  simp only [preVmmInsertRange] at run
  have split :=
    takeWhile_append_dropWhile (p := fun range : Range => range.stop < start) (l := ranges)
  have earlier : ∀ range ∈ ranges.takeWhile (fun range => range.stop < start),
      range.stop ≤ start := by
    intro range mem
    have := mem_takeWhile_imp mem
    simp only [decide_eq_true_eq] at this
    omega
  generalize ranges.dropWhile (fun range => range.stop < start) = after at *
  have ends := endOf_le above earlier
  rw [← split, append_iff] at ordered
  obtain ⟨front, back⟩ := ordered
  by_cases empty : stop ≤ start
  · rw [if_pos empty] at run
    cases run
    rw [← split, append_iff]
    exact ⟨front, back⟩
  rw [if_neg empty] at run
  cases after with
  | nil =>
    simp only at run
    split at run
    next =>
      cases run
      exact append_iff.mpr ⟨front, ends, by simp only; omega, below, trivial⟩
    next => cases run
  | cons range rest =>
    obtain ⟨rangeStart, nonneg, rangeStop, tail⟩ := back
    simp only at run
    split at run
    next gap =>
      split at run
      next =>
        cases run
        exact append_iff.mpr
          ⟨front, ends, by simp only; omega, below, by simp only; omega, nonneg, rangeStop, tail⟩
      next => cases run
    next =>
      cases run
      refine append_iff.mpr ⟨front, absorbRanges_ordered ?_ ?_ ?_ tail⟩
      all_goals simp only; omega

theorem insertAroundReserved_ordered {start}
    (ordered : Ordered high low ranges) (above : low ≤ start) (below : stop ≤ high)
    (run : insertAroundReserved stop start reserved ranges = some result)
    : Ordered high low result := by
  -- The tail of the range is inserted the same way at the end of the list and at the first
  -- reserved range in front of it.
  have finish {ranges : List Range} {start : Nat} (ordered : Ordered high low ranges)
      (above : low ≤ start)
      (run : (if start < stop then preVmmInsertRange start stop ranges preVmmRangesMax
        else some ranges) = some result)
      : Ordered high low result := by
    split at run
    next => exact preVmmInsertRange_ordered ordered above below run
    next => cases run; exact ordered
  induction reserved generalizing start ranges with
  | nil => exact finish ordered above run
  | cons first rest ih =>
    simp only [insertAroundReserved] at run
    split at run
    next behind => exact ih ordered above run
    next =>
    split at run
    next inFront => exact finish ordered above run
    next meets =>
    obtain ⟨inserted, insertion, run⟩ := Option.bind_eq_some_iff.mp run
    refine ih ?_ (le_max_of_le_left above) run
    split at insertion
    next => exact preVmmInsertRange_ordered ordered above (by omega) insertion
    next => cases insertion; exact ordered

theorem pmmInsertEntry_ordered {entry} (ordered : Ordered (2 ^ 20) lowestPage ranges)
    (run : pmmInsertEntry reserved ranges entry = some result)
    : Ordered (2 ^ 20) lowestPage result := by
  simp only [pmmInsertEntry, preVmmInsertRangeChecked] at run
  split at run
  next => cases run; exact ordered
  next =>
  split at run
  next => cases run; exact ordered
  next =>
    obtain ⟨avoided, _, run⟩ := Option.bind_eq_some_iff.mp run
    exact insertAroundReserved_ordered ordered (le_max_right _ _) (min_le_right _ _) run

theorem insertEntries_ordered {entries : List MemoryEntry}
    (ordered : Ordered (2 ^ 20) lowestPage ranges)
    (run : entries.foldlM (pmmInsertEntry reserved) ranges = some result)
    : Ordered (2 ^ 20) lowestPage result := by
  induction entries generalizing ranges with
  | nil => cases run; exact ordered
  | cons entry rest ih =>
    rw [foldlM_cons] at run
    obtain ⟨next, insertion, run⟩ := Option.bind_eq_some_iff.mp run
    exact ih (pmmInsertEntry_ordered ordered insertion) run

-- Before paging

/-- The invariant while the range list is in use. -/
structure PreInv (s : State) : Prop where
  pending : s.preVmm = true
  ordered : Ordered s.usablePagesEnd lowestPage s.ranges
  small : s.usablePagesEnd ≤ 2 ^ 20
  count : s.freePageCount = sumPages s.ranges
  freelists : s.freelists = fun _ => 0

theorem foldl_max_stop (ranges : List Range) (top : Nat)
    : top ≤ ranges.foldl (fun top range => max top range.stop) top
      ∧ (∀ range ∈ ranges, range.stop ≤ ranges.foldl (fun top range => max top range.stop) top)
      ∧ ∀ bound, top ≤ bound → (∀ range ∈ ranges, range.stop ≤ bound)
        → ranges.foldl (fun top range => max top range.stop) top ≤ bound := by
  induction ranges generalizing top with
  | nil => simp
  | cons first rest ih =>
    obtain ⟨grows, stops, least⟩ := ih (max top first.stop)
    simp only [foldl_cons, forall_mem_cons]
    refine ⟨by omega, ⟨by omega, stops⟩, ?_⟩
    intro bound topLe bounds
    exact least bound (max_le topLe bounds.1) bounds.2

theorem foldl_pageCount (ranges : List Range) (total : Nat)
    : ranges.foldl (fun total range => total + range.pageCount) total
      = total + sumPages ranges := by
  induction ranges generalizing total with
  | nil => rfl
  | cons first rest ih =>
    rw [foldl_cons, ih, sumPages, sumPages, map_cons, sum_cons, add_assoc]

theorem pmmInitPreVmm_inv (run : pmmInitPreVmm boot State.zero = some s) : PreInv s := by
  obtain ⟨ranges, inserted, run⟩ := Option.bind_eq_some_iff.mp run
  have nothing : Ordered (2 ^ 20) lowestPage [] := trivial
  have ordered := insertEntries_ordered nothing inserted
  obtain ⟨_, stops, least⟩ := foldl_max_stop ranges State.zero.usablePagesEnd
  cases run
  refine ⟨rfl, ordered.raise stops, ?_, ?_, rfl⟩
  · exact least _ (zero_le _) fun range mem => (ordered.stop_le mem).2
  · exact (foldl_pageCount ranges _).trans (zero_add _)

theorem sumPages_append (before after : List Range)
    : sumPages (before ++ after) = sumPages before + sumPages after := by
  simp [sumPages]

theorem sumPages_singleton (range : Range) : sumPages [range] = range.stop - range.start := by
  simp [sumPages, Range.pageCount]

/-- Taking a page keeps the list sorted and lowers its page count by one.
Witness: induction on the list from its end; exhausted ranges count no page.
-/
theorem takeLastPage_ordered {reversed} (ordered : Ordered high low reversed.reverse)
    (run : takeLastPage reversed = some (page, rest))
    : Ordered high low rest.reverse ∧ sumPages rest.reverse + 1 = sumPages reversed.reverse := by
  induction reversed with
  | nil => cases run
  | cons range earlier ih =>
    rw [reverse_cons, append_iff] at ordered
    obtain ⟨front, start, nonneg, stop, _⟩ := ordered
    rw [reverse_cons, sumPages_append, sumPages_singleton]
    simp only [takeLastPage] at run
    split at run
    next exhausted =>
      obtain ⟨kept, count⟩ := ih front run
      exact ⟨kept, by omega⟩
    next =>
    cases run
    rw [reverse_cons, sumPages_append, sumPages_singleton]
    refine ⟨append_iff.mpr ⟨front, ?_, ?_, stop, trivial⟩, ?_⟩
    all_goals simp only
    all_goals omega

theorem PreInv.alloc (inv : PreInv s) (run : pmmAlloc s 0 = some (page, t))
    : PreInv t ∧ t.usablePagesEnd = s.usablePagesEnd := by
  rw [pmmAlloc, if_pos inv.pending, if_pos rfl] at run
  obtain ⟨⟨taken, rest⟩, taking, run⟩ := Option.bind_eq_some_iff.mp run
  cases run
  obtain ⟨ordered, count⟩ :=
    takeLastPage_ordered ((reverse_reverse s.ranges).symm ▸ inv.ordered) taking
  rw [reverse_reverse] at count
  refine ⟨⟨inv.pending, ordered, inv.small, ?_, inv.freelists⟩, rfl⟩
  have := inv.count
  simp only
  omega

theorem PreInv.allocs {count} (inv : PreInv s) (run : preVmmAllocs count s = some t)
    : PreInv t ∧ t.usablePagesEnd = s.usablePagesEnd := by
  induction count generalizing s with
  | zero => cases run; exact ⟨inv, rfl⟩
  | succ count ih =>
    obtain ⟨⟨page, middle⟩, first, rest⟩ := Option.bind_eq_some_iff.mp run
    obtain ⟨middleInv, sameEnd⟩ := inv.alloc first
    obtain ⟨endInv, restEnd⟩ := ih middleInv rest
    exact ⟨endInv, restEnd.trans sameEnd⟩

-- Filling the free lists

/-- The chosen order never exceeds the maximum, and its block is aligned and fits. -/
theorem highestOrder_spec {start length left} (aligned : 2 ^ order ∣ start)
    (fits : 2 ^ order ≤ length)
    : highestOrder start length left order ≤ order + left
      ∧ 2 ^ highestOrder start length left order ∣ start
      ∧ 2 ^ highestOrder start length left order ≤ length := by
  induction left generalizing order with
  | zero => exact ⟨le_rfl, aligned, fits⟩
  | succ left ih =>
    have stop : order ≤ order + (left + 1) ∧ 2 ^ order ∣ start ∧ 2 ^ order ≤ length :=
      ⟨le_add_right _ _, aligned, fits⟩
    simp only [highestOrder]
    split
    next => exact stop
    next more =>
    split
    next => exact stop
    next long =>
    push Not at more long
    obtain ⟨le, found⟩ := ih more.2 long
    exact ⟨by omega, found⟩

/-- Exactly the filled pages are on the free lists; the other variables are as at the start. -/
structure Filling (start s : State) (lists : Nat → List Nat) (filled : Nat → Prop) : Prop where
  inv : FreeInv s lists (fun _ => False)
  pages : ∀ page, Covered lists page ↔ filled page
  usablePagesEnd : s.usablePagesEnd = start.usablePagesEnd
  freePageCount : s.freePageCount = start.freePageCount
  ranges : s.ranges = start.ranges

section
variable (filling : Filling start s lists filled)
include filling

theorem Filling.congr {filled'} (same : ∀ page, filled page ↔ filled' page)
    : Filling start s lists filled' :=
  { filling with pages := fun page => (filling.pages page).trans (same page) }

theorem Filling.insert {block} (real : block ≠ 0) (realPages : ∀ page, filled page → page ≠ 0)
    (le : order ≤ pmmOrderMax) (aligned : 2 ^ order ∣ block)
    (inside : block + 2 ^ order ≤ start.usablePagesEnd)
    (fresh : ∀ page, Span order block page → ¬ filled page)
    : ∃ lists', Filling start (insertFreeBlock s block order) lists'
          (fun page => filled page ∨ Span order block page)
        ∧ totalPages lists' = totalPages lists + 2 ^ order := by
  have held : FreeInv s lists (Span order block) := by
    refine filling.inv.change (fun _ => False) filling.inv.links rfl (fun _ _ => ⟨rfl, rfl⟩)
      (fun _ _ => id) ?_ (fun _ _ _ => ⟨id, id⟩)
    exact fun page cover within => fresh page within ((filling.pages page).mp cover)
  obtain ⟨lists', inserted⟩ := insertFreeBlock_inserted held real le aligned
    (filling.usablePagesEnd ▸ inside)
    (fun page cover => realPages page ((filling.pages page).mp cover))
  refine ⟨lists', ⟨inserted.inv, ?_, ?_, ?_, ?_⟩, inserted.total⟩
  · intro page
    rw [inserted.pages, filling.pages]
  · exact inserted.usablePagesEnd.trans filling.usablePagesEnd
  · exact inserted.freePageCount.trans filling.freePageCount
  · exact inserted.ranges.trans filling.ranges

/-- The loop over a range puts all its pages on the free lists.
Witness: induction on the fuel; each round shortens the range by at least one page.
-/
theorem Filling.inserts {fuel} (enough : high - low ≤ fuel) (real : 0 < low)
    (realPages : ∀ page, filled page → page ≠ 0) (inside : high ≤ start.usablePagesEnd)
    (fresh : ∀ page, low ≤ page → page < high → ¬ filled page)
    : ∃ lists', Filling start (insertFreeRange fuel s ⟨low, high⟩) lists'
          (fun page => filled page ∨ (low ≤ page ∧ page < high))
        ∧ totalPages lists' = totalPages lists + (high - low) := by
  induction fuel generalizing s lists filled low with
  | zero =>
    exact ⟨lists, filling.congr (fun page => (or_iff_left (by omega)).symm), by omega⟩
  | succ fuel ih =>
    simp only [insertFreeRange]
    split
    next nonempty =>
      have single : 2 ^ 0 ∣ low ∧ 2 ^ 0 ≤ high - low := ⟨one_dvd low, by omega⟩
      have chosen : highestOrder low (high - low) pmmOrderMax 0 ≤ 0 + pmmOrderMax ∧ _ :=
        highestOrder_spec single.1 single.2
      obtain ⟨le, aligned, fits⟩ := chosen
      generalize highestOrder low (high - low) pmmOrderMax 0 = order at *
      obtain ⟨middle, inserted, total⟩ := filling.insert (by omega) realPages (by omega) aligned
        (by omega) (fun page within => fresh page within.1 (by have := within.2; omega))
      have shorter : high - (low + 2 ^ order) ≤ fuel := by omega
      have realNext (page) (old : filled page ∨ Span order low page) : page ≠ 0 := by
        rcases old with old | within
        · exact realPages page old
        · have := within.1
          omega
      have freshNext (page) (above : low + 2 ^ order ≤ page) (below : page < high)
          : ¬ (filled page ∨ Span order low page) := by
        rintro (old | within)
        · exact fresh page (by omega) below old
        · have := within.2
          omega
      obtain ⟨lists', rest, restTotal⟩ := ih inserted shorter (by omega) realNext freshNext
      refine ⟨lists', rest.congr ?_, by omega⟩
      intro page
      rw [or_assoc]
      refine or_congr_right ?_
      simp only [Span]
      omega
    next empty => exact ⟨lists, filling.congr (fun page => (or_iff_left (by omega)).symm), by omega⟩

end

theorem inRanges_cons (first : Range) (rest : List Range) (page : Nat)
    : InRanges (first :: rest) page
      ↔ (first.start ≤ page ∧ page < first.stop) ∨ InRanges rest page := by
  simp [InRanges]

theorem Ordered.low_le (ordered : Ordered high low ranges) (inRanges : InRanges ranges page)
    : low ≤ page := by
  obtain ⟨range, mem, within⟩ := inRanges
  have := (ordered.stop_le mem).1
  omega

/-- The loop over the range list puts all its pages on the free lists. -/
theorem Filling.ranges_loop (filling : Filling start s lists filled)
    (ordered : Ordered start.usablePagesEnd low ranges) (real : 0 < low)
    (below : ∀ page, filled page → page ≠ 0 ∧ page < low)
    : ∃ lists', Filling start
          (ranges.foldl (fun s range => insertFreeRange (range.stop - range.start) s range) s)
            lists'
          (fun page => filled page ∨ InRanges ranges page)
        ∧ totalPages lists' = totalPages lists + sumPages ranges := by
  induction ranges generalizing s lists filled low with
  | nil => exact ⟨lists, filling.congr (fun page => by simp [InRanges]), by simp [sumPages]⟩
  | cons range rest ih =>
    obtain ⟨start, nonneg, stop, tail⟩ := ordered
    obtain ⟨middle, filled', total⟩ := filling.inserts le_rfl (lt_of_lt_of_le real start)
      (fun page old => (below page old).1) stop
      (fun page above _ old => by have := (below page old).2; omega)
    have belowNext (page) (old : filled page ∨ (range.start ≤ page ∧ page < range.stop))
        : page ≠ 0 ∧ page < range.stop := by
      rcases old with old | within
      · have := below page old
        omega
      · omega
    obtain ⟨lists', rest, restTotal⟩ := ih filled' tail (by omega) belowNext
    refine ⟨lists', rest.congr ?_, ?_⟩
    · intro page
      rw [inRanges_cons, or_assoc]
    · rw [restTotal, total, sumPages, sumPages, map_cons, sum_cons, Range.pageCount, add_assoc]

/-- From the memory map to the end of `pmm_init_post_vmm`: `early` pages are allocated from the
range list while paging is set up.
-/
def pmmBoot (boot : BootInfo) (early pageTables : Nat) : Option State := do
  let s ← pmmInitPreVmm boot State.zero
  let s ← preVmmAllocs early s
  pmmInitPostVmm pageTables s

/-- All lists empty and all pages in use. -/
theorem freeInv_empty (small : s.usablePagesEnd ≤ 2 ^ 20) (freelists : s.freelists = fun _ => 0)
    (used : ∀ page < s.usablePagesEnd, (s.pages page).refcount ≠ 0)
    : FreeInv s (fun _ => []) (fun _ => False) where
  links := Lists.empty freelists
  small := small
  aligned := by simp
  inside := by simp
  marked := by simp
  apart := fun _ _ => id
  covered page inside _ zero := absurd zero (used page inside)
  separate := by simp

/-- The allocator starts with all pages of the range list free and no live block. -/
theorem PreInv.initPostVmm (inv : PreInv s) (run : pmmInitPostVmm pageTables s = some t)
    : ∃ lists, Inv t [] lists := by
  rw [pmmInitPostVmm, if_neg (by simp [inv.pending])] at run
  split at run
  next => cases run
  next =>
  obtain ⟨mapped, allocations, run⟩ := Option.bind_eq_some_iff.mp run
  have mappedInv := (inv.allocs allocations).1
  generalize stateEq : ({ mapped with
    pages := updatePages mapped.pages 0 (fun _ => ⟨1, 0, 0, 0⟩) mapped.usablePagesEnd } : State)
      = u at run
  have uEnd : u.usablePagesEnd = mapped.usablePagesEnd := by rw [← stateEq]
  have uRanges : u.ranges = mapped.ranges := by rw [← stateEq]
  have uCount : u.freePageCount = mapped.freePageCount := by rw [← stateEq]
  have empty : FreeInv u (fun _ => []) (fun _ => False) := by
    refine freeInv_empty (uEnd ▸ mappedInv.small) (by rw [← stateEq]; exact mappedInv.freelists) ?_
    intro page inside
    simp only [← stateEq] at inside ⊢
    rw [updatePages_apply, if_pos (by omega)]
    decide
  have filling : Filling u u (fun _ => []) (fun _ => False) :=
    ⟨empty, fun page => by simp [Covered], rfl, rfl, rfl⟩
  have ordered : Ordered u.usablePagesEnd lowestPage u.ranges := by
    rw [uEnd, uRanges]
    exact mappedInv.ordered
  obtain ⟨lists, filled, total⟩ := filling.ranges_loop ordered (by decide) (by simp)
  have counted : u.freePageCount = totalPages lists := by
    have nothing : totalPages (fun _ => []) = 0 := by simp [totalPages]
    rw [total, nothing, zero_add, uRanges, uCount, mappedInv.count]
  cases run
  refine ⟨lists, ?_, rfl, filled.freePageCount.trans counted, by simp, by simp, ?_, ?_⟩
  · exact filled.inv.change (fun _ => False)
      (filled.inv.links.congr (fun _ => ⟨rfl, rfl⟩) rfl) rfl
      (fun _ _ => ⟨rfl, rfl⟩) (fun _ _ => id) (fun _ _ => id) (fun _ _ _ => ⟨id, id⟩)
  · intro page
    simp [filled.ranges, filled.pages page]
  · intro page inRanges
    rw [filled.ranges] at inRanges
    have := ordered.low_le inRanges
    simp only [lowestPage] at this
    omega

theorem pmmBoot_inv {early} (run : pmmBoot boot early pageTables = some s)
    : ∃ lists, Inv s [] lists := by
  obtain ⟨first, initial, run⟩ := Option.bind_eq_some_iff.mp run
  obtain ⟨second, allocations, run⟩ := Option.bind_eq_some_iff.mp run
  exact ((pmmInitPreVmm_inv initial).allocs allocations).1.initPostVmm run

end UnstableOS.Mm.Pmm
