import UnstableOS.Lib.Dyadic
import UnstableOS.Lib.LinkedSegment

/-! The physical page allocator of `mm/pmm.c`.
A result of `none` is a failed `kassert`, which stops the kernel. Page numbers, orders and
counters are natural numbers; the bit fields of `page_info_t` truncate what is stored in them.
-/

namespace UnstableOS.Mm.Pmm

open Lib.Dyadic Function

def lowestPage : Nat := 0x10
def pmmOrderMax : Nat := 10
def orderTail : Nat := pmmOrderMax + 1
def pageSize : Nat := 0x1000
def pagesStart : Nat := 0x07000000
def pagesEnd : Nat := 0x08000000
def preVmmRangesMax : Nat := (pageSize - 4) / 8
def preVmmReservedRangesMax : Nat := 32

/-- The packed record of one physical page. -/
structure PageInfo where
  refcount : Nat
  freeNext : Nat
  freePrev : Nat
  order : Nat
deriving DecidableEq, Repr, Inhabited

namespace PageInfo

variable (info : PageInfo)

def setRefcount (value : Nat) : PageInfo :=
  { info with refcount := value % 2 ^ 20 }

def setFreeNext (value : Nat) : PageInfo :=
  { info with freeNext := value % 2 ^ 20 }

def setFreePrev (value : Nat) : PageInfo :=
  { info with freePrev := value % 2 ^ 20 }

def setOrder (value : Nat) : PageInfo :=
  { info with order := value % 2 ^ 4 }

end PageInfo

/-- A half-open range of page numbers. -/
structure Range where
  start : Nat
  stop : Nat
deriving DecidableEq, Repr

/-- The static variables of the allocator. -/
structure State where
  pages : Nat → PageInfo
  freelists : Nat → Nat
  usablePagesEnd : Nat
  usablePageCount : Nat
  freePageCount : Nat
  preVmm : Bool
  ranges : List Range

/-- The variables before `pmm_init_pre_vmm`, all zero. -/
def State.zero : State where
  pages := fun _ => ⟨0, 0, 0, 0⟩
  freelists := fun _ => 0
  usablePagesEnd := 0
  usablePageCount := 0
  freePageCount := 0
  preVmm := false
  ranges := []

-- The sorted range list used before paging is up

/-- The inner merge loop of `pre_vmm_insert_range`: the extended range swallows the following
ranges it now touches.
-/
def absorbRanges (range : Range) : List Range → List Range
  | [] => [range]
  | next :: rest =>
    if next.start ≤ range.stop then
      absorbRanges ⟨range.start, max range.stop next.stop⟩ rest
    else range :: next :: rest

def preVmmInsertRange (start stop : Nat) (ranges : List Range) (rangesMax : Nat)
    : Option (List Range) :=
  if stop ≤ start then some ranges
  else
    let before := ranges.takeWhile (fun range => range.stop < start)
    match ranges.dropWhile (fun range => range.stop < start) with
    | [] => if ranges.length < rangesMax then some (before ++ [⟨start, stop⟩]) else none
    | range :: rest =>
      if stop < range.start then
        if ranges.length < rangesMax then some (before ++ ⟨start, stop⟩ :: range :: rest)
        else none
      else some (before ++ absorbRanges ⟨min start range.start, max stop range.stop⟩ rest)

/-- The loop of `pre_vmm_insert_range_checked` over the reserved list: the free parts between
the reserved ranges are inserted and the start moves past each of them.
-/
def insertAroundReserved (stop : Nat) : Nat → List Range → List Range → Option (List Range)
  | start, [], ranges =>
    if start < stop then preVmmInsertRange start stop ranges preVmmRangesMax else some ranges
  | start, reserved :: rest, ranges =>
    if reserved.stop ≤ start then insertAroundReserved stop start rest ranges
    else if stop ≤ reserved.start then
      if start < stop then preVmmInsertRange start stop ranges preVmmRangesMax else some ranges
    else
      let inserted :=
        if start < reserved.start then
          preVmmInsertRange start reserved.start ranges preVmmRangesMax
        else some ranges
      inserted.bind fun ranges => insertAroundReserved stop (max start reserved.stop) rest ranges

/-- The reserved list is built anew for each range. `reserved` lists the page ranges of the
kernel image and of the boot loader's structures in the order the code inserts them, after the
fixed one from the EBDA to the BIOS.
-/
def preVmmInsertRangeChecked (start stop : Nat) (reserved : List Range) (ranges : List Range)
    : Option (List Range) :=
  let start := max start lowestPage
  if stop ≤ start then some ranges
  else do
    let avoided ← (⟨0x80, 0x100⟩ :: reserved).foldlM
      (fun found range => preVmmInsertRange range.start range.stop found preVmmReservedRangesMax)
      []
    insertAroundReserved stop start avoided ranges

/-- One available entry of the boot loader's memory map. -/
structure MemoryEntry where
  addr : Nat
  len : Nat
deriving DecidableEq, Repr

def pageAlignUp (address : Nat) : Nat := (address + (pageSize - 1)) / pageSize * pageSize
def pageAlignDown (address : Nat) : Nat := address / pageSize * pageSize

def pmmInsertEntry (reserved : List Range) (ranges : List Range) (entry : MemoryEntry)
    : Option (List Range) :=
  let startPage := pageAlignUp entry.addr / pageSize % 2 ^ 32
  let endPage := pageAlignDown (entry.addr + entry.len) / pageSize % 2 ^ 32
  if 2 ^ 20 < startPage then some ranges
  else preVmmInsertRangeChecked startPage (min endPage (2 ^ 20)) reserved ranges

/-- What the boot loader hands over: the available memory map entries and the ranges to avoid. -/
structure BootInfo where
  entries : List MemoryEntry
  reserved : List Range

def Range.pageCount (range : Range) : Nat := range.stop - range.start

def pmmInitPreVmm (boot : BootInfo) (s : State) : Option State := do
  let ranges ← boot.entries.foldlM (pmmInsertEntry boot.reserved) []
  let usablePagesEnd := ranges.foldl (fun top range => max top range.stop) s.usablePagesEnd
  let usablePageCount := ranges.foldl (fun total range => total + range.pageCount) s.usablePageCount
  some
    { s with
      preVmm := true
      ranges := ranges
      usablePagesEnd := usablePagesEnd
      usablePageCount := usablePageCount
      freePageCount := usablePageCount }

/-- The last range loses its first page; exhausted ranges are dropped on the way. The list is
stored from its end here, as the code only ever looks at the last range.
-/
def takeLastPage : List Range → Option (Nat × List Range)
  | [] => none
  | range :: earlier =>
    if range.stop ≤ range.start then takeLastPage earlier
    else some (range.start, ⟨range.start + 1, range.stop⟩ :: earlier)

variable (s : State)

def pmmPreVmmAlloc : Option (Nat × State) := do
  let (page, rest) ← takeLastPage s.ranges.reverse
  some (page, { s with ranges := rest.reverse, freePageCount := s.freePageCount - 1 })

-- Free lists

/-- `FREELIST_INSERT`. -/
def freelistInsert (block order : Nat) : State :=
  let head := s.freelists order
  let pages := update s.pages block (((s.pages block).setFreePrev 0).setFreeNext head)
  let pages := if head ≠ 0 then update pages head ((pages head).setFreePrev block) else pages
  { s with pages := pages, freelists := update s.freelists order block }

/-- The first half of `FREELIST_REMOVE`: the link that leads to the block skips it. -/
def skipBlock (block : Nat) : State :=
  let info := s.pages block
  if info.freePrev ≠ 0 then
    { s with
      pages :=
        update s.pages info.freePrev ((s.pages info.freePrev).setFreeNext info.freeNext) }
  else { s with freelists := update s.freelists info.order info.freeNext }

/-- The second half of `FREELIST_REMOVE`: the back link of the successor. -/
def backLink (block : Nat) : State :=
  let info := s.pages block
  if info.freeNext ≠ 0 then
    { s with
      pages :=
        update s.pages info.freeNext ((s.pages info.freeNext).setFreePrev info.freePrev) }
  else s

/-- `FREELIST_REMOVE`. -/
def freelistRemove (block : Nat) : State := backLink (skipBlock s block) block

/-- The first `count` records from `block` on, each rewritten from its own old value. -/
def updatePages (pages : Nat → PageInfo) (block : Nat) (write : PageInfo → PageInfo)
    : Nat → Nat → PageInfo
  | 0 => pages
  | count + 1 =>
    let done := updatePages pages block write count
    update done (block + count) (write (done (block + count)))

/-- The merge loop of `insert_free_block`; the first argument is the number of orders left
below the maximum.
-/
def coalesce : Nat → State → Nat → Nat → State × Nat × Nat
  | 0, s, block, order => (s, block, order)
  | left + 1, s, block, order =>
    let other := buddy order block
    if s.usablePagesEnd ≤ other then (s, block, order)
    else if (s.pages other).refcount ≠ 0 ∨ (s.pages other).order ≠ order then (s, block, order)
    else
      coalesce left (freelistRemove s other) (if other < block then other else block) (order + 1)

def insertFreeBlock (block order : Nat) : State :=
  let (s, block, order) := coalesce (pmmOrderMax - order) s block order
  let s := freelistInsert s block order
  { s with
    pages := updatePages s.pages block (fun info => (info.setRefcount 0).setOrder order)
      (2 ^ order) }

/-- The inner loop of `insert_free_range`, on the number of orders left below the maximum. The
count of trailing zeros of the start is at least the next order exactly when the next block
length divides it; a start of zero counts as having none.
-/
def highestOrder (start length : Nat) : Nat → Nat → Nat
  | 0, order => order
  | left + 1, order =>
    if start = 0 ∨ ¬ 2 ^ (order + 1) ∣ start then order
    else if length < 2 ^ (order + 1) then order
    else highestOrder start length left (order + 1)

/-- The first argument bounds the number of blocks still to insert. -/
def insertFreeRange : Nat → State → Range → State
  | 0, s, _ => s
  | fuel + 1, s, range =>
    if range.start < range.stop then
      let order := highestOrder range.start (range.stop - range.start) pmmOrderMax 0
      insertFreeRange fuel (insertFreeBlock s range.start order)
        ⟨range.start + 2 ^ order, range.stop⟩
    else s

-- The interface

/-- The search loop of `pmm_alloc`, on the number of orders still to try. -/
def findOrder (s : State) : Nat → Nat → Nat
  | 0, blockOrder => blockOrder
  | left + 1, blockOrder =>
    if s.freelists blockOrder ≠ 0 then blockOrder else findOrder s left (blockOrder + 1)

/-- The split loop of `pmm_alloc`, from order `order + excess` down to `order`. -/
def splitBlock (block order : Nat) : Nat → State → Option State
  | 0, s => some s
  | excess + 1, s =>
    let blockOrder := order + excess
    let other := block + 2 ^ blockOrder
    if ∀ i < 2 ^ blockOrder, (s.pages (other + i)).refcount = 0 then
      let pages := updatePages s.pages other (fun info => info.setOrder blockOrder) (2 ^ blockOrder)
      splitBlock block order excess (freelistInsert { s with pages := pages } other blockOrder)
    else none

/-- The page records of a block handed out: its head, then its tail pages. -/
def markAllocated (pages : Nat → PageInfo) (block order : Nat) : Nat → PageInfo :=
  let pages := update pages block (((pages block).setRefcount 1).setOrder order)
  updatePages pages (block + 1) (fun info => (info.setOrder orderTail).setRefcount block)
    (2 ^ order - 1)

def pmmAlloc (order : Nat) : Option (Nat × State) :=
  if s.preVmm then
    if order = 0 then pmmPreVmmAlloc s else none
  else if pmmOrderMax < order then none
  else
    let blockOrder := findOrder s (pmmOrderMax + 1 - order) order
    if pmmOrderMax < blockOrder then some (0, s)
    else do
      let block := s.freelists blockOrder
      let s ← splitBlock block order (blockOrder - order) (freelistRemove s block)
      some (block,
        { s with
          pages := markAllocated s.pages block order
          freePageCount := s.freePageCount - 2 ^ order })

def pmmFree (pageNum : Nat) : Option State :=
  if s.preVmm then none
  else if pageNum = 0 then some s
  else if s.usablePagesEnd ≤ pageNum then none
  else
    let info := s.pages pageNum
    if info.refcount = 0 ∨ info.order = orderTail then none
    else
      let s := { s with
        pages := update s.pages pageNum (info.setRefcount (info.refcount - 1)) }
      if (s.pages pageNum).refcount = 0 then
        some (insertFreeBlock { s with freePageCount := s.freePageCount + 2 ^ info.order }
          pageNum info.order)
      else some s

def pmmRetain (pageNum : Nat) : Option State :=
  if s.preVmm then none
  else if pageNum = 0 then some s
  else if s.usablePagesEnd ≤ pageNum then none
  else
    let info := s.pages pageNum
    if info.refcount = 0 ∨ info.order = orderTail then none
    else some
      { s with pages := update s.pages pageNum (info.setRefcount (info.refcount + 1)) }

/-- A number of single-page allocations while the range list is still in use. -/
def preVmmAllocs : Nat → State → Option State
  | 0, s => some s
  | count + 1, s => do
      let (_, s) ← pmmAlloc s 0
      preVmmAllocs count s

/-- Mapping the page records takes one page for each page of records, and `pageTables` further
pages for the page tables that `paging_map_phys_addr` adds on the way.
-/
def pmmInitPostVmm (pageTables : Nat) (s : State) : Option State := do
  if ¬ s.preVmm then none
  else if pagesEnd < pagesStart + s.usablePagesEnd * 8 then none
  else
    let s ← preVmmAllocs ((s.usablePagesEnd * 8 + (pageSize - 1)) / pageSize + pageTables) s
    let s := { s with
      pages := updatePages s.pages 0 (fun _ => ⟨1, 0, 0, 0⟩) s.usablePagesEnd }
    let s := s.ranges.foldl
      (fun s range => insertFreeRange (range.stop - range.start) s range) s
    some { s with preVmm := false }

end UnstableOS.Mm.Pmm
