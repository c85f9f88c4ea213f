import UnstableOS.Kernel.DoubleLinkedList
import Mathlib.Algebra.Order.Group.Nat

/-! The kernel heap allocator of `mm/kalloc.c`.
A result of `none` is a failed `kassert`. Pointers are natural numbers and zero is `NULL`; the
links of a free block are the two words at its start. `mapPage target` tells whether the page of
a block that goes on a list is mapped already or `paging_map` maps it.
-/

namespace UnstableOS.Mm.Kalloc

open Kernel Function

def maxOrder : Nat := 25
def minOrder : Nat := 6
def norder : Nat := maxOrder - minOrder + 1
def maxAlloc : Nat := 1 <<< maxOrder
def kernelHeapBase : Nat := 0x05000000

/-- An array of `unsigned long`. -/
abbrev Bitmap := Nat → BitVec 32

/-- The static variables, and the links inside the free blocks. -/
structure State where
  usedBitmap : Bitmap
  splitBitmap : Bitmap
  buckets : Nat → Nat
  links : Links
  freeMem : Nat

def kallocPrepare : State where
  usedBitmap := fun _ => 0
  splitBitmap := fun _ => 0
  buckets := update (fun _ => 0) (norder - 1) kernelHeapBase
  links := ⟨fun _ => 0, update (fun _ => 0) kernelHeapBase kernelHeapBase⟩
  freeMem := 1 <<< maxOrder

def bmGet (bm : Bitmap) (idx : Nat) : Bool := bm (idx / 32) &&& (1#32 <<< (idx % 32)) != 0

def bmSet (bm : Bitmap) (idx : Nat) (val : Bool) : Bitmap :=
  update bm (idx / 32) ((bm (idx / 32) &&& ~~~(1#32 <<< (idx % 32)))
      ||| ((if val then 1#32 else 0#32) <<< (idx % 32)))

/-- The new bitmap, and the new value of the bit. -/
def bmToggle (bm : Bitmap) (idx : Nat) : Bitmap × Bool :=
  let bm := update bm (idx / 32) (bm (idx / 32) ^^^ (1#32 <<< (idx % 32)))
  (bm, bm (idx / 32) &&& (1#32 <<< (idx % 32)) != 0)

/-- Pointers below the heap are not considered. -/
def getIdxInLvl (block order : Nat) : Nat :=
  (block - kernelHeapBase) / ((1 <<< maxOrder) / (1 <<< (norder - 1 - order)))

def getIdx (block order : Nat) : Nat :=
  (1 <<< (norder - 1 - order)) - 1 + getIdxInLvl block order

/-- The loop of `get_order`, on the number of orders still to try. -/
def findSplit (s : State) (block : Nat) : Nat → Nat → Nat
  | 0, _ => norder - 1
  | left + 1, i =>
    if bmGet s.splitBitmap (getIdx block (i + 1)) then i else findSplit s block left (i + 1)

variable (s : State)

def getOrder (block : Nat) : Nat := findSplit s block (norder - 1) 0

def toggleUsed (idx : Nat) : State :=
  { s with usedBitmap := (bmToggle s.usedBitmap idx).1 }

def splitBlock (block order : Nat) : State :=
  let s := if order < norder - 1 then toggleUsed s (getIdx block (order + 1)) else s
  { s with splitBitmap := bmSet s.splitBitmap (getIdx block order) true }

def appendBlock (block order : Nat) : State :=
  let result := appendDoubleLinkedList s.links block (s.buckets order)
  { s with links := result.1, buckets := update s.buckets order result.2 }

def unlinkBlock (block order : Nat) : State :=
  let result := unlinkDoubleLinkedList s.links block (s.buckets order)
  { s with links := result.1, buckets := update s.buckets order result.2 }

/-- The first block of a bucket leaves it. -/
def popBlock (order : Nat) : State :=
  let block := s.buckets order
  let next := s.links.next block
  { s with
    links :=
      if next ≠ 0 then
        { s.links with prev := update s.links.prev next (s.links.prev block) }
      else s.links
    buckets := update s.buckets order next }

/-- The order `kalloc` looks for, before the smallest order is subtracted. -/
def sizeOrder (size : Nat) : Nat :=
  let order := Nat.log2 size
  let order := if size &&& (1 <<< order - 1) ≠ 0 then order + 1 else order
  max order minOrder

/-- Subtraction from the unsigned count of free bytes. -/
def subFreeMem (bytes : Nat) : State :=
  { s with freeMem := (s.freeMem + (2 ^ 32 - bytes)) % 2 ^ 32 }

def addFreeMem (bytes : Nat) : State :=
  { s with freeMem := (s.freeMem + bytes) % 2 ^ 32 }

/-- What follows the label `ret`. The bytes of the block are mapped there as well. -/
def finishAlloc (block order : Nat) : State :=
  let s := if order < norder - 1 then toggleUsed s (getIdx block (order + 1)) else s
  subFreeMem s (1 <<< (order + minOrder))

/-- The inner loop of `kalloc`, from order `order + excess` down to `order`. -/
def splitDown (mapPage : Nat → Bool) (block order : Nat) : Nat → State → Option State
  | 0, s => some s
  | excess + 1, s =>
    let j := order + excess + 1
    let s := splitBlock s block j
    let tgt := block + 1 <<< (minOrder + j - 1)
    if mapPage tgt then splitDown mapPage block order excess (appendBlock s tgt (j - 1)) else none

/-- The outer loop of `kalloc`, on the number of buckets still to try. -/
def allocLarger (mapPage : Nat → Bool) (order : Nat) : Nat → Nat → State → Option (Nat × State)
  | 0, _, s => some (0, s)
  | left + 1, i, s =>
    if s.buckets i = 0 then allocLarger mapPage order left (i + 1) s
    else
      let block := s.buckets i
      (splitDown mapPage block order (i - order) (popBlock s i)).map fun s =>
        (block, finishAlloc s block order)

def kalloc (mapPage : Nat → Bool) (s : State) (size : Nat) : Option (Nat × State) :=
  if size = 0 ∨ maxAlloc < size then some (0, s)
  else
    let order := sizeOrder size - minOrder
    if s.buckets order ≠ 0 then
      some (s.buckets order, finishAlloc (popBlock s order) (s.buckets order) order)
    else allocLarger mapPage order (norder - order) order s

/-- The block goes on its bucket. The whole merged block is added to the count of free bytes. -/
def finishFree (block order : Nat) : State :=
  addFreeMem (appendBlock s block order) (1 <<< (order + minOrder))

/-- The loop of `kfree`, on the number of orders from `i` on. -/
def mergeUp : Nat → State → Nat → Nat → Option State
  | 0, _, _, _ => none
  | left + 1, s, p, i =>
    if norder - 1 ≤ i then some (finishFree s p i)
    else
      let toggled := bmToggle s.usedBitmap (getIdx p (i + 1))
      let s := { s with usedBitmap := toggled.1 }
      if toggled.2 then some (finishFree s p i)
      else
        let s := { s with splitBitmap := bmSet s.splitBitmap (getIdx p (i + 1)) false }
        if getIdxInLvl p i % 2 = 1 then
          let p := p - 1 <<< (minOrder + i)
          mergeUp left (unlinkBlock s p i) p (i + 1)
        else mergeUp left (unlinkBlock s (p + 1 <<< (minOrder + i)) i) p (i + 1)

def kfree (p : Nat) : Option State :=
  if p = 0 then some s
  else if (p - kernelHeapBase) % 2 ^ minOrder ≠ 0 then none
  else
    let order := getOrder s p
    if (p - kernelHeapBase) % 2 ^ (minOrder + order) ≠ 0 then none
    else mergeUp (norder - order) s p order

end UnstableOS.Mm.Kalloc
