import Mathlib.Algebra.Ring.Int.Defs
import Mathlib.Algebra.Ring.Nat

/-! The allocator of blocks and inodes, from `fs/ext2/alloc.c`.
The device is the table of group descriptors and, by their offset, the 32-bit words of the bitmaps;
reads and writes succeed. An array of `struct ext2_metadata` is a function with its tail. What the
source selects by `get_inode` is indexed by the kind.
-/

namespace UnstableOS.Fs.Ext2

open Function

inductive Kind where
  | inode
  | block
deriving DecidableEq, Repr

def bgroupLocality : ℕ := 4
def lookasideBufferLen : ℕ := 128
def lastBufferLen : ℕ := 64
def maxReplenishmentCount : ℕ := 4
def maxDistance : ℕ := 40

/-- The parts of the superblock and the metadata that the allocator does not change. -/
structure Geometry where
  blockSize : ℕ
  blockGroups : ℕ
  perGroup : Kind → ℕ

structure State where
  bitmapBlock : Kind → ℕ → ℕ
  groupFree : Kind → ℕ → ℕ
  word : ℕ → BitVec 32
  sbFree : Kind → ℕ
  lookaside : Kind → ℕ → ℕ
  lookasideTail : Kind → ℕ
  freed : Kind → ℕ → ℕ
  freedTail : Kind → ℕ
  lastVisited : ℕ

variable (s : State)

/-- The descriptor's counter of free objects has 16 bits. -/
def State.setGroupFree (k : Kind) (g value : ℕ) : State :=
  { s with
    groupFree :=
      update s.groupFree k (update (s.groupFree k) g (value % 2 ^ 16)) }

/-- The superblock's counter of free objects has 32 bits. -/
def State.setSbFree (k : Kind) (value : ℕ) : State :=
  { s with sbFree := update s.sbFree k (value % 2 ^ 32) }

def State.setWord (a : ℕ) (value : BitVec 32) : State :=
  { s with word := update s.word a value }

def State.setLookaside (k : Kind) (list : ℕ → ℕ) (tail : ℕ) : State :=
  { s with
    lookaside := update s.lookaside k list
    lookasideTail := update s.lookasideTail k tail }

def State.setFreed (k : Kind) (list : ℕ → ℕ) (tail : ℕ) : State :=
  { s with
    freed := update s.freed k list
    freedTail := update s.freedTail k tail }

/-- `meta->sb.free_inodes--` or `meta->sb.free_blocks--`. -/
def State.takeSbFree (k : Kind) : State := s.setSbFree k (s.sbFree k + (2 ^ 32 - 1))

variable (geo : Geometry)

/-- The position of a word of a bitmap, whose offset in bytes is computed with 32 bits. -/
def wordAt (s : State) (k : Kind) (g w : ℕ) : ℕ :=
  (s.bitmapBlock k g * geo.blockSize + w * 4) % 2 ^ 32 / 4

/-- The descriptor at `bgroup * sizeof(bgd)`, which has 32 bits too. -/
def descriptor (bgroup : ℕ) : ℕ := bgroup % 2 ^ 27

/-- Removing the element `i` by a `memcpy` of the following ones. -/
def shiftDown (len : ℕ) (list : ℕ → ℕ) (i : ℕ) : ℕ → ℕ :=
  fun j => if i ≤ j ∧ j + 1 < len then list (j + 1) else list j

-- The cache of groups with free objects

/-- The group goes to the end of the list, if there is space and it has free objects. -/
def noteGroup (k : Kind) (g : ℕ) : State :=
  if s.lookasideTail k < lookasideBufferLen ∧ s.groupFree k g ≠ 0 then
    s.setLookaside k (update (s.lookaside k) (s.lookasideTail k) g) (s.lookasideTail k + 1)
  else s

/-- The loop of `ext2_replenish_cache` on the number of groups that are left. The result has the
number of groups found, or nothing if the list is full.
-/
def replenishLoop (geo : Geometry) (k : Kind) : ℕ → State → ℕ → ℕ → State × Option ℕ
  | 0, s, found, _ => (s, some found)
  | left + 1, s, found, lastMatch =>
    if maxReplenishmentCount ≤ found ∨ (found ≠ 0 ∧ maxDistance ≤ lastMatch) then (s, some found)
    else if lookasideBufferLen ≤ s.lookasideTail k then (s, none)
    else
      let g := s.lastVisited
      let next := fun (s : State) => { s with lastVisited := g + 1 }
      if s.groupFree .inode g = 0 ∧ s.groupFree .block g = 0 then
        replenishLoop geo k left (next s) found (lastMatch + 1)
      else
        let s := noteGroup (noteGroup s .inode g) .block g
        replenishLoop geo k left (next s) (found + 1) (lastMatch + 1)

/-- One call of `ext2_replenish_cache`, and whether it ends with a call of itself or `-ENOSPC`. -/
inductive Replenished where
  | done
  | noSpace
  | again
deriving DecidableEq, Repr

def replenishOnce (geo : Geometry) (s : State) (k : Kind) : State × Replenished :=
  if lookasideBufferLen ≤ s.lookasideTail k then (s, .done)
  else
    let original := s.lastVisited
    match replenishLoop geo k (geo.blockGroups - s.lastVisited) s 0 0 with
    | (s, none) => (s, .done)
    | (s, some found) =>
      if found = 0 ∧ original = 0 then (s, .noSpace)
      else
        let s := if geo.blockGroups ≤ s.lastVisited then { s with lastVisited := 0 } else s
        (s, if found = 0 then .again else .done)

/-- After the first call the last visited group is 0 if nothing was found, so the second call is the
last one.
-/
def ext2ReplenishCache (s : State) (k : Kind) : State × Replenished :=
  match replenishOnce geo s k with
  | (s, .again) => replenishOnce geo s k
  | result => result

-- Allocation

/-- The number of the lowest bit that is set. -/
def builtinCtzl (x : BitVec 32) : ℕ := ((List.range 32).find? fun b => x.getLsbD b).getD 32

/-- The inner loop of `ext2_allocate_from_bgroup`, over the words of one buffer. -/
def scanWords (word : ℕ → BitVec 32) (limit i : ℕ) : ℕ → ℕ → Option ℕ
  | 0, _ => none
  | left + 1, j =>
    if limit ≤ i + j * 32 then none
    else if word (i / 32 + j) = 0xFFFFFFFF#32 then scanWords word limit i left (j + 1)
    else
      let num := builtinCtzl (~~~ word (i / 32 + j))
      if limit ≤ i + j * 32 + num then none else some (i + j * 32 + num)

/-- The outer loop, over buffers of 128 words. -/
def scanBitmap (word : ℕ → BitVec 32) (limit : ℕ) : ℕ → ℕ → Option ℕ
  | 0, _ => none
  | fuel + 1, i =>
    if limit ≤ i then none
    else
      match scanWords word limit i 128 0 with
      | some idx => some idx
      | none => scanBitmap word limit fuel (i + 128 * 32)

def ext2AllocateFromBgroup (s : State) (k : Kind) (bgroup : ℕ) : State × ℕ :=
  let g := descriptor bgroup
  if s.groupFree k g = 0 then (s, 0)
  else
    let limit := geo.perGroup k
    match scanBitmap (fun w => s.word (wordAt geo s k g w)) limit (limit + 1) 0 with
    | some idx =>
      let a := wordAt geo s k g (idx / 32)
      let s := s.setWord a (s.word a ||| 1#32 <<< (idx % 32))
      (s.setGroupFree k g (s.groupFree k g - 1), (bgroup * limit + idx) % 2 ^ 32)
    -- the group was incorrectly marked as having free objects
    | none => (s.setGroupFree k g 0, 0)

def Kind.resultOffset : Kind → ℕ
  | .inode => 1
  | .block => if 1024 < geo.blockSize then 0 else 1

def Kind.freedLocality : Kind → ℕ
  | .inode => bgroupLocality * geo.perGroup .inode % 2 ^ 32
  | .block => bgroupLocality

/-- `ino_abs(a - b) < locality`. -/
def isNear (a b : ℤ) (locality : ℕ) : Bool := (a - b).natAbs < locality

/-- The first position below the tail whose element is near the target. -/
def firstNear (list : ℕ → ℕ) (tail : ℕ) (target : ℤ) (locality : ℕ) : Option ℕ :=
  (List.range tail).find? fun i => isNear (list i) target locality

/-- The scan of the groups around the ideal one. -/
def scanGroups (geo : Geometry) (k : Kind) : List ℕ → State → State × ℕ
  | [], s => (s, 0)
  | g :: rest, s =>
    match ext2AllocateFromBgroup geo s k g with
    | (s, 0) => scanGroups geo k rest s
    | (s, ret) => (s, ret)

/-- The inner loop of the last part of `ext2_allocate`, which empties the list. -/
def drainLookaside (geo : Geometry) (k : Kind) : ℕ → State → State × ℕ
  | 0, s => (s, 0)
  | left + 1, s =>
    let (s, ret) := ext2AllocateFromBgroup geo s k (s.lookaside k left)
    let s := s.setLookaside k (s.lookaside k) left
    if ret ≠ 0 then (s, ret) else drainLookaside geo k left s

/-- The outer loop; `none` if it does not end in the given number of rounds. -/
def searchAll (geo : Geometry) (k : Kind) : ℕ → State → Option (State × ℕ)
  | 0, _ => none
  | fuel + 1, s =>
    match ext2ReplenishCache geo s k with
    | (s, .noSpace) => some (s, 0)
    | (s, _) =>
      let (s, ret) := drainLookaside geo k (s.lookasideTail k) s
      if ret ≠ 0 then some (s.takeSbFree k, (ret + k.resultOffset geo) % 2 ^ 32)
      else searchAll geo k fuel s

/-- The quotient of the signed number, cut to 32 bits. -/
def idealBgroup (idealLocality : ℤ) (k : Kind) : ℕ :=
  ((idealLocality.tdiv (geo.perGroup k)) % 2 ^ 32).toNat

/-- The groups from four before to three after the ideal one. -/
def groupWindow (ideal : ℕ) : List ℕ :=
  let first := if bgroupLocality < ideal then ideal - bgroupLocality else 0
  (List.range ((ideal + bgroupLocality) % 2 ^ 32 - first)).map fun j => first + j

def ext2Allocate (fuel : ℕ) (s : State) (idealLocality : ℤ) (k : Kind)
    : Option (State × ℕ) :=
  let ideal := idealBgroup geo idealLocality k
  match firstNear (s.freed k) (s.freedTail k) idealLocality (k.freedLocality geo) with
  | some i =>
    let s := s.setFreed k (shiftDown lastBufferLen (s.freed k) i) (s.freedTail k - 1)
    -- the list is read after the move
    some (s.takeSbFree k, (s.freed k i + k.resultOffset geo) % 2 ^ 32)
  | none =>
    match firstNear (s.lookaside k) (s.lookasideTail k) ideal bgroupLocality with
    | some i =>
      let (s, ret) := ext2AllocateFromBgroup geo s k (s.lookaside k i)
      let s :=
        if ret = 0 then
          s.setLookaside k (shiftDown lookasideBufferLen (s.lookaside k) i) (s.lookasideTail k - 1)
        else s
      some (s.takeSbFree k, (ret + k.resultOffset geo) % 2 ^ 32)
    | none =>
      match scanGroups geo k (groupWindow ideal) s with
      | (s, 0) => searchAll geo k fuel s
      | (s, ret) => some (s.takeSbFree k, (ret + k.resultOffset geo) % 2 ^ 32)

def ext2Free (s : State) (number : ℕ) (k : Kind) : State :=
  if number = 0 then s
  else
    let object := number - k.resultOffset geo
    let limit := geo.perGroup k
    let bgroup := descriptor (object / limit)
    let a := wordAt geo s k bgroup (object % limit / 32)
    let s := s.setWord a (s.word a &&& ~~~ (1#32 <<< (object % limit % 32)))
    let s := s.setSbFree k (s.sbFree k + 1)
    let s := s.setGroupFree k bgroup (s.groupFree k bgroup + 1)
    if s.freedTail k < lastBufferLen then
      s.setFreed k (update (s.freed k) (s.freedTail k) object) (s.freedTail k + 1)
    else s

-- Mounting, from `superblock.c`

def ext2Magic : ℕ := 0xef53
def ext2MinBlocks : ℕ := 200
def ext2MinInodes : ℕ := 20
def ext2MinBlockPerGroup : ℕ := 64
def ext2MaxShift : ℕ := 8
def inodeRecordSize : ℕ := 128

/-- The fields of `struct ext2_sb` that `ext2_init` reads. The feature flags are joined: a set one
either refuses the volume or makes the mount read-only.
-/
structure Superblock where
  magic : ℕ
  total : Kind → ℕ
  free : Kind → ℕ
  perGroup : Kind → ℕ
  reservedBlocks : ℕ
  blockSizeShift : ℕ
  fragmentSizeShift : ℕ
  inodeSize : ℕ
  firstNonresvInode : ℕ
  versionMajor : ℕ
  versionMinor : ℕ
  unsupported : Bool
  readOnly : Bool

def Superblock.blockGroups (sb : Superblock) : ℕ :=
  (sb.total .block + sb.perGroup .block - 1) % 2 ^ 32 / sb.perGroup .block

/-- The volume passes the checks, in the order of the source. -/
def Superblock.accepted (sb : Superblock) : Bool :=
  sb.magic = ext2Magic
    ∧ ext2MinBlocks ≤ sb.total .block
    ∧ ext2MinInodes ≤ sb.total .inode
    ∧ ext2MinBlockPerGroup ≤ sb.perGroup .block
    ∧ sb.blockSizeShift ≤ ext2MaxShift
    ∧ sb.fragmentSizeShift ≤ ext2MaxShift
    ∧ sb.reservedBlocks < sb.total .block
    ∧ sb.total .inode < sb.total .block
    ∧ sb.total .inode / sb.perGroup .inode = sb.blockGroups
    ∧ inodeRecordSize ≤ sb.inodeSize
    ∧ sb.firstNonresvInode < sb.total .inode
    ∧ 6 ≤ sb.firstNonresvInode
    ∧ (sb.versionMajor = 0 ∨ sb.versionMajor = 1 ∧ sb.versionMinor = 0)
    ∧ sb.unsupported = false

/-- The metadata starts as zeros; a volume that can be written gets its first cached groups. -/
def ext2Init (sb : Superblock) (bitmapBlock groupFree : Kind → ℕ → ℕ) (word : ℕ → BitVec 32)
    : Option (Geometry × State) :=
  if sb.accepted then
    let geo : Geometry := ⟨1024 <<< sb.blockSizeShift, sb.blockGroups, sb.perGroup⟩
    let s : State :=
      ⟨bitmapBlock, groupFree, word, sb.free, fun _ _ => 0, fun _ => 0, fun _ _ => 0, fun _ => 0, 0⟩
    some (geo, if sb.readOnly then s else (ext2ReplenishCache geo s .block).1)
  else none

end UnstableOS.Fs.Ext2
