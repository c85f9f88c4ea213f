import UnstableOS.Fs.Ext2.Calls

/-! Every run of `ext2_allocate` and `ext2_free` on a mounted image.
A number is live from the call that returns it, or from before the mount, until it is freed.
-/

namespace UnstableOS.Fs.Ext2

open Nat Set

structure Mount where
  fs : State
  live : Set (Kind × ℕ)

inductive Step (geo : Geometry) (allowed : State → ℤ → Kind → Prop) : Mount → Mount → Prop where
  | fails {fs fs' : State} {live : Set (Kind × ℕ)} {k : Kind} {ideal : ℤ} {fuel : ℕ}
      (permitted : allowed fs ideal k) (result : ext2Allocate geo fuel fs ideal k = some (fs', 0))
      : Step geo allowed ⟨fs, live⟩ ⟨fs', live⟩
  | allocate {fs fs' : State} {live : Set (Kind × ℕ)} {k : Kind} {ideal : ℤ} {fuel number : ℕ}
      (permitted : allowed fs ideal k)
      (result : ext2Allocate geo fuel fs ideal k = some (fs', number)) (nonzero : number ≠ 0)
      : Step geo allowed ⟨fs, live⟩ ⟨fs', insert (k, number) live⟩
  | free {fs : State} {live : Set (Kind × ℕ)} {k : Kind} {number : ℕ} (isLive : (k, number) ∈ live)
      : Step geo allowed ⟨fs, live⟩ ⟨ext2Free geo fs number k, live \ {(k, number)}⟩

def Run (geo : Geometry) (allowed : State → ℤ → Kind → Prop) : Mount → Mount → Prop :=
  Relation.ReflTransGen (Step geo allowed)

/-- The live numbers are numbers of the filesystem whose bits are set. The first object, which the
format reserves, is not one of them.
-/
structure Mounted (geo : Geometry) (objects : Kind → ℕ) (m : Mount) : Prop where
  agree : Consistent geo objects m.fs
  inside : ∀ k number, (k, number) ∈ m.live → InsideFs geo objects k number
  notFirst : ∀ k number, (k, number) ∈ m.live → objectOf geo k number ≠ 0
  isMarked : ∀ k number, (k, number) ∈ m.live → marked geo m.fs k number = true

variable {geo : Geometry} {objects : Kind → ℕ} {m m' : Mount} {s s' : State} {k : Kind}
  {g idx : ℕ}

variable {live : Set (Kind × ℕ)}

theorem CacheMove.mounted (move : CacheMove geo s s') (mounted : Mounted geo objects ⟨s, live⟩)
    : Mounted geo objects ⟨s', live⟩ where
  agree := move.consistent mounted.agree
  inside := mounted.inside
  notFirst := mounted.notFirst
  isMarked := by
    intro k number isLive
    rw [marked, move.used_eq]
    exact mounted.isMarked k number isLive

theorem Claim.mounted (claim : Claim geo s s' k g idx) (mounted : Mounted geo objects ⟨s, live⟩)
    : Mounted geo objects
        ⟨s'.takeSbFree k, insert (k, g * geo.perGroup k + idx + k.resultOffset geo) live⟩ := by
  have agree := mounted.agree
  obtain ⟨_, inside, after, notFirst⟩ := claim.number_spec agree
  refine ⟨claim.consistent agree, ?_, ?_, ?_⟩
  · intro k' number isLive
    rcases mem_insert_iff.mp isLive with same | old
    · cases same
      exact inside
    · exact mounted.inside k' number old
  · intro k' number isLive
    rcases mem_insert_iff.mp isLive with same | old
    · cases same
      exact notFirst
    · exact mounted.notFirst k' number old
  · intro k' number isLive
    by_cases same : (k', number) = (k, g * geo.perGroup k + idx + k.resultOffset geo)
    · cases same
      exact after
    · have old := mem_of_mem_insert_of_ne isLive same
      have kept := claim.marked_eq agree.layout (mounted.inside k' number old) same
      exact kept.trans (mounted.isMarked k' number old)

theorem Mounted.free {number}
    (mounted : Mounted geo objects ⟨s, live⟩) (isLive : (k, number) ∈ live)
    : Mounted geo objects ⟨ext2Free geo s number k, live \ {(k, number)}⟩ := by
  have agree := mounted.agree
  have inside := mounted.inside k number isLive
  have notFirst := mounted.notFirst k number isLive
  have release := ext2Free_releases agree inside notFirst (mounted.isMarked k number isLive)
  have object := div_add_mod' (objectOf geo k number) (geo.perGroup k)
  refine ⟨release.consistent agree ?_ (object.symm ▸ inside.object), ?_, ?_, ?_⟩
  · intro first
    obtain ⟨group, index⟩ := Prod.mk.inj first
    rw [group, index, Nat.zero_mul] at object
    exact notFirst object.symm
  · exact fun k' number' kept => mounted.inside k' number' kept.1
  · exact fun k' number' kept => mounted.notFirst k' number' kept.1
  · intro k' number' kept
    have apart : (k', number') ≠ (k, objectOf geo k number / geo.perGroup k * geo.perGroup k
        + objectOf geo k number % geo.perGroup k + k.resultOffset geo) := by
      rw [object, objectOf, Nat.sub_add_cancel inside.offset]
      exact kept.2
    have layout := agree.layout.congr release.bitmapBlock
    have same := release.more.marked_eq layout (mounted.inside k' number' kept.1) apart
    exact same.symm.trans (mounted.isMarked k' number' kept.1)

theorem Step.mounted (step : Step geo (SafeAllocate geo) m m') (mounted : Mounted geo objects m)
    : Mounted geo objects m' := by
  cases step with
  | fails permitted result =>
    rcases ext2Allocate_allocated mounted.agree permitted result with
      ⟨_, move⟩ | ⟨g, idx, s₁, claim, _, zero⟩
    · exact move.mounted mounted
    · have nonzero := mounted.agree.object_ne_zero claim.before
      omega
  | allocate permitted result nonzero =>
    rcases ext2Allocate_allocated mounted.agree permitted result with
      ⟨zero, _⟩ | ⟨g, idx, s₁, claim, rfl, rfl⟩
    · exact absurd zero nonzero
    · exact claim.mounted mounted
  | free isLive => exact mounted.free isLive

theorem Run.mounted {m₀} (start : Mounted geo objects m₀) (run : Run geo (SafeAllocate geo) m₀ m)
    : Mounted geo objects m := by
  induction run with
  | refl => exact start
  | tail _ step ih => exact step.mounted ih

/-- In every run of safe calls the counters are the numbers of clear bits, and a number that
`ext2_allocate` returns was free, is inside the filesystem, has its bit set and was not live.
-/
theorem safe_run_allocates {m₀ : Mount} (start : Mounted geo objects m₀)
    (run : Run geo (SafeAllocate geo) m₀ m)
    : (∀ k, ∀ g < geo.blockGroups, m.fs.groupFree k g = groupClear geo m.fs k g)
      ∧ (∀ k, m.fs.sbFree k = totalClear geo m.fs k)
      ∧ ∀ k ideal fuel fs' number, SafeAllocate geo m.fs ideal k
        → ext2Allocate geo fuel m.fs ideal k = some (fs', number) → number ≠ 0
        → marked geo m.fs k number = false ∧ InsideFs geo objects k number
          ∧ marked geo fs' k number = true ∧ (k, number) ∉ m.live := by
  have mounted := run.mounted start
  refine ⟨mounted.agree.groupCounter, mounted.agree.sbCounter, ?_⟩
  intro k ideal fuel fs' number safe result nonzero
  rcases ext2Allocate_allocated mounted.agree safe result with
    ⟨zero, _⟩ | ⟨g, idx, s₁, claim, rfl, rfl⟩
  · exact absurd zero nonzero
  obtain ⟨before, inside, after, _⟩ := claim.number_spec mounted.agree
  refine ⟨before, inside, after, ?_⟩
  intro isLive
  rw [mounted.isMarked k _ isLive] at before
  cases before

/-- A volume of one group with 256 blocks and 32 inodes. -/
def smallSuperblock : Superblock where
  magic := ext2Magic
  total := fun k => if k = .inode then 32 else 256
  free := fun k => if k = .inode then 21 else 250
  perGroup := fun k => if k = .inode then 32 else 256
  reservedBlocks := 12
  blockSizeShift := 2
  fragmentSizeShift := 2
  inodeSize := 128
  firstNonresvInode := 11
  versionMajor := 1
  versionMinor := 0
  unsupported := false
  readOnly := false

def smallGeometry : Geometry := ⟨4096, 1, smallSuperblock.perGroup⟩

/-- Blocks 0 to 5 and inodes 1 to 11 are in use. -/
def smallImage : State where
  bitmapBlock := fun k _ => if k = .inode then 3 else 2
  groupFree := fun k g => if g = 0 then smallSuperblock.free k else 0
  word := fun a => if a = 3072 then 0x7FF#32 else if a = 2048 then 0x3F#32 else 0#32
  sbFree := smallSuperblock.free
  lookaside := fun _ _ => 0
  lookasideTail := fun _ => 0
  freed := fun _ _ => 0
  freedTail := fun _ => 0
  lastVisited := 0

def smallMount : Mount := ⟨(ext2ReplenishCache smallGeometry smallImage .block).1, {(.inode, 11)}⟩

theorem smallImage_init
    : ext2Init smallSuperblock smallImage.bitmapBlock smallImage.groupFree smallImage.word
      = some (smallGeometry, smallMount.fs) :=
  rfl

theorem smallImage_consistent
    : Consistent smallGeometry smallSuperblock.total smallImage := by
  have single {k g idx} (inGroup : InGroup smallGeometry k g idx)
      : g = 0 ∧ idx < smallSuperblock.perGroup k :=
    ⟨lt_one_iff.mp inGroup.group, inGroup.index⟩
  refine {
    layout := ⟨by decide, by decide, ?_, ?_, ?_, ?_, ?_⟩
    groupCounter := ?_
    sbCounter := ?_
    inside := ?_
    first := ?_
    cached := fun k i small => absurd small (not_lt_zero i)
  }
  · intro k
    cases k <;> decide
  · intro k
    cases k <;> decide
  · intro k
    cases k <;> decide
  · intro k g idx inGroup
    have small := (single inGroup).2
    cases k <;> simp [smallSuperblock, smallImage, smallGeometry] at small ⊢ <;> omega
  · intro k g idx k' g' idx' inGroup inGroup' same
    obtain ⟨rfl, small⟩ := single inGroup
    obtain ⟨rfl, small'⟩ := single inGroup'
    cases k <;> cases k' <;>
      simp [bitmapStart, smallSuperblock, smallImage, smallGeometry] at small small' same ⊢ <;>
      omega
  · intro k g group
    obtain rfl : g = 0 := lt_one_iff.mp group
    cases k <;> decide +kernel
  · intro k
    cases k <;> decide +kernel
  · intro k g idx inGroup _
    obtain ⟨rfl, small⟩ := single inGroup
    rw [Nat.zero_mul, Nat.zero_add]
    exact small
  · intro k
    cases k <;> decide

theorem smallMount_mounted : Mounted smallGeometry smallSuperblock.total smallMount := by
  refine ext2ReplenishCache_move.mounted ⟨smallImage_consistent, ?_, ?_, ?_⟩
  · intro k number isLive
    cases mem_singleton_iff.mp isLive
    exact ⟨by decide, by decide, by decide⟩
  · intro k number isLive
    cases mem_singleton_iff.mp isLive
    decide
  · intro k number isLive
    cases mem_singleton_iff.mp isLive
    decide

/-- A block is allocated and an inode is freed. -/
def laterMount : Mount :=
  ⟨ext2Free smallGeometry ((ext2Allocate smallGeometry 1 smallMount.fs 5 .block).get rfl).1 11
      .inode,
    insert (.block, 6) {(.inode, 11)} \ {(.inode, 11)}⟩

theorem laterMount_run : Run smallGeometry (SafeAllocate smallGeometry) smallMount laterMount := by
  have safe : SafeAllocate smallGeometry smallMount.fs 5 .block :=
    ⟨by decide, by decide, by unfold WindowOk; decide⟩
  have result : ext2Allocate smallGeometry 1 smallMount.fs 5 .block = some (_, 6) := rfl
  exact .tail (.single (.allocate safe result (by decide))) (.free (by simp))

/-- The next block is the one behind the first. -/
theorem safe_run_allocates_second_block
    : ext2Init smallSuperblock smallImage.bitmapBlock smallImage.groupFree smallImage.word
        = some (smallGeometry, smallMount.fs)
      ∧ Run smallGeometry (SafeAllocate smallGeometry) smallMount laterMount
      ∧ ∃ fs', ext2Allocate smallGeometry 1 laterMount.fs 5 .block = some (fs', 7)
        ∧ marked smallGeometry laterMount.fs .block 7 = false
        ∧ marked smallGeometry fs' .block 7 = true ∧ (.block, 7) ∉ laterMount.live := by
  have safe : SafeAllocate smallGeometry laterMount.fs 5 .block :=
    ⟨by decide, by decide, by unfold WindowOk; decide⟩
  have result : ext2Allocate smallGeometry 1 laterMount.fs 5 .block = some (_, 7) := rfl
  obtain ⟨before, _, after, fresh⟩ := (safe_run_allocates smallMount_mounted laterMount_run).2.2
    .block 5 1 _ 7 safe result (by decide)
  exact ⟨smallImage_init, laterMount_run, _, result, before, after, fresh⟩

/-- Inode 11 is freed, and the next allocation near it returns inode 1, which is in use: the list of
recently freed objects is read after its elements have moved.
-/
theorem allocate_after_free_returns_used
    : ext2Init smallSuperblock smallImage.bitmapBlock smallImage.groupFree smallImage.word
        = some (smallGeometry, smallMount.fs)
      ∧ Mounted smallGeometry smallSuperblock.total smallMount
      ∧ ∃ m fs', Run smallGeometry (fun _ _ _ => True) smallMount m
        ∧ ext2Allocate smallGeometry 1 m.fs 10 .inode = some (fs', 1)
        ∧ marked smallGeometry m.fs .inode 1 = true := by
  refine ⟨smallImage_init, smallMount_mounted, ⟨ext2Free smallGeometry smallMount.fs 11 .inode, _⟩,
    _, .single (.free (mem_singleton _)), rfl, ?_⟩
  decide

end UnstableOS.Fs.Ext2
