import UnstableOS.Fs.Fat.Name
import UnstableOS.Fs.Fat.Table
import UnstableOS.Lib.SlotScan

/-! Directories of a FAT volume, `fat_lookups.c`.
The volume is its table and the records of 32 bytes at each device offset; where an entry lies is a
multiple of 32, so two of them do not overlap. The root directory of FAT12 and FAT16 has a place of
its own, every other directory is a chain of clusters. Names are short names here.
-/

namespace UnstableOS.Fs.Fat

open Lib Slots List Nat

variable {κ : Type} [DecidableEq κ]

-- The volume

/-- The fields of `struct fat_info` that say where directories are. -/
structure Info where
  bytesPerSector : ℕ
  sectorsPerCluster : ℕ
  rootDirCluster : ℕ
  rootDirEntries : ℕ
  rootDirSector : ℕ
  dataSectorStart : ℕ
  maxChainLen : ℕ

/-- `struct fat_dir_entry`. -/
structure Dentry where
  name : ShortName
  attr : UInt8
  hi : UInt16
  lo : UInt16
  size : UInt32
deriving DecidableEq

/-- A record of zeros. -/
def Dentry.zero : Dentry := ⟨⟨List.replicate 11 0, rfl⟩, 0, 0, 0, 0⟩

variable (d : Dentry)

/-- `FAT_DENTRY_ATTR_VOLLBL`. -/
def Dentry.isLabel : Bool := d.attr &&& 0x08 ≠ 0

/-- `FAT_DENTRY_ATTR_SUBDIR`. -/
def Dentry.isDir : Bool := d.attr &&& 0x10 ≠ 0

/-- The first cluster, with the high half of FAT32 in its place. -/
def Dentry.start (type : FatType) (d : Dentry) : ℕ :=
  if type = .fat32 then d.lo.toNat ||| d.hi.toNat <<< 16 else d.lo.toNat

/-- The first cluster as `__fat_unlink`, `__fat_lookup_from_inode` and `fat_get_parent` compute it:
the high half is not shifted.
-/
def Dentry.mergedStart (type : FatType) (d : Dentry) : ℕ :=
  if type = .fat32 then d.lo.toNat ||| d.hi.toNat else d.lo.toNat

/-- `name[0] = FAT_DIR_FREE`. -/
def Dentry.freed : Dentry :=
  { d with name := ⟨d.name.bytes.set 0 dirFree, by rw [List.length_set, d.name.length_eq]⟩ }

/-- A mounted volume: whether it was mounted read-only, the driver's view of it, and the identifiers
of its inodes that are in memory.
-/
structure Volume where
  readOnly : Bool
  info : Info
  table : Table
  records : ℕ → Dentry
  inodes : List ℕ

-- Where the entries of a directory are

/-- The offset of an entry in a cluster. The number of the sector is a `size_t`. -/
def Info.clusterSlot (info : Info) (c i : ℕ) : ℕ :=
  (info.dataSectorStart + (c + 2 ^ 32 - 2) * info.sectorsPerCluster) % 2 ^ 32
    * info.bytesPerSector + i * 32

def Info.slotCount (info : Info) : ℕ := info.bytesPerSector * info.sectorsPerCluster / 32

def Info.clusterSlots (info : Info) (c : ℕ) : List ℕ :=
  (List.range info.slotCount).map (info.clusterSlot c)

/-- The entries of the root directory of FAT12 and FAT16. -/
def Info.rootSlots (info : Info) : List ℕ :=
  (List.range info.rootDirEntries).map fun i =>
    (info.rootDirSector * info.bytesPerSector + i * 32) % 2 ^ 32

-- Searches

/-- How the search of some entries ends. -/
inductive Scan where
  | found (off : ℕ)
  | ended
  | onward

/-- The loop over entries that all searches have, for a name or for a first cluster. -/
def Volume.scanSlots (v : Volume) (key : Dentry → κ) (wanted : κ) : List ℕ → Scan
  | [] => .onward
  | off :: rest =>
    if (v.records off).name.first = dirFree then v.scanSlots key wanted rest
    else if (v.records off).name.first = dirEnd then .ended
    else if (v.records off).isLabel then v.scanSlots key wanted rest
    else if key (v.records off) = wanted then .found off
    else v.scanSlots key wanted rest

/-- The loop of `fat_lookup_cluster_generic`, with the number of clusters it still visits. -/
def Volume.searchFrom (v : Volume) (key : Dentry → κ) (wanted : κ) : ℕ → ℕ → Result ℕ
  | 0, _ => .error (.errno .enoent)
  | visits + 1, c =>
    if c < v.table.type.limit then
      match v.scanSlots key wanted (v.info.clusterSlots c) with
      | .found off => .ok off
      | .ended => .error (.errno .enoent)
      | .onward =>
        match v.table.nextInChain c with
        | .error fail => .error fail
        | .ok next =>
          if next < 2 ∨ next = noCluster then .error (.errno .eio)
          else v.searchFrom key wanted visits next
    else .error (.errno .enoent)

variable (v : Volume)

/-- `fat_lookup_cluster_generic`. -/
def Volume.lookupClusterGeneric (name : ShortName) (dirCluster : ℕ) : Result ℕ :=
  v.searchFrom Dentry.name name v.info.maxChainLen dirCluster

/-- The loop over the root directory of FAT12 and FAT16. -/
def Volume.searchRoot (key : Dentry → κ) (wanted : κ) : Result ℕ :=
  match v.scanSlots key wanted v.info.rootSlots with
  | .found off => .ok off
  | .ended => .error (.errno .enoent)
  | .onward => .error (.errno .enoent)

/-- The name `..`. -/
def dotDot : ShortName := ⟨[dot, dot] ++ List.replicate 9 32, rfl⟩

/-- The low half of the first cluster. -/
def Dentry.low : ℕ := d.lo.toNat

/-- `fat_get_parent`. Its last loop has no high halves, as it compares `sb->fs_type`, which is
`FS_fat`, with `FAT32`; and it begins at the number that the entry has, which is 0 for the root
directory of FAT32.
-/
def Volume.getParent (dentry : ℕ) : Result ℕ :=
  if dentry = 0 then .ok 0
  else
    match v.lookupClusterGeneric dotDot ((v.records dentry).mergedStart v.table.type) with
    | .error fail => .error fail
    | .ok up =>
      let parentCluster := (v.records up).mergedStart v.table.type
      if parentCluster = 0 then .ok 0
      else
        match v.lookupClusterGeneric dotDot parentCluster with
        | .error fail => .error fail
        | .ok grand =>
          if (v.records grand).mergedStart v.table.type = 0
              ∧ (v.table.type = .fat32 → v.info.rootDirCluster = 0) then
            v.searchRoot Dentry.low parentCluster
          else
            v.searchFrom Dentry.low parentCluster v.info.maxChainLen (v.records grand).low

-- What a directory shows

/-- What a search makes of an entry. -/
def Dentry.markBy (key : Dentry → κ) : Mark κ :=
  if d.name.first = dirFree then .free
  else if d.name.first = dirEnd then .last
  else if d.isLabel then .other
  else .named (key d)

def Dentry.mark : Mark ShortName := d.markBy Dentry.name

def Volume.markBy (key : Dentry → κ) (off : ℕ) : Mark κ := (v.records off).markBy key

def Volume.mark : ℕ → Mark ShortName := v.markBy Dentry.name

/-- The entries in the clusters that follow one another from `c` on. -/
def Volume.reach (v : Volume) : ℕ → ℕ → List ℕ
  | 0, _ => []
  | visits + 1, c =>
    if c < v.table.type.limit then
      v.info.clusterSlots c ++
        match v.table.nextInChain c with
        | .error _ => []
        | .ok next => if next < 2 ∨ next = noCluster then [] else v.reach visits next
    else []

/-- The entries of the directory whose first cluster is `start`. -/
def Volume.slotsAt (start : ℕ) : List ℕ :=
  if start = 0 then if v.table.type = .fat32 then [] else v.info.rootSlots
  else v.reach v.info.maxChainLen start

/-- The directory whose first cluster is `start` has the name, in the entry at `off`. -/
def Volume.Shows (start : ℕ) (name : ShortName) (off : ℕ) : Prop :=
  Slots.find v.mark name (v.slotsAt start) = some off

/-- What is found in all, when the rest of the entries gave `rest`. -/
def Scan.resume (rest : Option ℕ) : Scan → Option ℕ
  | .found off => some off
  | .ended => none
  | .onward => rest

variable {v : Volume} {name : ShortName} {start off visits c : ℕ} {key : Dentry → κ} {wanted : κ}

/-- A scan is a search that can be taken up again.
Witness: induction on the entries; each of them is passed over, ends the search or is found.
-/
theorem Volume.find_append_scan (v : Volume) (key : Dentry → κ) (wanted : κ) (slots rest : List ℕ)
    : find (v.markBy key) wanted (slots ++ rest)
        = (v.scanSlots key wanted slots).resume (find (v.markBy key) wanted rest) := by
  induction slots with
  | nil => rfl
  | cons off slots ih =>
    rw [cons_append, scanSlots]
    have mark : v.markBy key off = (v.records off).markBy key := rfl
    rw [Dentry.markBy] at mark
    split
    next free =>
      rw [if_pos free] at mark
      rw [find_cons_skip _ (by simp [mark]) (by simp [mark]), ih]
    next used =>
    rw [if_neg used] at mark
    split
    next ends =>
      rw [if_pos ends] at mark
      exact find_cons_last _ mark
    next more =>
    rw [if_neg more] at mark
    split
    next label =>
      rw [if_pos label] at mark
      rw [find_cons_skip _ (by simp [mark]) (by simp [mark]), ih]
    next entry =>
    rw [if_neg entry] at mark
    split
    next same =>
      rw [same] at mark
      exact find_cons_here _ mark
    next differs =>
      rw [find_cons_skip _ (by simp [mark]) (by simp [mark, differs]), ih]

theorem Volume.searchFrom_iff
    : v.searchFrom key wanted visits c = .ok off
        ↔ find (v.markBy key) wanted (v.reach visits c) = some off := by
  induction visits generalizing c with
  | zero => simp [searchFrom, reach]
  | succ visits ih =>
    rw [searchFrom, reach]
    split
    next below =>
      rw [find_append_scan]
      cases v.scanSlots key wanted (v.info.clusterSlots c) with
      | found here | ended => simp [Scan.resume]
      | onward =>
        dsimp only [Scan.resume]
        cases v.table.nextInChain c with
        | error fail => simp
        | ok next =>
          dsimp only
          split
          · simp
          · exact ih
    · simp

theorem Volume.searchRoot_iff
    : v.searchRoot key wanted = .ok off
        ↔ find (v.markBy key) wanted v.info.rootSlots = some off := by
  have scan := v.find_append_scan key wanted v.info.rootSlots []
  rw [append_nil] at scan
  rw [scan, searchRoot]
  cases v.scanSlots key wanted v.info.rootSlots with
  | found here | ended | onward => simp [Scan.resume]

variable {type : FatType} {d : Dentry}

/-- Where the high half is zero or not used, both ways to compute the first cluster agree. -/
theorem Dentry.mergedStart_eq (unused : type = .fat32 → d.hi = 0)
    : d.mergedStart type = d.start type := by
  rw [mergedStart, start]
  split
  next wide => simp [unused wide]
  · rfl

omit [DecidableEq κ] in
theorem Dentry.markBy_named (named : d.markBy key = .named wanted) : key d = wanted := by
  unfold markBy at named
  iterate 3
    split at named
    · cases named
  exact Mark.named.inj named

/-- The entry that `fat_get_parent` finds has as its low half what the merged halves of the entry
`..` give.
-/
theorem Volume.getParent_low {dentry} (found : v.getParent dentry = .ok off) (inner : off ≠ 0)
    : ∃ up, v.lookupClusterGeneric dotDot ((v.records dentry).mergedStart v.table.type) = .ok up
        ∧ (v.records off).low = (v.records up).mergedStart v.table.type := by
  unfold getParent at found
  split at found
  · cases found
    contradiction
  split at found
  · cases found
  next up above =>
  refine ⟨up, above, ?_⟩
  dsimp only at found
  split at found
  · cases found
    contradiction
  split at found
  · cases found
  split at found
  · exact Dentry.markBy_named (find_some (searchRoot_iff.mp found)).2
  · exact Dentry.markBy_named (find_some (searchFrom_iff.mp found)).2

/-- Without high halves `fat_get_parent` finds an entry with the first cluster that the entry `..`
of the directory has.
-/
theorem Volume.getParent_start {dentry} (unused : v.table.type = .fat32 → ∀ x, (v.records x).hi = 0)
    (found : v.getParent dentry = .ok off) (inner : off ≠ 0)
    : ∃ up, v.lookupClusterGeneric dotDot ((v.records dentry).start v.table.type) = .ok up
        ∧ (v.records off).start v.table.type = (v.records up).start v.table.type := by
  have merged (x) : (v.records x).mergedStart v.table.type = (v.records x).start v.table.type :=
    Dentry.mergedStart_eq fun wide => unused wide x
  obtain ⟨up, above, same⟩ := getParent_low found inner
  rw [merged] at above same
  refine ⟨up, above, ?_⟩
  rw [← same, Dentry.start, Dentry.low]
  split
  next wide => simp [unused wide]
  · rfl

end UnstableOS.Fs.Fat
