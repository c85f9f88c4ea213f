import UnstableOS.Fs.Fat.Directory

/-! Mounting a FAT volume, `fat_init`, and the search for a free cluster on a mounted one.
The boot sector is its fields, which are integers of their width; where the driver computes in
`size_t`, sums and products are taken modulo `2 ^ 32`.
-/

namespace UnstableOS.Fs.Fat

open Kernel List Nat

-- The boot sector

/-- The fields of `struct fat_block` that `fat_init` reads. -/
structure BootSector where
  magic : UInt16
  bytesPerSector : UInt16
  sectorsPerCluster : UInt8
  reservedSectors : UInt16
  numberOfFats : UInt8
  rootDirEntries : UInt16
  totalSectors : UInt16
  sectorsPerFat : UInt16
  totalSectors32 : UInt32
  /-- `fat32.sectors_per_fat`. -/
  sectorsPerFat32 : UInt32
  /-- `fat32.root_dir_cluster`. -/
  rootDirCluster : UInt32

open BootSector

/-- `struct fat_info` as `fat_init` fills it. -/
structure Mounted extends Info where
  type : FatType
  dataClusters : ℕ
  sectorsPerFat : ℕ
  fatCopies : ℕ

/-- The entries that fit into a table of `n` bytes. -/
def FatType.entries (n : ℕ) : FatType → ℕ
  | .fat12 => n * 2 / 3
  | .fat16 => n / 2
  | .fat32 => n / 4

/-- The entries as `fat_init` computes them; for FAT12 the bytes are doubled in 32 bits. -/
def FatType.entries32 (n : ℕ) : FatType → ℕ
  | .fat12 => n * 2 % 2 ^ 32 / 3
  | type => type.entries n

theorem FatType.entries32_le (n : ℕ) (type : FatType)
    : type.entries32 (n % 2 ^ 32) ≤ type.entries n := by
  have less : n % 2 ^ 32 ≤ n := mod_le n _
  generalize n % 2 ^ 32 = m at less ⊢
  cases type with
  | fat12 => exact Nat.div_le_div_right (le_trans (mod_le _ _) (Nat.mul_le_mul_right 2 less))
  | fat16 | fat32 => exact Nat.div_le_div_right less

namespace BootSector

variable (b : BootSector)

def fatSectors : ℕ :=
  if b.sectorsPerFat = 0 then b.sectorsPerFat32.toNat else b.sectorsPerFat.toNat

def total : ℕ := if b.totalSectors = 0 then b.totalSectors32.toNat else b.totalSectors.toNat

def rootDirSector : ℕ :=
  (b.reservedSectors.toNat + b.numberOfFats.toNat * b.fatSectors) % 2 ^ 32

def rootSectors : ℕ :=
  (b.rootDirEntries.toNat * 32 + b.bytesPerSector.toNat - 1) / b.bytesPerSector.toNat

/-- `data_sectors / sectors_per_cluster`. -/
def clusters : ℕ :=
  (b.total + 2 ^ 33 - b.rootDirSector - b.rootSectors) % 2 ^ 32 / b.sectorsPerCluster.toNat

def type : FatType :=
  if b.clusters < 4085 then .fat12 else if b.clusters < 65525 then .fat16 else .fat32

/-- `fat_entries`. -/
def fatEntries : ℕ := b.type.entries32 (b.fatSectors * b.bytesPerSector.toNat % 2 ^ 32)

def info : Mounted where
  type := b.type
  bytesPerSector := b.bytesPerSector.toNat
  sectorsPerCluster := b.sectorsPerCluster.toNat
  dataClusters := if b.type.limit ≤ b.clusters then b.type.limit - 1 else b.clusters
  rootDirCluster := if b.type = .fat32 then b.rootDirCluster.toNat else 2
  rootDirEntries := b.rootDirEntries.toNat
  rootDirSector := b.rootDirSector
  sectorsPerFat := b.fatSectors
  fatCopies := b.numberOfFats.toNat
  dataSectorStart := (b.rootDirSector + b.rootSectors) % 2 ^ 32
  maxChainLen := 2 ^ 32 / b.sectorsPerCluster.toNat / b.bytesPerSector.toNat

/-- What `fat_init` refuses on a device of `size` bytes. -/
def refused (size : ℕ) : Option Errno :=
  if b.magic ≠ 0xAA55 then some .eio
  else if b.reservedSectors = 0 then some .einval
  else if b.bytesPerSector.toNat ∉ [512, 1024, 2048, 4096] then some .einval
  else if b.fatSectors = 0 then some .einval
  else if b.sectorsPerCluster = 0 then some .einval
  else if b.total = 0 then some .einval
  else if size < b.total * b.bytesPerSector.toNat % 2 ^ 32 then some .einval
  else if b.fatEntries < b.clusters then some .einval
  else if b.info.rootDirCluster < 2 ∨ b.info.rootDirCluster - 2 ≥ b.info.dataClusters then
    some .einval
  else none

/-- `fat_init`. -/
def fatInit (size : ℕ) : Except Errno Mounted :=
  match b.refused size with
  | some errno => .error errno
  | none => .ok b.info

end BootSector

-- The layout of a mounted volume

namespace Mounted

variable (info : Mounted)

/-- The bytes of the entry that `fat_next_in_chain` reads: where they begin in the table and how
many they are.
-/
def entryBytes (c : ℕ) : ℕ × ℕ :=
  match info.type with
  | .fat12 => (c * 3 / 2, 2)
  | .fat16 => (2 * c, 2)
  | .fat32 => (4 * c, 4)

/-- The entry of a cluster lies inside the sectors of so many copies of the table. One copy is the
table that is read.
-/
def EntryInside (copies c : ℕ) : Prop :=
  (info.entryBytes c).1 + (info.entryBytes c).2 ≤ copies * info.sectorsPerFat * info.bytesPerSector

/-- The data of a cluster lies inside the sectors of the volume. -/
def DataInside (total c : ℕ) : Prop :=
  (info.dataSectorStart + (c - 2) * info.sectorsPerCluster + info.sectorsPerCluster)
    * info.bytesPerSector ≤ total * info.bytesPerSector

end Mounted

variable {b : BootSector} {size : ℕ} {info : Mounted}

theorem BootSector.fatInit_of_accepted (b : BootSector) (size : ℕ)
    (accepted : b.refused size = none)
    : b.fatInit size = .ok b.info := by
  rw [fatInit, accepted]

theorem ite_some_eq_none {α} {p : Prop} [Decidable p] {x : α} {rest : Option α}
    : (if p then some x else rest) = none ↔ ¬ p ∧ rest = none := by
  split <;> simp [*]

theorem BootSector.fatInit_ok (mounted : b.fatInit size = .ok info)
    : info = b.info ∧ 0 < info.bytesPerSector ∧ 0 < info.sectorsPerCluster
      ∧ 0 < info.dataClusters := by
  unfold fatInit at mounted
  split at mounted <;> cases mounted
  next accepted =>
    simp only [refused, ite_some_eq_none, not_not] at accepted
    obtain ⟨-, -, sector, -, cluster, -, -, -, root, -⟩ := accepted
    have positive : b.sectorsPerCluster.toNat ≠ 0 := fun zero => cluster (UInt8.toNat_inj.mp zero)
    simp only [mem_cons, not_mem_nil, or_false] at sector
    refine ⟨rfl, ?_, Nat.pos_of_ne_zero positive, by omega⟩
    simp only [info]
    omega

/-- The data ends inside the volume if it begins there. -/
theorem BootSector.dataClusters_fit (starts : b.info.dataSectorStart ≤ b.total)
    : b.info.dataClusters * b.info.sectorsPerCluster ≤ b.total - b.info.dataSectorStart := by
  have few : b.info.dataClusters ≤ b.clusters := by
    simp only [info]
    split <;> omega
  have whole : b.clusters * b.sectorsPerCluster.toNat
      ≤ (b.total + 2 ^ 33 - b.rootDirSector - b.rootSectors) % 2 ^ 32 := div_mul_le_self ..
  have part := mul_le_mul_right b.sectorsPerCluster.toNat few
  simp only [info] at starts part ⊢
  omega

theorem Mounted.entryInside_iff {copies c}
    : info.EntryInside copies c
      ↔ c + 1 ≤ info.type.entries (copies * info.sectorsPerFat * info.bytesPerSector) := by
  unfold EntryInside entryBytes FatType.entries
  cases info.type <;> simp only <;> omega

/-- For every boot sector that is accepted: the entries and the data of all clusters lie inside
the table and the volume if and only if the table has the two entries that no cluster belongs to
as well, which the driver does not ask for, and the data begins inside the volume, whose sectors
were subtracted without a test.
-/
theorem BootSector.clusters_inside_iff (copies : ℕ) (mounted : b.fatInit size = .ok info)
    : (∀ c, 2 ≤ c → c ≤ info.dataClusters + 1
        → info.EntryInside copies c ∧ info.DataInside b.total c)
      ↔ info.dataClusters + 2
          ≤ info.type.entries (copies * info.sectorsPerFat * info.bytesPerSector)
        ∧ info.dataSectorStart ≤ b.total := by
  obtain ⟨same, sector, cluster, some⟩ := fatInit_ok mounted
  simp only [Mounted.entryInside_iff, Mounted.DataInside, Nat.mul_le_mul_right_iff sector]
  constructor
  · intro inside
    have last := inside (info.dataClusters + 1) (by omega) (le_refl _)
    exact ⟨last.1, by omega⟩
  · rintro ⟨entries, start⟩ c low high
    have fits : info.dataClusters * info.sectorsPerCluster ≤ b.total - info.dataSectorStart := by
      subst same
      exact dataClusters_fit start
    have below : (c - 2 + 1) * info.sectorsPerCluster
        ≤ info.dataClusters * info.sectorsPerCluster :=
      mul_le_mul_right _ (by omega)
    rw [succ_mul] at below
    omega

/-- A boot sector whose table of one sector has 341 entries. -/
def smallSector (totalSectors : UInt16) : BootSector where
  magic := 0xAA55
  bytesPerSector := 512
  sectorsPerCluster := 1
  reservedSectors := 1
  numberOfFats := 1
  rootDirEntries := 16
  totalSectors := totalSectors
  sectorsPerFat := 1
  totalSectors32 := 0
  sectorsPerFat32 := 0
  rootDirCluster := 0

theorem smallSector_inside
    : (smallSector 342).fatInit 175104 = .ok (smallSector 342).info
      ∧ ∀ c, 2 ≤ c → c ≤ (smallSector 342).info.dataClusters + 1
        → (smallSector 342).info.EntryInside 1 c
          ∧ (smallSector 342).info.DataInside (smallSector 342).total c :=
  have mounted := fatInit_of_accepted _ 175104 (by decide +kernel)
  ⟨mounted, (clusters_inside_iff 1 mounted).mpr (by decide +kernel)⟩

/-- A volume of 341 clusters is accepted, and the entry of its last one begins after the table. -/
theorem last_entry_outside
    : (smallSector 344).fatInit 176128 = .ok (smallSector 344).info
      ∧ (smallSector 344).info.dataClusters = 341 ∧ (smallSector 344).info.fatCopies = 1
      ∧ ¬ (smallSector 344).info.EntryInside 1 342 :=
  ⟨fatInit_of_accepted _ _ (by decide +kernel), by decide +kernel, rfl,
    not_le.mpr (by decide +kernel)⟩

-- The search for a free cluster

/-- The table of a mounted volume. -/
def Mounted.table (info : Mounted) (lastFreeCluster : ℕ) (entry : ℕ → ℕ) : Table :=
  ⟨info.type, info.dataClusters, info.fatCopies,
    info.type.entries (info.sectorsPerFat * info.bytesPerSector), lastFreeCluster, entry⟩

/-- A data cluster that is free. -/
def Table.IsFree (t : Table) (c : ℕ) : Prop :=
  2 ≤ c ∧ c ≤ t.dataClusters + 1 ∧ t.decode c = 0

/-- The search returns a free data cluster, or finds none as there is none. -/
def Table.FindsFree (t : Table) : Prop :=
  ∃ found t', t.getFreeCluster = .ok (found, t')
    ∧ match found with
      | none => ∀ c, ¬ t.IsFree c
      | some c => t.IsFree c

theorem Table.firstFree_spec {t : Table} {candidates} (valid : ∀ c ∈ candidates, t.Valid c)
    : ∃ found, t.firstFree candidates = .ok found
      ∧ (found = none → ∀ c ∈ candidates, t.decode c ≠ 0)
      ∧ ∀ c, found = some c → c ∈ candidates := by
  induction candidates with
  | nil => exact ⟨none, rfl, by simp⟩
  | cons first rest ih =>
    obtain ⟨found, ends, none, some⟩ := ih fun c mem => valid c (mem_cons_of_mem _ mem)
    have fits := t.decode_lt first
    rw [firstFree, nextInChain_valid (valid first mem_cons_self)]
    dsimp only
    rw [if_neg (by rw [noCluster]; omega), mod_eq_of_lt fits]
    split
    · exact ⟨first, rfl, by simp⟩
    next inUse =>
      refine ⟨found, ends, fun absent => ?_, fun c same => mem_cons_of_mem _ (some c same)⟩
      exact forall_mem_cons.mpr ⟨inUse, none absent⟩

/-- `fat_get_free_cluster` looks at the clusters below `data_clusters`. -/
theorem Table.getFreeCluster_spec {t : Table} (below : t.dataClusters < t.type.limit)
    (held : t.dataClusters ≤ t.fatEntries)
    : ∃ found t', t.getFreeCluster = .ok (found, t')
      ∧ (found = none → ∀ c, 2 ≤ c → c < t.dataClusters → t.decode c ≠ 0)
      ∧ ∀ c, found = some c → c < t.dataClusters := by
  unfold getFreeCluster
  extract_lets last t'
  have range (c) : c ∈ range' last (t'.dataClusters - last) ++ range' 2 (last - 2)
      ↔ 2 ≤ c ∧ c < t.dataClusters := by
    grind
  obtain ⟨found, ends, none, some⟩ := firstFree_spec (t := t') fun c mem =>
    ⟨((range c).mp mem).1, by grind, by grind, by grind⟩
  rw [ends]
  cases found with
  | none =>
    refine ⟨_, _, rfl, fun _ c two low => none rfl c ((range c).mpr ⟨two, low⟩), nofun⟩
  | some c =>
    refine ⟨_, _, rfl, nofun, ?_⟩
    rintro _ ⟨⟩
    exact ((range c).mp (some c rfl)).2

/-- The table of a mounted volume has an entry for each number below `data_clusters`. -/
theorem BootSector.fatInit_held (mounted : b.fatInit size = .ok info)
    : info.dataClusters ≤ info.type.entries (info.sectorsPerFat * info.bytesPerSector) := by
  unfold fatInit at mounted
  split at mounted <;> cases mounted
  next accepted =>
    simp only [refused, ite_some_eq_none] at accepted
    have enough := accepted.2.2.2.2.2.2.2.1
    have most : b.fatEntries ≤ b.type.entries (b.fatSectors * b.bytesPerSector.toNat) :=
      b.type.entries32_le _
    simp only [BootSector.info]
    split <;> omega

/-- For every volume that is mounted, whatever its table holds and wherever the search starts: it
is right if and only if a cluster below `data_clusters` is free or no cluster is. The last two
clusters are not looked at.
-/
theorem BootSector.findsFree_iff (mounted : b.fatInit size = .ok info) (last : ℕ) (entry : ℕ → ℕ)
    : (info.table last entry).FindsFree
      ↔ (∃ c < info.dataClusters, (info.table last entry).IsFree c)
        ∨ ∀ c, ¬ (info.table last entry).IsFree c := by
  have below : info.dataClusters < info.type.limit := by
    rw [(fatInit_ok mounted).1]
    have := b.type.two_lt_limit
    simp only [BootSector.info]
    split <;> omega
  obtain ⟨found, t', ends, none, some⟩ :=
    Table.getFreeCluster_spec (t := info.table last entry) below (fatInit_held mounted)
  constructor
  · rintro ⟨found', t'', returns, right⟩
    rw [returns] at ends
    cases ends
    cases found with
    | none => exact .inr right
    | some c => exact .inl ⟨c, some c rfl, right⟩
  · intro condition
    refine ⟨found, t', ends, ?_⟩
    cases found with
    | none =>
      rcases condition with ⟨c, low, free⟩ | nothing
      · exact absurd free.2.2 (none rfl c free.1 low)
      · exact nothing
    | some c =>
      have low := some c rfl
      obtain ⟨valid, free, -⟩ := Table.getFreeCluster_ok ends
      exact ⟨valid.two_le, le_succ_of_le low.le, free⟩

theorem findsFree_small : ((smallSector 6).info.table 0 fun _ => 0).FindsFree :=
  (findsFree_iff (fatInit_of_accepted _ 3072 (by decide +kernel)) 0 _).mpr
    (.inl ⟨2, by decide +kernel, le_refl 2, by decide +kernel, rfl⟩)

/-- A volume of three clusters whose first one is in use: no free cluster is found. -/
theorem free_cluster_missed
    : (smallSector 6).fatInit 3072 = .ok (smallSector 6).info
      ∧ ((smallSector 6).info.table 0 fun c => if c = 2 then 0xFFF else 0).getFreeCluster.map (·.1)
        = .ok none
      ∧ ((smallSector 6).info.table 0 fun c => if c = 2 then 0xFFF else 0).IsFree 4 :=
  ⟨fatInit_of_accepted _ _ (by decide +kernel), by decide +kernel,
    by decide, by decide +kernel, by decide +kernel⟩

end UnstableOS.Fs.Fat
