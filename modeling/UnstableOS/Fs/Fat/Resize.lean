import UnstableOS.Fs.Fat.Directory
import Mathlib.Data.List.GetD
import Mathlib.Tactic.Linarith

/-! Changing the size of a file, `fat_change_file_size`.
The state is what one call works on: the table, the directory entry of the file and the bytes of the
device, with the zeros it writes to the device noted down. Making a file smaller works. A call that
does not make the file smaller goes through the loop that adds a cluster each time the chain ends,
also in its last turn, so it leaves the file with a cluster too many; only sizes so near to 4 GiB
that the number of clusters overflows skip the loop.
-/

namespace UnstableOS.Fs.Fat

open Kernel Lib Function Nat List Info Table

-- The call

/-- What `fat_change_file_size` works on. The table and the entry are kept apart from the bytes, so
zeros written over them are seen in `bytes` and `writes` only.
-/
structure File where
  info : Info
  table : Table
  entry : Dentry
  bytes : ℕ → UInt8
  writes : List (ℕ × ℕ)

variable (info : Info)

def Info.bytesPerCluster : ℕ := info.sectorsPerCluster * info.bytesPerSector

/-- `SIZE_MAX`. -/
def sizeMax : UInt32 := 0xFFFFFFFF

/-- The new first cluster, in the halves of an entry. -/
def Dentry.setStart (type : FatType) (d : Dentry) (c : ℕ) : Dentry :=
  { d with
    lo := UInt16.ofNat c
    hi := if type = .fat32 then UInt16.ofNat (c >>> 16) else d.hi }

variable (f : File)

/-- Zeros for a range of the device, which are written in pieces of 512 bytes. -/
def File.zero (off length : ℕ) : File :=
  { f with
    bytes := fun a => if off ≤ a ∧ a < off + length then 0 else f.bytes a
    writes := (off, length) :: f.writes }

/-- The loop that goes to the last cluster to keep. It returns that cluster, the one before it and
the cluster to return.
-/
def Table.shrinkLoop (t : Table) (skipped : ℕ) : ℕ → ℕ → ℕ → ℕ → ℕ → Result (ℕ × ℕ × ℕ)
  | 0, _, curr, last, startCl => .ok (curr, last, startCl)
  | turns + 1, i, curr, _, startCl =>
    if curr ≥ t.type.limit then .error (.errno .eio)
    else
      match t.nextInChain curr with
      | .error fail => .error fail
      | .ok next =>
        if next < 2 ∨ next = noCluster then .error (.errno .eio)
        else t.shrinkLoop skipped turns (i + 1) next curr (if i = skipped then curr else startCl)

/-- Keeping `turns + 1` clusters. -/
def File.keep (skipped turns : ℕ) : Result (ℕ × File) :=
  let startCl := f.entry.start f.table.type
  match f.table.shrinkLoop skipped turns 0 startCl startCl startCl with
  | .error fail => .error fail
  | .ok (curr, last, startCl) =>
    if curr ≥ f.table.type.limit then .ok (last, f)
    else
      match f.table.endChain curr with
      | .error (.errno _) => .error (.errno .eio)
      | .error fail => .error fail
      | .ok table => .ok (if skipped = turns then curr else startCl, { f with table })

/-- The part of `fat_change_file_size` for size 0. -/
def File.empty : Result (ℕ × File) :=
  match f.table.freeChain (f.entry.start f.table.type) with
  | .error fail => .error fail
  | .ok table =>
    .ok (0, { f with table, entry := { f.entry.setStart f.table.type 0 with size := 0 } })

/-- The sizes that `fat_init` accepts. -/
structure Info.Formatted (info : Info) : Prop where
  sector : info.bytesPerSector ∈ [512, 1024, 2048, 4096]
  cluster : 0 < info.sectorsPerCluster ∧ info.sectorsPerCluster < 256

/-- The least number of clusters that hold `size` bytes. -/
def Info.clusters (size : ℕ) : ℕ :=
  (size + info.bytesPerCluster - 1) / info.bytesPerCluster

/-- The clusters of a file: none, or those of the chain that the entry names. -/
def File.Holds (nodes : List ℕ) : Prop :=
  nodes = [] ∧ f.entry.start f.table.type = 0
    ∨ nodes ≠ [] ∧ f.table.ChainFrom (f.entry.start f.table.type) nodes

/-- A file with exactly the clusters that its size needs, on a volume with a table. -/
structure File.Consistent (f : File) (nodes : List ℕ) : Prop where
  copies : 0 < f.table.fatCopies
  holds : f.Holds nodes
  count : nodes.length = f.info.clusters f.entry.size.toNat

variable {f f' : File} {nodes nodes' : List ℕ} {size : UInt32}

-- Numbers of clusters

variable {info : Info} {n curr new turns skipped startCl result last : ℕ} {t' : Table}
    {targetOffset : UInt32}

theorem Info.Formatted.bytesPerCluster (formatted : info.Formatted)
    : 512 ≤ info.bytesPerCluster ∧ info.bytesPerCluster < 2 ^ 20 := by
  obtain ⟨sector, positive, small⟩ := formatted
  rw [Info.bytesPerCluster]
  simp only [mem_cons, not_mem_nil, or_false] at sector
  rcases sector with sector | sector | sector | sector <;> rw [sector] <;> omega

theorem Info.clusters_pos (formatted : info.Formatted) (positive : 0 < n)
    : 0 < info.clusters n := by
  have bounds := formatted.bytesPerCluster
  exact div_pos (by omega) (by omega)

/-- After the loop the chain goes on for as many clusters as the loop made turns, and one more. -/
structure File.Grown (f f' : File) (curr turns : ℕ) : Prop where
  entry : f'.entry = f.entry
  info : f'.info = f.info
  type : f'.table.type = f.table.type
  goesOn : f'.table.decode^[turns] curr < f.table.type.limit
  links : ∀ x, 2 ≤ f.table.decode x → f.table.decode x < f.table.type.limit
    → f'.table.decode x = f.table.decode x

/-- One turn before the others: the next cluster is linked to this one, and links are kept. -/
theorem File.Grown.step {g : File} {next} (rest : g.Grown f' next turns)
    (entry : g.entry = f.entry) (info : g.info = f.info) (type : g.table.type = f.table.type)
    (linked : g.table.decode curr = next) (two : 2 ≤ next) (below : next < f.table.type.limit)
    (links : ∀ x, 2 ≤ f.table.decode x → f.table.decode x < f.table.type.limit
      → g.table.decode x = f.table.decode x)
    : f.Grown f' curr (turns + 1) where
  entry := rest.entry.trans entry
  info := rest.info.trans info
  type := rest.type.trans type
  goesOn := by
    have kept : f'.table.decode curr = next := by
      rw [rest.links curr (by omega) (by rw [linked, type]; exact below), linked]
    rw [iterate_succ_apply, kept, ← type]
    exact rest.goesOn
  links := by
    intro x used small
    have same := links x used small
    rw [rest.links x (by omega) (by rw [same, type]; exact small), same]

theorem File.Holds.valid (holds : f.Holds nodes) (used : f.entry.start f.table.type ≠ 0)
    : f.table.Valid (f.entry.start f.table.type)
        ∧ f.table.ChainFrom (f.entry.start f.table.type) nodes := by
  rcases holds with ⟨-, zero⟩ | ⟨nonempty, chain⟩
  · exact absurd zero used
  refine ⟨?_, chain⟩
  cases nodes with
  | nil => exact absurd rfl nonempty
  | cons first rest => exact chain.tail.2.1

/-- A file with the clusters for its size does not go on behind them. -/
theorem File.Holds.stops (holds : f.Holds nodes) (nonempty : nodes ≠ [])
    : f.table.type.limit ≤ f.table.decode^[nodes.length] (f.entry.start f.table.type) := by
  rcases holds with ⟨empty, -⟩ | ⟨-, chain⟩
  · exact absurd empty nonempty
  · exact chain.chain.stop_iterate

theorem File.Holds.used (holds : f.Holds nodes)
    : f.entry.start f.table.type ≠ 0 ↔ nodes ≠ [] := by
  rcases holds with ⟨empty, zero⟩ | ⟨nonempty, chain⟩
  · simp [empty, zero]
  cases nodes with
  | nil => exact absurd rfl nonempty
  | cons first rest =>
    have two := chain.tail.2.1.two_le
    exact ⟨fun _ => nonempty, fun _ => by omega⟩

theorem File.Holds.unique (holds : f.Holds nodes) (again : f.Holds nodes')
    : nodes' = nodes := by
  rcases em (f.entry.start f.table.type = 0) with zero | used
  · have first : ¬ nodes ≠ [] := fun nonempty => holds.used.mpr nonempty zero
    have second : ¬ nodes' ≠ [] := fun nonempty => again.used.mpr nonempty zero
    rw [not_not.mp first, not_not.mp second]
  · exact (again.valid used).2.chain.unique (holds.valid used).2.chain

variable {t : Table} {c : ℕ}

/-- The table with a chain ended at one of its clusters: the chain has the clusters up to there. -/
theorem Table.ChainFrom.cut {front rest x} (chain : t.ChainFrom c (front ++ x :: rest))
    : ((t.put x 0xFFFFFFFF).cleared rest last).ChainFrom c (front ++ [x]) := by
  have nodup := chain.chain.nodup
  have apart := nodup_append.mp nodup
  have fresh := (nodup_cons.mp apart.2.1).1
  refine ⟨chain.chain.cut ?_ ?_, chain.copies, ?_⟩
  · intro y mem
    have notRest : y ∉ rest := fun later =>
      apart.2.2 y mem y (mem_cons_of_mem x later) rfl
    have notX := apart.2.2 y mem x mem_cons_self
    exact decode_congr rfl ((if_neg notRest).trans (update_of_ne notX _ _))
  · have same : ((t.put x 0xFFFFFFFF).cleared rest last).decode x
        = (t.put x 0xFFFFFFFF).decode x := decode_congr rfl (if_neg fresh)
    rw [same]
    exact t.decode_put_end x
  · intro y mem
    have inside : y ∈ front ++ x :: rest := by
      rcases mem_append.mp mem with front | here
      · exact mem_append_left _ front
      · rw [mem_singleton.mp here]
        exact mem_append_right _ mem_cons_self
    obtain ⟨two, fits, below, held⟩ := chain.valid y inside
    exact ⟨two, fits, below, held⟩

/-- A chain split before the last cluster to keep. -/
theorem Table.ChainFrom.split_at (chain : t.ChainFrom c nodes) (within : n < nodes.length)
    : ∃ front x rest, nodes = front ++ x :: rest ∧ front.length = n ∧ t.decode^[n] c = x
        ∧ t.ChainFrom x (x :: rest) := by
  have tail := chain.drop (le_of_lt within)
  cases left : nodes.drop n with
  | nil =>
    have length := drop_eq_nil_iff.mp left
    omega
  | cons first rest =>
    rw [left] at tail
    obtain ⟨same, -, -, -⟩ := tail.tail
    rw [same] at tail
    refine ⟨nodes.take n, first, rest, ?_, ?_, same, tail⟩
    · rw [← left, take_append_drop]
    · rw [length_take]
      omega

section
variable (formatted : f.info.Formatted) (consistent : f.Consistent nodes)
include formatted consistent

theorem File.Consistent.chain (positive : 0 < f.entry.size.toNat)
    : f.table.ChainFrom (f.entry.start f.table.type) nodes := by
  have nonempty : nodes ≠ [] := by
    rintro rfl
    have some := clusters_pos formatted positive
    rw [← consistent.count] at some
    exact absurd some (lt_irrefl 0)
  exact (consistent.holds.valid (consistent.holds.used.mpr nonempty)).2

end

end UnstableOS.Fs.Fat
