import UnstableOS.Kernel.Errno
import UnstableOS.Lib.SuccessorChain
import Mathlib.Data.Finset.Card

/-! The file allocation table, `fat_chains.c`.
The table is the first copy on the volume, which is the one that is read, as the number stored for
each cluster. Where no copy is on the volume, nothing is written. Entries outside the sectors of the
table share their bytes with other copies, directories or data and are not followed. Reading and
writing the volume does not fail.
-/

namespace UnstableOS.Fs.Fat

open Kernel Lib Function List Finset Nat

-- Results

/-- Why a call has no result: an assertion failed, it made more turns than the volume has
clusters, it came to an entry outside the table, or it returned an error.
-/
inductive Fail where
  | panic
  | spin
  | stray
  | errno (errno : Errno)
deriving Repr, DecidableEq

abbrev Result (α : Type) := Except Fail α

/-- `(size_t) -1`. -/
def noCluster : ℕ := 2 ^ 32 - 1

-- The table

inductive FatType where
  | fat12
  | fat16
  | fat32
deriving Repr, DecidableEq

/-- `FAT_CLUSTER_END_FAT12` and the others. -/
def FatType.limit : FatType → ℕ
  | .fat12 => 0xFF0
  | .fat16 => 0xFFF0
  | .fat32 => 0x0FFFFFF0

/-- The bits of an entry that count. -/
def FatType.bits : FatType → ℕ
  | .fat12 => 12
  | .fat16 => 16
  | .fat32 => 28

theorem FatType.two_lt_limit (type : FatType) : 2 < type.limit := by
  cases type <;> decide

theorem FatType.bits_le (type : FatType) : 2 ^ type.bits ≤ 2 ^ 28 := by
  cases type <;> decide

/-- The fields of `struct fat_info` that the table needs, with the number of entries that its
sectors hold, and the table.
-/
structure Table where
  type : FatType
  dataClusters : ℕ
  fatCopies : ℕ
  fatEntries : ℕ
  lastFreeCluster : ℕ
  entry : ℕ → ℕ

namespace Table

/-- The number an entry holds; end markers are brought down to the limit. -/
def decode (t : Table) (c : ℕ) : ℕ :=
  let raw := t.entry c % 2 ^ t.type.bits
  if raw > t.type.limit then raw - raw % 16 else raw

/-- `fat_next_in_chain`. -/
def nextInChain (t : Table) (lastCluster : ℕ) : Result ℕ :=
  if lastCluster < 2 then .error .panic
  else if lastCluster - 2 > t.dataClusters then .ok noCluster
  else if lastCluster ≥ t.type.limit then .error .panic
  else if lastCluster ≥ t.fatEntries then .error .stray
  else .ok (t.decode lastCluster)

/-- `fat_set_chain`. The loop over the copies tests and writes nothing if there are none; what it
writes to the others is not followed.
-/
def setChain (t : Table) (lastCluster next : ℕ) : Result Table :=
  if lastCluster < 2 then .error .panic
  else if lastCluster - 2 > t.dataClusters then .error (.errno .einval)
  else
    let next := next % 2 ^ 28
    let t := { t with lastFreeCluster := if next = 0 then lastCluster else t.lastFreeCluster }
    if t.fatCopies = 0 then .ok t
    else if lastCluster ≥ t.type.limit then .error .panic
    else if lastCluster ≥ t.fatEntries then .error .stray
    else .ok { t with entry := update t.entry lastCluster (next % 2 ^ t.type.bits) }

/-- The first free cluster of a list. -/
def firstFree (t : Table) : List ℕ → Result (Option ℕ)
  | [] => .ok none
  | c :: rest =>
    match t.nextInChain c with
    | .error fail => .error fail
    | .ok next =>
      if next = noCluster then .error (.errno .eio)
      else if next % 2 ^ 28 = 0 then .ok (some c)
      else t.firstFree rest

/-- `fat_get_free_cluster`: the clusters from the last one that was found on, then those before
it. None if there is no free cluster.
-/
def getFreeCluster (t : Table) : Result (Option ℕ × Table) :=
  let last := if t.lastFreeCluster > t.dataClusters ∨ t.lastFreeCluster < 2 then 2
    else t.lastFreeCluster
  let t := { t with lastFreeCluster := last }
  match t.firstFree (List.range' last (t.dataClusters - last) ++ List.range' 2 (last - 2)) with
  | .error fail => .error fail
  | .ok none => .ok (none, t)
  | .ok (some c) => .ok (some c, { t with lastFreeCluster := c })

/-- The loop of `fat_free_chain`. -/
def freeLoop : ℕ → Table → ℕ → Result Table
  | 0, _, _ => .error .spin
  | fuel + 1, t, c =>
    if c < t.type.limit then
      match t.nextInChain c with
      | .error fail => .error fail
      | .ok next =>
        match t.setChain c 0 with
        | .error (.errno _) => .error (.errno .eio)
        | .error fail => .error fail
        | .ok t =>
          if next = 0 then .ok t
          else if next < 2 then .error (.errno .eio)
          else freeLoop fuel t next
    else .ok t

/-- `fat_free_chain`. Where there is a table, each turn but the last one clears an entry that was in
use.
-/
def freeChain (t : Table) (firstFreed : ℕ) : Result Table :=
  Table.freeLoop (t.dataClusters + 4) t firstFreed

/-- `fat_end_chain`. -/
def endChain (t : Table) (lastAlloced : ℕ) : Result Table :=
  match t.nextInChain lastAlloced with
  | .error fail => .error fail
  | .ok c =>
    if c < 2 ∨ c = noCluster then .error (.errno .eio)
    else
      match t.setChain lastAlloced 0xFFFFFFFF with
      | .error (.errno _) => .error (.errno .eio)
      | .error fail => .error fail
      | .ok t => t.freeChain c

-- Chains of clusters

variable {t t' : Table} {c x next fuel : ℕ} {nodes : List ℕ}

/-- A cluster that has an entry in the table. -/
structure Valid (t : Table) (c : ℕ) : Prop where
  two_le : 2 ≤ c
  fits : c - 2 ≤ t.dataClusters
  below : c < t.type.limit
  held : c < t.fatEntries

/-- The clusters from `c` on, up to an end marker; there is a table, and it holds their entries. -/
structure ChainFrom (t : Table) (c : ℕ) (nodes : List ℕ) : Prop where
  chain : Chain t.decode (fun c => t.type.limit ≤ c) c nodes
  copies : 0 < t.fatCopies
  valid : ∀ x ∈ nodes, t.Valid x

theorem nextInChain_valid (valid : t.Valid c)
    : t.nextInChain c = .ok (t.decode c) := by
  obtain ⟨two, fits, below, held⟩ := valid
  rw [nextInChain, if_neg (by omega), if_neg (by omega), if_neg (by omega), if_neg (by omega)]

/-- The table after `fat_set_chain`, if there is one. -/
def put (t : Table) (c next : ℕ) : Table :=
  { t with
    lastFreeCluster := if next % 2 ^ 28 = 0 then c else t.lastFreeCluster
    entry := update t.entry c (next % 2 ^ 28 % 2 ^ t.type.bits) }

@[simp] theorem put_type (t : Table) (c next : ℕ)
    : (t.put c next).type = t.type := rfl

theorem put_entry_self (t : Table) (c next : ℕ)
    : (t.put c next).entry c = next % 2 ^ 28 % 2 ^ t.type.bits :=
  update_self ..

/-- What follows a cluster, or that it has no entry. -/
theorem nextInChain_ok (done : t.nextInChain c = .ok next)
    : next = noCluster ∨ t.Valid c ∧ next = t.decode c := by
  unfold nextInChain at done
  split at done
  · cases done
  next two =>
  split at done
  · cases done
    exact .inl rfl
  next fits =>
  split at done
  · cases done
  next below =>
  split at done <;> cases done
  next held =>
    exact .inr ⟨⟨by omega, by omega, by omega, by omega⟩, rfl⟩

theorem decode_congr (sameType : t'.type = t.type) (same : t'.entry c = t.entry c)
    : t'.decode c = t.decode c := by
  rw [decode, decode, sameType, same]

/-- A chain is one in every table with the same entries for its clusters. -/
theorem ChainFrom.congr {last entry}
    (chain : t.ChainFrom c nodes) (same : ∀ x ∈ nodes, entry x = t.entry x)
    : ChainFrom { t with lastFreeCluster := last, entry := entry } c nodes where
  chain := chain.chain.congr fun y mem => decode_congr rfl (same y mem)
  copies := chain.copies
  valid x mem := by
    obtain ⟨two, fits, below, held⟩ := chain.valid x mem
    exact ⟨two, fits, below, held⟩

/-- The number of clusters of a chain is bounded by that of the entries. -/
theorem ChainFrom.length_le (chain : t.ChainFrom c nodes)
    : nodes.length ≤ t.dataClusters + 1 := by
  have bounded : nodes ⊆ range' 2 (t.dataClusters + 1) := by
    intro x mem
    obtain ⟨two, fits, -⟩ := chain.valid x mem
    rw [mem_range'_1]
    omega
  have count := (subperm_of_subset chain.chain.nodup bounded).length_le
  rwa [length_range'] at count

/-- The table with some entries cleared. -/
def cleared (t : Table) (nodes : List ℕ) (last : ℕ) : Table :=
  { t with lastFreeCluster := last, entry := fun x => if x ∈ nodes then 0 else t.entry x }

theorem ChainFrom.tail {rest} (chain : t.ChainFrom c (x :: rest))
    : c = x ∧ t.Valid c ∧ x ∉ rest ∧ t.ChainFrom (t.decode c) rest := by
  have nodup := chain.chain.nodup
  obtain ⟨walk, copies, valid⟩ := chain
  cases walk with
  | step goes more =>
    refine ⟨rfl, valid c mem_cons_self, (nodup_cons.mp nodup).1, more, copies, ?_⟩
    intro y mem
    exact valid y (mem_cons_of_mem c mem)

section
variable (chain : t.ChainFrom c nodes)
include chain

theorem ChainFrom.drop {n} (within : n ≤ nodes.length)
    : t.ChainFrom (t.decode^[n] c) (nodes.drop n) :=
  ⟨chain.chain.drop within, chain.copies, fun x mem => chain.valid x (mem_of_mem_drop mem)⟩

theorem ChainFrom.suffix (mem : x ∈ nodes)
    : ∃ front back, nodes = front ++ x :: back ∧ t.ChainFrom x (x :: back) := by
  obtain ⟨front, back, split, tail⟩ := chain.chain.suffix mem
  refine ⟨front, back, split, tail, chain.copies, ?_⟩
  intro y later
  apply chain.valid
  rw [split]
  exact mem_append_right front later

end

-- Links, ends and free clusters

theorem decode_lt (t : Table) (c : ℕ) : t.decode c < 2 ^ 28 := by
  have wide := t.type.bits_le
  unfold decode
  dsimp only
  split <;> omega

theorem decode_put_end (t : Table) (c : ℕ)
    : t.type.limit ≤ (t.put c 0xFFFFFFFF).decode c := by
  rw [decode, put_entry_self, put_type]
  cases t.type <;> decide

theorem firstFree_ok {candidates} (done : t.firstFree candidates = .ok (some c))
    : t.Valid c ∧ t.decode c = 0 := by
  induction candidates with
  | nil => cases done
  | cons first rest ih =>
    rw [firstFree] at done
    split at done
    · cases done
    next next found =>
    split at done
    · cases done
    next known =>
    split at done
    next zero =>
      cases done
      rcases nextInChain_ok found with none | ⟨valid, rfl⟩
      · exact absurd none known
      · rw [mod_eq_of_lt (t.decode_lt c)] at zero
        exact ⟨valid, zero⟩
    · exact ih done

/-- The cluster that `fat_get_free_cluster` finds is free; the table stays as it is. -/
theorem getFreeCluster_ok (done : t.getFreeCluster = .ok (some c, t'))
    : t.Valid c ∧ t.decode c = 0 ∧ t' = { t with lastFreeCluster := c } := by
  unfold getFreeCluster at done
  dsimp only at done
  split at done
  · cases done
  · cases done
  next found =>
  cases done
  obtain ⟨⟨two, fits, below, held⟩, free⟩ := firstFree_ok found
  exact ⟨⟨two, fits, below, held⟩, free, rfl⟩

-- The loop ends on every table

/-- The clusters in use. -/
def used (t : Table) : Finset ℕ := {c ∈ Finset.range (t.dataClusters + 3) | t.decode c ≠ 0}

end Table

end UnstableOS.Fs.Fat
