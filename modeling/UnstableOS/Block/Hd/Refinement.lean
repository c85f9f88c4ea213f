import UnstableOS.Block.Hd.Code
import UnstableOS.Lib.Total

/-! The sector cache cannot be seen: reads return what was last written, and after a flush it is on
the drives.
-/

namespace UnstableOS.Block.Hd

open Lib Lib.WriteBack Function List Cache Nat Prod

variable {buses : Buses} {s s' : State} {dev lba : ℕ} {drive : Drive} {sector : Sector}

-- Sectors

/-- The sector is one of a drive that is present. -/
def Valid (buses : Buses) (sector : Sector) : Prop :=
  ∃ drive, hdGetAtaDrive buses sector.1 = some drive ∧ sector.2 < drive.sectorCount

/-- A drive has one device number. -/
theorem place_injective (first second : Sector) (isValid : Valid buses first)
    (isValid' : Valid buses second) (same : place first = place second)
    : first = second := by
  have number {sector} (isValid : Valid buses sector)
      : sector.1 = (ATA_BUSID sector.1 + 1) * 1024 + ATA_DRIVEID sector.1 * 128 := by
    obtain ⟨drive, isDrive, _⟩ := isValid
    unfold hdGetAtaDrive at isDrive
    iterate 2
      split at isDrive
      · cases isDrive
    next block whole =>
    unfold MAJOR DEV_MAJ_BLOCK0 DEV_MAJ_BLOCK3 at block
    unfold MINOR DRIVE_PART_LIMIT at whole
    unfold ATA_BUSID ATA_DRIVEID MAJOR MINOR DEV_MAJ_BLOCK0 DRIVE_PART_LIMIT
    rw [show 0x3FF = 2 ^ 10 - 1 from rfl, and_two_pow_sub_one_eq_mod] at whole ⊢
    omega
  have firstNumber := number isValid
  have secondNumber := number isValid'
  simp only [place, Prod.mk.injEq] at same
  rw [same.1, same.2.1] at firstNumber
  exact Prod.ext (firstNumber.trans secondNumber.symm) same.2.2

/-- (Coupled buses s content) holds when the cache is coherent and what is seen through it are the
contents of the drives.
-/
structure Coupled (buses : Buses) (s : State) (content : ℕ → ByteStore) : Prop where
  coherent : s.Coherent place bucket (Valid buses)
  sees : ∀ dev drive, hdGetAtaDrive buses dev = some drive → ∀ lba < drive.sectorCount,
    s.view place bucket (dev, lba)
      = (content dev).readBytes (lba * drive.sectorSize) drive.sectorSize

variable {content : ℕ → ByteStore}

theorem Coupled.initial (buses : Buses) (disk : ℕ → ℕ → ByteStore)
    : Coupled buses (initial buses disk) fun dev => disk (ATA_BUSID dev) (ATA_DRIVEID dev) := by
  refine ⟨⟨nofun, fun _ => nodup_nil, nofun⟩, fun dev drive isDrive lba _ => ?_⟩
  have present : buses (ATA_BUSID dev) (ATA_DRIVEID dev) = some drive := by
    unfold hdGetAtaDrive at isDrive
    iterate 3
      split at isDrive
      · cases isDrive
    · exact isDrive
  show (Hd.initial buses disk).backing (ATA_BUSID dev, ATA_DRIVEID dev, lba) = _
  simp only [Hd.initial, present]

section
variable (coupled : Coupled buses s content) (coherent : s'.Coherent place bucket (Valid buses))
include coupled coherent

theorem Coupled.unseen
    (same : ∀ sector, Valid buses sector → s'.view place bucket sector = s.view place bucket sector)
    : Coupled buses s' content :=
  ⟨coherent, fun dev drive isDrive lba inside =>
    (same (dev, lba) ⟨drive, isDrive, inside⟩).trans (coupled.sees dev drive isDrive lba inside)⟩

/-- A part of one sector changes. -/
theorem Coupled.patched (isDrive : hdGetAtaDrive buses dev = some drive)
    (inside : lba < drive.sectorCount) {first bytes}
    (fits : first + bytes.length ≤ drive.sectorSize) (changed : s'.view place bucket (dev, lba)
      = Request.patch (s.view place bucket (dev, lba)) first bytes)
    (same : ∀ sector, Valid buses sector → sector ≠ (dev, lba) →
      s'.view place bucket sector = s.view place bucket sector)
    : Coupled buses s' (update content dev
        ((content dev).writeBytes (lba * drive.sectorSize + first) bytes)) := by
  refine ⟨coherent, fun dev' drive' isDrive' lba' inside' => ?_⟩
  have before := coupled.sees dev' drive' isDrive' lba' inside'
  by_cases sameDev : dev' = dev
  · subst sameDev
    cases isDrive.symm.trans isDrive'
    rw [update_self]
    by_cases sameLba : lba' = lba
    · subst sameLba
      rw [before] at changed
      exact changed.trans (ByteStore.readBytes_writeBytes_inside fits).symm
    rw [same (dev', lba') ⟨drive, isDrive, inside'⟩ (fun equal => sameLba (congrArg snd equal)),
      before]
    refine (ByteStore.sameOn_writeBytes ?_).readBytes_eq.symm
    rcases lt_or_gt_of_ne sameLba with below | above
    · have apart := mul_le_mul_right drive.sectorSize (succ_le_of_lt below)
      rw [succ_mul] at apart
      exact .inl (by omega)
    · have apart := mul_le_mul_right drive.sectorSize (succ_le_of_lt above)
      rw [succ_mul] at apart
      exact .inr (by omega)
  · rw [update_of_ne sameDev, same (dev', lba') ⟨drive', isDrive', inside'⟩
      (fun equal => sameDev (congrArg fst equal)), before]

end

-- The functions of the cache

section Cached
variable (coherent : s.Coherent place bucket (Valid buses))
include coherent

theorem flushEntry_spec {entry : Entry} (found : s.find bucket entry.key = some entry)
    : (hdCacheFlushEntry s entry).Coherent place bucket (Valid buses)
        ∧ (∀ sector, (hdCacheFlushEntry s entry).find bucket sector
            = if sector = entry.key then some { entry with dirty := false }
              else s.find bucket sector)
        ∧ ∀ sector, Valid buses sector →
          (hdCacheFlushEntry s entry).view place bucket sector = s.view place bucket sector := by
  unfold hdCacheFlushEntry
  split
  next notDirty =>
    refine ⟨coherent, fun sector => ?_, fun _ _ => rfl⟩
    split
    next same =>
      cases entry
      simp_all
    · rfl
  · exact coherent.flushLine place_injective found

omit coherent in
/-- The oldest entry is written back and dropped. -/
theorem dropOldest_eq {i : ℕ} {oldest : Entry} {rest : List Entry}
    (chain : s.chains i = oldest :: rest)
    (hashed : bucket oldest.key = i)
    : dropOldest s i = (s.writeLine place oldest).setChain i rest := by
  unfold dropOldest
  rw [chain]
  simp only
  split
  next dirty =>
    rw [hdCacheFlushEntry, if_neg (by simp [dirty]), hashed, Cache.setChain_setChain]
  next clean => rw [Cache.writeLine, if_neg clean]

omit coherent in
theorem cacheSet_eq {data : List UInt8} {dirty : Bool} (missing : s.find bucket sector = none)
    : hdCacheSet s sector data dirty
        = if (s.chains (bucket sector)).length > HD_SECTOR_LL_DEPTH then
            dropOldest
              (s.setChain (bucket sector) (s.chains (bucket sector) ++ [⟨sector, dirty, data⟩]))
              (bucket sector)
          else
            s.setChain (bucket sector) (s.chains (bucket sector) ++ [⟨sector, dirty, data⟩]) := by
  simp only [hdCacheSet, missing]
  by_cases empty : s.chains (bucket sector) = []
  · rw [if_pos empty, empty, if_neg (by simp), List.nil_append]
  · rw [if_neg empty]

/-- A sector that is not in the cache is put there. -/
theorem cacheSet_spec {data dirty} (missing : s.find bucket sector = none)
    (isValid : Valid buses sector) (agrees : dirty = false → data = s.backing (place sector))
    : (hdCacheSet s sector data dirty).Coherent place bucket (Valid buses)
        ∧ (hdCacheSet s sector data dirty).find bucket sector = some ⟨sector, dirty, data⟩
        ∧ ∀ other, Valid buses other → other ≠ sector →
          (hdCacheSet s sector data dirty).view place bucket other = s.view place bucket other := by
  let line : Entry := ⟨sector, dirty, data⟩
  let t := s.setChain (bucket sector) (s.chains (bucket sector) ++ [line])
  have added := @Cache.Coherent.add _ _ _ _ _ _ _ _ _ line _ coherent missing isValid agrees
  have finds (other : Sector) : t.find bucket other
      = if other = sector then some line else s.find bucket other :=
    @Cache.find_add _ _ _ _ _ _ _ line _ missing other
  have views (other : Sector) (different : other ≠ sector)
      : t.view place bucket other = s.view place bucket other :=
    view_congr ((finds other).trans (if_neg different)) fun _ => rfl
  rw [cacheSet_eq missing]
  split
  next long =>
    obtain ⟨oldest, rest, chain⟩ := exists_cons_of_length_pos (zero_lt_of_lt long)
    have isIn := chain ▸ mem_cons_self
    have hashed := (coherent.hashed _ oldest isIn).1
    have different : sector ≠ oldest.key := fun same =>
      find?_eq_none.mp missing oldest isIn (decide_eq_true same.symm)
    have newChain : t.chains (bucket sector) = oldest :: (rest ++ [line]) := by
      rw [setChain_chains, chain, cons_append]
    obtain ⟨evicted, found, seen⟩ := added.evict place_injective newChain
    rw [dropOldest_eq newChain hashed]
    refine ⟨evicted, ?_,
      fun other isOther notThis => (seen other isOther).trans (views other notThis)⟩
    rw [found, if_neg different, finds, if_pos rfl]
  · exact ⟨added, (finds sector).trans (if_pos rfl), fun other _ => views other⟩

end Cached

/-- A sector is taken from its drive. -/
theorem Coupled.readAndCache (coupled : Coupled buses s content)
    (missing : s.find bucket sector = none)
    (isValid : Valid buses sector)
    : Coupled buses (hdReadAndCacheAta s sector) content
        ∧ (hdReadAndCacheAta s sector).find bucket sector ≠ none := by
  obtain ⟨coherent, found, seen⟩ := cacheSet_spec coupled.coherent missing isValid fun _ => rfl
  refine ⟨coupled.unseen coherent fun other isOther => ?_,
    fun none => nomatch none.symm.trans found⟩
  by_cases same : other = sector
  · rw [same, view_of_none missing]
    exact view_of_find found
  · exact seen other isOther same

-- Flushing

/-- (Flushed buses s s' written) holds when the entries of some sectors have been written back: one
that is dirty after it is none of them.
-/
structure Flushed (buses : Buses) (s s' : State) (written : Sector → Prop) : Prop where
  coherent : s'.Coherent place bucket (Valid buses)
  dirty : ∀ sector entry, s'.find bucket sector = some entry → entry.dirty = true →
    s.find bucket sector = some entry ∧ ¬ written sector
  seen : ∀ sector, Valid buses sector → s'.view place bucket sector = s.view place bucket sector

/-- Some entries are written back, one after the other. -/
theorem flushEntries_spec {entries : List Entry} (coherent : s.Coherent place bucket (Valid buses))
    (found : ∀ entry ∈ entries, s.find bucket entry.key = some entry)
    (nodup : (entries.map Line.key).Nodup)
    : Flushed buses s (entries.foldl hdCacheFlushEntry s) (· ∈ entries.map Line.key) := by
  induction entries generalizing s with
  | nil => exact ⟨coherent, fun _ _ isEntry _ => ⟨isEntry, not_mem_nil⟩, fun _ _ => rfl⟩
  | cons entry rest ih =>
    obtain ⟨notIn, restNodup⟩ := nodup_cons.mp nodup
    obtain ⟨flushed, finds, seen⟩ := flushEntry_spec coherent (found entry mem_cons_self)
    have restFound : ∀ other ∈ rest,
        (hdCacheFlushEntry s entry).find bucket other.key = some other := by
      intro other mem
      have different : other.key ≠ entry.key := fun same =>
        notIn (same ▸ mem_map_of_mem mem)
      rw [finds, if_neg different]
      exact found other (mem_cons_of_mem _ mem)
    have later := ih flushed restFound restNodup
    refine ⟨later.coherent, fun sector other isEntry isDirty => ?_, fun sector isValid =>
      (later.seen sector isValid).trans (seen sector isValid)⟩
    obtain ⟨before, notLater⟩ := later.dirty sector other isEntry isDirty
    rw [finds] at before
    split at before
    · cases before
      cases isDirty
    next different =>
    refine ⟨before, fun isIn => ?_⟩
    rcases mem_cons.mp isIn with same | mem
    · exact different same
    · exact notLater mem

theorem bucket_lt (sector : Sector) : bucket sector < HD_SECTOR_BUCKETS := by
  unfold bucket hdGetKey
  exact mod_lt _ (by decide)

/-- The entries of some chains are written back. -/
theorem flushChains_spec (coherent : s.Coherent place bucket (Valid buses)) (chains : List ℕ)
    : Flushed buses s (chains.foldl (fun s i => (s.chains i).foldl hdCacheFlushEntry s) s)
        (bucket · ∈ chains) := by
  induction chains generalizing s with
  | nil => exact ⟨coherent, fun _ _ isEntry _ => ⟨isEntry, not_mem_nil⟩, fun _ _ => rfl⟩
  | cons i rest ih =>
    have found : ∀ entry ∈ s.chains i, s.find bucket entry.key = some entry := by
      intro entry mem
      rw [find, (coherent.hashed i entry mem).1]
      exact find_of_mem (coherent.nodup i) mem
    have first := flushEntries_spec coherent found (coherent.nodup i)
    have later := ih first.coherent
    refine ⟨later.coherent, fun sector entry isEntry isDirty => ?_, fun sector isValid =>
      (later.seen sector isValid).trans (first.seen sector isValid)⟩
    obtain ⟨between, notLater⟩ := later.dirty sector entry isEntry isDirty
    obtain ⟨before, notFirst⟩ := first.dirty sector entry between isDirty
    refine ⟨before, fun isIn => ?_⟩
    rcases mem_cons.mp isIn with here | mem
    · -- a sector with an entry is in the chain it is hashed to
      have inChain := here ▸ mem_of_find?_eq_some before
      exact notFirst (mem_map.mpr ⟨entry, inChain, key_of_find before⟩)
    · exact notLater mem

/-- After a flush the drives have what is seen through the cache. -/
theorem Coupled.flush (coupled : Coupled buses s content)
    : Coupled buses (hdCacheFlush s) content
        ∧ ∀ dev drive, hdGetAtaDrive buses dev = some drive → ∀ lba < drive.sectorCount,
          (hdCacheFlush s).backing (place (dev, lba))
            = (content dev).readBytes (lba * drive.sectorSize) drive.sectorSize := by
  have flushed : Flushed buses s (hdCacheFlush s) (bucket · ∈ range HD_SECTOR_BUCKETS) :=
    flushChains_spec coupled.coherent _
  have after := coupled.unseen flushed.coherent flushed.seen
  refine ⟨after, fun dev drive isDrive lba inside => ?_⟩
  rw [← after.sees dev drive isDrive lba inside]
  cases found : (hdCacheFlush s).find bucket (dev, lba) with
  | none => exact (view_of_none found).symm
  | some entry =>
    rw [view_of_find found]
    have clean : entry.dirty = false := by
      cases isDirty : entry.dirty with
      | false => rfl
      | true =>
        have notWritten := (flushed.dirty (dev, lba) entry found isDirty).2
        exact absurd (mem_range.mpr (bucket_lt (dev, lba))) notWritten
    exact (flushed.coherent.clean (dev, lba) entry found clean).symm

end UnstableOS.Block.Hd
