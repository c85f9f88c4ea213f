import UnstableOS.Mm.Mmap.Faults

/-! The calls on ranges of pages: changes of the protection, and unmapping. -/

namespace UnstableOS.Mm.Mmap

open Lib Function Option State
open List hiding map_map

/-- The changes of protection that keep the invariant: a page that is present and not writable so
far becomes writable only if its entry is dirty.
-/
def ProtectOk (s : State) (pid addr : ℕ) (prot : Prot) (k : ℕ) : Prop :=
  ∀ here, spot (s.vm pid) (pageAt addr k) = some here → s.pte pid (pageAt addr k) ≠ none
    → here.prot ≠ prot → prot.write = true → DirtyAt s here

/-- The page can be written to its file: it is a whole page of the file, in the first 4 GiB, the
descriptor of the mapping is open for writing and not for appending, the filesystem is not mounted
read-only, and its `pwrite` succeeds.
-/
def WritesBack (env : Env) (s : State) (here : Spot) : Prop :=
  here.whole = true ∧ here.key * pageSize < wordLimit ∧ here.writes = true
    ∧ (s.inode here.inode).readOnly = false ∧ env.writeOk = true

/-- The unmappings that write back what they should. -/
def UnmapOk (env : Env) (s : State) (pid addr k : ℕ) : Prop :=
  ∀ here, spot (s.vm pid) (pageAt addr k) = some here → DirtyAt s here → WritesBack env s here

section Pages
variable {vm : List VmRecord} {r : VmRecord}

theorem mul_lt_len {j} (less : j < r.pages) : j * pageSize < r.len := by
  simp only [VmRecord.pages, pageSize] at less ⊢
  omega

/-- The pages of a record that starts at a page of the range are the next pages of the range. -/
theorem CutOut.pageAt_add {vm q vm' addr limit i j}
    (cut : CutOut vm q ((addr + i * pageSize) % wordLimit) limit vm' r)
    (aligned : addr % pageSize = 0) (less : j < r.pages)
    : pageAt addr (i + j) = r.start / pageSize + j := by
  have bounded := cut.valid.bounded r cut.member
  have inside := mul_lt_len less
  have start := cut.start
  simp only [pageAt, pageSize, wordLimit] at *
  omega

section
variable (aligned : r.start % pageSize = 0)
include aligned

theorem covers_page {j} (less : j < r.pages)
    : r.Covers (r.start / pageSize + j) := by
  have inside := mul_lt_len less
  simp only [VmRecord.Covers, pageSize] at aligned inside ⊢
  omega

theorem exists_page {n} (covers : r.Covers n)
    : ∃ j, j < r.pages ∧ n = r.start / pageSize + j := by
  obtain ⟨low, high⟩ := covers
  refine ⟨n - r.start / pageSize, ?_, ?_⟩
  · simp only [VmRecord.pages, pageSize] at aligned low high ⊢
    omega
  · simp only [pageSize] at aligned low ⊢
    omega

theorem key_page {j}
    : (r.mappingOffset / pageSize + j) % wordLimit = r.key (r.start / pageSize + j) := by
  simp only [VmRecord.key, pageSize] at aligned ⊢
  congr 1
  omega

end

end Pages

namespace Inv

variable {s s' : State} {pid : ℕ}

/-- What changing the flags of pages leaves as it was. -/
structure SamePages (s s' : State) : Prop where
  vm : s'.vm = s.vm
  inode : s'.inode = s.inode
  present : ∀ p m, s'.pte p m = none ↔ s.pte p m = none

theorem protectPage (inv : Inv s) {flags n}
    (ok : ∀ here, spot (s.vm pid) n = some here → s.pte pid n ≠ none → flags.writable = true
      → DirtyAt s here)
    : Inv (Mmap.protectPage pid flags s n) ∧ SamePages s (Mmap.protectPage pid flags s n) := by
  simp only [Mmap.protectPage]
  cases present : s.pte pid n with
  | none => exact ⟨inv, rfl, rfl, fun _ _ => Iff.rfl⟩
  | some pte =>
    obtain ⟨here, mpc, found, _⟩ := inv.placed pid n pte present
    refine ⟨inv.setFlags present found (ok here found (by simp [present])), rfl, rfl, ?_⟩
    intro p m
    simp only [setPte]
    split_ifs with same
    · obtain ⟨rfl, rfl⟩ := same
      simp [present]
    · exact Iff.rfl

theorem protectPages (inv : Inv s) (pid : ℕ) (flags : Flags) (pages : List ℕ)
    (ok : ∀ n ∈ pages, ∀ here, spot (s.vm pid) n = some here → s.pte pid n ≠ none
      → flags.writable = true → DirtyAt s here)
    : Inv (pages.foldl (Mmap.protectPage pid flags) s)
      ∧ SamePages s (pages.foldl (Mmap.protectPage pid flags) s) := by
  induction pages generalizing s with
  | nil => exact ⟨inv, rfl, rfl, fun _ _ => Iff.rfl⟩
  | cons n rest ih =>
    obtain ⟨next, same⟩ := inv.protectPage (ok n (by simp))
    obtain ⟨final, sameRest⟩ := ih next (by
      intro m mem here found present writable
      rw [same.vm] at found
      rw [Ne, same.present] at present
      obtain ⟨mpc, cached, dirty⟩ := ok m (by simp [mem]) here found present writable
      refine ⟨mpc, ?_, dirty⟩
      rw [cache, same.inode]
      exact cached)
    exact ⟨final, sameRest.vm.trans same.vm, sameRest.inode.trans same.inode,
      fun p m => (sameRest.present p m).trans (same.present p m)⟩

/-- One round of `sys_mprotect` on the record it cuts out. -/
theorem protectRecord (inv : Inv s) {r r' vm' addr limit i prot} (aligned : addr % pageSize = 0)
    (cut : CutOut (s.vm pid) r ((addr + i * pageSize) % wordLimit) limit vm' r')
    (differs : r.prot ≠ prot) (ok : ∀ k, i ≤ k → k < i + limit → ProtectOk s pid addr prot k)
    : let final := protectCut pid addr i prot s vm' r'
      Inv final ∧ final.inode = s.inode ∧ (∀ p m, final.pte p m = none ↔ s.pte p m = none)
      ∧ ∀ n, spot (final.vm pid) n = spot (s.vm pid) n
        ∨ ∃ here, spot (s.vm pid) n = some here
          ∧ spot (final.vm pid) n = some { here with prot := prot } := by
  obtain ⟨valid', derived', spots⟩ := cut.valid.protect cut.member prot
  have startAligned := cut.valid.aligned r' cut.member
  have keeps : Inv (s.setVm pid (modifyRecord vm' r' { r' with prot := prot })) := by
    refine inv.setVm valid' (cut.derived.trans derived') fun m _ => ?_
    rw [spots, cut.spot]
    split_ifs
    · rw [map_map]
      rfl
    · rfl
  have newVm : (s.setVm pid (modifyRecord vm' r' { r' with prot := prot })).vm pid
      = modifyRecord vm' r' { r' with prot := prot } := update_self _ _ _
  have dirty : ∀ n ∈ (range r'.pages).map (fun j => pageAt addr (i + j)), ∀ here,
      spot ((s.setVm pid (modifyRecord vm' r' { r' with prot := prot })).vm pid) n = some here
        → s.pte pid n ≠ none → prot.write = true
        → DirtyAt (s.setVm pid (modifyRecord vm' r' { r' with prot := prot })) here := by
    intro n mem here found present writable
    obtain ⟨j, less, rfl⟩ := mem_map.mp mem
    rw [mem_range] at less
    have atPage := cut.pageAt_add aligned less
    have covers := atPage ▸ covers_page startAligned less
    rw [newVm, spots, if_pos covers] at found
    obtain ⟨old, foundOld, rfl⟩ := map_eq_some_iff.mp found
    have oldProt : old.prot = r.prot := by
      rw [cut.valid.spot_eq cut.member covers, VmRecord.spot] at foundOld
      obtain ⟨fd, _, rfl⟩ := map_eq_some_iff.mp foundOld
      exact cut.prot
    rw [cut.spot] at foundOld
    have limited := cut.pages
    exact ok (i + j) (by omega) (by omega) old foundOld present (oldProt ▸ differs) writable
  obtain ⟨kept, same⟩ := keeps.protectPages pid prot.mappingFlags _ dirty
  refine ⟨kept, same.inode, same.present, fun n => ?_⟩
  simp only [protectCut]
  rw [same.vm, newVm, spots, cut.spot]
  split_ifs
  · cases found : spot (s.vm pid) n with
    | none => exact .inl rfl
    | some here => exact .inr ⟨here, rfl, rfl⟩
  · exact .inl rfl

/-- `sys_mprotect` keeps the invariant. -/
theorem mprotectLoop (inv : Inv s) {kalloc addr len fuel i prot ret}
    (aligned : addr % pageSize = 0) (ok : ∀ k, i ≤ k → k < len → ProtectOk s pid addr prot k)
    (call : Mmap.mprotectLoop kalloc pid addr len prot fuel s i = some (s', ret))
    : Inv s' := by
  have kept := mprotectLoop_rule
    (P := fun i s => Inv s ∧ ∀ k, i ≤ k → k < len → ProtectOk s pid addr prot k) ?_ ?_ ⟨inv, ok⟩
      call
  · exact kept.elim fun _ kept => kept.1
  · exact fun later ⟨inv, ok⟩ => ⟨inv, fun k low high => ok k (later.trans low) high⟩
  · intro i s r vm' cut more ⟨inv, ok⟩ search differs split
    obtain ⟨mem, starts, _⟩ := (rbtreeSearchLte_spec _ _).1 r search
    have isCut := (inv.valid pid).cutOut mem starts split
    obtain ⟨kept, sameInode, samePresent, spots⟩ := (inv.withChanges (s.addRecords pid
      (splitStarts r ((addr + i * pageSize) % wordLimit - r.start)
        (len - i))).changes).protectRecord
      aligned isCut differs (fun k low high => ok k low (by omega))
    refine ⟨kept, fun k low high here found present other writable => ?_⟩
    replace present := mt (samePresent _ _).mpr present
    rcases spots (pageAt addr k) with same | ⟨old, _, now⟩
    · obtain ⟨mpc, cached, dirty⟩ :=
        ok k (by omega) high here (same.symm.trans found) present other writable
      exact ⟨mpc, (congrArg (fun inode => (inode here.inode).mmapPageCache here.key)
        sameInode).trans cached, dirty⟩
    · obtain rfl := some.inj (now.symm.trans found)
      exact absurd rfl other

end Inv

-- Unmapping

/-- The file holds these bytes as its page. -/
def Stored (s : State) (i key : ℕ) (frame : Frame) : Prop :=
  ∀ b < pageSize, (s.inode i).content (key * pageSize + b) = frame.bytes b

/-- Entries only go, and what was dirty is in the file then. -/
structure Unmaps (s s' : State) : Prop where
  frame : s'.frame = s.frame
  mount : ∀ i, (s'.inode i).readOnly = (s.inode i).readOnly
  cached
    : ∀ i key mpc, s.cache i key = some mpc
        → (∃ mpc', s'.cache i key = some mpc' ∧ mpc'.page = mpc.page ∧ mpc'.dirty = mpc.dirty)
          ∨ (s'.cache i key = none ∧ (mpc.dirty = true → Stored s' i key (s.frame mpc.page)))
  uncached
    : ∀ i key, s.cache i key = none → s'.cache i key = none
        ∧ ∀ b < pageSize, (s'.inode i).content (key * pageSize + b)
          = (s.inode i).content (key * pageSize + b)

namespace Unmaps

variable {env : Env} {s s' s'' : State}

theorem refl (s : State) : Unmaps s s :=
  ⟨rfl, fun _ => rfl, fun _ _ mpc cached => .inl ⟨mpc, cached, rfl, rfl⟩,
    fun _ _ none => ⟨none, fun _ _ => rfl⟩⟩

theorem trans (first : Unmaps s s') (second : Unmaps s' s'') : Unmaps s s'' := by
  refine ⟨second.frame.trans first.frame, fun i => (second.mount i).trans (first.mount i), ?_, ?_⟩
  · intro i key mpc cached
    rcases first.cached i key mpc cached with ⟨mpc', cached', samePage, sameDirty⟩ | ⟨gone, stored⟩
    · rw [← samePage, ← sameDirty, ← first.frame]
      exact second.cached i key mpc' cached'
    · obtain ⟨stillGone, kept⟩ := second.uncached i key gone
      exact .inr ⟨stillGone, fun dirty b less => (kept b less).trans (stored dirty b less)⟩
  · intro i key none
    obtain ⟨none', kept⟩ := first.uncached i key none
    obtain ⟨none'', kept'⟩ := second.uncached i key none'
    exact ⟨none'', fun b less => (kept' b less).trans (kept b less)⟩

/-- What is dirty was so before, and can be written where it could. -/
theorem writesBack (unmaps : Unmaps s s') {here} (ok : DirtyAt s here → WritesBack env s here)
    (dirty : DirtyAt s' here)
    : WritesBack env s' here := by
  obtain ⟨mpc', cached', isDirty⟩ := dirty
  cases cached : s.cache here.inode here.key with
  | none =>
    rw [(unmaps.uncached _ _ cached).1] at cached'
    cases cached'
  | some mpc =>
    rcases unmaps.cached _ _ mpc cached with ⟨_, kept, _, same⟩ | ⟨gone, _⟩
    · obtain rfl := some.inj (kept.symm.trans cached')
      obtain ⟨whole, low, writes, mount, driver⟩ := ok ⟨mpc, cached, same ▸ isDirty⟩
      exact ⟨whole, low, writes, (unmaps.mount _).trans mount, driver⟩
    · rw [gone] at cached'
      cases cached'

end Unmaps

variable {env : Env} {s : State} {f key : ℕ}

/-- A write of one page does not reach other pages. -/
theorem pwriteInode_content (i : ℕ) (j key' b : ℕ) (less : b < pageSize)
    : ((pwriteInode s i f pageSize (key * pageSize)).inode j).content (key' * pageSize + b)
      = if j = i ∧ key' = key then (s.frame f).bytes b
        else (s.inode j).content (key' * pageSize + b) := by
  simp only [pwriteInode, setInode, update_apply]
  by_cases sameInode : j = i
  · subst sameInode
    simp only [if_true, true_and]
    by_cases sameKey : key' = key
    · subst sameKey
      rw [if_pos rfl, if_pos (by omega), Nat.add_sub_cancel_left]
    · rw [if_neg sameKey, if_neg]
      simp only [pageSize] at less ⊢
      omega
  · simp [sameInode]

/-- The file after the write-back of a page that needs it. -/
structure WrittenBack (s : State) (i key f : ℕ) (dirty : Bool) (s₁ : State) : Prop where
  vm : s₁.vm = s.vm
  pte : s₁.pte = s.pte
  frame : s₁.frame = s.frame
  allocated : s₁.allocated = s.allocated
  mode : ∀ j, (s₁.inode j).mode = (s.inode j).mode
  mount : ∀ j, (s₁.inode j).readOnly = (s.inode j).readOnly
  cache : ∀ j key', s₁.cache j key' = s.cache j key'
  stored : dirty = true → Stored s₁ i key (s.frame f)
  others
    : ∀ j key', ¬ (j = i ∧ key' = key) → ∀ b < pageSize,
        (s₁.inode j).content (key' * pageSize + b) = (s.inode j).content (key' * pageSize + b)

theorem writtenBack {r fd n prot} (dirty : Bool)
    (ok : dirty = true → WritesBack env s ⟨fd.inode, key, prot, r.whole n, fd.writes⟩)
    : WrittenBack s fd.inode key f dirty (if dirty then writeBack env s r fd f n key else s) := by
  cases dirty with
  | false =>
    exact ⟨rfl, rfl, rfl, rfl, fun _ => rfl, fun _ => rfl, fun _ _ => rfl, by simp,
      fun _ _ _ _ _ => rfl⟩
  | true =>
    obtain ⟨whole, low, writes, mount, driver⟩ := ok rfl
    have complete : ¬ (r.start + r.len < n * pageSize + pageSize) := by
      simp only [VmRecord.whole, decide_eq_true_eq] at whole
      omega
    have page : writeBack env s r fd f n key
        = pwriteInode s fd.inode f pageSize (key * pageSize) := by
      simp only [FileDescriptor.writes, Bool.and_eq_true, Bool.not_eq_true'] at writes
      simp only at mount low
      rw [writeBack, if_neg complete, Nat.mod_eq_of_lt low, pwriteFile,
        if_neg (by simp [writes, mount, driver, pageSize])]
      simp [writes]
    rw [if_pos rfl, page]
    refine ⟨rfl, rfl, rfl, rfl, fun j => ?_, fun j => ?_, fun j key' => ?_, ?_, ?_⟩
    · exact setInode_field _ Inode.mode (by rfl) j
    · exact setInode_field _ Inode.readOnly (by rfl) j
    · exact setInode_field _ (fun inode => inode.mmapPageCache key') (by rfl) j
    · intro _ b less
      rw [pwriteInode_content _ _ _ _ less, if_pos ⟨rfl, rfl⟩]
    · intro j key' other b less
      rw [pwriteInode_content _ _ _ _ less, if_neg other]

namespace Inv

variable {s s' : State} {pid : ℕ} {r : VmRecord} {fd : FileDescriptor}

/-- What one round of the loop of `munmap_vmr` does. -/
structure UnmapsPage (s : State) (pid n : ℕ) (s' : State) : Prop where
  inv : Inv s'
  unmaps : Unmaps s s'
  vm : s'.vm = s.vm
  pte : ∀ p m, s'.pte p m = if p = pid ∧ m = n then none else s.pte p m

section Page
variable {n : ℕ} {here : Spot} {mpc : MmapPageCache} {pte : Pte}

theorem Changes.unmapsPage {entry}
    (changes : Changes s pid n here none entry s') (inv : Inv s') (frame : s'.frame = s.frame)
    (mount : ∀ i, (s'.inode i).readOnly = (s.inode i).readOnly)
    (cached : s.cache here.inode here.key = some mpc)
    (goes : (∃ mpc', entry = some mpc' ∧ mpc'.page = mpc.page ∧ mpc'.dirty = mpc.dirty)
      ∨ (entry = none ∧ (mpc.dirty = true → Stored s' here.inode here.key (s.frame mpc.page))))
    (others : ∀ i key, ¬ (i = here.inode ∧ key = here.key) → ∀ b < pageSize,
      (s'.inode i).content (key * pageSize + b) = (s.inode i).content (key * pageSize + b))
    : UnmapsPage s pid n s' := by
  refine ⟨inv, ⟨frame, mount, ?_, ?_⟩, changes.vm, changes.pte⟩
  · intro i key old cachedOld
    rw [changes.cache]
    by_cases same : i = here.inode ∧ key = here.key
    · obtain ⟨rfl, rfl⟩ := same
      obtain rfl := some.inj (cached.symm.trans cachedOld)
      rwa [if_pos ⟨rfl, rfl⟩]
    · rw [if_neg same]
      exact .inl ⟨old, cachedOld, rfl, rfl⟩
  · intro i key uncached
    have other : ¬ (i = here.inode ∧ key = here.key) := by
      rintro ⟨rfl, rfl⟩
      rw [cached] at uncached
      cases uncached
    rw [changes.cache, if_neg other]
    exact ⟨uncached, others i key other⟩

/-- The last mapping of an entry goes. -/
theorem dropPage (inv : Inv s) {s₁} (present : s.pte pid n = some pte)
    (found : spot (s.vm pid) n = some here) (cached : s.cache here.inode here.key = some mpc)
    (last : mpc.instances = 1) (wrote : WrittenBack s here.inode here.key mpc.page mpc.dirty s₁)
    : UnmapsPage s pid n ((((s₁.setEntry here.inode here.key none).changed
        (.remove (.pageCache here.inode) here.key)).pffree mpc.page).setPte pid n none) := by
  have contentAt (i) : ((s₁.setEntry here.inode here.key none).inode i).content
      = (s₁.inode i).content :=
    setEntry_content _ _ _ _
  have changes : Changes s pid n here none none ((((s₁.setEntry here.inode here.key none).changed
      (.remove (.pageCache here.inode) here.key)).pffree mpc.page).setPte pid n none) :=
    .of_setEntry wrote.vm (fun p m => by rw [← wrote.pte]; rfl) rfl wrote.mode wrote.cache
  have mount (i) := (setEntry_readOnly here.inode here.key none i).trans (wrote.mount i)
  refine changes.unmapsPage ?_ wrote.frame mount cached (.inr ⟨rfl, fun dirty b less => ?_⟩) ?_
  · refine inv.detach present found cached (by rwa [if_pos last]) wrote.frame fun f => ?_
    rw [← wrote.allocated]
    simp only [last, true_and]
    exact update_apply _ _ _ _
  · exact (congrFun (contentAt _) _).trans (wrote.stored dirty b less)
  · exact fun i key other b less =>
      (congrFun (contentAt i) _).trans (wrote.others i key other b less)

/-- One of several mappings of an entry goes. -/
theorem releasePage (inv : Inv s) (present : s.pte pid n = some pte)
    (found : spot (s.vm pid) n = some here) (cached : s.cache here.inode here.key = some mpc)
    (several : mpc.instances ≠ 1)
    : UnmapsPage s pid n
        ((s.setEntry here.inode here.key (some { mpc with instances := mpc.instances - 1 })).setPte
          pid n none) := by
  refine Changes.setEntry_setPte.unmapsPage ?_ rfl (setEntry_readOnly _ _ _) cached
    (.inl ⟨_, rfl, rfl, rfl⟩) ?_
  · refine inv.detach present found cached ?_ rfl fun f => ?_
    · rw [if_neg several]
      exact .setEntry_setPte
    · exact (if_neg fun both => several both.1).symm
  · exact fun i _ _ b _ => congrFun (setEntry_content _ _ _ i) _

end Page

theorem unmapSharedPage (inv : Inv s) {j} (mem : r ∈ s.vm pid)
    (backed : r.backingFd = some fd) (less : j < r.pages)
    (ok : ∀ here, spot (s.vm pid) (r.start / pageSize + j) = some here
      → DirtyAt s here → WritesBack env s here)
    : UnmapsPage s pid (r.start / pageSize + j) (Mmap.unmapSharedPage env pid r fd s j) := by
  have aligned := (inv.valid pid).aligned r mem
  have covers := covers_page aligned less
  obtain ⟨fd', backed', regular, _, found⟩ := inv.spot_of_covers mem covers
  obtain rfl := some.inj (backed.symm.trans backed')
  simp only [Mmap.unmapSharedPage, key_page aligned]
  cases present : s.pte pid (r.start / pageSize + j) with
  | none =>
    refine ⟨inv, .refl s, rfl, fun p m => ?_⟩
    split_ifs with same
    · rw [same.1, same.2, present]
    · rfl
  | some pte =>
    obtain ⟨here, mpc, found', cached, page, _⟩ := inv.placed _ _ pte present
    obtain rfl := some.inj (found.symm.trans found')
    have cachedAt : (s.inode fd.inode).mmapPageCache (r.key (r.start / pageSize + j)) = some mpc :=
      cached
    simp only [regular, if_true, cachedAt]
    by_cases last : mpc.instances = 1
    · rw [if_pos last]
      refine inv.dropPage present found cached last ?_
      rw [page]
      exact writtenBack mpc.dirty fun dirty => ok _ found ⟨mpc, cached, dirty⟩
    · rw [if_neg last]
      exact inv.releasePage present found cached last

/-- What the whole loop of `munmap_vmr` does. -/
structure UnmapsPages (s : State) (pid : ℕ) (r : VmRecord) (js : List ℕ) (s' : State) : Prop where
  inv : Inv s'
  unmaps : Unmaps s s'
  vm : s'.vm = s.vm
  absent : ∀ p m, s.pte p m = none → s'.pte p m = none
  gone : ∀ j ∈ js, s'.pte pid (r.start / pageSize + j) = none

theorem unmapSharedPages (inv : Inv s) (js : List ℕ) (mem : r ∈ s.vm pid)
    (backed : r.backingFd = some fd) (less : ∀ j ∈ js, j < r.pages)
    (ok : ∀ j ∈ js, ∀ here, spot (s.vm pid) (r.start / pageSize + j) = some here
      → DirtyAt s here → WritesBack env s here)
    : UnmapsPages s pid r js (js.foldl (Mmap.unmapSharedPage env pid r fd) s) := by
  induction js generalizing s with
  | nil => exact ⟨inv, .refl s, rfl, fun _ _ none => none, by simp⟩
  | cons j rest ih =>
    have page := inv.unmapSharedPage mem backed (less j (by simp)) (ok j (by simp))
    have pages := ih page.inv (page.vm ▸ mem) (fun k inRest => less k (by simp [inRest]))
      (fun k inRest here found =>
        page.unmaps.writesBack (ok k (by simp [inRest]) here (page.vm ▸ found)))
    have absent (p m) (none : s.pte p m = none)
        : (Mmap.unmapSharedPage env pid r fd s j).pte p m = Option.none := by
      rw [page.pte, none, ite_self]
    refine ⟨pages.inv, page.unmaps.trans pages.unmaps, pages.vm.trans page.vm,
      fun p m none => pages.absent p m (absent p m none), ?_⟩
    intro k inList
    rcases mem_cons.mp inList with rfl | inRest
    · refine pages.absent _ _ ?_
      rw [page.pte, if_pos ⟨rfl, rfl⟩]
    · exact pages.gone k inRest

/-- Unmapping does not look at the records. -/
theorem writeBack_setVm (p : ℕ) (vm : List VmRecord) (f n key : ℕ)
    : writeBack env (s.setVm p vm) r fd f n key = (writeBack env s r fd f n key).setVm p vm := by
  simp only [writeBack, pwriteFile, pwriteInode, State.setVm]
  split_ifs <;> rfl

theorem unmapSharedPage_setVm (p : ℕ) (vm : List VmRecord) (j : ℕ)
    : Mmap.unmapSharedPage env pid r fd (s.setVm p vm) j
      = (Mmap.unmapSharedPage env pid r fd s j).setVm p vm := by
  simp only [Mmap.unmapSharedPage]
  have samePte : (s.setVm p vm).pte = s.pte := rfl
  have sameInode : (s.setVm p vm).inode = s.inode := rfl
  rw [samePte, sameInode]
  cases s.pte pid (r.start / pageSize + j) with
  | none => rfl
  | some pte =>
    split_ifs
    · cases (s.inode fd.inode).mmapPageCache ((r.mappingOffset / pageSize + j) % wordLimit) with
      | none => rfl
      | some mpc =>
        simp only [writeBack_setVm]
        split_ifs <;> rfl
    · rfl

theorem unmapSharedPages_setVm (p : ℕ) (vm : List VmRecord) (js : List ℕ)
    : js.foldl (Mmap.unmapSharedPage env pid r fd) (s.setVm p vm)
      = (js.foldl (Mmap.unmapSharedPage env pid r fd) s).setVm p vm := by
  induction js generalizing s with
  | nil => rfl
  | cons j rest ih => rw [foldl_cons, foldl_cons, unmapSharedPage_setVm, ih]

/-- One round of `munmap_to_vmr` on the record it cuts out. The record leaves the tree before its
pages are unmapped; the order does not matter.
-/
theorem munmapRecord (inv : Inv s) {r r' vm' addr limit i}
    (aligned : addr % pageSize = 0) (mem : r ∈ s.vm pid)
    (cut : CutOut (s.vm pid) r ((addr + i * pageSize) % wordLimit) limit vm' r')
    (ok : ∀ k, i ≤ k → k < i + limit → UnmapOk env s pid addr k)
    : let final := munmapVmr env pid (s.setVm pid (removeRecord vm' r')) r' false
      Inv final ∧ Unmaps s final
        ∧ ∀ n, spot (final.vm pid) n = if r'.Covers n then none else spot (s.vm pid) n := by
  obtain ⟨validRest, derivedRest, spotsRest⟩ := cut.valid.remove cut.member
  obtain ⟨isShared, fd, backed, _⟩ := inv.shared pid r mem
  have backed' := cut.backingFd.trans backed
  have isShared' := cut.isPrivate.trans isShared
  have startAligned := cut.valid.aligned r' cut.member
  have keeps : Inv (s.setVm pid vm') := by
    refine inv.setVm cut.valid cut.derived fun m _ => ?_
    rw [cut.spot]
  have newVm : (s.setVm pid vm').vm pid = vm' := update_self _ _ _
  have okPages : ∀ j ∈ range r'.pages, ∀ here,
      spot ((s.setVm pid vm').vm pid) (r'.start / pageSize + j) = some here
        → DirtyAt (s.setVm pid vm') here → WritesBack env (s.setVm pid vm') here := by
    intro j inRange here found
    rw [mem_range] at inRange
    rw [newVm, cut.spot, ← cut.pageAt_add aligned inRange] at found
    have limited := cut.pages
    exact ok (i + j) (by omega) (by omega) here found
  have pages := keeps.unmapSharedPages (range r'.pages) (by rw [newVm]; exact cut.member)
    backed' (fun j inRange => mem_range.mp inRange) okPages
  have sameVm := (congrFun pages.vm pid).trans newVm
  have run : munmapVmr env pid (s.setVm pid (removeRecord vm' r')) r' false
      = ((range r'.pages).foldl (Mmap.unmapSharedPage env pid r' fd) (s.setVm pid vm')).setVm pid
          (removeRecord vm' r') := by
    have twice : (s.setVm pid vm').setVm pid (removeRecord vm' r')
        = s.setVm pid (removeRecord vm' r') := by
      simp [State.setVm]
    rw [← unmapSharedPages_setVm, twice]
    simp [munmapVmr, backed', isShared']
  simp only [run]
  refine ⟨?_, ⟨pages.unmaps.frame, pages.unmaps.mount, pages.unmaps.cached,
    pages.unmaps.uncached⟩, ?_⟩
  · refine pages.inv.setVm validRest (by rw [sameVm]; exact derivedRest) fun m present => ?_
    rw [spotsRest, sameVm, if_neg]
    intro covers
    obtain ⟨j, less, rfl⟩ := exists_page startAligned covers
    exact present (pages.gone j (mem_range.mpr less))
  · intro n
    have removed : ((((range r'.pages).foldl (Mmap.unmapSharedPage env pid r' fd)
        (s.setVm pid vm')).setVm pid (removeRecord vm' r')).vm pid) = removeRecord vm' r' :=
      update_self _ _ _
    rw [removed, spotsRest, cut.spot]

/-- `munmap_to_vmr` keeps the invariant and writes back what is dirty. -/
theorem munmapLoop (inv : Inv s) {addr len fuel i ignoreMissing ret}
    (aligned : addr % pageSize = 0) (ok : ∀ k, i ≤ k → k < len → UnmapOk env s pid addr k)
    (call : Mmap.munmapLoop env pid addr len ignoreMissing false fuel s i = some (s', ret))
    : Inv s' ∧ Unmaps s s' := by
  have kept := munmapLoop_rule (P := fun i s₁ => (Inv s₁ ∧ Unmaps s s₁)
    ∧ ∀ k, i ≤ k → k < len → UnmapOk env s₁ pid addr k) ?_ ?_ ⟨⟨inv, .refl s⟩, ok⟩ call
  · exact kept.elim fun _ kept => kept.1
  · exact fun _ ⟨kept, ok⟩ => ⟨kept, fun k low high => ok k (by omega) high⟩
  · intro i s₁ r vm' cut more ⟨⟨inv, unmaps⟩, ok⟩ search split
    obtain ⟨mem, starts, _⟩ := (rbtreeSearchLte_spec _ _).1 r search
    have isCut := (inv.valid pid).cutOut mem starts split
    obtain ⟨kept, unmapsHere, spots⟩ := (inv.withChanges (.remove (.records pid) cut.start ::
      (s₁.addRecords pid (splitStarts r ((addr + i * pageSize) % wordLimit - r.start)
        (len - i))).changes)).munmapRecord aligned mem isCut
      (fun k low high => ok k low (by omega))
    replace unmapsHere :=
      Unmaps.mk unmapsHere.frame unmapsHere.mount unmapsHere.cached unmapsHere.uncached (s := s₁)
    refine ⟨⟨kept, unmaps.trans unmapsHere⟩, fun k low high here found => ?_⟩
    have there := (spots (pageAt addr k)).symm.trans found
    split_ifs at there
    exact unmapsHere.writesBack (ok k (by omega) high here there)

end Inv

end UnstableOS.Mm.Mmap
