import UnstableOS.Mm.Mmap.Trees

/-! The calls that map pages: page faults and the checks of system call arguments. They keep the
invariant of the page caches, and what the trees have.
-/

namespace UnstableOS.Mm.Mmap

open Lib Function Option State Prod Bool

/-- The page's entry is dirty. -/
def DirtyAt (s : State) (here : Spot) : Prop :=
  ∃ mpc, s.cache here.inode here.key = some mpc ∧ mpc.dirty = true

/-- The page faults that keep the invariant. The address is not just behind the last whole page of
a record. A page that is present becomes writable only if its entry is dirty or `mmap_page_fault`
marks it. The first access to a page of the file is a write if the page may be written, and the page
can be read and recorded.
-/
structure FaultOk (env : Env) (s : State) (pid addr : ℕ) (error : PageFaultError) : Prop where
  inside
    : ∀ r, rbtreeSearchLte (s.vm pid) addr = some r
        → r.start + r.len ≠ addr / pageSize * pageSize
  present
    : ∀ here, spot (s.vm pid) (addr / pageSize) = some here → s.pte pid (addr / pageSize) ≠ none
        → here.prot.write = true
        → DirtyAt s here ∨ (error.w = true ∧ sIsreg (s.inode here.inode).instances = true)
  first
    : ∀ here, spot (s.vm pid) (addr / pageSize) = some here → s.pte pid (addr / pageSize) = none
        → s.cache here.inode here.key = none
        → (here.prot.write = true → error.w = true) ∧ env.readOk = true ∧ env.kalloc = true

/-- The checks that keep the invariant: a page that may be written is checked for writing, unless
its entry is dirty already.
-/
def CheckOk (s : State) (pid addr : ℕ) (writable : Bool) : Prop :=
  ∀ here, spot (s.vm pid) (addr / pageSize) = some here → here.prot.write = true
    → writable = true ∨ DirtyAt s here

/-- A call keeps the invariant, and what the trees have. -/
structure Kept (s s' : State) : Prop where
  inv : Inv s'
  linked : Linked s → Linked s'

namespace Inv

variable {env : Env} {s s' : State} {pid n : ℕ} {r : VmRecord} {fd : FileDescriptor}

theorem kept (inv : Inv s) : Kept s s := ⟨inv, id⟩

theorem spot_of_covers (inv : Inv s) (mem : r ∈ s.vm pid) (covers : r.Covers n)
    : ∃ fd, r.backingFd = some fd ∧ sIsreg (s.inode fd.inode).mode = true ∧ r.isPrivate = false
        ∧ spot (s.vm pid) n = some ⟨fd.inode, r.key n, r.prot, r.whole n, fd.writes⟩ := by
  obtain ⟨isShared, fd, backed, regular⟩ := inv.shared pid r mem
  refine ⟨fd, backed, regular, isShared, ?_⟩
  rw [(inv.valid pid).spot_eq mem covers, VmRecord.spot, backed]
  rfl

/-- The state with a page mapped to a new frame of any contents. -/
structure MapsFresh (s : State) (pid n f : ℕ) (flags : Flags) (s₁ : State) : Prop where
  vm : s₁.vm = s.vm
  changes : s₁.changes = s.changes
  inode : s₁.inode = s.inode
  pte : s₁.pte = (s.setPte pid n (some ⟨f, flags⟩)).pte
  allocated : s₁.allocated = update s.allocated f true
  frames : ∀ g, g ≠ f → s₁.frame g = s.frame g
  clean : (s₁.frame f).userWritten = false

variable {f addr : ℕ} {flags : Flags} {here : Spot} {dirty writable : Bool}
    {error : PageFaultError} {ret : Int}

/-- A new frame for a page of the file, and an entry for it. -/
theorem attach_fresh (inv : Inv s) {s₁}
    (maps : MapsFresh s pid n f flags s₁) (absent : s.pte pid n = none)
    (found : spot (s.vm pid) n = some here) (uncached : s.cache here.inode here.key = none)
    (free : s.allocated f = false) (writable : flags.writable = true → dirty = true)
    : Kept s ((s₁.setEntry here.inode here.key (some ⟨1, dirty, f⟩)).changed
        (.add (.pageCache here.inode) here.key)) := by
  have other {i key mpc} (cached : s.cache i key = some mpc) : mpc.page ≠ f := by
    rintro rfl
    rw [(inv.live i key mpc cached).2.1] at free
    cases free
  have changes : Changes s pid n here (some ⟨f, flags⟩) (some ⟨1, dirty, f⟩)
      (s₁.setEntry here.inode here.key (some ⟨1, dirty, f⟩)) := by
    refine .of_setEntry maps.vm (fun p m => congrFun (congrFun maps.pte p) m) rfl ?_ ?_
    · exact fun i => by rw [maps.inode]
    · exact fun i key => by rw [cache, maps.inode, cache]
  refine ⟨withChanges (inv.attach ⟨1, dirty, f⟩ absent found changes ?_ writable ?_ ?_ ?_) _,
    fun linked => linked.changeEntry (some _) (by simp [uncached]) (congrArg _ maps.changes) maps.vm
      changes.cache⟩
  · simp [count, uncached]
  · intro mpc cached
    rw [uncached] at cached
    cases cached
  · intro _
    refine ⟨?_, maps.clean, fun i key mpc cached => other cached⟩
    exact (congrFun maps.allocated f).trans (update_self _ _ _)
  · intro i key mpc cached
    refine ⟨?_, congrArg Frame.userWritten (maps.frames _ (other cached))⟩
    refine (congrFun maps.allocated _).trans ?_
    exact (update_of_ne (other cached) _ _).trans (inv.live i key mpc cached).2.1

/-- One more page is mapped to an entry that exists. -/
theorem attach_cached (inv : Inv s) {mpc} {result : Int} (found : spot (s.vm pid) n = some here)
    (cached : s.cache here.inode here.key = some mpc)
    (writable : flags.writable = true → (mpc.dirty || dirty) = true)
    (call : (pagingMapPhysAddr (s.setEntry here.inode here.key
        (some { mpc with instances := mpc.instances + 1, dirty := mpc.dirty || dirty }))
      pid n mpc.page flags).map (fun s => (s, result)) = some (s', ret))
    : Kept s s' := by
  obtain ⟨final, mapped, eq⟩ := map_eq_some_iff.mp call
  obtain ⟨rfl, _⟩ := mk.inj eq
  rw [pagingMapPhysAddr] at mapped
  split_ifs at mapped with present
  obtain rfl := some.inj mapped
  have absent := not_isSome_iff_eq_none.mp present
  refine ⟨inv.attach { mpc with instances := mpc.instances + 1, dirty := mpc.dirty || dirty } absent
    found .setEntry_setPte ?_ writable ?_ ?_ ?_,
    fun linked => (linked.setEntry (by simp [cached])).setPte _⟩
  · simp [count, cached]
  · intro old cachedOld
    obtain rfl := some.inj (cached.symm.trans cachedOld)
    exact ⟨rfl, fun isDirty => by simp [isDirty]⟩
  · intro uncached
    rw [cached] at uncached
    cases uncached
  · exact fun i key old cachedOld => ⟨(inv.live i key old cachedOld).2.1, rfl⟩

theorem pagingAddPage_fresh (absent : s.pte pid n = none)
    (added : pagingAddPage env s pid n flags = some s')
    : ∃ f, env.pfalloc = some f ∧ MapsFresh s pid n f flags s' := by
  simp only [pagingAddPage, absent] at added
  obtain ⟨f, allocates, rfl⟩ := map_eq_some_iff.mp added
  refine ⟨f, allocates, rfl, rfl, rfl, rfl, rfl, ?_, ?_⟩
  · exact fun g other => update_of_ne other _ _
  · simp [setFrame]

theorem MapsFresh.preadFile (maps : MapsFresh s pid n f flags s') (i count off : ℕ)
    : MapsFresh s pid n f flags (Mmap.preadFile s' i f count off) := by
  refine ⟨maps.vm, maps.changes, maps.inode, maps.pte, maps.allocated, ?_, ?_⟩
  · exact fun g other => (update_of_ne other _ _).trans (maps.frames g other)
  · simp [Mmap.preadFile, setFrame, maps.clean]

theorem MapsFresh.pte_eq (maps : MapsFresh s pid n f flags s')
    : s'.pte pid n = some ⟨f, flags⟩ :=
  (congrFun (congrFun maps.pte pid) n).trans (if_pos ⟨rfl, rfl⟩)

/-- The entries that do not change. -/
theorem sameEntry (inv : Inv s) (i key : ℕ)
    : (s.cache i key = none ∧ s.cache i key = none)
      ∨ ∃ mpc mpc', s.cache i key = some mpc ∧ s.cache i key = some mpc'
        ∧ mpc'.page = mpc.page ∧ mpc'.instances = mpc.instances
        ∧ (mpc.dirty = true → mpc'.dirty = true)
        ∧ s.allocated mpc.page = true
        ∧ ((s.frame mpc.page).userWritten = true → (s.frame mpc.page).userWritten = true
          ∨ mpc'.dirty = true) := by
  cases cached : s.cache i key with
  | none => exact .inl ⟨rfl, rfl⟩
  | some mpc =>
    obtain ⟨_, allocated, _⟩ := inv.live i key mpc cached
    exact .inr ⟨mpc, mpc, rfl, rfl, rfl, rfl, id, allocated, .inl⟩

theorem markDirty (inv : Inv s) (i key : ℕ) : Inv (Mmap.markDirty s i key) := by
  simp only [Mmap.markDirty]
  cases cached : (s.inode i).mmapPageCache key with
  | none => exact inv
  | some mpc =>
    refine inv.restate rfl (fun j => setEntry_mode _ _ _ j) ?_ ?_ ?_
    · exact fun p m pte present => ⟨pte, present, rfl, .inl⟩
    · intro p m pte present absent
      rw [show s.pte p m = none from absent] at present
      cases present
    · intro j key'
      rw [setEntry_cache]
      by_cases same : j = i ∧ key' = key
      · obtain ⟨rfl, rfl⟩ := same
        obtain ⟨_, allocated, _⟩ := inv.live j key' mpc cached
        refine .inr ⟨mpc, { mpc with dirty := true }, cached, if_pos ⟨rfl, rfl⟩, rfl, rfl,
          fun _ => rfl, allocated, fun _ => .inr rfl⟩
      · rw [if_neg same]
        exact inv.sameEntry j key'

theorem markDirty_dirtyAt (cached : s.cache here.inode here.key ≠ none)
    : DirtyAt (Mmap.markDirty s here.inode here.key) here := by
  obtain ⟨mpc, found⟩ := ne_none_iff_exists'.mp cached
  refine ⟨{ mpc with dirty := true }, ?_, rfl⟩
  rw [cache] at found
  rw [Mmap.markDirty, found]
  exact (setEntry_cache _ _ _ _ _).trans (if_pos ⟨rfl, rfl⟩)

section
variable (inv : Inv s)
include inv

theorem setFlags {pte} (present : s.pte pid n = some pte) (found : spot (s.vm pid) n = some here)
    (writable : flags.writable = true → DirtyAt s here)
    : Inv (s.setPte pid n (some { pte with flags := flags })) := by
  refine inv.restate rfl (fun _ => rfl) ?_ ?_ inv.sameEntry
  · intro p m pte' present'
    simp only [setPte] at present'
    split_ifs at present' with same
    · obtain ⟨rfl, rfl⟩ := same
      obtain rfl := some.inj present'
      refine ⟨pte, present, rfl, fun nowWritable => .inr ?_⟩
      obtain ⟨mpc, cached, dirty⟩ := writable nowWritable
      exact ⟨here, mpc, found, cached, dirty⟩
    · exact ⟨pte', present', rfl, .inl⟩
  · intro p m pte' present'
    simp only [setPte]
    split_ifs
    · simp
    · simp [present']

theorem faultPresent (mem : r ∈ s.vm pid) (covers : r.Covers n)
    (ok : ∀ here, spot (s.vm pid) n = some here → s.pte pid n ≠ none → here.prot.write = true
      → DirtyAt s here ∨ (error.w = true ∧ sIsreg (s.inode here.inode).instances = true))
    (call : Mmap.faultPresent s pid error r n = some (s', ret))
    : Kept s s' := by
  obtain ⟨fd, backed, _, isShared, found⟩ := inv.spot_of_covers mem covers
  simp only [Mmap.faultPresent, backed] at call
  obtain ⟨final, changes, eq⟩ := map_eq_some_iff.mp call
  obtain ⟨rfl, _⟩ := mk.inj eq
  obtain ⟨pte, present, rfl⟩ := map_eq_some_iff.mp changes
  split_ifs at present ⊢ with marks
  · have before : s.pte pid n = some pte := by
      simp only [Mmap.markDirty] at present
      split at present <;> exact present
    have sameVm : (Mmap.markDirty s fd.inode (r.key n)).vm = s.vm := by
      simp only [Mmap.markDirty]
      split <;> rfl
    obtain ⟨here, mpc, found', cached, _⟩ := inv.placed pid n pte before
    obtain rfl := some.inj (found.symm.trans found')
    refine ⟨(inv.markDirty _ _).setFlags present (sameVm ▸ found) fun _ => ?_,
      fun linked => (linked.markDirty _ _).setPte _⟩
    exact markDirty_dirtyAt (by rw [cached]; simp)
  · refine ⟨inv.setFlags present found fun writable => ?_, fun linked => linked.setPte _⟩
    rcases ok _ found (by rw [present]; simp) writable with dirty | ⟨isWrite, counted⟩
    · exact dirty
    · have writes : r.prot.write = true := writable
      simp [isWrite, writes, isShared, counted] at marks

theorem faultRead (backed : r.backingFd = some fd)
    (mem : r ∈ s.vm pid) (covers : r.Covers n) (absent : s.pte pid n = none)
    (uncached : s.cache fd.inode (r.key n) = none)
    (fresh : ∀ f, env.pfalloc = some f → s.allocated f = false)
    (writes : r.prot.write = true → error.w = true) (readOk : env.readOk = true)
    (kalloc : env.kalloc = true)
    : Kept s (Mmap.faultRead env s pid error r fd n).1 := by
  obtain ⟨fd', backed', _, isShared, found⟩ := inv.spot_of_covers mem covers
  obtain rfl := some.inj (backed.symm.trans backed')
  simp only [Mmap.faultRead]
  cases added : pagingAddPage env s pid n r.prot.mappingFlags with
  | none => exact inv.kept
  | some s₁ =>
    obtain ⟨f, allocates, maps⟩ := pagingAddPage_fresh absent added
    have maps' := maps.preadFile fd.inode
    simp only [readOk, Bool.not_true, false_eq_true, if_false, isShared, kalloc, maps.pte_eq,
      addEntry, (maps' _ _).pte_eq]
    exact inv.attach_fresh (maps' _ _) absent found uncached (fresh f allocates) writes

/-- `mmap_page_fault` keeps the invariant. -/
theorem mmapPageFault
    (ok : FaultOk env s pid addr error) (fresh : ∀ f, env.pfalloc = some f → s.allocated f = false)
    (call : Mmap.mmapPageFault env s pid addr error = some (s', ret))
    : Kept s s' := by
  rw [Mmap.mmapPageFault] at call
  cases search : rbtreeSearchLte (s.vm pid) addr with
  | none =>
    simp only [search, some.injEq, Prod.mk.injEq] at call
    exact call.1 ▸ inv.kept
  | some r =>
    obtain ⟨mem, starts, _⟩ := (rbtreeSearchLte_spec _ _).1 r search
    have behind := ok.inside r search
    have aligned := (inv.valid pid).aligned r mem
    simp only [search] at call
    by_cases denied : r.start + r.len < addr / pageSize * pageSize
        ∨ (error.w = true ∧ r.prot.write = false) ∨ (error.w = false ∧ r.prot.read = false)
    · rw [if_pos denied] at call
      exact (mk.inj (some.inj call)).1 ▸ inv.kept
    have covers : r.Covers (addr / pageSize) := by
      refine ⟨?_, ?_⟩
      · simp only [pageSize] at aligned ⊢
        omega
      · omega
    obtain ⟨fd, backed, regular, isShared, found⟩ := inv.spot_of_covers mem covers
    rw [if_neg denied] at call
    by_cases present : error.p = true ∨ (s.pte pid (addr / pageSize)).isSome
    · rw [if_pos present] at call
      exact inv.faultPresent mem covers ok.present call
    have absent := not_isSome_iff_eq_none.mp fun some => present (.inr some)
    simp only [if_neg present, backed, regular, isShared, Bool.not_true, false_eq_true,
      if_false] at call
    by_cases beyond : (s.inode fd.inode).size < addr - r.start + r.mappingOffset
    · rw [if_pos beyond] at call
      exact (mk.inj (some.inj call)).1 ▸ inv.kept
    rw [if_neg beyond] at call
    cases cached : (s.inode fd.inode).mmapPageCache (r.key (addr / pageSize)) with
    | some mpc =>
      simp only [cached] at call
      refine inv.attach_cached found cached (fun writable => ?_) call
      have isWrite := writable
      rw [and_eq_true] at isWrite
      simp [isWrite.2]
    | none =>
      simp only [cached, some.injEq] at call
      obtain ⟨writes, readOk, kalloc⟩ := ok.first _ found absent cached
      have kept := inv.faultRead backed mem covers absent cached fresh writes readOk kalloc
      rw [call] at kept
      exact kept

theorem checkRead (backed : r.backingFd = some fd)
    (mem : r ∈ s.vm pid) (covers : r.Covers n) (uncached : s.cache fd.inode (r.key n) = none)
    (fresh : ∀ f, env.pfalloc = some f → s.allocated f = false)
    (writes : r.prot.write = true → writable = true)
    (call : Mmap.checkRead env s pid writable r fd n = some (s', ret))
    : Kept s s' := by
  obtain ⟨fd', backed', _, isShared, found⟩ := inv.spot_of_covers mem covers
  obtain rfl := some.inj (backed.symm.trans backed')
  have absent : s.pte pid n = none := by
    cases present : s.pte pid n with
    | none => rfl
    | some pte =>
      obtain ⟨here, mpc, found', cached, _⟩ := inv.placed pid n pte present
      obtain rfl := some.inj (found.symm.trans found')
      rw [uncached] at cached
      cases cached
  simp only [Mmap.checkRead] at call
  cases added : pagingAddPage env s pid n r.prot.mappingFlags with
  | none =>
    simp only [added, some.injEq, Prod.mk.injEq] at call
    exact call.1 ▸ inv.kept
  | some s₁ =>
    obtain ⟨f, allocates, maps⟩ := pagingAddPage_fresh absent added
    have maps' : MapsFresh s pid n f r.prot.mappingFlags (if env.readOk then
        preadFile s₁ fd.inode f pageSize (n * pageSize - r.start + r.mappingOffset) else s₁) := by
      split_ifs
      · exact maps.preadFile _ _ _
      · exact maps
    simp only [added, maps.pte_eq, isShared, false_eq_true, if_false] at call
    cases kalloc : env.kalloc with
    | false => simp [kalloc] at call
    | true =>
      simp only [kalloc, Bool.not_true, false_eq_true, if_false, addEntry, maps'.pte_eq,
        some.injEq, Prod.mk.injEq] at call
      rw [← call.1]
      exact inv.attach_fresh maps' absent found uncached (fresh f allocates) writes

/-- `mmap_check_address` keeps the invariant. -/
theorem mmapCheckAddress
    (ok : CheckOk s pid addr writable) (fresh : ∀ f, env.pfalloc = some f → s.allocated f = false)
    (call : Mmap.mmapCheckAddress env s pid addr writable = some (s', ret))
    : Kept s s' := by
  rw [Mmap.mmapCheckAddress] at call
  cases search : rbtreeSearchLte (s.vm pid) (addr / pageSize * pageSize) with
  | none =>
    simp only [search, some.injEq, Prod.mk.injEq] at call
    exact call.1 ▸ inv.kept
  | some r =>
    obtain ⟨mem, starts, _⟩ := (rbtreeSearchLte_spec _ _).1 r search
    simp only [search] at call
    by_cases denied : r.start + r.len ≤ addr / pageSize * pageSize ∨ r.prot.read = false
        ∨ (r.prot.write = false ∧ writable = true)
    · rw [if_pos denied] at call
      exact (mk.inj (some.inj call)).1 ▸ inv.kept
    have covers : r.Covers (addr / pageSize) := ⟨starts, by omega⟩
    obtain ⟨fd, backed, regular, isShared, found⟩ := inv.spot_of_covers mem covers
    simp only [if_neg denied, backed, regular, isShared, Bool.not_true, false_eq_true,
      if_false] at call
    cases cached : (s.inode fd.inode).mmapPageCache (r.key (addr / pageSize)) with
    | some mpc =>
      simp only [cached] at call
      refine inv.attach_cached found cached (fun mayWrite => ?_) call
      rcases ok _ found mayWrite with forWriting | ⟨mpc', cached', dirty⟩
      · simp [forWriting]
      · obtain rfl := some.inj (Eq.trans (Eq.symm cached) cached')
        simp [dirty]
    | none =>
      simp only [cached] at call
      refine inv.checkRead backed mem covers cached fresh (fun mayWrite => ?_) call
      rcases ok _ found mayWrite with forWriting | ⟨mpc', cached', dirty⟩
      · exact forWriting
      · cases Eq.trans (Eq.symm cached) cached'

end

end Inv

end UnstableOS.Mm.Mmap
