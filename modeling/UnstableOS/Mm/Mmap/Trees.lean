import UnstableOS.Mm.Mmap.PageCache

/-! The trees of the records and of the page caches.
The lists of records and the maps of entries are what the trees have, as the calls of `rbtree_add`
and `rbtree_remove` have left them, so the searches in the trees find what the model finds.
-/

namespace UnstableOS.Mm.Mmap

open Function List

/-- The trees have the starts of the records and the keys of the entries. -/
structure Trees (s : State) (keys : TreeName → List ℕ) : Prop where
  keeps : Rbtree.Keeps s.changes keys
  nodup : ∀ tree, (keys tree).Nodup
  records : ∀ pid, (keys (.records pid)).Perm ((s.vm pid).map VmRecord.start)
  pageCache : ∀ i key, key ∈ keys (.pageCache i) ↔ s.cache i key ≠ none

def Linked (s : State) : Prop := ∃ keys, Trees s keys

variable {s s' : State} {pid i key start : ℕ} {r : VmRecord} {vm' : List VmRecord} {kalloc : Bool}
  {env : Env}

theorem foldl_vm {step} (keeps : ∀ s j, (step s j).vm = s.vm) (js : List ℕ) (s : State)
    : (js.foldl step s).vm = s.vm :=
  foldlRecOn (motive := fun s' => s'.vm = s.vm) js step rfl
    fun s same j _ => (keeps s j).trans same

theorem modifyRecord_starts {vm : List VmRecord} {r' : VmRecord} (same : r'.start = r.start)
    : (modifyRecord vm r r').map VmRecord.start = vm.map VmRecord.start := by
  rw [modifyRecord, map_map]
  refine map_congr_left fun q _ => ?_
  simp only [comp_apply]
  split_ifs with here
  · exact same.trans here.symm
  · rfl

/-- A write to a file is not a change of a tree. -/
theorem pwriteFile_kept (fd : FileDescriptor) (f count off : ℕ)
    : (pwriteFile env s fd f count off).changes = s.changes
      ∧ (pwriteFile env s fd f count off).vm = s.vm
      ∧ ∀ j k, (pwriteFile env s fd f count off).cache j k = s.cache j k := by
  unfold pwriteFile
  split
  · exact ⟨rfl, rfl, fun _ _ => rfl⟩
  · exact ⟨rfl, rfl, fun j k =>
      State.setInode_field _ (fun inode => inode.mmapPageCache k) (by rfl) j⟩

namespace Linked

section Search
variable (linked : Linked s) {trees : TreeName → Rbtree.Index}
  (intact : Rbtree.replay s.changes = some trees)
include linked intact

/-- `rbtree_search_lte` in the tree of a process finds the record that the model finds. -/
theorem searchLte (val : ℕ)
    : Rbtree.rbtreeSearchLte (trees (.records pid)).mem val (s.changes.length + 1)
          (trees (.records pid)).tree 0
        = some ((rbtreeSearchLte (s.vm pid) val).elim 0 fun r => Rbtree.nodeOf r.start) := by
  obtain ⟨keys, keeps, _, records, _⟩ := linked
  have has := (keeps.has trees intact (.records pid)).perm (records pid)
  have few := (records pid).length_eq ▸ keeps.few (.records pid)
  obtain ⟨found, done, which⟩ := has.searchLte (Nat.lt_succ_of_le few) val
  obtain ⟨ofSome, ofNone⟩ := rbtreeSearchLte_spec (s.vm pid) val
  rw [done]
  cases search : rbtreeSearchLte (s.vm pid) val with
  | none =>
    rcases which with ⟨rfl, _⟩ | ⟨key, mem, _, low, _⟩
    · rfl
    · obtain ⟨r, inVm, rfl⟩ := mem_map.mp mem
      exact absurd low (Nat.not_le.mpr (ofNone search r inVm))
  | some r =>
    obtain ⟨mem, low, greatest⟩ := ofSome r search
    rcases which with ⟨_, above⟩ | ⟨key, isKey, rfl, lowKey, greatestKey⟩
    · exact absurd (above _ (mem_map_of_mem mem)) (Nat.not_lt.mpr low)
    · obtain ⟨q, inVm, rfl⟩ := mem_map.mp isKey
      have same := Nat.le_antisymm (greatest q inVm lowKey) (greatestKey _ (mem_map_of_mem mem) low)
      rw [same]
      rfl

/-- `rbtree_search_exact` in the tree of an inode finds the entries of its page cache. -/
theorem searchExact (i key : ℕ)
    : Rbtree.rbtreeSearchExact (trees (.pageCache i)).mem key (s.changes.length + 1)
          (trees (.pageCache i)).tree
        = some (if s.cache i key = none then 0 else Rbtree.nodeOf key) := by
  obtain ⟨keys, keeps, _, _, entries⟩ := linked
  have has := keeps.has trees intact (.pageCache i)
  rw [has.searchExact (Nat.lt_succ_of_le (keeps.few _))]
  simp only [entries, ite_not]

end Search

/-- A change that no tree takes part in. -/
theorem congr (linked : Linked s) (changes : s'.changes = s.changes)
    (records : ∀ pid, (s'.vm pid).map VmRecord.start = (s.vm pid).map VmRecord.start)
    (entries : ∀ i key, s'.cache i key = none ↔ s.cache i key = none)
    : Linked s' := by
  obtain ⟨keys, trees⟩ := linked
  refine ⟨keys, changes ▸ trees.keeps, trees.nodup, fun pid => ?_, fun i key => ?_⟩
  · rw [records]
    exact trees.records pid
  · rw [trees.pageCache, not_iff_not, entries]

/-- The tree of one process changes. -/
theorem changeRecords {keys new} (trees : Trees s keys)
    (keeps : Rbtree.Keeps s'.changes (update keys (.records pid) new))
    (vm : s'.vm = update s.vm pid vm') (records : new.Perm (vm'.map VmRecord.start))
    (nodup : new.Nodup) (entries : ∀ i key, s'.cache i key = none ↔ s.cache i key = none)
    : Linked s' := by
  refine ⟨_, keeps, fun tree => ?_, fun p => ?_, fun i key => ?_⟩
  · rw [update_apply]
    split
    · exact nodup
    · exact trees.nodup tree
  · rw [vm]
    by_cases same : p = pid
    · rw [same, update_self, update_self]
      exact records
    · rw [update_of_ne same, update_of_ne (by simpa using same)]
      exact trees.records p
  · rw [update_of_ne (by simp), trees.pageCache, not_iff_not, entries]

theorem addRecord (linked : Linked s)
    (changes : s'.changes = .add (.records pid) start :: s.changes)
    (fresh : ∀ r ∈ s.vm pid, r.start ≠ start) (vm : s'.vm = update s.vm pid vm')
    (records : vm'.map VmRecord.start = start :: (s.vm pid).map VmRecord.start)
    (entries : ∀ i key, s'.cache i key = none ↔ s.cache i key = none)
    : Linked s' := by
  obtain ⟨keys, trees⟩ := linked
  have new : start ∉ keys (.records pid) := by
    rw [(trees.records pid).mem_iff, mem_map]
    exact fun ⟨r, mem, same⟩ => fresh r mem same
  refine changeRecords trees (changes ▸ trees.keeps.add new) vm ?_ ((trees.nodup _).cons new)
    entries
  rw [records]
  exact (trees.records pid).cons start

theorem removeRecord (linked : Linked s) (mem : r ∈ s.vm pid)
    (changes : s'.changes = .remove (.records pid) r.start :: s.changes)
    (vm : s'.vm = update s.vm pid (Mmap.removeRecord (s.vm pid) r))
    (entries : ∀ i key, s'.cache i key = none ↔ s.cache i key = none)
    : Linked s' := by
  obtain ⟨keys, trees⟩ := linked
  have isKey : r.start ∈ keys (.records pid) :=
    (trees.records pid).mem_iff.mpr (mem_map_of_mem mem)
  refine changeRecords trees (changes ▸ trees.keeps.remove isKey) vm ?_ ((trees.nodup _).erase _)
    entries
  have starts := (trees.records pid).nodup_iff.mp (trees.nodup _)
  refine ((trees.records pid).erase r.start).trans (.of_eq ?_)
  rw [starts.erase_eq_filter, Mmap.removeRecord, filter_map]
  congr 2
  funext q
  rw [Bool.eq_iff_iff]
  simp

/-- An entry comes into the tree of its inode, or goes from it. -/
theorem changeEntry (linked : Linked s) (entry : Option MmapPageCache)
    (other : entry = none ↔ s.cache i key ≠ none)
    (changes : s'.changes = (if entry = none then .remove (.pageCache i) key
      else .add (.pageCache i) key) :: s.changes)
    (vm : s'.vm = s.vm)
    (entries : ∀ j k, s'.cache j k = if j = i ∧ k = key then entry else s.cache j k)
    : Linked s' := by
  obtain ⟨keys, trees⟩ := linked
  have isKey := trees.pageCache i key
  obtain ⟨new, keeps, nodup, mem⟩ : ∃ new, Rbtree.Keeps s'.changes (update keys (.pageCache i) new)
      ∧ new.Nodup ∧ ∀ k, k ∈ new ↔ if k = key then entry ≠ none else k ∈ keys (.pageCache i) := by
    rw [changes]
    cases entry with
    | none =>
      refine ⟨_, trees.keeps.remove (isKey.mpr (other.mp rfl)), (trees.nodup _).erase _, ?_⟩
      intro k
      rw [(trees.nodup _).mem_erase_iff]
      split_ifs with same <;> simp [same]
    | some new =>
      have absent : key ∉ keys (.pageCache i) := by
        rw [isKey, ← other]
        simp
      refine ⟨_, trees.keeps.add absent, (trees.nodup _).cons absent, fun k => ?_⟩
      rw [mem_cons]
      split_ifs with same <;> simp [same]
  refine ⟨_, keeps, fun tree => ?_, fun p => ?_, fun j k => ?_⟩
  · rw [update_apply]
    split
    · exact nodup
    · exact trees.nodup tree
  · rw [update_of_ne (by simp), vm]
    exact trees.records p
  · rw [entries]
    by_cases same : j = i
    · subst same
      rw [update_self, mem, trees.pageCache]
      split_ifs <;> simp_all
    · rw [update_of_ne (by simpa using same), if_neg (by simp [same])]
      exact trees.pageCache j k

/-- An entry changes in place. -/
theorem setEntry (linked : Linked s) {i key entry} (isEntry : s.cache i key ≠ none)
    : Linked (s.setEntry i key (some entry)) := by
  refine linked.congr rfl (fun _ => rfl) fun j k => ?_
  rw [State.setEntry_cache]
  split_ifs with same
  · rw [same.1, same.2]
    exact iff_of_false (by simp) isEntry
  · exact Iff.rfl

theorem setPte (linked : Linked s) {n} (entry : Option Pte) : Linked (s.setPte pid n entry) :=
  linked.congr rfl (fun _ => rfl) fun _ _ => Iff.rfl

theorem markDirty (linked : Linked s) (i key : ℕ) : Linked (Mmap.markDirty s i key) := by
  unfold Mmap.markDirty
  split
  next cached => exact linked.setEntry (by simp [State.cache, cached])
  · exact linked

-- Splits

theorem splitRecord {offset} (linked : Linked s) (valid : Valid (s.vm pid)) (mem : r ∈ s.vm pid)
    (split : mmapSplitRecord (s.vm pid) kalloc r offset = some vm')
    : Linked ((s.addRecords pid [r.start + offset]).setVm pid vm') := by
  obtain ⟨⟨some, _, less, _⟩, rfl⟩ := mmapSplitRecord_eq_some split
  refine linked.addRecord rfl (fun q inVm same => ?_) rfl ?_ fun _ _ => Iff.rfl
  · have := len_le_pages r
    have := len_le_pages q
    have := valid.positive q inVm
    rcases valid.apart r mem q inVm with rfl | before | after <;> omega
  · rw [map_cons, modifyRecord_starts (show (r.left offset).start = r.start from rfl)]
    rfl

/-- The trees follow the cutting of a record. -/
theorem splitOut {offset limit cut} (linked : Linked s) (valid : Valid (s.vm pid))
    (mem : r ∈ s.vm pid) (result : Mmap.splitOut (s.vm pid) kalloc r offset limit = some (vm', cut))
    : Linked ((s.addRecords pid (splitStarts r offset limit)).setVm pid vm') := by
  obtain ⟨⟨vm₁, r₁⟩, first, second⟩ := Option.bind_eq_some_iff.mp result
  obtain ⟨starts, front, linked₁, valid₁, mem₁, start, pages⟩ : ∃ starts,
      starts = (if offset ≠ 0 then [r.start + offset] else [])
        ∧ Linked ((s.addRecords pid starts).setVm pid vm₁) ∧ Valid vm₁ ∧ r₁ ∈ vm₁
        ∧ r₁.start = r.start + offset
        ∧ (r₁.pages ≤ limit ↔ r.pages ≤ limit + offset / pageSize) := by
    rw [splitFront] at first
    split_ifs at first with moved
    · obtain ⟨vm₂, split, eq⟩ := Option.map_eq_some_iff.mp first
      obtain ⟨rfl, rfl⟩ := Prod.mk.inj eq
      obtain ⟨valid₁, _, right, _⟩ := valid.split mem split
      obtain ⟨_, paged, less, _⟩ := (mmapSplitRecord_eq_some split).1
      refine ⟨_, (if_pos moved).symm, linked.splitRecord valid mem split, valid₁, right, rfl, ?_⟩
      simp only [VmRecord.pages, VmRecord.right, pageSize] at paged less ⊢
      omega
    · obtain ⟨rfl, rfl⟩ := Prod.mk.inj (Option.some.inj first)
      have none := not_not.mp moved
      refine ⟨[], (if_neg moved).symm, ?_, valid, mem, by omega, by simp [none]⟩
      refine linked.congr rfl (fun p => ?_) fun _ _ => Iff.rfl
      rw [State.setVm, State.addRecords, update_eq_self]
  rw [splitStarts, ← front]
  simp only [splitBack] at second
  split_ifs at second with short
  · obtain ⟨rfl, rfl⟩ := Prod.mk.inj (Option.some.inj second)
    rw [if_pos (pages.mp short)]
    exact linked₁
  · obtain ⟨vm₂, split, eq⟩ := Option.map_eq_some_iff.mp second
    obtain ⟨rfl, rfl⟩ := Prod.mk.inj eq
    have newVm : ((s.addRecords pid starts).setVm pid vm₁).vm pid = vm₁ := update_self ..
    rw [← newVm] at valid₁ mem₁ split
    have final := linked₁.splitRecord valid₁ mem₁ split
    rw [if_neg (mt pages.mpr short), ← start]
    refine final.congr rfl (fun p => ?_) fun _ _ => Iff.rfl
    simp [State.setVm, State.addRecords]

-- Unmapping

theorem unmapSharedPage (linked : Linked s) (fd : FileDescriptor) (j : ℕ)
    : Linked (Mmap.unmapSharedPage env pid r fd s j) := by
  simp only [Mmap.unmapSharedPage]
  split
  · exact linked
  next entry present =>
  split
  swap
  · exact linked.setPte none
  split
  · exact linked
  next mpc cached =>
  have isEntry : s.cache fd.inode ((r.mappingOffset / pageSize + j) % wordLimit) ≠ none := by
    simp [State.cache, cached]
  split
  · obtain ⟨wrote, eq, changes, vm, cache⟩ : ∃ wrote, (if mpc.dirty then
          writeBack env s r fd entry.frame (r.start / pageSize + j)
            ((r.mappingOffset / pageSize + j) % wordLimit)
        else s) = wrote
        ∧ wrote.changes = s.changes ∧ wrote.vm = s.vm ∧ ∀ j k, wrote.cache j k = s.cache j k := by
      refine ⟨_, rfl, ?_⟩
      split
      · exact pwriteFile_kept ..
      · exact ⟨rfl, rfl, fun _ _ => rfl⟩
    rw [eq]
    refine linked.changeEntry none (iff_of_true rfl isEntry) (congrArg _ changes) vm fun j k => ?_
    rw [← cache]
    exact State.setEntry_cache ..
  · exact (linked.setEntry isEntry).setPte none

theorem munmapVmr (linked : Linked s) (r : VmRecord) (wasEmpty : Bool)
    : Linked (Mmap.munmapVmr env pid s r wasEmpty) := by
  have ofPrivate (s) (linked : Linked s) (j : ℕ) : Linked (unmapPrivatePage pid r s j) := by
    simp only [unmapPrivatePage]
    split
    · exact linked
    · exact linked.congr rfl (fun _ => rfl) fun _ _ => Iff.rfl
  have private' : Linked (if r.isPrivate || r.backingFd.isNone then
      (range r.pages).foldl (unmapPrivatePage pid r) s else s) := by
    split
    · exact foldlRecOn _ _ linked fun s linked j _ => ofPrivate s linked j
    · exact linked
  unfold Mmap.munmapVmr
  split
  · exact linked
  dsimp only
  split
  · exact private'
  next fd _ =>
  split
  · exact private'
  · exact foldlRecOn _ _ private' fun s linked j _ => linked.unmapSharedPage fd j

end Linked

theorem munmapVmr_vm (s : State) (r : VmRecord) (wasEmpty : Bool)
    : (munmapVmr env pid s r wasEmpty).vm = s.vm := by
  have shared (fd : FileDescriptor) (s : State) (j : ℕ)
      : (unmapSharedPage env pid r fd s j).vm = s.vm := by
    simp only [unmapSharedPage]
    split
    · rfl
    split_ifs
    · split
      · rfl
      · split_ifs <;> first | rfl | exact (pwriteFile_kept ..).2.1
    · rfl
  have ofPrivate (s : State) (j : ℕ) : (unmapPrivatePage pid r s j).vm = s.vm := by
    simp only [unmapPrivatePage]
    split <;> rfl
  unfold munmapVmr
  cases wasEmpty with
  | true => rfl
  | false =>
    cases backed : r.backingFd with
    | none => simpa using foldl_vm ofPrivate _ s
    | some fd =>
      cases isPrivate : r.isPrivate with
      | true => simpa [backed] using foldl_vm ofPrivate _ s
      | false => simpa [backed] using foldl_vm (shared fd) _ s

theorem protectPage_vm (flags : Flags) (n : ℕ) : (protectPage pid flags s n).vm = s.vm := by
  simp only [protectPage]
  split <;> rfl

theorem protectCut_vm (addr i : ℕ) (prot : Prot)
    : (protectCut pid addr i prot s vm' r).vm pid = modifyRecord vm' r { r with prot := prot } := by
  rw [protectCut, foldl_vm fun s n => protectPage_vm _ n]
  exact update_self ..

theorem unmapCut_vm (wasEmpty : Bool)
    : (unmapCut env pid wasEmpty s vm' r).vm pid = removeRecord vm' r := by
  rw [unmapCut, munmapVmr_vm]
  exact update_self ..

namespace Linked

theorem protectPage (linked : Linked s) {flags} (n : ℕ)
    : Linked (Mmap.protectPage pid flags s n) := by
  simp only [Mmap.protectPage]
  split
  · exact linked.setPte _
  · exact linked

theorem mprotectLoop {addr len prot fuel i ret} (linked : Linked s) (valid : Valid (s.vm pid))
    (call : Mmap.mprotectLoop kalloc pid addr len prot fuel s i = some (s', ret))
    : Linked s' := by
  have kept := mprotectLoop_rule (P := fun _ s => Linked s ∧ Valid (s.vm pid)) (fun _ => id) ?_
    ⟨linked, valid⟩ call
  · exact kept.elim fun _ kept => kept.1
  intro i s r vm' cut _ ⟨linked, valid⟩ search _ split
  obtain ⟨mem, starts, _⟩ := (rbtreeSearchLte_spec _ _).1 r search
  have isCut := valid.cutOut mem starts split
  refine ⟨?_, ?_⟩
  · refine foldlRecOn _ _ ?_ fun s linked n _ => linked.protectPage n
    refine (linked.splitOut valid mem split).congr rfl (fun p => ?_) fun _ _ => Iff.rfl
    simp only [State.setVm, State.addRecords, update_apply]
    split_ifs
    · exact modifyRecord_starts rfl
    · rfl
  · rw [protectCut_vm]
    exact (isCut.valid.protect isCut.member _).1

theorem munmapLoop {addr len fuel i ignoreMissing wasEmpty ret} (linked : Linked s)
    (valid : Valid (s.vm pid))
    (call : Mmap.munmapLoop env pid addr len ignoreMissing wasEmpty fuel s i = some (s', ret))
    : Linked s' := by
  have kept := munmapLoop_rule (P := fun _ s => Linked s ∧ Valid (s.vm pid)) (fun _ => id) ?_
    ⟨linked, valid⟩ call
  · exact kept.elim fun _ kept => kept.1
  intro i s r vm' cut _ ⟨linked, valid⟩ search split
  obtain ⟨mem, starts, _⟩ := (rbtreeSearchLte_spec _ _).1 r search
  have isCut := valid.cutOut mem starts split
  have newVm : ((s.addRecords pid (splitStarts r ((addr + i * pageSize) % wordLimit - r.start)
      (len - i))).setVm pid vm').vm pid = vm' :=
    update_self ..
  refine ⟨munmapVmr ?_ cut wasEmpty, ?_⟩
  · refine (linked.splitOut valid mem split).removeRecord (newVm.symm ▸ isCut.member) rfl ?_
      fun _ _ => Iff.rfl
    rw [newVm]
    simp [State.setVm, State.addRecords, State.changed]
  · rw [unmapCut_vm]
    exact (isCut.valid.remove isCut.member).1

end Linked

/-- The calls on the trees up to the end of the call return. -/
def TreesReturn (result : Option (State × Int)) : Prop :=
  result.all (fun (s, _) => (Rbtree.replay s.changes).isSome) = true

instance TreesReturn.decidable (result) : Decidable (TreesReturn result) :=
  inferInstanceAs (Decidable (_ = true))

theorem settled_eq_some {result ret}
    : settled result = some (s', ret) ↔ result = some (s', ret) ∧ TreesReturn result := by
  rw [settled, Option.filter_eq_some_iff]
  refine and_congr_right fun returns => ?_
  rw [TreesReturn, returns]
  rfl

end UnstableOS.Mm.Mmap
