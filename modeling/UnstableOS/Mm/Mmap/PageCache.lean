import UnstableOS.Mm.Mmap.Records
import UnstableOS.Lib.RefCount

/-! The invariant of the page caches of shared mappings: every page that is present belongs to an
entry, the entry counts the pages that are mapped to it, and it is dirty if one of them is writable.
-/

namespace UnstableOS.Mm.Mmap

open Lib Function Option State Prod

namespace State

variable (s : State)

def cache (i key : ℕ) : Option MmapPageCache := (s.inode i).mmapPageCache key

/-- The page of a file that a page of a process is mapped to: its inode and its key. -/
def ref (x : ℕ × ℕ) : Option (ℕ × ℕ) :=
  (s.pte x.1 x.2).bind fun _ => (spot (s.vm x.1) x.2).map fun here => (here.inode, here.key)

def count (x : ℕ × ℕ) : ℕ := (s.cache x.1 x.2).elim 0 MmapPageCache.instances

section Fields
variable {s} (i key f pid n : ℕ) (entry : Option MmapPageCache)

theorem setEntry_cache (j k : ℕ)
    : (s.setEntry i key entry).cache j k = if j = i ∧ k = key then entry else s.cache j k := by
  simp only [cache, setEntry, setInode]
  by_cases sameInode : j = i
  · subst sameInode
    by_cases sameKey : k = key <;> simp [sameKey]
  · simp [sameInode]

/-- A field that an inode keeps when it changes. -/
theorem setInode_field {α : Type} (field : Inode → α) {inode : Inode}
    (kept : field inode = field (s.inode i)) (j : ℕ)
    : field ((s.setInode i inode).inode j) = field (s.inode j) := by
  simp only [setInode, update_apply]
  split_ifs with same
  · rw [same, kept]
  · rfl

theorem setEntry_mode (j : ℕ) : ((s.setEntry i key entry).inode j).mode = (s.inode j).mode :=
  setInode_field i Inode.mode (by rfl) j

theorem setEntry_readOnly (j : ℕ)
    : ((s.setEntry i key entry).inode j).readOnly = (s.inode j).readOnly :=
  setInode_field i Inode.readOnly (by rfl) j

theorem setEntry_content (j : ℕ)
    : ((s.setEntry i key entry).inode j).content = (s.inode j).content :=
  setInode_field i Inode.content (by rfl) j

end Fields

end State

/-- All mappings are shared mappings of regular files. -/
structure Inv (s : State) : Prop where
  valid : ∀ pid, Valid (s.vm pid)
  shared
    : ∀ pid, ∀ r ∈ s.vm pid, r.isPrivate = false
        ∧ ∃ fd, r.backingFd = some fd ∧ sIsreg (s.inode fd.inode).mode = true
  placed
    : ∀ pid n pte, s.pte pid n = some pte
        → ∃ here mpc, spot (s.vm pid) n = some here ∧ s.cache here.inode here.key = some mpc
          ∧ mpc.page = pte.frame ∧ (pte.flags.writable = true → mpc.dirty = true)
  counted : Counted s.ref s.count
  live
    : ∀ i key mpc, s.cache i key = some mpc
        → 0 < mpc.instances ∧ s.allocated mpc.page = true
          ∧ ((s.frame mpc.page).userWritten = true → mpc.dirty = true)
  distinct
    : ∀ i key mpc j key' mpc', s.cache i key = some mpc → s.cache j key' = some mpc'
        → mpc.page = mpc'.page → i = j ∧ key = key'

namespace Inv

variable {s s' : State} {pid n : ℕ} {here : Spot} {mpc : MmapPageCache}

/-- The trees are not looked at. -/
theorem withChanges (inv : Inv s) (changes : List (Rbtree.Change TreeName))
    : Inv { s with changes := changes } :=
  ⟨inv.valid, inv.shared, inv.placed, inv.counted, inv.live, inv.distinct⟩

theorem ref_eq {pte} (present : s.pte pid n = some pte) (found : spot (s.vm pid) n = some here)
    : s.ref (pid, n) = some (here.inode, here.key) := by
  simp [ref, present, found]

theorem ref_congr {vm' p m} (sameVm : s'.vm p = vm') (samePte : s'.pte p m = s.pte p m)
    (sameSpot : s.pte p m ≠ none → (spot vm' m).map (fun here => (here.inode, here.key))
      = (spot (s.vm p) m).map fun here => (here.inode, here.key))
    : s'.ref (p, m) = s.ref (p, m) := by
  simp only [ref, sameVm, samePte]
  cases present : s.pte p m with
  | none => rfl
  | some pte => exact sameSpot (by simp [present])

theorem shared_congr (inv : Inv s) (sameVm : s'.vm = s.vm)
    (sameMode : ∀ i, (s'.inode i).mode = (s.inode i).mode) (p : ℕ)
    : ∀ r ∈ s'.vm p, r.isPrivate = false
        ∧ ∃ fd, r.backingFd = some fd ∧ sIsreg (s'.inode fd.inode).mode = true := by
  intro r mem
  rw [sameVm] at mem
  obtain ⟨isShared, fd, backed, regular⟩ := inv.shared p r mem
  exact ⟨isShared, fd, backed, (congrArg sIsreg (sameMode _)).trans regular⟩

/-- One page of a process changes, and the entry of its page of the file. -/
structure Changes (s : State) (pid n : ℕ) (here : Spot) (pte : Option Pte)
    (entry : Option MmapPageCache) (s' : State) : Prop where
  vm : s'.vm = s.vm
  mode : ∀ i, (s'.inode i).mode = (s.inode i).mode
  pte : ∀ p m, s'.pte p m = if p = pid ∧ m = n then pte else s.pte p m
  cache
    : ∀ i key, s'.cache i key = if i = here.inode ∧ key = here.key then entry else s.cache i key

section Changes
variable {pte : Option Pte} {entry : Option MmapPageCache}

theorem Changes.of_setEntry {s₁ : State} (vm : s'.vm = s.vm)
    (pte_eq : ∀ p m, s'.pte p m = if p = pid ∧ m = n then pte else s.pte p m)
    (inode : s'.inode = (s₁.setEntry here.inode here.key entry).inode)
    (mode : ∀ i, (s₁.inode i).mode = (s.inode i).mode)
    (cache : ∀ i key, s₁.cache i key = s.cache i key)
    : Changes s pid n here pte entry s' := by
  refine ⟨vm, fun i => ?_, pte_eq, fun i key => ?_⟩
  · rw [inode, setEntry_mode, mode]
  · rw [State.cache, inode, ← cache]
    exact setEntry_cache _ _ _ _ _

theorem Changes.setEntry_setPte
    : Changes s pid n here pte entry ((s.setEntry here.inode here.key entry).setPte pid n pte) :=
  .of_setEntry rfl (fun _ _ => rfl) rfl (fun _ => rfl) (fun _ _ => rfl)

/-- What a change has to keep: the other pages of the entry, and the entries apart. -/
theorem change (inv : Inv s) (found : spot (s.vm pid) n = some here)
    (changes : Changes s pid n here pte entry s')
    (counts : entry.elim 0 MmapPageCache.instances + (if s.pte pid n = none then 0 else 1)
      = s.count (here.inode, here.key) + if pte = none then 0 else 1)
    (mapped : ∀ new, pte = some new → ∃ mpc, entry = some mpc ∧ mpc.page = new.frame
      ∧ (new.flags.writable = true → mpc.dirty = true))
    (kept : ∀ x mpc, x ≠ (pid, n) → s.ref x = some (here.inode, here.key)
      → s.cache here.inode here.key = some mpc
      → ∃ mpc', entry = some mpc' ∧ mpc'.page = mpc.page ∧ (mpc.dirty = true → mpc'.dirty = true))
    (live : ∀ mpc, entry = some mpc → 0 < mpc.instances ∧ s'.allocated mpc.page = true
      ∧ ((s'.frame mpc.page).userWritten = true → mpc.dirty = true))
    (others : ∀ i key mpc, ¬ (i = here.inode ∧ key = here.key) → s.cache i key = some mpc
      → s'.allocated mpc.page = true
        ∧ (s'.frame mpc.page).userWritten = (s.frame mpc.page).userWritten
        ∧ ∀ mpc', entry = some mpc' → mpc'.page ≠ mpc.page)
    : Inv s' := by
  have refAt {t : State} (sameVm : t.vm = s.vm) (x : ℕ × ℕ)
      : (if t.ref (pid, n) = some x then 1 else 0)
        = if x = (here.inode, here.key) then if t.pte pid n = none then 0 else 1 else 0 := by
    simp only [ref, sameVm, found]
    cases t.pte pid n with
    | none => simp
    | some _ => simp [eq_comm]
  have pteHere : s'.pte pid n = pte := by rw [changes.pte, if_pos ⟨rfl, rfl⟩]
  refine ⟨fun p => changes.vm ▸ inv.valid p, inv.shared_congr changes.vm changes.mode, ?_, ?_, ?_,
    ?_⟩
  · intro p m new present
    rw [changes.pte] at present
    simp only [changes.vm, changes.cache]
    by_cases same : p = pid ∧ m = n
    · obtain ⟨rfl, rfl⟩ := same
      rw [if_pos ⟨rfl, rfl⟩] at present
      obtain ⟨mpc, rest⟩ := mapped new present
      exact ⟨here, mpc, found, by rwa [if_pos ⟨rfl, rfl⟩]⟩
    rw [if_neg same] at present
    obtain ⟨there, mpc, foundThere, cached, page, isDirty⟩ := inv.placed p m new present
    by_cases sameEntry : there.inode = here.inode ∧ there.key = here.key
    · have held := ref_eq present foundThere
      rw [sameEntry.1, sameEntry.2] at held cached
      obtain ⟨mpc', cached', samePage, dirtier⟩ := kept (p, m) mpc (same ∘ mk.inj) held cached
      exact ⟨there, mpc', foundThere, by rwa [if_pos sameEntry], samePage.trans page,
        dirtier ∘ isDirty⟩
    · exact ⟨there, mpc, foundThere, by rwa [if_neg sameEntry], page, isDirty⟩
  · refine inv.counted.change (pid, n) ?_ ?_
    · rintro ⟨p, m⟩ other
      refine ref_congr (congrFun changes.vm p) ?_ (fun _ => rfl)
      rw [changes.pte, if_neg fun same => other (Prod.ext same.1 same.2)]
    · rintro ⟨i, key⟩
      rw [refAt rfl, refAt changes.vm, pteHere, count, changes.cache]
      by_cases same : i = here.inode ∧ key = here.key
      · obtain ⟨rfl, rfl⟩ := same
        simpa using counts
      · simp only [if_neg same, Prod.mk.injEq]
        rfl
  · intro i key mpc eq
    rw [changes.cache] at eq
    by_cases same : i = here.inode ∧ key = here.key
    · rw [if_pos same] at eq
      exact live mpc eq
    rw [if_neg same] at eq
    obtain ⟨positive, _, isDirty⟩ := inv.live i key mpc eq
    obtain ⟨allocated, sameWritten, _⟩ := others i key mpc same eq
    exact ⟨positive, allocated, fun written => isDirty (sameWritten ▸ written)⟩
  · intro i key mpc j key' mpc' eq eq' samePage
    rw [changes.cache] at eq eq'
    by_cases same : i = here.inode ∧ key = here.key
    · rw [if_pos same] at eq
      by_cases same' : j = here.inode ∧ key' = here.key
      · exact ⟨same.1.trans same'.1.symm, same.2.trans same'.2.symm⟩
      · rw [if_neg same'] at eq'
        exact absurd samePage ((others j key' mpc' same' eq').2.2 mpc eq)
    rw [if_neg same] at eq
    by_cases same' : j = here.inode ∧ key' = here.key
    · rw [if_pos same'] at eq'
      exact absurd samePage.symm ((others i key mpc same eq).2.2 mpc' eq')
    · rw [if_neg same'] at eq'
      exact inv.distinct _ _ _ _ _ _ eq eq' samePage

end Changes

/-- A page that was not present is mapped to an entry, old or new. -/
theorem attach (inv : Inv s) (entry : MmapPageCache) {flags}
    (absent : s.pte pid n = none) (found : spot (s.vm pid) n = some here)
    (changes : Changes s pid n here (some ⟨entry.page, flags⟩) (some entry) s')
    (oneMore : entry.instances = s.count (here.inode, here.key) + 1)
    (dirty : flags.writable = true → entry.dirty = true)
    (old : ∀ mpc, s.cache here.inode here.key = some mpc
      → entry.page = mpc.page ∧ (mpc.dirty = true → entry.dirty = true))
    (new : s.cache here.inode here.key = none → s'.allocated entry.page = true
      ∧ (s'.frame entry.page).userWritten = false
      ∧ ∀ i key mpc, s.cache i key = some mpc → mpc.page ≠ entry.page)
    (frames : ∀ i key mpc, s.cache i key = some mpc → s'.allocated mpc.page = true
      ∧ (s'.frame mpc.page).userWritten = (s.frame mpc.page).userWritten)
    : Inv s' := by
  refine inv.change found changes ?_ ?_ ?_ ?_ ?_
  · simpa [absent] using oneMore
  · rintro _ ⟨⟩
    exact ⟨entry, rfl, rfl, dirty⟩
  · intro x mpc _ _ cached
    exact ⟨entry, rfl, old mpc cached⟩
  · rintro _ ⟨⟩
    refine ⟨by omega, ?_⟩
    cases before : s.cache here.inode here.key with
    | none =>
      obtain ⟨allocated, clean, _⟩ := new before
      exact ⟨allocated, fun written => by rw [clean] at written; cases written⟩
    | some mpc =>
      obtain ⟨samePage, staysDirty⟩ := old mpc before
      obtain ⟨allocated, sameWritten⟩ := frames _ _ mpc before
      rw [samePage]
      refine ⟨allocated, fun written => staysDirty ?_⟩
      exact (inv.live _ _ mpc before).2.2 (sameWritten ▸ written)
  · intro i key mpc other cached
    obtain ⟨allocated, sameWritten⟩ := frames i key mpc cached
    refine ⟨allocated, sameWritten, ?_⟩
    rintro _ ⟨⟩ samePage
    cases before : s.cache here.inode here.key with
    | none => exact (new before).2.2 i key mpc cached samePage.symm
    | some mpc' =>
      exact other (inv.distinct _ _ _ _ _ _ cached before (samePage.symm.trans (old mpc' before).1))

/-- Entries may become dirty, and flags may change where the entry is dirty enough. -/
theorem restate (inv : Inv s) (sameVm : s'.vm = s.vm)
    (sameMode : ∀ i, (s'.inode i).mode = (s.inode i).mode)
    (ptes : ∀ p m pte', s'.pte p m = some pte' → ∃ pte, s.pte p m = some pte
      ∧ pte'.frame = pte.frame ∧ (pte'.flags.writable = true → pte.flags.writable = true
        ∨ ∃ here mpc, spot (s.vm p) m = some here ∧ s'.cache here.inode here.key = some mpc
          ∧ mpc.dirty = true))
    (kept : ∀ p m pte, s.pte p m = some pte → s'.pte p m ≠ none)
    (entries : ∀ i key, (s'.cache i key = none ∧ s.cache i key = none)
      ∨ ∃ mpc mpc', s.cache i key = some mpc ∧ s'.cache i key = some mpc'
        ∧ mpc'.page = mpc.page ∧ mpc'.instances = mpc.instances
        ∧ (mpc.dirty = true → mpc'.dirty = true)
        ∧ s'.allocated mpc.page = true
        ∧ ((s'.frame mpc.page).userWritten = true → (s.frame mpc.page).userWritten = true
          ∨ mpc'.dirty = true))
    : Inv s' := by
  have entry : ∀ i key mpc', s'.cache i key = some mpc' → ∃ mpc, s.cache i key = some mpc
      ∧ mpc'.page = mpc.page ∧ mpc'.instances = mpc.instances
      ∧ (mpc.dirty = true → mpc'.dirty = true)
      ∧ s'.allocated mpc.page = true
      ∧ ((s'.frame mpc.page).userWritten = true → (s.frame mpc.page).userWritten = true
        ∨ mpc'.dirty = true) := by
    intro i key mpc' eq
    rcases entries i key with ⟨none, _⟩ | ⟨mpc, mpc'', before, after, rest⟩
    · rw [none] at eq
      cases eq
    · obtain rfl := some.inj (after.symm.trans eq)
      exact ⟨mpc, before, rest⟩
  refine ⟨fun p => sameVm ▸ inv.valid p, ?_, ?_, ?_, ?_, ?_⟩
  · exact inv.shared_congr sameVm sameMode
  · intro p m pte' present
    rw [sameVm]
    obtain ⟨pte, before, sameFrame, writable⟩ := ptes p m pte' present
    obtain ⟨here, mpc, found, cached, page, isDirty⟩ := inv.placed p m pte before
    rcases entries here.inode here.key with
      ⟨_, none⟩ | ⟨old, new, cached', after, samePage, _, dirtier, _⟩
    · rw [none] at cached
      cases cached
    obtain rfl := some.inj (cached'.symm.trans cached)
    refine ⟨here, new, found, after, (samePage.trans page).trans sameFrame.symm, ?_⟩
    intro nowWritable
    rcases writable nowWritable with wasWritable | ⟨there, other, found', after', dirty⟩
    · exact dirtier (isDirty wasWritable)
    · obtain rfl := some.inj (found.symm.trans found')
      obtain rfl := some.inj (after.symm.trans after')
      exact dirty
  · refine inv.counted.congr ?_ ?_
    · rintro ⟨p, m⟩
      simp only [ref, sameVm]
      cases present : s'.pte p m with
      | none =>
        cases before : s.pte p m with
        | none => rfl
        | some pte => exact absurd present (kept p m pte before)
      | some pte' =>
        obtain ⟨pte, before, _⟩ := ptes p m pte' present
        rw [before]
        rfl
    · rintro ⟨i, key⟩
      simp only [count]
      rcases entries i key with ⟨after, before⟩ | ⟨mpc, mpc', before, after, _, sameInstances, _⟩
      · rw [after, before]
      · rw [after, before, elim_some, elim_some, sameInstances]
  · intro i key mpc' eq
    obtain ⟨mpc, before, samePage, sameInstances, dirtier, allocated, written⟩ :=
      entry i key mpc' eq
    obtain ⟨positive, _, isDirty⟩ := inv.live i key mpc before
    rw [samePage, sameInstances]
    refine ⟨positive, allocated, fun nowWritten => ?_⟩
    exact (written nowWritten).elim (fun before => dirtier (isDirty before)) id
  · intro i key mpc j key' mpc' eq eq' samePage
    obtain ⟨old, before, page, _⟩ := entry i key mpc eq
    obtain ⟨old', before', page', _⟩ := entry j key' mpc' eq'
    exact inv.distinct _ _ _ _ _ _ before before' ((page.symm.trans samePage).trans page')

/-- The records change, but say the same about the pages that are present. -/
theorem setVm (inv : Inv s) {vm'} (valid : Valid vm') (derived : Derived (s.vm pid) vm')
    (same : ∀ m, s.pte pid m ≠ none → (spot vm' m).map (fun here => (here.inode, here.key))
      = (spot (s.vm pid) m).map fun here => (here.inode, here.key))
    : Inv (s.setVm pid vm') := by
  have vmAt (p) : (s.setVm pid vm').vm p = if p = pid then vm' else s.vm p :=
    update_apply _ _ _ _
  have sameAt (p m) (present : s.pte p m ≠ none)
      : (spot ((s.setVm pid vm').vm p) m).map (fun here => (here.inode, here.key))
        = (spot (s.vm p) m).map fun here => (here.inode, here.key) := by
    rw [vmAt]
    split_ifs with here
    · subst here
      exact same m present
    · rfl
  refine ⟨?_, ?_, ?_, ?_, inv.live, inv.distinct⟩
  · intro p
    rw [vmAt]
    split_ifs
    · exact valid
    · exact inv.valid p
  · intro p r mem
    rw [vmAt] at mem
    split_ifs at mem
    · obtain ⟨old, inOld, samePrivate, sameFd⟩ := derived r mem
      rw [samePrivate, sameFd]
      exact inv.shared pid old inOld
    · exact inv.shared p r mem
  · intro p m pte present
    obtain ⟨here, mpc, found, cached, rest⟩ := inv.placed p m pte present
    have there := sameAt p m (by rw [show s.pte p m = some pte from present]; simp)
    rw [found, map_some] at there
    obtain ⟨new, foundNew, eq⟩ := map_eq_some_iff.mp there
    obtain ⟨sameInode, sameKey⟩ := mk.inj eq
    exact ⟨new, mpc, foundNew, by rw [sameInode, sameKey]; exact cached, rest⟩
  · refine inv.counted.congr ?_ (fun _ => rfl)
    rintro ⟨p, m⟩
    exact ref_congr rfl rfl (sameAt p m)

/-- A page is unmapped, and its entry counts one less or goes. -/
theorem detach (inv : Inv s) {pte} (present : s.pte pid n = some pte)
    (found : spot (s.vm pid) n = some here) (cached : s.cache here.inode here.key = some mpc)
    (changes : Changes s pid n here none
      (if mpc.instances = 1 then none else some { mpc with instances := mpc.instances - 1 }) s')
    (sameFrame : s'.frame = s.frame)
    (allocated : ∀ f, s'.allocated f
      = if mpc.instances = 1 ∧ f = mpc.page then false else s.allocated f)
    : Inv s' := by
  obtain ⟨positive, wasAllocated, isDirty⟩ := inv.live _ _ mpc cached
  have countHere : s.count (here.inode, here.key) = mpc.instances := by
    simp [count, cached]
  refine inv.change found changes ?_ nofun ?_ ?_ ?_
  · rw [countHere, present]
    by_cases last : mpc.instances = 1
    · simp [last]
    · simp [last, Nat.sub_add_cancel positive]
  · intro x mpc' other held cached'
    obtain rfl := some.inj (cached.symm.trans cached')
    -- two pages are mapped to the entry, so it stays
    have several : mpc.instances ≠ 1 := fun single =>
      other (inv.counted.unique held (ref_eq present found) (countHere.trans single))
    exact ⟨_, if_neg several, rfl, id⟩
  · intro mpc' eq
    split_ifs at eq with last
    obtain rfl := some.inj eq
    rw [sameFrame, allocated, if_neg fun both => last both.1]
    exact ⟨by simp only; omega, wasAllocated, isDirty⟩
  · intro i key mpc' other before
    have apart (samePage : mpc'.page = mpc.page) : False :=
      other (inv.distinct _ _ _ _ _ _ before cached samePage)
    rw [sameFrame, allocated, if_neg fun both => apart both.2]
    refine ⟨(inv.live i key mpc' before).2.1, rfl, fun new eq samePage => ?_⟩
    split_ifs at eq
    obtain rfl := some.inj eq
    exact apart samePage.symm

end Inv

end UnstableOS.Mm.Mmap
