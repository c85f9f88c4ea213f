import UnstableOS.Mm.Mmap.Ranges

/-! Every run of page faults, address checks, protection changes and unmappings on shared mappings
of regular files.
Between the calls the processes store to the pages that are mapped writable, and the files are
opened, closed, written and truncated in other ways. The trees keep up with the calls.
-/

namespace UnstableOS.Mm.Mmap

open Lib Function Option Prod

inductive Call where
  | pageFault (addr : ℕ) (error : PageFaultError)
  | checkAddress (addr : ℕ) (writable : Bool)
  | mprotect (addr len : ℕ) (prot : Prot)
  | munmap (addr len : ℕ)

open Call

namespace Call

def run (env : Env) (s : State) (pid : ℕ) : Call → Option (State × Int)
  | .pageFault addr error => mmapPageFault env s pid addr error
  | .checkAddress addr writable => mmapCheckAddress env s pid addr writable
  | .mprotect addr len prot => sysMprotect s env.kalloc pid addr len prot
  | .munmap addr len => sysMunmap s env pid addr len

/-- The number of pages of a range. -/
def pages (len : ℕ) : ℕ := (len + pageSize - 1) % wordLimit / pageSize

/-- The calls that keep writable pages dirty, and write back what is. -/
def Safe (env : Env) (s : State) (pid : ℕ) : Call → Prop
  | .pageFault addr error => FaultOk env s pid addr error
  | .checkAddress addr writable => CheckOk s pid addr writable
  | .mprotect addr len prot => ∀ k < pages len, ProtectOk s pid addr prot k
  | .munmap addr len => ∀ k < pages len, UnmapOk env s pid addr k

end Call

inductive Step (allowed : Env → State → ℕ → Call → Prop) : State → State → Prop where
  | call {s s' : State} {env : Env} {pid : ℕ} {call : Call} {ret : Int}
      (fresh : ∀ f, env.pfalloc = some f → s.allocated f = false)
      (permitted : allowed env s pid call) (result : call.run env s pid = some (s', ret))
      : Step allowed s s'
  | store {s : State} {pid n : ℕ} {pte : Pte} (b : ℕ) (value : UInt8)
      (present : s.pte pid n = some pte) (writable : pte.flags.writable = true)
      : Step allowed s (s.setFrame pte.frame ⟨update (s.frame pte.frame).bytes b value, true⟩)
  | file {s : State} (i instances size : ℕ) (content : ℕ → UInt8)
      : Step allowed s (s.setInode i
            { s.inode i with instances := instances, size := size, content := content })

def Run (allowed : Env → State → ℕ → Call → Prop) : State → State → Prop :=
  Relation.ReflTransGen (Step allowed)

/-- The mappings are made, and no page has been accessed. -/
structure Start (s : State) : Prop where
  valid : ∀ pid, Valid (s.vm pid)
  shared
    : ∀ pid, ∀ r ∈ s.vm pid, r.isPrivate = false
        ∧ ∃ fd, r.backingFd = some fd ∧ sIsreg (s.inode fd.inode).mode = true
  absent : ∀ pid n, s.pte pid n = none
  uncached : ∀ i key, s.cache i key = none

theorem Start.inv {s} (start : Start s) : Inv s := by
  refine ⟨start.valid, start.shared, ?_, ?_, ?_, ?_⟩
  · intro pid n pte present
    rw [start.absent] at present
    cases present
  · exact .empty (fun x => by simp [State.ref, start.absent]) fun x => by
      simp [State.count, start.uncached]
  · intro i key mpc cached
    rw [start.uncached] at cached
    cases cached
  · intro i key mpc j key' mpc' cached
    rw [start.uncached] at cached
    cases cached

namespace Inv

variable {s s' : State} {pid : ℕ}

theorem sysMprotect (inv : Inv s) {kalloc addr len prot ret}
    (ok : ∀ k < pages len, ProtectOk s pid addr prot k)
    (call : Mmap.sysMprotect s kalloc pid addr len prot = some (s', ret))
    : Kept s s' := by
  rw [Mmap.sysMprotect] at call
  split_ifs at call with unaligned
  · exact (mk.inj (some.inj call)).1 ▸ inv.kept
  · exact (mk.inj (some.inj call)).1 ▸ inv.kept
  · exact ⟨inv.mprotectLoop (not_not.mp unaligned) (fun k _ less => ok k less) call,
      fun linked => linked.mprotectLoop (inv.valid pid) call⟩

theorem sysMunmap (inv : Inv s) {env addr len ret}
    (ok : ∀ k < pages len, UnmapOk env s pid addr k)
    (call : Mmap.sysMunmap s env pid addr len = some (s', ret))
    : Kept s s' ∧ Unmaps s s' := by
  have stays {code} (eq : some (s, code) = some (s', ret)) : Kept s s' ∧ Unmaps s s' := by
    obtain ⟨rfl, _⟩ := mk.inj (some.inj eq)
    exact ⟨inv.kept, .refl s⟩
  rw [Mmap.sysMunmap, munmapToVmr] at call
  split_ifs at call with unaligned
  · exact stays call
  · exact stays call
  · exact stays call
  · obtain ⟨returns, _⟩ := settled_eq_some.mp call
    obtain ⟨inv', unmaps⟩ := inv.munmapLoop (not_not.mp unaligned) (fun k _ less => ok k less)
      returns
    exact ⟨⟨inv', fun linked => linked.munmapLoop (inv.valid pid) returns⟩, unmaps⟩

/-- A process stores to a page that is writable. -/
theorem store (inv : Inv s) {n pte} (bytes : ℕ → UInt8)
    (present : s.pte pid n = some pte) (writable : pte.flags.writable = true)
    : Kept s (s.setFrame pte.frame ⟨bytes, true⟩) := by
  obtain ⟨here, mpc, found, cached, page, isDirty⟩ := inv.placed pid n pte present
  refine ⟨inv.restate rfl (fun _ => rfl) (fun p m pte' here => ⟨pte', here, rfl, .inl⟩)
    (fun p m pte' here gone => ?_) fun i key => ?_,
    fun linked => linked.congr rfl (fun _ => rfl) fun _ _ => Iff.rfl⟩
  · rw [show s.pte p m = none from gone] at here
    cases here
  · rcases inv.sameEntry i key with ⟨none, _⟩ | ⟨old, _, cachedOld, _, _, _, _, allocated, _⟩
    · exact .inl ⟨none, none⟩
    refine .inr ⟨old, old, cachedOld, cachedOld, rfl, rfl, id, allocated, fun written => ?_⟩
    by_cases samePage : old.page = pte.frame
    · -- the entry of the frame is the one of the writable page
      obtain ⟨rfl, rfl⟩ := inv.distinct _ _ _ _ _ _ cachedOld cached (samePage.trans page.symm)
      obtain rfl := some.inj (cachedOld.symm.trans cached)
      exact .inr (isDirty writable)
    · left
      simpa [State.setFrame, update_of_ne samePage] using written

/-- The file changes in another way. -/
theorem file (inv : Inv s) (i instances size : ℕ) (content : ℕ → UInt8)
    : Kept s (s.setInode i
        { s.inode i with instances := instances, size := size, content := content }) := by
  have sameCache (j key) : (s.setInode i { s.inode i with
      instances := instances, size := size, content := content }).cache j key = s.cache j key :=
    State.setInode_field i (fun inode => inode.mmapPageCache key) (by rfl) j
  refine ⟨inv.restate rfl (State.setInode_field i Inode.mode (by rfl))
    (fun p m pte here => ⟨pte, here, rfl, .inl⟩) (fun p m pte here gone => ?_) fun j key => ?_,
    fun linked => linked.congr rfl (fun _ => rfl) fun j key => by rw [sameCache]⟩
  · rw [show s.pte p m = none from gone] at here
    cases here
  · rw [sameCache]
    exact inv.sameEntry j key

end Inv

theorem Step.kept {s s'} (step : Step Safe s s') (inv : Inv s) : Kept s s' := by
  cases step with
  | @call _ env pid call ret fresh permitted result =>
    cases call with
    | pageFault addr error => exact inv.mmapPageFault permitted fresh result
    | checkAddress addr writable => exact inv.mmapCheckAddress permitted fresh result
    | mprotect addr len prot => exact inv.sysMprotect permitted result
    | munmap addr len => exact (inv.sysMunmap permitted result).1
  | store b value present writable => exact inv.store _ present writable
  | file i instances size content =>
    exact inv.file i instances size content

theorem Run.kept {s₀ s} (start : Start s₀) (run : Run Safe s₀ s) : Kept s₀ s := by
  induction run with
  | refl => exact start.inv.kept
  | tail _ step ih =>
    have kept := step.kept ih.inv
    exact ⟨kept.inv, fun linked => kept.linked (ih.linked linked)⟩

/-- In every run of safe calls the searches in the trees find the records and the entries that the
model finds, as long as the calls on the trees have returned.
-/
theorem Run.searches {s₀ s} (start : Start s₀) (linked : Linked s₀) (run : Run Safe s₀ s) {trees}
    (intact : Rbtree.replay s.changes = some trees)
    : (∀ pid val, Rbtree.rbtreeSearchLte (trees (.records pid)).mem val (s.changes.length + 1)
          (trees (.records pid)).tree 0
        = some ((rbtreeSearchLte (s.vm pid) val).elim 0 fun r => Rbtree.nodeOf r.start))
      ∧ ∀ i key, Rbtree.rbtreeSearchExact (trees (.pageCache i)).mem key (s.changes.length + 1)
          (trees (.pageCache i)).tree
        = some (if s.cache i key = none then 0 else Rbtree.nodeOf key) := by
  have now := (run.kept start).linked linked
  exact ⟨fun _ => now.searchLte intact, now.searchExact intact⟩

/-- Two processes map the first page of a file for reading and writing, and one of them also that of
another file.
-/
def twoProcesses : State where
  vm pid :=
    if pid = 0 then [⟨0x10000000, 4096, some ⟨0, true, false⟩, 0, ⟨false, true, true⟩, false⟩]
    else if pid = 1 then
      [⟨0x20000000, 4096, some ⟨1, true, false⟩, 0, ⟨false, true, true⟩, false⟩,
        ⟨0x10000000, 4096, some ⟨0, true, false⟩, 0, ⟨false, true, true⟩, false⟩]
    else []
  pte _ _ := none
  inode _ := ⟨0o100644, 1, 4096, fun _ => 0, fun _ => none, false⟩
  frame _ := ⟨fun _ => 0, false⟩
  allocated _ := false
  changes := [.add (.records 1) 0x20000000, .add (.records 1) 0x10000000,
    .add (.records 0) 0x10000000]

theorem twoProcesses_start : Start twoProcesses := by
  refine ⟨fun pid => ?_, fun pid r mem => ?_, fun _ _ => rfl, fun _ _ => rfl⟩
  · simp only [twoProcesses]
    split_ifs
    all_goals exact ⟨by decide, by decide, by decide, by decide⟩
  · have regular (i) : sIsreg (twoProcesses.inode i).mode = true :=
      show sIsreg 0o100644 = true by decide
    simp only [twoProcesses] at mem
    split_ifs at mem <;> simp only [List.mem_cons, List.not_mem_nil, or_false] at mem
    · exact mem ▸ ⟨rfl, _, rfl, regular _⟩
    · rcases mem with rfl | rfl <;> exact ⟨rfl, _, rfl, regular _⟩

/-- The first access to a page is a write. -/
theorem Step.writeFault {s s'} (pid addr : ℕ) (frame : Option ℕ) {ret}
    (call : (pageFault addr ⟨false, true⟩).run ⟨frame, true, true, true⟩ s pid = some (s', ret))
    (fresh : ∀ f, frame = some f → s.allocated f = false)
    (absent : s.pte pid (addr / pageSize) = none)
    (inside : ∀ r, rbtreeSearchLte (s.vm pid) addr = some r
      → r.start + r.len ≠ addr / pageSize * pageSize)
    : Step Safe s s' := by
  refine .call fresh ?_ call
  exact ⟨inside, fun _ _ present => absurd absent present,
    fun _ _ _ _ => ⟨fun _ => rfl, rfl, rfl⟩⟩

/-- In every run of safe calls two pages, of one process or of two, have the same frame exactly when
they show the same page of the same file.
-/
theorem safe_run_shares_frames {s₀ s : State} (start : Start s₀) (run : Run Safe s₀ s)
    {x y : ℕ × ℕ} {pte pte' : Pte} (first : s.pte x.1 x.2 = some pte)
    (second : s.pte y.1 y.2 = some pte')
    : pte.frame = pte'.frame ↔ s.ref x = s.ref y := by
  have inv := (run.kept start).inv
  obtain ⟨here, mpc, found, cached, page, -⟩ := inv.placed _ _ _ first
  obtain ⟨there, mpc', found', cached', page', -⟩ := inv.placed _ _ _ second
  rw [Inv.ref_eq first found, Inv.ref_eq second found', ← page, ← page', some.injEq, mk.injEq]
  constructor
  · exact inv.distinct _ _ _ _ _ _ cached cached'
  · rintro ⟨sameInode, sameKey⟩
    rw [sameInode, sameKey, cached', some.injEq] at cached
    rw [cached]

/-- Both processes write to the page of the first file, and one of them to that of the other. -/
theorem safe_run_shares_frames_two_processes
    : ∃ s pte pte' other, Run Safe twoProcesses s ∧ s.pte 0 0x10000 = some pte
        ∧ s.pte 1 0x10000 = some pte' ∧ s.pte 1 0x20000 = some other
        ∧ pte.frame = pte'.frame ∧ pte.frame ≠ other.frame := by
  obtain ⟨s₁, s₂, s₃, pte, pte', other, step₁, step₂, step₃, first, second, third, refs⟩ :
      ∃ s₁ s₂ s₃ pte pte' other,
        Step Safe twoProcesses s₁ ∧ Step Safe s₁ s₂ ∧ Step Safe s₂ s₃
        ∧ s₃.pte 0 0x10000 = some pte ∧ s₃.pte 1 0x10000 = some pte'
        ∧ s₃.pte 1 0x20000 = some other
        ∧ s₃.ref (0, 0x10000) = s₃.ref (1, 0x10000) ∧ s₃.ref (0, 0x10000) ≠ s₃.ref (1, 0x20000) :=
    ⟨_, _, _, _, _, _,
      .writeFault 0 0x10000000 (some 7) rfl (fun _ _ => rfl) rfl (by rintro r ⟨⟩; decide),
      .writeFault 1 0x10000000 none rfl nofun rfl (by rintro r ⟨⟩; decide),
      .writeFault 1 0x20000000 (some 8) rfl (by rintro f ⟨⟩; rfl) rfl (by rintro r ⟨⟩; decide),
      rfl, rfl, rfl, rfl, by decide⟩
  have run : Run Safe twoProcesses s₃ := .tail (.tail (.single step₁) step₂) step₃
  have shares {x y p q} := @safe_run_shares_frames _ _ twoProcesses_start run x y p q
  exact ⟨s₃, pte, pte', other, run, first, second, third, (shares first second).mpr refs.1,
    fun same => refs.2 ((shares first third).mp same)⟩

end UnstableOS.Mm.Mmap
