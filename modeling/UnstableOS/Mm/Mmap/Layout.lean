import UnstableOS.Mm.Mmap.Trees

/-! What `munmap_to_vmr` and `sys_mprotect` do to the pages of a process, whatever the layout of its
records.
Both take the record of the greatest start up to a page for the record on the page, also where it
ends before it, and count what they have done in pages of whole records.
-/

namespace UnstableOS.Mm.Mmap

open Function Nat VmRecord Option Prod

/-- What the records say about a page; the offset is that of the page in the file. -/
structure Page where
  prot : Prot
  isPrivate : Bool
  backingFd : Option FileDescriptor
  offset : ℕ
deriving DecidableEq, Repr

def VmRecord.page (r : VmRecord) (n : ℕ) : Option Page :=
  some ⟨r.prot, r.isPrivate, r.backingFd, n * pageSize - r.start + r.mappingOffset⟩

/-- None for a page that no record covers. -/
def page (vm : List VmRecord) (n : ℕ) : Option Page := view VmRecord.page vm n

section Pages
variable {vm vm' : List VmRecord} {r q : VmRecord} {n offset limit : ℕ} {kalloc : Bool}

theorem Valid.page_eq (valid : Valid vm) (mem : r ∈ vm) (covers : r.Covers n)
    : page vm n = r.page n :=
  valid.view_eq VmRecord.page mem covers

theorem page_of_search (search : rbtreeSearchLte vm (n * pageSize) = some r)
    : page vm n = if r.Covers n then r.page n else none := by
  rw [page, view, search, bind_some]

theorem page_of_search_none
    (search : rbtreeSearchLte vm (n * pageSize) = none) : page vm n = none := by
  rw [page, view, search, bind_none]

theorem covers_of_page (search : rbtreeSearchLte vm (n * pageSize) = some r)
    (covered : page vm n ≠ none)
    : r.Covers n := by
  by_contra outside
  rw [page_of_search search, if_neg outside] at covered
  exact covered rfl

theorem Valid.page_split (valid : Valid vm) (mem : r ∈ vm)
    (split : mmapSplitRecord vm kalloc r offset = some vm') (n : ℕ)
    : page vm' n = page vm n := by
  refine valid.view_split mem split (fun n _ => rfl) (fun n covers => ?_) n
  have low : r.start + offset ≤ n * pageSize := covers.1
  have distance : n * pageSize - (r.start + offset) + (r.mappingOffset + offset)
      = n * pageSize - r.start + r.mappingOffset := by
    omega
  simp [VmRecord.page, right, distance]

/-- Cutting a record out changes no page. -/
theorem Valid.page_splitOut (valid : Valid vm) (mem : r ∈ vm)
    (split : splitOut vm kalloc r offset limit = some (vm', q)) (n : ℕ)
    : page vm' n = page vm n := by
  obtain ⟨⟨vm₁, r₁⟩, first, second⟩ := bind_eq_some_iff.mp split
  obtain ⟨valid₁, mem₁, same₁⟩ : Valid vm₁ ∧ r₁ ∈ vm₁ ∧ page vm₁ n = page vm n := by
    rw [splitFront] at first
    split_ifs at first
    · obtain ⟨_, front, eq⟩ := map_eq_some_iff.mp first
      obtain ⟨rfl, rfl⟩ := mk.inj eq
      obtain ⟨valid₁, _, right, _⟩ := valid.split mem front
      exact ⟨valid₁, right, valid.page_split mem front n⟩
    · obtain ⟨rfl, rfl⟩ := mk.inj (Option.some.inj first)
      exact ⟨valid, mem, rfl⟩
  simp only [splitBack] at second
  split_ifs at second
  · obtain ⟨rfl, rfl⟩ := mk.inj (Option.some.inj second)
    exact same₁
  · obtain ⟨_, back, eq⟩ := map_eq_some_iff.mp second
    obtain ⟨rfl, rfl⟩ := mk.inj eq
    exact (valid₁.page_split mem₁ back n).trans same₁

theorem covers_iff_pages (aligned : r.start % pageSize = 0)
    : r.Covers n ↔ r.start ≤ n * pageSize ∧ n * pageSize < r.start + r.pages * pageSize := by
  simp only [Covers, pages, pageSize] at aligned ⊢
  omega

theorem covers_iff_of_start (starts : r.start = n * pageSize) {m}
    : r.Covers m ↔ n ≤ m ∧ m < n + r.pages := by
  simp only [Covers, pages, starts, pageSize]
  omega

/-- The record on the page right behind another record starts there. -/
theorem Valid.start_eq_of_behind (valid : Valid vm) (mem : r ∈ vm)
    (ends : r.start + r.pages * pageSize = n * pageSize) (member' : q ∈ vm) (covers : q.Covers n)
    : q.start = n * pageSize := by
  obtain ⟨low, high⟩ := covers
  have reach' := len_le_pages q
  rcases valid.apart r mem q member' with rfl | before | after
  · omega
  · omega
  · have := valid.positive r mem
    omega

end Pages

-- The records and the page table

variable {s s' : State} {pid : ℕ}

-- Unmapping

/-- The pages from `low` on up to `high` that the loop of `munmap_to_vmr` unmaps: all of them, or
those in front of the first one that is not mapped.
-/
def Cleared (ignoreMissing : Bool) (vm : List VmRecord) (low high n : ℕ) : Prop :=
  low ≤ n ∧ n < high ∧ (ignoreMissing = true ∨ ∀ k, low ≤ k → k ≤ n → page vm k ≠ none)

/-- The records after that. -/
structure Clears (ignoreMissing : Bool) (vm : List VmRecord) (low high : ℕ) (vm' : List VmRecord)
    : Prop where
  valid : Valid vm'
  gone : ∀ n, Cleared ignoreMissing vm low high n → page vm' n = none
  kept : ∀ n, ¬ Cleared ignoreMissing vm low high n → page vm' n = page vm n

namespace Clears

variable {vm vm' vm₁ : List VmRecord} {ignoreMissing : Bool} {low high : ℕ} {r cut : VmRecord}

theorem done (valid : Valid vm) (none : high ≤ low) : Clears ignoreMissing vm low high vm :=
  ⟨valid, fun n ⟨lowN, highN, _⟩ => absurd highN (by omega), fun _ _ => rfl⟩

/-- A page that is not mapped ends the call. -/
theorem stop (valid : Valid vm) (hole : page vm low = none) : Clears false vm low high vm := by
  refine ⟨valid, ?_, fun _ _ => rfl⟩
  rintro n ⟨lowN, _, missing | all⟩
  · cases missing
  · exact absurd hole (all _ le_rfl lowN)

/-- A page that is not mapped is passed over. -/
theorem skip (hole : page vm low = none) (rest : Clears true vm (low + 1) high vm')
    : Clears true vm low high vm' := by
  have later {n} (cleared : Cleared true vm low high n) (other : n ≠ low)
      : Cleared true vm (low + 1) high n :=
    ⟨by have := cleared.1; omega, cleared.2.1, .inl rfl⟩
  refine ⟨rest.valid, fun n cleared => ?_, fun n notCleared => rest.kept n fun cleared => ?_⟩
  · by_cases first : n = low
    · rw [rest.kept n fun cleared => absurd cleared.1 (by omega), first, hole]
    · exact rest.gone n (later cleared first)
  · exact notCleared ⟨by have := cleared.1; omega, cleared.2.1, .inl rfl⟩

/-- The record on the first page is unmapped. -/
theorem unmap (isCut : CutOut vm r (low * pageSize) (high - low) vm₁ cut)
    (same : ∀ n, page vm₁ n = page vm n) (more : low < high)
    (rest : Clears ignoreMissing (removeRecord vm₁ cut) (low + cut.pages) high vm')
    : Clears ignoreMissing vm low high vm' := by
  have covers {n} := covers_iff_of_start (m := n) isCut.start
  have limited := isCut.pages
  have removed (n) : page (removeRecord vm₁ cut) n = if cut.Covers n then none else page vm n := by
    rw [← same n]
    exact isCut.valid.view_replace VmRecord.page isCut.member
      (isCut.valid.replaces_remove isCut.member) n
  have mapped {n} (inside : cut.Covers n) : page vm n ≠ none := by
    rw [← same, isCut.valid.page_eq isCut.member inside]
    exact some_ne_none _
  have inside {n} (here : cut.Covers n)
      : Cleared ignoreMissing vm low high n ∧ page vm' n = none := by
    obtain ⟨lowN, highN⟩ := covers.mp here
    refine ⟨⟨lowN, by omega, .inr fun k lowK highK => mapped (covers.mpr ⟨lowK, by omega⟩)⟩, ?_⟩
    rw [rest.kept n fun cleared => absurd cleared.1 (by omega), removed, if_pos here]
  have outside {n} (other : ¬ cut.Covers n) : Cleared ignoreMissing vm low high n
      ↔ Cleared ignoreMissing (removeRecord vm₁ cut) (low + cut.pages) high n := by
    have notHere := mt covers.mpr other
    constructor <;> rintro ⟨lowN, highN, all⟩ <;>
      refine ⟨by omega, highN, all.imp_right fun all k lowK highK => ?_⟩
    · rw [removed, if_neg fun there => absurd (covers.mp there) (by omega)]
      exact all k (by omega) highK
    · by_cases there : cut.Covers k
      · exact mapped there
      · have notThere := mt covers.mpr there
        have := all k (by omega) highK
        rwa [removed, if_neg there] at this
  refine ⟨rest.valid, fun n cleared => ?_, fun n notCleared => ?_⟩
  · by_cases here : cut.Covers n
    · exact (inside here).2
    · exact rest.gone n ((outside here).mp cleared)
  · by_cases here : cut.Covers n
    · exact absurd (inside here).1 notCleared
    · rw [rest.kept n (mt (outside here).mpr notCleared), removed, if_neg here]

end Clears

section Unmap
variable {base len fuel i : ℕ} {ignoreMissing wasEmpty : Bool} {env : Env}

theorem target_eq (bounded : (base + len) * pageSize ≤ wordLimit) (more : i < len)
    : (base * pageSize + i * pageSize) % wordLimit = (base + i) * pageSize := by
  rw [← add_mul]
  refine mod_eq_of_lt (lt_of_lt_of_le ?_ bounded)
  exact Nat.mul_lt_mul_of_pos_right (by omega) (by decide)

theorem le_iff_page {n} : base * pageSize ≤ n * pageSize ↔ base ≤ n :=
  Nat.mul_le_mul_right_iff (by decide)

theorem lt_iff_page {n} : n * pageSize < base * pageSize + len * pageSize ↔ n < base + len := by
  rw [← add_mul, Nat.mul_lt_mul_right (by decide)]

theorem count_eq (size : len * pageSize < wordLimit)
    : (len * pageSize + pageSize - 1) % wordLimit / pageSize = len := by
  simp only [pageSize, wordLimit] at size ⊢
  omega

section
variable (valid : Valid (s.vm pid)) (bounded : (base + len) * pageSize ≤ wordLimit)
include valid bounded

end

/-- The calls of the other parts succeed, and there is one frame left. -/
def Env.able : Env := ⟨some 0, true, true, true⟩

/-- A process with one private mapping of anonymous memory. -/
def anonymous (len : ℕ) : State where
  vm pid := if pid = 0 then [⟨0x10000000, len, none, 0, ⟨false, true, true⟩, true⟩] else []
  pte _ _ := none
  inode _ := ⟨0o100644, 1, 4096, fun _ => 0, fun _ => none, false⟩
  frame _ := ⟨fun _ => 0, false⟩
  allocated _ := false
  changes := [.add (.records 0) 0x10000000]

theorem anonymous_valid {len : ℕ} (some : 0 < len) (bounded : 0x10000000 + len ≤ wordLimit)
    : Valid ((anonymous len).vm 0) :=
  .singleton (Nat.mod_eq_zero_of_dvd (by decide : 4096 ∣ 0x10000000)) some bounded

/-- The second of four pages: both splits succeed, but then the record to remove is the root of a
tree of three, whose right child has no children.
-/
theorem munmapToVmr_middle_page
    : munmapToVmr (anonymous 0x4000) .able 0 0x10001000 0x1000 true false = none
      ∧ (munmapLoop .able 0 0x10001000 1 true false 2 (anonymous 0x4000) 0).isSome := by
  refine ⟨not_isSome_iff_eq_none.mp ?_, by decide +kernel⟩
  decide +kernel

end Unmap

-- Protection

section Protect
variable {base len fuel i : ℕ} {prot : Prot} {r : VmRecord} {kalloc : Bool}

/-- A page under another protection. -/
def Page.protect (prot : Prot) (x : Page) : Page := { x with prot := prot }

/-- The pages after the protection of a record that was cut out is changed. -/
theorem CutOut.page_protect {vm vm' cut target limit} (isCut : CutOut vm r target limit vm' cut)
    (prot : Prot) (same : ∀ n, page vm' n = page vm n) (n : ℕ)
    : page (modifyRecord vm' cut { cut with prot := prot }) n
      = if cut.Covers n then (page vm n).map (Page.protect prot) else page vm n := by
  rw [← same n]
  refine (isCut.valid.view_protect VmRecord.page isCut.member prot n).trans ?_
  by_cases inside : cut.Covers n
  · rw [if_pos inside, if_pos inside, isCut.valid.page_eq isCut.member inside]
    rfl
  · rw [if_neg inside, if_neg inside]
    rfl

section
variable (valid : Valid (s.vm pid)) (bounded : (base + len) * pageSize ≤ wordLimit)
include valid bounded

/-- What the loop of `sys_mprotect` has done when it returns 0, where all pages are mapped and it
does not start inside a record that has the protection already and ends in the range.
Witness: induction on the fuel; a later round starts at the start of a record.
-/
theorem mprotectLoop_pages
    (covered : ∀ n, base + i ≤ n → n < base + len → page (s.vm pid) n ≠ none)
    (entry : i < len → ∀ r ∈ s.vm pid, r.Covers (base + i) →
      r.start = (base + i) * pageSize ∨ r.prot ≠ prot
        ∨ (base + len) * pageSize ≤ r.start + r.pages * pageSize)
    (call : mprotectLoop kalloc pid (base * pageSize) len prot fuel s i = some (s', 0)) (n : ℕ)
    : page (s'.vm pid) n
      = if base + i ≤ n ∧ n < base + len then (page (s.vm pid) n).map (Page.protect prot)
        else page (s.vm pid) n := by
  induction fuel generalizing s i with
  | zero => cases call
  | succ fuel ih =>
    rw [mprotectLoop] at call
    by_cases done : len ≤ i
    · rw [if_pos done] at call
      obtain ⟨rfl, _⟩ := mk.inj (Option.some.inj call)
      exact (if_neg (by omega)).symm
    have more := Nat.lt_of_not_le done
    simp only [if_neg done, target_eq bounded more] at call
    have here := covered (base + i) le_rfl (by omega)
    cases search : rbtreeSearchLte (s.vm pid) ((base + i) * pageSize) with
    | none => exact absurd (page_of_search_none search) here
    | some r =>
      obtain ⟨mem, starts, _⟩ := (rbtreeSearchLte_spec _ _).1 r search
      have covers := covers_of_page search here
      have aligned := valid.aligned r mem
      have reach := covers.2
      have base_le : base * pageSize ≤ (base + i) * pageSize :=
        mul_le_mul_right _ (Nat.le_add_right ..)
      simp only [search] at call
      rw [if_neg (by omega)] at call
      split_ifs at call with denied same
      · cases call
      · have whole := (entry more r mem covers).imp_right (Or.resolve_left · (not_not.mpr same))
        have some := valid.pages_pos mem
        rw [ih (i := i + min r.pages (len - i)) valid (fun n low high => covered n (by omega) high)
          (fun further q member' covers' => .inl ?_) call]
        · by_cases counted : base + i ≤ n ∧ n < base + (i + min r.pages (len - i))
          · -- the pages that are counted as done are pages of the record
            have inside : page (s.vm pid) n = r.page n := by
              refine valid.page_eq mem ((covers_iff_pages aligned).mpr ?_)
              simp only [pageSize] at whole starts ⊢
              omega
            rw [if_neg (by omega), if_pos (by omega), inside, ← same]
            rfl
          · exact if_congr (by omega) rfl rfl
        · refine valid.start_eq_of_behind mem ?_ member' covers'
          simp only [pageSize] at whole starts ⊢
          omega
      · obtain ⟨⟨vm', r'⟩, split, next⟩ := bind_eq_some_iff.mp call
        have cut := valid.cutOut mem starts split
        have coversCut {m} := covers_iff_of_start (m := m) cut.start
        have some := cut.valid.pages_pos cut.member
        have limited := cut.pages
        have replaces := cut.valid.replaces_protect cut.member prot
        have changed (m : ℕ) := cut.page_protect prot (valid.page_splitOut mem split) m
        have newVm := @protectCut_vm (s.addRecords pid
          (splitStarts r ((base + i) * pageSize - r.start) (len - i))) pid r' vm' (base * pageSize)
          i prot
        simp only at next
        generalize protectCut pid _ i prot _ vm' r' = s₁ at newVm next
        have valid₁ := newVm ▸ cut.valid.replace cut.member replaces
        have member₁ := newVm ▸ (replaces.mem _).mpr (.inl (List.mem_singleton_self _))
        rw [ih (i := i + r'.pages) valid₁ (fun n low high => ?_)
          (fun further q member' covers' => .inl ?_) next]
        · rw [newVm, changed]
          by_cases inside : r'.Covers n
          · have := coversCut.mp inside
            rw [if_neg (by omega), if_pos inside, if_pos (by omega)]
          · have := mt coversCut.mpr inside
            rw [if_neg inside]
            exact if_congr (by omega) rfl rfl
        · rw [newVm, changed, if_neg fun inside => absurd (coversCut.mp inside) (by omega)]
          exact covered n (by omega) high
        · refine valid₁.start_eq_of_behind member₁ ?_ member' covers'
          have start := cut.start
          show r'.start + r'.pages * pageSize = _
          simp only [pageSize] at start ⊢
          omega

/-- Once a record reaches up to the range, `-ENOMEM` is not returned. -/
theorem mprotectLoop_ne_enomem (mem : r ∈ s.vm pid) (starts : r.start ≤ (base + i) * pageSize)
    (reaches : base * pageSize ≤ r.start + r.len)
    : mprotectLoop kalloc pid (base * pageSize) len prot fuel s i ≠ some (s', -enomem) := by
  induction fuel generalizing s i r with
  | zero => nofun
  | succ fuel ih =>
    intro call
    rw [mprotectLoop] at call
    by_cases done : len ≤ i
    · rw [if_pos done] at call
      cases call
    have more := Nat.lt_of_not_le done
    simp only [if_neg done, target_eq bounded more] at call
    obtain ⟨found, missing⟩ := rbtreeSearchLte_spec (s.vm pid) ((base + i) * pageSize)
    cases search : rbtreeSearchLte (s.vm pid) ((base + i) * pageSize) with
    | none => exact absurd (missing search r mem) (by omega)
    | some q =>
      obtain ⟨member', starts', greatest⟩ := found q search
      have later := greatest r mem starts
      have reaches' : ¬ q.start + q.len < base * pageSize := by
        have := valid.positive q member'
        have := len_le_pages r
        have := len_le_pages q
        rcases valid.apart r mem q member' with rfl | before | after <;> omega
      simp only [search, if_neg reaches'] at call
      split_ifs at call with denied same
      · cases call
      · have further : (base + i) * pageSize ≤ (base + (i + min q.pages (len - i))) * pageSize :=
          mul_le_mul_right _ (by omega)
        exact ih valid mem (by omega) reaches call
      obtain ⟨⟨vm', r'⟩, split, next⟩ := bind_eq_some_iff.mp call
      have cut := valid.cutOut member' starts' split
      have replaces := cut.valid.replaces_protect cut.member prot
      have newVm := @protectCut_vm (s.addRecords pid
        (splitStarts q ((base + i) * pageSize - q.start) (len - i))) pid r' vm' (base * pageSize) i
        prot
      simp only at next
      generalize protectCut pid _ i prot _ vm' r' = s₁ at newVm next
      have start := cut.start
      have member₁ := newVm ▸ (replaces.mem _).mpr (.inl (List.mem_singleton_self _))
      have further : (base + i) * pageSize ≤ (base + (i + r'.pages)) * pageSize :=
        mul_le_mul_right _ (by omega)
      have base_le : base * pageSize ≤ (base + i) * pageSize :=
        mul_le_mul_right _ (Nat.le_add_right ..)
      exact ih (newVm ▸ cut.valid.replace cut.member replaces) member₁ (start.trans_le further)
        (show base * pageSize ≤ r'.start + r'.len by omega) next

end

/-- What a call of `sys_mprotect` should come to: it returns 0 only with the protection of just the
pages of the range set, and `-ENOMEM` if one of them is not mapped.
-/
def Protects (s : State) (pid addr len : ℕ) (prot : Prot) (result : Option (State × Int)) : Prop :=
  (∀ s', result = some (s', 0) → ∀ n,
      if addr ≤ n * pageSize ∧ n * pageSize < addr + len then
        ∃ x, page (s'.vm pid) n = some x ∧ x.prot = prot
      else (page (s'.vm pid) n).map Page.prot = (page (s.vm pid) n).map Page.prot)
    ∧ ((∃ n, addr ≤ n * pageSize ∧ n * pageSize < addr + len ∧ page (s.vm pid) n = none) →
        ∃ s', result = some (s', -enomem))

/-- A call is right if the record before the range ends before its start, or if all pages are mapped
and the first record on them starts there, has another protection or goes on to the end of the
range. If a page is not mapped, only the first of these makes it right.
-/
theorem sysMprotect_protects {addr : ℕ} (valid : Valid (s.vm pid)) (aligned : addr % pageSize = 0)
    (whole : len % pageSize = 0) (bounded : addr + len ≤ wordLimit) (size : len < wordLimit)
    : ((len = 0 ∨ (∀ r ∈ rbtreeSearchLte (s.vm pid) addr, r.start + r.len < addr)
          ∨ ((∀ n, addr ≤ n * pageSize → n * pageSize < addr + len → page (s.vm pid) n ≠ none)
            ∧ ∀ r ∈ rbtreeSearchLte (s.vm pid) addr,
                r.start = addr ∨ r.prot ≠ prot ∨ addr + len ≤ r.start + r.pages * pageSize))
        → Protects s pid addr len prot (sysMprotect s kalloc pid addr len prot))
      ∧ ((∃ n, addr ≤ n * pageSize ∧ n * pageSize < addr + len ∧ page (s.vm pid) n = none)
        → Protects s pid addr len prot (sysMprotect s kalloc pid addr len prot)
        → ∀ r ∈ rbtreeSearchLte (s.vm pid) addr, r.start + r.len < addr) := by
  obtain ⟨base, rfl⟩ := dvd_of_mod_eq_zero aligned
  obtain ⟨count, rfl⟩ := dvd_of_mod_eq_zero whole
  rw [mul_comm pageSize base, mul_comm pageSize count] at *
  simp only [Protects, le_iff_page, lt_iff_page]
  by_cases zero : count * pageSize = 0
  · have none := (Nat.mul_eq_zero.mp zero).resolve_right (by decide)
    have returns : sysMprotect s kalloc pid (base * pageSize) (count * pageSize) prot
        = some (s, 0) := by
      rw [sysMprotect, if_neg (by simp), if_pos zero]
    refine ⟨fun _ => ⟨fun s' call n => ?_, ?_⟩, ?_⟩ <;> try (rintro ⟨n, _⟩; omega)
    cases returns.symm.trans call
    rw [if_neg (by omega)]
  have some : 0 < count := pos_of_ne_zero fun none => zero (by rw [none, zero_mul])
  rw [← add_mul] at bounded
  have call : sysMprotect s kalloc pid (base * pageSize) (count * pageSize) prot
      = mprotectLoop kalloc pid (base * pageSize) count prot (count + 1) s 0 := by
    rw [sysMprotect, if_neg (by simp), if_neg zero, count_eq size]
  have target := target_eq (i := 0) bounded some
  rw [call, or_iff_right zero]
  refine ⟨?_, fun hole protects r first => ?_⟩
  · rintro (apart | ⟨covered, entry⟩)
    · have fails : mprotectLoop kalloc pid (base * pageSize) count prot (count + 1) s 0
          = .some (s, -enomem) := by
        rw [mprotectLoop, if_neg (by omega)]
        simp only [target]
        cases search : rbtreeSearchLte (s.vm pid) (base * pageSize) with
        | none => rfl
        | some r => exact if_pos (apart r search)
      exact ⟨fun s' zero => (by cases fails.symm.trans zero), fun _ => ⟨s, fails⟩⟩
    · refine ⟨fun s₁ zero n => ?_, fun missing => absurd missing (by push Not; exact covered)⟩
      have pages := @mprotectLoop_pages s s₁ pid base count (count + 1) 0 prot kalloc valid bounded
        covered (fun _ r mem covers => by
          rw [add_zero] at covers ⊢
          rw [add_mul]
          exact entry r (valid.search_eq mem covers)) zero n
      rw [add_zero] at pages
      rw [pages]
      by_cases inside : base ≤ n ∧ n < base + count
      · obtain ⟨x, found⟩ := ne_none_iff_exists'.mp (covered n inside.1 inside.2)
        rw [if_pos inside, if_pos inside, found]
        exact ⟨_, rfl, rfl⟩
      · rw [if_neg inside, if_neg inside]
  · obtain ⟨s', returns⟩ := protects.2 hole
    obtain ⟨mem, starts, _⟩ := (rbtreeSearchLte_spec _ _).1 r first
    by_contra reaches
    refine mprotectLoop_ne_enomem (i := 0) valid bounded mem ?_ (Nat.le_of_not_lt reaches) returns
    rwa [add_zero]

/-- The second of four pages. -/
theorem sysMprotect_protects_second_page
    : Protects (anonymous 0x4000) 0 0x10001000 0x1000 ⟨false, true, false⟩
        (sysMprotect (anonymous 0x4000) true 0 0x10001000 0x1000 ⟨false, true, false⟩) := by
  refine (sysMprotect_protects (anonymous_valid (by decide) (by decide)) (by decide) (by decide)
    (by decide) (by decide)).1 (.inr (.inr ⟨fun n low high => ?_, ?_⟩))
  · obtain rfl : n = 0x10001 := by
      simp only [pageSize] at low high
      omega
    decide
  · rintro r ⟨⟩
    exact .inr (.inl (by decide))

/-- The second page is behind the only record, which has the protection by then. -/
theorem sysMprotect_hole_succeeds
    : ∃ s', sysMprotect (anonymous 0x1000) true 0 0x10000000 0x2000 ⟨false, true, false⟩
          = some (s', 0)
        ∧ page ((anonymous 0x1000).vm 0) 0x10001 = none
        ∧ ¬ Protects (anonymous 0x1000) 0 0x10000000 0x2000 ⟨false, true, false⟩
          (sysMprotect (anonymous 0x1000) true 0 0x10000000 0x2000 ⟨false, true, false⟩) := by
  have succeeds : (sysMprotect (anonymous 0x1000) true 0 0x10000000 0x2000
      ⟨false, true, false⟩).map snd = some 0 := by decide +kernel
  obtain ⟨⟨s', _⟩, returns, rfl⟩ := map_eq_some_iff.mp succeeds
  have hole : page ((anonymous 0x1000).vm 0) 0x10001 = none := by decide +kernel
  refine ⟨s', returns, hole, fun ⟨_, fails⟩ => ?_⟩
  obtain ⟨_, failed⟩ := fails ⟨0x10001, by decide, by decide, hole⟩
  rw [returns] at failed
  cases failed

end Protect

end UnstableOS.Mm.Mmap
