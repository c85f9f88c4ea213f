import UnstableOS.Mm.Mmap.Code
import Mathlib.Tactic.Ring

/-! The records of a process, and what they say about each page. -/

namespace UnstableOS.Mm.Mmap

open VmRecord List Nat Prod

variable {vm new vm' : List VmRecord} {r q : VmRecord} {n offset : ℕ} {kalloc : Bool}
  {α : Type}  (f : VmRecord → ℕ → Option α)

/-- The page starts inside the record. -/
def VmRecord.Covers (r : VmRecord) (n : ℕ) : Prop :=
  r.start ≤ n * pageSize ∧ n * pageSize < r.start + r.len

instance (r : VmRecord) (n : ℕ) : Decidable (r.Covers n) := inferInstanceAs (Decidable (_ ∧ _))

/-- Records start at pages, are not empty, end in the address space, and do not share pages. -/
structure Valid (vm : List VmRecord) : Prop where
  aligned : ∀ r ∈ vm, r.start % pageSize = 0
  positive : ∀ r ∈ vm, 0 < r.len
  bounded : ∀ r ∈ vm, r.start + r.len ≤ wordLimit
  apart
    : ∀ r ∈ vm, ∀ q ∈ vm, r = q ∨ r.start + r.pages * pageSize ≤ q.start
        ∨ q.start + q.pages * pageSize ≤ r.start

theorem len_le_pages (r : VmRecord) : r.len ≤ r.pages * pageSize := by
  simp only [pages, pageSize]
  omega

/-- What `rbtree_search_lte` finds. -/
theorem rbtreeSearchLte_spec (vm : List VmRecord) (val : ℕ)
    : (∀ r, rbtreeSearchLte vm val = some r
        → r ∈ vm ∧ r.start ≤ val ∧ ∀ q ∈ vm, q.start ≤ val → q.start ≤ r.start)
      ∧ (rbtreeSearchLte vm val = none → ∀ q ∈ vm, val < q.start) := by
  induction vm with
  | nil => simp [rbtreeSearchLte]
  | cons head rest ih =>
    obtain ⟨found, missing⟩ := ih
    rw [rbtreeSearchLte]
    cases result : rbtreeSearchLte rest val with
    | none =>
      have below := missing result
      by_cases fits : head.start ≤ val
      · simp only [if_pos fits]
        refine ⟨?_, nofun⟩
        rintro r ⟨⟩
        refine ⟨mem_cons_self, fits, forall_mem_cons.mpr ⟨fun _ => le_rfl, ?_⟩⟩
        intro q inRest small
        exact absurd small (below q inRest).not_ge
      · simp only [if_neg fits]
        exact ⟨nofun, fun _ => forall_mem_cons.mpr ⟨not_le.mp fits, below⟩⟩
    | some best =>
      obtain ⟨inRest, bestFits, bestGreatest⟩ := found best result
      by_cases better : head.start ≤ val ∧ best.start < head.start
      · simp only [if_pos better]
        refine ⟨?_, nofun⟩
        rintro r ⟨⟩
        exact ⟨mem_cons_self, better.1, forall_mem_cons.mpr ⟨fun _ => le_rfl,
          fun q inRest small => (bestGreatest q inRest small).trans better.2.le⟩⟩
      · simp only [if_neg better]
        refine ⟨?_, nofun⟩
        rintro r ⟨⟩
        exact ⟨mem_cons_of_mem _ inRest, bestFits, forall_mem_cons.mpr ⟨by omega, bestGreatest⟩⟩

/-- The record that covers a page is the one the search finds. -/
theorem Valid.search_eq (valid : Valid vm) (mem : r ∈ vm) (covers : r.Covers n)
    : rbtreeSearchLte vm (n * pageSize) = some r := by
  obtain ⟨found, missing⟩ := rbtreeSearchLte_spec vm (n * pageSize)
  cases result : rbtreeSearchLte vm (n * pageSize) with
  | none =>
    have := missing result r mem
    have := covers.1
    omega
  | some q =>
    obtain ⟨inVm, small, greatest⟩ := found q result
    have order := greatest r mem covers.1
    have reach := len_le_pages r
    have past := covers.2
    have full := valid.positive q inVm
    have qReach := len_le_pages q
    rcases valid.apart r mem q inVm with rfl | before | after
    · rfl
    · omega
    · omega

/-- What the records say about a page: the page of the file, the protection, whether the mapping
covers the whole of this page of the file, and whether its descriptor writes where it is told to.
-/
structure Spot where
  inode : ℕ
  key : ℕ
  prot : Prot
  whole : Bool
  writes : Bool
deriving DecidableEq, Repr

def VmRecord.whole (r : VmRecord) (n : ℕ) : Bool :=
  n * pageSize + pageSize ≤ r.start + r.len ∧ r.mappingOffset % pageSize = 0

def FileDescriptor.writes (fd : FileDescriptor) : Bool := fd.writable && !fd.append

def VmRecord.spot (r : VmRecord) (n : ℕ) : Option Spot :=
  r.backingFd.map fun fd => ⟨fd.inode, r.key n, r.prot, r.whole n, fd.writes⟩

def spot (vm : List VmRecord) (n : ℕ) : Option Spot :=
  (rbtreeSearchLte vm (n * pageSize)).bind fun r => if r.Covers n then r.spot n else none

/-- What the record on a page says about it, for anything a record can say. -/
def view (vm : List VmRecord) (n : ℕ) : Option α :=
  (rbtreeSearchLte vm (n * pageSize)).bind fun r => if r.Covers n then f r n else none

theorem Valid.view_eq (valid : Valid vm) (mem : r ∈ vm) (covers : r.Covers n)
    : view f vm n = f r n := by
  rw [view, valid.search_eq mem covers, Option.bind_some, if_pos covers]

theorem Valid.view_eq_some_iff (valid : Valid vm) {x}
    : view f vm n = some x ↔ ∃ r ∈ vm, r.Covers n ∧ f r n = some x := by
  refine ⟨fun found => ?_, ?_⟩
  · obtain ⟨r, result, here⟩ := Option.bind_eq_some_iff.mp found
    obtain ⟨mem, _⟩ := (rbtreeSearchLte_spec _ _).1 r result
    by_cases covers : r.Covers n
    · rw [if_pos covers] at here
      exact ⟨r, mem, covers, here⟩
    · rw [if_neg covers] at here
      cases here
  · rintro ⟨r, mem, covers, here⟩
    rw [valid.view_eq f mem covers, here]

/-- Two lists of records that say the same through their records say the same. -/
theorem Valid.view_congr (valid : Valid vm) (valid' : Valid vm')
    (same : ∀ x, (∃ r ∈ vm', r.Covers n ∧ f r n = some x) ↔ ∃ r ∈ vm, r.Covers n ∧ f r n = some x)
    : view f vm' n = view f vm n := by
  refine Option.ext fun x => ?_
  rw [valid'.view_eq_some_iff, valid.view_eq_some_iff]
  exact same x

section
variable (valid : Valid vm) (mem : r ∈ vm)
include valid mem

theorem Valid.spot_eq (covers : r.Covers n) : spot vm n = r.spot n :=
  valid.view_eq VmRecord.spot mem covers

-- Changes of the records

theorem Valid.pages_pos : 0 < r.pages := by
  have full := valid.positive r mem
  have reach := len_le_pages r
  rcases Nat.eq_zero_or_pos r.pages with none | some
  · rw [none] at reach
    omega
  · exact some

/-- The start identifies the record. -/
theorem Valid.start_inj (member' : q ∈ vm) (same : q.start = r.start) : q = r := by
  have some := valid.pages_pos mem
  have some' := valid.pages_pos member'
  have wide : 0 < r.pages * pageSize := mul_pos some (by decide)
  have wide' : 0 < q.pages * pageSize := mul_pos some' (by decide)
  rcases valid.apart r mem q member' with rfl | before | after
  · rfl
  · omega
  · omega

theorem Valid.mem_modifyRecord (r' : VmRecord)
    : q ∈ modifyRecord vm r r' ↔ q = r' ∨ (q ∈ vm ∧ q ≠ r) := by
  rw [modifyRecord, mem_map]
  refine ⟨?_, ?_⟩
  · rintro ⟨old, inVm, rfl⟩
    by_cases same : old.start = r.start
    · rw [if_pos same]
      exact .inl rfl
    rw [if_neg same]
    refine .inr ⟨inVm, ?_⟩
    rintro rfl
    exact same rfl
  · rintro (rfl | ⟨inVm, other⟩)
    · exact ⟨r, mem, if_pos rfl⟩
    · refine ⟨q, inVm, if_neg fun same => other ?_⟩
      exact valid.start_inj mem inVm same

theorem Valid.mem_removeRecord : q ∈ removeRecord vm r ↔ q ∈ vm ∧ q ≠ r := by
  rw [removeRecord, mem_filter, decide_eq_true_iff]
  exact and_congr_right fun inVm => not_congr ⟨valid.start_inj mem inVm, congrArg _⟩

/-- A record is replaced by others on its pages. -/
structure Replaces (vm : List VmRecord) (r : VmRecord) (new vm' : List VmRecord) : Prop where
  mem : ∀ q, q ∈ vm' ↔ q ∈ new ∨ (q ∈ vm ∧ q ≠ r)
  valid : Valid new
  inside
    : ∀ q ∈ new, r.start ≤ q.start ∧ q.start + q.pages * pageSize ≤ r.start + r.pages * pageSize
  covers : ∀ q ∈ new, ∀ n, q.Covers n → r.Covers n

theorem Valid.replace (replaces : Replaces vm r new vm') : Valid vm' := by
  have either {q} (kept : q ∈ vm') := (replaces.mem q).mp kept
  refine ⟨fun q kept => ?_, fun q kept => ?_, fun q kept => ?_, fun q kept p kept' => ?_⟩
  · exact (either kept).elim (replaces.valid.aligned q) fun old => valid.aligned q old.1
  · exact (either kept).elim (replaces.valid.positive q) fun old => valid.positive q old.1
  · exact (either kept).elim (replaces.valid.bounded q) fun old => valid.bounded q old.1
  · rcases either kept with isNew | ⟨old, other⟩
    · rcases either kept' with isNew' | ⟨old', other'⟩
      · exact replaces.valid.apart q isNew p isNew'
      have := replaces.inside q isNew
      rcases valid.apart r mem p old' with rfl | before | after
      · exact absurd rfl other'
      · omega
      · omega
    · rcases either kept' with isNew' | ⟨old', other'⟩
      · have := replaces.inside p isNew'
        rcases valid.apart r mem q old with rfl | before | after
        · exact absurd rfl other
        · omega
        · omega
      · exact valid.apart q old p old'

theorem Valid.view_replace (replaces : Replaces vm r new vm') (n : ℕ)
    : view f vm' n = if r.Covers n then view f new n else view f vm n := by
  have valid' := valid.replace mem replaces
  by_cases covers : r.Covers n
  · rw [if_pos covers]
    refine replaces.valid.view_congr f valid' fun x => ⟨?_, ?_⟩
    · rintro ⟨q, kept, coversToo, here⟩
      rcases (replaces.mem q).mp kept with isNew | ⟨old, other⟩
      · exact ⟨q, isNew, coversToo, here⟩
      · have same := (valid.search_eq mem covers).symm.trans (valid.search_eq old coversToo)
        exact absurd (Option.some.inj same).symm other
    · rintro ⟨q, isNew, rest⟩
      exact ⟨q, (replaces.mem q).mpr (.inl isNew), rest⟩
  · rw [if_neg covers]
    refine valid.view_congr f valid' fun x => ⟨?_, ?_⟩
    · rintro ⟨q, kept, coversToo, here⟩
      rcases (replaces.mem q).mp kept with isNew | ⟨old, other⟩
      · exact absurd (replaces.covers q isNew n coversToo) covers
      · exact ⟨q, old, coversToo, here⟩
    · rintro ⟨q, old, coversToo, here⟩
      refine ⟨q, (replaces.mem q).mpr (.inr ⟨old, ?_⟩), coversToo, here⟩
      rintro rfl
      exact covers coversToo

/-- Every record maps what one of the old records maps. -/
def Derived (vm vm' : List VmRecord) : Prop :=
  ∀ q ∈ vm', ∃ p ∈ vm, q.isPrivate = p.isPrivate ∧ q.backingFd = p.backingFd

omit valid mem in
theorem Derived.trans {vm''} (first : Derived vm vm') (second : Derived vm' vm'')
    : Derived vm vm'' := by
  intro q mem
  obtain ⟨p, inMiddle, samePrivate, sameFd⟩ := second q mem
  obtain ⟨o, inOld, samePrivate', sameFd'⟩ := first p inMiddle
  exact ⟨o, inOld, samePrivate.trans samePrivate', sameFd.trans sameFd'⟩

omit valid in
theorem Replaces.derived (replaces : Replaces vm r new vm')
    (same : ∀ q ∈ new, q.isPrivate = r.isPrivate ∧ q.backingFd = r.backingFd)
    : Derived vm vm' := by
  intro q kept
  rcases (replaces.mem q).mp kept with isNew | ⟨old, _⟩
  · exact ⟨r, mem, same q isNew⟩
  · exact ⟨q, old, rfl, rfl⟩

theorem Valid.replaces_remove : Replaces vm r [] (removeRecord vm r) :=
  ⟨fun q => by simp [valid.mem_removeRecord mem], ⟨by simp, by simp, by simp, by simp⟩,
    by simp, by simp⟩

theorem Valid.remove
    : Valid (removeRecord vm r) ∧ Derived vm (removeRecord vm r)
      ∧ ∀ n, spot (removeRecord vm r) n = if r.Covers n then none else spot vm n :=
  have replaces := valid.replaces_remove mem
  ⟨valid.replace mem replaces, replaces.derived mem (by simp),
    valid.view_replace VmRecord.spot mem replaces⟩

omit valid mem in
theorem Valid.singleton {q} (aligned : q.start % pageSize = 0) (positive : 0 < q.len)
    (bounded : q.start + q.len ≤ wordLimit)
    : Valid [q] := by
  constructor <;> simp [aligned, positive, bounded]

theorem Valid.replaces_protect (prot : Prot)
    : Replaces vm r [{ r with prot := prot }] (modifyRecord vm r { r with prot := prot }) := by
  refine ⟨fun q => ?_, .singleton (valid.aligned r mem) (valid.positive r mem)
    (valid.bounded r mem), ?_, ?_⟩
  · rw [valid.mem_modifyRecord mem, mem_singleton]
  · intro q isNew
    rw [mem_singleton.mp isNew]
    exact ⟨le_rfl, le_rfl⟩
  · intro q isNew n covers
    rw [mem_singleton.mp isNew] at covers
    exact covers

/-- Changing the protection of a record changes what it says on its pages. -/
theorem Valid.view_protect (prot : Prot) (n : ℕ)
    : view f (modifyRecord vm r { r with prot := prot }) n
      = if r.Covers n then f { r with prot := prot } n else view f vm n := by
  have replaces := valid.replaces_protect mem prot
  rw [valid.view_replace f mem replaces]
  by_cases covers : r.Covers n
  · rw [if_pos covers, if_pos covers]
    exact replaces.valid.view_eq f (mem_singleton_self _) covers
  · rw [if_neg covers, if_neg covers]

theorem Valid.protect (prot : Prot)
    : Valid (modifyRecord vm r { r with prot := prot })
      ∧ Derived vm (modifyRecord vm r { r with prot := prot })
      ∧ ∀ n, spot (modifyRecord vm r { r with prot := prot }) n
        = if r.Covers n then (spot vm n).map (fun x => { x with prot := prot }) else spot vm n := by
  have replaces := valid.replaces_protect mem prot
  refine ⟨valid.replace mem replaces, replaces.derived mem (by simp), fun n => ?_⟩
  refine (valid.view_protect VmRecord.spot mem prot n).trans ?_
  by_cases covers : r.Covers n
  · rw [if_pos covers, if_pos covers, valid.spot_eq mem covers, VmRecord.spot, VmRecord.spot,
      Option.map_map]
    rfl
  · rw [if_neg covers, if_neg covers]
    rfl

end

/-- Both parts of a split record say the same about their pages as the record. -/
theorem spot_left (paged : offset % pageSize = 0) (aligned : r.start % pageSize = 0)
    (less : offset < r.len) (covers : (r.left offset).Covers n)
    : r.Covers n ∧ (r.left offset).spot n = r.spot n := by
  obtain ⟨low, high⟩ := covers
  simp only [left, pageSize] at low high paged aligned
  refine ⟨⟨low, ?_⟩, ?_⟩
  · simp only [pageSize]
    omega
  · have sameWhole : (r.left offset).whole n = r.whole n := by
      refine decide_eq_decide.mpr (and_congr_left fun _ => ?_)
      simp only [left, pageSize]
      omega
    rw [VmRecord.spot, VmRecord.spot, sameWhole]
    rfl

theorem spot_right (paged : offset % pageSize = 0) (less : offset < r.len)
    (covers : (r.right offset).Covers n)
    : r.Covers n ∧ (r.right offset).spot n = r.spot n := by
  obtain ⟨low, high⟩ := covers
  simp only [right, pageSize] at low high paged
  refine ⟨⟨?_, ?_⟩, ?_⟩
  · simp only [pageSize]
    omega
  · simp only [pageSize]
    omega
  · have sameWhole : (r.right offset).whole n = r.whole n := by
      refine decide_eq_decide.mpr ?_
      simp only [right, pageSize]
      omega
    have sameKey : (r.right offset).key n = r.key n := by
      have distance : n * 4096 - (r.start + offset) + (r.mappingOffset + offset)
          = n * 4096 - r.start + r.mappingOffset := by
        omega
      simp [key, right, pageSize, distance]
    rw [VmRecord.spot, VmRecord.spot, sameWhole, sameKey]
    rfl

theorem covers_parts (offset : ℕ) (covers : r.Covers n)
    : (r.left offset).Covers n ∨ (r.right offset).Covers n := by
  obtain ⟨low, high⟩ := covers
  simp only [Covers, left, right]
  omega

theorem pages_left (paged : offset % pageSize = 0) : (r.left offset).pages * pageSize = offset := by
  simp only [pages, left, pageSize] at paged ⊢
  omega

theorem pages_right (paged : offset % pageSize = 0) (less : offset < r.len)
    : offset + (r.right offset).pages * pageSize = r.pages * pageSize := by
  simp only [pages, right, pageSize] at paged ⊢
  omega

theorem forall_mem_pair {p : VmRecord → Prop} : (∀ x ∈ [q, r], p x) ↔ p q ∧ p r := by simp

theorem mmapSplitRecord_eq_some (split : mmapSplitRecord vm kalloc r offset = some vm')
    : (0 < offset ∧ offset % pageSize = 0 ∧ offset < r.len ∧ kalloc = true)
      ∧ r.right offset :: modifyRecord vm r (r.left offset) = vm' := by
  rw [mmapSplitRecord] at split
  split_ifs at split with fits
  exact ⟨fits, Option.some.inj split⟩

section
variable (valid : Valid vm) (mem : r ∈ vm)
include valid mem

theorem Valid.replaces_split (split : mmapSplitRecord vm kalloc r offset = some vm')
    : Replaces vm r [r.right offset, r.left offset] vm' := by
  obtain ⟨⟨some, paged, less, _⟩, rfl⟩ := mmapSplitRecord_eq_some split
  have aligned := valid.aligned r mem
  have bounded := valid.bounded r mem
  have lowPages := pages_left (r := r) paged
  have highPages := pages_right paged less
  have parts : Valid [r.right offset, r.left offset] := by
    refine ⟨forall_mem_pair.mpr ⟨?_, aligned⟩, ?_, ?_, ?_⟩
    · simp only [right, pageSize] at paged aligned ⊢
      omega
    · simp only [forall_mem_pair, right, left]
      omega
    · simp only [forall_mem_pair, right, left]
      omega
    · have ordered : (r.left offset).start + (r.left offset).pages * pageSize
          ≤ (r.right offset).start := by
        rw [lowPages]
        exact le_rfl
      simp only [forall_mem_pair, true_or, true_and, and_true]
      exact ⟨.inr (.inr ordered), .inr (.inl ordered)⟩
  refine ⟨fun q => ?_, parts, ?_, ?_⟩
  · rw [mem_cons, valid.mem_modifyRecord mem]
    simp [mem_cons, or_assoc]
  · simp only [forall_mem_pair, lowPages]
    simp only [right, left] at highPages ⊢
    omega
  · exact forall_mem_pair.mpr ⟨fun n covers => (spot_right paged less covers).1,
      fun n covers => (spot_left paged aligned less covers).1⟩

/-- Splitting a record says nothing new, if both parts say of their pages what the record says. -/
theorem Valid.view_split {f : VmRecord → ℕ → Option α}
    (split : mmapSplitRecord vm kalloc r offset = some vm')
    (left : ∀ n, (r.left offset).Covers n → f (r.left offset) n = f r n)
    (right : ∀ n, (r.right offset).Covers n → f (r.right offset) n = f r n) (n : ℕ)
    : view f vm' n = view f vm n := by
  have replaces := valid.replaces_split mem split
  rw [valid.view_replace f mem replaces]
  by_cases covers : r.Covers n
  · rw [if_pos covers, valid.view_eq f mem covers]
    rcases covers_parts offset covers with inLeft | inRight
    · rw [replaces.valid.view_eq f (by simp) inLeft, left n inLeft]
    · rw [replaces.valid.view_eq f (by simp) inRight, right n inRight]
  · rw [if_neg covers]

theorem Valid.split (split : mmapSplitRecord vm kalloc r offset = some vm')
    : Valid vm' ∧ r.left offset ∈ vm' ∧ r.right offset ∈ vm' ∧ Derived vm vm'
      ∧ ∀ n, spot vm' n = spot vm n := by
  have replaces := valid.replaces_split mem split
  obtain ⟨_, paged, less, _⟩ := (mmapSplitRecord_eq_some split).1
  have aligned := valid.aligned r mem
  refine ⟨valid.replace mem replaces, (replaces.mem _).mpr (.inl (by simp)),
    (replaces.mem _).mpr (.inl (by simp)), replaces.derived mem ?_,
    valid.view_split mem split (fun n covers => (spot_left paged aligned less covers).2)
      fun n covers => (spot_right paged less covers).2⟩
  simp [left, right]

/-- What `splitOut` gives: a record on the pages from the target on. -/
structure CutOut (vm : List VmRecord) (r : VmRecord) (target limit : ℕ) (vm' : List VmRecord)
    (r' : VmRecord)
    : Prop where
  valid : Valid vm'
  member : r' ∈ vm'
  start : r'.start = target
  pages : r'.pages ≤ limit
  prot : r'.prot = r.prot
  backingFd : r'.backingFd = r.backingFd
  isPrivate : r'.isPrivate = r.isPrivate
  derived : Derived vm vm'
  spot : ∀ n, spot vm' n = spot vm n

theorem Valid.cutOut {target limit r'} (starts : r.start ≤ target)
    (result : splitOut vm kalloc r (target - r.start) limit = some (vm', r'))
    : CutOut vm r target limit vm' r' := by
  obtain ⟨⟨vm₁, r₁⟩, first, second⟩ := Option.bind_eq_some_iff.mp result
  have front : CutOut vm r target r₁.pages vm₁ r₁ := by
    rw [splitFront] at first
    split_ifs at first with moved
    · obtain ⟨cut, split, eq⟩ := Option.map_eq_some_iff.mp first
      obtain ⟨rfl, rfl⟩ := mk.inj eq
      obtain ⟨cutValid, _, right, derived, same⟩ := valid.split mem split
      exact ⟨cutValid, right, Nat.add_sub_cancel' starts, le_rfl, rfl, rfl, rfl, derived, same⟩
    · obtain ⟨rfl, rfl⟩ := mk.inj (Option.some.inj first)
      exact ⟨valid, mem, by omega, le_rfl, rfl, rfl, rfl, fun q old => ⟨q, old, rfl, rfl⟩,
        fun _ => rfl⟩
  simp only [splitBack] at second
  split_ifs at second with short
  · obtain ⟨rfl, rfl⟩ := mk.inj (Option.some.inj second)
    exact { front with pages := short }
  obtain ⟨cut, split, eq⟩ := Option.map_eq_some_iff.mp second
  obtain ⟨rfl, rfl⟩ := mk.inj eq
  obtain ⟨cutValid, left, _, derived, same⟩ := front.valid.split front.member split
  refine ⟨cutValid, left, front.start, ?_, front.prot, front.backingFd, front.isPrivate,
    front.derived.trans derived, fun n => (same n).trans (front.spot n)⟩
  have pages : (r₁.left (limit * pageSize)).pages * pageSize = limit * pageSize :=
    pages_left (mul_mod_left _ _)
  exact le_of_eq (eq_of_mul_eq_mul_right (by decide) pages)

end

section Rules
variable {pid addr len fuel i : ℕ} {s s' : State} {ret : Int} {P : ℕ → State → Prop}

/-- What every round of `sys_mprotect` keeps, whether it finds the protection or changes it, holds
when the call returns.
-/
theorem mprotectLoop_rule {prot : Prot} (skip : ∀ {i j s}, i ≤ j → P i s → P j s)
    (round : ∀ {i s r vm cut}, i < len → P i s →
      rbtreeSearchLte (s.vm pid) ((addr + i * pageSize) % wordLimit) = some r → r.prot ≠ prot →
      splitOut (s.vm pid) kalloc r ((addr + i * pageSize) % wordLimit - r.start) (len - i)
        = some (vm, cut) →
      P (i + cut.pages) (protectCut pid addr i prot (s.addRecords pid
        (splitStarts r ((addr + i * pageSize) % wordLimit - r.start) (len - i))) vm cut))
    (start : P i s) (call : mprotectLoop kalloc pid addr len prot fuel s i = some (s', ret))
    : ∃ j, P j s' := by
  induction fuel generalizing s i with
  | zero => cases call
  | succ fuel ih =>
    rw [mprotectLoop] at call
    have stays {code} (eq : some (s, code) = some (s', ret)) : ∃ j, P j s' :=
      ⟨i, (mk.inj (Option.some.inj eq)).1 ▸ start⟩
    by_cases done : len ≤ i
    · rw [if_pos done] at call
      exact stays call
    rw [if_neg done] at call
    cases search : rbtreeSearchLte (s.vm pid) ((addr + i * pageSize) % wordLimit) with
    | none =>
      simp only [search] at call
      exact stays call
    | some r =>
      simp only [search] at call
      split_ifs at call with before denied unchanged
      · exact stays call
      · exact stays call
      · exact ih (skip (Nat.le_add_right ..) start) call
      obtain ⟨⟨vm', cut⟩, split, next⟩ := Option.bind_eq_some_iff.mp call
      exact ih (round (Nat.lt_of_not_le done) start search unchanged split) next

/-- What every round of `munmap_to_vmr` keeps, whether it passes over a page or unmaps a record,
holds when the call returns.
-/
theorem munmapLoop_rule {env : Env} {ignoreMissing wasEmpty : Bool}
    (skip : ∀ {i s}, i < len → P i s → P (i + 1) s)
    (round : ∀ {i s r vm cut}, i < len → P i s →
      rbtreeSearchLte (s.vm pid) ((addr + i * pageSize) % wordLimit) = some r →
      splitOut (s.vm pid) env.kalloc r ((addr + i * pageSize) % wordLimit - r.start) (len - i)
        = some (vm, cut) →
      P (i + cut.pages) (unmapCut env pid wasEmpty (s.addRecords pid
        (splitStarts r ((addr + i * pageSize) % wordLimit - r.start) (len - i))) vm cut))
    (start : P i s)
    (call : munmapLoop env pid addr len ignoreMissing wasEmpty fuel s i = some (s', ret))
    : ∃ j, P j s' := by
  induction fuel generalizing s i with
  | zero => cases call
  | succ fuel ih =>
    rw [munmapLoop] at call
    have stays {code} (eq : some (s, code) = some (s', ret)) : ∃ j, P j s' :=
      ⟨i, (mk.inj (Option.some.inj eq)).1 ▸ start⟩
    by_cases done : len ≤ i
    · rw [if_pos done] at call
      exact stays call
    rw [if_neg done] at call
    have more := Nat.lt_of_not_le done
    cases search : rbtreeSearchLte (s.vm pid) ((addr + i * pageSize) % wordLimit) with
    | none =>
      simp only [search] at call
      split_ifs at call
      · exact ih (skip more start) call
      · exact stays call
    | some r =>
      simp only [search] at call
      split_ifs at call
      · exact ih (skip more start) call
      · exact stays call
      obtain ⟨⟨vm', cut⟩, split, next⟩ := Option.bind_eq_some_iff.mp call
      exact ih (round more start search split) next

end Rules

end UnstableOS.Mm.Mmap
