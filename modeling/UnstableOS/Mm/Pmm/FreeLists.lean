import UnstableOS.Mm.Pmm.Allocator

/-! The free lists are null-terminated chains through the page records.
Insertion and removal change one chain, keep the others and touch no reference count, order
or counter.
-/

namespace UnstableOS.Mm.Pmm

open Lib Function PageInfo List State Nat

def State.nxt (s : State) (page : Nat) : Nat := (s.pages page).freeNext
def State.prv (s : State) (page : Nat) : Nat := (s.pages page).freePrev

/-- The two states agree on everything but the list links and list heads. -/
structure SameMarks (s t : State) : Prop where
  refcount : ∀ page, (t.pages page).refcount = (s.pages page).refcount
  order : ∀ page, (t.pages page).order = (s.pages page).order
  usablePagesEnd : t.usablePagesEnd = s.usablePagesEnd
  usablePageCount : t.usablePageCount = s.usablePageCount
  freePageCount : t.freePageCount = s.freePageCount
  preVmm : t.preVmm = s.preVmm
  ranges : t.ranges = s.ranges

theorem SameMarks.refl (s : State) : SameMarks s s :=
  ⟨fun _ => rfl, fun _ => rfl, rfl, rfl, rfl, rfl, rfl⟩

variable {s t : State} {lists : Nat → List Nat} {k block order : Nat}

theorem SameMarks.trans {u} (first : SameMarks s t) (second : SameMarks t u)
    : SameMarks s u where
  refcount page := (second.refcount page).trans (first.refcount page)
  order page := (second.order page).trans (first.order page)
  usablePagesEnd := second.usablePagesEnd.trans first.usablePagesEnd
  usablePageCount := second.usablePageCount.trans first.usablePageCount
  freePageCount := second.freePageCount.trans first.freePageCount
  preVmm := second.preVmm.trans first.preVmm
  ranges := second.ranges.trans first.ranges

/-- The free list of every order `k` is the chain `lists k`. A page heads at most one block,
so the chains share no page; page numbers fit the 20-bit link fields.
-/
structure Lists (s : State) (lists : Nat → List Nat) : Prop where
  chain : ∀ k ≤ pmmOrderMax, ∃ last, Segment 0 s.nxt s.prv 0 (s.freelists k) (lists k) last 0
  distinct : ∀ k ≤ pmmOrderMax, (lists k).Nodup
  apart : ∀ j ≤ pmmOrderMax, ∀ k ≤ pmmOrderMax, ∀ block ∈ lists j, block ∈ lists k → j = k
  small : ∀ k ≤ pmmOrderMax, ∀ block ∈ lists k, block < 2 ^ 20

section
variable (valid : Lists s lists) (le : k ≤ pmmOrderMax)
include valid le

theorem Lists.ne_zero (mem : block ∈ lists k) : block ≠ 0 := by
  obtain ⟨_, seg⟩ := valid.chain k le
  exact seg.ne_null mem

theorem Lists.freelists_eq_zero_iff : s.freelists k = 0 ↔ lists k = [] := by
  obtain ⟨_, seg⟩ := valid.chain k le
  exact seg.head_eq_null_iff

theorem Lists.head_mem (some : s.freelists k ≠ 0) : s.freelists k ∈ lists k := by
  obtain ⟨_, seg⟩ := valid.chain k le
  exact seg.head_mem (fun empty => some (seg.head_eq_null_iff.mpr empty))

end

theorem Lists.empty (heads : s.freelists = fun _ => 0) : Lists s (fun _ => []) where
  chain k _ := ⟨0, by rw [heads]; exact Segment.nil_iff.mpr ⟨rfl, rfl⟩⟩
  distinct _ _ := nodup_nil
  apart := by simp
  small := by simp

/-- Stores to other fields leave the chains as they are. -/
theorem Lists.congr (valid : Lists s lists)
    (same : ∀ page, t.nxt page = s.nxt page ∧ t.prv page = s.prv page)
    (sameHeads : t.freelists = s.freelists)
    : Lists t lists where
  chain k le := by
    obtain ⟨last, seg⟩ := valid.chain k le
    rw [sameHeads]
    exact ⟨last, seg.congr (fun page _ => (same page).1) (fun page _ => (same page).2)⟩
  distinct := valid.distinct
  apart := valid.apart
  small := valid.small

-- Entries of a changed list

variable {j page : Nat}

theorem mem_update_cons (mem : page ∈ update lists k (block :: lists k) j)
    : (j = k ∧ page = block) ∨ page ∈ lists j := by
  by_cases same : j = k
  · subst same
    rw [update_self] at mem
    exact (mem_cons.mp mem).imp_left (⟨rfl, ·⟩)
  · rw [update_of_ne same] at mem
    exact .inr mem

theorem mem_of_mem_update_erase (mem : page ∈ update lists k ((lists k).erase block) j)
    : page ∈ lists j := by
  by_cases same : j = k
  · subst same
    rw [update_self] at mem
    exact mem_of_mem_erase mem
  · rwa [update_of_ne same] at mem

/-- One list changes, and the links of the others stay. -/
theorem Lists.change (valid : Lists s lists) {nodes}
    (chain : ∃ last, Segment 0 t.nxt t.prv 0 (t.freelists order) nodes last 0)
    (distinct : nodes.Nodup) (heads : ∀ k ≠ order, t.freelists k = s.freelists k)
    (links : ∀ k ≤ pmmOrderMax, k ≠ order → ∀ page ∈ lists k,
      t.nxt page = s.nxt page ∧ t.prv page = s.prv page)
    (apart : ∀ page ∈ nodes, ∀ k ≤ pmmOrderMax, page ∈ lists k → k = order)
    (small : ∀ page ∈ nodes, page < 2 ^ 20)
    : Lists t (update lists order nodes) := by
  constructor
  case chain =>
    intro k kLe
    by_cases same : k = order
    · subst same
      rwa [update_self]
    · obtain ⟨last, seg⟩ := valid.chain k kLe
      rw [update_of_ne same, heads k same]
      exact ⟨last, seg.congr (fun page mem => (links k kLe same page mem).1)
        fun page mem => (links k kLe same page mem).2⟩
  case distinct =>
    intro k kLe
    rw [update_apply]
    split_ifs
    exacts [distinct, valid.distinct k kLe]
  case apart =>
    intro j jLe k kLe page inJ inK
    rw [update_apply] at inJ inK
    split_ifs at inJ inK with isJ isK isK
    · exact isJ.trans isK.symm
    · exact isJ.trans (apart page inJ k kLe inK).symm
    · exact (apart page inK j jLe inJ).trans isK.symm
    · exact valid.apart j jLe k kLe page inJ inK
  case small =>
    intro k kLe page mem
    rw [update_apply] at mem
    split_ifs at mem
    exacts [small page mem, valid.small k kLe page mem]

theorem SameMarks.store {page info} (refcount : info.refcount = (s.pages page).refcount)
    (order : info.order = (s.pages page).order) (heads : Nat → Nat)
    : SameMarks s { s with pages := update s.pages page info, freelists := heads } := by
  refine ⟨fun other => ?_, fun other => ?_, rfl, rfl, rfl, rfl, rfl⟩ <;>
    by_cases same : other = page <;> simp [same, refcount, order]

-- Insertion

attribute [local simp] freelistInsert setFreePrev setFreeNext

theorem freelistInsert_sameMarks (s : State) (block order : Nat)
    : SameMarks s (freelistInsert s block order) := by
  constructor
  case refcount | order =>
    intro page
    by_cases some : s.freelists order = 0 <;> by_cases atHead : page = s.freelists order <;>
      by_cases atBlock : page = block <;>
      simp_all
  all_goals rfl

theorem freelistInsert_nxt (fresh : s.freelists order ≠ block) (page : Nat)
    : (freelistInsert s block order).nxt page
      = if page = block then s.freelists order % 2 ^ 20 else s.nxt page := by
  by_cases some : s.freelists order = 0 <;> by_cases atHead : page = s.freelists order <;>
    by_cases atBlock : page = block <;>
    simp_all [nxt]

theorem freelistInsert_prv (fresh : s.freelists order ≠ block) (page : Nat)
    : (freelistInsert s block order).prv page = if page = block then 0
        else if page = s.freelists order ∧ s.freelists order ≠ 0 then block % 2 ^ 20
        else s.prv page := by
  by_cases some : s.freelists order = 0 <;> by_cases atHead : page = s.freelists order <;>
    by_cases atBlock : page = block <;>
    simp_all [prv]

/-- A page that heads no free block becomes the first entry of the list it is inserted into. -/
theorem Lists.insert (valid : Lists s lists)
    (le : order ≤ pmmOrderMax) (real : block ≠ 0) (fits : block < 2 ^ 20)
    (fresh : ∀ k ≤ pmmOrderMax, block ∉ lists k)
    : Lists (freelistInsert s block order) (update lists order (block :: lists order)) := by
  have notBlock {k page} (kLe : k ≤ pmmOrderMax) (mem : page ∈ lists k) : page ≠ block :=
    fun same => fresh k kLe (same ▸ mem)
  have freshHead : s.freelists order ≠ block := by
    intro same
    exact notBlock le (valid.head_mem le (same ▸ real)) same
  refine valid.change ?_ (nodup_cons.mpr ⟨fresh order le, valid.distinct order le⟩)
    (fun k other => by simp [other]) ?_ ?_ (forall_mem_cons.mpr ⟨fits, valid.small order le⟩)
  · obtain ⟨last, seg⟩ := valid.chain order le
    have heads : (freelistInsert s block order).freelists order = block := by simp
    have headFits : s.freelists order % 2 ^ 20 = s.freelists order := by
      apply mod_eq_of_lt
      by_cases empty : s.freelists order = 0
      · rw [empty]; decide
      · exact valid.small order le _ (valid.head_mem le empty)
    have firstLink : (freelistInsert s block order).nxt block = s.freelists order := by
      rw [freelistInsert_nxt freshHead, if_pos rfl, headFits]
    have keepNxt (page) (mem : page ∈ lists order)
        : (freelistInsert s block order).nxt page = s.nxt page := by
      rw [freelistInsert_nxt freshHead, if_neg (notBlock le mem)]
    rw [heads]
    cases shape : lists order with
    | nil =>
      have empty := (valid.freelists_eq_zero_iff le).mpr shape
      refine ⟨block, rfl, real, ?_, firstLink.trans empty, rfl⟩
      rw [freelistInsert_prv freshHead, if_pos rfl]
    | cons first rest =>
      have notEmpty : lists order ≠ [] := by simp [shape]
      have headReal : s.freelists order ≠ 0 := fun empty =>
        notEmpty ((valid.freelists_eq_zero_iff le).mp empty)
      rw [← shape]
      refine ⟨last, rfl, real, ?_, ?_⟩
      · rw [freelistInsert_prv freshHead, if_pos rfl]
      · rw [firstLink]
        refine seg.retarget notEmpty (valid.distinct order le)
          (fun page mem _ => keepNxt page mem) ?_ ?_ ?_
        · intro page mem notHead
          rw [freelistInsert_prv freshHead, if_neg (notBlock le mem),
            if_neg (fun atHead => notHead atHead.1)]
        · rw [keepNxt _ (seg.last_mem notEmpty), seg.last_nxt notEmpty]
        · rw [freelistInsert_prv freshHead, if_neg freshHead, if_pos ⟨rfl, headReal⟩,
            mod_eq_of_lt fits]
  · intro k kLe other page mem
    have notHead : ¬ (page = s.freelists order ∧ s.freelists order ≠ 0) := by
      rintro ⟨rfl, some⟩
      exact other (valid.apart k kLe order le _ mem (valid.head_mem le some))
    rw [freelistInsert_nxt freshHead, freelistInsert_prv freshHead,
      if_neg (notBlock kLe mem), if_neg (notBlock kLe mem), if_neg notHead]
    exact ⟨rfl, rfl⟩
  · refine forall_mem_cons.mpr ⟨fun k kLe mem => absurd mem (fresh k kLe),
      fun page mem k kLe inK => ?_⟩
    exact valid.apart k kLe order le page inK mem

-- Removal

theorem freelistRemove_sameMarks (s : State) (block : Nat)
    : SameMarks s (freelistRemove s block) := by
  have skip : SameMarks s (skipBlock s block) := by
    simp only [skipBlock]
    split
    · apply SameMarks.store <;> rfl
    · exact { SameMarks.refl s with }
  refine skip.trans ?_
  simp only [freelistRemove, backLink]
  split
  · apply SameMarks.store <;> rfl
  · exact .refl _

theorem skipBlock_nxt (s : State) (block page : Nat)
    : (skipBlock s block).nxt page
      = if s.prv block ≠ 0 ∧ page = s.prv block then s.nxt block % 2 ^ 20 else s.nxt page := by
  simp only [nxt, prv, skipBlock]
  split
  next real =>
    by_cases same : page = (s.pages block).freePrev <;> simp [same, real]
  next null => simp [null]

theorem freelistRemove_nxt (s : State) (block page : Nat)
    : (freelistRemove s block).nxt page
      = if s.prv block ≠ 0 ∧ page = s.prv block then s.nxt block % 2 ^ 20 else s.nxt page := by
  rw [← skipBlock_nxt]
  simp only [nxt, freelistRemove, backLink]
  split
  · by_cases same : page = ((skipBlock s block).pages block).freeNext <;> simp [same]
  · rfl

/-- The successor is read after the first store, which does not reach the block itself. -/
theorem freelistRemove_prv (notSelf : block ≠ s.prv block) (page : Nat)
    : (freelistRemove s block).prv page
      = if s.nxt block ≠ 0 ∧ page = s.nxt block then s.prv block % 2 ^ 20 else s.prv page := by
  have link : (skipBlock s block).nxt block = s.nxt block := by
    rw [skipBlock_nxt, if_neg (fun both => notSelf both.2)]
  have skip (page) : (skipBlock s block).prv page = s.prv page := by
    simp only [prv, skipBlock]
    split
    · by_cases same : page = (s.pages block).freePrev <;> simp [same]
    · rfl
  rw [← skip, ← skip, ← link]
  simp only [nxt, prv, freelistRemove, backLink]
  split
  next real =>
    by_cases same : page = ((skipBlock s block).pages block).freeNext <;> simp [same, real]
  next null => simp [null]

theorem freelistRemove_freelists (s : State) (block : Nat)
    : (freelistRemove s block).freelists = if s.prv block ≠ 0 then s.freelists
        else update s.freelists (s.pages block).order (s.nxt block) := by
  grind [freelistRemove, backLink, skipBlock, nxt, prv]

/-- Removing an entry whose record names its list erases it from that list only. -/
theorem Lists.remove (valid : Lists s lists) (le : order ≤ pmmOrderMax) (mem : block ∈ lists order)
    (marked : (s.pages block).order = order)
    : Lists (freelistRemove s block) (update lists order ((lists order).erase block)) := by
  obtain ⟨last, seg⟩ := valid.chain order le
  have distinct := valid.distinct order le
  obtain ⟨front, back, shape⟩ := append_of_mem mem
  rw [shape] at seg distinct
  obtain ⟨middle, next, first, rfl, real, toMiddle, second⟩ := Segment.append_iff.mp seg
  have apart := (nodup_append.mp distinct).2.2
  have erased : (lists order).erase next = front ++ back := by
    rw [shape, erase_append_right _ (fun inFront => apart next inFront next (by simp) rfl),
      erase_cons_head]
  -- the neighbours are entries of the same list or null
  have prvMem (some : front ≠ []) : s.prv next ∈ lists order := by
    rw [shape, toMiddle]
    exact mem_append_left _ (first.last_mem some)
  have nxtMem (some : back ≠ []) : s.nxt next ∈ lists order := by
    rw [shape]
    exact mem_append_right _ (mem_cons_of_mem _ (second.head_mem some))
  have prvNull : s.prv next = 0 ↔ front = [] := by
    constructor
    · intro null
      by_contra some
      exact valid.ne_zero le (prvMem some) null
    · rintro rfl
      exact toMiddle.trans first.2.symm
  have nxtNull := second.head_eq_null_iff
  have prvFits : s.prv next % 2 ^ 20 = s.prv next := by
    by_cases empty : front = []
    · rw [prvNull.mpr empty, zero_mod]
    · exact mod_eq_of_lt (valid.small order le _ (prvMem empty))
  have nxtFits : s.nxt next % 2 ^ 20 = s.nxt next := by
    by_cases empty : back = []
    · rw [nxtNull.mpr empty, zero_mod]
    · exact mod_eq_of_lt (valid.small order le _ (nxtMem empty))
  have notSelf : next ≠ s.prv next := by
    intro same
    by_cases empty : front = []
    · exact real (same.trans (prvNull.mpr empty))
    · exact apart next (by rw [same, toMiddle]; exact first.last_mem empty) next (by simp) rfl
  refine valid.change ?_ ((valid.distinct order le).erase next) (fun k other => ?_)
    (fun k kLe other page inK => ⟨?_, ?_⟩)
    (fun page mem k kLe inK => valid.apart k kLe order le page inK (mem_of_mem_erase mem))
    fun page mem => valid.small order le page (mem_of_mem_erase mem)
  · have headEq : (freelistRemove s next).freelists order
        = if front = [] then s.nxt next else s.freelists order := by
      rw [freelistRemove_freelists, marked]
      by_cases empty : front = []
      · simp [prvNull.mpr empty, empty]
      · simp [mt prvNull.mp empty, empty]
    rw [erased, headEq]
    refine ⟨_, seg.remove distinct ?_ ?_ ?_ ?_ ?_ ?_⟩
    · intro other _ away
      rw [freelistRemove_nxt, if_neg]
      rintro ⟨some, atPrv⟩
      rcases away with empty | notPrv
      · exact some (prvNull.mpr empty)
      · exact notPrv atPrv
    · intro other _ notNxt _
      rw [freelistRemove_prv notSelf, if_neg (fun both => notNxt both.2)]
    · intro some
      rw [freelistRemove_nxt, if_pos ⟨mt prvNull.mp some, rfl⟩, nxtFits]
    · intro some
      rw [freelistRemove_prv notSelf, if_pos ⟨mt nxtNull.mp some, rfl⟩, prvFits]
      split
      next empty => exact prvNull.mpr empty
      next => rfl
    · intro some
      have headFront := first.head_mem some
      rw [freelistRemove_prv notSelf, if_neg, first.head_prv some]
      rintro ⟨notNull, same⟩
      exact apart _ headFront _
        (mem_cons_of_mem _ (same ▸ second.head_mem (mt nxtNull.mpr notNull))) rfl
    · intro empty _
      exact (prvNull.mpr empty).symm
  · rw [freelistRemove_freelists, marked]
    split
    · rfl
    · rw [update_of_ne other]
  · rw [freelistRemove_nxt, if_neg]
    rintro ⟨some, rfl⟩
    exact other (valid.apart k kLe order le _ inK (prvMem (mt prvNull.mpr some)))
  · rw [freelistRemove_prv notSelf, if_neg]
    rintro ⟨some, rfl⟩
    exact other (valid.apart k kLe order le _ inK (nxtMem (mt nxtNull.mpr some)))

end UnstableOS.Mm.Pmm
