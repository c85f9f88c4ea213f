import UnstableOS.Mm.Pmm.FreeLists
import Mathlib.Algebra.BigOperators.Group.Finset.Piecewise

/-! Free blocks, their page records and the merging of buddies.
The merge test of `insert_free_block` reads one page of the buddy. It decides whether the buddy
is on the free list of that order because free blocks are aligned and every page of a free block
carries its order.
-/

namespace UnstableOS.Mm.Pmm

open Lib Lib.Dyadic Function Finset Nat

/-- The page lies in a block on one of the free lists. -/
def Covered (lists : Nat → List Nat) (page : Nat) : Prop :=
  ∃ k ≤ pmmOrderMax, ∃ block ∈ lists k, Span k block page

/-- The number of pages on the free lists. -/
def totalPages (lists : Nat → List Nat) : Nat :=
  ∑ k ∈ Finset.range (pmmOrderMax + 1), (lists k).length * 2 ^ k

/-- The free lists and the page records agree, except for the `held` pages: these belong to a
block that an operation has in its hands, on no list and with records not yet settled.
-/
structure FreeInv (s : State) (lists : Nat → List Nat) (held : Nat → Prop) : Prop where
  links : Lists s lists
  small : s.usablePagesEnd ≤ 2 ^ 20
  aligned : ∀ k ≤ pmmOrderMax, ∀ block ∈ lists k, 2 ^ k ∣ block
  inside : ∀ k ≤ pmmOrderMax, ∀ block ∈ lists k, block + 2 ^ k ≤ s.usablePagesEnd
  marked
    : ∀ k ≤ pmmOrderMax, ∀ block ∈ lists k, ∀ page, Span k block page
        → (s.pages page).refcount = 0 ∧ (s.pages page).order = k
  apart : ∀ page, Covered lists page → ¬ held page
  covered
    : ∀ page < s.usablePagesEnd, ¬ held page → (s.pages page).refcount = 0 → Covered lists page
  separate : ∀ k < pmmOrderMax, ∀ block ∈ lists k, buddy k block ∉ lists k

section Totals
variable {lists : Nat → List Nat} {k block : Nat}

theorem totalPages_update (le : k ≤ pmmOrderMax) (entries : List Nat)
    : totalPages (update lists k entries) + (lists k).length * 2 ^ k
      = totalPages lists + entries.length * 2 ^ k := by
  have inRange : k ∈ range (pmmOrderMax + 1) := by simp; omega
  have rest : ∑ j ∈ (range (pmmOrderMax + 1)).erase k, (update lists k entries j).length * 2 ^ j
      = ∑ j ∈ (range (pmmOrderMax + 1)).erase k, (lists j).length * 2 ^ j := by
    apply sum_congr rfl
    intro j mem
    rw [update_of_ne (ne_of_mem_erase mem)]
  rw [totalPages, totalPages, ← add_sum_erase _ _ inRange,
    ← add_sum_erase _ (fun j => (lists j).length * 2 ^ j) inRange, rest,
    update_self]
  ring

theorem totalPages_cons (le : k ≤ pmmOrderMax)
    : totalPages (update lists k (block :: lists k)) = totalPages lists + 2 ^ k := by
  have update : totalPages (update lists k (block :: lists k)) + _ = _ :=
    totalPages_update le (block :: lists k)
  rw [List.length_cons, add_mul, one_mul] at update
  omega

theorem totalPages_erase (le : k ≤ pmmOrderMax) (mem : block ∈ lists k)
    : totalPages (update lists k ((lists k).erase block)) + 2 ^ k = totalPages lists := by
  have update : totalPages (update lists k ((lists k).erase block)) + _ = _ :=
    totalPages_update le ((lists k).erase block)
  have positive := List.length_pos_of_mem mem
  have split : (lists k).length * 2 ^ k = ((lists k).length - 1) * 2 ^ k + 2 ^ k := by
    rw [← succ_mul]
    congr 1
    omega
  rw [List.length_erase_of_mem mem] at update
  omega

end Totals

section Coverage
variable {lists : Nat → List Nat} {k block page : Nat}

theorem covered_cons (le : k ≤ pmmOrderMax)
    : Covered (update lists k (block :: lists k)) page
      ↔ Covered lists page ∨ Span k block page := by
  constructor
  · rintro ⟨j, jLe, other, mem, inside⟩
    rcases mem_update_cons mem with ⟨rfl, rfl⟩ | old
    · exact .inr inside
    · exact .inl ⟨j, jLe, other, old, inside⟩
  · rintro (⟨j, jLe, other, mem, inside⟩ | inside)
    · refine ⟨j, jLe, other, ?_, inside⟩
      by_cases same : j = k
      · subst same
        rw [update_self]
        exact List.mem_cons_of_mem _ mem
      · rwa [update_of_ne same]
    · exact ⟨k, le, block, by simp, inside⟩

theorem covered_erase (le : k ≤ pmmOrderMax) (mem : block ∈ lists k)
    : Covered (update lists k ((lists k).erase block)) page ∨ Span k block page
      ↔ Covered lists page := by
  constructor
  · rintro (⟨j, jLe, other, inJ, inOther⟩ | inBlock)
    · exact ⟨j, jLe, other, mem_of_mem_update_erase inJ, inOther⟩
    · exact ⟨k, le, block, mem, inBlock⟩
  · rintro ⟨j, jLe, other, inJ, inOther⟩
    by_cases same : j = k ∧ other = block
    · obtain ⟨rfl, rfl⟩ := same
      exact .inr inOther
    refine .inl ⟨j, jLe, other, ?_, inOther⟩
    by_cases sameOrder : j = k
    · subst sameOrder
      rw [update_self]
      exact (List.mem_erase_of_ne (fun eq => same ⟨rfl, eq⟩)).mpr inJ
    · rwa [update_of_ne sameOrder]

end Coverage

namespace FreeInv

variable {s t : State} {lists : Nat → List Nat} {held held' : Nat → Prop}

section
variable (inv : FreeInv s lists held)
include inv

/-- Entries of free lists that share a page are the same entry of the same list. -/
theorem entry_unique {j k b c page}
    (jLe : j ≤ pmmOrderMax) (kLe : k ≤ pmmOrderMax) (inJ : b ∈ lists j) (inK : c ∈ lists k)
    (inB : Span j b page) (inC : Span k c page)
    : j = k ∧ b = c := by
  have sameOrder :=
    (inv.marked j jLe b inJ page inB).2.symm.trans (inv.marked k kLe c inK page inC).2
  subst sameOrder
  exact ⟨rfl, eq_of_span (inv.aligned j jLe b inJ) (inv.aligned j kLe c inK) inB inC⟩

/-- The one-page test of the merge loop decides membership in the free list.
Witness: a free page is covered by a block of the order in its record, and an aligned block of
that order that contains an aligned page starts there.
-/
theorem mem_of_test {k page} (aligned : 2 ^ k ∣ page)
    (inside : page < s.usablePagesEnd) (free : ¬ held page)
    (refcount : (s.pages page).refcount = 0) (order : (s.pages page).order = k)
    : page ∈ lists k := by
  obtain ⟨j, jLe, block, mem, within⟩ := inv.covered page inside free refcount
  have sameOrder := (inv.marked j jLe block mem page within).2.symm.trans order
  subst sameOrder
  rw [eq_of_span aligned (inv.aligned j jLe block mem) (span_base j page) within]
  exact mem

/-- Records of pages outside the free lists may change, and so may the set of held pages, as
long as a page that reads as free without being held was settled before.
-/
theorem change (changed : Nat → Prop)
    (links : Lists t lists) (sameEnd : t.usablePagesEnd = s.usablePagesEnd)
    (same : ∀ page, ¬ changed page
      → (t.pages page).refcount = (s.pages page).refcount
        ∧ (t.pages page).order = (s.pages page).order)
    (away : ∀ page, Covered lists page → ¬ changed page)
    (apart : ∀ page, Covered lists page → ¬ held' page)
    (settled : ∀ page, ¬ held' page → (t.pages page).refcount = 0 → ¬ held page ∧ ¬ changed page)
    : FreeInv t lists held' where
  links := links
  small := sameEnd ▸ inv.small
  aligned := inv.aligned
  inside k le block mem := sameEnd ▸ inv.inside k le block mem
  marked k le block mem page within := by
    obtain ⟨refcount, order⟩ := same page (away page ⟨k, le, block, mem, within⟩)
    rw [refcount, order]
    exact inv.marked k le block mem page within
  apart := apart
  covered page inside free refcount := by
    obtain ⟨notHeld, notChanged⟩ := settled page free refcount
    exact inv.covered page (sameEnd ▸ inside) notHeld ((same page notChanged).1 ▸ refcount)
  separate := inv.separate

/-- Taking a block off its list puts its pages into the hands of the operation. -/
theorem take {k block} (le : k ≤ pmmOrderMax) (mem : block ∈ lists k)
    : FreeInv (freelistRemove s block) (update lists k ((lists k).erase block))
        (fun page => held page ∨ Span k block page) := by
  have marks := freelistRemove_sameMarks s block
  have blockOrder := (inv.marked k le block mem block (span_base k block)).2
  have gone : block ∉ (lists k).erase block := (inv.links.distinct k le).not_mem_erase
  constructor
  case links => exact inv.links.remove le mem blockOrder
  case small => exact marks.usablePagesEnd ▸ inv.small
  case aligned => exact fun j jLe other inJ => inv.aligned j jLe other (mem_of_mem_update_erase inJ)
  case inside =>
    intro j jLe other inJ
    exact marks.usablePagesEnd ▸ inv.inside j jLe other (mem_of_mem_update_erase inJ)
  case marked =>
    intro j jLe other inJ page within
    rw [marks.refcount, marks.order]
    exact inv.marked j jLe other (mem_of_mem_update_erase inJ) page within
  case apart =>
    rintro page ⟨j, jLe, other, inJ, within⟩ (old | inBlock)
    · exact inv.apart page ⟨j, jLe, other, mem_of_mem_update_erase inJ, within⟩ old
    · obtain ⟨rfl, rfl⟩ :=
        inv.entry_unique jLe le (mem_of_mem_update_erase inJ) mem within inBlock
      rw [update_self] at inJ
      exact gone inJ
  case covered =>
    intro page inside free refcount
    rw [marks.refcount] at refcount
    have cover :=
      inv.covered page (marks.usablePagesEnd ▸ inside) (fun old => free (.inl old)) refcount
    exact ((covered_erase le mem).mpr cover).resolve_right fun within => free (.inr within)
  case separate =>
    intro j jLt other inJ inBuddy
    exact inv.separate j jLt other (mem_of_mem_update_erase inJ) (mem_of_mem_update_erase inBuddy)

/-- Putting a held block with settled records on its list. Its buddy must not be there. -/
theorem put {k block} (le : k ≤ pmmOrderMax) (links : Lists t (update lists k (block :: lists k)))
    (sameEnd : t.usablePagesEnd = s.usablePagesEnd)
    (aligned : 2 ^ k ∣ block) (inside : block + 2 ^ k ≤ s.usablePagesEnd)
    (inHand : ∀ page, Span k block page → held page) (same : ∀ page, ¬ Span k block page
      → (t.pages page).refcount = (s.pages page).refcount
        ∧ (t.pages page).order = (s.pages page).order)
    (marks : ∀ page, Span k block page → (t.pages page).refcount = 0 ∧ (t.pages page).order = k)
    (alone : k < pmmOrderMax → buddy k block ∉ lists k)
    : FreeInv t (update lists k (block :: lists k))
        (fun page => held page ∧ ¬ Span k block page) := by
  constructor
  case links => exact links
  case small => exact sameEnd ▸ inv.small
  case aligned =>
    intro j jLe other mem
    rcases mem_update_cons mem with ⟨rfl, rfl⟩ | old
    · exact aligned
    · exact inv.aligned j jLe other old
  case inside =>
    intro j jLe other mem
    rw [sameEnd]
    rcases mem_update_cons mem with ⟨rfl, rfl⟩ | old
    · exact inside
    · exact inv.inside j jLe other old
  case marked =>
    intro j jLe other mem page within
    rcases mem_update_cons mem with ⟨rfl, rfl⟩ | old
    · exact marks page within
    have notHeld := inv.apart page ⟨j, jLe, other, old, within⟩
    obtain ⟨refcount, order⟩ := same page (fun inBlock => notHeld (inHand page inBlock))
    rw [refcount, order]
    exact inv.marked j jLe other old page within
  case apart =>
    rintro page cover ⟨inHeld, notBlock⟩
    rcases (covered_cons le).mp cover with old | inBlock
    · exact inv.apart page old inHeld
    · exact notBlock inBlock
  case covered =>
    intro page inEnd free refcount
    rw [covered_cons le]
    by_cases inBlock : Span k block page
    · exact .inr inBlock
    · rw [(same page inBlock).1] at refcount
      exact .inl (inv.covered page (sameEnd ▸ inEnd) (fun old => free ⟨old, inBlock⟩) refcount)
  case separate =>
    intro j jLt other mem inBuddy
    rcases mem_update_cons mem with ⟨rfl, rfl⟩ | old
    · rcases mem_update_cons inBuddy with ⟨_, self⟩ | oldBuddy
      · exact buddy_ne aligned self
      · exact alone jLt oldBuddy
    rcases mem_update_cons inBuddy with ⟨rfl, eq⟩ | oldBuddy
    · apply alone jLt
      rw [← eq, buddy_buddy]
      exact old
    · exact inv.separate j jLt other old oldBuddy

end

end FreeInv

-- The merge loop and the insertion of a free block

theorem updatePages_apply (pages : Nat → PageInfo) (block : Nat) (write : PageInfo → PageInfo)
    (count page : Nat)
    : updatePages pages block write count page
      = if block ≤ page ∧ page < block + count then write (pages page) else pages page := by
  induction count with
  | zero =>
    rw [if_neg (by omega)]
    rfl
  | succ count ih =>
    simp only [updatePages]
    by_cases same : page = block + count
    · subst same
      rw [update_self, if_pos (by omega), ih, if_neg (by omega)]
    rw [update_of_ne same, ih]
    by_cases inside : block ≤ page ∧ page < block + count
    · rw [if_pos inside, if_pos (by omega)]
    · rw [if_neg inside, if_neg (by omega)]

/-- What the merge loop leaves: a larger block in hand whose buddy is not free, and the free
pages not in it still on the lists.
-/
structure Merged (s : State) (lists : Nat → List Nat) (block order : Nat)
    (result : State × Nat × Nat) (lists' : Nat → List Nat)
    : Prop where
  inv : FreeInv result.1 lists' (Span result.2.2 result.2.1)
  aligned : 2 ^ result.2.2 ∣ result.2.1
  inside : result.2.1 + 2 ^ result.2.2 ≤ s.usablePagesEnd
  le : result.2.2 ≤ pmmOrderMax
  alone : result.2.2 < pmmOrderMax → buddy result.2.2 result.2.1 ∉ lists' result.2.2
  marks : SameMarks s result.1
  pages
    : ∀ page, Covered lists' page ∨ Span result.2.2 result.2.1 page
        ↔ Covered lists page ∨ Span order block page
  total : totalPages lists' + 2 ^ result.2.2 = totalPages lists + 2 ^ order

theorem buddy_apart {k b} (aligned : 2 ^ k ∣ b) : ¬ Span k b (buddy k b) := by
  intro within
  exact buddy_ne aligned (eq_of_span (dvd_buddy aligned) aligned (span_base k (buddy k b)) within)

variable {s : State} {lists : Nat → List Nat} {block order : Nat}

/-- The merge loop swallows exactly the chain of free buddies.
Witness: induction on the orders left; one round takes the buddy off its list, and the held
block becomes the common parent.
-/
theorem coalesce_merged {left}
    (inv : FreeInv s lists (Span order block)) (aligned : 2 ^ order ∣ block)
    (inside : block + 2 ^ order ≤ s.usablePagesEnd) (orders : order + left = pmmOrderMax)
    : ∃ lists', Merged s lists block order (coalesce left s block order) lists' := by
  induction left generalizing s lists block order with
  | zero =>
    refine ⟨lists, inv, aligned, inside, by simp only [coalesce]; omega, ?_, .refl s,
      fun _ => Iff.rfl, rfl⟩
    intro below
    simp only [coalesce] at below
    omega
  | succ left ih =>
    have le : order ≤ pmmOrderMax := by omega
    have stop (notFree : buddy order block ∉ lists order)
        : Merged s lists block order (s, block, order) lists :=
      ⟨inv, aligned, inside, le, fun _ => notFree, .refl s, fun _ => Iff.rfl, rfl⟩
    simp only [coalesce]
    split
    next beyond =>
      refine ⟨lists, stop fun mem => ?_⟩
      have := inv.inside order le _ mem
      omega
    next within =>
    split
    next used =>
      refine ⟨lists, stop fun mem => ?_⟩
      obtain ⟨refcount, sameOrder⟩ := inv.marked order le _ mem _ (span_base _ _)
      exact used.elim (· refcount) (· sameOrder)
    next free =>
    push Not at free within
    have mem := inv.mem_of_test (dvd_buddy aligned) within (buddy_apart aligned) free.1 free.2
    have parent : (if buddy order block < block then buddy order block else block)
        = min block (buddy order block) := by
      split <;> omega
    have taken := inv.take le mem
    have marks := freelistRemove_sameMarks s (buddy order block)
    have held : (fun page => Span order block page ∨ Span order (buddy order block) page)
        = Span (order + 1) (min block (buddy order block)) := by
      funext page
      exact propext (span_merge aligned).symm
    rw [held] at taken
    have top : min block (buddy order block) + 2 ^ (order + 1) ≤ s.usablePagesEnd := by
      have := inv.inside order le _ mem
      rcases buddy_cases aligned with ⟨_, eq⟩ | ⟨_, eq⟩ <;> omega
    rw [parent]
    obtain ⟨lists', merged⟩ :=
      ih taken (dvd_min_buddy aligned) (marks.usablePagesEnd ▸ top) (by omega)
    refine ⟨lists', merged.inv, merged.aligned, marks.usablePagesEnd ▸ merged.inside,
      merged.le, merged.alone, marks.trans merged.marks, ?_, ?_⟩
    · intro page
      rw [merged.pages, span_merge aligned]
      rw [← covered_erase le mem]
      tauto
    · have erased := totalPages_erase le mem
      have := merged.total
      omega

/-- What `insert_free_block` leaves: the pages of the block join the free pages, and records of
used pages outside it are untouched.
-/
structure Inserted (s : State) (lists : Nat → List Nat) (block order : Nat)
    (t : State) (lists' : Nat → List Nat)
    : Prop where
  inv : FreeInv t lists' (fun _ => False)
  pages : ∀ page, Covered lists' page ↔ Covered lists page ∨ Span order block page
  total : totalPages lists' = totalPages lists + 2 ^ order
  kept
    : ∀ page, ¬ Covered lists' page
        → (t.pages page).refcount = (s.pages page).refcount
          ∧ (t.pages page).order = (s.pages page).order
  usablePagesEnd : t.usablePagesEnd = s.usablePagesEnd
  freePageCount : t.freePageCount = s.freePageCount
  preVmm : t.preVmm = s.preVmm
  ranges : t.ranges = s.ranges

theorem insertFreeBlock_inserted
    (inv : FreeInv s lists (Span order block)) (real : block ≠ 0) (le : order ≤ pmmOrderMax)
    (aligned : 2 ^ order ∣ block) (inside : block + 2 ^ order ≤ s.usablePagesEnd)
    (realPages : ∀ page, Covered lists page → page ≠ 0)
    : ∃ lists', Inserted s lists block order (insertFreeBlock s block order) lists' := by
  have orders : order + (pmmOrderMax - order) = pmmOrderMax := by omega
  obtain ⟨lists', merged⟩ := coalesce_merged inv aligned inside orders
  revert merged
  simp only [insertFreeBlock]
  generalize coalesce (pmmOrderMax - order) s block order = result
  obtain ⟨u, base, top⟩ := result
  intro merged
  have inv' := merged.inv
  have topLe := merged.le
  have baseIn := span_base top base
  have baseReal : base ≠ 0 := by
    rcases (merged.pages base).mp (.inr baseIn) with cover | within
    · exact realPages base cover
    · have := within.1
      omega
  have baseFits : base < 2 ^ 20 := by
    have := merged.inside
    have := Nat.two_pow_pos top
    have := inv.small
    simp only at *
    omega
  have fresh (k) (kLe : k ≤ pmmOrderMax) : base ∉ lists' k := fun mem =>
    inv'.apart base ⟨k, kLe, base, mem, span_base k base⟩ baseIn
  have listMarks := freelistInsert_sameMarks u base top
  have orderFits : top % 2 ^ 4 = top := mod_eq_of_lt (by simp only [pmmOrderMax] at topLe; omega)
  have links := inv'.links.insert topLe baseReal baseFits fresh
  have pageEq (page)
      : updatePages (freelistInsert u base top).pages base
          (fun info => (info.setRefcount 0).setOrder top) (2 ^ top) page
        = if Span top base page then
            (((freelistInsert u base top).pages page).setRefcount 0).setOrder top
          else (freelistInsert u base top).pages page :=
    updatePages_apply _ _ _ _ _
  have put := inv'.put (t := { freelistInsert u base top with
      pages := updatePages (freelistInsert u base top).pages base
        (fun info => (info.setRefcount 0).setOrder top) (2 ^ top) }) topLe ?links
    listMarks.usablePagesEnd merged.aligned (merged.marks.usablePagesEnd ▸ merged.inside)
    (fun page within => within) ?same ?marked merged.alone
  case links =>
    refine links.congr (fun page => ?_) rfl
    simp only [State.nxt, State.prv, pageEq]
    split <;> exact ⟨rfl, rfl⟩
  case same =>
    intro page outside
    simp only [pageEq, if_neg outside]
    exact ⟨listMarks.refcount page, listMarks.order page⟩
  case marked =>
    intro page within
    simp only [pageEq, if_pos within]
    exact ⟨zero_mod _, orderFits⟩
  have nothing : (fun page => Span top base page ∧ ¬ Span top base page) = fun _ => False := by
    funext page
    exact eq_false (fun both => both.2 both.1)
  rw [nothing] at put
  refine ⟨_, put, ?_, ?_, ?_, ?_, ?_, ?_, ?_⟩
  · intro page
    rw [covered_cons topLe]
    exact merged.pages page
  · rw [totalPages_cons topLe]
    exact merged.total
  · intro page free
    rw [covered_cons topLe] at free
    have outside : ¬ Span top base page := fun within => free (.inr within)
    simp only [pageEq, if_neg outside]
    exact ⟨(listMarks.refcount page).trans (merged.marks.refcount page),
      (listMarks.order page).trans (merged.marks.order page)⟩
  · exact listMarks.usablePagesEnd.trans merged.marks.usablePagesEnd
  · exact listMarks.freePageCount.trans merged.marks.freePageCount
  · exact listMarks.preVmm.trans merged.marks.preVmm
  · exact listMarks.ranges.trans merged.marks.ranges

end UnstableOS.Mm.Pmm
