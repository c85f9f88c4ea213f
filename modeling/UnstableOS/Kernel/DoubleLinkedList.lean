import UnstableOS.Lib.LinkedSegment
import UnstableOS.Lib.RoundRobin

/-! The intrusive list macros of `kernel.h`.
A list is named by its first item, null when empty; the back link of the first item names the
last one.
-/

namespace UnstableOS.Kernel

open Lib Function List

/-- The `next` and `prev` fields of all items. -/
structure Links where
  next : Nat → Nat
  prev : Nat → Nat

/-- `UNLINK_DOUBLE_LINKED_LIST`; the second component is the list variable afterwards. -/
def unlinkDoubleLinkedList (m : Links) (item list : Nat) : Links × Nat :=
  let m :=
    if m.next item ≠ 0 then { m with prev := update m.prev (m.next item) (m.prev item) }
    else { m with prev := update m.prev list (m.prev item) }
  if item ≠ list then
    ({ m with next := update m.next (m.prev item) (m.next item) }, list)
  else (m, m.next item)

/-- `APPEND_DOUBLE_LINKED_LIST`; the second component is the list variable afterwards. -/
def appendDoubleLinkedList (m : Links) (item list : Nat) : Links × Nat :=
  let m := { m with next := update m.next item 0 }
  if list = 0 then ({ m with prev := update m.prev item item }, item)
  else
    let m := { m with prev := update m.prev item (m.prev list) }
    let m := { m with next := update m.next (m.prev list) item }
    ({ m with prev := update m.prev list item }, list)

section Fields
variable {m : Links} {item list : Nat}

theorem unlink_next (notLoop : m.next item ≠ item) (q : Nat)
    : (unlinkDoubleLinkedList m item list).1.next q
      = if item ≠ list ∧ q = m.prev item then m.next item else m.next q := by
  by_cases first : item = list
  · simp only [unlinkDoubleLinkedList, first, ne_eq, not_true_eq_false, if_false, false_and]
    split <;> rfl
  have kept : (if m.next item ≠ 0 then
      { m with prev := update m.prev (m.next item) (m.prev item) }
      else { m with prev := update m.prev list (m.prev item) } : Links).prev item
      = m.prev item := by
    split
    · exact update_of_ne notLoop.symm _ _
    · exact update_of_ne first _ _
  have sameNext : (if m.next item ≠ 0 then
      { m with prev := update m.prev (m.next item) (m.prev item) }
      else { m with prev := update m.prev list (m.prev item) } : Links).next
      = m.next := by
    split <;> rfl
  simp only [unlinkDoubleLinkedList, ne_eq, first, not_false_eq_true, if_true, true_and]
  rw [kept, sameNext, update_apply]

theorem unlink_prev (q : Nat)
    : (unlinkDoubleLinkedList m item list).1.prev q
      = if q = (if m.next item ≠ 0 then m.next item else list) then m.prev item else m.prev q := by
  simp only [unlinkDoubleLinkedList]
  by_cases last : m.next item = 0
  · simp only [last, ne_eq, not_true_eq_false, if_false]
    split <;> exact update_apply _ _ _ _
  · simp only [last, ne_eq, not_false_eq_true, if_true]
    split <;> exact update_apply _ _ _ _

theorem unlink_list
    : (unlinkDoubleLinkedList m item list).2 = if item = list then m.next item else list := by
  simp only [unlinkDoubleLinkedList]
  by_cases first : item = list
  · simp only [first, ne_eq, not_true_eq_false, if_false, if_true]
    split <;> rfl
  · simp [ne_eq, first]

/-- The forward links after an append to a list that is not empty, wherever the item was. -/
theorem append_next (some : list ≠ 0)
    : (appendDoubleLinkedList m item list).1.next
      = update (update m.next item 0) (m.prev list) item := by
  have kept : update m.prev item (m.prev list) list = m.prev list := by
    rw [update_apply, ite_self]
  simp [appendDoubleLinkedList, if_neg some, kept]

end Fields

/-- (TailList m list nodes) holds when the list variable leads through exactly `nodes`. -/
def TailList (m : Links) (list : Nat) (nodes : List Nat) : Prop :=
  ∃ last, Segment 0 m.next m.prev last list nodes last 0

/-- The two link maps agree away from the given items. -/
structure Links.SameOutside (touched : Nat → Prop) (m m' : Links) : Prop where
  next : ∀ q, ¬ touched q → m'.next q = m.next q
  prev : ∀ q, ¬ touched q → m'.prev q = m.prev q

namespace TailList

variable {m m' : Links} {list item : Nat} {nodes : List Nat}

theorem nil (m : Links) : TailList m 0 [] := ⟨0, rfl, rfl⟩

section
variable (valid : TailList m list nodes)
include valid

theorem eq_zero_iff : list = 0 ↔ nodes = [] := by
  obtain ⟨_, seg⟩ := valid
  exact seg.head_eq_null_iff

theorem ne_zero (mem : item ∈ nodes) : item ≠ 0 := by
  obtain ⟨_, seg⟩ := valid
  exact seg.ne_null mem

theorem head_mem (some : list ≠ 0) : list ∈ nodes := by
  obtain ⟨_, seg⟩ := valid
  exact seg.head_mem (fun empty => some (seg.head_eq_null_iff.mpr empty))

theorem congr {touched} (same : m.SameOutside touched m') (away : ∀ node ∈ nodes, ¬ touched node)
    : TailList m' list nodes := by
  obtain ⟨last, seg⟩ := valid
  exact ⟨last, seg.congr (fun node mem => same.next node (away node mem))
    (fun node mem => same.prev node (away node mem))⟩

theorem append (distinct : nodes.Nodup) (fresh : item ∉ nodes) (real : item ≠ 0)
    : TailList (appendDoubleLinkedList m item list).1 (appendDoubleLinkedList m item list).2
          (nodes ++ [item])
        ∧ m.SameOutside (fun q => q = item ∨ q ∈ nodes) (appendDoubleLinkedList m item list).1 := by
  have isEmpty := valid.eq_zero_iff
  obtain ⟨last, seg⟩ := valid
  by_cases empty : nodes = []
  · have null := isEmpty.mpr empty
    subst empty
    simp only [appendDoubleLinkedList, if_pos null]
    refine ⟨⟨item, ?_⟩, ?_, ?_⟩
    · simp [real]
    · intro q outside
      exact update_of_ne (fun same => outside (.inl same)) _ _
    · intro q outside
      exact update_of_ne (fun same => outside (.inl same)) _ _
  · have notNull : list ≠ 0 := fun null => empty (isEmpty.mp null)
    have lastMem := seg.last_mem empty
    have headMem := seg.head_mem empty
    have headPrev := seg.head_prv empty
    have listNe : list ≠ item := fun same => fresh (same ▸ headMem)
    have lastNe : item ≠ last := fun same => fresh (same ▸ lastMem)
    simp only [appendDoubleLinkedList, if_neg notNull, update_of_ne listNe, headPrev]
    refine ⟨⟨item, Segment.append_iff.mpr ⟨last, item, ?_, ?_⟩⟩, ?_, ?_⟩
    · refine seg.retarget empty distinct ?_ ?_ (update_self _ _ _) (update_self _ _ _)
      · intro node mem notLast
        have notItem : node ≠ item := fun same => fresh (same ▸ mem)
        simp [update_of_ne notLast, update_of_ne notItem]
      · intro node mem notHead
        have notItem : node ≠ item := fun same => fresh (same ▸ mem)
        simp [update_of_ne notHead, update_of_ne notItem]
    · refine ⟨rfl, real, ?_, ?_, rfl⟩
      · simp [update_of_ne listNe.symm]
      · simp [update_of_ne lastNe]
    · intro q outside
      have notLast : q ≠ last := fun same => outside (.inr (same ▸ lastMem))
      have notItem : q ≠ item := fun same => outside (.inl same)
      simp [update_of_ne notLast, update_of_ne notItem]
    · intro q outside
      have notHead : q ≠ list := fun same => outside (.inr (same ▸ headMem))
      have notItem : q ≠ item := fun same => outside (.inl same)
      simp [update_of_ne notHead, update_of_ne notItem]

/-- Unlinking an item joins its neighbours, wherever it stands in the list.
Witness: the four cases of an item that is first or not and last or not.
-/
theorem unlink (distinct : nodes.Nodup) (mem : item ∈ nodes)
    : TailList (unlinkDoubleLinkedList m item list).1 (unlinkDoubleLinkedList m item list).2
          (nodes.erase item)
        ∧ m.SameOutside (· ∈ nodes) (unlinkDoubleLinkedList m item list).1 := by
  obtain ⟨front, back, rfl⟩ := append_of_mem mem
  obtain ⟨last, seg⟩ := valid
  have some : front ++ item :: back ≠ [] := by simp
  have headMem := seg.head_mem some
  obtain ⟨middle, next, first, rfl, real, toMiddle, second⟩ := Segment.append_iff.mp seg
  obtain ⟨frontDistinct, restDistinct, apart⟩ := nodup_append.mp distinct
  have notFront : next ∉ front := fun inFront => apart next inFront next (by simp) rfl
  have notBack := (nodup_cons.mp restDistinct).1
  have erased : (front ++ next :: back).erase next = front ++ back := by
    rw [erase_append_right _ notFront, erase_cons_head]
  have backNull := second.head_eq_null_iff
  have firstIff : next = list ↔ front = [] := by
    constructor
    · intro same
      by_contra nonempty
      exact notFront (same ▸ first.head_mem nonempty)
    · rintro rfl
      exact first.1.symm
  have predFront (nonempty : front ≠ []) : m.prev next ∈ front :=
    toMiddle ▸ first.last_mem nonempty
  have notLoop : m.next next ≠ next := by
    intro loop
    by_cases empty : back = []
    · exact real (loop ▸ backNull.mpr empty)
    · exact notBack (loop ▸ second.head_mem empty)
  have succBack (nonempty : back ≠ []) : m.next next ∈ back := second.head_mem nonempty
  have headPrev := seg.head_prv some
  rw [erased, unlink_list]
  refine ⟨⟨if back = [] then m.prev next else last, ?_⟩, ?_, ?_⟩
  · simp only [firstIff]
    refine seg.remove distinct ?_ ?_ ?_ ?_ ?_ ?_
    · intro other inRest notPred
      rw [unlink_next notLoop, if_neg]
      rintro ⟨notFirst, same⟩
      exact notPred.elim (fun empty => notFirst (firstIff.mpr empty)) (· same)
    · intro other _ notNext notHead
      rw [unlink_prev, if_neg]
      split
      · exact notNext
      · exact notHead
    · intro nonempty
      rw [unlink_next notLoop, if_pos ⟨fun same => nonempty (firstIff.mp same), rfl⟩]
    · intro nonempty
      rw [unlink_prev, if_pos (by rw [if_pos (fun null => nonempty (backNull.mp null))]),
        if_neg nonempty]
      split
      next empty => rw [firstIff.mpr empty, headPrev]
      next => rfl
    · intro nonempty
      rw [unlink_prev]
      by_cases empty : back = []
      · rw [if_pos empty, if_pos (by rw [if_neg (by simp [backNull.mpr empty])])]
      rw [if_neg empty, if_neg, headPrev]
      rw [if_pos (fun null => empty (backNull.mp null))]
      intro same
      exact apart list (first.head_mem nonempty) _ (by simp [succBack empty]) same
    · intro _ empty
      rw [if_pos empty]
  · intro q outside
    rw [unlink_next notLoop, if_neg]
    rintro ⟨notFirst, rfl⟩
    exact outside (by simp [predFront fun empty => notFirst (firstIff.mpr empty)])
  · intro q outside
    rw [unlink_prev, if_neg]
    rintro rfl
    apply outside
    split
    next nonnull => simp [succBack fun empty => nonnull (backNull.mpr empty)]
    next => exact headMem

theorem walk : Walk 0 m.next list nodes := by
  obtain ⟨_, seg⟩ := valid
  exact seg.walk

theorem next_mem (mem : item ∈ nodes) : m.next item = 0 ∨ m.next item ∈ nodes := by
  obtain ⟨front, back, rfl⟩ := append_of_mem mem
  have next := valid.walk.next_eq
  cases back with
  | nil => exact .inl next
  | cons second more =>
    rw [next]
    exact .inr (by simp)

section
variable (distinct : nodes.Nodup) (mem : item ∈ nodes)
include distinct mem

/-- Unlinking an item that has others behind it and appending it again moves it to the end. -/
theorem unlink_append {once added} (isOnce : once = unlinkDoubleLinkedList m item list)
    (isAdded : added = appendDoubleLinkedList once.1 item once.2)
    : TailList added.1 added.2 (toEnd nodes item) ∧ m.SameOutside (· ∈ nodes) added.1 := by
  obtain ⟨unlinked, outside⟩ := valid.unlink distinct mem
  rw [← isOnce] at unlinked outside
  obtain ⟨appended, further⟩ :=
    unlinked.append (distinct.erase item) distinct.not_mem_erase (valid.ne_zero mem)
  rw [← isAdded] at appended further
  have touches {q} (away : q ∉ nodes) : ¬ (q = item ∨ q ∈ nodes.erase item) := by
    rintro (rfl | inside)
    · exact away mem
    · exact away (mem_of_mem_erase inside)
  refine ⟨appended, fun q away => ?_, fun q away => ?_⟩
  · rw [further.next q (touches away), outside.next q away]
  · rw [further.prev q (touches away), outside.prev q away]

theorem toEnd_of_last (last : m.next item = 0) : toEnd nodes item = nodes := by
  obtain ⟨front, back, rfl⟩ := append_of_mem mem
  obtain ⟨_, seg⟩ := valid
  obtain ⟨_, next, _, rfl, _, _, second⟩ := Segment.append_iff.mp seg
  obtain ⟨_, _, apart⟩ := nodup_append.mp distinct
  have none := second.head_eq_null_iff.mp last
  subst none
  exact toEnd_concat fun inFront => apart next inFront next mem_cons_self rfl

/-- The items an item is linked to are others, apart from the back link of a first item. -/
theorem neighbours
    : m.next item ≠ item ∧ (item ≠ list → m.prev item ≠ item ∧ m.next item ≠ list) := by
  obtain ⟨front, back, rfl⟩ := append_of_mem mem
  obtain ⟨last, seg⟩ := valid
  obtain ⟨middle, next, first, rfl, real, toMiddle, second⟩ := Segment.append_iff.mp seg
  obtain ⟨_, restDistinct, apart⟩ := nodup_append.mp distinct
  have notBack := (nodup_cons.mp restDistinct).1
  have toBack := second.head_mem
  have toNull := second.head_eq_null_iff.mpr
  have some (notFirst : next ≠ list) : front ≠ [] := by
    rintro rfl
    exact notFirst first.1.symm
  refine ⟨fun loop => ?_, fun notFirst => ⟨fun loop => ?_, fun loop => ?_⟩⟩
  · by_cases empty : back = []
    · exact real (loop ▸ toNull empty)
    · exact notBack (loop ▸ toBack empty)
  · have inFront := first.last_mem (some notFirst)
    exact apart next (loop ▸ toMiddle ▸ inFront) next mem_cons_self rfl
  · have inFront := first.head_mem (some notFirst)
    by_cases empty : back = []
    · exact first.ne_null inFront (loop ▸ toNull empty)
    · exact apart list inFront list (mem_cons_of_mem _ (loop ▸ toBack empty)) rfl

/-- Unlinking an item a second time and appending it gives the same walk as appending it after
it was unlinked once.
Witness: the second time stores what is there already, except that a first item makes the last
one lead to the new first one; the append overwrites that link.
-/
theorem walk_unlink_twice {once twice added} (isOnce : once = unlinkDoubleLinkedList m item list)
    (isTwice : twice = unlinkDoubleLinkedList once.1 item once.2)
    (isAdded : added = appendDoubleLinkedList twice.1 item twice.2)
    : Walk 0 added.1.next added.2 (nodes.erase item ++ [item]) := by
  have real := valid.ne_zero mem
  obtain ⟨notLoop, inside⟩ := valid.neighbours distinct mem
  have unlinked := (valid.unlink distinct mem).1
  rw [← isOnce] at unlinked
  have onceList : once.2 = if item = list then m.next item else list := by
    rw [isOnce, unlink_list]
  have notItem : item ≠ once.2 := by
    rw [onceList]
    split
    · exact notLoop.symm
    next other => exact other
  have twiceList : twice.2 = once.2 := by rw [isTwice, unlink_list, if_neg notItem]
  by_cases empty : once.2 = 0
  · -- the item was alone: the list variable is null and the append starts a new list
    have alone := unlinked.eq_zero_iff.mp empty
    rw [alone, isAdded, twiceList, empty]
    simp [appendDoubleLinkedList, Walk, real]
  have onceNext : ∀ q, once.1.next q
      = if item ≠ list ∧ q = m.prev item then m.next item else m.next q := by
    rw [isOnce]
    exact unlink_next notLoop
  have oncePrev : ∀ q, once.1.prev q
      = if q = (if m.next item ≠ 0 then m.next item else list) then m.prev item
        else m.prev q := by
    rw [isOnce]
    exact unlink_prev
  have sameNext : once.1.next item = m.next item := by
    rw [onceNext, if_neg]
    rintro ⟨notFirst, loop⟩
    exact (inside notFirst).1 loop.symm
  have samePrev : once.1.prev item = m.prev item := by
    rw [oncePrev, if_neg]
    split
    · exact notLoop.symm
    next last =>
    intro first
    rw [onceList, if_pos first] at empty
    exact last empty
  have firstPrev : item = list → once.1.prev once.2 = m.prev item := by
    intro first
    rw [onceList, if_pos first] at empty ⊢
    rw [oncePrev, if_pos (by rw [if_pos empty])]
  have twicePrev : twice.1.prev once.2 = once.1.prev once.2 := by
    rw [isTwice, unlink_prev, sameNext, samePrev]
    by_cases last : m.next item = 0
    · have notFirst : item ≠ list := by
        intro first
        rw [onceList, if_pos first] at empty
        exact empty last
      rw [if_pos (by simp [last]), oncePrev, if_pos (by simp [last, onceList, notFirst])]
    · by_cases target : once.2 = m.next item
      · rw [if_pos (by simp [last, target]), oncePrev, if_pos (by simp [last, target])]
      · rw [if_neg (by simpa [last] using target)]
  have twiceNext : ∀ q, q ≠ once.1.prev once.2 → twice.1.next q = once.1.next q := by
    intro q notLast
    rw [isTwice, unlink_next (by rwa [sameNext]), sameNext, samePrev]
    split
    next target =>
      have notFirst : item ≠ list := fun first => notLast (by rw [firstPrev first, target.2])
      rw [onceNext, if_pos ⟨notFirst, target.2⟩]
    next => rfl
  have appended := (unlinked.append (distinct.erase item) distinct.not_mem_erase real).1.walk
  have sameNexts : added.1.next = (appendDoubleLinkedList once.1 item once.2).1.next := by
    rw [isAdded, twiceList, append_next empty, append_next empty, twicePrev]
    funext q
    by_cases last : q = once.1.prev once.2
    · rw [last, update_self, update_self]
    · rw [update_of_ne last, update_of_ne last, update_apply, update_apply, twiceNext q last]
  have sameList : added.2 = (appendDoubleLinkedList once.1 item once.2).2 := by
    rw [isAdded, twiceList, appendDoubleLinkedList, appendDoubleLinkedList, if_neg empty,
      if_neg empty]
  rw [sameNexts, sameList]
  exact appended

end

end

end TailList

end UnstableOS.Kernel
