import UnstableOS.Mm.Kalloc.Runs
import UnstableOS.Lib.Tiling
import UnstableOS.Lib.Trace

/-! The count of free bytes, `kalloc_get_free_memory`.
The blocks on the buckets and the blocks of the callers tile the heap, so the free bytes are those
that no caller has. `kalloc` takes the size of the block it hands out off the count, but `kfree`
adds the size of the merged block and not of the one that is freed.
-/

namespace UnstableOS.Mm.Kalloc

open Lib Kernel Function List
open Option hiding map_map

-- The free bytes

def kallocGetFreeMemory (s : State) : Nat := s.freeMem

variable (lists : Nat → List Nat)

/-- The total size of the blocks on the buckets. -/
def freeBytes : Nat :=
  ((List.range norder).map fun k => (lists k).length * 2 ^ (k + minOrder)).sum

/-- The total size of the blocks of the callers. -/
def liveBytes (live : List LiveBlock) : Nat :=
  (live.map fun block => 2 ^ (block.order + minOrder)).sum

/-- (Exact s) holds when the count is the total size of the blocks on the buckets. -/
def Exact (s : State) : Prop :=
  ∃ lists, (∀ k < norder, TailList s.links (s.buckets k) (lists k))
    ∧ kallocGetFreeMemory s = freeBytes lists

/-- The blocks on the buckets with their sizes. -/
def freePieces : List (ℕ × ℕ) :=
  (List.range norder).flatMap fun k => (lists k).map fun block => (block, 2 ^ (k + minOrder))

def livePieces (live : List LiveBlock) : List (ℕ × ℕ) :=
  live.map fun block => (block.addr, 2 ^ (block.order + minOrder))

theorem sum_freePieces
    : ((freePieces lists).map Prod.snd).sum = freeBytes lists := by
  unfold freePieces freeBytes
  induction range norder with
  | nil => rfl
  | cons k rest ih =>
    simp only [flatMap_cons, map_append, sum_append, ih, map_cons, sum_cons, map_map]
    simp [comp_def]

theorem sum_livePieces (live : List LiveBlock)
    : ((livePieces live).map Prod.snd).sum = liveBytes live := by
  simp [livePieces, liveBytes, comp_def]

variable {s t : State} {live : List LiveBlock} {lists : Nat → List Nat}

variable {k block order left i p : Nat} {piece : ℕ × ℕ}

theorem lt_norder_iff : k < norder ↔ k ≤ 19 := Nat.lt_succ_iff

theorem mem_piece {a} : a ∈ span (block, 2 ^ (k + minOrder)) ↔ Within k block a :=
  mem_span

theorem mem_freePieces
    : piece ∈ freePieces lists
        ↔ ∃ k ≤ 19, ∃ block ∈ lists k, piece = (block, 2 ^ (k + minOrder)) := by
  simp [freePieces, lt_norder_iff, eq_comm]

theorem mem_livePieces
    : piece ∈ livePieces live
        ↔ ∃ block ∈ live, piece = (block.addr, 2 ^ (block.order + minOrder)) := by
  simp [livePieces, eq_comm]

/-- No two blocks overlap. -/
theorem Partitioned.pieces_apart (parts : Partitioned s live lists)
    : Apart (freePieces lists ++ livePieces live) := by
  refine pairwise_append.mpr ⟨pairwise_flatMap.mpr ⟨?_, ?_⟩, ?_, ?_⟩
  · intro k mem
    have small := lt_norder_iff.mp (mem_range.mp mem)
    refine pairwise_map.mpr ((parts.buckets k small).2.imp_of_mem ?_)
    intro one other inOne inOther differ
    refine Finset.disjoint_left.mpr fun a here there => differ ?_
    exact (parts.freeOnce k small k small one inOne other inOther a (mem_piece.mp here)
      (mem_piece.mp there)).2
  · refine nodup_range.imp_of_mem ?_
    intro j k inJ inK differ piece one piece' other
    obtain ⟨b, memberB, rfl⟩ := mem_map.mp one
    obtain ⟨c, memberC, rfl⟩ := mem_map.mp other
    refine Finset.disjoint_left.mpr fun a here there => differ ?_
    exact (parts.freeOnce j (lt_norder_iff.mp (mem_range.mp inJ)) k
      (lt_norder_iff.mp (mem_range.mp inK)) b memberB c memberC a (mem_piece.mp here)
      (mem_piece.mp there)).1
  · refine pairwise_map.mpr (parts.liveOnce.1.imp_of_mem ?_)
    intro one other inOne inOther differ
    refine Finset.disjoint_left.mpr fun a here there => differ ?_
    exact parts.liveOnce.2 one inOne other inOther a (mem_piece.mp here) (mem_piece.mp there)
  · intro one inFree other inLive
    obtain ⟨k, small, c, mem, rfl⟩ := mem_freePieces.mp inFree
    obtain ⟨b, memberB, rfl⟩ := mem_livePieces.mp inLive
    refine Finset.disjoint_left.mpr fun a here there => ?_
    exact parts.apart b memberB k small c mem a (mem_piece.mp there) (mem_piece.mp here)

/-- The bytes on the buckets and those of the callers are the whole heap. -/
theorem Partitioned.bytes (parts : Partitioned s live lists)
    : freeBytes lists + liveBytes live = 2 ^ maxOrder := by
  have cover : ∀ a, a ∈ Finset.Ico kernelHeapBase (kernelHeapBase + 2 ^ maxOrder)
      ↔ ∃ piece ∈ freePieces lists ++ livePieces live, a ∈ span piece := by
    intro a
    rw [Finset.mem_Ico, parts.cover]
    constructor
    · rintro (⟨k, small, block, mem, within⟩ | ⟨block, mem, owns⟩)
      · exact ⟨_, mem_append_left _ (mem_freePieces.mpr ⟨k, small, block, mem, rfl⟩),
          mem_piece.mpr within⟩
      · exact ⟨_, mem_append_right _ (mem_livePieces.mpr ⟨block, mem, rfl⟩), mem_piece.mpr owns⟩
    · rintro ⟨piece, mem, inside⟩
      rcases mem_append.mp mem with inFree | inLive
      · obtain ⟨k, small, block, listed, rfl⟩ := mem_freePieces.mp inFree
        exact .inl ⟨k, small, block, listed, mem_piece.mp inside⟩
      · obtain ⟨block, listed, rfl⟩ := mem_livePieces.mp inLive
        exact .inr ⟨block, listed, mem_piece.mp inside⟩
  have counted := card_of_tiling parts.pieces_apart cover
  rw [map_append, sum_append, sum_freePieces, sum_livePieces, Nat.card_Ico,
    Nat.add_sub_cancel_left] at counted
  exact counted.symm

/-- The count is exact precisely when it is what the callers have left. -/
theorem Partitioned.total_iff (parts : Partitioned s live lists)
    : Exact s ↔ kallocGetFreeMemory s + liveBytes live = 2 ^ maxOrder := by
  have bytes := parts.bytes
  constructor
  · rintro ⟨others, chains, count⟩
    have same : freeBytes others = freeBytes lists := by
      unfold freeBytes
      congr 1
      apply map_congr_left
      intro k mem
      have small := mem_range.mp mem
      rw [(chains k small).walk.unique (parts.buckets k (lt_norder_iff.mp small)).1.walk]
    omega
  · intro count
    refine ⟨lists, fun k small => (parts.buckets k (lt_norder_iff.mp small)).1, ?_⟩
    omega

-- What the calls do to the count

@[simp] theorem appendBlock_freeMem (s : State) (block k : Nat)
    : (appendBlock s block k).freeMem = s.freeMem := rfl

@[simp] theorem popBlock_freeMem (s : State) (k : Nat)
    : (popBlock s k).freeMem = s.freeMem := rfl

@[simp] theorem splitBlock_freeMem (s : State) (block k : Nat)
    : (splitBlock s block k).freeMem = s.freeMem := by
  simp only [splitBlock]
  split <;> rfl

theorem splitDown_freeMem {mapPage excess} (done : splitDown mapPage block order excess s = some t)
    : t.freeMem = s.freeMem := by
  induction excess generalizing s with
  | zero =>
    cases done
    rfl
  | succ excess ih =>
    obtain ⟨_, done⟩ := ite_none_right_eq_some.mp done
    rw [ih done, appendBlock_freeMem, splitBlock_freeMem]

theorem finishAlloc_freeMem (s : State) (block order : Nat)
    : (finishAlloc s block order).freeMem
        = (s.freeMem + (2 ^ 32 - 2 ^ (order + minOrder))) % 2 ^ 32 := by
  simp only [finishAlloc, subFreeMem, Nat.shiftLeft_eq, Nat.one_mul]
  split <;> rfl

theorem allocLarger_freeMem {mapPage} (done : allocLarger mapPage order left i s = some (block, t))
    : (block = 0 ∧ t = s)
        ∨ (block ≠ 0
          ∧ t.freeMem = (s.freeMem + (2 ^ 32 - 2 ^ (order + minOrder))) % 2 ^ 32) := by
  induction left generalizing i with
  | zero =>
    cases done
    exact .inl ⟨rfl, rfl⟩
  | succ left ih =>
    simp only [allocLarger] at done
    split at done
    · exact ih done
    next nonempty =>
    obtain ⟨u, splits, eq⟩ := map_eq_some_iff.mp done
    cases eq
    rw [finishAlloc_freeMem, splitDown_freeMem splits, popBlock_freeMem]
    exact .inr ⟨nonempty, rfl⟩

/-- An allocation takes the size of the block off the count. -/
theorem kalloc_freeMem {mapPage size} (done : kalloc mapPage s size = some (block, t))
    : (block = 0 ∧ t = s)
        ∨ (block ≠ 0
          ∧ t.freeMem
            = (s.freeMem + (2 ^ 32 - 2 ^ (sizeOrder size - minOrder + minOrder))) % 2 ^ 32) := by
  unfold kalloc at done
  split at done
  · cases done
    exact .inl ⟨rfl, rfl⟩
  simp only at done
  split at done
  next nonempty =>
    cases done
    rw [finishAlloc_freeMem, popBlock_freeMem]
    exact .inr ⟨nonempty, rfl⟩
  · exact allocLarger_freeMem done

/-- (Coalesces s p) holds when `kfree` merges the block with its buddy: the used bit of the two is
cleared, and so the buddy is free.
-/
def Coalesces (s : State) (p : Nat) : Prop :=
  getOrder s p < norder - 1 ∧ (bmToggle s.usedBitmap (getIdx p (getOrder s p + 1))).2 = false

instance (s : State) (p : Nat) : Decidable (Coalesces s p) :=
  inferInstanceAs (Decidable (_ ∧ _))

/-- The merge loop adds the size of the block it ends with.
Witness: induction on the orders left.
-/
theorem mergeUp_freeMem (done : mergeUp left s p i = some t)
    : ∃ j, i ≤ j ∧ t.freeMem = (s.freeMem + 2 ^ (j + minOrder)) % 2 ^ 32
        ∧ (j < i + left)
        ∧ (j = i ↔ ¬ (i < norder - 1
          ∧ (bmToggle s.usedBitmap (getIdx p (i + 1))).2 = false)) := by
  induction left generalizing s p i with
  | zero => cases done
  | succ left ih =>
    simp only [mergeUp] at done
    split at done
    next top =>
      cases done
      refine ⟨i, Nat.le_refl i, ?_, by omega, by simp; omega⟩
      simp [finishFree, addFreeMem, Nat.shiftLeft_eq]
    next below =>
    split at done
    next busy =>
      cases done
      refine ⟨i, Nat.le_refl i, ?_, by omega, by simp [busy]⟩
      simp [finishFree, addFreeMem, Nat.shiftLeft_eq]
    next free =>
    have merges : i < norder - 1
        ∧ (bmToggle s.usedBitmap (getIdx p (i + 1))).2 = false :=
      ⟨Nat.not_le.mp below, eq_false_of_ne_true free⟩
    -- The lower or the upper of the two buddies goes on, with the same count.
    split at done <;>
      obtain ⟨j, later, count, bound, _⟩ := ih done <;>
      exact ⟨j, by omega, count, by omega, by simp only [merges]; simp; omega⟩

/-- Freeing a block adds the size of the block it was merged to. -/
theorem kfree_freeMem (real : p ≠ 0) (done : kfree s p = some t)
    : ∃ j, getOrder s p ≤ j ∧ j < getOrder s p + (norder - getOrder s p)
        ∧ t.freeMem = (s.freeMem + 2 ^ (j + minOrder)) % 2 ^ 32
        ∧ (j = getOrder s p ↔ ¬ Coalesces s p) := by
  unfold kfree at done
  rw [if_neg real] at done
  split at done
  · cases done
  simp only at done
  split at done
  · cases done
  · obtain ⟨j, later, count, bound, stays⟩ := mergeUp_freeMem done
    exact ⟨j, later, bound, count, stays⟩

-- Runs

/-- A call, or a write of a caller to one of its own blocks. -/
inductive Call where
  | alloc (size : Nat)
  | free (block : LiveBlock)
  | freeNull
  | write (addr next prev : Nat)

instance (block : LiveBlock) (a : Nat) : Decidable (block.Owns a) :=
  inferInstanceAs (Decidable (_ ∧ _))

def System.step (mapPage : Nat → Bool) (sys : System) : Call → Option System
  | .alloc size =>
    (kalloc mapPage sys.state size).map fun result =>
      ⟨result.2, if result.1 = 0 then sys.live else ⟨result.1, size⟩ :: sys.live⟩
  | .free block =>
    if block ∈ sys.live then
      (kfree sys.state block.addr).map fun t => ⟨t, sys.live.erase block⟩
    else none
  | .freeNull => (kfree sys.state 0).map fun t => ⟨t, sys.live⟩
  | .write addr next prev =>
    if ∃ block ∈ sys.live, block.Owns addr then
      some ⟨{ sys.state with links := ⟨update sys.state.links.next addr next,
        update sys.state.links.prev addr prev⟩ }, sys.live⟩
    else none

/-- The heap before the first call. -/
def System.start : System := ⟨kallocPrepare, []⟩

/-- (CountsFree sys) holds when the count is exact, and is what it was at the start if no block is
in use.
-/
structure System.CountsFree (sys : System) : Prop where
  exact : Exact sys.state
  back : sys.live = [] → kallocGetFreeMemory sys.state = kallocGetFreeMemory kallocPrepare

/-- The condition: a block that is freed is not merged. -/
def System.Safe (sys : System) : Call → Prop
  | .free block => ¬ Coalesces sys.state block.addr
  | _ => True

instance (sys : System) : (call : Call) → Decidable (sys.Safe call)
  | .free block => inferInstanceAs (Decidable (¬ Coalesces sys.state block.addr))
  | .alloc _ => isTrue trivial
  | .freeNull => isTrue trivial
  | .write _ _ _ => isTrue trivial

variable {mapPage : Nat → Bool} {sys next : System} {call : Call}

theorem System.step_step (done : sys.step mapPage call = some next) : Step mapPage sys next := by
  cases call with
  | alloc size =>
    obtain ⟨⟨block, t⟩, called, rfl⟩ := map_eq_some_iff.mp done
    exact .alloc called
  | free block =>
    obtain ⟨mem, done⟩ := ite_none_right_eq_some.mp done
    obtain ⟨t, called, rfl⟩ := map_eq_some_iff.mp done
    exact .free mem called
  | freeNull =>
    cases done
    exact .freeNull rfl
  | write addr after before =>
    obtain ⟨owned, rfl⟩ := guarded done
    have elsewhere (q : Nat) (outside : ¬ ∃ block ∈ sys.live, block.Owns q) : q ≠ addr := by
      rintro rfl
      exact outside owned
    exact .write ⟨fun q outside => update_of_ne (elsewhere q outside) _ _,
      fun q outside => update_of_ne (elsewhere q outside) _ _⟩

/-- What every call has to keep. -/
structure System.Coherent (sys : System) : Prop where
  inv : ∃ tree lists, Inv sys.state sys.live tree lists
  count : kallocGetFreeMemory sys.state + liveBytes sys.live = 2 ^ maxOrder

theorem System.Coherent.countsFree (coherent : sys.Coherent) : sys.CountsFree := by
  obtain ⟨⟨tree, lists, inv⟩, count⟩ := coherent
  refine ⟨inv.partitioned.total_iff.mpr count, fun none => ?_⟩
  rw [none] at count
  exact count

theorem System.start_coherent : System.start.Coherent :=
  ⟨⟨_, _, kallocPrepare_inv⟩, rfl⟩

theorem liveBytes_erase {block} (mem : block ∈ live)
    : liveBytes (live.erase block) + 2 ^ (block.order + minOrder) = liveBytes live := by
  have perm := (perm_cons_erase mem).map fun b => 2 ^ (b.order + minOrder)
  have sums := perm.sum_eq
  rw [map_cons, sum_cons] at sums
  unfold liveBytes
  omega

/-- After freeing a block the count is exact precisely when the block was not merged.
Witness: the count grows by the size of the merged block, the free bytes by the size of the block.
-/
theorem System.Coherent.free_count (coherent : sys.Coherent) {block}
    (mem : block ∈ sys.live) (called : kfree sys.state block.addr = some t)
    : kallocGetFreeMemory t + liveBytes (sys.live.erase block) = 2 ^ maxOrder
        ↔ ¬ Coalesces sys.state block.addr := by
  obtain ⟨⟨tree, lists, inv⟩, count⟩ := coherent
  obtain ⟨i, addr, _⟩ := inv.node mem
  have order := inv.partitioned.orders block mem
  obtain ⟨j, later, bound, freeMem, stays⟩ :=
    kfree_freeMem (addr ▸ nodeAddr_ne_zero _ i) called
  rw [order] at later bound stays
  have jLe : j ≤ 19 := by
    simp only [norder, maxOrder, minOrder] at bound
    omega
  have fits : 2 ^ (j + minOrder) ≤ 2 ^ maxOrder :=
    Nat.pow_le_pow_right (by decide) (by simp only [minOrder, maxOrder]; omega)
  have erased := liveBytes_erase mem
  have unwrapped : kallocGetFreeMemory t = kallocGetFreeMemory sys.state + 2 ^ (j + minOrder) := by
    simp only [kallocGetFreeMemory, maxOrder] at count fits freeMem ⊢
    rw [freeMem, Nat.mod_eq_of_lt]
    omega
  rw [← stays, unwrapped]
  constructor
  · intro exact
    have powers : 2 ^ (j + minOrder) = 2 ^ (block.order + minOrder) := by omega
    have := Nat.pow_right_injective (Nat.le_refl 2) powers
    omega
  · intro same
    rw [same]
    omega

theorem System.Coherent.step (coherent : sys.Coherent) (done : sys.step mapPage call = some next)
    (safe : sys.Safe call)
    : next.Coherent := by
  have inv := (System.step_step done).inv coherent.inv
  refine ⟨inv, ?_⟩
  cases call with
  | alloc size =>
    obtain ⟨⟨block, t⟩, called, rfl⟩ := map_eq_some_iff.mp done
    rcases kalloc_freeMem called with ⟨rfl, rfl⟩ | ⟨real, freeMem⟩
    · exact coherent.count
    simp only [real, if_false] at inv ⊢
    obtain ⟨tree, lists, inv⟩ := inv
    have bytes := inv.partitioned.bytes
    have before := coherent.count
    have longer : liveBytes (⟨block, size⟩ :: sys.live)
        = 2 ^ (sizeOrder size - minOrder + minOrder) + liveBytes sys.live := rfl
    simp only [kallocGetFreeMemory, maxOrder] at before bytes freeMem ⊢
    omega
  | free block =>
    obtain ⟨mem, done⟩ := ite_none_right_eq_some.mp done
    obtain ⟨t, called, rfl⟩ := map_eq_some_iff.mp done
    exact (coherent.free_count mem called).mpr safe
  | freeNull =>
    cases done
    exact coherent.count
  | write addr after before =>
    obtain ⟨-, rfl⟩ := guarded done
    exact coherent.count

/-- A block that is merged leaves a count that is too large. -/
theorem System.Coherent.broken (coherent : sys.Coherent)
    (done : sys.step mapPage call = some next) (unsafeCall : ¬ sys.Safe call)
    : ¬ next.CountsFree := by
  intro counts
  obtain ⟨tree, lists, inv⟩ := (System.step_step done).inv coherent.inv
  have count := inv.partitioned.total_iff.mp counts.exact
  cases call with
  | free block =>
    obtain ⟨mem, done⟩ := ite_none_right_eq_some.mp done
    obtain ⟨t, called, rfl⟩ := map_eq_some_iff.mp done
    exact unsafeCall ((coherent.free_count mem called).mp count)
  | _ => exact unsafeCall trivial

/-- Along a run the count is the total size of the blocks on the buckets precisely when no block
that is freed is merged with its buddy.
-/
theorem countsFree_iff {calls : List Call} {states : List System}
    (run : trace (System.step mapPage) System.start calls = some states)
    : (∀ sys ∈ states, sys.CountsFree)
        ↔ AllSafe (System.step mapPage) System.Safe System.start calls :=
  trace_forall_iff System.Coherent System.CountsFree System.Coherent.countsFree
    (fun coherent done safe => coherent.step done safe)
    (fun coherent done unsafeCall => coherent.broken done unsafeCall) System.start_coherent run

/-- Two blocks of 64 bytes are allocated; freeing the first one leaves its buddy in use. -/
theorem countsFree_buddy_used
    : ∃ states, trace (System.step fun _ => true) System.start
          [.alloc 64, .alloc 64, .free ⟨kernelHeapBase, 64⟩] = some states
        ∧ ∀ sys ∈ states, sys.CountsFree := by
  exact exists_of_isSome (by decide +kernel) fun _ run =>
    (countsFree_iff run).mpr (by decide +kernel)

/-- A block of 64 bytes is allocated and freed: the count is not what it was before. -/
theorem alloc_free_overcounts
    : ∃ states, trace (System.step fun _ => true) System.start
          [.alloc 64, .free ⟨kernelHeapBase, 64⟩] = some states
        ∧ ¬ ∀ sys ∈ states, sys.CountsFree := by
  have last : ((trace (System.step fun _ => true) System.start
      [.alloc 64, .free ⟨kernelHeapBase, 64⟩]).bind (·.getLast?)).map
        (fun sys => (sys.live, kallocGetFreeMemory sys.state)) = some ([], 2 ^ 26 - 64) := by
    decide +kernel
  obtain ⟨sys, found, eq⟩ := map_eq_some_iff.mp last
  obtain ⟨states, run, final⟩ := bind_eq_some_iff.mp found
  obtain ⟨none, count⟩ := Prod.mk.inj eq
  refine ⟨states, run, fun exact => ?_⟩
  have back := (exact sys (mem_of_mem_getLast? final)).back none
  rw [count] at back
  exact absurd back (by decide)

end UnstableOS.Mm.Kalloc
