import Mathlib.Data.List.Nodup

/-! Queues whose members go to the end when they are served.
Each member of the outer queue has a queue of its own. A member of an inner queue that waits is
served after a number of turns that its places in the two queues bound.
-/

namespace UnstableOS.Lib

open List Nat

variable {α β : Type*} [DecidableEq α] [DecidableEq β] {queue : List α} {x y : α}

/-- A member goes to the end. -/
def toEnd (queue : List α) (x : α) : List α := queue.erase x ++ [x]

theorem toEnd_perm (mem : x ∈ queue) : (toEnd queue x).Perm queue :=
  (perm_append_singleton x _).trans (perm_cons_erase mem).symm

theorem mem_toEnd (mem : x ∈ queue) : y ∈ toEnd queue x ↔ y ∈ queue :=
  (toEnd_perm mem).mem_iff

theorem idxOf_head_le (rest : List α) (x y : α) : (x :: rest).idxOf x ≤ (x :: rest).idxOf y := by
  rw [idxOf_cons_self]
  exact zero_le _

theorem idxOf_cons_le {first} (other : first ≠ y) (before : queue.idxOf x ≤ queue.idxOf y)
    : (first :: queue).idxOf x ≤ (first :: queue).idxOf y := by
  by_cases same : first = x
  · subst same
    exact idxOf_head_le queue first y
  · rw [idxOf_cons_ne queue same, idxOf_cons_ne queue other]
    exact succ_le_succ before

theorem toEnd_concat (fresh : x ∉ queue) : toEnd (queue ++ [x]) x = queue ++ [x] := by
  rw [toEnd, erase_append_right _ fresh, erase_cons_head, append_nil]

theorem idxOf_toEnd_self (nodup : queue.Nodup) (mem : x ∈ queue)
    : (toEnd queue x).idxOf x + 1 = queue.length := by
  have gone : x ∉ queue.erase x := nodup.not_mem_erase
  rw [toEnd, idxOf_append_of_notMem gone, idxOf_cons_self, Nat.add_zero, length_erase_add_one mem]

/-- The others move up if they were behind.
Witness: induction on the queue.
-/
theorem idxOf_toEnd (mem : y ∈ queue) (other : y ≠ x)
    : (toEnd queue x).idxOf y = queue.idxOf y - if queue.idxOf x < queue.idxOf y then 1 else 0 := by
  have stays := (mem_erase_of_ne other).mpr mem
  rw [toEnd, idxOf_append_of_mem stays]
  clear stays
  induction queue with
  | nil => cases mem
  | cons first rest ih =>
    by_cases isX : first = x
    · subst isX
      rw [erase_cons_head, idxOf_cons_self, idxOf_cons_ne rest other.symm, if_pos (succ_pos _)]
      rfl
    rw [erase_cons_tail (by simpa using isX)]
    by_cases isY : first = y
    · subst isY
      simp
    have later := (mem_cons.mp mem).resolve_left (Ne.symm isY)
    rw [idxOf_cons_ne _ isY, idxOf_cons_ne _ isY, idxOf_cons_ne _ isX, ih later]
    split <;> split <;> omega

theorem idxOf_toEnd_le (mem : y ∈ queue) (other : y ≠ x)
    : (toEnd queue x).idxOf y ≤ queue.idxOf y := by
  rw [idxOf_toEnd mem other]
  exact sub_le _ _

theorem idxOf_toEnd_lt (mem : y ∈ queue) (before : queue.idxOf x < queue.idxOf y)
    : (toEnd queue x).idxOf y + 1 = queue.idxOf y := by
  have other : y ≠ x := by
    rintro rfl
    exact Nat.lt_irrefl _ before
  rw [idxOf_toEnd mem other, if_pos before]
  omega

-- Turns until a member of an inner queue is served

/-- (turns bound queue inner outer x last) bounds the turns until `x` is served, which waits in the
inner queue of `outer`, if the outer queue is never longer than `bound`; `last` says that `outer`
was the last to be served.
-/
def turns (bound : ℕ) (queue : List α) (inner : List β) (outer : α) (x : β) (last : Bool) : ℕ :=
  inner.idxOf x * bound + if last then bound else queue.idxOf outer + 1

variable {bound : ℕ} {inner inner' : List β} {outer : α} {t : β}

theorem turns_le (mem : outer ∈ queue) (waits : t ∈ inner) (fits : queue.length ≤ bound)
    (last : Bool)
    : turns bound queue inner outer t last ≤ bound * inner.length := by
  have place := idxOf_lt_length_of_mem mem
  have within : inner.idxOf t + 1 ≤ inner.length := idxOf_lt_length_of_mem waits
  have rounds := mul_le_mul_left bound within
  rw [Nat.mul_add, Nat.mul_one, Nat.mul_comm bound] at rounds
  unfold turns
  split <;> omega

theorem turns_pos (fits : 0 < bound) (last : Bool)
    : 0 < turns bound queue inner outer t last := by
  unfold turns
  split <;> omega

/-- The member served last goes to the end once more; then another one that stands before `outer` is
served.
-/
theorem turns_other (nodup : queue.Nodup) (mem : outer ∈ queue) (fits : queue.length ≤ bound)
    {previous served} (moved : inner'.idxOf t ≤ inner.idxOf t)
    (before : (toEnd queue previous).idxOf served < (toEnd queue previous).idxOf outer)
    (inQueue : previous ∈ queue)
    : turns bound (toEnd (toEnd queue previous) served) inner' outer t false + 1
        ≤ turns bound queue inner outer t (previous = outer) := by
  have still := (mem_toEnd inQueue).mpr mem
  have place := idxOf_toEnd_lt still before
  have rounds := mul_le_mul_right bound moved
  simp only [turns, Bool.false_eq_true, if_false, decide_eq_true_eq]
  split
  next same =>
    subst same
    have atEnd := idxOf_toEnd_self nodup mem
    omega
  next other =>
    have movedUp := idxOf_toEnd_le mem (Ne.symm other)
    omega

theorem turns_same (fits : 0 < bound) {queue'} (last : Bool)
    (moved : inner'.idxOf t + 1 ≤ inner.idxOf t)
    : turns bound queue' inner' outer t true + 1 ≤ turns bound queue inner outer t last := by
  have rounds := mul_le_mul_right bound moved
  rw [Nat.add_mul, Nat.one_mul] at rounds
  simp only [turns, if_true]
  split <;> omega

end UnstableOS.Lib
