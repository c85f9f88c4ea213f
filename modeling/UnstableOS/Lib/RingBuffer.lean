import Mathlib.Data.List.Basic

/-! Ring buffers of a fixed capacity with one slot kept free.
The slots are a total function; `head` is the oldest element and `tail` the next free slot, so
the buffer is empty exactly when they agree. Filling a slot and moving `tail` are two steps.
-/

namespace UnstableOS.Lib

open List

variable {α : Type*}

/-- The slot `k` places after `head`. -/
def ringIndex (cap head k : ℕ) : ℕ :=
  if head + k < cap then head + k else head + k - cap

/-- The number of elements between the two positions. -/
def ringCount (cap head tail : ℕ) : ℕ :=
  if head ≤ tail then tail - head else cap - head + tail

/-- The slot after `i`. -/
def ringNext (cap i : ℕ) : ℕ := (i + 1) % cap

/-- The elements of the buffer, oldest first. -/
def ringContents (cap : ℕ) (slot : ℕ → α) (head tail : ℕ) : List α :=
  (List.range (ringCount cap head tail)).map fun k => slot (ringIndex cap head k)

variable {cap head tail : ℕ} {slot : ℕ → α}

theorem ringNext_eq {i} (within : i < cap)
    : ringNext cap i = if i + 1 = cap then 0 else i + 1 := by
  unfold ringNext
  split
  next wraps => rw [wraps, Nat.mod_self]
  next stays => exact Nat.mod_eq_of_lt (by omega)

@[simp] theorem ringContents_empty : ringContents cap slot head head = [] := by
  simp [ringContents, ringCount]

/-- Filling the next free slot leaves the elements alone.
Witness: no element lies in the slot at `tail`.
-/
theorem ringContents_store (headIn : head < cap) (c : α)
    : ringContents cap (Function.update slot tail c) head tail
      = ringContents cap slot head tail := by
  apply map_congr_left
  intro k mem
  have early := mem_range.mp mem
  apply Function.update_of_ne
  unfold ringCount at early
  unfold ringIndex
  split_ifs at early ⊢ <;> omega

/-- Moving `tail` over a slot appends the element in it, unless the buffer is full. -/
theorem ringContents_inc (headIn : head < cap) (tailIn : tail < cap)
    (room : ringNext cap tail ≠ head)
    : ringContents cap slot head (ringNext cap tail)
      = ringContents cap slot head tail ++ [slot tail] := by
  rw [ringNext_eq tailIn] at room ⊢
  have longer : ringCount cap head (if tail + 1 = cap then 0 else tail + 1)
      = ringCount cap head tail + 1 := by
    unfold ringCount
    split_ifs at room ⊢ <;> omega
  have index : ringIndex cap head (ringCount cap head tail) = tail := by
    unfold ringIndex ringCount
    split_ifs <;> omega
  simp [ringContents, longer, range_succ, index]

/-- Moving `head` takes the oldest element off, unless the buffer is empty. -/
theorem ringContents_dec (headIn : head < cap) (tailIn : tail < cap) (some : head ≠ tail)
    : ringContents cap slot head tail
      = slot head :: ringContents cap slot (ringNext cap head) tail := by
  rw [ringNext_eq headIn]
  have longer : ringCount cap head tail
      = ringCount cap (if head + 1 = cap then 0 else head + 1) tail + 1 := by
    unfold ringCount
    split_ifs <;> omega
  have first : ringIndex cap head 0 = head := by
    simp [ringIndex, headIn]
  simp only [ringContents, longer, range_succ_eq_map, map_cons, map_map, first]
  congr 1
  apply map_congr_left
  intro k mem
  have early := mem_range.mp mem
  have shifted : ringIndex cap head (k + 1)
      = ringIndex cap (if head + 1 = cap then 0 else head + 1) k := by
    unfold ringCount at early
    unfold ringIndex
    split_ifs at early ⊢ <;> omega
  exact congrArg slot shifted

end UnstableOS.Lib
