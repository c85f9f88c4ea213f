import Mathlib.Data.List.Pairwise
import Mathlib.Algebra.Order.Ring.Int

/-! Delta-encoded lists.
Every element stores how far it lies behind the one before it, so that all of them are shifted by
changing the first. Each operation is related to the list of the absolute values it stands for.
-/

namespace UnstableOS.Lib.DeltaList

open List Prod

variable {α : Type*}

/-- The absolute values of a delta-encoded list that starts at `base`. -/
def absolute (base : ℤ) : List (α × ℤ) → List (α × ℤ)
  | [] => []
  | (a, delta) :: rest => (a, base + delta) :: absolute (base + delta) rest

/-- An element is put behind all those up to `value`, where `sum` is the sum of the deltas passed
so far. The element behind it is then less far behind.
-/
def insert (a : α) (value : ℤ) (sum : ℤ) : List (α × ℤ) → List (α × ℤ)
  | [] => [(a, value - sum)]
  | (b, delta) :: rest =>
    if sum + delta > value then
      (a, value - sum) :: (b, delta - (value - sum)) :: rest
    else
      (b, delta) :: insert a value (sum + delta) rest

/-- The elements that lie within `amount`, and what is left when the base moves on by it. -/
def advance (amount : ℤ) : List (α × ℤ) → List (α × ℤ) × List (α × ℤ)
  | [] => ([], [])
  | (a, delta) :: rest =>
    if delta ≤ amount then
      ((a, delta) :: (advance (amount - delta) rest).1, (advance (amount - delta) rest).2)
    else
      ([], (a, delta - amount) :: rest)

/-- The first element with the property is taken out, and its delta is added to the one behind
it.
-/
def remove (p : α → Bool) : List (α × ℤ) → List (α × ℤ)
  | [] => []
  | (a, delta) :: rest =>
    if p a then
      match rest with
      | [] => []
      | (b, behind) :: more => (b, behind + delta) :: more
    else
      (a, delta) :: remove p rest

/-- (Ordered values) holds when no value is smaller than one before it. -/
def Ordered (values : List (α × ℤ)) : Prop :=
  values.Pairwise (fun earlier later => earlier.2 ≤ later.2)

variable {base value sum amount : ℤ} {a : α} {list : List (α × ℤ)}

theorem map_fst_absolute : (absolute base list).map fst = list.map fst := by
  induction list generalizing base with
  | nil => rfl
  | cons first rest ih => simp [absolute, ih]

/-- The new element stands between those that are not larger and those that are larger.
Witness: induction on the list; the base grows by the deltas that were passed.
-/
theorem absolute_insert (a : α) (value : ℤ) (ordered : Ordered (absolute (base + sum) list))
    : ∃ front back, absolute (base + sum) list = front ++ back
        ∧ absolute (base + sum) (insert a value sum list) = front ++ (a, base + value) :: back
        ∧ (∀ x ∈ front, x.2 ≤ base + value) ∧ ∀ x ∈ back, base + value < x.2 := by
  induction list generalizing sum with
  | nil =>
    refine ⟨[], [], rfl, ?_, by simp, by simp⟩
    simp only [insert, absolute, nil_append, cons.injEq, mk.injEq, true_and, and_true]
    omega
  | cons first rest ih =>
    obtain ⟨b, delta⟩ := first
    have shifted : base + sum + delta = base + (sum + delta) := by omega
    simp only [absolute, insert] at ordered ⊢
    obtain ⟨least, tail⟩ := pairwise_cons.mp ordered
    split
    next beyond =>
      refine ⟨[], _, rfl, ?_, by simp, ?_⟩
      · have start : base + sum + (value - sum) = base + value := by omega
        have behind : base + value + (delta - (value - sum)) = base + sum + delta := by omega
        simp [absolute, behind]
      · intro x mem
        rcases mem_cons.mp mem with rfl | later
        · show base + value < base + sum + delta
          omega
        · have := least x later
          omega
    next within =>
      rw [shifted] at tail
      obtain ⟨front, back, split, inserted, below, above⟩ := ih tail
      refine ⟨(b, base + sum + delta) :: front, back, ?_, ?_, ?_, above⟩
      · rw [shifted, split, cons_append]
      · simp [absolute, shifted, inserted]
      · intro x mem
        rcases mem_cons.mp mem with rfl | later
        · show base + sum + delta ≤ base + value
          omega
        · exact below x later

/-- Moving on takes exactly the elements that are reached, and leaves the others where they are.
Witness: induction on the list.
-/
theorem absolute_advance (ordered : Ordered (absolute base list))
    : absolute base list = absolute base (advance amount list).1
            ++ absolute (base + amount) (advance amount list).2
        ∧ (∀ x ∈ absolute base (advance amount list).1, x.2 ≤ base + amount)
        ∧ ∀ x ∈ absolute (base + amount) (advance amount list).2, base + amount < x.2 := by
  induction list generalizing base amount with
  | nil => simp [absolute, advance]
  | cons first rest ih =>
    obtain ⟨b, delta⟩ := first
    simp only [absolute, advance] at ordered ⊢
    obtain ⟨least, tail⟩ := pairwise_cons.mp ordered
    split
    next reached =>
      have moved : base + delta + (amount - delta) = base + amount := by omega
      have := @ih (base + delta) (amount - delta) tail
      rw [moved] at this
      obtain ⟨split, due, ahead⟩ := this
      refine ⟨?_, ?_, ahead⟩
      · simp [absolute, ← split]
      · intro x mem
        rcases mem_cons.mp mem with rfl | later
        · show base + delta ≤ base + amount
          omega
        · exact due x later
    next beyond =>
      have kept : base + amount + (delta - amount) = base + delta := by omega
      simp only [absolute, nil_append, kept, not_mem_nil, false_implies, implies_true, true_and]
      intro x mem
      rcases mem_cons.mp mem with rfl | later
      · show base + amount < base + delta
        omega
      · have := least x later
        omega

/-- Taking an element out leaves the others where they are. -/
theorem absolute_remove (p : α → Bool)
    : absolute base (remove p list) = (absolute base list).eraseP (p ∘ fst) := by
  induction list generalizing base with
  | nil => rfl
  | cons first rest ih =>
    obtain ⟨b, delta⟩ := first
    simp only [absolute, remove, eraseP_cons, Function.comp_apply]
    by_cases holds : p b
    · cases rest with
      | nil => simp [absolute, holds]
      | cons second more =>
        have kept : base + (second.2 + delta) = base + delta + second.2 := by omega
        simp [absolute, holds, kept]
    · simp [holds, absolute, ih]

end UnstableOS.Lib.DeltaList
