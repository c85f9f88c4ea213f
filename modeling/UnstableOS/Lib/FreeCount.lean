import Mathlib.Algebra.BigOperators.Group.Finset.Basic

/-! The number of free slots of a table, and the total over several tables. -/

namespace UnstableOS.Lib

open Finset

/-- The slots below `n` that are not used. -/
def freeSlots (n : ℕ) (used : ℕ → Bool) : Finset ℕ := {i ∈ range n | used i = false}

def freeCount (n : ℕ) (used : ℕ → Bool) : ℕ := (freeSlots n used).card

variable {n i : ℕ} {used used' : ℕ → Bool}

theorem mem_freeSlots : i ∈ freeSlots n used ↔ i < n ∧ used i = false := by
  simp [freeSlots]

theorem freeCount_le (n : ℕ) (used : ℕ → Bool) : freeCount n used ≤ n := by
  have bound := card_filter_le (range n) fun i => used i = false
  rwa [card_range] at bound

theorem freeCount_congr (same : ∀ i < n, used' i = used i)
    : freeCount n used' = freeCount n used := by
  apply congrArg card
  ext i
  rw [mem_freeSlots, mem_freeSlots]
  exact and_congr_right fun small => by rw [same i small]

theorem exists_free (positive : freeCount n used ≠ 0) : ∃ i < n, used i = false := by
  obtain ⟨i, mem⟩ := card_ne_zero.mp positive
  exact ⟨i, mem_freeSlots.mp mem⟩

/-- Using a free slot. -/
theorem freeCount_use (small : i < n) (free : used i = false) (here : used' i = true)
    (elsewhere : ∀ j < n, j ≠ i → used' j = used j)
    : freeCount n used' + 1 = freeCount n used := by
  have erased : freeSlots n used' = (freeSlots n used).erase i := by
    ext j
    rw [mem_erase, mem_freeSlots, mem_freeSlots]
    by_cases same : j = i
    · subst j
      simp [here]
    constructor
    · intro ⟨bound, unused⟩
      exact ⟨same, bound, elsewhere j bound same ▸ unused⟩
    · intro ⟨_, bound, unused⟩
      exact ⟨bound, (elsewhere j bound same).trans unused⟩
  rw [freeCount, erased]
  exact card_erase_add_one (mem_freeSlots.mpr ⟨small, free⟩)

/-- The counts of all tables, of which one changes. -/
theorem sum_change {m g} (count count' : ℕ → ℕ) (small : g < m)
    (elsewhere : ∀ h < m, h ≠ g → count' h = count h)
    : ∑ h ∈ range m, count' h + count g = ∑ h ∈ range m, count h + count' g := by
  have inRange := mem_range.mpr small
  have rest : ∑ h ∈ (range m).erase g, count' h = ∑ h ∈ (range m).erase g, count h := by
    apply sum_congr rfl
    intro h mem
    exact elsewhere h (mem_range.mp (mem_of_mem_erase mem)) (ne_of_mem_erase mem)
  rw [← add_sum_erase _ count' inRange, ← add_sum_erase _ count inRange, rest]
  omega

end UnstableOS.Lib
