import Mathlib.Data.Set.Card

/-! Reference counts.
A partial map `ref` sends each holder to the object it refers to; the count of an object is the
number of its holders.
-/

namespace UnstableOS.Lib

open Function Set

variable {κ ι : Type*} {ref ref' : κ → Option ι} {count count' : ι → ℕ}

structure Counted (ref : κ → Option ι) (count : ι → ℕ) : Prop where
  finite : {x | (ref x).isSome}.Finite
  card : ∀ i, count i = {x | ref x = some i}.ncard

namespace Counted

theorem holders_finite (counted : Counted ref count) (i : ι) : {x | ref x = some i}.Finite := by
  refine counted.finite.subset ?_
  intro x held
  have eq : ref x = some i := held
  simp [eq]

theorem empty (unheld : ∀ x, ref x = none) (zero : ∀ i, count i = 0) : Counted ref count := by
  refine ⟨?_, ?_⟩
  · simp [unheld]
  · intro i
    simp [unheld, zero]

section
variable (counted : Counted ref count)
include counted

theorem unique {x y i} (held : ref x = some i) (held' : ref y = some i) (single : count i = 1)
    : x = y := by
  rw [counted.card, ncard_eq_one] at single
  obtain ⟨z, holders⟩ := single
  have atZ (w) (here : ref w = some i) : w = z := by
    have mem : w ∈ {x | ref x = some i} := here
    rwa [holders] at mem
  exact (atZ x held).trans (atZ y held').symm

theorem congr (sameRef : ∀ x, ref' x = ref x) (sameCount : ∀ i, count' i = count i)
    : Counted ref' count' := by
  obtain rfl : ref' = ref := funext sameRef
  obtain rfl : count' = count := funext sameCount
  exact counted

/-- The holders of an object, one of them counted apart. -/
theorem card_split [DecidableEq ι] (x : κ) (i : ι)
    : count i = {y | y ≠ x ∧ ref y = some i}.ncard + if ref x = some i then 1 else 0 := by
  rw [counted.card]
  have finite := counted.holders_finite i
  split_ifs with held
  · have holders : {y | ref y = some i} = insert x {y | y ≠ x ∧ ref y = some i} := by
      ext y
      by_cases atX : y = x
      · simp [atX, held]
      · simp [atX]
    rw [holders]
    exact ncard_insert_of_notMem (by simp) (finite.subset fun _ => And.right)
  · refine congrArg ncard (ext fun y => ⟨fun held' => ⟨?_, held'⟩, And.right⟩)
    rintro rfl
    exact held held'

/-- One holder lets go, takes an object, or both. -/
theorem change [DecidableEq ι] (x : κ) (elsewhere : ∀ y, y ≠ x → ref' y = ref y)
    (counts : ∀ i, count' i + (if ref x = some i then 1 else 0)
      = count i + if ref' x = some i then 1 else 0)
    : Counted ref' count' := by
  have finite : {y | (ref' y).isSome}.Finite := by
    refine (counted.finite.insert x).subset fun y held => ?_
    by_cases atX : y = x
    · exact .inl atX
    · rw [mem_ofPred_eq, elsewhere y atX] at held
      exact .inr held
  refine ⟨finite, fun i => ?_⟩
  have after := card_split ⟨finite, fun _ => rfl⟩ x i
  have others : {y | y ≠ x ∧ ref' y = some i} = {y | y ≠ x ∧ ref y = some i} := by
    ext y
    exact and_congr_right fun other => by rw [elsewhere y other]
  rw [others] at after
  have before := counted.card_split x i
  have same := counts i
  omega

end

end Counted

end UnstableOS.Lib
