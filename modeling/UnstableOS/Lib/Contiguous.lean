import Mathlib.Data.List.Basic

/-! Lists in which the occurrences of an element stand together. -/

namespace UnstableOS.Lib

open List

variable {ι : Type*} {c d : ι} {log front : List ι} {n : ℕ}

/-- (Contiguous c log) holds when nothing else stands between two occurrences. -/
def Contiguous (c : ι) (log : List ι) : Prop :=
  ∀ front middle back, log = front ++ c :: (middle ++ c :: back) → ∀ x ∈ middle, x = c

theorem Contiguous.nil : Contiguous c [] := by
  intro front middle back split
  simp at split

theorem Contiguous.of_append {rest} (contiguous : Contiguous c (log ++ rest))
    : Contiguous c log := by
  intro front middle back split
  refine contiguous front middle (back ++ rest) ?_
  simp [split]

theorem Contiguous.take (contiguous : Contiguous c log) (n : ℕ) : Contiguous c (log.take n) := by
  rw [← take_append_drop n log] at contiguous
  exact contiguous.of_append

/-- Another element at the end does not stand between two occurrences. -/
theorem Contiguous.snoc_other (contiguous : Contiguous c log) (differs : d ≠ c)
    : Contiguous c (log ++ [d]) := by
  intro front middle back split
  rcases eq_nil_or_concat back with rfl | ⟨back, last, rfl⟩
  · have joined : log ++ [d] = (front ++ c :: middle) ++ [c] := by simp [split]
    have := (append_inj_right' joined rfl)
    exact absurd (cons.inj this).1 differs
  · have joined : log ++ [d] = (front ++ c :: (middle ++ c :: back)) ++ [last] := by
      simp [split]
    exact contiguous front middle back (append_inj_left' joined rfl)

/-- Occurrences that are all at the end stand together. -/
theorem contiguous_block (absent : c ∉ front) : Contiguous c (front ++ replicate n c) := by
  intro before middle back split x mem
  -- the first occurrence is not in `front`, so everything after it is
  rcases append_eq_append_iff.mp split with ⟨rest, _, block⟩ | ⟨rest, parts, block⟩
  · have inBlock : x ∈ replicate n c := by
      rw [block]
      simp [mem]
    exact eq_of_mem_replicate inBlock
  cases rest with
  | nil =>
    have inBlock : x ∈ replicate n c := by
      rw [nil_append] at block
      rw [← block]
      simp [mem]
    exact eq_of_mem_replicate inBlock
  | cons first rest =>
    have first_eq := (cons.inj block).1
    exact absurd (by rw [parts, first_eq]; simp) absent

end UnstableOS.Lib
