import Mathlib.Algebra.Ring.Nat
import Mathlib.Order.Interval.Finset.Nat

/-! Intervals of numbers that cover a set without overlapping have as many elements together as
the set.
-/

namespace UnstableOS.Lib

open Finset List

/-- The numbers of an interval given by its start and its length. -/
def span (piece : ℕ × ℕ) : Finset ℕ := Ico piece.1 (piece.1 + piece.2)

theorem mem_span {piece a}
    : a ∈ span piece ↔ piece.1 ≤ a ∧ a < piece.1 + piece.2 :=
  mem_Ico

theorem card_span (piece : ℕ × ℕ) : (span piece).card = piece.2 := by
  rw [span, Nat.card_Ico, Nat.add_sub_cancel_left]

/-- The intervals do not overlap. -/
def Apart (pieces : List (ℕ × ℕ)) : Prop :=
  pieces.Pairwise fun one other => Disjoint (span one) (span other)

/-- Lengths of intervals that cover a set add up to its size.
Witness: induction on the intervals; the rest covers what is outside of the first.
-/
theorem card_of_tiling {pieces} {whole : Finset ℕ} (apart : Apart pieces)
    (cover : ∀ a, a ∈ whole ↔ ∃ piece ∈ pieces, a ∈ span piece)
    : whole.card = (pieces.map Prod.snd).sum := by
  induction pieces generalizing whole with
  | nil =>
    have empty : whole = ∅ := by
      ext a
      simp [cover]
    simp [empty]
  | cons piece rest ih =>
    obtain ⟨outside, apart⟩ := pairwise_cons.mp apart
    have inner : span piece ⊆ whole :=
      fun a mem => (cover a).mpr ⟨piece, mem_cons_self, mem⟩
    have others : ∀ a, a ∈ whole \ span piece ↔ ∃ other ∈ rest, a ∈ span other := by
      intro a
      rw [mem_sdiff, cover, exists_mem_cons_iff]
      constructor
      · intro ⟨covered, notFirst⟩
        exact covered.resolve_left notFirst
      · intro ⟨other, mem, inside⟩
        refine ⟨.inr ⟨other, mem, inside⟩, fun first => ?_⟩
        exact disjoint_left.mp (outside other mem) first inside
    have counted := ih apart others
    have split := card_sdiff_add_card_eq_card inner
    rw [card_span] at split
    rw [List.map_cons, List.sum_cons]
    omega

end UnstableOS.Lib
