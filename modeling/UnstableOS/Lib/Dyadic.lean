import Mathlib.Data.Nat.Bitwise
import Mathlib.Tactic.Ring

/-! Dyadic blocks: intervals of length a power of two whose base is a multiple of it.
A buddy allocator only ever splits such a block in two or joins it with the block that differs
from it in one address bit.
-/

namespace UnstableOS.Lib.Dyadic

open Nat

/-- The address lies in the block of the given order and base. -/
def Span (order base address : Nat) : Prop :=
  base ≤ address ∧ address < base + 2 ^ order

instance (order base address : Nat) : Decidable (Span order base address) :=
  inferInstanceAs (Decidable (_ ∧ _))

/-- The block that shares a parent with the given one. -/
def buddy (order base : Nat) : Nat := base ^^^ (1 <<< order)

section Nesting
variable {j k b c p : Nat}

theorem span_base (k b : Nat) : Span k b b :=
  ⟨le_rfl, Nat.lt_add_of_pos_right (Nat.two_pow_pos k)⟩

theorem span_iff_div (aligned : 2 ^ k ∣ b) : Span k b p ↔ p / 2 ^ k = b / 2 ^ k := by
  obtain ⟨index, rfl⟩ := aligned
  have pos := Nat.two_pow_pos k
  rw [Nat.mul_div_cancel_left _ pos, Nat.div_eq_iff pos, Span, mul_comm]
  omega

theorem eq_of_span (alignedB : 2 ^ k ∣ b) (alignedC : 2 ^ k ∣ c)
    (inB : Span k b p) (inC : Span k c p)
    : b = c := by
  have quotients := ((span_iff_div alignedB).mp inB).symm.trans ((span_iff_div alignedC).mp inC)
  rw [← Nat.div_mul_cancel alignedB, quotients, Nat.div_mul_cancel alignedC]

theorem dvd_of_le (le : j ≤ k) (aligned : 2 ^ k ∣ b) : 2 ^ j ∣ b :=
  (pow_dvd_pow 2 le).trans aligned

end Nesting

section Buddies
variable {k b p : Nat}

/-- The buddy is the other half of the block that contains both.
Witness: the base is a multiple of the block length, and the exclusive or flips the parity of
the multiplier.
-/
theorem buddy_cases (aligned : 2 ^ k ∣ b)
    : (2 ^ (k + 1) ∣ b ∧ buddy k b = b + 2 ^ k)
      ∨ (2 ^ (k + 1) ∣ buddy k b ∧ b = buddy k b + 2 ^ k) := by
  obtain ⟨index, rfl⟩ := aligned
  have shifted : buddy k (2 ^ k * index) = 2 ^ k * (index ^^^ 1) := by
    rw [buddy, mul_comm, ← shiftLeft_eq, ← shiftLeft_xor_distrib, shiftLeft_eq, mul_comm]
  rcases even_or_odd index with even | odd
  · left
    obtain ⟨half, rfl⟩ := even
    rw [shifted, xor_one_of_even ⟨half, rfl⟩]
    exact ⟨⟨half, by ring⟩, by ring⟩
  · right
    rw [shifted, xor_one_of_odd odd]
    obtain ⟨half, rfl⟩ := odd
    exact ⟨⟨half, by simp only [Nat.add_sub_cancel]; ring⟩, by simp only [Nat.add_sub_cancel]; ring⟩

theorem dvd_buddy (aligned : 2 ^ k ∣ b) : 2 ^ k ∣ buddy k b := by
  rcases buddy_cases aligned with ⟨_, eq⟩ | ⟨upper, _⟩
  · exact eq ▸ Nat.dvd_add aligned (dvd_refl _)
  · exact dvd_of_le (le_succ k) upper

theorem buddy_buddy (k b : Nat) : buddy k (buddy k b) = b := by
  rw [buddy, buddy, xor_xor_cancel_right]

theorem buddy_ne (aligned : 2 ^ k ∣ b) : buddy k b ≠ b := by
  rcases buddy_cases aligned with ⟨_, eq⟩ | ⟨_, eq⟩ <;> omega

theorem buddy_of_dvd_succ (aligned : 2 ^ (k + 1) ∣ b) : buddy k b = b + 2 ^ k := by
  rcases buddy_cases (dvd_of_le (le_succ k) aligned) with ⟨_, eq⟩ | ⟨upper, eq⟩
  · exact eq
  have step : 2 ^ (k + 1) ∣ 2 ^ k := by
    rw [eq] at aligned
    exact (Nat.dvd_add_right upper).mp aligned
  exact absurd (le_of_dvd (Nat.two_pow_pos k) step) (by
    omega)

theorem dvd_min_buddy (aligned : 2 ^ k ∣ b) : 2 ^ (k + 1) ∣ min b (buddy k b) := by
  rcases buddy_cases aligned with ⟨upper, eq⟩ | ⟨upper, eq⟩
  · rwa [min_eq_left (by omega)]
  · rwa [min_eq_right (by omega)]

theorem span_merge (aligned : 2 ^ k ∣ b)
    : Span (k + 1) (min b (buddy k b)) p ↔ Span k b p ∨ Span k (buddy k b) p := by
  simp only [Span, pow_succ]
  rcases buddy_cases aligned with ⟨_, eq⟩ | ⟨_, eq⟩ <;> omega

theorem span_halves (k b p : Nat) : Span (k + 1) b p ↔ Span k b p ∨ Span k (b + 2 ^ k) p := by
  simp only [Span, pow_succ]
  omega

end Buddies

end UnstableOS.Lib.Dyadic
