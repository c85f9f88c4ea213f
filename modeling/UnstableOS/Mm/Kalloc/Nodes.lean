import UnstableOS.Mm.Kalloc.Allocator
import UnstableOS.Lib.BuddyTree

/-! Blocks of the heap as nodes of a buddy tree, and the two bitmaps that store it.
Node `i` of order `k` is the block `2 ^ (k + 6)` bytes long that starts `i` such blocks after the
heap base; the bitmaps hold one bit for every node of a positive order.
-/

namespace UnstableOS.Mm.Kalloc

open Lib Lib.BuddyTree Lib.NodeStatus Function Nat

/-- The order of the whole heap, `NORDER - 1`. -/
abbrev height : Nat := 19

def nodeAddr (k i : Nat) : Nat := kernelHeapBase + i * 2 ^ (k + 6)

/-- The bit of a node in either bitmap. -/
def nodeIdx (k i : Nat) : Nat := 2 ^ (19 - k) - 1 + i

-- Bits

/-- The bits of a bitmap are those of its words. -/
theorem bmGet_eq (bm : Bitmap) (idx : Nat)
    : bmGet bm idx = (bm (idx / 32)).getLsbD (idx % 32) := by
  have small : idx % 32 < 32 := mod_lt idx (by decide)
  have single : 1#32 <<< (idx % 32) = BitVec.twoPow 32 (idx % 32) := rfl
  rw [bmGet, single, BitVec.and_twoPow]
  cases (bm (idx / 32)).getLsbD (idx % 32) with
  | false => simp
  | true =>
    have nonzero : BitVec.twoPow 32 (idx % 32) ≠ 0#32 := by
      intro zero
      have bit := congrArg (fun word => word.getLsbD (idx % 32)) zero
      simp [small] at bit
    simpa using nonzero

theorem bit_position {i j} (same : i / 32 = j / 32) (ne : i ≠ j) : i % 32 ≠ j % 32 := by
  omega

/-- `bm_toggle` changes one bit. -/
theorem bmGet_toggle (bm : Bitmap) (idx other : Nat)
    : bmGet (bmToggle bm idx).1 other = if other = idx then !bmGet bm idx else bmGet bm other := by
  have small : other % 32 < 32 := mod_lt other (by decide)
  simp only [bmGet_eq, bmToggle]
  by_cases sameWord : other / 32 = idx / 32
  · rw [sameWord, update_self, BitVec.getLsbD_xor]
    by_cases same : other = idx
    · subst same
      simp [small]
    have apart := bit_position sameWord same
    rw [if_neg same]
    have off : (1#32 <<< (idx % 32)).getLsbD (other % 32) = false := by
      have single : 1#32 <<< (idx % 32) = BitVec.twoPow 32 (idx % 32) := rfl
      rw [single, BitVec.getLsbD_twoPow]
      simp [Ne.symm apart]
    rw [off, Bool.xor_false]
  · rw [update_of_ne sameWord, if_neg (fun same => sameWord (by rw [same]))]

/-- `bm_toggle` returns the new bit. -/
theorem bmToggle_snd (bm : Bitmap) (idx : Nat) : (bmToggle bm idx).2 = !bmGet bm idx := by
  have read : (bmToggle bm idx).2 = bmGet (bmToggle bm idx).1 idx := rfl
  rw [read, bmGet_toggle, if_pos rfl]

/-- `bm_set` changes one bit. -/
theorem bmGet_set (bm : Bitmap) (idx other : Nat) (val : Bool)
    : bmGet (bmSet bm idx val) other = if other = idx then val else bmGet bm other := by
  have small : other % 32 < 32 := mod_lt other (by decide)
  have single : 1#32 <<< (idx % 32) = BitVec.twoPow 32 (idx % 32) := rfl
  simp only [bmGet_eq, bmSet]
  by_cases sameWord : other / 32 = idx / 32
  · rw [sameWord, update_self, BitVec.getLsbD_or, BitVec.getLsbD_and, BitVec.getLsbD_not,
      single, BitVec.getLsbD_twoPow]
    by_cases same : other = idx
    · subst same
      cases val with
      | false => simp
      | true => simp [small]
    · have apart := bit_position sameWord same
      cases val with
      | false => simp [same, small, Ne.symm apart]
      | true => simp [same, small, single, apart, Ne.symm apart]
  · rw [update_of_ne sameWord, if_neg (fun same => sameWord (by rw [same]))]

-- Indices and addresses

section Indices
variable {j k i i' : Nat}

/-- Different nodes have different bits. -/
theorem nodeIdx_inj (jLe : j ≤ 19) (kLe : k ≤ 19) (inJ : i < 2 ^ (19 - j))
    (inK : i' < 2 ^ (19 - k)) (same : nodeIdx j i = nodeIdx k i')
    : j = k ∧ i = i' := by
  have larger {a b x y : Nat} (le : b ≤ 19) (less : a < b) (inB : y < 2 ^ (19 - b))
      (eq : nodeIdx a x = nodeIdx b y)
      : False := by
    have step : 2 ^ (19 - b) * 2 ≤ 2 ^ (19 - a) := by
      rw [← pow_succ]
      exact Nat.pow_le_pow_right (by decide) (by omega)
    simp only [nodeIdx] at eq
    omega
  rcases lt_trichotomy j k with less | rfl | more
  · exact (larger kLe less inK same).elim
  · simp only [nodeIdx] at same
    exact ⟨rfl, by omega⟩
  · exact (larger jLe more inJ same.symm).elim

/-- The position, among the nodes of a level, of the one that an address is in. -/
theorem getIdxInLvl_nodeAddr (le : k ≤ 19) (i unitOrder : Nat)
    : getIdxInLvl (nodeAddr unitOrder i) k = i * 2 ^ unitOrder / 2 ^ k := by
  have width : (1 <<< maxOrder) / (1 <<< (norder - 1 - k)) = 2 ^ (6 + k) := by
    simp only [maxOrder, norder, minOrder, shiftLeft_eq, one_mul]
    rw [Nat.pow_div (by omega) (by decide)]
    congr 1
    omega
  rw [getIdxInLvl, width, nodeAddr, Nat.add_sub_cancel_left, pow_add, pow_add, ← mul_assoc,
    mul_comm (2 ^ 6) (2 ^ k), Nat.mul_div_mul_right _ _ (by decide)]

theorem getIdx_nodeAddr (le : k ≤ 19) (i unitOrder : Nat)
    : getIdx (nodeAddr unitOrder i) k = nodeIdx k (i * 2 ^ unitOrder / 2 ^ k) := by
  rw [getIdx, getIdxInLvl_nodeAddr le, nodeIdx, shiftLeft_eq, one_mul]
  rfl

/-- The bit that the code looks up for a block of the level is the bit of its node. -/
theorem getIdx_self (le : k ≤ 19) : getIdx (nodeAddr k i) k = nodeIdx k i := by
  rw [getIdx_nodeAddr le, Nat.mul_div_cancel _ (Nat.two_pow_pos k)]

/-- The bit one level up is that of the parent. -/
theorem getIdx_parent (lt : k < 19) : getIdx (nodeAddr k i) (k + 1) = nodeIdx (k + 1) (i / 2) := by
  rw [getIdx_nodeAddr lt, div_pow_succ, Nat.mul_div_cancel _ (Nat.two_pow_pos k)]

/-- The left half of a block is at its address. -/
theorem nodeAddr_left (k i : Nat) : nodeAddr k (2 * i) = nodeAddr (k + 1) i := by
  simp only [nodeAddr]
  ring

/-- The right half follows the left one. -/
theorem nodeAddr_right (k i : Nat) : nodeAddr k (2 * i + 1) = nodeAddr (k + 1) i + 2 ^ (k + 6) := by
  simp only [nodeAddr]
  ring

theorem nodeAddr_ne_zero (k i : Nat) : nodeAddr k i ≠ 0 := by
  simp only [nodeAddr, kernelHeapBase]
  omega

theorem nodeAddr_inj (same : nodeAddr k i = nodeAddr k i') : i = i' := by
  simp only [nodeAddr, add_left_cancel_iff] at same
  exact eq_of_mul_eq_mul_right (Nat.two_pow_pos _) same

theorem nodeAddr_unit (k i : Nat) : i * 2 ^ k = (nodeAddr k i - kernelHeapBase) / 2 ^ 6 := by
  rw [nodeAddr, Nat.add_sub_cancel_left, pow_add, ← mul_assoc, Nat.mul_div_cancel _ (by decide)]

/-- Two leaves with the same address are the same node. -/
theorem leaf_eq_of_addr {tree} (shape : Shape height tree)
    (jLe : j ≤ 19) (kLe : k ≤ 19) (inJ : IsLeaf (tree j i)) (inK : IsLeaf (tree k i'))
    (same : nodeAddr j i = nodeAddr k i')
    : j = k ∧ i = i' := by
  have units : i * 2 ^ j = i' * 2 ^ k := by rw [nodeAddr_unit, nodeAddr_unit, same]
  have quotientJ := Nat.mul_div_cancel i (Nat.two_pow_pos j)
  have quotientK : i * 2 ^ j / 2 ^ k = i' := by
    rw [units, Nat.mul_div_cancel i' (Nat.two_pow_pos k)]
  have leafJ := quotientJ.symm ▸ inJ
  have leafK := quotientK.symm ▸ inK
  have orders := shape.leaf_unique jLe kLe leafJ leafK
  subst orders
  exact ⟨rfl, quotientJ.symm.trans quotientK⟩

end Indices

end UnstableOS.Mm.Kalloc
