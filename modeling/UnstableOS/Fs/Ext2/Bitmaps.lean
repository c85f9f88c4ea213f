import UnstableOS.Fs.Ext2.Alloc
import UnstableOS.Lib.FreeCount
import Mathlib.Algebra.Order.BigOperators.Group.Finset

/-! The bitmaps of an image: what the search for a clear bit finds, and how one word's update
changes the bits of all groups.
-/

namespace UnstableOS.Fs.Ext2

open Lib Function BitVec Finset List Nat

variable {geo : Geometry} {s s' : State} {k : Kind} {g idx : ℕ}

-- The first clear bit

variable {x : BitVec 32} {left j fuel : ℕ}

/-- `__builtin_ctzl` of a word that is not zero is its lowest set bit. -/
theorem builtinCtzl_spec (nonzero : x ≠ 0)
    : builtinCtzl x < 32 ∧ x.getLsbD (builtinCtzl x) = true
      ∧ ∀ b < builtinCtzl x, x.getLsbD b = false := by
  unfold builtinCtzl
  cases found : (List.range 32).find? fun b => x.getLsbD b with
  | none =>
    refine absurd (eq_of_getLsbD_eq fun b small => ?_) nonzero
    have unset := find?_eq_none.mp found b (List.mem_range.mpr small)
    simpa using unset
  | some b =>
    obtain ⟨set, small, lower⟩ := find?_range_eq_some.mp found
    exact ⟨List.mem_range.mp small, set, fun j below => by simpa using lower j below⟩

/-- The lowest clear bit of a word that is not full. -/
theorem builtinCtzl_not (notFull : x ≠ 0xFFFFFFFF#32)
    : builtinCtzl (~~~ x) < 32 ∧ x.getLsbD (builtinCtzl (~~~ x)) = false
      ∧ ∀ b < builtinCtzl (~~~ x), x.getLsbD b = true := by
  have nonzero : ~~~ x ≠ 0 := by
    intro zero
    apply notFull
    have double := not_not (b := x)
    rw [zero] at double
    exact double.symm
  obtain ⟨small, set, lower⟩ := builtinCtzl_spec nonzero
  refine ⟨small, by simpa [small] using set, ?_⟩
  intro b below
  have width := below.trans small
  simpa [width] using lower b below

/-- Whether a bit of a bitmap is set. -/
def bitAt (word : ℕ → BitVec 32) (idx : ℕ) : Bool := (word (idx / 32)).getLsbD (idx % 32)

theorem bitAt_full {word} (full : word (idx / 32) = 0xFFFFFFFF#32)
    : bitAt word idx = true := by
  have small : idx % 32 < 32 := mod_lt _ (by decide)
  have allOnes : (0xFFFFFFFF#32) = allOnes 32 := rfl
  rw [bitAt, full, allOnes, getLsbD_allOnes]
  exact decide_eq_true small

variable {word : ℕ → BitVec 32} {limit i : ℕ}

/-- What the inner loop finds is a clear bit below the limit. -/
theorem scanWords_some (aligned : 32 ∣ i) (found : scanWords word limit i left j = some idx)
    : idx < limit ∧ bitAt word idx = false := by
  induction left generalizing j with
  | zero => simp [scanWords] at found
  | succ left ih =>
    rw [scanWords] at found
    split at found
    · cases found
    split at found
    · exact ih found
    rename_i notFull
    obtain ⟨small, clear, _⟩ := builtinCtzl_not notFull
    dsimp only at found
    split at found <;> cases found
    refine ⟨by omega, ?_⟩
    generalize builtinCtzl (~~~ word (i / 32 + j)) = num at small clear
    have quotient : (i + j * 32 + num) / 32 = i / 32 + j := by omega
    have remainder : (i + j * 32 + num) % 32 = num := by omega
    rw [bitAt, quotient, remainder]
    exact clear

/-- A buffer without a clear bit below the limit. -/
theorem scanWords_none (aligned : 32 ∣ i)
    (missed : scanWords word limit i left j = none) (bounds : i + j * 32 ≤ idx)
    (below : idx < i + (j + left) * 32) (small : idx < limit)
    : bitAt word idx = true := by
  induction left generalizing j with
  | zero => omega
  | succ left ih =>
    rw [scanWords] at missed
    split at missed
    · omega
    split at missed
    · rename_i full
      by_cases here : idx / 32 = i / 32 + j
      · exact bitAt_full (here ▸ full)
      · exact ih missed (by omega) (by omega)
    rename_i notFull
    obtain ⟨width, _, lower⟩ := builtinCtzl_not notFull
    dsimp only at missed
    split at missed
    · -- the lowest clear bit of the word is past the limit
      have here : idx / 32 = i / 32 + j := by omega
      rw [bitAt, here]
      exact lower _ (by omega)
    · cases missed

/-- What the scan finds is a clear bit below the limit. -/
theorem scanBitmap_some (aligned : 32 ∣ i) (found : scanBitmap word limit fuel i = some idx)
    : idx < limit ∧ bitAt word idx = false := by
  induction fuel generalizing i with
  | zero => cases found
  | succ fuel ih =>
    rw [scanBitmap] at found
    split at found
    · cases found
    cases buffer : scanWords word limit i 128 0 with
    | some bit =>
      rw [buffer] at found
      cases found
      exact scanWords_some aligned buffer
    | none =>
      rw [buffer] at found
      exact ih (by omega) found

/-- A scan that finds nothing has seen only set bits. -/
theorem scanBitmap_none (aligned : 32 ∣ i)
    (missed : scanBitmap word limit fuel i = none) (enough : limit ≤ i + fuel) (lower : i ≤ idx)
    (small : idx < limit)
    : bitAt word idx = true := by
  induction fuel generalizing i with
  | zero => omega
  | succ fuel ih =>
    rw [scanBitmap] at missed
    split at missed
    · omega
    cases buffer : scanWords word limit i 128 0 with
    | some bit =>
      rw [buffer] at missed
      cases missed
    | none =>
      rw [buffer] at missed
      by_cases here : idx < i + 128 * 32
      · exact scanWords_none aligned buffer (by omega) (by omega) small
      · exact ih (by omega) missed (by omega) (by omega)

-- The bitmaps of all groups

/-- The true position of a bitmap, without the cut to 32 bits. -/
def bitmapStart (geo : Geometry) (s : State) (k : Kind) (g : ℕ) : ℕ :=
  s.bitmapBlock k g * geo.blockSize / 4

/-- Whether the object is marked as used on the device. -/
def used (geo : Geometry) (s : State) (k : Kind) (g : ℕ) : ℕ → Bool :=
  bitAt fun w => s.word (bitmapStart geo s k g + w)

def groupClear (geo : Geometry) (s : State) (k : Kind) (g : ℕ) : ℕ :=
  freeCount (geo.perGroup k) (used geo s k g)

def totalClear (geo : Geometry) (s : State) (k : Kind) : ℕ :=
  ∑ g ∈ Finset.range geo.blockGroups, groupClear geo s k g

/-- An object of the image. -/
structure InGroup (geo : Geometry) (k : Kind) (g idx : ℕ) : Prop where
  group : g < geo.blockGroups
  index : idx < geo.perGroup k

/-- The limits of the format, and bitmaps that do not overlap and lie in the part of the device that
offsets of 32 bits reach.
-/
structure Layout (geo : Geometry) (s : State) : Prop where
  aligned : 4 ∣ geo.blockSize
  groups : geo.blockGroups ≤ 2 ^ 27
  perGroup_pos : ∀ k, 0 < geo.perGroup k
  perGroup_lt : ∀ k, geo.perGroup k < 2 ^ 16
  objects : ∀ k, geo.blockGroups * geo.perGroup k < 2 ^ 32
  low
    : ∀ k g idx, InGroup geo k g idx
      → s.bitmapBlock k g * geo.blockSize + idx / 32 * 4 < 2 ^ 32
  disjoint
    : ∀ k g idx k' g' idx', InGroup geo k g idx → InGroup geo k' g' idx'
      → bitmapStart geo s k g + idx / 32 = bitmapStart geo s k' g' + idx' / 32
      → k = k' ∧ g = g'

section
variable (layout : Layout geo s)
include layout

/-- The offsets of the words of an image do not wrap. -/
theorem Layout.wordAt_eq (inGroup : InGroup geo k g idx)
    : wordAt geo s k g (idx / 32) = bitmapStart geo s k g + idx / 32 := by
  rw [wordAt, mod_eq_of_lt (layout.low k g idx inGroup)]
  exact add_mul_div_right _ _ (by decide)

theorem Layout.descriptor_eq (group : g < geo.blockGroups)
    : descriptor g = g :=
  mod_eq_of_lt (group.trans_le layout.groups)

theorem Layout.congr (same : s'.bitmapBlock = s.bitmapBlock)
    : Layout geo s' := by
  have starts : bitmapStart geo s' = bitmapStart geo s := by
    funext k g
    rw [bitmapStart, same, bitmapStart]
  refine { layout with low := ?_, disjoint := ?_ }
  · rw [same]
    exact layout.low
  · rw [starts]
    exact layout.disjoint

/-- The bit that the code reads for an object is the one on the device. -/
theorem Layout.bitAt_wordAt (inGroup : InGroup geo k g idx)
    : bitAt (fun w => s.word (wordAt geo s k g w)) idx = used geo s k g idx := by
  rw [used, bitAt, bitAt, layout.wordAt_eq inGroup]

end

/-- `s'` has one object more in use than `s`. -/
structure OneMoreUsed (geo : Geometry) (s s' : State) (k : Kind) (g idx : ℕ) : Prop where
  inGroup : InGroup geo k g idx
  before : used geo s k g idx = false
  after : used geo s' k g idx = true
  elsewhere
    : ∀ k' g' idx', InGroup geo k' g' idx' → (k', g', idx') ≠ (k, g, idx)
      → used geo s' k' g' idx' = used geo s k' g' idx'

/-- A write of the word that holds the object's bit. -/
theorem Layout.used_setWord (layout : Layout geo s) (inGroup : InGroup geo k g idx) {value b} (bits
      : ∀ j < 32, value.getLsbD j
        = if j = idx % 32 then b else (s.word (wordAt geo s k g (idx / 32))).getLsbD j)
    : ∀ k' g' idx', InGroup geo k' g' idx'
      → used geo (s.setWord (wordAt geo s k g (idx / 32)) value) k' g' idx'
        = if (k', g', idx') = (k, g, idx) then b else used geo s k' g' idx' := by
  intro k' g' idx' inGroup'
  have width : idx' % 32 < 32 := mod_lt _ (by decide)
  rw [layout.wordAt_eq inGroup] at bits ⊢
  show getLsbD (update s.word _ value (bitmapStart geo s k' g' + idx' / 32)) _ = _
  by_cases place : bitmapStart geo s k' g' + idx' / 32 = bitmapStart geo s k g + idx / 32
  · obtain ⟨rfl, rfl⟩ := layout.disjoint _ _ _ _ _ _ inGroup' inGroup place
    rw [place, update_self, bits _ width, used, bitAt, place]
    have sameBit : idx' % 32 = idx % 32 ↔ idx' = idx := by omega
    simp [sameBit]
  · rw [update_of_ne place, used, bitAt, if_neg]
    intro same
    cases same
    exact place rfl

/-- The free objects of an image fit a 32-bit counter. -/
theorem totalClear_lt (layout : Layout geo s) (k : Kind) : totalClear geo s k < 2 ^ 32 := by
  calc totalClear geo s k
    _ ≤ ∑ _g ∈ range geo.blockGroups, geo.perGroup k :=
      Finset.sum_le_sum fun g _ => freeCount_le _ _
    _ = geo.blockGroups * geo.perGroup k := by
      rw [sum_const_nat fun _ _ => rfl, card_range]
    _ < 2 ^ 32 := layout.objects k

theorem getLsbD_bit (i : ℕ) (small : j < 32) : (1#32 <<< i).getLsbD j = decide (j = i) := by
  by_cases above : j < i
  · simp [small, above, above.ne]
  · simp [small, above, show j - i = 0 ↔ j = i by omega]

/-- Setting a bit leaves the others. -/
theorem getLsbD_or_bit (x : BitVec 32) (i : ℕ) (small : j < 32)
    : (x ||| 1#32 <<< i).getLsbD j = if j = i then true else x.getLsbD j := by
  rw [getLsbD_or, getLsbD_bit i small]
  by_cases same : j = i <;> simp [same]

/-- Clearing a bit leaves the others. -/
theorem getLsbD_and_not_bit (x : BitVec 32) (i : ℕ) (small : j < 32)
    : (x &&& ~~~ (1#32 <<< i)).getLsbD j = if j = i then false else x.getLsbD j := by
  rw [getLsbD_and, getLsbD_not, getLsbD_bit i small]
  by_cases same : j = i <;> simp [same, small]

-- The numbers of clear bits

namespace OneMoreUsed

variable (more : OneMoreUsed geo s s' k g idx)
include more

/-- The group has one clear bit less. -/
theorem groupClear_here : groupClear geo s' k g + 1 = groupClear geo s k g := by
  apply freeCount_use more.inGroup.index more.before more.after
  intro j small apart
  exact more.elsewhere k g j ⟨more.inGroup.group, small⟩ (by simp [apart])

/-- The other groups have as many clear bits as before. -/
theorem groupClear_elsewhere {k' g'} (group : g' < geo.blockGroups) (apart : (k', g') ≠ (k, g))
    : groupClear geo s' k' g' = groupClear geo s k' g' := by
  apply freeCount_congr
  intro j small
  apply more.elsewhere k' g' j ⟨group, small⟩
  intro same
  cases same
  exact apart rfl

theorem totalClear_here : totalClear geo s' k + 1 = totalClear geo s k := by
  have change := sum_change (groupClear geo s k) (groupClear geo s' k) more.inGroup.group
    fun g' group apart => more.groupClear_elsewhere group (by simp [apart])
  have here := more.groupClear_here
  unfold totalClear
  omega

theorem totalClear_elsewhere {k'} (apart : k' ≠ k)
    : totalClear geo s' k' = totalClear geo s k' := by
  apply sum_congr rfl
  intro g' mem
  exact more.groupClear_elsewhere (Finset.mem_range.mp mem) (by simp [apart])

end OneMoreUsed

end UnstableOS.Fs.Ext2
