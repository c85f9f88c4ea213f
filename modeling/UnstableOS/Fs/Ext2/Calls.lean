import UnstableOS.Fs.Ext2.Bitmaps

/-! What one call of `ext2_allocate` or `ext2_free` does to an image whose bitmaps and counters
agree.
-/

namespace UnstableOS.Fs.Ext2

open Lib Function State Nat List

/-- The cached groups are groups of the image. -/
def Cached (geo : Geometry) (s : State) : Prop :=
  ∀ k, ∀ i < s.lookasideTail k, s.lookaside k i < geo.blockGroups

/-- The bitmaps and the counters agree. Objects past the end of the filesystem and the first object
of each kind are marked as used.
-/
structure Consistent (geo : Geometry) (objects : Kind → ℕ) (s : State) : Prop where
  layout : Layout geo s
  groupCounter : ∀ k, ∀ g < geo.blockGroups, s.groupFree k g = groupClear geo s k g
  sbCounter : ∀ k, s.sbFree k = totalClear geo s k
  inside
    : ∀ k g idx, InGroup geo k g idx → used geo s k g idx = false
      → g * geo.perGroup k + idx < objects k
  first : ∀ k, used geo s k 0 0 = true
  cached : Cached geo s

/-- The cached groups are old ones, or groups with free objects. -/
def Refilled (geo : Geometry) (s s' : State) : Prop :=
  ∀ k, ∀ i < s'.lookasideTail k, (∃ j < s.lookasideTail k, s'.lookaside k i = s.lookaside k j)
      ∨ (s'.lookaside k i < geo.blockGroups ∧ s.groupFree k (s'.lookaside k i) ≠ 0)

/-- Only the cached groups differ. -/
structure CacheMove (geo : Geometry) (s s' : State) : Prop where
  bitmapBlock : s'.bitmapBlock = s.bitmapBlock
  groupFree : s'.groupFree = s.groupFree
  word : s'.word = s.word
  sbFree : s'.sbFree = s.sbFree
  freed : s'.freed = s.freed
  freedTail : s'.freedTail = s.freedTail
  refilled : Refilled geo s s'

/-- The object is taken from its group; the superblock is not updated yet. -/
structure Claim (geo : Geometry) (s s' : State) (k : Kind) (g idx : ℕ) : Prop
    extends OneMoreUsed geo s s' k g idx where
  bitmapBlock : s'.bitmapBlock = s.bitmapBlock
  counter : s'.groupFree k g + 1 = s.groupFree k g
  counters : ∀ k' g', (k', g') ≠ (k, g) → s'.groupFree k' g' = s.groupFree k' g'
  sbFree : s'.sbFree = s.sbFree
  freed : s'.freed = s.freed
  freedTail : s'.freedTail = s.freedTail
  refilled : Refilled geo s s'

variable {geo : Geometry} {objects : Kind → ℕ} {s s' s'' : State} {k : Kind} {g idx ret : ℕ}

theorem Refilled.refl : Refilled geo s s := fun _ i small => .inl ⟨i, small, rfl⟩

theorem Refilled.trans (refilled : Refilled geo s s') (refilled' : Refilled geo s' s'')
    (counters : ∀ k g, s'.groupFree k g ≠ 0 → s.groupFree k g ≠ 0)
    : Refilled geo s s'' := by
  intro k i small
  rcases refilled' k i small with ⟨j, smaller, same⟩ | ⟨group, free⟩
  · rw [same]
    exact refilled k j smaller
  · exact .inr ⟨group, counters k _ free⟩

theorem Refilled.cached (refilled : Refilled geo s s') (cached : Cached geo s) : Cached geo s' := by
  intro k i small
  rcases refilled k i small with ⟨j, smaller, same⟩ | ⟨group, _⟩
  · rw [same]
    exact cached k j smaller
  · exact group

namespace CacheMove

theorem refl : CacheMove geo s s := ⟨rfl, rfl, rfl, rfl, rfl, rfl, .refl⟩

section
variable (move : CacheMove geo s s')
include move

theorem trans (move' : CacheMove geo s' s'') : CacheMove geo s s'' where
  bitmapBlock := move'.bitmapBlock.trans move.bitmapBlock
  groupFree := move'.groupFree.trans move.groupFree
  word := move'.word.trans move.word
  sbFree := move'.sbFree.trans move.sbFree
  freed := move'.freed.trans move.freed
  freedTail := move'.freedTail.trans move.freedTail
  refilled := move.refilled.trans move'.refilled fun k g => by rw [move.groupFree]; exact id

theorem used_eq : used geo s' = used geo s := by
  funext k g
  simp [used, bitmapStart, move.word, move.bitmapBlock]

theorem consistent (agree : Consistent geo objects s) : Consistent geo objects s' := by
  have counts : groupClear geo s' = groupClear geo s := by
    funext k g
    rw [groupClear, move.used_eq, groupClear]
  refine {
    layout := agree.layout.congr move.bitmapBlock
    groupCounter := ?_
    sbCounter := ?_
    inside := ?_
    first := ?_
    cached := move.refilled.cached agree.cached
  }
  · rw [move.groupFree, counts]
    exact agree.groupCounter
  · intro k
    rw [move.sbFree, totalClear, counts]
    exact agree.sbCounter k
  · rw [move.used_eq]
    exact agree.inside
  · rw [move.used_eq]
    exact agree.first

theorem claim (claim : Claim geo s' s'' k g idx)
    : Claim geo s s'' k g idx where
  inGroup := claim.inGroup
  before := move.used_eq ▸ claim.before
  after := claim.after
  elsewhere := move.used_eq ▸ claim.elsewhere
  bitmapBlock := claim.bitmapBlock.trans move.bitmapBlock
  counter := move.groupFree ▸ claim.counter
  counters := move.groupFree ▸ claim.counters
  sbFree := claim.sbFree.trans move.sbFree
  freed := claim.freed.trans move.freed
  freedTail := claim.freedTail.trans move.freedTail
  refilled := move.refilled.trans claim.refilled fun k g => by rw [move.groupFree]; exact id

end

end CacheMove

theorem Claim.groupFree_ne_zero (claim : Claim geo s s' k g idx) (k' : Kind) (g' : ℕ)
    (free : s'.groupFree k' g' ≠ 0)
    : s.groupFree k' g' ≠ 0 := by
  by_cases same : (k', g') = (k, g)
  · cases same
    have counter := claim.counter
    omega
  · rwa [← claim.counters k' g' same]

theorem Claim.move (claim : Claim geo s s' k g idx) (move : CacheMove geo s' s'')
    : Claim geo s s'' k g idx where
  inGroup := claim.inGroup
  before := claim.before
  after := move.used_eq ▸ claim.after
  elsewhere := move.used_eq ▸ claim.elsewhere
  bitmapBlock := move.bitmapBlock.trans claim.bitmapBlock
  counter := move.groupFree ▸ claim.counter
  counters := move.groupFree ▸ claim.counters
  sbFree := move.sbFree.trans claim.sbFree
  freed := move.freed.trans claim.freed
  freedTail := move.freedTail.trans claim.freedTail
  refilled := claim.refilled.trans move.refilled claim.groupFree_ne_zero

/-- What a search returns: nothing, or an object that was free. -/
def Search (geo : Geometry) (k : Kind) (s s' : State) (ret : ℕ) : Prop :=
  (ret = 0 ∧ CacheMove geo s s')
    ∨ ∃ g idx, Claim geo s s' k g idx ∧ ret = g * geo.perGroup k + idx ∧ ret ≠ 0

theorem CacheMove.search (move : CacheMove geo s s') (search : Search geo k s' s'' ret)
    : Search geo k s s'' ret := by
  rcases search with ⟨zero, later⟩ | ⟨g, idx, claim, rest⟩
  · exact .inl ⟨zero, move.trans later⟩
  · exact .inr ⟨g, idx, move.claim claim, rest⟩

theorem Search.move (search : Search geo k s s' ret) (move : CacheMove geo s' s'')
    : Search geo k s s'' ret := by
  rcases search with ⟨zero, earlier⟩ | ⟨g, idx, claim, rest⟩
  · exact .inl ⟨zero, earlier.trans move⟩
  · exact .inr ⟨g, idx, claim.move move, rest⟩

theorem Search.move_of_zero (search : Search geo k s s' ret) (zero : ret = 0)
    : CacheMove geo s s' := by
  rcases search with ⟨_, move⟩ | ⟨_, _, _, _, nonzero⟩
  · exact move
  · exact absurd zero nonzero

-- The cache of groups

variable {list : ℕ → ℕ} {tail left locality number fuel : ℕ} {target : ℤ}

theorem setLookaside_move (valid
      : ∀ i < tail, (∃ j < s.lookasideTail k, list i = s.lookaside k j)
        ∨ (list i < geo.blockGroups ∧ s.groupFree k (list i) ≠ 0))
    : CacheMove geo s (s.setLookaside k list tail) := by
  refine ⟨rfl, rfl, rfl, rfl, rfl, rfl, ?_⟩
  intro k' i
  by_cases same : k' = k
  · subst k'
    simp only [setLookaside, update_self]
    exact valid i
  · simp only [setLookaside, update_of_ne same]
    exact fun small => .inl ⟨i, small, rfl⟩

theorem noteGroup_move (group : g < geo.blockGroups) : CacheMove geo s (noteGroup s k g) := by
  unfold noteGroup
  split
  · rename_i room
    apply setLookaside_move
    intro i small
    by_cases last : i = s.lookasideTail k
    · rw [last, update_self]
      exact .inr ⟨group, room.2⟩
    · rw [update_of_ne last]
      exact .inl ⟨i, by omega, rfl⟩
  · exact .refl

theorem lastVisited_move {n} : CacheMove geo s { s with lastVisited := n } :=
  ⟨rfl, rfl, rfl, rfl, rfl, rfl, .refl⟩

/-- Witness: induction on the groups that are left; the group that is visited is one of them. -/
theorem replenishLoop_move {found lastMatch} (bound : left ≤ geo.blockGroups - s.lastVisited)
    : CacheMove geo s (replenishLoop geo k left s found lastMatch).1 := by
  induction left generalizing s found lastMatch with
  | zero => exact .refl
  | succ left ih =>
    rw [replenishLoop]
    split
    · exact .refl
    split
    · exact .refl
    dsimp only
    split
    · exact lastVisited_move.trans (ih (by dsimp only; omega))
    have group : s.lastVisited < geo.blockGroups := by omega
    have noted : CacheMove geo s
        (noteGroup (noteGroup s .inode s.lastVisited) .block s.lastVisited) :=
      (noteGroup_move group).trans (noteGroup_move group)
    exact (noted.trans lastVisited_move).trans (ih (by dsimp only; omega))

theorem replenishOnce_move : CacheMove geo s (replenishOnce geo s k).1 := by
  unfold replenishOnce
  split
  · exact .refl
  have loop : CacheMove geo s (replenishLoop geo k (geo.blockGroups - s.lastVisited) s 0 0).1 :=
    replenishLoop_move (le_refl _)
  dsimp only
  split
  · rename_i eq
    rw [eq] at loop
    exact loop
  rename_i eq
  rw [eq] at loop
  split
  · exact loop
  split
  · exact loop.trans lastVisited_move
  · exact loop

theorem ext2ReplenishCache_move : CacheMove geo s (ext2ReplenishCache geo s k).1 := by
  have first : CacheMove geo s (replenishOnce geo s k).1 := replenishOnce_move
  unfold ext2ReplenishCache
  split
  · rename_i eq
    rw [eq] at first
    exact first.trans replenishOnce_move
  · exact first

-- One group

theorem ext2AllocateFromBgroup_empty {bgroup} (empty : s.groupFree k (descriptor bgroup) = 0)
    : ext2AllocateFromBgroup geo s k bgroup = (s, 0) := by
  simp [ext2AllocateFromBgroup, empty]

theorem ext2AllocateFromBgroup_cache (geo : Geometry) (s : State) (k : Kind) (bgroup : ℕ)
    : (ext2AllocateFromBgroup geo s k bgroup).1.lookasideTail = s.lookasideTail
      ∧ (ext2AllocateFromBgroup geo s k bgroup).1.lastVisited = s.lastVisited := by
  unfold ext2AllocateFromBgroup
  dsimp only
  split
  · exact ⟨rfl, rfl⟩
  split <;> exact ⟨rfl, rfl⟩

section
variable (agree : Consistent geo objects s)
include agree

theorem Consistent.object_lt (inGroup : InGroup geo k g idx)
    : g * geo.perGroup k + idx + 1 < 2 ^ 32 := by
  have next : (g + 1) * geo.perGroup k ≤ geo.blockGroups * geo.perGroup k :=
    mul_le_mul_right _ inGroup.group
  have limit := agree.layout.objects k
  have index := inGroup.index
  rw [Nat.add_mul, one_mul] at next
  omega

/-- The first object is in use, so an object that is free has a number that is not 0. -/
theorem Consistent.object_ne_zero (free : used geo s k g idx = false)
    : g * geo.perGroup k + idx ≠ 0 := by
  intro zero
  have positive := agree.layout.perGroup_pos k
  obtain ⟨product, rfl⟩ := Nat.add_eq_zero_iff.mp zero
  obtain rfl : g = 0 := by
    rcases Nat.mul_eq_zero.mp product with here | there
    · exact here
    · omega
  rw [agree.first k] at free
  cases free

/-- A group whose counter is not zero has a clear bit, and the first one is claimed. -/
theorem ext2AllocateFromBgroup_claims (group : g < geo.blockGroups) (some : s.groupFree k g ≠ 0)
    : ∃ s' idx, ext2AllocateFromBgroup geo s k g = (s', g * geo.perGroup k + idx)
      ∧ Claim geo s s' k g idx := by
  have layout := agree.layout
  rw [ext2AllocateFromBgroup]
  simp only [layout.descriptor_eq group, if_neg some]
  cases scan : scanBitmap (fun w => s.word (wordAt geo s k g w)) (geo.perGroup k)
      (geo.perGroup k + 1) 0 with
  | none =>
    -- all bits would be set, but the counter counts the clear ones
    rw [agree.groupCounter k g group] at some
    obtain ⟨idx, small, clear⟩ := exists_free some
    have set := scanBitmap_none (Nat.dvd_zero 32) scan (by omega) (zero_le idx) small
    rw [layout.bitAt_wordAt ⟨group, small⟩, clear] at set
    cases set
  | some idx =>
    obtain ⟨small, clear⟩ := scanBitmap_some (Nat.dvd_zero 32) scan
    have inGroup : InGroup geo k g idx := ⟨group, small⟩
    rw [layout.bitAt_wordAt inGroup] at clear
    have object := agree.object_lt inGroup
    have written := layout.used_setWord inGroup
      fun j width => getLsbD_or_bit (s.word (wordAt geo s k g (idx / 32))) (idx % 32) width
    have counter : s.groupFree k g < 2 ^ 16 := by
      rw [agree.groupCounter k g group]
      exact (freeCount_le _ _).trans_lt (layout.perGroup_lt k)
    refine ⟨_, idx, Prod.ext rfl (mod_eq_of_lt (by omega)), ?_⟩
    refine {
      inGroup := inGroup
      before := clear
      after := (written k g idx inGroup).trans (if_pos rfl)
      elsewhere := fun k' g' idx' inside apart => (written k' g' idx' inside).trans (if_neg apart)
      bitmapBlock := rfl
      counter := ?_
      counters := ?_
      sbFree := rfl
      freed := rfl
      freedTail := rfl
      refilled := fun _ i cached => .inl ⟨i, cached, rfl⟩
    }
    · simp only [setGroupFree, setWord, update_self]
      omega
    · intro k' g' apart
      simp only [setGroupFree, setWord]
      by_cases same : k' = k
      · subst k'
        have other : g' ≠ g := fun eq => apart (eq ▸ rfl)
        rw [update_self, update_of_ne other]
      · rw [update_of_ne same]

theorem ext2AllocateFromBgroup_search (group : g < geo.blockGroups)
    : Search geo k s (ext2AllocateFromBgroup geo s k g).1 (ext2AllocateFromBgroup geo s k g).2 := by
  by_cases empty : s.groupFree k g = 0
  · rw [← agree.layout.descriptor_eq group] at empty
    rw [ext2AllocateFromBgroup_empty empty]
    exact .inl ⟨rfl, .refl⟩
  · obtain ⟨s', idx, result, claim⟩ := ext2AllocateFromBgroup_claims agree group empty
    rw [result]
    exact .inr ⟨g, idx, claim, rfl, agree.object_ne_zero claim.before⟩

end

-- Several groups

/-- The groups that are read past the end of the descriptor table look full. -/
def WindowOk (geo : Geometry) (s : State) (k : Kind) (groups : List ℕ) : Prop :=
  ∀ g ∈ groups, geo.blockGroups ≤ g → s.groupFree k (descriptor g) = 0

theorem scanGroups_search (agree : Consistent geo objects s) {groups}
    (window : WindowOk geo s k groups)
    : Search geo k s (scanGroups geo k groups s).1 (scanGroups geo k groups s).2 := by
  induction groups generalizing s with
  | nil => exact .inl ⟨rfl, .refl⟩
  | cons g rest ih =>
    have here : Search geo k s (ext2AllocateFromBgroup geo s k g).1
        (ext2AllocateFromBgroup geo s k g).2 := by
      by_cases group : g < geo.blockGroups
      · exact ext2AllocateFromBgroup_search agree group
      · rw [ext2AllocateFromBgroup_empty (window g (by simp) (by omega))]
        exact .inl ⟨rfl, .refl⟩
    rw [scanGroups]
    split
    · rename_i s₁ result
      rw [result] at here
      have move := here.move_of_zero rfl
      have window₁ : WindowOk geo s₁ k rest := by
        intro h mem
        rw [move.groupFree]
        exact window h (mem_cons_of_mem _ mem)
      exact move.search (ih (move.consistent agree) window₁)
    · rename_i result
      rw [result] at here
      exact here

/-- Witness: induction on the length of the list, whose elements are groups of the image. -/
theorem drainLookaside_search (agree : Consistent geo objects s) (all : s.lookasideTail k = left)
    : Search geo k s (drainLookaside geo k left s).1 (drainLookaside geo k left s).2
      ∧ ((drainLookaside geo k left s).2 = 0
        → (drainLookaside geo k left s).1.lookasideTail k = 0
          ∧ (drainLookaside geo k left s).1.lastVisited = s.lastVisited) := by
  induction left generalizing s with
  | zero => exact ⟨.inl ⟨rfl, .refl⟩, fun _ => ⟨all, rfl⟩⟩
  | succ left ih =>
    have group := agree.cached k left (by omega)
    have here : Search geo k s _ _ := ext2AllocateFromBgroup_search agree group
    obtain ⟨tails, visited⟩ := ext2AllocateFromBgroup_cache geo s k (s.lookaside k left)
    rw [drainLookaside]
    cases result : ext2AllocateFromBgroup geo s k (s.lookaside k left) with
    | mk s₁ ret =>
      rw [result] at here tails visited
      have popped : CacheMove geo s₁ (s₁.setLookaside k (s₁.lookaside k) left) := by
        apply setLookaside_move
        intro i small
        exact .inl ⟨i, by rw [tails]; omega, rfl⟩
      have here := here.move popped
      dsimp only
      split
      · rename_i nonzero
        exact ⟨here, fun zero => absurd zero nonzero⟩
      rename_i zero
      obtain rfl : ret = 0 := not_not.mp zero
      have move := here.move_of_zero rfl
      obtain ⟨search, rest⟩ := ih (move.consistent agree) (by simp [setLookaside])
      exact ⟨move.search search, fun zero => ⟨(rest zero).1, (rest zero).2.trans visited⟩⟩

-- Allocation

/-- What `ext2_allocate` returns: nothing, or the number of an object that was free. -/
def Allocated (geo : Geometry) (k : Kind) (s s' : State) (number : ℕ) : Prop :=
  (number = 0 ∧ CacheMove geo s s')
    ∨ ∃ g idx s₁, Claim geo s s₁ k g idx ∧ s' = s₁.takeSbFree k
      ∧ number = g * geo.perGroup k + idx + k.resultOffset geo

/-- No recently freed object is near, the first cached group that is near has free objects, and no
group past the end is taken for one with free objects.
-/
structure SafeAllocate (geo : Geometry) (s : State) (ideal : ℤ) (k : Kind) : Prop where
  notFreed
    : ∀ i < s.freedTail k, isNear (s.freed k i) ideal (k.freedLocality geo) = false
  cachedFree
    : ∀ i < s.lookasideTail k,
        isNear (s.lookaside k i) (idealBgroup geo ideal k) bgroupLocality = true
        → (∀ j < i, isNear (s.lookaside k j) (idealBgroup geo ideal k) bgroupLocality = false)
        → s.groupFree k (s.lookaside k i) ≠ 0
  window : WindowOk geo s k (groupWindow (idealBgroup geo ideal k))

theorem firstNear_eq_none
    : firstNear list tail target locality = none
      ↔ ∀ i < tail, isNear (list i) target locality = false := by
  simp [firstNear]

theorem firstNear_eq_some {i} (found : firstNear list tail target locality = some i)
    : i < tail ∧ isNear (list i) target locality = true
      ∧ ∀ j < i, isNear (list j) target locality = false := by
  obtain ⟨near, small, earlier⟩ := find?_range_eq_some.mp found
  exact ⟨mem_range.mp small, near, fun j below => by simpa using earlier j below⟩

theorem Kind.resultOffset_le (geo : Geometry) (k : Kind) : k.resultOffset geo ≤ 1 := by
  cases k with
  | inode => exact le_refl 1
  | block =>
    rw [Kind.resultOffset]
    split
    · exact zero_le 1
    · exact le_refl 1

theorem Consistent.number_eq (agree : Consistent geo objects s) (inGroup : InGroup geo k g idx)
    : (g * geo.perGroup k + idx + k.resultOffset geo) % 2 ^ 32
      = g * geo.perGroup k + idx + k.resultOffset geo := by
  have object := agree.object_lt inGroup
  have offset := k.resultOffset_le geo
  exact mod_eq_of_lt (by omega)

theorem Search.allocated (agree : Consistent geo objects s) (search : Search geo k s s' ret)
    (nonzero : ret ≠ 0)
    : Allocated geo k s (s'.takeSbFree k) ((ret + k.resultOffset geo) % 2 ^ 32)
      ∧ (ret + k.resultOffset geo) % 2 ^ 32 ≠ 0 := by
  rcases search with ⟨zero, _⟩ | ⟨g, idx, claim, rfl, _⟩
  · exact absurd zero nonzero
  · rw [agree.number_eq claim.inGroup]
    exact ⟨.inr ⟨g, idx, s', claim, rfl, rfl⟩, by omega⟩

theorem CacheMove.allocated (move : CacheMove geo s s') (allocated : Allocated geo k s' s'' number)
    : Allocated geo k s s'' number := by
  rcases allocated with ⟨zero, later⟩ | ⟨g, idx, s₁, claim, rest⟩
  · exact .inl ⟨zero, move.trans later⟩
  · exact .inr ⟨g, idx, s₁, move.claim claim, rest⟩

section
variable (agree : Consistent geo objects s)
include agree

/-- One round of the outer loop: there is no space, an object is found, or the search goes on with
an empty list.
-/
theorem searchAll_round (k : Kind)
    : ((ext2ReplenishCache geo s k).2 = .noSpace
        ∧ ∀ fuel, searchAll geo k (fuel + 1) s = some ((ext2ReplenishCache geo s k).1, 0))
      ∨ (∃ t number, Allocated geo k s t number ∧ number ≠ 0
        ∧ ∀ fuel, searchAll geo k (fuel + 1) s = some (t, number))
      ∨ ((ext2ReplenishCache geo s k).2 ≠ .noSpace ∧ ∃ t, CacheMove geo s t
        ∧ t.lookasideTail k = 0 ∧ t.lastVisited = (ext2ReplenishCache geo s k).1.lastVisited
        ∧ (s.lookasideTail k = 0 → (ext2ReplenishCache geo s k).1.lookasideTail k = 0)
        ∧ ∀ fuel, searchAll geo k (fuel + 1) s = searchAll geo k fuel t) := by
  have filled : CacheMove geo s (ext2ReplenishCache geo s k).1 := ext2ReplenishCache_move
  simp only [searchAll]
  generalize ext2ReplenishCache geo s k = refill at filled ⊢
  obtain ⟨s₁, r⟩ := refill
  by_cases full : r = .noSpace
  · subst r
    exact .inl ⟨rfl, fun _ => rfl⟩
  have agree₁ := filled.consistent agree
  obtain ⟨drained, emptied⟩ := drainLookaside_search agree₁ (k := k) rfl
  simp only [full]
  by_cases zero : (drainLookaside geo k (s₁.lookasideTail k) s₁).2 = 0
  · obtain ⟨empty, same⟩ := emptied zero
    refine .inr (.inr ⟨full, _, filled.trans (drained.move_of_zero zero), empty, same,
      fun start => ?_,
      fun fuel => if_neg (not_not.mpr zero)⟩)
    -- the last group of a list that was refilled has a free object
    cases length : s₁.lookasideTail k with
    | zero => rfl
    | succ left =>
      rcases filled.refilled k left (by dsimp only; omega) with ⟨j, small, _⟩ | ⟨group, free⟩
      · omega
      rw [← filled.groupFree] at free
      obtain ⟨t, idx, claimed, claim⟩ := ext2AllocateFromBgroup_claims agree₁ group free
      have nonzero := agree₁.object_ne_zero claim.before
      simp only [length, drainLookaside, claimed, if_pos nonzero] at zero
      exact absurd zero nonzero
  · obtain ⟨allocated, nonzero⟩ := drained.allocated agree₁ zero
    exact .inr (.inl ⟨_, _, filled.allocated allocated, nonzero, fun _ => if_pos zero⟩)

/-- Witness: induction on the rounds; a round that returns nothing only moves the caches. -/
theorem searchAll_allocated (result : searchAll geo k fuel s = some (s', number))
    : Allocated geo k s s' number := by
  induction fuel generalizing s with
  | zero => cases result
  | succ fuel ih =>
    rcases searchAll_round agree k with ⟨_, eq⟩ | ⟨t, n, allocated, _, eq⟩
      | ⟨_, t, move, _, _, _, eq⟩
    all_goals rw [eq] at result
    · cases result
      exact .inl ⟨rfl, ext2ReplenishCache_move⟩
    · cases result
      exact allocated
    · exact move.allocated (ih (move.consistent agree) result)

/-- An object is found near the ideal place, or the outer loop is entered. -/
theorem ext2Allocate_cases {ideal} (safe : SafeAllocate geo s ideal k)
    : (∃ t number, Allocated geo k s t number ∧ number ≠ 0
        ∧ ∀ fuel, ext2Allocate geo fuel s ideal k = some (t, number))
      ∨ ∃ t, CacheMove geo s t
        ∧ ∀ fuel, ext2Allocate geo fuel s ideal k = searchAll geo k fuel t := by
  simp only [ext2Allocate, firstNear_eq_none.mpr safe.notFreed]
  split
  · rename_i i near
    obtain ⟨small, here, earlier⟩ := firstNear_eq_some near
    have group := agree.cached k i small
    obtain ⟨s₁, idx, claimed, claim⟩ := ext2AllocateFromBgroup_claims agree group
      (safe.cachedFree i small here earlier)
    have nonzero := agree.object_ne_zero claim.before
    simp only [claimed, if_neg nonzero]
    obtain ⟨allocated, nonzero⟩ :=
      Search.allocated agree (.inr ⟨_, idx, claim, rfl, nonzero⟩) nonzero
    exact .inl ⟨_, _, allocated, nonzero, fun _ => rfl⟩
  · have scanned := scanGroups_search agree safe.window
    split
    · rename_i s₁ eq
      rw [eq] at scanned
      exact .inr ⟨s₁, scanned.move_of_zero rfl, fun _ => rfl⟩
    · rename_i s₁ ret nonzero eq
      rw [eq] at scanned
      obtain ⟨allocated, nonzero⟩ := scanned.allocated agree nonzero
      exact .inl ⟨_, _, allocated, nonzero, fun _ => rfl⟩

theorem ext2Allocate_allocated {ideal} (safe : SafeAllocate geo s ideal k)
    (result : ext2Allocate geo fuel s ideal k = some (s', number))
    : Allocated geo k s s' number := by
  rcases ext2Allocate_cases agree safe with ⟨t, n, allocated, _, eq⟩ | ⟨t, move, eq⟩
  all_goals rw [eq] at result
  · cases result
    exact allocated
  · exact move.allocated (searchAll_allocated (move.consistent agree) result)

/-- The counters of an image that has claimed an object. -/
theorem Claim.consistent (claim : Claim geo s s' k g idx)
    : Consistent geo objects (s'.takeSbFree k) := by
  have total := claim.totalClear_here
  have totalLt := totalClear_lt agree.layout k
  refine {
    layout := agree.layout.congr claim.bitmapBlock
    groupCounter := ?_
    sbCounter := ?_
    inside := ?_
    first := ?_
    cached := claim.refilled.cached agree.cached
  }
  · intro k' g' group
    show s'.groupFree k' g' = groupClear geo s' k' g'
    by_cases same : (k', g') = (k, g)
    · cases same
      have counter := claim.counter
      have clear := claim.groupClear_here
      have before := agree.groupCounter k g group
      omega
    · rw [claim.counters k' g' same, claim.groupClear_elsewhere group same]
      exact agree.groupCounter k' g' group
  · intro k'
    show _ = totalClear geo s' k'
    by_cases same : k' = k
    · subst k'
      have before := agree.sbCounter k
      simp only [takeSbFree, setSbFree, update_self, claim.sbFree]
      omega
    · simp only [takeSbFree, setSbFree, update_of_ne same, claim.sbFree]
      rw [claim.totalClear_elsewhere same]
      exact agree.sbCounter k'
  · intro k' g' idx' inGroup free
    apply agree.inside k' g' idx' inGroup
    by_cases same : (k', g', idx') = (k, g, idx)
    · cases same
      exact claim.before
    · exact (claim.elsewhere k' g' idx' inGroup same).symm.trans free
  · intro k'
    have inGroup : InGroup geo k' 0 0 :=
      ⟨zero_lt_of_lt claim.inGroup.group, agree.layout.perGroup_pos k'⟩
    by_cases same : (k', 0, 0) = (k, g, idx)
    · cases same
      exact claim.after
    · exact (claim.elsewhere k' 0 0 inGroup same).trans (agree.first k')

end

-- Release

/-- The object that a number stands for. -/
def objectOf (geo : Geometry) (k : Kind) (number : ℕ) : ℕ := number - k.resultOffset geo

/-- Whether the bit of the number is set. -/
def marked (geo : Geometry) (s : State) (k : Kind) (number : ℕ) : Bool :=
  used geo s k (objectOf geo k number / geo.perGroup k) (objectOf geo k number % geo.perGroup k)

/-- The number of an object of the filesystem. -/
structure InsideFs (geo : Geometry) (objects : Kind → ℕ) (k : Kind) (number : ℕ) : Prop where
  offset : k.resultOffset geo ≤ number
  group : objectOf geo k number / geo.perGroup k < geo.blockGroups
  object : objectOf geo k number < objects k

theorem objectOf_number (geo : Geometry) (k : Kind) (g idx : ℕ)
    : objectOf geo k (g * geo.perGroup k + idx + k.resultOffset geo) = g * geo.perGroup k + idx :=
  Nat.add_sub_cancel _ _

section
variable (inGroup : InGroup geo k g idx)
include inGroup

theorem InGroup.div_eq
    : (g * geo.perGroup k + idx) / geo.perGroup k = g := by
  have positive := zero_lt_of_lt inGroup.index
  rw [mul_comm, mul_add_div positive, div_eq_of_lt inGroup.index, add_zero]

theorem InGroup.mod_eq
    : (g * geo.perGroup k + idx) % geo.perGroup k = idx := by
  rw [mul_comm, mul_add_mod, mod_eq_of_lt inGroup.index]

theorem marked_number (s : State)
    : marked geo s k (g * geo.perGroup k + idx + k.resultOffset geo) = used geo s k g idx := by
  rw [marked, objectOf_number, inGroup.div_eq, inGroup.mod_eq]

end

/-- The bits of the numbers after one more object is used. -/
theorem OneMoreUsed.marked_eq (more : OneMoreUsed geo s s' k g idx) (layout : Layout geo s)
    {k'} (inside : InsideFs geo objects k' number)
    (apart : (k', number) ≠ (k, g * geo.perGroup k + idx + k.resultOffset geo))
    : marked geo s' k' number = marked geo s k' number := by
  apply more.elsewhere _ _ _ ⟨inside.group, mod_lt _ (layout.perGroup_pos k')⟩
  intro same
  cases same
  apply apart
  rw [div_add_mod', objectOf, Nat.sub_add_cancel inside.offset]

/-- The number of an object that is claimed. -/
theorem Claim.number_spec (claim : Claim geo s s' k g idx) (agree : Consistent geo objects s)
    : let number := g * geo.perGroup k + idx + k.resultOffset geo
      marked geo s k number = false ∧ InsideFs geo objects k number
      ∧ marked geo (s'.takeSbFree k) k number = true ∧ objectOf geo k number ≠ 0 := by
  have inGroup := claim.inGroup
  refine ⟨(marked_number inGroup s).trans claim.before, ⟨le_add_left _ _, ?_, ?_⟩, ?_, ?_⟩
  · rw [objectOf_number, inGroup.div_eq]
    exact inGroup.group
  · rw [objectOf_number]
    exact agree.inside k g idx inGroup claim.before
  · exact (marked_number inGroup _).trans claim.after
  · rw [objectOf_number]
    exact agree.object_ne_zero claim.before

/-- The object is given back to its group and counted in both counters. -/
structure Release (geo : Geometry) (s s' : State) (k : Kind) (g idx : ℕ) : Prop where
  more : OneMoreUsed geo s' s k g idx
  bitmapBlock : s'.bitmapBlock = s.bitmapBlock
  counter : s'.groupFree k g = (s.groupFree k g + 1) % 2 ^ 16
  counters : ∀ k' g', (k', g') ≠ (k, g) → s'.groupFree k' g' = s.groupFree k' g'
  sbCounter : s'.sbFree k = (s.sbFree k + 1) % 2 ^ 32
  sbCounters : ∀ k' ≠ k, s'.sbFree k' = s.sbFree k'
  cached : Cached geo s → Cached geo s'

/-- The list of recently freed objects has no part in it. -/
theorem Release.setFreed (release : Release geo s s' k g idx) (list : ℕ → ℕ) (tail : ℕ)
    : Release geo s (s'.setFreed k list tail) k g idx where
  more := { release.more with }
  bitmapBlock := release.bitmapBlock
  counter := release.counter
  counters := release.counters
  sbCounter := release.sbCounter
  sbCounters := release.sbCounters
  cached := release.cached

theorem ext2Free_releases (agree : Consistent geo objects s)
    (inside : InsideFs geo objects k number) (notFirst : objectOf geo k number ≠ 0)
    (set : marked geo s k number = true)
    : Release geo s (ext2Free geo s number k) k (objectOf geo k number / geo.perGroup k)
        (objectOf geo k number % geo.perGroup k) := by
  have layout := agree.layout
  have nonzero : number ≠ 0 := by
    intro zero
    exact notFirst (by rw [objectOf, zero, Nat.zero_sub])
  rw [marked] at set
  rw [ext2Free, if_neg nonzero]
  dsimp only
  rw [← objectOf, layout.descriptor_eq inside.group]
  have inGroup : InGroup geo k (objectOf geo k number / geo.perGroup k)
      (objectOf geo k number % geo.perGroup k) :=
    ⟨inside.group, mod_lt _ (layout.perGroup_pos k)⟩
  generalize objectOf geo k number / geo.perGroup k = g at set inGroup ⊢
  generalize objectOf geo k number % geo.perGroup k = idx at set inGroup ⊢
  have written := layout.used_setWord inGroup
    fun j width => getLsbD_and_not_bit (s.word (wordAt geo s k g (idx / 32))) (idx % 32) width
  generalize s.word (wordAt geo s k g (idx / 32)) &&& ~~~ (1#32 <<< (idx % 32)) = value at written ⊢
  generalize wordAt geo s k g (idx / 32) = a at written ⊢
  have released : Release geo s
      (((s.setWord a value).setSbFree k ((s.setWord a value).sbFree k + 1)).setGroupFree k g
        (s.groupFree k g + 1)) k g idx := by
    refine {
      more := {
        inGroup := inGroup
        before := (written k g idx inGroup).trans (if_pos rfl)
        after := set
        elsewhere := fun k' g' idx' inside' apart =>
          ((written k' g' idx' inside').trans (if_neg apart)).symm
      }
      bitmapBlock := rfl
      counter := ?_
      counters := ?_
      sbCounter := ?_
      sbCounters := ?_
      cached := id
    }
    · simp [setGroupFree]
    · intro k' g' apart
      simp only [setGroupFree, setSbFree, setWord]
      by_cases same : k' = k
      · subst k'
        have other : g' ≠ g := fun eq => apart (eq ▸ rfl)
        rw [update_self, update_of_ne other]
      · rw [update_of_ne same]
    · simp [setGroupFree, setSbFree, setWord]
    · intro k' other
      simp [setGroupFree, setSbFree, setWord, update_of_ne other]
  split
  · exact released.setFreed _ _
  · exact released

theorem Release.consistent (agree : Consistent geo objects s) (release : Release geo s s' k g idx)
    (notFirst : (g, idx) ≠ (0, 0)) (inside : g * geo.perGroup k + idx < objects k)
    : Consistent geo objects s' := by
  have more := release.more
  have layout := agree.layout.congr release.bitmapBlock
  refine {
    layout := layout
    groupCounter := ?_
    sbCounter := ?_
    inside := ?_
    first := ?_
    cached := release.cached agree.cached
  }
  · intro k' g' group
    by_cases same : (k', g') = (k, g)
    · cases same
      have clear := more.groupClear_here
      have limit : groupClear geo s' k g < 2 ^ 16 :=
        (freeCount_le _ _).trans_lt (layout.perGroup_lt k)
      have before := agree.groupCounter k g group
      rw [release.counter, before, clear, mod_eq_of_lt limit]
    · rw [release.counters k' g' same, ← more.groupClear_elsewhere group same]
      exact agree.groupCounter k' g' group
  · intro k'
    by_cases same : k' = k
    · subst k'
      rw [release.sbCounter, agree.sbCounter k, more.totalClear_here,
        mod_eq_of_lt (totalClear_lt layout k)]
    · rw [release.sbCounters k' same, ← more.totalClear_elsewhere same]
      exact agree.sbCounter k'
  · intro k' g' idx' inGroup free
    by_cases same : (k', g', idx') = (k, g, idx)
    · cases same
      exact inside
    · exact agree.inside k' g' idx' inGroup ((more.elsewhere k' g' idx' inGroup same).trans free)
  · intro k'
    have inGroup : InGroup geo k' 0 0 :=
      ⟨zero_lt_of_lt more.inGroup.group, agree.layout.perGroup_pos k'⟩
    have apart : (k', 0, 0) ≠ (k, g, idx) := by
      intro same
      cases same
      exact notFirst rfl
    exact (more.elsewhere k' 0 0 inGroup apart).symm.trans (agree.first k')

end UnstableOS.Fs.Ext2
