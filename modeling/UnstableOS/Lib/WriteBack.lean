import Mathlib.Data.List.Nodup

/-! Write-back caches: chains of lines in front of a backing store.
A line is in the chain its key is hashed to. A dirty line is written to the place of its key before
it is forgotten; what is seen through the cache is the line of a key, or else its place.
-/

namespace UnstableOS.Lib.WriteBack

open Function List

/-- What the cache has for a key. -/
structure Line (K V : Type*) where
  key : K
  dirty : Bool
  value : V
deriving DecidableEq

/-- The backing store and the chains. -/
structure Cache (I B K V : Type*) where
  backing : B → V
  chains : I → List (Line K V)

variable {I B K V : Type*} [DecidableEq K]

/-- A function is applied to the first line with a key. -/
def updateFirst (k : K) (f : Line K V → Line K V) : List (Line K V) → List (Line K V)
  | [] => []
  | line :: rest => if line.key = k then f line :: rest else line :: updateFirst k f rest

section Chains
variable {k k' : K} {f : Line K V → Line K V} {chain : List (Line K V)}

theorem updateFirst_keys (keeps : ∀ line, (f line).key = line.key)
    : (updateFirst k f chain).map Line.key = chain.map Line.key := by
  induction chain with
  | nil => rfl
  | cons line rest ih =>
    simp only [updateFirst]
    split
    · rw [map_cons, keeps, map_cons]
    · rw [map_cons, ih, map_cons]

theorem find_updateFirst (keeps : ∀ line, (f line).key = line.key)
    : (updateFirst k f chain).find? (·.key = k')
        = if k' = k then (chain.find? (·.key = k)).map f else chain.find? (·.key = k') := by
  induction chain with
  | nil => simp [updateFirst]
  | cons line rest ih =>
    simp only [updateFirst]
    split
    next here =>
      by_cases same : k' = k
      · simp [same, keeps, here]
      · have other : line.key ≠ k' := fun isKey => same (isKey.symm.trans here)
        simp [same, keeps, other]
    next notHere =>
      by_cases same : k' = k
      · subst same
        simp [notHere, ih]
      · rw [find?_cons, ih, if_neg same, if_neg same, find?_cons]

/-- In a chain without two lines for a key a line is found by its key. -/
theorem find_of_mem {line} (nodup : (chain.map Line.key).Nodup) (mem : line ∈ chain)
    : chain.find? (·.key = line.key) = some line := by
  induction chain with
  | nil => cases mem
  | cons first rest ih =>
    obtain ⟨notIn, restNodup⟩ := nodup_cons.mp nodup
    rcases mem_cons.mp mem with rfl | later
    · simp
    have other : first.key ≠ line.key := by
      intro same
      exact notIn (same ▸ mem_map_of_mem later)
    simp only [find?_cons, other, decide_false]
    exact ih restNodup later

theorem find_none_of_not_mem (absent : k ∉ chain.map Line.key) : chain.find?
    (·.key = k) = none := by
  refine find?_eq_none.mpr fun line mem same => absent ?_
  rw [← of_decide_eq_true same]
  exact mem_map_of_mem mem

end Chains

-- Views

namespace Cache

variable (place : K → B) (hash : K → I)

/-- The line of a key. -/
def find (c : Cache I B K V) (k : K) : Option (Line K V) := (c.chains (hash k)).find? (·.key = k)

/-- What is seen for a key. -/
def view (c : Cache I B K V) (k : K) : V :=
  match c.find hash k with
  | some line => line.value
  | none => c.backing (place k)

/-- (Coherent place hash valid c) holds when each line is in its chain, alone for its key, and
agrees with its place if it is not dirty.
-/
structure Coherent (valid : K → Prop) (c : Cache I B K V) : Prop where
  hashed : ∀ i, ∀ line ∈ c.chains i, hash line.key = i ∧ valid line.key
  nodup : ∀ i, ((c.chains i).map Line.key).Nodup
  clean : ∀ k line, c.find hash k = some line → line.dirty = false
    → line.value = c.backing (place k)

variable {place hash} {valid : K → Prop} {c c' : Cache I B K V} {k k' : K} {line : Line K V}

theorem view_of_find (found : c.find hash k = some line) : c.view place hash k = line.value := by
  rw [view, found]

theorem view_of_none (missing : c.find hash k = none)
    : c.view place hash k = c.backing (place k) := by
  rw [view, missing]

theorem view_congr (finds : c'.find hash k = c.find hash k)
    (same : c.find hash k = none → c'.backing (place k) = c.backing (place k))
    : c'.view place hash k = c.view place hash k := by
  cases found : c.find hash k with
  | none => rw [view_of_none found, view_of_none (finds.trans found), same found]
  | some line => rw [view_of_find found, view_of_find (finds.trans found)]

theorem key_of_find (found : c.find hash k = some line) : line.key = k := by
  have isKey := find?_some found
  exact of_decide_eq_true isKey

theorem Coherent.valid_of_find (coherent : Coherent place hash valid c)
    (found : c.find hash k = some line)
    : valid k := by
  rw [← key_of_find found]
  exact (coherent.hashed _ line (mem_of_find?_eq_some found)).2

-- A chain changes

variable [DecidableEq I]

def setChain (c : Cache I B K V) (i : I) (chain : List (Line K V)) : Cache I B K V :=
  { c with chains := update c.chains i chain }

omit [DecidableEq K] in
theorem setChain_chains (c : Cache I B K V) (i : I) (chain : List (Line K V))
    : (c.setChain i chain).chains i = chain :=
  update_self ..

omit [DecidableEq K] in
theorem setChain_setChain (c : Cache I B K V) (i : I) (first second : List (Line K V))
    : (c.setChain i first).setChain i second = c.setChain i second := by
  simp only [setChain, update_idem]

omit [DecidableEq K] in
theorem setChain_chains_of_ne {i j : I} (other : j ≠ i) (chain : List (Line K V))
    : (c.setChain i chain).chains j = c.chains j :=
  update_of_ne other ..

/-- A line is added at the end of its chain. -/
theorem find_add (missing : c.find hash line.key = none) (k : K)
    : (c.setChain (hash line.key) (c.chains (hash line.key) ++ [line])).find hash k
        = if k = line.key then some line else c.find hash k := by
  unfold find
  by_cases sameChain : hash k = hash line.key
  · rw [sameChain, setChain_chains, find?_append]
    split
    next same =>
      subst same
      rw [show (c.chains (hash line.key)).find? (·.key = line.key) = none from missing]
      simp
    next other => simp [Ne.symm other]
  · have other : k ≠ line.key := fun same => sameChain (same ▸ rfl)
    rw [setChain_chains_of_ne sameChain, if_neg other]

theorem Coherent.add (coherent : Coherent place hash valid c)
    (missing : c.find hash line.key = none) (isValid : valid line.key)
    (agrees : line.dirty = false → line.value = c.backing (place line.key))
    : Coherent place hash valid
        (c.setChain (hash line.key) (c.chains (hash line.key) ++ [line])) := by
  refine ⟨fun i other mem => ?_, fun i => ?_, fun k other found notDirty => ?_⟩
  · by_cases sameChain : i = hash line.key
    · rw [sameChain, setChain_chains] at mem
      rcases mem_append.mp mem with before | isLast
      · exact sameChain ▸ coherent.hashed _ other before
      · rw [mem_singleton.mp isLast]
        exact ⟨sameChain.symm, isValid⟩
    · rw [setChain_chains_of_ne sameChain] at mem
      exact coherent.hashed i other mem
  · by_cases sameChain : i = hash line.key
    · rw [sameChain, setChain_chains, map_append]
      refine concat_eq_append ▸ (coherent.nodup _).concat fun isIn => ?_
      obtain ⟨other, mem, same⟩ := mem_map.mp isIn
      exact find?_eq_none.mp missing other mem (decide_eq_true same)
    · rw [setChain_chains_of_ne sameChain]
      exact coherent.nodup i
  · rw [find_add missing] at found
    split at found
    next same =>
      cases found
      rw [same]
      exact agrees notDirty
    · exact coherent.clean k other found notDirty

section Update
variable {f : Line K V → Line K V} (keeps : ∀ line, (f line).key = line.key)
include keeps

theorem find_update (k' : K)
    : (c.setChain (hash k) (updateFirst k f (c.chains (hash k)))).find hash k'
        = if k' = k then (c.find hash k).map f else c.find hash k' := by
  unfold find
  by_cases sameChain : hash k' = hash k
  · rw [sameChain, setChain_chains, find_updateFirst keeps]
  · have other : k' ≠ k := fun same => sameChain (same ▸ rfl)
    rw [setChain_chains_of_ne sameChain, if_neg other]

/-- The new line is dirty, or agrees with the backing store. -/
theorem Coherent.update (coherent : Coherent place hash valid c)
    (agrees : ∀ line, c.find hash k = some line → (f line).dirty = false →
      (f line).value = c.backing (place k))
    : Coherent place hash valid (c.setChain (hash k) (updateFirst k f (c.chains (hash k)))) := by
  have keys (i : I) : ((c.setChain (hash k) (updateFirst k f (c.chains (hash k)))).chains i).map
      Line.key = (c.chains i).map Line.key := by
    by_cases same : i = hash k
    · rw [same, setChain_chains, updateFirst_keys keeps]
    · rw [setChain_chains_of_ne same]
  refine ⟨fun i line mem => ?_, fun i => keys i ▸ coherent.nodup i,
    fun k' line isFound notDirty => ?_⟩
  · have isKey := keys i ▸ mem_map_of_mem mem
    obtain ⟨before, wasMember, same⟩ := mem_map.mp isKey
    exact same ▸ coherent.hashed i before wasMember
  · rw [find_update keeps] at isFound
    split at isFound
    next same =>
      obtain ⟨before, wasFound, rfl⟩ := Option.map_eq_some_iff.mp isFound
      rw [same]
      exact agrees before wasFound notDirty
    · exact coherent.clean k' line isFound notDirty

end Update

section
variable (coherent : Coherent place hash valid c) {i : I} {rest : List (Line K V)}
    (chain : c.chains i = line :: rest)
include coherent chain

/-- The first line of a chain is dropped. -/
theorem find_tail (k : K)
    : (c.setChain i rest).find hash k = if k = line.key then none else c.find hash k := by
  have hashed := (coherent.hashed i line (chain ▸ mem_cons_self)).1
  have nodup := coherent.nodup i
  rw [chain, map_cons, nodup_cons] at nodup
  unfold find
  by_cases sameChain : hash k = i
  · rw [sameChain, setChain_chains, chain]
    split
    next same =>
      rw [same]
      exact find_none_of_not_mem nodup.1
    next other => simp [Ne.symm other]
  · have other : k ≠ line.key := fun same => sameChain (same ▸ hashed)
    rw [setChain_chains_of_ne sameChain, if_neg other]

theorem Coherent.tail : Coherent place hash valid (c.setChain i rest) := by
  refine ⟨fun j other mem => ?_, fun j => ?_, fun k other found notDirty => ?_⟩
  · by_cases sameChain : j = i
    · rw [sameChain, setChain_chains] at mem
      exact sameChain ▸ coherent.hashed i other (chain ▸ mem_cons_of_mem _ mem)
    · rw [setChain_chains_of_ne sameChain] at mem
      exact coherent.hashed j other mem
  · by_cases sameChain : j = i
    · have nodup := coherent.nodup i
      rw [chain, map_cons, nodup_cons] at nodup
      rw [sameChain, setChain_chains]
      exact nodup.2
    · rw [setChain_chains_of_ne sameChain]
      exact coherent.nodup j
  · rw [find_tail coherent chain] at found
    split at found
    · cases found
    · exact coherent.clean k other found notDirty

end

-- Lines are written back

omit [DecidableEq I]
variable [DecidableEq B]

variable (place) in
/-- A line is written to its place if it is dirty. -/
def writeLine (c : Cache I B K V) (line : Line K V) : Cache I B K V :=
  if line.dirty then { c with backing := update c.backing (place line.key) line.value } else c

omit [DecidableEq K] in
theorem writeLine_chains (line : Line K V) : (c.writeLine place line).chains = c.chains := by
  unfold writeLine
  split <;> rfl

theorem find_writeLine (line : Line K V) (k : K)
    : (c.writeLine place line).find hash k = c.find hash k := by
  rw [find, writeLine_chains, find]

/-- After its line is written the place of a key has what is seen for it. -/
theorem Coherent.writeLine_backing_self (coherent : Coherent place hash valid c)
    (found : c.find hash k = some line)
    : (c.writeLine place line).backing (place k) = line.value := by
  have isKey := key_of_find found
  unfold writeLine
  split
  · rw [← isKey]
    exact update_self ..
  next notDirty => exact (coherent.clean k line found (Bool.not_eq_true _ ▸ notDirty)).symm

section Injective
variable (injective : ∀ k k', valid k → valid k' → place k = place k' → k = k')
include injective

omit [DecidableEq K] in
theorem writeLine_backing_of_ne (isValid : valid k) (isLine : valid line.key) (other : k ≠ line.key)
    : (c.writeLine place line).backing (place k) = c.backing (place k) := by
  unfold writeLine
  split
  · exact update_of_ne (fun same => other (injective _ _ isValid isLine same)) ..
  · rfl

section
variable (coherent : Coherent place hash valid c)
include coherent

/-- A line that is written back stays, and is seen as before. -/
theorem Coherent.writeLine (found : c.find hash k = some line)
    : Coherent place hash valid (c.writeLine place line) := by
  have isKey := key_of_find found
  refine ⟨?_, ?_, fun k' other isFound notDirty => ?_⟩
  · rw [writeLine_chains]
    exact coherent.hashed
  · rw [writeLine_chains]
    exact coherent.nodup
  · rw [find_writeLine] at isFound
    by_cases same : k' = k
    · subst same
      cases found.symm.trans isFound
      exact (coherent.writeLine_backing_self found).symm
    · have isValid := coherent.valid_of_find found
      rw [writeLine_backing_of_ne injective (coherent.valid_of_find isFound) (isKey ▸ isValid)
        (isKey ▸ same)]
      exact coherent.clean k' other isFound notDirty

theorem Coherent.view_writeLine (found : c.find hash k = some line) {k'} (isValid : valid k')
    : (c.writeLine place line).view place hash k' = c.view place hash k' := by
  refine view_congr (find_writeLine line k') fun missing => ?_
  have isKey := key_of_find found
  have other : k' ≠ line.key := by
    rintro rfl
    rw [isKey] at missing
    exact nomatch missing.symm.trans found
  exact writeLine_backing_of_ne injective isValid (isKey ▸ coherent.valid_of_find found) other

/-- The place of a key without a line is written. -/
theorem Coherent.writePlace (missing : c.find hash line.key = none) (isValid : valid line.key)
    : Coherent place hash valid (c.writeLine place line)
        ∧ ∀ k, valid k → k ≠ line.key →
          (c.writeLine place line).view place hash k = c.view place hash k := by
  refine ⟨⟨?_, ?_, fun k other found notDirty => ?_⟩, fun k isKey other => ?_⟩
  · rw [writeLine_chains]
    exact coherent.hashed
  · rw [writeLine_chains]
    exact coherent.nodup
  · rw [find_writeLine] at found
    have different : k ≠ line.key := by
      rintro rfl
      exact nomatch missing.symm.trans found
    rw [writeLine_backing_of_ne injective (coherent.valid_of_find found) isValid different]
    exact coherent.clean k other found notDirty
  · exact view_congr (find_writeLine line k) fun _ =>
      writeLine_backing_of_ne injective isKey isValid other

end

variable [DecidableEq I]

/-- The first line of a chain is written back and dropped. -/
theorem Coherent.evict (coherent : Coherent place hash valid c) {i} {rest : List (Line K V)}
    (chain : c.chains i = line :: rest)
    : let c' := (c.writeLine place line).setChain i rest
      Coherent place hash valid c'
        ∧ (∀ k, c'.find hash k = if k = line.key then none else c.find hash k)
        ∧ ∀ k, valid k → c'.view place hash k = c.view place hash k := by
  intro c'
  have mem := chain ▸ mem_cons_self
  have hashed := (coherent.hashed i line mem).1
  have found : c.find hash line.key = some line := by
    rw [find, hashed]
    exact find_of_mem (coherent.nodup i) mem
  have written := coherent.writeLine injective found
  have writtenChain : (c.writeLine place line).chains i = line :: rest := by
    rw [writeLine_chains, chain]
  have finds (k : K) : c'.find hash k = if k = line.key then none else c.find hash k := by
    rw [find_tail written writtenChain, find_writeLine]
  refine ⟨written.tail writtenChain, finds, fun k isValid => ?_⟩
  by_cases same : k = line.key
  · rw [view_of_none ((finds k).trans (if_pos same)), same, view_of_find found]
    exact coherent.writeLine_backing_self found
  · rw [← coherent.view_writeLine injective found isValid]
    exact view_congr ((finds k).trans ((if_neg same).trans (find_writeLine line k).symm))
      fun _ => rfl

/-- The line of a key is written back and is not dirty then. -/
theorem Coherent.flushLine (coherent : Coherent place hash valid c)
    (found : c.find hash k = some line)
    : let c' := (c.writeLine place line).setChain (hash k)
        (updateFirst k (fun line => { line with dirty := false }) (c.chains (hash k)))
      Coherent place hash valid c'
        ∧ (∀ k', c'.find hash k' = if k' = k then some { line with dirty := false }
          else c.find hash k')
        ∧ ∀ k', valid k' → c'.view place hash k' = c.view place hash k' := by
  intro c'
  have written := coherent.writeLine injective found
  have stillFound : (c.writeLine place line).find hash k = some line :=
    (find_writeLine line k).trans found
  have keeps : ∀ line : Line K V, ({ line with dirty := false } : Line K V).key = line.key :=
    fun _ => rfl
  have finds (k' : K) : c'.find hash k'
      = if k' = k then some { line with dirty := false } else c.find hash k' := by
    have updated : ((c.writeLine place line).setChain (hash k) (updateFirst k _
        ((c.writeLine place line).chains (hash k)))).find hash k' = _ := find_update keeps k'
    rw [stillFound, find_writeLine, writeLine_chains] at updated
    exact updated
  refine ⟨?_, finds, fun k' isValid => ?_⟩
  · have updated := written.update (k := k) keeps fun other isFound _ => ?_
    · rw [writeLine_chains] at updated
      exact updated
    · cases stillFound.symm.trans isFound
      exact (coherent.writeLine_backing_self found).symm
  · rw [← coherent.view_writeLine injective found isValid]
    by_cases same : k' = k
    · subst same
      rw [view_of_find ((finds k').trans (if_pos rfl)), view_of_find stillFound]
    · exact view_congr ((finds k').trans ((if_neg same).trans (find_writeLine line k').symm))
        fun _ => rfl

end Injective

end Cache

end UnstableOS.Lib.WriteBack
