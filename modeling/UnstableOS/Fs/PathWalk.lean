import UnstableOS.Fs.Openat

/-! What looking up one name of a path comes to, without references and buffers, and the ways
a call for a whole path can end.
-/

namespace UnstableOS.Fs.Openat

open Kernel Lib Ledger

variable {v : Vfs} {p : Process} {root start : Inode} {follow : Follow} {flags : Flags}
  {mode : UInt32} {last preincremented trusted : Bool} {name text : Path} {path : PathArg}
  {base : Base} {fuel depth sb : ℕ} {prev : Inode} {l l' : Refs} {looked other : Looked}
  {r : Except Errno Inode}

-- One name

/-- The name is answered by the clamp at the root of the process. -/
def Clamped (root : Inode) (name : Path) (prev : Inode) : Prop := name = dotDot ∧ prev = root

/-- The question a driver is asked. -/
def asked (v : Vfs) (flags : Flags) (last : Bool) (name : Path) (sb : ℕ) (prev : Inode)
    : LookupResult :=
  v.lookup sb prev (if name = [] then dot else name) (if last then flags else {})

/-- (Looks v root flags last name sb prev looked) holds when looking up a name comes to
`looked`, going up through the roots of mounted filesystems.
-/
inductive Looks (v : Vfs) (root : Inode) (flags : Flags) (last : Bool) (name : Path)
    : ℕ → Inode → Looked → Prop where
  | clamp {sb : ℕ} {prev : Inode} (clamped : Clamped root name prev)
    : Looks v root flags last name sb prev (.atRoot sb)
  | denied {sb : ℕ} {prev : Inode} (free : ¬ Clamped root name prev)
      (refused : v.permits prev { exec := true } = false)
    : Looks v root flags last name sb prev (.fail .eacces)
  | failed {sb : ℕ} {prev : Inode} {errno : Errno} (free : ¬ Clamped root name prev)
      (permitted : v.permits prev { exec := true } = true)
      (answer : asked v flags last name sb prev = .error errno) (exists' : errno ≠ .enoent)
    : Looks v root flags last name sb prev (.fail errno)
  | missing {sb : ℕ} {prev : Inode} (free : ¬ Clamped root name prev)
      (permitted : v.permits prev { exec := true } = true)
      (answer : asked v flags last name sb prev = .error .enoent)
    : Looks v root flags last name sb prev (.missing sb prev)
  | null {sb : ℕ} {prev : Inode} (free : ¬ Clamped root name prev)
      (permitted : v.permits prev { exec := true } = true)
      (answer : asked v flags last name sb prev = .found none)
    : Looks v root flags last name sb prev (.fail .enxio)
  | found {sb : ℕ} {prev new : Inode} (free : ¬ Clamped root name prev)
      (permitted : v.permits prev { exec := true } = true)
      (answer : asked v flags last name sb prev = .found (some new))
    : Looks v root flags last name sb prev (.found sb prev new)
  | up {sb : ℕ} {prev : Inode} {looked : Looked} (free : ¬ Clamped root name prev)
      (permitted : v.permits prev { exec := true } = true)
      (answer : asked v flags last name sb prev = .escape)
      (above : Looks v root flags last name (v.mountpoint sb).sb (v.mountpoint sb) looked)
    : Looks v root flags last name sb prev looked

/-- A lookup comes to one result. -/
theorem Looks.unique (first : Looks v root flags last name sb prev looked)
    (second : Looks v root flags last name sb prev other)
    : looked = other := by
  induction first with
  | clamp clamped =>
    cases second with
    | clamp => rfl
    | _ => contradiction
  | denied free refused =>
    cases second with
    | denied => rfl
    | clamp => contradiction
    | _ => simp_all
  | failed free permitted answer exists' | missing free permitted answer =>
    cases second with
    | clamp => contradiction
    | _ => simp_all
  | null free permitted answer | found free permitted answer =>
    cases second with
    | clamp => contradiction
    | _ => simp_all
  | up free permitted answer above ih =>
    cases second with
    | clamp => contradiction
    | up _ _ _ above' => exact ih above'
    | _ => simp_all

/-- The references a lookup leaves to the caller in place of that to the directory. -/
def Looked.held (root : Inode) : Looked → Inode → ℤ
  | .atRoot _ => Pi.single root 1
  | .fail _ => 0
  | .missing _ prev => Pi.single prev 1
  | .found _ prev new => Pi.single prev 1 + Pi.single new 1

/-- `lookupAgain` comes to what a lookup comes to and accounts for the references.
Witness: induction on the number of times the lookup is made again.
-/
theorem lookupAgain_looks
    (done : lookupAgain v root flags last name fuel sb prev l = some (looked, l'))
    : Looks v root flags last name sb prev looked
      ∧ l' = { l with refs := l.refs - Pi.single prev 1 + looked.held root } := by
  induction fuel generalizing sb prev l with
  | zero => cases done
  | succ fuel ih =>
    rw [lookupAgain] at done
    split at done
    next clamped =>
      cases done
      refine ⟨Looks.clamp clamped, ?_⟩
      rw [Looked.held, ← clamped.2, sub_add_cancel]
    next free =>
    split at done
    next refused =>
      cases done
      exact ⟨Looks.denied free refused, by simp [drop, Looked.held]⟩
    next permitted =>
    have permitted := eq_true_of_ne_false permitted
    split at done
    next errno answer =>
      split at done <;> cases done
      next isMissing =>
        subst isMissing
        exact ⟨Looks.missing free permitted answer, by simp [Looked.held]⟩
      next exists' =>
        exact ⟨Looks.failed free permitted answer exists', by simp [drop, Looked.held]⟩
    next answer =>
      obtain ⟨above, refs⟩ := ih done
      refine ⟨Looks.up free permitted answer above, ?_⟩
      rw [refs]
      simp only [take, drop, mk.injEq, and_true]
      abel
    next answer =>
      cases done
      exact ⟨Looks.null free permitted answer, by simp [drop, Looked.held]⟩
    next new answer =>
      cases done
      refine ⟨Looks.found free permitted answer, ?_⟩
      simp only [take, Looked.held, mk.injEq, and_true]
      abel

/-- Going on from an inode that is no symbolic link: to what is mounted on it, or to itself. -/
inductive Passes (v : Vfs) (sb : ℕ) (new : Inode) : ℕ → Inode → Prop where
  | stay (plain : v.isMountpoint new = false) : Passes v sb new sb new
  | cross {top : Inode} (mounted : v.isMountpoint new = true)
      (able : v.hasLookup (v.nextSuperblock new) = true)
      (answer : v.lookupRoot (v.nextSuperblock new) = .ok (some top))
    : Passes v sb new (v.nextSuperblock new) top

theorem Passes.unique {next next' sb₁ sb₂} (first : Passes v sb new sb₁ next)
    (second : Passes v sb new sb₂ next')
    : sb₁ = sb₂ ∧ next = next' := by
  cases first with
  | stay plain =>
    cases second with
    | stay => exact ⟨rfl, rfl⟩
    | cross mounted => simp [plain] at mounted
  | cross mounted able answer =>
    cases second with
    | stay plain => simp [plain] at mounted
    | cross _ _ answer' =>
      cases answer.symm.trans answer'
      exact ⟨rfl, rfl⟩

-- The whole path

/-- Where the walk begins. -/
inductive Enters (v : Vfs) (base : Inode) : ℕ → Inode → Prop where
  | here (plain : ¬ (v.isMountpoint base = true ∧ base ≠ v.mountpoint v.rootSuperblock))
    : Enters v base base.sb base
  | down {top : Inode} (mounted : v.isMountpoint base = true)
      (below : base ≠ v.mountpoint v.rootSuperblock)
      (answer : v.lookupRoot (v.nextSuperblock base) = .ok (some top))
    : Enters v base (v.nextSuperblock base) top

/-- The reference that a call for `AT_FDCWD` has to its base. -/
def baseRefs (base : Inode) (preincremented : Bool) : Inode → ℤ :=
  if preincremented then Pi.single base 1 else 0

theorem baseRefs_self (base : Inode) (preincremented : Bool)
    : baseRefs base preincremented base = if preincremented then 1 else 0 := by
  cases preincremented <;> simp [baseRefs]

theorem baseRefs_eq_zero (base : Inode) (preincremented : Bool)
    : baseRefs base preincremented = 0 ↔ preincremented = false := by
  cases preincremented with
  | true | false => simp [baseRefs]

theorem enter_enters {base preincremented} (done : enter v base preincremented l = some (c, l'))
    : Enters v base c.sb c.prev ∧ c.buffer = false
      ∧ l' = { l with refs := l.refs - baseRefs base preincremented + Pi.single c.prev 1 } := by
  unfold enter at done
  split at done
  next mounted =>
    split at done
    next top answer =>
      dsimp only at done
      split at done <;> cases done
      refine ⟨.down mounted.1 mounted.2 answer, rfl, ?_⟩
      cases preincremented with
      | true =>
        simp only [baseRefs, if_true, take, drop, mk.injEq, and_true]
        abel
      | false => simp [baseRefs, take]
    · cases done
  next plain =>
    cases done
    refine ⟨.here plain, rfl, ?_⟩
    cases preincremented with
    | true => simp [baseRefs]
    | false => simp [baseRefs, take]

theorem Enters.unique {base prev prev' sb₁ sb₂} (first : Enters v base sb₁ prev)
    (second : Enters v base sb₂ prev')
    : sb₁ = sb₂ ∧ prev = prev' := by
  cases first with
  | here plain =>
    cases second with
    | here => exact ⟨rfl, rfl⟩
    | down mounted below => exact absurd ⟨mounted, below⟩ plain
  | down mounted below answer =>
    cases second with
    | here plain => exact absurd ⟨mounted, below⟩ plain
    | down _ _ answer' =>
      cases answer.symm.trans answer'
      exact ⟨rfl, rfl⟩

/-- The references of a result. -/
def resultRefs : Except Errno Inode → Inode → ℤ
  | .ok new => Pi.single new 1
  | .error _ => 0

/-- The walk that a call makes, and its result before the last check. -/
structure Walked (v : Vfs) (root : Inode) (follow : Follow) (flags : Flags) (mode : UInt32)
    (fuel : ℕ) (start : Inode) (preincremented : Bool) (text : Path) (l : Refs) (c : Cursor)
    (l₁ l₂ : Refs) (r : Except Errno Inode) : Prop where
  still : ¬ RacedWithClose v (baseOf root start text) (opened root start preincremented text l)
  entered : enter v (baseOf root start text) (preincremented && !isAbsolute text)
    (opened root start preincremented text l) = some (c, l₁)
  walked : walk v root follow flags mode (needsDir text) fuel (pathNames text) c l₁ = some (r, l₂)

/-- The ways `openText` can end. -/
theorem openText_cases
    (done : openText v root follow flags mode fuel start preincremented text l = some (r, l'))
    : (RacedWithClose v (baseOf root start text) (opened root start preincremented text l)
        ∧ r = .error .einval ∧ l' = closed root (opened root start preincremented text l))
      ∨ ∃ c l₁ l₂ r', Walked v root follow flags mode fuel start preincremented text l c l₁ l₂ r'
            ∧ (r = r' ∨ (∃ new, r' = .ok new) ∧ r = .error .enotdir)
            ∧ l' = closed root { l₂ with refs := l₂.refs - resultRefs r' + resultRefs r } := by
  unfold openText at done
  dsimp only at done
  split at done
  next raced =>
    cases done
    exact .inl ⟨raced, rfl, rfl⟩
  next still =>
  refine .inr ?_
  split at done
  · cases done
  next c l₁ entered =>
  split at done
  · cases done
  next errno l₂ walked =>
    cases done
    refine ⟨c, l₁, l₂, _, ⟨still, entered, walked⟩, .inl rfl, ?_⟩
    rw [sub_add_cancel]
  next new l₂ walked =>
  split at done <;> cases done
  · refine ⟨c, l₁, l₂, _, ⟨still, entered, walked⟩, .inr ⟨⟨new, rfl⟩, rfl⟩, ?_⟩
    simp only [resultRefs, add_zero]
    rfl
  · refine ⟨c, l₁, l₂, _, ⟨still, entered, walked⟩, .inl rfl, ?_⟩
    rw [sub_add_cancel]

/-- The checks before the path is looked at are passed: the root of the process, the inode of
the base, and the copy of the path.
-/
structure Begins (v : Vfs) (p : Process) (base : Base) (path : PathArg) (trusted : Bool)
    (root : Inode) (text : Path) : Prop where
  hasRoot : p.root = some root
  given : base ≠ .null
  directory : v.type (base.start p) = .dir
  copied : (dupPath v trusted path).1 = some text
  fits : (dupPath v trusted path).2 ≠ pathMax
  nonempty : (dupPath v trusted path).2 ≠ 0
  plain : text ≠ metadir

/-- A path given for a symbolic link. -/
def followWith (v : Vfs) (p : Process) (fuel depth : ℕ) : Follow := fun base target flags l =>
  openatInode v p fuel depth (.inode base) (.text target) flags 0 true l

theorem dupPath_null (v : Vfs) (trusted : Bool) : (dupPath v trusted .null).1 = none := by
  cases trusted <;> rfl

/-- The ways `openatInode` can end. -/
theorem openatInode_cases
    (done : openatInode v p fuel (depth + 1) base path flags mode trusted l = some (r, l'))
    : ((∃ errno, r = .error errno) ∧ l' = l ∧ ∀ root text, ¬ Begins v p base path trusted root text)
      ∨ ∃ root text, Begins v p base path trusted root text
          ∧ openText v root (followWith v p fuel depth) flags.mask
              (mode &&& ~~~p.umask &&& ~~~0o170000) fuel (base.start p) (decide (base = .cwd))
              (cleanupPath text)
              (if base = .cwd then l.take (base.start p) else l).alloc = some (r, l') := by
  -- what every exit before the walk leaves behind
  have givenBack : (if decide (base = .cwd)
      then (if decide (base = .cwd) then l.take (base.start p) else l).drop (base.start p)
      else if decide (base = .cwd) then l.take (base.start p) else l) = l := by
    by_cases cwd : base = .cwd <;> simp [cwd]
  have refuse {errno : Errno} (never : ∀ root text, ¬ Begins v p base path trusted root text)
      {k : Refs} (same : k = if decide (base = .cwd) then l.take (base.start p) else l)
      (left : some (Except.error errno, if decide (base = .cwd) then k.drop (base.start p) else k)
        = some (r, l'))
      : (∃ errno, r = .error errno) ∧ l' = l
        ∧ ∀ root text, ¬ Begins v p base path trusted root text := by
    subst same
    rw [givenBack] at left
    cases left
    exact ⟨⟨errno, rfl⟩, rfl, never⟩
  rw [openatInode] at done
  split at done
  next noRoot =>
    cases done
    refine .inl ⟨⟨_, rfl⟩, rfl, fun root text begins => ?_⟩
    cases noRoot.symm.trans begins.hasRoot
  next root hasRoot =>
  split at done
  next isNull =>
    cases done
    exact .inl ⟨⟨_, rfl⟩, rfl, fun root text begins => begins.given isNull⟩
  next given =>
  dsimp only at done
  by_cases directory : v.type (base.start p) = .dir
  · rw [if_neg (not_not.mpr directory)] at done
    split at done
    next isNull =>
      refine .inl (refuse (fun root text begins => ?_) rfl done)
      have copied := begins.copied
      rw [isNull, dupPath_null] at copied
      cases copied
    next path_ne =>
    split at done
    next length dup =>
      refine .inl (refuse (fun root text begins => ?_) rfl done)
      have copied := begins.copied
      rw [dup] at copied
      cases copied
    next text length dup =>
    split at done
    next long =>
      refine .inl (refuse (fun root text begins => ?_) (free_alloc _) done)
      exact begins.fits (by rw [dup]; exact long)
    next fits =>
    split at done
    next empty =>
      refine .inl (refuse (fun root text begins => ?_) (free_alloc _) done)
      exact begins.nonempty (by rw [dup]; exact empty)
    next nonempty =>
    split at done
    next isMeta =>
      refine .inl (refuse (fun root text' begins => ?_) (free_alloc _) done)
      have copied := begins.copied
      rw [dup] at copied
      cases copied
      exact begins.plain isMeta
    next plain =>
      refine .inr ⟨root, text, ⟨hasRoot, given, directory, ?_, ?_, ?_, plain⟩, ?_⟩
      · rw [dup]
      · rwa [dup]
      · rwa [dup]
      · simp only [decide_eq_true_eq] at done
        exact done
  · rw [if_pos directory] at done
    exact .inl (refuse (fun root text begins => directory begins.directory) rfl done)

end UnstableOS.Fs.Openat
