import UnstableOS.Fs.PathWalk
import Mathlib.Data.List.Chain
import Mathlib.Data.List.DropRight

/-! The calls that act on a name in a directory: `sys_unlinkat` of `fs.c`, `sys_renameat` and
`sys_mknodat` of `fs_open.c`.
Each cuts its path at the last slash and opens what stands before it. The parent and the last
component of a path are said once without cutting, as a relation, and compared with what the calls
use.
-/

namespace UnstableOS.Fs.ParentPath

open Kernel Lib Fs.Openat List Nat

-- Cutting a path

/-- `strrchr`, as an index. -/
def strrchr (c : UInt8) : Path → Option ℕ
  | [] => none
  | x :: rest =>
    match strrchr c rest with
    | some i => some (i + 1)
    | none => if x = c then some 0 else none

/-- A path cut at a slash: the text before it, none if there is no slash, and the text behind. -/
structure Cut where
  directory : Option Path
  name : Path
deriving Repr, DecidableEq

variable (path : Path)

def cutAt : Cut :=
  match strrchr slash path with
  | none => ⟨none, path⟩
  | some i => ⟨some (path.take i), path.drop (i + 1)⟩

/-- A slash at the end is cut off. -/
def cutEnd : Path :=
  match strrchr slash path with
  | none => path
  | some i => if path.drop (i + 1) = [] then path.take i else path

/-- The way `sys_unlinkat` and `sys_renameat` cut. -/
def cutFragment : Cut := cutAt (cutEnd path)

/-- `is_valid_rename` does not return 0. Behind a slash at the end it looks for the slash before,
but from a place where it finds the same one again.
-/
def isInvalidRename : Bool :=
  match strrchr slash path with
  | none => decide (path = dot ∨ path = dotDot)
  | some i =>
    if path.drop (i + 1) = [] then
      let next := match strrchr slash (path.drop (i - 1)) with
        | none => path
        | some j => path.drop (i - 1 + j)
      decide (next = dot ++ [slash] ∨ next = dotDot ++ [slash])
    else decide (path.drop (i + 1) = dot ∨ path.drop (i + 1) = dotDot)

-- The calls

/-- `AT_FDCWD`. -/
def atFdcwd : ℤ := -1

/-- `OPEN_MAX`. -/
def openMax : ℤ := 128

/-- What the calls are made in; `fds` gives the inodes of the open file descriptors. -/
structure Env where
  v : Vfs
  p : Process
  fuel : ℕ
  fds : ℕ → Option Inode

def BadFd (fd : ℤ) : Prop := (fd < 0 ∨ fd ≥ openMax) ∧ fd ≠ atFdcwd

instance (fd : ℤ) : Decidable (BadFd fd) := inferInstanceAs (Decidable (_ ∧ _))

def Env.inodeOf (env : Env) (fd : ℤ) : Option Inode :=
  if fd = atFdcwd then some env.p.pwd else env.fds fd.toNat

/-- `openat_inode` for a parent, with `O_WRONLY | O_DIRECTORY`; the base is held open. None if it
fails.
-/
def Env.openParent (env : Env) (base : Inode) (path : Path) : Option Inode :=
  match openatInode env.v env.p env.fuel symloopMax (.inode base) (.text path)
      { wronly := true, directory := true } 0 true (Ledger.zero.take base) with
  | some (.ok new, _) => some new
  | _ => none

/-- How far a call gets: a null pointer is read, the arguments are refused, or it goes on with
what it took for the parents and the last components.
-/
inductive Outcome (α : Type) where
  | crash
  | refused (errno : Errno)
  | uses (target : α)
deriving Repr, DecidableEq

/-- A directory, none if it cannot be opened, and a name in it. -/
abbrev Target := Option Inode × Path

/-- The copy of the path in `sys_unlinkat`, cleaned up and checked. -/
def unlinkPath (fd : ℤ) (path : PathArg) : Outcome Path :=
  if BadFd fd then .refused .ebadf
  else
    match secureStrdup path with
    | none => .crash
    | some safePath =>
      if safePath.take 2 = metadir then .refused .einval
      else if cleanupPath safePath = [slash] then .refused .ebusy
      else .uses (cleanupPath safePath)

/-- `sys_unlinkat`, until the parent is known. -/
def unlinkat (env : Env) (fd : ℤ) (path : PathArg) : Outcome Target :=
  match unlinkPath fd path with
  | .crash => .crash
  | .refused errno => .refused errno
  | .uses safePath =>
    let cut := cutFragment safePath
    -- what is left of `safe_path` begins with the null byte
    let blank := decide (cut.directory.getD cut.name = [])
    match if fd ≠ atFdcwd ∧ blank = false then env.inodeOf fd else some env.p.pwd with
    | none => .refused .ebadf
    | some ino =>
      match cut.directory with
      | none => .uses (some ino, cut.name)
      | some directory =>
        if blank then .uses (some ino, cut.name)
        else .uses (env.openParent ino directory, cut.name)

/-- The checks `sys_renameat` makes of each path; `missing` is returned if it cannot be copied. -/
def renamePath (missing : Errno) (path : PathArg) : Except Errno Path :=
  match secureStrdup path with
  | none => .error missing
  | some dup =>
    if dup.length = 0 then .error missing
    else if dup.length = pathMax then .error .enametoolong
    else if (cleanupPath dup).take 2 = metadir then .error .einval
    else if cleanupPath dup = [slash] then .error .ebusy
    else if isInvalidRename (cleanupPath dup) then .error .einval
    else .ok (cleanupPath dup)

/-- The arguments of `sys_renameat`: for each path the inode it is relative to and its copy. -/
def renameArgs (env : Env) (oldfd : ℤ) (old : PathArg) (newfd : ℤ) (new : PathArg)
    : Except Errno ((Inode × Path) × Inode × Path) :=
  if old = .null ∨ new = .null then .error .efault
  else if BadFd oldfd ∨ BadFd newfd then .error .ebadf
  else
    match renamePath .efault old with
    | .error errno => .error errno
    | .ok oldDup =>
      match renamePath .ebusy new with
      | .error errno => .error errno
      | .ok newDup =>
        match env.inodeOf oldfd, env.inodeOf newfd with
        | some oldParent, some newParent => .ok ((oldParent, oldDup), newParent, newDup)
        | _, _ => .error .ebadf

/-- The part of `sys_renameat` for one parent. -/
def renameParent (env : Env) (ino : Inode) (dup : Path) : Target :=
  let cut := cutFragment dup
  if cut.directory.getD cut.name = [] then (some env.p.pwd, cut.name)
  else
    match cut.directory with
    | none => (some ino, cut.name)
    | some directory => (env.openParent ino directory, cut.name)

/-- `sys_renameat`, until the parents are known. The second one is not looked for if the first
one cannot be opened.
-/
def renameat (env : Env) (oldfd : ℤ) (old : PathArg) (newfd : ℤ) (new : PathArg)
    : Outcome (Target × Option Target) :=
  match renameArgs env oldfd old newfd new with
  | .error errno => .refused errno
  | .ok ((oldParent, oldDup), newParent, newDup) =>
    let source := renameParent env oldParent oldDup
    if source.1 = none then .uses (source, none)
    else .uses (source, some (renameParent env newParent newDup))

/-- The arguments of `sys_mknodat`; the path is copied but not cleaned up. `device` says that the
mode is that of a device, `high` that the number has the bit 0x8000.
-/
def mknodArgs (env : Env) (fd : ℤ) (path : PathArg) (device high : Bool)
    : Except Errno (Inode × Path) :=
  if BadFd fd then .error .ebadf
  else if device = false then .error .einval
  else if high then .error .enxio
  else if path = .null then .error .ebadf
  else
    match secureStrdup path with
    | none => .error .efault
    | some safePath =>
      if safePath.length = 0 then .error .enoent
      else if safePath.length = pathMax then .error .enametoolong
      else if (cutAt safePath).name = [] then .error .einval
      else if (cutAt safePath).name = dot ∨ (cutAt safePath).name = dotDot then .error .einval
      else
        match env.inodeOf fd with
        | none => .error .ebadf
        | some base => .ok (base, safePath)

/-- `sys_mknodat`, until the parent is known. -/
def mknodat (env : Env) (fd : ℤ) (path : PathArg) (device high : Bool) : Outcome Target :=
  match mknodArgs env fd path device high with
  | .error errno => .refused errno
  | .ok (base, safePath) =>
    let cut := cutAt safePath
    match cut.directory with
    | none => .uses (some base, cut.name)
    | some directory => .uses (env.openParent base directory, cut.name)

-- Parents and last components

variable {env : Env} {fd : ℤ} {s name name' : Path} {pre pre' : Option Path} {i : ℕ} {c : UInt8}

/-- (Splits s pre name) holds when `name` is the last component of the path `s` and `pre` the
text that leads to its directory, none if the path is a single name.
-/
inductive Splits : Path → Option Path → Path → Prop where
  | bare {name : Path} (noSlash : slash ∉ name) (nonempty : name ≠ []) : Splits name none name
  | top {name : Path} (noSlash : slash ∉ name) (nonempty : name ≠ [])
    : Splits (slash :: name) (some [slash]) name
  | under {pre name : Path} (noSlash : slash ∉ name) (nonempty : name ≠ []) (below : pre ≠ [])
    : Splits (pre ++ slash :: name) (some pre) name
  | trailing {s name : Path} {pre : Option Path} (splits : Splits s pre name)
    : Splits (s ++ [slash]) pre name

theorem strrchr_eq_none : strrchr c s = none ↔ c ∉ s := by
  induction s with
  | nil => simp [strrchr]
  | cons x rest ih =>
    rw [strrchr]
    cases found : strrchr c rest with
    | some i =>
      rw [found] at ih
      simpa using fun _ => not_not.1 (mt ih.2 nofun)
    | none =>
      have absent := ih.1 found
      by_cases same : x = c
      · simp [same]
      · simp [same, absent, Ne.symm same]

variable {before after copy : Path}

theorem strrchr_append (absent : c ∉ after)
    : strrchr c (before ++ c :: after) = some before.length := by
  induction before with
  | nil => simp [strrchr, strrchr_eq_none.2 absent]
  | cons x rest ih => simp [strrchr, ih]

theorem strrchr_eq_some (found : strrchr c s = some i)
    : s = s.take i ++ c :: s.drop (i + 1) ∧ c ∉ s.drop (i + 1) := by
  induction s generalizing i with
  | nil => cases found
  | cons x rest ih =>
    rw [strrchr] at found
    cases later : strrchr c rest with
    | some j =>
      rw [later] at found
      cases found
      obtain ⟨split, absent⟩ := ih later
      refine ⟨?_, by simpa using absent⟩
      simpa using split
    | none =>
      rw [later] at found
      dsimp only at found
      split at found <;> cases found
      next same =>
      subst same
      exact ⟨by simp, by simpa using strrchr_eq_none.1 later⟩

theorem cutAt_bare (noSlash : slash ∉ s) : cutAt s = ⟨none, s⟩ := by
  rw [cutAt, strrchr_eq_none.2 noSlash]

theorem cutAt_append (noSlash : slash ∉ after)
    : cutAt (before ++ slash :: after) = ⟨some before, after⟩ := by
  rw [cutAt, strrchr_append noSlash]
  simp

theorem cutAt_top (noSlash : slash ∉ after) : cutAt (slash :: after) = ⟨some [], after⟩ :=
  @cutAt_append [] after noSlash

theorem cutAt_directory (directory : (cutAt s).directory = some before)
    : s = before ++ slash :: (cutAt s).name := by
  unfold cutAt at directory ⊢
  split at directory
  · cases directory
  next i found =>
  obtain ⟨split, -⟩ := strrchr_eq_some found
  rw [Option.some.inj directory] at split
  exact split

/-- The text that leads to the directory before the slash at which a path was cut. -/
def parentText : Option Path → Option Path
  | none => none
  | some [] => some [slash]
  | some (x :: rest) => some (x :: rest)

/-- Cutting at the last slash splits a path that does not end in one. -/
theorem cutAt_splits (named : (cutAt s).name ≠ [])
    : Splits s (parentText (cutAt s).directory) (cutAt s).name := by
  cases found : strrchr slash s with
  | none =>
    have noSlash := strrchr_eq_none.1 found
    rw [cutAt_bare noSlash] at named ⊢
    exact .bare noSlash named
  | some i =>
    obtain ⟨split, noSlash⟩ := strrchr_eq_some found
    rw [split, cutAt_append noSlash] at named ⊢
    cases before : s.take i with
    | nil => exact .top noSlash named
    | cons x rest => exact .under noSlash named nofun

theorem cutAt_name_nil (unnamed : (cutAt s).name = [])
    : s = [] ∨ ∃ before, s = before ++ [slash] := by
  cases found : strrchr slash s with
  | none =>
    rw [cutAt, found] at unnamed
    exact .inl unnamed
  | some i =>
    rw [cutAt, found] at unnamed
    obtain ⟨split, -⟩ := strrchr_eq_some found
    dsimp only at unnamed
    rw [unnamed] at split
    exact .inr ⟨_, split⟩

/-- No two slashes in a row. -/
def Clean : Prop := path.IsChain fun a b => ¬ (a = slash ∧ b = slash)

theorem clean_dropDoubled (seenSlash : Bool) (path : Path)
    : Clean (dropDoubled seenSlash path)
      ∧ (seenSlash = true → (dropDoubled seenSlash path).head? ≠ some slash) := by
  induction path generalizing seenSlash with
  | nil => exact ⟨.nil, fun _ => nofun⟩
  | cons x rest ih =>
    rw [dropDoubled]
    split
    next isSlash =>
      split
      next => exact ⟨(ih true).1, fun _ => (ih true).2 rfl⟩
      next unseen =>
      refine ⟨(ih true).1.cons ?_, fun seen => absurd seen unseen⟩
      rintro y isNext ⟨-, rfl⟩
      exact (ih true).2 rfl isNext
    next other =>
      refine ⟨(ih false).1.cons ?_, fun _ => by simpa using other⟩
      rintro y - ⟨isSlash, -⟩
      exact other isSlash

/-- The second loop of `cleanup_path` finds nothing left to do. -/
theorem cleanupPath_eq : cleanupPath path = dropDoubled false path := by
  have clean : Clean (dropDoubled false path).reverse := by
    refine isChain_reverse.2 ((clean_dropDoubled false path).1.imp ?_)
    rintro a b apart ⟨isSlash, isSlash'⟩
    exact apart ⟨isSlash', isSlash⟩
  have unchanged : dropTrailing (dropDoubled false path).reverse
      = (dropDoubled false path).reverse := by
    cases reversed : (dropDoubled false path).reverse with
    | nil => rfl
    | cons c rest =>
      cases rest with
      | nil => rfl
      | cons d rest =>
        rw [reversed] at clean
        rw [dropTrailing, if_neg (isChain_cons_cons.1 clean).1]
  rw [cleanupPath, unchanged, reverse_reverse]

theorem clean_cleanupPath : Clean (cleanupPath path) := by
  rw [cleanupPath_eq]
  exact (clean_dropDoubled false path).1

theorem fragments_slash
    : ∃ rest, fragments (slash :: path) = [] :: rest
      ∧ rest.filter (· ≠ []) = (fragments path).filter (· ≠ []) := by
  cases path <;> exact ⟨_, rfl, rfl⟩

/-- Witness: induction on the path; behind a slash an empty first part is lost as well. -/
theorem fragments_dropDoubled
    : ∃ first rest rest', fragments path = first :: rest
        ∧ fragments (dropDoubled false path) = first :: rest'
        ∧ rest'.filter (· ≠ []) = rest.filter (· ≠ [])
        ∧ (fragments (dropDoubled true path)).filter (· ≠ [])
          = (fragments path).filter (· ≠ []) := by
  induction path with
  | nil => exact ⟨_, _, _, rfl, rfl, rfl, rfl⟩
  | cons c path ih =>
    obtain ⟨first, rest, rest', parts, kept, same, behind⟩ := ih
    by_cases isSlash : c = slash
    · subst isSlash
      obtain ⟨more, eq, named⟩ := fragments_slash path
      obtain ⟨more', eq', named'⟩ := fragments_slash (dropDoubled true path)
      rw [behind, ← named] at named'
      refine ⟨_, _, _, eq, eq', named', ?_⟩
      rw [dropDoubled, if_pos rfl, if_pos rfl, behind, ← named, eq]
      rfl
    · simp_all [fragments, dropDoubled]

/-- `cleanup_path` leaves no two slashes in a row and keeps the names of the path. -/
theorem cleanupPath_keeps_names
    : Clean (cleanupPath path) ∧ isAbsolute (cleanupPath path) = isAbsolute path
      ∧ (fragments (cleanupPath path)).filter (· ≠ []) = (fragments path).filter (· ≠ []) := by
  obtain ⟨first, rest, rest', parts, kept, same, -⟩ := fragments_dropDoubled path
  refine ⟨clean_cleanupPath path, ?_, ?_⟩ <;> rw [cleanupPath_eq]
  · cases path <;> grind [isAbsolute, dropDoubled]
  · rw [parts, kept, filter_cons, filter_cons, same]

theorem cleanupPath_ne_nil (nonempty : s ≠ []) : cleanupPath s ≠ [] := by
  rw [cleanupPath_eq]
  cases s with
  | nil => exact absurd rfl nonempty
  | cons x rest =>
    rw [dropDoubled]
    split <;> exact cons_ne_nil _ _

theorem cutEnd_trailing : cutEnd (s ++ [slash]) = s := by
  rw [cutEnd, strrchr_append List.not_mem_nil]
  simp

theorem cutEnd_of_ne (unslashed : ∀ before, s ≠ before ++ [slash]) : cutEnd s = s := by
  unfold cutEnd
  split
  · rfl
  next i found =>
  split
  next atEnd =>
    obtain ⟨split, -⟩ := strrchr_eq_some found
    rw [atEnd] at split
    exact absurd split (unslashed _)
  · rfl

/-- The calls that clean their path up split it. -/
theorem cutFragment_splits (clean : Clean s) (nonempty : s ≠ []) (notTop : s ≠ [slash])
    : Splits s (parentText (cutFragment s).directory) (cutFragment s).name := by
  by_cases slashed : ∃ before, s = before ++ [slash]
  · obtain ⟨before, rfl⟩ := slashed
    rw [cutFragment, cutEnd_trailing]
    refine .trailing (cutAt_splits fun unnamed => ?_)
    obtain rfl | ⟨before', rfl⟩ := cutAt_name_nil unnamed
    · exact notTop rfl
    · -- the path would end in two slashes
      have apart := (isChain_append.1 clean).2.2 slash (by simp) slash (by simp)
      exact apart ⟨rfl, rfl⟩
  · rw [not_exists] at slashed
    rw [cutFragment, cutEnd_of_ne slashed]
    refine cutAt_splits fun unnamed => ?_
    obtain empty | ⟨before, isSlashed⟩ := cutAt_name_nil unnamed
    · exact nonempty empty
    · exact slashed before isSlashed

/-- A path without the slashes at its end. -/
def bareEnd : Path := path.rdropWhile (· = slash)

theorem bareEnd_append (noSlash : slash ∉ name) (nonempty : name ≠ [])
    : bareEnd (before ++ name) = before ++ name := by
  refine rdropWhile_eq_self_iff.2 fun nonempty' isSlash => noSlash ?_
  rw [getLast_append_of_ne_nil nonempty' nonempty, decide_eq_true_eq] at isSlash
  rw [← isSlash]
  exact getLast_mem nonempty

/-- The parts of a path can be computed from it.
Witness: induction on the slashes at the end.
-/
theorem Splits.computed (splits : Splits s pre name)
    : parentText (cutAt (bareEnd s)).directory = pre ∧ (cutAt (bareEnd s)).name = name := by
  induction splits with
  | @bare name noSlash nonempty =>
    have same : bareEnd name = name := @bareEnd_append name [] noSlash nonempty
    rw [same, cutAt_bare noSlash]
    exact ⟨rfl, rfl⟩
  | @top name noSlash nonempty =>
    have same : bareEnd (slash :: name) = slash :: name :=
      @bareEnd_append name [slash] noSlash nonempty
    rw [same, cutAt_top noSlash]
    exact ⟨rfl, rfl⟩
  | @under pre name noSlash nonempty below =>
    have same : bareEnd (pre ++ [slash] ++ name) = pre ++ [slash] ++ name :=
      bareEnd_append noSlash nonempty
    rw [append_assoc, singleton_append] at same
    rw [same, cutAt_append noSlash]
    cases pre with
    | nil => exact absurd rfl below
    | cons x rest => exact ⟨rfl, rfl⟩
  | @trailing s name pre splits ih =>
    have same : bareEnd (s ++ [slash]) = bareEnd s := rdropWhile_concat_pos _ _ _ (by simp)
    rw [same]
    exact ih

theorem Splits.unique (first : Splits s pre name) (second : Splits s pre' name')
    : pre = pre' ∧ name = name' :=
  ⟨first.computed.1.symm.trans second.computed.1, first.computed.2.symm.trans second.computed.2⟩

-- What the calls should use

/-- The directory that `openat` opens for the text before the last component. -/
def Env.expectedDirectory (env : Env) (fd : ℤ) (pre : Option Path) : Option Inode :=
  match env.inodeOf fd, pre with
  | none, _ => none
  | some base, none => some base
  | some base, some path => env.openParent base path

/-- The parent and the last component of a path. -/
def Expected (env : Env) (fd : ℤ) (path : Path) (target : Target) : Prop :=
  ∃ pre, Splits path pre target.2 ∧ target.1 = env.expectedDirectory fd pre

/-- A directory is used in the place of the one that is expected: it is the same, or none can be
opened and the one used cannot be written, so that the call fails as well.
-/
def Allowed (env : Env) (used expected : Option Inode) : Prop :=
  used = expected
    ∨ expected = none ∧ ∀ d ∈ used, env.v.permits d { write := true } = false

/-- What a call uses for a path is its parent and its last component. -/
def Right (env : Env) (fd : ℤ) (path : Path) (used : Target) : Prop :=
  ∃ directory, Expected env fd path (directory, used.2) ∧ Allowed env used.1 directory

inductive Call where
  | unlinkat (fd : ℤ) (path : PathArg)
  | renameat (oldfd : ℤ) (old : PathArg) (newfd : ℤ) (new : PathArg)
  | mknodat (fd : ℤ) (path : PathArg) (device high : Bool)

/-- The call is refused, or what it uses has the property. -/
def Outcome.Meets {α : Type} (property : α → Prop) : Outcome α → Prop
  | .crash => False
  | .refused _ => True
  | .uses target => property target

/-- A call acts on the parents and last components of its paths, unless it refuses them. -/
def Agrees (env : Env) : Call → Prop
  | .unlinkat fd path => (unlinkat env fd path).Meets fun target =>
    ∃ text, path = .text text ∧ Right env fd (cleanupPath text) target
  | .renameat oldfd old newfd new => (renameat env oldfd old newfd new).Meets fun targets =>
    (∃ text, old = .text text ∧ Right env oldfd (cleanupPath text) targets.1)
      ∧ ∀ target ∈ targets.2, ∃ text, new = .text text ∧ Right env newfd (cleanupPath text) target
  | .mknodat fd path device high => (mknodat env fd path device high).Meets fun target =>
    ∃ text, path = .text text ∧ Right env fd text target

/-- The path is `/name` or `/name/`. -/
def BelowTop : Prop :=
  ∃ name, slash ∉ name ∧ name ≠ [] ∧ (path = slash :: name ∨ path = slash :: name ++ [slash])

/-- The working directory may stand for the root. -/
def CwdIsTop (env : Env) (fd : ℤ) : Prop :=
  Allowed env (some env.p.pwd) (env.expectedDirectory fd (some [slash]))

/-- What `sys_unlinkat` uses for the part of a path that it copied. -/
def UsedForCopy (env : Env) (fd : ℤ) (copy : Path) (target : Target) : Prop :=
  (BelowTop copy ∧ Splits copy (some [slash]) target.2 ∧ target.1 = some env.p.pwd)
    ∨ (¬ BelowTop copy ∧ env.inodeOf fd ≠ none ∧ Expected env fd copy target)

/-- The calls that act on the right directory: nothing is read through a null pointer, the name of
a path that is too long does not change with the cut, and directly below the root the working
directory may stand for it, or with `sys_mknodat` the root cannot be opened.
-/
def ParentOk (env : Env) : Call → Prop
  | .unlinkat fd path =>
    unlinkPath fd path ≠ .crash
      ∧ ∀ text safePath, path = .text text → unlinkPath fd path = .uses safePath →
        (text.length ≤ pathMax → BelowTop safePath → CwdIsTop env fd)
        ∧ (pathMax < text.length → ∀ target, UsedForCopy env fd safePath target →
          Right env fd (cleanupPath text) target)
  | .renameat oldfd old newfd new =>
    ∀ oldParent oldDup newParent newDup,
      renameArgs env oldfd old newfd new = .ok ((oldParent, oldDup), newParent, newDup) →
        (BelowTop oldDup → CwdIsTop env oldfd)
        ∧ ((BelowTop oldDup ∨ ∀ target, Expected env oldfd oldDup target → target.1 ≠ none) →
          BelowTop newDup → CwdIsTop env newfd)
  | .mknodat fd path device high =>
    ∀ base name, slash ∉ name → mknodArgs env fd path device high = .ok (base, slash :: name) →
      env.openParent base [slash] = none

-- What the calls use

variable {base ino : Inode} {used target : Target} {text safePath : Path} {path : PathArg}

theorem expectedDirectory_none (opens : env.inodeOf fd = some base)
    : env.expectedDirectory fd none = some base := by
  simp [Env.expectedDirectory, opens]

theorem expectedDirectory_some (opens : env.inodeOf fd = some base)
    : env.expectedDirectory fd (some s) = env.openParent base s := by
  simp [Env.expectedDirectory, opens]

/-- A copy of a path that the calls go on with. -/
structure Copied (path : Path) : Prop where
  clean : Clean path
  nonempty : path ≠ []
  notTop : path ≠ [slash]

theorem Copied.splits (copied : Copied s)
    : Splits s (parentText (cutFragment s).directory) (cutFragment s).name :=
  cutFragment_splits copied.clean copied.nonempty copied.notTop

theorem Splits.nonempty (splits : Splits s pre name) : name ≠ [] := by
  induction splits with
  | bare _ nonempty | top _ nonempty | under _ nonempty => exact nonempty
  | trailing _ ih => exact ih

theorem Splits.noSlash (splits : Splits s pre name) : slash ∉ name := by
  induction splits with
  | bare noSlash | top noSlash | under noSlash => exact noSlash
  | trailing _ ih => exact ih

/-- Nothing stands before the slash exactly in the paths directly below the root. -/
theorem Copied.belowTop_iff (copied : Copied s)
    : (cutFragment s).directory = some [] ↔ BelowTop s := by
  constructor
  · intro blank
    have splits := copied.splits
    refine ⟨(cutFragment s).name, splits.noSlash, splits.nonempty, ?_⟩
    have cut : cutEnd s = slash :: (cutFragment s).name := cutAt_directory blank
    by_cases slashed : ∃ before, s = before ++ [slash]
    · obtain ⟨before, rfl⟩ := slashed
      rw [cutEnd_trailing] at cut
      exact .inr (by rw [← cut])
    · rw [not_exists] at slashed
      rw [cutEnd_of_ne slashed] at cut
      exact .inl cut
  · rintro ⟨name, noSlash, nonempty, isBelow⟩
    have cut := cutAt_top noSlash
    obtain rfl | rfl := isBelow
    · have unslashed (before : Path) : slash :: name ≠ before ++ [slash] := by
        intro same
        rw [same, cutAt_append List.not_mem_nil] at cut
        exact nonempty (Cut.mk.inj cut).2.symm
      rw [cutFragment, cutEnd_of_ne unslashed, cut]
    · rw [cutFragment, cutEnd_trailing, cut]

/-- Directly below the root the working directory is used. -/
theorem Copied.renameParent_top (copied : Copied s) (below : BelowTop s)
    : renameParent env ino s = (some env.p.pwd, (cutFragment s).name)
      ∧ Splits s (some [slash]) (cutFragment s).name := by
  have blank := copied.belowTop_iff.2 below
  have splits := copied.splits
  rw [blank] at splits
  refine ⟨?_, splits⟩
  rw [renameParent, blank]
  rfl

/-- Elsewhere the parent is used. -/
theorem Copied.renameParent_expected (copied : Copied s) (elsewhere : ¬ BelowTop s)
    (opens : env.inodeOf fd = some ino)
    : Expected env fd s (renameParent env ino s) := by
  have splits := copied.splits
  rw [← copied.belowTop_iff] at elsewhere
  cases directory : (cutFragment s).directory with
  | none =>
    rw [directory] at splits
    have used : renameParent env ino s = (some ino, (cutFragment s).name) := by
      rw [renameParent, directory]
      exact if_neg splits.nonempty
    rw [used]
    exact ⟨none, splits, (expectedDirectory_none opens).symm⟩
  | some before =>
    cases before with
    | nil => exact absurd directory elsewhere
    | cons x rest =>
      rw [directory] at splits
      have used : renameParent env ino s
          = (env.openParent ino (x :: rest), (cutFragment s).name) := by
        rw [renameParent, directory]
        exact if_neg (cons_ne_nil x rest)
      rw [used]
      exact ⟨some (x :: rest), splits, (expectedDirectory_some opens).symm⟩

theorem Expected.right (expected : Expected env fd s used) : Right env fd s used :=
  ⟨used.1, expected, .inl rfl⟩

theorem Copied.right_top (splits : Splits s (some [slash]) name)
    : Right env fd s (some env.p.pwd, name) ↔ CwdIsTop env fd := by
  constructor
  · rintro ⟨directory, ⟨pre, splits', expected⟩, allowed⟩
    obtain ⟨rfl, -⟩ := splits.unique splits'
    subst expected
    exact allowed
  · intro allowed
    exact ⟨_, ⟨_, splits, rfl⟩, allowed⟩

/-- What is used for a path is right unless it lies directly below a root that is not the working
directory.
-/
theorem Copied.right_iff (copied : Copied s) (opens : env.inodeOf fd = some ino)
    : Right env fd s (renameParent env ino s) ↔ (BelowTop s → CwdIsTop env fd) := by
  by_cases below : BelowTop s
  · obtain ⟨used, splits⟩ := @Copied.renameParent_top env s ino copied below
    rw [used, Copied.right_top splits]
    exact ⟨fun top _ => top, fun top => top below⟩
  · have expected := copied.renameParent_expected below opens
    exact iff_of_true expected.right fun below' => absurd below' below

theorem secureStrdup_some (dup : secureStrdup path = some copy)
    : ∃ text, path = .text text ∧ text ≠ [] ∧ copy = text.take pathMax := by
  cases path with
  | null | unreadable => cases dup
  | text text =>
    rw [secureStrdup] at dup
    split at dup <;> cases dup
    next nonempty =>
      exact ⟨text, rfl, nonempty, rfl⟩

/-- A copy that does not fill the buffer is that of the whole path. -/
theorem secureStrdup_whole (dup : secureStrdup path = some copy) (fits : copy.length ≠ pathMax)
    : path = .text copy ∧ copy ≠ [] := by
  obtain ⟨text, rfl, nonempty, rfl⟩ := secureStrdup_some dup
  rw [length_take] at fits
  have whole : text.take pathMax = text := by
    refine take_of_length_le (Nat.le_of_not_lt fun long => fits ?_)
    exact min_eq_left (le_of_lt long)
  rw [whole]
  exact ⟨rfl, nonempty⟩

section
variable (done : unlinkPath fd path = .uses safePath)
include done

theorem unlinkPath_copied
    : ∃ text, path = .text text ∧ safePath = cleanupPath (text.take pathMax) ∧ Copied safePath := by
  unfold unlinkPath at done
  repeat' split at done
  all_goals cases done
  next copy dup _ notTop =>
  obtain ⟨text, rfl, nonempty, rfl⟩ := secureStrdup_some dup
  refine ⟨text, rfl, rfl, clean_cleanupPath _, cleanupPath_ne_nil ?_, notTop⟩
  intro empty
  rw [take_eq_nil_iff] at empty
  exact empty.elim (fun none => by cases none) nonempty

/-- Directly below the root `sys_unlinkat` uses the working directory. -/
theorem unlinkat_top (copied : Copied safePath) (below : BelowTop safePath)
    : unlinkat env fd path = .uses (some env.p.pwd, (cutFragment safePath).name) := by
  unfold unlinkat
  rw [done]
  simp only [copied.belowTop_iff.2 below]
  simp

/-- Elsewhere it uses the parent. -/
theorem unlinkat_elsewhere (copied : Copied safePath) (elsewhere : ¬ BelowTop safePath)
    : unlinkat env fd path = (match env.inodeOf fd with
        | none => .refused .ebadf
        | some ino => .uses (renameParent env ino safePath)) := by
  have whichInode : (if fd ≠ atFdcwd then env.inodeOf fd else some env.p.pwd) = env.inodeOf fd := by
    unfold Env.inodeOf
    split
    · rfl
    next isCwd => rw [if_pos (not_not.1 isCwd)]
  rw [← copied.belowTop_iff] at elsewhere
  have filled : (cutFragment safePath).directory.getD (cutFragment safePath).name ≠ [] := by
    cases directory : (cutFragment safePath).directory with
    | none => exact copied.splits.nonempty
    | some before =>
      rintro blank
      rw [Option.getD_some] at blank
      rw [directory, blank] at elsewhere
      exact elsewhere rfl
  unfold unlinkat renameParent
  rw [done]
  simp only [filled, decide_false, and_true, whichInode, if_false, Bool.false_eq_true]
  cases env.inodeOf fd with
  | none => rfl
  | some ino => cases (cutFragment safePath).directory <;> rfl

end

theorem Expected.unique (first : Expected env fd s used) (second : Expected env fd s target)
    : used = target := by
  obtain ⟨pre, splits, directory⟩ := first
  obtain ⟨pre', splits', directory'⟩ := second
  obtain ⟨rfl, sameName⟩ := splits.unique splits'
  exact Prod.ext (directory.trans directory'.symm) sameName

theorem unlinkat_meets_iff {property} (done : unlinkPath fd path = .uses safePath)
    (copied : Copied safePath)
    : (unlinkat env fd path).Meets property
      ↔ ∀ target, UsedForCopy env fd safePath target → property target := by
  by_cases below : BelowTop safePath
  · obtain ⟨-, splits⟩ := @Copied.renameParent_top env safePath env.p.pwd copied below
    rw [unlinkat_top done copied below]
    constructor
    · rintro holds ⟨directory, name⟩ (⟨-, splits', rfl⟩ | ⟨elsewhere, -⟩)
      · obtain ⟨-, rfl⟩ := splits.unique splits'
        exact holds
      · exact absurd below elsewhere
    · exact fun holds => holds _ (.inl ⟨below, splits, rfl⟩)
  · rw [unlinkat_elsewhere done copied below]
    cases opens : env.inodeOf fd with
    | none =>
      refine iff_of_true trivial ?_
      rintro target (⟨below', -⟩ | ⟨-, open', -⟩)
      · exact absurd below' below
      · exact absurd opens open'
    | some ino =>
      have expected := copied.renameParent_expected below opens
      constructor
      · rintro holds target (⟨below', -⟩ | ⟨-, -, expected'⟩)
        · exact absurd below' below
        · rw [expected'.unique expected]
          exact holds
      · exact fun holds => holds _ (.inr ⟨below, by simp [opens], expected⟩)

/-- For a path that is copied as a whole only the root matters. -/
theorem used_right_iff (copied : Copied s)
    : (∀ target, UsedForCopy env fd s target → Right env fd s target)
      ↔ (BelowTop s → CwdIsTop env fd) := by
  by_cases below : BelowTop s
  · obtain ⟨-, splits⟩ := @Copied.renameParent_top env s env.p.pwd copied below
    constructor
    · intro right _
      exact (Copied.right_top splits).1 (right _ (.inl ⟨below, splits, rfl⟩))
    · rintro top ⟨directory, name⟩ (⟨-, splits', rfl⟩ | ⟨elsewhere, -⟩)
      · exact (Copied.right_top splits').2 (top below)
      · exact absurd below elsewhere
  · refine iff_of_true ?_ fun below' => absurd below' below
    rintro target (⟨below', -⟩ | ⟨-, -, expected⟩)
    · exact absurd below' below
    · exact expected.right

theorem unlinkat_agrees_iff (env : Env) (fd : ℤ) (path : PathArg)
    : Agrees env (.unlinkat fd path) ↔ ParentOk env (.unlinkat fd path) := by
  rw [Agrees, ParentOk]
  cases checked : unlinkPath fd path with
  | crash =>
    rw [unlinkat, checked]
    exact iff_of_false id fun ok => ok.1 rfl
  | refused errno =>
    rw [unlinkat, checked]
    exact iff_of_true trivial ⟨nofun, fun _ _ _ => nofun⟩
  | uses safePath =>
    obtain ⟨text, rfl, copy, copied⟩ := unlinkPath_copied checked
    rw [unlinkat_meets_iff checked copied]
    have whole (short : text.length ≤ pathMax) : safePath = cleanupPath text := by
      rw [copy, take_of_length_le short]
    constructor
    · intro agrees
      refine ⟨nofun, ?_⟩
      rintro _ _ ⟨⟩ ⟨⟩
      have right (target : Target) (used : UsedForCopy env fd safePath target)
          : Right env fd (cleanupPath text) target := by
        obtain ⟨_, ⟨⟩, right⟩ := agrees target used
        exact right
      refine ⟨fun short => ?_, fun _ => right⟩
      rw [← whole short] at right
      exact (used_right_iff copied).1 right
    · rintro ⟨-, ok⟩ target used
      obtain ⟨short, long⟩ := ok text safePath rfl rfl
      refine ⟨text, rfl, ?_⟩
      by_cases fits : text.length ≤ pathMax
      · have right := (used_right_iff copied).2 (short fits) target used
        rw [whole fits] at right
        exact right
      · exact long (Nat.lt_of_not_le fits) target used

theorem renamePath_copied {missing} (done : renamePath missing path = .ok safePath)
    : ∃ text, path = .text text ∧ safePath = cleanupPath text ∧ Copied safePath := by
  unfold renamePath at done
  repeat' split at done
  all_goals cases done
  next copy dup _ fits _ notTop _ =>
    obtain ⟨rfl, given⟩ := secureStrdup_whole dup fits
    exact ⟨copy, rfl, rfl, clean_cleanupPath copy, cleanupPath_ne_nil given, notTop⟩

/-- What the arguments of a rename are when they pass the checks. -/
theorem renameArgs_ok {oldfd newfd old new oldParent newParent oldDup newDup}
    (done : renameArgs env oldfd old newfd new = .ok ((oldParent, oldDup), newParent, newDup))
    : (env.inodeOf oldfd = some oldParent ∧ env.inodeOf newfd = some newParent)
      ∧ (∃ text, old = .text text ∧ oldDup = cleanupPath text ∧ Copied oldDup)
      ∧ ∃ text, new = .text text ∧ newDup = cleanupPath text ∧ Copied newDup := by
  unfold renameArgs at done
  repeat' split at done
  all_goals cases done
  next oldOpen oldChecked newOpen newChecked =>
    exact ⟨⟨oldOpen, newOpen⟩, renamePath_copied oldChecked, renamePath_copied newChecked⟩

/-- The first parent of a rename is found. -/
theorem Copied.renameParent_ne_none (copied : Copied s) (opens : env.inodeOf fd = some ino)
    : (renameParent env ino s).1 ≠ none
      ↔ BelowTop s ∨ ∀ target, Expected env fd s target → target.1 ≠ none := by
  by_cases below : BelowTop s
  · refine iff_of_true ?_ (.inl below)
    rw [(copied.renameParent_top below).1]
    exact nofun
  have expected := copied.renameParent_expected below opens
  constructor
  · intro found
    refine .inr fun target expected' => ?_
    rw [expected'.unique expected]
    exact found
  · rintro (below' | found)
    · exact absurd below' below
    · exact found _ expected

theorem renameat_agrees_iff (env : Env) (oldfd : ℤ) (old : PathArg) (newfd : ℤ) (new : PathArg)
    : Agrees env (.renameat oldfd old newfd new)
      ↔ ParentOk env (.renameat oldfd old newfd new) := by
  rw [Agrees, ParentOk]
  cases checked : renameArgs env oldfd old newfd new with
  | error errno =>
    rw [renameat, checked]
    exact iff_of_true trivial fun _ _ _ _ => nofun
  | ok args =>
    obtain ⟨⟨oldParent, oldDup⟩, newParent, newDup⟩ := args
    obtain ⟨⟨oldOpen, newOpen⟩, ⟨oldText, rfl, rfl, oldCopied⟩, ⟨newText, rfl, rfl, newCopied⟩⟩ :=
      renameArgs_ok checked
    have oldRight := oldCopied.right_iff oldOpen
    have newRight := newCopied.right_iff newOpen
    have found := oldCopied.renameParent_ne_none oldOpen
    rw [renameat, checked]
    dsimp only
    constructor
    · rintro agrees _ _ _ _ ⟨⟩
      rw [← oldRight, ← newRight, ← found]
      split at agrees
      next missing =>
        obtain ⟨⟨_, ⟨⟩, right⟩, -⟩ := agrees
        exact ⟨right, fun found => absurd missing found⟩
      next =>
        obtain ⟨⟨_, ⟨⟩, right⟩, destination⟩ := agrees
        obtain ⟨_, ⟨⟩, right'⟩ := destination _ rfl
        exact ⟨right, fun _ => right'⟩
    · intro ok
      obtain ⟨source, destination⟩ := ok _ _ _ _ rfl
      rw [← oldRight] at source
      rw [← newRight, ← found] at destination
      split
      next => exact ⟨⟨oldText, rfl, source⟩, nofun⟩
      next isFound =>
      refine ⟨⟨oldText, rfl, source⟩, ?_⟩
      rintro _ ⟨⟩
      exact ⟨newText, rfl, destination isFound⟩

theorem openParent_nil (env : Env) (base : Inode) : env.openParent base [] = none := by
  unfold Env.openParent
  split
  next done =>
    obtain ⟨⟨_, ⟨⟩⟩, -⟩ | ⟨root, text, begins, -⟩ := openatInode_cases done
    exact absurd rfl begins.nonempty
  · rfl

theorem mknodArgs_ok {device high} (done : mknodArgs env fd path device high = .ok (base, s))
    : path = .text s ∧ (cutAt s).name ≠ [] ∧ env.inodeOf fd = some base := by
  unfold mknodArgs at done
  iterate 4
    rw [ite_eq_iff] at done
    obtain ⟨-, ⟨⟩⟩ | ⟨-, done⟩ := done
  split at done
  · cases done
  next dup =>
  iterate 4
    rw [ite_eq_iff] at done
    obtain ⟨-, ⟨⟩⟩ | ⟨_, done⟩ := done
  split at done
  · cases done
  next fits named _ _ _ opens =>
    cases done
    exact ⟨(secureStrdup_whole dup fits).1, named, opens⟩

theorem mknodat_agrees_iff (env : Env) (fd : ℤ) (path : PathArg) (device high : Bool)
    : Agrees env (.mknodat fd path device high) ↔ ParentOk env (.mknodat fd path device high) := by
  rw [Agrees, ParentOk]
  cases checked : mknodArgs env fd path device high with
  | error errno =>
    rw [mknodat, checked]
    exact iff_of_true trivial fun _ _ _ => nofun
  | ok args =>
    obtain ⟨base, s⟩ := args
    obtain ⟨rfl, named, opens⟩ := mknodArgs_ok checked
    have splits := cutAt_splits named
    rw [mknodat, checked]
    dsimp only
    have condition (elsewhere : (cutAt s).directory ≠ some [])
        : ∀ base' name, slash ∉ name →
          (Except.ok (base, s) : Except Errno (Inode × Path)) = .ok (base', slash :: name) →
            env.openParent base' [slash] = none := by
      rintro _ name noSlash ⟨⟩
      rw [cutAt_top noSlash] at elsewhere
      exact absurd rfl elsewhere
    cases directory : (cutAt s).directory with
    | none =>
      rw [directory] at splits
      refine iff_of_true ⟨s, rfl, Expected.right ⟨none, splits, ?_⟩⟩
        (condition (by simp [directory]))
      exact (expectedDirectory_none opens).symm
    | some before =>
      cases before with
      | nil =>
        rw [directory] at splits
        have isTop : s = slash :: (cutAt s).name := cutAt_directory directory
        constructor
        · rintro ⟨_, ⟨⟩, expected, ⟨pre, splits', isExpected⟩, allowed⟩ base' name _ ⟨⟩
          obtain ⟨rfl, -⟩ := splits.unique splits'
          have isExpected := isExpected.trans (expectedDirectory_some opens)
          rw [openParent_nil] at allowed
          obtain same | ⟨missing, -⟩ := allowed
          · exact isExpected.symm.trans same.symm
          · exact isExpected.symm.trans missing
        · intro unopened
          have unopened := unopened base _ splits.noSlash (by rw [← isTop])
          refine ⟨s, rfl, none, ⟨some [slash], splits, ?_⟩, .inl (openParent_nil env base)⟩
          exact ((expectedDirectory_some opens).trans unopened).symm
      | cons x rest =>
        rw [directory] at splits
        refine iff_of_true ⟨s, rfl, Expected.right ⟨some (x :: rest), splits, ?_⟩⟩
          (condition (by simp [directory]))
        exact (expectedDirectory_some opens).symm

/-- The calls act on the directory that `openat` opens for the parent of their path, and on its
last component, exactly if they are in order.
-/
theorem agrees_iff (env : Env) (call : Call) : Agrees env call ↔ ParentOk env call := by
  cases call with
  | unlinkat fd path => exact unlinkat_agrees_iff env fd path
  | renameat oldfd old newfd new => exact renameat_agrees_iff env oldfd old newfd new
  | mknodat fd path device high => exact mknodat_agrees_iff env fd path device high

/-- The entries of a filesystem whose root holds a file `s` and a directory `j`; `j` holds a
directory `b` and a symbolic link `l`.
-/
def jailEntries : List (Inode × Path × Inode) :=
  [(⟨0, 2⟩, [106], ⟨0, 10⟩), (⟨0, 2⟩, [115], ⟨0, 13⟩), (⟨0, 10⟩, [98], ⟨0, 11⟩),
    (⟨0, 10⟩, [108], ⟨0, 12⟩), (⟨0, 10⟩, dotDot, ⟨0, 2⟩), (⟨0, 11⟩, dotDot, ⟨0, 10⟩)]

def jailType (i : Inode) : FileType :=
  if i = ⟨0, 12⟩ then .lnk else if i = ⟨0, 13⟩ then .reg else .dir

/-- That filesystem with an empty one mounted on `b`, behind a driver that looks names up by the
number of the directory, as the driver of ext2 does. The symbolic link holds the given text.
-/
def jail (target : Path) : Vfs where
  rootSuperblock := 0
  mountpoint sb := if sb = 1 then ⟨0, 11⟩ else ⟨0, 2⟩
  readOnly _ := false
  hasLookup _ := true
  hasCreat _ := false
  hasMkdir _ := false
  hasPread _ := true
  hasPwrite _ := true
  hasTrunc _ := true
  type := jailType
  size _ := target.length
  instances i := if i = ⟨0, 2⟩ ∨ i = ⟨0, 10⟩ ∨ i = ⟨0, 11⟩ then 2 else 0
  isMountpoint i := decide (i = ⟨0, 2⟩ ∨ i = ⟨0, 11⟩)
  nextSuperblock i := if i = ⟨0, 11⟩ then 1 else 0
  permits _ _ := true
  lookup sb prev name _ :=
    if jailType prev ≠ .dir then .error .enotdir
    else if name = dot then .found (some prev)
    else if prev.id = 2 ∧ name = dotDot then .escape
    else
      match jailEntries.find? (fun entry => entry.1 = ⟨sb, prev.id⟩ ∧ entry.2.1 = name) with
      | some entry => .found (some entry.2.2)
      | none => .error .enoent
  lookupRoot sb := .ok (some ⟨sb, 2⟩)
  creat _ _ _ := .error .enospc
  mkdir _ _ _ := .error .enospc
  pread _ := .ok target
  trunc _ := none
  linkMemory := true
  dupMemory := true
  strayLength := 0

/-- A process at the root whose working directory is the directory `j` below it. -/
def besideTop : Env where
  v := jail dot
  p := ⟨some ⟨0, 2⟩, ⟨0, 10⟩, 0⟩
  fuel := 1
  fds _ := none

theorem besideTop_opens
    : besideTop.openParent ⟨0, 10⟩ [slash] = some ⟨0, 2⟩ := rfl

theorem besideTop_cwd : ¬ CwdIsTop besideTop atFdcwd := by
  rintro (same | ⟨⟨⟩, -⟩)
  exact absurd same (by decide)

/-- With the path `/s` a call to unlink or rename uses `s` in the working directory `j`, and
`sys_mknodat` opens nothing for `/n`, while `openat` opens the root for `/`.
-/
theorem top_is_not_cwd
    : besideTop.openParent ⟨0, 10⟩ [slash] = some ⟨0, 2⟩
      ∧ unlinkat besideTop atFdcwd (.text [slash, 115]) = .uses (some ⟨0, 10⟩, [115])
      ∧ ¬ Agrees besideTop (.unlinkat atFdcwd (.text [slash, 115]))
      ∧ ¬ Agrees besideTop (.renameat atFdcwd (.text [slash, 115]) atFdcwd (.text [116]))
      ∧ ¬ Agrees besideTop (.mknodat atFdcwd (.text [slash, 110]) true false)
      ∧ ¬ Agrees besideTop (.unlinkat atFdcwd .null) := by
  have below : BelowTop [slash, 115] := ⟨[115], by decide, by decide, .inl rfl⟩
  refine ⟨besideTop_opens, rfl, ?_, ?_, ?_, ?_⟩
  · rw [unlinkat_agrees_iff]
    rintro ⟨-, ok⟩
    exact besideTop_cwd ((ok _ [slash, 115] rfl rfl).1 (by decide) below)
  · rw [renameat_agrees_iff]
    intro ok
    exact besideTop_cwd ((ok ⟨0, 10⟩ [slash, 115] ⟨0, 10⟩ [116] rfl).1 below)
  · rw [mknodat_agrees_iff]
    intro ok
    cases besideTop_opens.symm.trans (ok ⟨0, 10⟩ [110] (by decide) rfl)
  · rw [unlinkat_agrees_iff]
    rintro ⟨returns, -⟩
    exact returns rfl

end UnstableOS.Fs.ParentPath
