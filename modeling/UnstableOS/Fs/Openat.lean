import UnstableOS.Kernel.Errno
import UnstableOS.Lib.Ledger

/-! Opening a path, `__openat_inode` of `fs_open.c`.
The filesystems are what their drivers answer. A walk over the path keeps one directory open at
a time; every reference, buffer and lock it takes and gives back is written to a ledger.
-/

namespace UnstableOS.Fs.Openat

open Kernel Lib

-- Paths

/-- The bytes of a C string without the null at its end. -/
abbrev Path := List UInt8

def slash : UInt8 := 47

/-- `PATH_CURRENT`. -/
def dot : Path := [46]

/-- `PATH_PARENT`. -/
def dotDot : Path := [46, 46]

/-- `PATH_METADIR`. -/
def metadir : Path := [slash, slash]

/-- `PATH_MAX`. -/
def pathMax : ℕ := 4096

/-- `SYMLINK_MAX`. -/
def symlinkMax : ℕ := 1024

/-- `SYMLOOP_MAX`. -/
def symloopMax : ℕ := 32

/-- The first loop of `cleanup_path`: of slashes in a row only the first one stays. -/
def dropDoubled : Bool → Path → Path
  | _, [] => []
  | seenSlash, c :: rest =>
    if c = slash then
      if seenSlash then dropDoubled true rest else c :: dropDoubled true rest
    else c :: dropDoubled false rest

/-- The second loop of `cleanup_path`, on the reversed path. -/
def dropTrailing : Path → Path
  | c :: d :: rest => if c = slash ∧ d = slash then dropTrailing (d :: rest) else c :: d :: rest
  | short => short

/-- `cleanup_path`. -/
def cleanupPath (path : Path) : Path := (dropTrailing (dropDoubled false path).reverse).reverse

/-- The parts of a path that the loop of `__openat_inode` takes in turn. A slash at the end
begins no part.
-/
def fragments : Path → List Path
  | [] => [[]]
  | c :: rest =>
    if c = slash then if rest = [] then [[]] else [] :: fragments rest
    else
      match fragments rest with
      | [] => [[c]]
      | first :: more => (c :: first) :: more

/-- A path as a caller gives it: a null pointer, one that cannot be read, or a text. -/
inductive PathArg where
  | null
  | unreadable
  | text (path : Path)
deriving Repr, DecidableEq

/-- `secure_strdup` with `PATH_MAX`. -/
def secureStrdup : PathArg → Option Path
  | .text path => if path = [] then none else some (path.take pathMax)
  | _ => none

-- The filesystems

/-- An inode, named by its superblock and its number there; `register_inode` keeps one record
for each.
-/
structure Inode where
  sb : ℕ
  id : ℕ
deriving Repr, DecidableEq

inductive FileType where
  | reg
  | dir
  | chr
  | blk
  | fifo
  | lnk
deriving Repr, DecidableEq

/-- The flags of `fcntl.h` that opening looks at; `O_SEARCH` is `O_EXEC`. -/
structure Flags where
  rdonly : Bool := false
  wronly : Bool := false
  exec : Bool := false
  creat : Bool := false
  trunc : Bool := false
  directory : Bool := false
  excl : Bool := false
  nofollow : Bool := false
  path : Bool := false
  noxdev : Bool := false
  symlinkNofollow : Bool := false
deriving Repr, DecidableEq

/-- `O_SEARCH | O_DIRECTORY`. -/
def Flags.searchDirectory : Flags := { exec := true, directory := true }

/-- What `O_PATH` and `O_SEARCH` leave of the flags. -/
def Flags.mask (flags : Flags) : Flags :=
  if flags.path || flags.exec then
    { path := flags.path
      directory := flags.directory
      exec := flags.exec
      symlinkNofollow := flags.symlinkNofollow
      noxdev := flags.noxdev }
  else flags

/-- The permissions asked of `inode_check_perm`. -/
structure Perms where
  read : Bool := false
  write : Bool := false
  exec : Bool := false
deriving Repr, DecidableEq

/-- The permissions an open file needs. -/
def Flags.wantedPerms (flags : Flags) : Perms := ⟨flags.rdonly, flags.wronly, flags.exec⟩

inductive LookupResult where
  | error (errno : Errno)
  /-- `VFS_LOOKUP_ESCAPE` -/
  | escape
  /-- status 0, with the inode that was put out, none for null -/
  | found (inode : Option Inode)
deriving Repr, DecidableEq

/-- What opening reads of superblocks and inodes, and what the drivers answer. -/
structure Vfs where
  rootSuperblock : ℕ
  mountpoint : ℕ → Inode
  readOnly : ℕ → Bool
  hasLookup : ℕ → Bool
  hasCreat : ℕ → Bool
  hasMkdir : ℕ → Bool
  hasPread : ℕ → Bool
  hasPwrite : ℕ → Bool
  hasTrunc : ℕ → Bool
  type : Inode → FileType
  size : Inode → ℕ
  instances : Inode → ℕ
  isMountpoint : Inode → Bool
  nextSuperblock : Inode → ℕ
  /-- `inode_check_perm` returns 0 -/
  permits : Inode → Perms → Bool
  /-- `lookup` from a directory -/
  lookup : ℕ → Inode → Path → Flags → LookupResult
  /-- `lookup` of "." from null, which is the root of the filesystem -/
  lookupRoot : ℕ → Except Errno (Option Inode)
  creat : Inode → Path → UInt32 → Except Errno (Option Inode)
  mkdir : Inode → Path → UInt32 → Except Errno (Option Inode)
  /-- `pread` of a symbolic link: the path it holds -/
  pread : Inode → Except Errno Path
  trunc : Inode → Option Errno
  /-- `kalloc` has memory for the buffer of a symbolic link -/
  linkMemory : Bool
  /-- `kalloc` has memory for `strdup` -/
  dupMemory : Bool
  /-- what `pathlen` holds before it is assigned -/
  strayLength : ℕ

structure Process where
  root : Option Inode
  pwd : Inode
  umask : UInt32
deriving Repr, DecidableEq

-- One part of the path

abbrev Refs := Ledger Inode

/-- What a lookup comes to: the clamp at the root of the process, an error, a name that does
not exist, or an inode. The directory is still open in all cases but the error.
-/
inductive Looked where
  | atRoot (sb : ℕ)
  | fail (errno : Errno)
  | missing (sb : ℕ) (prev : Inode)
  | found (sb : ℕ) (prev new : Inode)
deriving Repr, DecidableEq

/-- From the label `lookup_escape_again` to the end of the cases of `status`: a lookup that
escapes from the root of its filesystem is made again from the mountpoint.
-/
def lookupAgain (v : Vfs) (root : Inode) (flags : Flags) (last : Bool) (name : Path)
    : ℕ → ℕ → Inode → Refs → Option (Looked × Refs)
  | 0, _, _, _ => none
  | fuel + 1, sb, prev, l =>
    if name = dotDot ∧ prev = root then some (.atRoot sb, l)
    else if v.permits prev { exec := true } = false then some (.fail .eacces, l.drop prev)
    else
      match v.lookup sb prev (if name = [] then dot else name) (if last then flags else {}) with
      | .error errno =>
        if errno = .enoent then some (.missing sb prev, l)
        else some (.fail errno, l.drop prev)
      | .escape =>
        let new := v.mountpoint sb
        lookupAgain v root flags last name fuel new.sb new ((l.take new).drop prev)
      | .found none => some (.fail .enxio, l.drop prev)
      | .found (some new) => some (.found sb prev new, l.take new)

variable (v : Vfs)

/-- The branch for `ENOENT`: the last name is created if that is asked for. -/
def create (flags : Flags) (mode : UInt32) (last : Bool) (name : Path) (sb : ℕ)
    (prev : Inode) (l : Refs) : Except Errno Inode × Refs :=
  if last = true ∧ ((flags.directory = false ∧ v.hasCreat sb = true)
      ∨ (flags.directory = true ∧ v.hasMkdir sb = true)) ∧ flags.creat = true then
    if v.permits prev { write := true, exec := true } = false then (.error .eacces, l.drop prev)
    else if v.readOnly sb then (.error .erofs, l.drop prev)
    else
      match if flags.directory then v.mkdir prev name mode else v.creat prev name mode with
      | .error errno => (.error errno, l.drop prev)
      | .ok none => (.error .enxio, l.drop prev)
      | .ok (some new) => (.ok new, (l.take new).drop prev)
  else (.error .enoent, l.drop prev)

/-- Where the loop stands: the superblock, the open directory, and whether the buffer for
symbolic links is allocated.
-/
structure Cursor where
  sb : ℕ
  prev : Inode
  buffer : Bool
deriving Repr, DecidableEq

/-- The way `__openat_inode` is called for the target of a symbolic link. -/
abbrev Follow := Inode → Path → Flags → Refs → Option (Except Errno Inode × Refs)

/-- The branch for a symbolic link; `new` is closed on the way, `prev` only on an error. The
second component says whether the buffer is allocated afterwards.
-/
def followLink (follow : Follow) (flags : Flags) (last : Bool) (c : Cursor)
    (new : Inode) (l : Refs) : Option (Except Errno Inode × Bool × Refs) :=
  if v.permits new { exec := true } = false then
    some (.error .eacces, c.buffer, (l.drop c.prev).drop new)
  else if v.hasPread c.sb = false ∨ v.size new ≥ symlinkMax then
    some (.error .enoent, c.buffer, (l.drop c.prev).drop new)
  else if c.buffer = false ∧ v.linkMemory = false then
    some (.error .eloop, c.buffer, (l.drop c.prev).drop new)
  else
    let l := if c.buffer then l else l.alloc
    match v.pread new with
    | .error errno => some (.error errno, true, (l.drop new).drop c.prev)
    | .ok target =>
      match follow c.prev target (if last then flags else .searchDirectory) (l.drop new) with
      | none => none
      | some (.error errno, l) => some (.error errno, true, l.drop c.prev)
      | some (.ok new, l) => some (.ok new, true, l)

inductive Turn where
  | fail (errno : Errno)
  | done (new : Inode)
  | next (c : Cursor)
deriving Repr, DecidableEq

/-- The checks of the last name, behind the mountpoints. -/
def finishLast (flags : Flags) (new : Inode) (l : Refs) : Turn × Refs :=
  if v.permits new flags.wantedPerms = false then (.fail .eacces, l.drop new)
  else if v.type new = .reg ∧ flags.trunc = true ∧ flags.wronly = true
      ∧ v.hasTrunc new.sb = true then
    match v.trunc new with
    | some errno => (.fail errno, l.drop new)
    | none => (.done new, l)
  else (.done new, l)

/-- The rest of the loop body, behind the symbolic links: `prev` is closed, mountpoints are
crossed and the last name is checked.
-/
def settle (flags : Flags) (needDir last : Bool) (c : Cursor) (new : Inode) (l : Refs)
    : Turn × Refs :=
  let l := l.drop c.prev
  if last = true ∧ needDir = true ∧ v.type new ≠ .dir then (.fail .enotdir, l.drop new)
  else if last = true ∧ v.type new = .reg ∧ (v.readOnly c.sb = true ∨ v.hasPwrite c.sb = false)
      ∧ flags.wronly = true then
    (.fail .erofs, l)
  else if v.isMountpoint new = true ∧ ¬ (last = true ∧ flags.noxdev = true) then
    let sb := v.nextSuperblock new
    let l := l.drop new
    if v.hasLookup sb = false then (.fail .einval, l)
    else
      match v.lookupRoot sb with
      | .error errno => (.fail errno, l)
      | .ok none => (.fail .enxio, l)
      | .ok (some new) =>
        if last then finishLast v flags new (l.take new)
        else (.next { c with sb := sb, prev := new }, l.take new)
  else if last then finishLast v flags new l
  else (.next { c with prev := new }, l)

/-- The loop body behind a lookup that found `new`. -/
def turnFound (follow : Follow) (flags : Flags) (needDir last : Bool) (c : Cursor)
    (new : Inode) (l : Refs) : Option (Turn × Refs) :=
  if last = true ∧ flags.creat = true ∧ (flags.excl = true ∨ flags.directory = true) then
    some (.fail .eexist, (l.drop c.prev).drop new)
  else if last = true ∧ v.type new = .lnk ∧ flags.nofollow = true then
    some (.fail .eloop, (l.drop c.prev).drop new)
  else if ¬ (last = true ∧ flags.symlinkNofollow = true) ∧ v.type new = .lnk then
    match followLink v follow flags last c new l with
    | none => none
    | some (.error errno, _, l) => some (.fail errno, l)
    | some (.ok new, buffer, l) =>
      some (settle v flags needDir last { c with buffer := buffer } new l)
  else some (settle v flags needDir last c new l)

/-- The body of the loop for one name. -/
def turn (root : Inode) (follow : Follow) (flags : Flags) (mode : UInt32)
    (needDir : Bool) (fuel : ℕ) (last : Bool) (name : Path) (c : Cursor) (l : Refs)
    : Option (Turn × Refs) :=
  match lookupAgain v root flags last name fuel c.sb c.prev l with
  | none => none
  | some (.fail errno, l) => some (.fail errno, l)
  | some (.atRoot sb, l) =>
    some (if last then .done root else .next { c with sb := sb, prev := root }, l)
  | some (.missing sb prev, l) =>
    match create v flags mode last name sb prev l with
    | (.error errno, l) => some (.fail errno, l)
    | (.ok new, l) => some (.done new, l)
  | some (.found sb prev new, l) =>
    turnFound v follow flags needDir last { c with sb := sb, prev := prev } new l

-- The whole path

/-- The loop of `__openat_inode`. -/
def walk (v : Vfs) (root : Inode) (follow : Follow) (flags : Flags) (mode : UInt32)
    (needDir : Bool) (fuel : ℕ) : List Path → Cursor → Refs → Option (Except Errno Inode × Refs)
  | [], _, _ => none
  | name :: rest, c, l =>
    match turn v root follow flags mode needDir fuel rest.isEmpty name c l with
    | none => none
    | some (.fail errno, l) => some (.error errno, l)
    | some (.done new, l) => some (.ok new, l)
    | some (.next c, l) => walk v root follow flags mode needDir fuel rest c l

/-- Where the walk begins: the base, or the root of what is mounted on it. None if an assertion
fails, which it does when that root cannot be looked up.
-/
def enter (base : Inode) (preincremented : Bool) (l : Refs) : Option (Cursor × Refs) :=
  if v.isMountpoint base = true ∧ base ≠ v.mountpoint v.rootSuperblock then
    match v.lookupRoot (v.nextSuperblock base) with
    | .ok (some prev) =>
      let l := l.take prev
      let l := if preincremented then l.drop base else l
      if v.isMountpoint prev = true ∧ prev ≠ v.mountpoint v.rootSuperblock then none
      else some (⟨v.nextSuperblock base, prev, false⟩, l)
    | _ => none
  else some (⟨base.sb, base, false⟩, if preincremented then l else l.take base)

/-- The inode a path is opened from. -/
inductive Base where
  | null
  /-- `AT_FDCWD` -/
  | cwd
  | inode (inode : Inode)
deriving Repr, DecidableEq

/-- The inode that stands for the base. -/
def Base.start (p : Process) : Base → Inode
  | .inode start => start
  | _ => p.pwd

/-- The copy of the path and its length. -/
def dupPath (trusted : Bool) (path : PathArg) : Option Path × ℕ :=
  if trusted then
    match path with
    | .text text => (if v.dupMemory then some text else none, text.length)
    | _ => (none, v.strayLength)
  else
    match secureStrdup path with
    | some text => (some text, text.length)
    | none => (none, v.strayLength)

def isAbsolute (path : Path) : Bool := decide (path.head? = some slash)

/-- `need_dir`. -/
def needsDir (path : Path) : Bool := decide (path.getLast? = some slash)

/-- The names of a path that was cleaned up. -/
def pathNames (path : Path) : List Path := fragments (if isAbsolute path then path.tail else path)

/-- The directory the names are looked up from. -/
def baseOf (root start : Inode) (path : Path) : Inode := if isAbsolute path then root else start

/-- The lock and the root are taken, and a base that is not used is given back. -/
def opened (root start : Inode) (preincremented : Bool) (path : Path) (l : Refs) : Refs :=
  if isAbsolute path && preincremented then (l.lock.take root).drop start else l.lock.take root

/-- The label `err`. -/
def closed (root : Inode) (l : Refs) : Refs := ((l.drop root).unlock).free

/-- The base was closed while the call began. -/
def RacedWithClose (base : Inode) (l : Refs) : Prop :=
  v.instances base + l.refs base ≤ (if v.isMountpoint base then 1 else 0)

instance (v : Vfs) (base : Inode) (l : Refs) : Decidable (RacedWithClose v base l) :=
  inferInstanceAs (Decidable (_ ≤ _))

/-- The part of `__openat_inode` behind `cleanup_path`. -/
def openText (root : Inode) (follow : Follow) (flags : Flags) (mode : UInt32)
    (fuel : ℕ) (start : Inode) (preincremented : Bool) (path : Path) (l : Refs)
    : Option (Except Errno Inode × Refs) :=
  let l := opened root start preincremented path l
  if RacedWithClose v (baseOf root start path) l then some (.error .einval, closed root l)
  else
    match enter v (baseOf root start path) (preincremented && !isAbsolute path) l with
    | none => none
    | some (c, l) =>
      match walk v root follow flags mode (needsDir path) fuel (pathNames path) c l with
      | none => none
      | some (.error errno, l) => some (.error errno, closed root l)
      | some (.ok new, l) =>
        if flags.directory = true ∧ v.type new ≠ .dir then
          some (.error .enotdir, closed root (l.drop new))
        else some (.ok new, closed root l)

/-- `__openat_inode`; the first number is what `nsym` lacks to `SYMLOOP_MAX`. None if the call
does not return: an assertion fails or the lookups escape without end.
-/
def openatInode (v : Vfs) (p : Process) (fuel : ℕ)
    : ℕ → Base → PathArg → Flags → UInt32 → Bool → Refs → Option (Except Errno Inode × Refs)
  | 0, _, _, _, _, _, l => some (.error .eloop, l)
  | depth + 1, base, path, flags, mode, trusted, l =>
    match p.root with
    | none => some (.error .einval, l)
    | some root =>
      if base = .null then some (.error .einval, l)
      else
        let preincremented := decide (base = .cwd)
        let start := base.start p
        let l := if preincremented then l.take start else l
        let leave (errno : Errno) (l : Refs) : Option (Except Errno Inode × Refs) :=
          some (.error errno, if preincremented then l.drop start else l)
        if v.type start ≠ .dir then leave .enotdir l
        else if path = .null then leave .efault l
        else
          let flags := flags.mask
          -- the type bits of the mode are `S_IFMT`
          let mode := mode &&& ~~~p.umask &&& ~~~0o170000
          let follow : Follow := fun base target flags l =>
            openatInode v p fuel depth (.inode base) (.text target) flags 0 true l
          match dupPath v trusted path with
          | (none, length) => leave (if length = pathMax then .enametoolong else .efault) l
          | (some text, length) =>
            let l := l.alloc
            if length = pathMax then leave .enametoolong l.free
            else if length = 0 then leave .efault l.free
            else if text = metadir then leave .einval l.free
            else
              openText v root follow flags mode fuel start preincremented (cleanupPath text) l

end UnstableOS.Fs.Openat
