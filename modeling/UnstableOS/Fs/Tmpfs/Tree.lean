import UnstableOS.Kernel.DoubleLinkedList
import UnstableOS.Kernel.Errno
import UnstableOS.Lib.Trace
import Mathlib.Data.Finset.Card

/-! The files of a `tmpfs.c` filesystem as a tree.
A file names the directory it is in, and a directory names its first child; the children are
linked in a list. Files are named by their addresses, null is 0.
-/

namespace UnstableOS.Fs.Tmpfs.Tree

open Kernel Lib Function Finset Subset Option Nat Prod

-- The code

/-- `TMPFS_NAME_MAX`. -/
def tmpfsNameMax : ℕ := 255

abbrev Name := List UInt8

def dot : Name := [46]

def dotDot : Name := [46, 46]

inductive FileType where
  | reg
  | dir
  | chr
  | blk
  | fifo
  | lnk
deriving Repr, DecidableEq

/-- The `tmpfile_t` records of a filesystem; `live` are those that are not freed. -/
structure Files where
  root : ℕ
  live : Finset ℕ
  links : Links
  name : ℕ → Name
  mode : ℕ → FileType
  parent : ℕ → ℕ
  children : ℕ → ℕ
  used : ℕ → Bool
  unlinked : ℕ → Bool

/-- `tmpfs_init`. -/
def tmpfsInit (root : ℕ) : Files where
  root := root
  live := {root}
  links := ⟨fun _ => 0, fun _ => 0⟩
  name _ := []
  mode _ := .dir
  parent _ := root
  children _ := 0
  used _ := false
  unlinked _ := false

/-- The loop of `tmpfs_lookup_internal`. -/
def findName (t : Files) (pathname : Name) : ℕ → ℕ → Option ℕ
  | 0, _ => none
  | fuel + 1, file =>
    if file = 0 then some 0
    else if pathname = t.name file then some file
    else findName t pathname fuel (t.links.next file)

/-- `tmpfs_lookup_internal`; null if there is no such child, none if the list does not end. -/
def lookupInternal (t : Files) (dir : ℕ) (pathname : Name) : Option ℕ :=
  findName t pathname (t.live.card + 1) (t.children dir)

/-- `UNLINK_DOUBLE_LINKED_LIST` with the child list of a directory. -/
def Files.unlinkFrom (t : Files) (file dir : ℕ) : Files :=
  let linked := unlinkDoubleLinkedList t.links file (t.children dir)
  { t with links := linked.1, children := update t.children dir linked.2 }

/-- `APPEND_DOUBLE_LINKED_LIST` with the child list of a directory. -/
def Files.appendTo (t : Files) (file dir : ℕ) : Files :=
  let linked := appendDoubleLinkedList t.links file (t.children dir)
  { t with links := linked.1, children := update t.children dir linked.2 }

inductive LookupResult where
  | error (errno : Errno)
  /-- `VFS_LOOKUP_ESCAPE` -/
  | escape
  | found (file : ℕ)
deriving Repr, DecidableEq

/-- `tmpfs_lookup`; `last` is the file of the inode the lookup starts at. -/
def lookup (t : Files) (last : Option ℕ) (pathname : Name) : Option (Files × LookupResult) :=
  let dir := last.getD t.root
  let found (file : ℕ) : Files × LookupResult :=
    ({ t with used := update t.used file true }, .found file)
  if t.unlinked dir then some (t, .error .enoent)
  else if pathname = dot then
    match last with
    | some file => some (t, .found file)
    | none => some (found dir)
  else if pathname = dotDot then
    if last = none ∨ dir = t.root then some (t, .escape) else some (found (t.parent dir))
  else if pathname.length > tmpfsNameMax then some (t, .error .enoent)
  else
    match lookupInternal t dir pathname with
    | none => none
    | some file => if file = 0 then some (t, .error .enoent) else some (found file)

/-- `tmpfs_release`; none if it panics. -/
def release (t : Files) (file : ℕ) : Option Files :=
  let t := { t with used := update t.used file false }
  if t.unlinked file then
    if file = t.root then none
    else if t.children file ≠ 0 then none
    else some { t with live := t.live.erase file }
  else some t

/-- The arguments of `tmpfs_creat_internal` and what it meets: the address of the new record if
there is memory for it, whether there is memory for the copy of a link target, and whether an
inode is asked for and can be registered.
-/
structure CreatRequest where
  dir : ℕ
  pathname : Name
  mode : FileType
  hasTarget : Bool
  memory : Option ℕ
  targetMemory : Bool
  registers : Bool
deriving Repr, DecidableEq

/-- The record of a new file, before it is appended to the list of its directory. -/
def Files.newFile (t : Files) (r : CreatRequest) (new : ℕ) : Files :=
  { t with
    live := insert new t.live
    name := update t.name new r.pathname
    mode := update t.mode new r.mode
    parent := update t.parent new r.dir
    children := update t.children new 0
    used := update t.used new r.registers
    unlinked := update t.unlinked new false }

/-- `tmpfs_creat_internal`, behind `tmpfs_creat`, `tmpfs_mkdir`, `tmpfs_mknod`, `tmpfs_mkfifo`
and `tmpfs_symlink`.
-/
def creatInternal (t : Files) (r : CreatRequest) : Option (Files × Option Errno) :=
  if r.mode = .lnk ∧ r.hasTarget = false then some (t, some .efault)
  else if r.pathname.length > tmpfsNameMax then some (t, some .enametoolong)
  else
    match lookupInternal t r.dir r.pathname with
    | none => none
    | some file =>
      if file ≠ 0 then some (t, some .eexist)
      else
        match r.memory with
        | none => some (t, some .enospc)
        | some new =>
          if r.mode = .lnk ∧ r.targetMemory = false then some (t, some .enospc)
          else some ((t.newFile r new).appendTo new r.dir, none)

/-- The end of `tmpfs_unlink` and `tmpfs_rename` for a file taken off its list: a file without
an inode is freed at once, one in use when its inode is released.
-/
def Files.discard (t : Files) (file : ℕ) : Files :=
  { t with
    used := update t.used file true
    unlinked := update t.unlinked file true
    live := if t.used file then t.live else t.live.erase file }

/-- `tmpfs_unlink`. -/
def unlink (t : Files) (dir : ℕ) (name : Name) : Option (Files × Option Errno) :=
  if name = dot ∨ name = dotDot then some (t, some .einval)
  else if t.mode dir ≠ .dir then some (t, some .enotdir)
  else if name.length > tmpfsNameMax then some (t, some .enoent)
  else
    match lookupInternal t dir name with
    | none => none
    | some file =>
      if file = 0 then some (t, some .enoent)
      else if t.children file ≠ 0 then some (t, some .enotempty)
      else some ((t.unlinkFrom file (t.parent file)).discard file, none)

/-- The part of `tmpfs_rename` that moves a file to another list under another name. The parent
of the file is not written.
-/
def Files.move (t : Files) (oldfile oldparent : ℕ) (newname : Name) (newparent : ℕ) : Files :=
  let t := t.unlinkFrom oldfile oldparent
  let t := { t with name := update t.name oldfile newname }
  t.appendTo oldfile newparent

/-- `tmpfs_rename`. -/
def rename (t : Files) (oldparent : ℕ) (oldname : Name) (newparent : ℕ) (newname : Name)
    : Option (Files × Option Errno) :=
  if oldname = dot ∨ oldname = dotDot then some (t, some .einval)
  else if newname = dot ∨ newname = dotDot then some (t, some .einval)
  else if oldname.length > tmpfsNameMax then some (t, some .enoent)
  else if newname.length > tmpfsNameMax then some (t, some .enametoolong)
  else
    match lookupInternal t oldparent oldname with
    | none => none
    | some oldfile =>
      if oldfile = 0 then some (t, some .enoent)
      else
        match lookupInternal t newparent newname with
        | none => none
        | some newfile =>
          if newfile ≠ 0 ∧ t.children newfile ≠ 0 then some (t, some .enotempty)
          else
            let t := if newfile ≠ 0 then t.unlinkFrom newfile newparent else t
            let t := t.move oldfile oldparent newname newparent
            some (if newfile ≠ 0 then t.discard newfile else t, none)

-- Trees

/-- Following the parents leads to the root. -/
inductive Below (t : Files) : ℕ → Prop where
  | root : Below t t.root
  | child {file : ℕ} (above : Below t (t.parent file)) : Below t file

/-- (IsTree t kids) holds when `kids` are the child lists and the files that are not unlinked
form a tree below the root: a child is on the list of its parent and on no other.
-/
structure IsTree (t : Files) (kids : ℕ → List ℕ) : Prop where
  rootLive : t.root ∈ t.live
  rootLinked : t.unlinked t.root = false
  rootParent : t.parent t.root = t.root
  walks : ∀ dir ∈ t.live, Walk 0 t.links.next (t.children dir) (kids dir)
  distinct : ∀ dir ∈ t.live, (kids dir).Nodup
  childs : ∀ dir ∈ t.live, ∀ file ∈ kids dir,
    file ∈ t.live ∧ t.unlinked file = false ∧ t.parent file = dir ∧ file ≠ t.root
  listed : ∀ file ∈ t.live, t.unlinked file = false → file ≠ t.root →
    t.parent file ∈ t.live ∧ t.unlinked (t.parent file) = false ∧ file ∈ kids (t.parent file)
  below : ∀ file ∈ t.live, t.unlinked file = false → Below t file

def TreeOk (t : Files) : Prop := ∃ kids, IsTree t kids

/-- The operations on a filesystem; the files they are given are those of open inodes. -/
inductive Call where
  | lookup (last : Option ℕ) (pathname : Name)
  | release (file : ℕ)
  | creat (r : CreatRequest)
  | unlink (dir : ℕ) (name : Name)
  | rename (oldparent : ℕ) (oldname : Name) (newparent : ℕ) (newname : Name)
deriving DecidableEq

/-- An inode of the file is open. -/
def Files.Open (t : Files) (file : ℕ) : Prop := file ∈ t.live ∧ t.used file = true

instance (t : Files) (file : ℕ) : Decidable (t.Open file) :=
  inferInstanceAs (Decidable (file ∈ t.live ∧ t.used file = true))

/-- One operation, with any result. `kalloc` returns neither null nor a record that is live. -/
def step (t : Files) : Call → Option Files
  | .lookup last pathname =>
    if ∀ file ∈ last, t.Open file then (lookup t last pathname).map Prod.fst else none
  | .release file => if t.Open file then release t file else none
  | .creat r =>
    if t.Open r.dir ∧ ∀ new ∈ r.memory, new ≠ 0 ∧ new ∉ t.live then
      (creatInternal t r).map Prod.fst
    else none
  | .unlink dir name => if t.Open dir then (unlink t dir name).map Prod.fst else none
  | .rename oldparent oldname newparent newname =>
    if t.Open oldparent ∧ t.Open newparent then
      (rename t oldparent oldname newparent newname).map Prod.fst
    else none

/-- What `tmpfs_creat_internal` refuses whatever is in the directory. -/
def CreatRefused (r : CreatRequest) : Prop :=
  r.pathname.length > tmpfsNameMax ∨ r.memory = none
  ∨ (r.mode = .lnk ∧ (r.hasTarget = false ∨ r.targetMemory = false))

/-- What `tmpfs_rename` refuses. -/
def RenameRefused (t : Files) (oldparent : ℕ) (oldname : Name) (newparent : ℕ) (newname : Name)
    : Prop :=
  oldname = dot ∨ oldname = dotDot ∨ newname = dot ∨ newname = dotDot
  ∨ oldname.length > tmpfsNameMax ∨ newname.length > tmpfsNameMax
  ∨ lookupInternal t oldparent oldname = some 0
  ∨ ∃ newfile, lookupInternal t newparent newname = some newfile ∧ newfile ≠ 0
      ∧ t.children newfile ≠ 0

/-- The operations that keep the tree: nothing is created in a directory that is unlinked, and
a file is renamed within its directory and not to its own name. What is refused changes nothing.
-/
def Safe (t : Files) : Call → Prop
  | .creat r => t.unlinked r.dir = false ∨ CreatRefused r
  | .rename oldparent oldname newparent newname =>
    (oldparent = newparent ∧ oldname ≠ newname)
    ∨ RenameRefused t oldparent oldname newparent newname
  | _ => True

-- The child lists

variable {t t' : Files} {kids kids' : ℕ → List ℕ} {dir file fuel : ℕ} {pathname : Name}

/-- The child lists of the live files: each is linked both ways, and they are disjoint. -/
structure Lists (t : Files) (kids : ℕ → List ℕ) : Prop where
  tail : ∀ dir ∈ t.live, TailList t.links (t.children dir) (kids dir)
  distinct : ∀ dir ∈ t.live, (kids dir).Nodup
  apart : ∀ dir ∈ t.live, ∀ other ∈ t.live, ∀ file ∈ kids dir, file ∈ kids other → dir = other

theorem Lists.congr (lists : Lists t kids) (live : t'.live ⊆ t.live) (links : t'.links = t.links)
    (children : ∀ dir ∈ t'.live, t'.children dir = t.children dir)
    : Lists t' kids where
  tail dir isLive := by
    rw [links, children dir isLive]
    exact lists.tail dir (live isLive)
  distinct dir isLive := lists.distinct dir (live isLive)
  apart dir isLive other otherLive := lists.apart dir (live isLive) other (live otherLive)

variable {nodes : List ℕ} {other item : ℕ} {call : Call}

/-- One list changes; stores to its items and to items of no list leave the others alone. -/
theorem Lists.change (lists : Lists t kids) {list touched} (live : t'.live ⊆ insert dir t.live)
    (children : t'.children = update t.children dir list) (tail : TailList t'.links list nodes)
    (distinct : nodes.Nodup) (same : t.links.SameOutside touched t'.links)
    (away : ∀ other ∈ t.live, other ≠ dir → ∀ file ∈ kids other, ¬ touched file ∧ file ∉ nodes)
    : Lists t' (update kids dir nodes) := by
  have was {other} (otherLive : other ∈ t'.live) (isDir : other ≠ dir) : other ∈ t.live :=
    mem_of_mem_insert_of_ne (live otherLive) isDir
  refine ⟨fun other otherLive => ?_, fun other otherLive => ?_,
    fun first firstLive second secondLive file inFirst inSecond => ?_⟩
  · by_cases isDir : other = dir
    · simpa [isDir, children] using tail
    · simp only [children, update_of_ne isDir]
      exact (lists.tail other (was otherLive isDir)).congr same fun file mem =>
        (away other (was otherLive isDir) isDir file mem).1
  · by_cases isDir : other = dir
    · simpa [isDir] using distinct
    · simpa [update_of_ne isDir] using lists.distinct other (was otherLive isDir)
  · rw [update_apply] at inFirst inSecond
    split_ifs at inFirst inSecond with isFirst isSecond isSecond
    · exact isFirst.trans isSecond.symm
    · exact absurd inFirst (away second (was secondLive isSecond) isSecond file inSecond).2
    · exact absurd inSecond (away first (was firstLive isFirst) isFirst file inFirst).2
    · exact lists.apart first (was firstLive isFirst) second (was secondLive isSecond) file
        inFirst inSecond

theorem Lists.unlinkFrom (lists : Lists t kids) (isLive : dir ∈ t.live) (mem : file ∈ kids dir)
    : Lists (t.unlinkFrom file dir) (update kids dir ((kids dir).erase file)) := by
  obtain ⟨tail, same⟩ := (lists.tail dir isLive).unlink (lists.distinct dir isLive) mem
  refine lists.change (subset_insert _ _) rfl tail ((lists.distinct dir isLive).erase file) same ?_
  intro other otherLive notDir item inOther
  have notHere : item ∉ kids dir := fun inDir =>
    notDir (lists.apart other otherLive dir isLive item inOther inDir)
  exact ⟨notHere, fun inRest => notHere (List.mem_of_mem_erase inRest)⟩

theorem Lists.appendTo (lists : Lists t kids) (isLive : dir ∈ t.live) (real : file ≠ 0)
    (nowhere : ∀ other ∈ t.live, file ∉ kids other)
    : Lists (t.appendTo file dir) (update kids dir (kids dir ++ [file])) := by
  obtain ⟨tail, same⟩ := (lists.tail dir isLive).append (lists.distinct dir isLive)
    (nowhere dir isLive) real
  refine lists.change (subset_insert _ _) rfl tail ?_ same ?_
  · exact List.concat_eq_append ▸ (lists.distinct dir isLive).concat (nowhere dir isLive)
  · intro other otherLive notDir item inOther
    have notHere : item ∉ kids dir := fun inDir =>
      notDir (lists.apart other otherLive dir isLive item inOther inDir)
    have notNew : item ≠ file := fun same => nowhere other otherLive (same ▸ inOther)
    exact ⟨fun touched => touched.elim notNew notHere, by simp [notHere, notNew]⟩

/-- The loop of `tmpfs_lookup_internal` finds the first file of the name. -/
theorem findName_eq (walk : Walk 0 t.links.next file nodes) (enough : nodes.length < fuel)
    : findName t pathname fuel file
      = some ((nodes.find? fun node => pathname = t.name node).getD 0) := by
  induction nodes generalizing file fuel with
  | nil =>
    obtain ⟨fuel, rfl⟩ := exists_eq_succ_of_ne_zero (ne_of_gt enough)
    rw [findName, if_pos (show file = 0 from walk)]
    rfl
  | cons node rest ih =>
    obtain ⟨fuel, rfl⟩ := exists_eq_succ_of_ne_zero (Nat.ne_zero_of_lt enough)
    obtain ⟨rfl, real, onward⟩ := walk
    rw [findName, if_neg real]
    by_cases named : pathname = t.name file
    · rw [if_pos named, List.find?_cons_of_pos (by simpa using named)]
      rfl
    · rw [if_neg named, List.find?_cons_of_neg (by simpa using named)]
      exact ih onward (lt_of_succ_lt_succ enough)

-- The invariant

/-- The tree as the operations keep it, with lists that are linked both ways. -/
structure Linked (t : Files) (kids : ℕ → List ℕ) : Prop where
  lists : Lists t kids
  rootLive : t.root ∈ t.live
  rootLinked : t.unlinked t.root = false
  rootParent : t.parent t.root = t.root
  real : ∀ file ∈ t.live, file ≠ 0
  childs : ∀ dir ∈ t.live, ∀ file ∈ kids dir,
    file ∈ t.live ∧ t.unlinked file = false ∧ t.parent file = dir ∧ file ≠ t.root
  listed : ∀ file ∈ t.live, t.unlinked file = false → file ≠ t.root →
    t.parent file ∈ t.live ∧ t.unlinked (t.parent file) = false ∧ file ∈ kids (t.parent file)
  below : ∀ file ∈ t.live, t.unlinked file = false → Below t file

theorem Linked.treeOk (linked : Linked t kids) : TreeOk t :=
  ⟨kids, { linked with
    walks := fun dir isLive => (linked.lists.tail dir isLive).walk
    distinct := linked.lists.distinct }⟩

theorem linked_tmpfsInit {root} (real : root ≠ 0) : Linked (tmpfsInit root) fun _ => [] where
  lists := ⟨fun _ _ => TailList.nil _, fun _ _ => List.nodup_nil,
    fun _ _ _ _ _ mem => absurd mem List.not_mem_nil⟩
  rootLive := mem_singleton_self root
  rootLinked := rfl
  rootParent := rfl
  real file isLive := by
    rw [mem_singleton.mp isLive]
    exact real
  childs _ _ _ mem := absurd mem List.not_mem_nil
  listed file isLive _ notRoot := absurd (mem_singleton.mp isLive) notRoot
  below file isLive _ := by
    rw [mem_singleton.mp isLive]
    exact Below.root

section
variable (linked : Linked t kids) (isLive : dir ∈ t.live)
include linked isLive

theorem Linked.kids_of_unlinked (gone : t.unlinked dir = true) : kids dir = [] := by
  apply List.eq_nil_iff_forall_not_mem.mpr
  intro file mem
  obtain ⟨fileLive, fileLinked, isParent, notRoot⟩ := linked.childs dir isLive file mem
  have parentLinked := (linked.listed file fileLive fileLinked notRoot).2.1
  rw [isParent, gone] at parentLinked
  cases parentLinked

theorem Linked.kids_length : (kids dir).length < t.live.card + 1 := by
  rw [← List.toFinset_card_of_nodup (linked.lists.distinct dir isLive)]
  apply lt_succ_of_le
  apply card_le_card
  intro file mem
  exact (linked.childs dir isLive file (List.mem_toFinset.mp mem)).1

/-- What `tmpfs_lookup_internal` returns: null, or the first child of the name. -/
theorem Linked.lookup_cases (pathname : Name)
    : lookupInternal t dir pathname = some 0
      ∨ ∃ file, lookupInternal t dir pathname = some file ∧ file ∈ kids dir ∧ file ≠ 0
          ∧ t.name file = pathname := by
  have found : lookupInternal t dir pathname
      = some (((kids dir).find? fun node => pathname = t.name node).getD 0) :=
    findName_eq (linked.lists.tail dir isLive).walk (linked.kids_length isLive)
  rw [found]
  cases search : (kids dir).find? fun node => pathname = t.name node with
  | none => exact .inl rfl
  | some file =>
    have mem := List.mem_of_find?_eq_some search
    have named : pathname = t.name file := by simpa using List.find?_some search
    refine .inr ⟨file, rfl, mem, ?_, named.symm⟩
    exact linked.real file (linked.childs dir isLive file mem).1

theorem Linked.children_eq_zero : t.children dir = 0 ↔ kids dir = [] :=
  (linked.lists.tail dir isLive).eq_zero_iff

end

/-- Files leave the tree, or only the order of the lists changes: parents stay as they are, a
file that leaves has no children, and the new lists hold the children that stay.
-/
theorem Linked.prune (linked : Linked t kids) (lists : Lists t' kids') (root : t'.root = t.root)
    (parent : t'.parent = t.parent) (live : t'.live ⊆ t.live)
    (noReturn : ∀ file ∈ t'.live, t'.unlinked file = false → t.unlinked file = false)
    (leaves : ∀ file ∈ t.live, t.unlinked file = false →
      (file ∈ t'.live ∧ t'.unlinked file = false) ∨ (kids file = [] ∧ file ≠ t.root))
    (members : ∀ dir ∈ t'.live, ∀ file,
      file ∈ kids' dir ↔ file ∈ kids dir ∧ file ∈ t'.live ∧ t'.unlinked file = false)
    : Linked t' kids' := by
  have rootStays := (leaves t.root linked.rootLive linked.rootLinked).resolve_right fun gone =>
    gone.2 rfl
  have sameBelow : ∀ {file}, Below t file → Below t' file := by
    intro file below
    induction below with
    | root => exact root ▸ Below.root
    | child _ ih => exact Below.child (parent ▸ ih)
  refine ⟨lists, root ▸ rootStays.1, root ▸ rootStays.2, ?_, fun file isLive =>
    linked.real file (live isLive), fun dir isLive file mem => ?_,
    fun file isLive isLinked notRoot => ?_, fun file isLive isLinked => ?_⟩
  · rw [root, parent, linked.rootParent]
  · obtain ⟨inOld, fileLive, fileLinked⟩ := (members dir isLive file).mp mem
    obtain ⟨-, -, isParent, notRoot⟩ := linked.childs dir (live isLive) file inOld
    exact ⟨fileLive, fileLinked, parent ▸ isParent, root ▸ notRoot⟩
  · obtain ⟨parentLive, parentLinked, isListed⟩ :=
      linked.listed file (live isLive) (noReturn file isLive isLinked) (root ▸ notRoot)
    have parentStays := (leaves (t.parent file) parentLive parentLinked).resolve_right fun gone =>
      List.not_mem_nil (gone.1 ▸ isListed)
    rw [parent]
    exact ⟨parentStays.1, parentStays.2,
      (members _ parentStays.1 file).mpr ⟨isListed, isLive, isLinked⟩⟩
  · exact sameBelow (linked.below file (live isLive) (noReturn file isLive isLinked))

-- Unlinking and renaming

/-- The child lists with a file taken off one of them. -/
def without (kids : ℕ → List ℕ) (file dir : ℕ) : ℕ → List ℕ :=
  update kids dir ((kids dir).erase file)

/-- The child lists with a file moved from one to the end of another. -/
def moved (kids : ℕ → List ℕ) (file dir newdir : ℕ) : ℕ → List ℕ :=
  update (without kids file dir) newdir (without kids file dir newdir ++ [file])

section
variable (lists : Lists t kids) (isLive : dir ∈ t.live)
include lists isLive

theorem Lists.mem_without (mem : file ∈ kids dir) (otherLive : other ∈ t.live)
    : item ∈ without kids file dir other ↔ item ∈ kids other ∧ item ≠ file := by
  unfold without
  by_cases isDir : other = dir
  · rw [isDir, update_self, (lists.distinct dir isLive).mem_erase_iff, and_comm]
  rw [update_of_ne isDir]
  refine ⟨fun inOther => ⟨inOther, ?_⟩, And.left⟩
  rintro rfl
  exact isDir (lists.apart other otherLive dir isLive item inOther mem)

theorem Lists.move {newdir}
    (newLive : newdir ∈ t.live) (mem : file ∈ kids dir) (real : file ≠ 0) (newname : Name)
    : Lists (t.move file dir newname newdir) (moved kids file dir newdir) := by
  have unlinked : Lists { t.unlinkFrom file dir with
      name := update (t.unlinkFrom file dir).name file newname }
      (without kids file dir) :=
    (lists.unlinkFrom isLive mem).congr (Subset.refl _) rfl (fun _ _ => rfl)
  exact unlinked.appendTo newLive real fun other otherLive inOther =>
    ((lists.mem_without isLive mem otherLive).mp inOther).2 rfl

/-- Moving a file within its directory keeps the children of every directory. -/
theorem Lists.mem_moved (mem : file ∈ kids dir)
    : item ∈ moved kids file dir dir other ↔ item ∈ kids other := by
  unfold moved
  by_cases isDir : other = dir
  · rw [isDir, update_self, List.mem_append, lists.mem_without isLive mem isLive,
      List.mem_singleton]
    by_cases isFile : item = file
    · simp [isFile, mem]
    · simp [isFile]
  · rw [update_of_ne isDir, without, update_of_ne isDir]

end

theorem discard_live (t : Files) {file item} (isLive : item ∈ t.live) (other : item ≠ file)
    : item ∈ (t.discard file).live := by
  unfold Files.discard
  split
  · exact isLive
  · exact mem_erase.mpr ⟨other, isLive⟩

/-- A file without children that was taken off its list is discarded. -/
theorem Linked.discard (linked : Linked t kids) {u} (lists : Lists u kids')
    (root : u.root = t.root) (parent : u.parent = t.parent) (live : u.live = t.live)
    (unlinked : u.unlinked = t.unlinked) (childless : kids file = []) (notRoot : file ≠ t.root)
    (members : ∀ dir ∈ t.live, ∀ item, item ∈ kids' dir ↔ item ∈ kids dir ∧ item ≠ file)
    : Linked (u.discard file) kids' := by
  have fewer : (u.discard file).live ⊆ u.live := by
    unfold Files.discard
    split
    · exact Subset.refl _
    · exact erase_subset _ _
  have flag : ∀ item, (u.discard file).unlinked item
      = if item = file then true else t.unlinked item := by
    intro item
    simp [Files.discard, update_apply, unlinked]
  refine linked.prune (lists.congr fewer rfl fun _ _ => rfl) root parent (live ▸ fewer) ?_ ?_ ?_
  · intro item _ isLinked
    rw [flag] at isLinked
    split at isLinked
    · cases isLinked
    · exact isLinked
  · intro item isLive isLinked
    by_cases isFile : item = file
    · exact .inr ⟨isFile ▸ childless, isFile ▸ notRoot⟩
    · exact .inl ⟨discard_live u (live ▸ isLive) isFile, by rw [flag, if_neg isFile, isLinked]⟩
  · intro dir isLive item
    rw [members dir (live ▸ fewer isLive) item]
    refine and_congr_right fun inDir => ⟨fun other => ?_, fun ⟨_, isLinked⟩ isFile => ?_⟩
    · obtain ⟨itemLive, itemLinked, -, -⟩ := linked.childs dir (live ▸ fewer isLive) item inDir
      exact ⟨discard_live u (live ▸ itemLive) other, by rw [flag, if_neg other, itemLinked]⟩
    · rw [flag, if_pos isFile] at isLinked
      cases isLinked

theorem Linked.unlink (linked : Linked t kids) (isLive : dir ∈ t.live) {name result}
    (done : unlink t dir name = some (t', result))
    : ∃ kids', Linked t' kids' := by
  have refused : ∃ kids', Linked t kids' := ⟨kids, linked⟩
  unfold Tree.unlink at done
  rcases linked.lookup_cases isLive name with missing | ⟨file, found, mem, real, -⟩
  · simp only [missing, if_true] at done
    split_ifs at done <;> cases done <;> exact refused
  simp only [found, real, if_false] at done
  split_ifs at done with _ _ _ childless <;> cases done <;> try exact refused
  obtain ⟨fileLive, -, isParent, notRoot⟩ := linked.childs dir isLive file mem
  rw [isParent]
  have none := (linked.children_eq_zero fileLive).mp (not_not.mp childless)
  exact ⟨without kids file dir, linked.discard (linked.lists.unlinkFrom isLive mem)
    rfl rfl rfl rfl none notRoot
    fun other otherLive item => linked.lists.mem_without isLive mem otherLive⟩

section Rename
variable {oldparent newparent oldfile newfile : ℕ} {oldname newname : Name}

/-- A rename that is carried out, with the files it found. -/
structure Renamed (t : Files) (kids : ℕ → List ℕ) (oldparent : ℕ) (oldname : Name)
    (newparent : ℕ) (newname : Name) (oldfile newfile : ℕ) (t' : Files) : Prop where
  foundOld : lookupInternal t oldparent oldname = some oldfile
  foundNew : lookupInternal t newparent newname = some newfile
  memOld : oldfile ∈ kids oldparent
  nameOld : t.name oldfile = oldname
  memNew : newfile ≠ 0 → newfile ∈ kids newparent ∧ t.name newfile = newname ∧ kids newfile = []
  result : t' =
    if newfile ≠ 0 then
      ((t.unlinkFrom newfile newparent).move oldfile oldparent newname newparent).discard newfile
    else t.move oldfile oldparent newname newparent

/-- What `tmpfs_rename` comes to: it is refused, or it is carried out. -/
theorem Linked.rename_cases (linked : Linked t kids) (oldLive : oldparent ∈ t.live)
    (newLive : newparent ∈ t.live) {result}
    (done : rename t oldparent oldname newparent newname = some (t', result))
    : (t' = t ∧ RenameRefused t oldparent oldname newparent newname)
      ∨ (¬ RenameRefused t oldparent oldname newparent newname
        ∧ ∃ oldfile newfile,
            Renamed t kids oldparent oldname newparent newname oldfile newfile t') := by
  unfold rename at done
  rcases linked.lookup_cases oldLive oldname with missing
    | ⟨oldfile, foundOld, memOld, realOld, nameOld⟩
  · simp only [missing, if_true] at done
    split_ifs at done <;> cases done <;> exact .inl ⟨rfl, by simp [RenameRefused, missing]⟩
  obtain ⟨newfile, foundNew, memNew⟩ : ∃ newfile, lookupInternal t newparent newname = some newfile
      ∧ (newfile ≠ 0 → newfile ∈ kids newparent ∧ t.name newfile = newname) := by
    rcases linked.lookup_cases newLive newname with missing
      | ⟨newfile, foundNew, mem, -, named⟩
    · exact ⟨0, missing, fun real => absurd rfl real⟩
    · exact ⟨newfile, foundNew, fun _ => ⟨mem, named⟩⟩
  simp only [foundOld, realOld, if_false, foundNew] at done
  generalize final : (if newfile ≠ 0 then _ else _ : Files) = after at done
  split_ifs at done with oldPlain newPlain oldShort newShort childless
  case neg =>
    cases done
    refine .inr ⟨?_, oldfile, newfile, foundOld, foundNew, memOld, nameOld, fun real => ?_, ?_⟩
    · rintro (isDot | isDotDot | isDot | isDotDot | long | long | missing
        | ⟨other, foundOther, nonempty⟩)
      · exact oldPlain (.inl isDot)
      · exact oldPlain (.inr isDotDot)
      · exact newPlain (.inl isDot)
      · exact newPlain (.inr isDotDot)
      · exact oldShort long
      · exact newShort long
      · exact realOld (some.inj (foundOld.symm.trans missing))
      · cases foundNew.symm.trans foundOther
        exact childless nonempty
    · obtain ⟨mem, named⟩ := memNew real
      have isLive := (linked.childs newparent newLive newfile mem).1
      have none := not_not.mp fun some => childless ⟨real, some⟩
      exact ⟨mem, named, (linked.children_eq_zero isLive).mp none⟩
    · rw [← final]
      split <;> rfl
  all_goals
    cases done
    exact .inl ⟨rfl, by grind only [RenameRefused]⟩

theorem Linked.rename_kept (linked : Linked t kids) (isLive : dir ∈ t.live)
    (differ : oldname ≠ newname)
    (renamed : Renamed t kids dir oldname dir newname oldfile newfile t')
    : ∃ kids', Linked t' kids' := by
  have realOld := linked.real oldfile (linked.childs dir isLive oldfile renamed.memOld).1
  by_cases replaces : newfile ≠ 0
  · obtain ⟨memNew, nameNew, childless⟩ := renamed.memNew replaces
    have others : oldfile ≠ newfile := by
      rintro rfl
      exact differ (renamed.nameOld.symm.trans nameNew)
    have first := linked.lists.unlinkFrom isLive memNew
    have mem := (linked.lists.mem_without isLive memNew isLive).mpr ⟨renamed.memOld, others⟩
    have last := first.move isLive isLive mem realOld newname
    rw [renamed.result, if_pos replaces]
    refine ⟨_, linked.discard last rfl rfl rfl rfl childless
      (linked.childs dir isLive newfile memNew).2.2.2 fun other otherLive item => ?_⟩
    exact (first.mem_moved isLive mem).trans
      (linked.lists.mem_without isLive memNew otherLive)
  · rw [renamed.result, if_neg replaces]
    have last := linked.lists.move isLive isLive renamed.memOld realOld newname
    refine ⟨_, linked.prune last rfl rfl (Subset.refl _) (fun _ _ same => same)
      (fun file fileLive isLinked => .inl ⟨fileLive, isLinked⟩) fun other otherLive item => ?_⟩
    rw [linked.lists.mem_moved isLive renamed.memOld]
    refine ⟨fun inOther => ?_, And.left⟩
    obtain ⟨itemLive, itemLinked, -, -⟩ := linked.childs other otherLive item inOther
    exact ⟨inOther, itemLive, itemLinked⟩

/-- A list that the walk of a tree follows is its list of children. -/
theorem IsTree.kids_eq (tree : IsTree t kids) (isLive : dir ∈ t.live) {nodes}
    (walk : Walk 0 t.links.next (t.children dir) nodes)
    : kids dir = nodes :=
  (tree.walks dir isLive).unique walk

/-- A file that moves to another directory is on a list whose directory its parent does not
name.
-/
theorem Linked.rename_apart (linked : Linked t kids) (oldLive : oldparent ∈ t.live)
    (newLive : newparent ∈ t.live) (apart : oldparent ≠ newparent)
    (renamed : Renamed t kids oldparent oldname newparent newname oldfile newfile t')
    : ¬ TreeOk t' := by
  rintro ⟨kids', tree⟩
  obtain ⟨fileLive, -, isParent, -⟩ := linked.childs oldparent oldLive oldfile renamed.memOld
  have realOld := linked.real oldfile fileLive
  obtain ⟨nodes, walk, mem, stays, sameParent⟩ : ∃ nodes,
      Walk 0 t'.links.next (t'.children newparent) nodes ∧ oldfile ∈ nodes
      ∧ newparent ∈ t'.live ∧ t'.parent = t.parent := by
    by_cases replaces : newfile ≠ 0
    · obtain ⟨memNew, -, childless⟩ := renamed.memNew replaces
      have first := linked.lists.unlinkFrom newLive memNew
      have others : oldfile ≠ newfile := by
        rintro rfl
        exact apart (linked.lists.apart _ oldLive _ newLive oldfile renamed.memOld memNew)
      have mem := (linked.lists.mem_without newLive memNew oldLive).mpr ⟨renamed.memOld, others⟩
      have last := first.move oldLive newLive mem realOld newname
      rw [renamed.result, if_pos replaces]
      refine ⟨_, (last.tail newparent newLive).walk, ?_, ?_, rfl⟩
      · simp [moved]
      · refine discard_live _ newLive ?_
        rintro rfl
        exact List.not_mem_nil (childless ▸ memNew)
    · rw [renamed.result, if_neg replaces]
      have last := linked.lists.move oldLive newLive renamed.memOld realOld newname
      exact ⟨_, (last.tail newparent newLive).walk, by simp [moved], newLive, rfl⟩
  have isChild := tree.childs newparent stays oldfile (tree.kids_eq stays walk ▸ mem)
  rw [sameParent, isParent] at isChild
  exact apart isChild.2.2.1

/-- A file renamed to its own name is discarded although it is on its list again. -/
theorem Linked.rename_itself (linked : Linked t kids) (isLive : dir ∈ t.live)
    (renamed : Renamed t kids dir oldname dir oldname oldfile newfile t')
    : ¬ TreeOk t' := by
  rintro ⟨kids', tree⟩
  obtain rfl : oldfile = newfile :=
    some.inj (renamed.foundOld.symm.trans renamed.foundNew)
  obtain ⟨fileLive, -, -, -⟩ := linked.childs dir isLive oldfile renamed.memOld
  have real := linked.real oldfile fileLive
  have childless := (renamed.memNew real).2.2
  have result := renamed.result
  rw [if_pos real] at result
  have stays : dir ∈ t'.live := by
    rw [result]
    refine discard_live _ isLive ?_
    rintro rfl
    exact List.not_mem_nil (childless ▸ renamed.memOld)
  have walk := (linked.lists.tail dir isLive).walk_unlink_twice (linked.lists.distinct dir isLive)
    renamed.memOld rfl rfl rfl
  have sameKids : kids' dir = (kids dir).erase oldfile ++ [oldfile] := by
    apply tree.kids_eq stays
    rw [result]
    simpa [Files.discard, Files.move, Files.appendTo, Files.unlinkFrom] using walk
  have isLinked := (tree.childs dir stays oldfile (by simp [sameKids])).2.1
  rw [result] at isLinked
  simp [Files.discard] at isLinked

end Rename

-- Creating, looking up and releasing

section Creat
variable {r : CreatRequest} {new : ℕ}

variable (linked : Linked t kids) (isLive : r.dir ∈ t.live)
include linked isLive

/-- What `tmpfs_creat_internal` comes to: it is refused, which a directory without children does
only for the reasons that do not depend on it, or it is carried out.
-/
theorem Linked.creat_cases {result} (done : creatInternal t r = some (t', result))
    : (t' = t ∧ (t.unlinked r.dir = false ∨ CreatRefused r))
      ∨ (¬ CreatRefused r
        ∧ ∃ new, r.memory = some new ∧ t' = (t.newFile r new).appendTo new r.dir) := by
  unfold creatInternal at done
  unfold CreatRefused
  rcases linked.lookup_cases isLive r.pathname with missing | ⟨file, found, mem, real, -⟩
  · simp only [missing, ne_eq, not_true_eq_false, if_false] at done
    cases memory : r.memory with
    | none =>
      rw [memory] at done
      split_ifs at done <;> cases done <;> exact .inl ⟨rfl, by grind only⟩
    | some new =>
      simp only [memory] at done
      split_ifs at done
      case neg =>
        cases done
        exact .inr ⟨by simp only [reduceCtorEq]; tauto, new, rfl, rfl⟩
      all_goals
        cases done
        exact .inl ⟨rfl, by grind only⟩
  · simp only [found, ne_eq, real, not_false_eq_true, if_true] at done
    have isLinked : t.unlinked r.dir = false := by
      by_contra gone
      rw [linked.kids_of_unlinked isLive (eq_true_of_ne_false gone)] at mem
      exact List.not_mem_nil mem
    split_ifs at done <;> cases done <;> exact .inl ⟨rfl, .inl isLinked⟩

theorem Linked.creat_kept
    (isLinked : t.unlinked r.dir = false) (real : new ≠ 0) (fresh : new ∉ t.live)
    : Linked ((t.newFile r new).appendTo new r.dir)
        (update (update kids new []) r.dir (kids r.dir ++ [new])) := by
  have old : ∀ {file}, file ∈ t.live → file ≠ new := fun fileLive same => fresh (same ▸ fileLive)
  have flag {file} (wasLive : file ∈ t.live)
      : ((t.newFile r new).appendTo new r.dir).unlinked file = t.unlinked file :=
    update_of_ne (old wasLive) _ _
  have parentOf {file} (wasLive : file ∈ t.live)
      : ((t.newFile r new).appendTo new r.dir).parent file = t.parent file :=
    update_of_ne (old wasLive) _ _
  have parentNew : ((t.newFile r new).appendTo new r.dir).parent new = r.dir := update_self _ _ _
  have lists : Lists (t.newFile r new) (update kids new []) :=
    linked.lists.change (Subset.refl _) rfl (TailList.nil t.links) List.nodup_nil
      ⟨fun _ _ => rfl, fun _ _ => rfl⟩ fun _ _ _ _ _ => ⟨not_false, List.not_mem_nil⟩
  have nowhere : ∀ other ∈ (t.newFile r new).live, new ∉ update kids new [] other := by
    intro other otherLive inOther
    rcases mem_insert.mp otherLive with rfl | wasLive
    · simp at inOther
    · rw [update_of_ne (old wasLive)] at inOther
      exact fresh (linked.childs other wasLive new inOther).1
  have appended := lists.appendTo (mem_insert_of_mem isLive) real nowhere
  rw [update_of_ne (old isLive)] at appended
  have sameBelow : ∀ {file}, Below t file → file ∈ t.live → t.unlinked file = false →
      Below ((t.newFile r new).appendTo new r.dir) file := by
    intro file below
    induction below with
    | root => exact fun _ _ => Below.root
    | @child file above ih =>
      intro fileLive fileLinked
      by_cases isRoot : file = t.root
      · exact isRoot ▸ Below.root
      · obtain ⟨parentLive, parentLinked, -⟩ := linked.listed file fileLive fileLinked isRoot
        exact Below.child (parentOf fileLive ▸ ih parentLive parentLinked)
  refine ⟨appended, mem_insert_of_mem linked.rootLive, ?_, ?_, ?_, ?_, ?_, ?_⟩
  · exact (flag linked.rootLive).trans linked.rootLinked
  · exact (parentOf linked.rootLive).trans linked.rootParent
  · intro file fileLive
    rcases mem_insert.mp fileLive with rfl | wasLive
    · exact real
    · exact linked.real file wasLive
  · intro dir dirLive file mem
    -- a child of the new lists is the new file or was a child before
    have cases : (file = new ∧ dir = r.dir) ∨ (dir ∈ t.live ∧ file ∈ kids dir) := by
      by_cases isDir : dir = r.dir
      · rw [isDir, update_self] at mem
        rcases List.mem_append.mp mem with was | isNew
        · exact .inr ⟨isDir ▸ isLive, isDir ▸ was⟩
        · exact .inl ⟨List.mem_singleton.mp isNew, isDir⟩
      · rw [update_of_ne isDir] at mem
        rcases mem_insert.mp dirLive with rfl | wasLive
        · simp at mem
        · rw [update_of_ne (old wasLive)] at mem
          exact .inr ⟨wasLive, mem⟩
    rcases cases with ⟨rfl, rfl⟩ | ⟨wasLive, was⟩
    · exact ⟨mem_insert_self _ _, update_self _ _ _, update_self _ _ _, (old linked.rootLive).symm⟩
    · obtain ⟨fileLive, fileLinked, isParent, notRoot⟩ := linked.childs dir wasLive file was
      exact ⟨mem_insert_of_mem fileLive, (flag fileLive).trans fileLinked,
        (parentOf fileLive).trans isParent, notRoot⟩
  · intro file fileLive fileLinked notRoot
    rcases mem_insert.mp fileLive with rfl | wasLive
    · rw [parentNew, update_self]
      exact ⟨mem_insert_of_mem isLive, (flag isLive).trans isLinked, by simp⟩
    obtain ⟨parentLive, parentLinked, mem⟩ :=
      linked.listed file wasLive ((flag wasLive).symm.trans fileLinked) notRoot
    rw [parentOf wasLive]
    refine ⟨mem_insert_of_mem parentLive, (flag parentLive).trans parentLinked, ?_⟩
    by_cases isDir : t.parent file = r.dir
    · rw [isDir, update_self]
      exact List.mem_append_left _ (isDir ▸ mem)
    · rw [update_of_ne isDir, update_of_ne (old parentLive)]
      exact mem
  · intro file fileLive fileLinked
    rcases mem_insert.mp fileLive with rfl | wasLive
    · refine Below.child ?_
      rw [parentNew]
      exact sameBelow (linked.below r.dir isLive isLinked) isLive isLinked
    · have wasLinked := (flag wasLive).symm.trans fileLinked
      exact sameBelow (linked.below file wasLive wasLinked) wasLive wasLinked

/-- A file in a directory that is unlinked is not in the tree. -/
theorem Linked.creat_broken (gone : t.unlinked r.dir = true) (fresh : new ∉ t.live)
    : ¬ TreeOk ((t.newFile r new).appendTo new r.dir) := by
  rintro ⟨kids', tree⟩
  have notRoot : new ≠ t.root := fun same => fresh (same ▸ linked.rootLive)
  have notNew : r.dir ≠ new := fun same => fresh (same ▸ isLive)
  have isLinked := (tree.listed new (mem_insert_self _ _) (update_self _ _ _) notRoot).2.1
  have isParent : ((t.newFile r new).appendTo new r.dir).parent new = r.dir :=
    update_self _ _ _
  have stillGone : ((t.newFile r new).appendTo new r.dir).unlinked r.dir = true :=
    (update_of_ne notNew _ _).trans gone
  rw [isParent, stillGone] at isLinked
  cases isLinked

end Creat

theorem Linked.setUsed (linked : Linked t kids) (used : ℕ → Bool)
    : Linked { t with used := used } kids :=
  linked.prune (linked.lists.congr (Subset.refl _) rfl fun _ _ => rfl) rfl rfl
    (Subset.refl _) (fun _ _ same => same)
    (fun _ isLive isLinked => .inl ⟨isLive, isLinked⟩)
    fun dir isLive file => ⟨fun mem =>
      have child := linked.childs dir isLive file mem
      ⟨mem, child.1, child.2.1⟩, And.left⟩

theorem Linked.lookup (linked : Linked t kids) {last result}
    (done : lookup t last pathname = some (t', result))
    : Linked t' kids := by
  unfold Tree.lookup at done
  dsimp only at done
  -- every branch leaves the files alone or marks one of them as used
  repeat' split at done
  all_goals cases done
  all_goals first
    | exact linked
    | exact linked.setUsed _

/-- A file that is freed with its inode is unlinked. -/
theorem Linked.release (linked : Linked t kids) (done : release t file = some t')
    : Linked t' kids := by
  unfold Tree.release at done
  dsimp only at done
  split at done
  next gone =>
    split at done
    · cases done
    split at done <;> cases done
    have others : ∀ {item}, t.unlinked item = false → item ≠ file := by
      rintro item isLinked rfl
      cases gone.symm.trans isLinked
    refine linked.prune (linked.lists.congr (erase_subset _ _) rfl fun _ _ => rfl) rfl
      rfl (erase_subset _ _) (fun _ _ same => same) (fun item isLive isLinked =>
        .inl ⟨mem_erase.mpr ⟨others isLinked, isLive⟩, isLinked⟩) ?_
    intro dir isLive item
    refine ⟨fun mem => ?_, And.left⟩
    have child := linked.childs dir (mem_of_mem_erase isLive) item mem
    exact ⟨mem, mem_erase.mpr ⟨others child.2.1, child.1⟩, child.2.1⟩
  · cases done
    exact linked.setUsed _

-- Runs

def Inv (t : Files) : Prop := ∃ kids, Linked t kids

theorem called {α : Type} {p} [Decidable p] {result : Option (Files × α)}
    (done : (if p then result.map fst else none) = some t')
    : p ∧ ∃ answer, result = some (t', answer) := by
  obtain ⟨holds, mapped⟩ := ite_none_right_eq_some.mp done
  obtain ⟨⟨_, answer⟩, returned, rfl⟩ := map_eq_some_iff.mp mapped
  exact ⟨holds, answer, returned⟩

theorem Inv.step (inv : Inv t) (done : step t call = some t') (isSafe : Safe t call)
    : Inv t' := by
  obtain ⟨kids, linked⟩ := inv
  cases call with
  | lookup last pathname =>
    obtain ⟨_, _, returned⟩ := called done
    exact ⟨kids, linked.lookup returned⟩
  | release file =>
    obtain ⟨_, done⟩ := ite_none_right_eq_some.mp done
    exact ⟨kids, linked.release done⟩
  | creat r =>
    obtain ⟨⟨isOpen, fresh⟩, _, returned⟩ := called done
    rcases linked.creat_cases isOpen.1 returned with ⟨rfl, -⟩ | ⟨carriedOut, new, memory, rfl⟩
    · exact ⟨kids, linked⟩
    · obtain ⟨real, notLive⟩ := fresh new memory
      exact ⟨_, linked.creat_kept isOpen.1 (isSafe.resolve_right carriedOut) real notLive⟩
  | unlink dir name =>
    obtain ⟨isOpen, _, returned⟩ := called done
    exact linked.unlink isOpen.1 returned
  | rename oldparent oldname newparent newname =>
    obtain ⟨⟨oldOpen, newOpen⟩, _, returned⟩ := called done
    rcases linked.rename_cases oldOpen.1 newOpen.1 returned with
      ⟨rfl, -⟩ | ⟨carriedOut, oldfile, newfile, renamed⟩
    · exact ⟨kids, linked⟩
    · obtain ⟨rfl, differ⟩ := isSafe.resolve_right carriedOut
      exact linked.rename_kept oldOpen.1 differ renamed

theorem Inv.step_broken (inv : Inv t) (done : Tree.step t call = some t') (isUnsafe : ¬ Safe t call)
    : ¬ TreeOk t' := by
  obtain ⟨kids, linked⟩ := inv
  cases call with
  | lookup last pathname | release file | unlink dir name => exact absurd trivial isUnsafe
  | creat r =>
    obtain ⟨⟨isOpen, fresh⟩, _, returned⟩ := called done
    rcases linked.creat_cases isOpen.1 returned with ⟨-, isSafe⟩ | ⟨-, new, memory, rfl⟩
    · exact absurd isSafe isUnsafe
    · have gone := eq_true_of_ne_false fun isLinked => isUnsafe (.inl isLinked)
      exact linked.creat_broken isOpen.1 gone (fresh new memory).2
  | rename oldparent oldname newparent newname =>
    obtain ⟨⟨oldOpen, newOpen⟩, _, returned⟩ := called done
    rcases linked.rename_cases oldOpen.1 newOpen.1 returned with
      ⟨-, refused⟩ | ⟨-, oldfile, newfile, renamed⟩
    · exact absurd (.inr refused) isUnsafe
    by_cases apart : oldparent = newparent
    · subst apart
      have same : oldname = newname := by
        by_contra differ
        exact isUnsafe (.inl ⟨rfl, differ⟩)
      subst same
      exact linked.rename_itself oldOpen.1 renamed
    · exact linked.rename_apart oldOpen.1 newOpen.1 apart renamed

/-- Over every sequence of operations on a new filesystem the files form a tree in every state
if and only if every operation is safe.
-/
theorem tree_ok_iff {root : ℕ} (real : root ≠ 0) {calls : List Call} {states : List Files}
    (run : trace step (tmpfsInit root) calls = some states)
    : (∀ state ∈ states, TreeOk state) ↔ AllSafe step Safe (tmpfsInit root) calls :=
  trace_forall_iff Inv TreeOk (fun ⟨_, linked⟩ => linked.treeOk) (fun inv => inv.step)
    (fun inv => inv.step_broken) ⟨_, linked_tmpfsInit real⟩ run

/-- A file that is created with an inode of its own. -/
def newFileCall (dir : ℕ) (pathname : Name) (mode : FileType) (new : ℕ) : Call :=
  .creat ⟨dir, pathname, mode, false, some new, false, true⟩

/-- A directory with two files, of which one is renamed to the other and then unlinked. -/
theorem tree_ok_rename_over
    : ∃ states, trace step (tmpfsInit 1)
        [.lookup none dot, newFileCall 1 [97] .dir 2, newFileCall 2 [98] .reg 3,
          newFileCall 2 [99] .reg 4, .rename 2 [98] 2 [99], .release 4, .unlink 2 [99]]
          = some states
        ∧ ∀ state ∈ states, TreeOk state := by
  refine exists_of_isSome rfl fun _ run => (tree_ok_iff one_ne_zero run).mpr ⟨trivial, ?_⟩
  rintro _ ⟨⟩
  refine ⟨.inl rfl, ?_⟩
  rintro _ ⟨⟩
  refine ⟨.inl rfl, ?_⟩
  rintro _ ⟨⟩
  refine ⟨.inl rfl, ?_⟩
  rintro _ ⟨⟩
  refine ⟨.inl ⟨rfl, by decide⟩, ?_⟩
  exact fun _ _ => ⟨trivial, fun _ _ => ⟨trivial, fun _ _ => trivial⟩⟩

/-- A file is moved from one directory to another: it is on the list of the second and its
parent is the first.
-/
theorem rename_keeps_old_parent
    : ∃ states, trace step (tmpfsInit 1)
        [.lookup none dot, newFileCall 1 [97] .dir 2, newFileCall 1 [98] .dir 3,
          newFileCall 2 [99] .reg 4, .rename 2 [99] 3 [99]] = some states
        ∧ ∃ state ∈ states, ¬ TreeOk state := by
  refine ⟨_, rfl, _, List.mem_of_getElem? (i := 5) rfl, ?_⟩
  rintro ⟨kids, tree⟩
  have onList : kids 3 = [4] := tree.kids_eq (by decide) ⟨rfl, by decide, rfl⟩
  have isParent := (tree.childs 3 (by decide) 4 (by simp [onList])).2.2.1
  exact absurd isParent (by decide)

end UnstableOS.Fs.Tmpfs.Tree
