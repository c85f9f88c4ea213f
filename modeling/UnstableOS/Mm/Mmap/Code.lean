import UnstableOS.Rbtree.Index
import Mathlib.Algebra.Ring.Nat

/-! Memory-mapped files, from `mm/mmap.c`, with the page table operations it uses.
A result of `none` is a panic, a failed `kassert` or an access through a null pointer. The records
and the page caches are lists and maps, beside which the calls of `rbtree_add` and `rbtree_remove`
on their trees are kept: the trees are what these calls have left. Each call holds the locks it
needs and is one step here. Page table entries are indexed by process and page number, page cache
entries by inode and page number in the file, cut to the 32 bits of a tree key.
-/

namespace UnstableOS.Mm.Mmap

open Function

def pageSize : ℕ := 4096

def wordLimit : ℕ := 2 ^ 32

/-- The bits of `int prot`. -/
structure Prot where
  exec : Bool
  read : Bool
  write : Bool
deriving DecidableEq, Repr

/-- The bits `PTE_PDE_PAGE_USER_ACCESS` and `PTE_PDE_PAGE_WRITABLE`. -/
structure Flags where
  user : Bool
  writable : Bool
deriving DecidableEq, Repr

def Prot.mappingFlags (prot : Prot) : Flags :=
  ⟨prot.exec || prot.read || prot.write, prot.write⟩

structure Pte where
  frame : ℕ
  flags : Flags
deriving DecidableEq, Repr

/-- The descriptor's inode, and the bits `O_WRONLY` and `O_APPEND` of its flags. -/
structure FileDescriptor where
  inode : ℕ
  writable : Bool
  append : Bool
deriving DecidableEq, Repr

structure VmRecord where
  start : ℕ
  len : ℕ
  backingFd : Option FileDescriptor
  mappingOffset : ℕ
  prot : Prot
  isPrivate : Bool
deriving DecidableEq, Repr

/-- The key of the entry is its index in the cache. -/
structure MmapPageCache where
  instances : ℕ
  dirty : Bool
  page : ℕ
deriving DecidableEq, Repr

/-- The flag `readOnly` is the option `MOUNT_RDONLY` of the filesystem the inode is on. -/
structure Inode where
  mode : ℕ
  instances : ℕ
  size : ℕ
  content : ℕ → UInt8
  mmapPageCache : ℕ → Option MmapPageCache
  readOnly : Bool

/-- A page frame. The flag `userWritten` is not in the memory: it tells whether a process stored
to the frame since it was allocated.
-/
structure Frame where
  bytes : ℕ → UInt8
  userWritten : Bool

/-- The tree of a process, and that of an inode. -/
inductive TreeName where
  | records (pid : ℕ)
  | pageCache (inode : ℕ)
deriving DecidableEq

structure State where
  vm : ℕ → List VmRecord
  pte : ℕ → ℕ → Option Pte
  inode : ℕ → Inode
  frame : ℕ → Frame
  allocated : ℕ → Bool
  changes : List (Rbtree.Change TreeName)

/-- The answers of the other parts of the kernel to a call: the frame of `pfalloc`, whether
`pread_file` succeeds, whether `kalloc` does, whether the `pwrite` of a filesystem does.
-/
structure Env where
  pfalloc : Option ℕ
  readOk : Bool
  kalloc : Bool
  writeOk : Bool

/-- The bits of a page fault's error code that are read. -/
structure PageFaultError where
  p : Bool
  w : Bool
deriving DecidableEq, Repr

def sIsreg (mode : ℕ) : Bool := mode &&& 0o170000 == 0o100000

def einval : Int := 2
def enomem : Int := 20
def eacces : Int := 31

namespace State

variable (s : State)

def setPte (pid n : ℕ) (entry : Option Pte) : State :=
  { s with pte := fun p m => if p = pid ∧ m = n then entry else s.pte p m }

def setInode (i : ℕ) (inode : Inode) : State :=
  { s with inode := update s.inode i inode }

def setEntry (i key : ℕ) (entry : Option MmapPageCache) : State :=
  s.setInode i
    { s.inode i with mmapPageCache := update (s.inode i).mmapPageCache key entry }

def setFrame (f : ℕ) (frame : Frame) : State :=
  { s with frame := update s.frame f frame }

def setVm (pid : ℕ) (vm : List VmRecord) : State :=
  { s with vm := update s.vm pid vm }

def pffree (f : ℕ) : State := { s with allocated := update s.allocated f false }

/-- One more call on a tree. -/
def changed (change : Rbtree.Change TreeName) : State :=
  { s with changes := change :: s.changes }

end State

/-- A call comes to nothing if one of its calls on a tree goes through a null pointer. -/
def settled (result : Option (State × Int)) : Option (State × Int) :=
  result.filter fun (s, _) => (Rbtree.replay s.changes).isSome

-- Page tables and files

variable (s : State)

/-- `paging_change_flags` for one page. -/
def pagingChangeFlags (pid n : ℕ) (flags : Flags) : Option State :=
  (s.pte pid n).map fun entry => s.setPte pid n (some { entry with flags := flags })

def pagingMapPhysAddr (pid n frame : ℕ) (flags : Flags) : Option State :=
  if (s.pte pid n).isSome then none else some (s.setPte pid n (some ⟨frame, flags⟩))

/-- Here `none` is the result `NULL`. -/
def pagingAddPage (env : Env) (s : State) (pid n : ℕ) (flags : Flags) : Option State :=
  match s.pte pid n with
  | some entry => if entry.flags = flags then some s else none
  | none =>
    env.pfalloc.map fun f =>
      { (s.setPte pid n (some ⟨f, flags⟩)).setFrame f ⟨fun _ => 0, false⟩ with
        allocated := update s.allocated f true }

/-- `pread_file` into a page frame; bytes beyond the end of the file stay. -/
def preadFile (i f count off : ℕ) : State :=
  s.setFrame f
    { s.frame f with
      bytes := fun b =>
        if b < count ∧ off + b < (s.inode i).size then (s.inode i).content (off + b)
        else (s.frame f).bytes b }

/-- The `pwrite` of the filesystem, from a page frame. -/
def pwriteInode (i f count off : ℕ) : State :=
  s.setInode i
    { s.inode i with
      size := max (s.inode i).size (off + count)
      content := fun x =>
        if off ≤ x ∧ x < off + count then (s.frame f).bytes (x - off)
        else (s.inode i).content x }

/-- `pwrite_file` on a regular file, whose result is not looked at: a descriptor that is not
writable and a read-only filesystem refuse it, and `O_APPEND` moves it to the end of the file.
-/
def pwriteFile (env : Env) (s : State) (fd : FileDescriptor) (f count off : ℕ) : State :=
  if fd.writable = false ∨ (s.inode fd.inode).readOnly = true ∨ count = 0 ∨ env.writeOk = false then
    s
  else pwriteInode s fd.inode f count (if fd.append then (s.inode fd.inode).size else off)

-- Records

/-- The record with the greatest start that is not above the address. -/
def rbtreeSearchLte : List VmRecord → ℕ → Option VmRecord
  | [], _ => none
  | r :: rest, val =>
    match rbtreeSearchLte rest val with
    | none => if r.start ≤ val then some r else none
    | some best => if r.start ≤ val ∧ best.start < r.start then some r else some best

variable (vm : List VmRecord)

/-- The record is changed in place. -/
def modifyRecord (r r' : VmRecord) : List VmRecord :=
  vm.map fun q => if q.start = r.start then r' else q

/-- The records without the one that `rbtree_remove` takes out of the tree. -/
def removeRecord (r : VmRecord) : List VmRecord :=
  vm.filter fun q => q.start ≠ r.start

/-- The part of the record before the offset. -/
def VmRecord.left (r : VmRecord) (offset : ℕ) : VmRecord := { r with len := offset }

/-- The part of the record from the offset on. -/
def VmRecord.right (r : VmRecord) (offset : ℕ) : VmRecord :=
  { r with
    start := r.start + offset
    len := r.len - offset
    mappingOffset := r.mappingOffset + offset }

/-- The records after the split. The right part needs a new record; `kalloc` tells whether there
is memory for it.
-/
def mmapSplitRecord (kalloc : Bool) (r : VmRecord) (offset : ℕ) : Option (List VmRecord) :=
  if 0 < offset ∧ offset % pageSize = 0 ∧ offset < r.len ∧ kalloc = true then
    some (r.right offset :: modifyRecord vm r (r.left offset))
  else none

/-- The number of pages the record reaches into. -/
def VmRecord.pages (r : VmRecord) : ℕ := (r.len + pageSize - 1) / pageSize

/-- The record is cut to start at the offset, before its protection is changed or it is removed:
the records after that, and the cut one.
-/
def splitFront (kalloc : Bool) (r : VmRecord) (offset : ℕ)
    : Option (List VmRecord × VmRecord) :=
  if offset ≠ 0 then (mmapSplitRecord vm kalloc r offset).map fun vm => (vm, r.right offset)
  else some (vm, r)

/-- The record is cut to have no more than the given number of pages. -/
def splitBack (kalloc : Bool) (r : VmRecord) (limit : ℕ)
    : Option (List VmRecord × VmRecord) :=
  if r.pages ≤ limit then some (vm, r)
  else
    (mmapSplitRecord vm kalloc r (limit * pageSize)).map fun vm => (vm, r.left (limit * pageSize))

def splitOut (kalloc : Bool) (r : VmRecord) (offset limit : ℕ)
    : Option (List VmRecord × VmRecord) :=
  (splitFront vm kalloc r offset).bind fun (vm, r) => splitBack vm kalloc r limit

/-- The starts of the new records, the last one first. -/
def splitStarts (r : VmRecord) (offset limit : ℕ) : List ℕ :=
  (if r.pages ≤ limit + offset / pageSize then [] else [r.start + offset + limit * pageSize])
    ++ if offset ≠ 0 then [r.start + offset] else []

/-- The calls of `rbtree_add` for new records. -/
def State.addRecords (s : State) (pid : ℕ) (starts : List ℕ) : State :=
  { s with changes := starts.map (.add (.records pid)) ++ s.changes }

/-- The key of the page in the page cache of the record's file. -/
def VmRecord.key (r : VmRecord) (n : ℕ) : ℕ :=
  (n * pageSize - r.start + r.mappingOffset) / pageSize % wordLimit

-- Page faults

def markDirty (i key : ℕ) : State :=
  match (s.inode i).mmapPageCache key with
  | some mpc => s.setEntry i key (some { mpc with dirty := true })
  | none => s

/-- A new cache entry for the page just mapped. -/
def addEntry (pid n i key : ℕ) (dirty : Bool) : State :=
  match s.pte pid n with
  | some entry =>
    (s.setEntry i key (some ⟨1, dirty, entry.frame⟩)).changed (.add (.pageCache i) key)
  | none => s

/-- The branch of `mmap_page_fault` for a page that is present. -/
def faultPresent (pid : ℕ) (error : PageFaultError) (r : VmRecord) (n : ℕ)
    : Option (State × Int) :=
  let s :=
    match r.backingFd with
    | some fd =>
      if error.w && r.prot.write && !r.isPrivate && sIsreg (s.inode fd.inode).instances then
        markDirty s fd.inode (r.key n)
      else s
    | none => s
  (pagingChangeFlags s pid n r.prot.mappingFlags).map fun s => (s, 0)

/-- The branch of `mmap_page_fault` that reads a page of the file into a new frame. -/
def faultRead (env : Env) (s : State) (pid : ℕ) (error : PageFaultError) (r : VmRecord)
    (fd : FileDescriptor) (n : ℕ)
    : State × Int :=
  match pagingAddPage env s pid n r.prot.mappingFlags with
  | none => (s, 1)
  | some s =>
    let toRead :=
      if r.len < n * pageSize - r.start + pageSize ∧ r.isPrivate then r.len % pageSize
      else pageSize
    if !env.readOk then (s, -1)
    else
      let s :=
        match s.pte pid n with
        | some entry =>
          preadFile s fd.inode entry.frame toRead (n * pageSize - r.start + r.mappingOffset)
        | none => s
      if r.isPrivate then (s, 0)
      else if !env.kalloc then (s, 1)
      else (addEntry s pid n fd.inode (r.key n) error.w, 0)

/-- The result is 0 for a valid access, 1 for `SIGSEGV`, -1 for `SIGBUS`. -/
def mmapPageFault (env : Env) (s : State) (pid faultAddr : ℕ) (error : PageFaultError)
    : Option (State × Int) :=
  match rbtreeSearchLte (s.vm pid) faultAddr with
  | none => some (s, 1)
  | some r =>
    let n := faultAddr / pageSize
    if r.start + r.len < n * pageSize ∨ (error.w = true ∧ r.prot.write = false)
        ∨ (error.w = false ∧ r.prot.read = false) then
      some (s, 1)
    else if error.p = true ∨ (s.pte pid n).isSome then faultPresent s pid error r n
    else
      match r.backingFd with
      | none =>
        match pagingAddPage env s pid n r.prot.mappingFlags with
        | none => some (s, 1)
        | some s => some (s, 0)
      | some fd =>
        if !sIsreg (s.inode fd.inode).mode then some (s, -1)
        else if (s.inode fd.inode).size < faultAddr - r.start + r.mappingOffset then some (s, -1)
        else
          match (if r.isPrivate then none else (s.inode fd.inode).mmapPageCache (r.key n)) with
          | some mpc =>
            let s :=
              s.setEntry fd.inode (r.key n) (some { mpc with
                  instances := mpc.instances + 1
                  dirty := mpc.dirty || error.w })
            let flags := { r.prot.mappingFlags with writable := r.prot.write && error.w }
            (pagingMapPhysAddr s pid n mpc.page flags).map fun s => (s, 0)
          | none => some (faultRead env s pid error r fd n)

-- Addresses passed to system calls

/-- The end of `mmap_check_address`: a page of the file is read into a new frame. The result of
`pread_file` is not looked at.
-/
def checkRead (env : Env) (s : State) (pid : ℕ) (writable : Bool) (r : VmRecord)
    (fd : FileDescriptor) (n : ℕ)
    : Option (State × Int) :=
  match pagingAddPage env s pid n r.prot.mappingFlags with
  | none => some (s, 0)
  | some s =>
    let s :=
      match s.pte pid n with
      | some entry =>
        if env.readOk then
          preadFile s fd.inode entry.frame pageSize (n * pageSize - r.start + r.mappingOffset)
        else s
      | none => s
    if r.isPrivate then some (s, 1)
    else if !env.kalloc then none
    else some (addEntry s pid n fd.inode (r.key n) writable, 1)

/-- The result is 1 if the page is mapped now. -/
def mmapCheckAddress (env : Env) (s : State) (pid addr : ℕ) (writable : Bool)
    : Option (State × Int) :=
  let n := addr / pageSize
  match rbtreeSearchLte (s.vm pid) (n * pageSize) with
  | none => some (s, 0)
  | some r =>
    if r.start + r.len ≤ n * pageSize ∨ r.prot.read = false
        ∨ (r.prot.write = false ∧ writable = true) then
      some (s, 0)
    else
      match r.backingFd with
      | none =>
        match pagingAddPage env s pid n r.prot.mappingFlags with
        | none => some (s, 0)
        | some s => some (s, 1)
      | some fd =>
        if r.isPrivate then checkRead env s pid writable r fd n
        else if !sIsreg (s.inode fd.inode).mode then some (s, 0)
        else
          match (s.inode fd.inode).mmapPageCache (r.key n) with
          | some mpc =>
            let s :=
              s.setEntry fd.inode (r.key n) (some { mpc with
                  instances := mpc.instances + 1
                  dirty := mpc.dirty || writable })
            (pagingMapPhysAddr s pid n mpc.page r.prot.mappingFlags).map fun s => (s, 1)
          | none => checkRead env s pid writable r fd n

-- Protection changes

/-- The page number of `addr + k * PAGE_SIZE`. -/
def pageAt (addr k : ℕ) : ℕ := (addr + k * pageSize) % wordLimit / pageSize

/-- A page that is present gets the new flags. -/
def protectPage (pid : ℕ) (flags : Flags) (s : State) (n : ℕ) : State :=
  match s.pte pid n with
  | some entry => s.setPte pid n (some { entry with flags := flags })
  | none => s

/-- A record that was cut out gets the protection, and its pages the flags. -/
def protectCut (pid addr i : ℕ) (prot : Prot) (s : State) (vm : List VmRecord) (cut : VmRecord)
    : State :=
  let s := s.setVm pid (modifyRecord vm cut { cut with prot := prot })
  ((List.range cut.pages).map fun j => pageAt addr (i + j)).foldl
    (protectPage pid prot.mappingFlags) s

/-- The loop of `sys_mprotect` from the page `i` on. -/
def mprotectLoop (kalloc : Bool) (pid addr len : ℕ) (prot : Prot)
    : ℕ → State → ℕ → Option (State × Int)
  | 0, _, _ => none
  | fuel + 1, s, i =>
    if len ≤ i then some (s, 0)
    else
      let target := (addr + i * pageSize) % wordLimit
      match rbtreeSearchLte (s.vm pid) target with
      | none => some (s, -enomem)
      | some r =>
        if r.start + r.len < addr then some (s, -enomem)
        else if (r.backingFd.any fun fd => !fd.writable) && !r.isPrivate && prot.write then
          some (s, -eacces)
        else
          if r.prot = prot then
            mprotectLoop kalloc pid addr len prot fuel s (i + min r.pages (len - i))
          else
            let offset := target - r.start
            (splitOut (s.vm pid) kalloc r offset (len - i)).bind fun (vm, cut) =>
              let s := s.addRecords pid (splitStarts r offset (len - i))
              let s := protectCut pid addr i prot s vm cut
              mprotectLoop kalloc pid addr len prot fuel s (i + cut.pages)

def sysMprotect (kalloc : Bool) (pid addr len : ℕ) (prot : Prot) : Option (State × Int) :=
  if addr % pageSize ≠ 0 then some (s, -einval)
  else if len = 0 then some (s, 0)
  else
    let pages := (len + pageSize - 1) % wordLimit / pageSize
    mprotectLoop kalloc pid addr pages prot (pages + 1) s 0

-- Unmapping

/-- The write of a page to its file, when its last mapping goes. The offset is computed in the 32
bits of an `unsigned long`.
-/
def writeBack (env : Env) (s : State) (r : VmRecord) (fd : FileDescriptor) (frame n key : ℕ)
    : State :=
  let count :=
    if r.start + r.len < n * pageSize + pageSize then r.len % pageSize else pageSize
  pwriteFile env s fd frame count (key * pageSize % wordLimit)

/-- One round of the loop of `munmap_vmr` over the pages of a shared mapping. -/
def unmapSharedPage (env : Env) (pid : ℕ) (r : VmRecord) (fd : FileDescriptor) (s : State) (j : ℕ)
    : State :=
  let n := r.start / pageSize + j
  let key := (r.mappingOffset / pageSize + j) % wordLimit
  match s.pte pid n with
  | none => s
  | some entry =>
    if sIsreg (s.inode fd.inode).mode then
      match (s.inode fd.inode).mmapPageCache key with
      | none => s
      | some mpc =>
        if mpc.instances = 1 then
          let s := if mpc.dirty then writeBack env s r fd entry.frame n key else s
          let s := (s.setEntry fd.inode key none).changed (.remove (.pageCache fd.inode) key)
          (s.pffree mpc.page).setPte pid n none
        else
          (s.setEntry fd.inode key (some { mpc with instances := mpc.instances - 1 })).setPte
            pid n none
    else s.setPte pid n none

/-- One round of the loop over the pages of a private or anonymous mapping. -/
def unmapPrivatePage (pid : ℕ) (r : VmRecord) (s : State) (j : ℕ) : State :=
  let n := r.start / pageSize + j
  match s.pte pid n with
  | none => s
  | some entry => (s.setPte pid n none).pffree entry.frame

def munmapVmr (env : Env) (pid : ℕ) (s : State) (r : VmRecord) (wasEmpty : Bool) : State :=
  if wasEmpty then s
  else
    let s :=
      if r.isPrivate || r.backingFd.isNone then
        (List.range r.pages).foldl (unmapPrivatePage pid r) s
      else s
    match r.backingFd with
    | none => s
    | some fd =>
      if r.isPrivate then s else (List.range r.pages).foldl (unmapSharedPage env pid r fd) s

/-- A record that was cut out goes from the tree, and its pages are unmapped. -/
def unmapCut (env : Env) (pid : ℕ) (wasEmpty : Bool) (s : State) (vm : List VmRecord)
    (cut : VmRecord)
    : State :=
  let s := s.changed (.remove (.records pid) cut.start)
  munmapVmr env pid (s.setVm pid (removeRecord vm cut)) cut wasEmpty

/-- The loop of `munmap_to_vmr` from the page `i` on. -/
def munmapLoop (env : Env) (pid addr len : ℕ) (ignoreMissing wasEmpty : Bool)
    : ℕ → State → ℕ → Option (State × Int)
  | 0, _, _ => none
  | fuel + 1, s, i =>
    if len ≤ i then some (s, 0)
    else
      let target := (addr + i * pageSize) % wordLimit
      match rbtreeSearchLte (s.vm pid) target with
      | none =>
        if ignoreMissing then munmapLoop env pid addr len ignoreMissing wasEmpty fuel s (i + 1)
        else some (s, -enomem)
      | some r =>
        if r.start + r.len < target then
          if ignoreMissing then
            munmapLoop env pid addr len ignoreMissing wasEmpty fuel s (i + 1)
          else some (s, -enomem)
        else
          let offset := target - r.start
          (splitOut (s.vm pid) env.kalloc r offset (len - i)).bind fun (vm, cut) =>
            let s := s.addRecords pid (splitStarts r offset (len - i))
            let s := unmapCut env pid wasEmpty s vm cut
            munmapLoop env pid addr len ignoreMissing wasEmpty fuel s (i + cut.pages)

def munmapToVmr (env : Env) (pid addr len : ℕ) (ignoreMissing wasEmpty : Bool)
    : Option (State × Int) :=
  if len = 0 ∨ s.vm pid = [] then some (s, 0)
  else if addr % pageSize ≠ 0 then none
  else
    let pages := (len + pageSize - 1) % wordLimit / pageSize
    settled (munmapLoop env pid addr pages ignoreMissing wasEmpty (pages + 1) s 0)

def sysMunmap (env : Env) (pid addr len : ℕ) : Option (State × Int) :=
  if addr % pageSize ≠ 0 then some (s, -einval)
  else if len = 0 then some (s, 0)
  else munmapToVmr s env pid addr len false false

end UnstableOS.Mm.Mmap
