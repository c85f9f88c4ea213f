import Mathlib.Data.List.ProdSigma
import UnstableOS.Kernel.Errno
import UnstableOS.Lib.Holders
import UnstableOS.Lib.Trace

/-! File descriptors (`fs.c`): opening, duplicating and closing them, and `sys_fork`.
An open file description is named by its place in `kernel_fds`, and a slot by a process and a
number. A call that reaches a panic or spins for a lock that nobody will release does not return.
-/

namespace UnstableOS.Fs.Descriptors

open Kernel Lib Function List Except Option Classical Prod

-- The tables

def FD_LIMIT_PROCESS : ℕ := 128

def INODE_LIMIT_KERNEL : ℕ := 0x1000

/-- `rw_spinlock_t`, as a call sees it that is not disturbed by others: the number of readers and
whether writers are locked out.
-/
structure RwLock where
  value : ℕ
  wlock : Bool
deriving DecidableEq

/-- `file_descriptor_t`. The inode is the one the description has a reference to, until
`close_inode` has given it back.
-/
structure File where
  instances : ℤ
  inode : Option ℕ
  accessLock : RwLock
deriving DecidableEq

/-- The descriptions, the slots of all processes with their `FD_CLOFORK` flags, and the locks. -/
structure State where
  file : ℕ → File
  fds : ℕ × ℕ → Option ℕ
  clofork : ℕ × ℕ → Bool
  processes : List ℕ
  lastPid : ℕ
  lock : ℕ → Bool
  kernelFdLock : Bool

open State

/-- Why a call does not return. -/
inductive Halt where
  | panic
  | spins
deriving DecidableEq

/-- The state after a call and what it returns. -/
abbrev Outcome := Except Halt (State × Except Errno ℕ)

namespace State

variable (s : State)

def setFile (f : ℕ) (file : File) : State :=
  { s with file := update s.file f file }

def setSlot (slot : ℕ × ℕ) (f : Option ℕ) : State :=
  { s with fds := update s.fds slot f }

def setClofork (slot : ℕ × ℕ) (clofork : Bool) : State :=
  { s with clofork := update s.clofork slot clofork }

-- Locks

/-- `spinlock_acquire` of the lock of a process. -/
def lockProcess (pid : ℕ) : Except Halt State :=
  if s.lock pid then .error .spins else .ok { s with lock := update s.lock pid true }

def unlockProcess (pid : ℕ) : State :=
  { s with lock := update s.lock pid false }

/-- `spinlock_acquire` of `kernel_fd_lock`. -/
def lockFds : Except Halt State :=
  if s.kernelFdLock then .error .spins else .ok { s with kernelFdLock := true }

def unlockFds : State := { s with kernelFdLock := false }

/-- `rw_spinlock_acquire_read` of the lock of a description. -/
def acquireRead (f : ℕ) : Except Halt State :=
  let lock := (s.file f).accessLock
  if lock.value + 1 = 1 then
    if lock.wlock then .error .spins
    else .ok (s.setFile f { s.file f with accessLock := ⟨lock.value + 1, true⟩ })
  else .ok (s.setFile f { s.file f with accessLock := ⟨lock.value + 1, lock.wlock⟩ })

/-- `rw_spinlock_release_read`. -/
def releaseRead (f : ℕ) : Except Halt State :=
  let lock := (s.file f).accessLock
  if lock.value = 0 then .error .panic
  else if lock.value - 1 = 0 then
    .ok (s.setFile f { s.file f with accessLock := ⟨lock.value - 1, false⟩ })
  else .ok (s.setFile f { s.file f with accessLock := ⟨lock.value - 1, lock.wlock⟩ })

-- The calls

/-- One more reference to a description. -/
def addInstance (f : ℕ) : State :=
  s.setFile f { s.file f with instances := (s.file f).instances + 1 }

/-- `get_free_fd`: the first description that is not in use. There is memory for one that was never
used; without it the kernel panics, as it does with no description left.
-/
def getFreeFd : Except Halt ℕ :=
  match (List.range INODE_LIMIT_KERNEL).find? fun f => (s.file f).instances = 0 with
  | some f => .ok f
  | none => .error .panic

/-- The first free slot of a process from a number on. -/
def freeSlot (pid startfd : ℕ) : Option ℕ :=
  (List.range FD_LIMIT_PROCESS).find? fun i => startfd ≤ i && s.fds (pid, i) = none

/-- `get_fd_from_inode`. -/
def getFdFromInode (pid inode : ℕ) (clofork : Bool) : Outcome := do
  let s ← s.lockProcess pid
  let s ← s.lockFds
  match s.freeSlot pid 0 with
  | none => return ((s.unlockProcess pid).unlockFds, .error .emfile)
  | some fd =>
    let f ← s.getFreeFd
    let s := s.setFile f ⟨1, some inode, ⟨0, false⟩⟩
    let s := (s.setClofork (pid, fd) clofork).setSlot (pid, fd) (some f)
    return ((s.unlockProcess pid).unlockFds, .ok fd)

/-- `close_file_forced`; the second component says whether it was the last reference. -/
def closeFileForced (f : ℕ) : State × Bool :=
  let file := s.file f
  if file.instances - 1 = 0 then (s.setFile f ⟨file.instances - 1, none, ⟨0, false⟩⟩, true)
  else (s.setFile f { file with instances := file.instances - 1 }, false)

/-- `close_file`. -/
def closeFile (f : ℕ) : Except Halt State := do
  let s ← s.acquireRead f
  let s ← s.lockFds
  let (s, last) := s.closeFileForced f
  let s ← if last then .ok s else s.releaseRead f
  return s.unlockFds

/-- The number of a slot, if it is one. -/
def slotNumber (fd : ℤ) : Option ℕ :=
  if 0 ≤ fd ∧ fd < FD_LIMIT_PROCESS then some fd.toNat else none

/-- `sys_close`. -/
def sysClose (pid : ℕ) (fd : ℤ) : Outcome :=
  match slotNumber fd with
  | none => return (s, .error .ebadf)
  | some fd => do
      let s ← s.lockProcess pid
      let file := s.fds (pid, fd)
      let s := s.setSlot (pid, fd) none
      match file with
      | none => return (s.unlockProcess pid, .error .ebadf)
      | some f =>
        let s ← s.acquireRead f
        let s ← (s.unlockProcess pid).lockFds
        let (s, last) := s.closeFileForced f
        let s ← if last then .ok s else s.releaseRead f
        return (s.unlockFds, .ok 0)

/-- `dup_file`. For a description that is not there it forgets the lock of the process. -/
def dupFile (pid : ℕ) (file : Option ℕ) (startfd : ℕ) : Outcome := do
  let s ← s.lockProcess pid
  let s ← s.lockFds
  match file with
  | none => return (s.unlockFds, .error .ebadf)
  | some f =>
    match s.freeSlot pid startfd with
    | none => return ((s.unlockProcess pid).unlockFds, .error .emfile)
    | some fd =>
      let s := s.addInstance f
      let s := (s.setClofork (pid, fd) false).setSlot (pid, fd) (some f)
      return ((s.unlockProcess pid).unlockFds, .ok fd)

/-- `sys_dup`: the description is held by one more reference meanwhile. -/
def sysDup (pid : ℕ) (oldfd : ℤ) : Outcome :=
  match slotNumber oldfd with
  | none => return (s, .error .ebadf)
  | some oldfd => do
      let s ← s.lockProcess pid
      match s.fds (pid, oldfd) with
      | none => (s.unlockProcess pid).dupFile pid none 0
      | some f =>
        let (s, result) ← ((s.addInstance f).unlockProcess pid).dupFile pid (some f) 0
        let s ← s.closeFile f
        return (s, result)

/-- What `sys_dup3` does to the description that is in the new slot. -/
def closeNew (pid newfd : ℕ) : Except Halt State :=
  match s.fds (pid, newfd) with
  | none => .ok s
  | some f => do
      let s ← s.acquireRead f
      let (s, _) := s.closeFileForced f
      let s ← s.releaseRead f
      return s.setSlot (pid, newfd) none

/-- `sys_dup3` with the `O_CLOFORK` bit of its flags, none for the flags -1 of `dup2`. -/
def sysDup3 (pid : ℕ) (oldfd newfd : ℤ) (flags : Option Bool) : Outcome :=
  match slotNumber oldfd, slotNumber newfd with
  | some oldfd, some newfd =>
    if oldfd = newfd then
      if flags.isSome then return (s, .error .einval) else return (s, .ok oldfd)
    else do
      let s ← s.lockProcess pid
      let s ← s.lockFds
      match s.fds (pid, oldfd) with
      | none => return ((s.unlockProcess pid).unlockFds, .error .ebadf)
      | some f =>
        let s := s.addInstance f
        let s ← s.closeNew pid newfd
        let s := (s.setClofork (pid, newfd) (flags.getD false)).setSlot (pid, newfd)
          (s.fds (pid, oldfd))
        return ((s.unlockProcess pid).unlockFds, .ok newfd)
  | _, _ => return (s, .error .ebadf)

/-- One turn of the loop of `sys_fork` over the slots. -/
def inherit (pid child : ℕ) (i : ℕ) : State :=
  let s := s.setClofork (child, i) (s.clofork (pid, i))
  match s.fds (pid, i) with
  | some f =>
    if s.clofork (pid, i) then s else (s.addInstance f).setSlot (child, i) (some f)
  | none => s

/-- The process a fork makes, whose table is zeroed. -/
def addChild : State :=
  { s with
    fds := fun slot => if slot.1 = s.lastPid + 1 then none else s.fds slot
    processes := s.processes ++ [s.lastPid + 1]
    lastPid := s.lastPid + 1
    lock := update s.lock (s.lastPid + 1) false }

/-- `sys_fork`. -/
def sysFork (pid : ℕ) : Outcome := do
  let s ← s.lockProcess pid
  let s := s.unlockProcess pid
  let child := s.lastPid + 1
  return ((List.range FD_LIMIT_PROCESS).foldl (fun s i => s.inherit pid child i) s.addChild,
    .ok child)

end State

inductive Call where
  | openat (pid inode : ℕ) (clofork : Bool)
  | dup (pid : ℕ) (oldfd : ℤ)
  | dup3 (pid : ℕ) (oldfd newfd : ℤ) (flags : Option Bool)
  | close (pid : ℕ) (fd : ℤ)
  | fork (pid : ℕ)

def Call.pid : Call → ℕ
  | .openat pid _ _ | .dup pid _ | .dup3 pid _ _ _ | .close pid _ | .fork pid => pid

variable (s : State)

def State.perform : Call → Outcome
  | .openat pid inode clofork => s.getFdFromInode pid inode clofork
  | .dup pid oldfd => s.sysDup pid oldfd
  | .dup3 pid oldfd newfd flags => s.sysDup3 pid oldfd newfd flags
  | .close pid fd => s.sysClose pid fd
  | .fork pid => s.sysFork pid

/-- A call by one of the processes, if it returns. -/
def State.step (call : Call) : Option State :=
  if call.pid ∈ s.processes then
    match s.perform call with
    | .ok (s', _) => some s'
    | .error _ => none
  else some s

-- The property

/-- The slots of all processes. -/
def State.slots : List (ℕ × ℕ) := s.processes.product (List.range FD_LIMIT_PROCESS)

/-- The number of slots that refer to a description. -/
def State.references (f : ℕ) : ℕ := holders s.slots s.fds f

/-- (Settled s) holds when the counters are the numbers of slots, a description has its inode as
long as a slot refers to it, and no lock is held.
-/
structure State.Settled (s : State) : Prop where
  instances : ∀ f, (s.file f).instances = s.references f
  held : ∀ f, (s.file f).inode.isSome ↔ 0 < s.references f
  unlocked : ∀ pid ∈ s.processes, s.lock pid = false
  fdsUnlocked : s.kernelFdLock = false
  accessible : ∀ f, (s.file f).accessLock = ⟨0, false⟩

/-- What every call has to keep. -/
structure State.Sound (s : State) : Prop extends s.Settled where
  nodup : s.processes.Nodup
  known : ∀ pid ∈ s.processes, pid ≤ s.lastPid

-- The condition

/-- Opening needs a description that is not in use, unless the process has no free slot. A
descriptor is duplicated only if it is open, and the description in the new slot of `sys_dup3` is
not in that slot alone.
-/
def State.Safe : Call → Prop
  | .openat pid _ _ => pid ∈ s.processes → s.freeSlot pid 0 ≠ none →
      ∃ f < INODE_LIMIT_KERNEL, (s.file f).instances = 0
  | .dup pid oldfd => pid ∈ s.processes → ∀ i ∈ State.slotNumber oldfd, s.fds (pid, i) ≠ none
  | .dup3 pid oldfd newfd _ => pid ∈ s.processes →
      ∀ i ∈ State.slotNumber oldfd, ∀ j ∈ State.slotNumber newfd, i ≠ j →
        s.fds (pid, i) ≠ none → ∀ f ∈ s.fds (pid, j), s.references f ≠ 1
  | .close _ _ | .fork _ => True

-- What the calls come to when no lock is held

variable {s s' : State} {pid f : ℕ}

/-- One reference less, and the inode is given back with the last one. -/
def State.dropInstance (f : ℕ) : State := (s.closeFileForced f).1

/-- The locks a call of a process needs are free. -/
structure State.Free (s : State) (pid : ℕ) : Prop where
  process : s.lock pid = false
  fds : s.kernelFdLock = false
  access : ∀ f, (s.file f).accessLock = ⟨0, false⟩

-- the searches do not look at the locks

theorem State.freeSlot_with (lock : ℕ → Bool) (fdsLock : Bool) (pid startfd : ℕ)
    : freeSlot { s with lock := lock, kernelFdLock := fdsLock } pid startfd
        = s.freeSlot pid startfd :=
  rfl

theorem State.getFreeFd_congr (same : s'.file = s.file) : s'.getFreeFd = s.getFreeFd := by
  unfold getFreeFd
  rw [same]

theorem State.getFreeFd_with (lock : ℕ → Bool) (fdsLock : Bool)
    : getFreeFd { s with lock := lock, kernelFdLock := fdsLock } = s.getFreeFd :=
  getFreeFd_congr rfl

attribute [local simp] State.setFile acquireRead releaseRead bind Except.bind pure Except.pure
  State.freeSlot_with State.getFreeFd_with

theorem State.dropInstance_shared (shared : (s.file f).instances ≠ 1)
    : s.dropInstance f = s.setFile f { s.file f with instances := (s.file f).instances - 1 } := by
  have notLast : ¬ (s.file f).instances - 1 = 0 := by omega
  simp [dropInstance, closeFileForced, if_neg notLast]

theorem State.dropInstance_setSlot (f : ℕ) (slot : ℕ × ℕ) (file : Option ℕ)
    : (s.setSlot slot file).dropInstance f = (s.dropInstance f).setSlot slot file := by
  unfold dropInstance closeFileForced
  by_cases last : (s.file f).instances - 1 = 0 <;> simp [setSlot, last]

theorem State.dropInstance_setClofork (f : ℕ) (slot : ℕ × ℕ) (clofork : Bool)
    : (s.setClofork slot clofork).dropInstance f = (s.dropInstance f).setClofork slot clofork := by
  unfold dropInstance closeFileForced
  by_cases last : (s.file f).instances - 1 = 0 <;> simp [setClofork, last]

namespace State.Free

section
variable (free : s.Free pid)
include free

theorem unlock : update (update s.lock pid true) pid false = s.lock := by
  rw [update_idem, ← free.process, update_eq_self]

theorem lockProcess
    : s.lockProcess pid = .ok { s with lock := update s.lock pid true } := by
  simp [State.lockProcess, free.process]

theorem lockFds_with (lock : ℕ → Bool)
    : lockFds { s with lock := lock } = .ok { s with lock := lock, kernelFdLock := true } := by
  simp [lockFds, free.fds]

theorem unlock_both (file : ℕ → File) (fds : ℕ × ℕ → Option ℕ) (clofork : ℕ × ℕ → Bool)
    : unlockFds (unlockProcess
          ⟨file, fds, clofork, s.processes, s.lastPid, update s.lock pid true, true⟩ pid)
        = { s with file := file, fds := fds, clofork := clofork } := by
  simp only [unlockFds, unlockProcess]
  rw [free.unlock, ← free.fds]

theorem closeFile (f : ℕ) : s.closeFile f = .ok (s.dropInstance f) := by
  have isFree := free.access f
  have fdsFree := free.fds
  by_cases last : (s.file f).instances - 1 = 0 <;>
    simp [State.closeFile, closeFileForced, dropInstance, lockFds, unlockFds, isFree, fdsFree, last]

variable {fd i startfd : ℕ}

theorem sysClose_closed {fd} (isSlot : slotNumber fd = some i) (closed : s.fds (pid, i) = none)
    : s.sysClose pid fd = .ok (s, .error .ebadf) := by
  have same : update s.fds (pid, i) none = s.fds := by
    rw [← closed, update_eq_self]
  simp [sysClose, isSlot, State.lockProcess, free.process, closed, setSlot, unlockProcess, same,
    free.unlock]

theorem sysClose_open {fd} (isSlot : slotNumber fd = some i) (opened : s.fds (pid, i) = some f)
    : s.sysClose pid fd = .ok ((s.setSlot (pid, i) none).dropInstance f, .ok 0) := by
  have isFree := free.access f
  have unlocked := free.unlock
  by_cases last : (s.file f).instances - 1 = 0 <;>
    simp [sysClose, isSlot, State.lockProcess, free.process, opened, setSlot, unlockProcess,
      closeFileForced, dropInstance, lockFds, unlockFds, isFree, free.fds, last]

theorem openat_full (inode : ℕ) (clofork : Bool) (full : s.freeSlot pid 0 = none)
    : s.getFdFromInode pid inode clofork = .ok (s, .error .emfile) := by
  simp [getFdFromInode, free.lockProcess, free.lockFds_with, full, free.unlock_both]

theorem openat_none (inode : ℕ) (clofork : Bool)
    (slot : s.freeSlot pid 0 = some fd) (used : s.getFreeFd = .error .panic)
    : s.getFdFromInode pid inode clofork = .error .panic := by
  simp [getFdFromInode, free.lockProcess, free.lockFds_with, slot, used]

theorem openat_some (inode : ℕ) (clofork : Bool)
    (slot : s.freeSlot pid 0 = some fd) (unused : s.getFreeFd = .ok f)
    : s.getFdFromInode pid inode clofork
        = .ok (((s.setFile f ⟨1, some inode, ⟨0, false⟩⟩).setClofork (pid, fd) clofork).setSlot
            (pid, fd) (some f), .ok fd) := by
  simp [getFdFromInode, free.lockProcess, free.lockFds_with, slot, unused, setClofork, setSlot,
    free.unlock_both]

/-- A closed descriptor is duplicated: the call fails and keeps the lock of the process. -/
theorem dupFile_none (startfd : ℕ)
    : s.dupFile pid none startfd
        = .ok ({ s with lock := update s.lock pid true }, .error .ebadf) := by
  simp only [dupFile, free.lockProcess, free.lockFds_with, bind, Except.bind, pure,
    Except.pure, unlockFds]
  rw [← free.fds]

theorem dupFile_full (full : s.freeSlot pid startfd = none) (f : ℕ)
    : s.dupFile pid (some f) startfd = .ok (s, .error .emfile) := by
  simp [dupFile, free.lockProcess, free.lockFds_with, full, free.unlock_both]

theorem dupFile_some (slot : s.freeSlot pid startfd = some fd) (f : ℕ)
    : s.dupFile pid (some f) startfd
        = .ok (((s.addInstance f).setClofork (pid, fd) false).setSlot (pid, fd) (some f),
            .ok fd) := by
  simp [dupFile, free.lockProcess, free.lockFds_with, slot, addInstance, setClofork, setSlot,
    free.unlock_both]

theorem setFile {file} (access : file.accessLock = ⟨0, false⟩)
    : (s.setFile f file).Free pid := by
  refine ⟨free.process, free.fds, fun other => ?_⟩
  by_cases same : other = f
  · subst same
    simpa using access
  · simpa [same] using free.access other

theorem addInstance (f : ℕ) : (s.addInstance f).Free pid :=
  free.setFile (free.access f)

theorem setSlot (slot : ℕ × ℕ) (file : Option ℕ) : (s.setSlot slot file).Free pid :=
  ⟨free.process, free.fds, free.access⟩

theorem setClofork (slot : ℕ × ℕ) (clofork : Bool) : (s.setClofork slot clofork).Free pid :=
  ⟨free.process, free.fds, free.access⟩

theorem sysDup_closed {oldfd} (isSlot : slotNumber oldfd = some i) (closed : s.fds (pid, i) = none)
    : s.sysDup pid oldfd = .ok ({ s with lock := update s.lock pid true }, .error .ebadf) := by
  simp [sysDup, isSlot, free.lockProcess, closed, unlockProcess,
    free.unlock, free.dupFile_none]

end

/-- The temporary reference has no effect, since the slot holds one already. -/
theorem dropInstance_addInstance (held : 0 < (s.file f).instances)
    : (s.addInstance f).dropInstance f = s := by
  have notLast := Int.ne_of_gt held
  simp [dropInstance, closeFileForced, State.addInstance, notLast]

variable {oldfd : ℤ} {i newfd : ℕ}

section
variable (free : s.Free pid) (isSlot : State.slotNumber oldfd = some i)
    (opened : s.fds (pid, i) = some f)
include free isSlot opened

/-- The first part of `sys_dup` on an open descriptor. -/
theorem sysDup_open
    : s.sysDup pid oldfd = (do
        let (s, result) ← (s.addInstance f).dupFile pid (some f) 0
        let s ← s.closeFile f
        return (s, result)) := by
  have restored : unlockProcess (State.addInstance { s with lock := update s.lock pid true } f) pid
      = s.addInstance f := by
    simp [State.addInstance, unlockProcess, free.unlock]
  simp [sysDup, isSlot, free.lockProcess, opened, restored]

theorem sysDup_full (held : 0 < (s.file f).instances) (full : s.freeSlot pid 0 = none)
    : s.sysDup pid oldfd = .ok (s, .error .emfile) := by
  have more := free.addInstance f
  rw [free.sysDup_open isSlot opened, more.dupFile_full full]
  simp [more.closeFile, dropInstance_addInstance held]

end

theorem sysDup_some (free : s.Free pid) {fd}
    (isSlot : slotNumber oldfd = some i) (opened : s.fds (pid, i) = some f)
    (held : 0 < (s.file f).instances) (slot : s.freeSlot pid 0 = some fd)
    : s.sysDup pid oldfd
        = .ok (((s.addInstance f).setClofork (pid, fd) false).setSlot (pid, fd) (some f),
            .ok fd) := by
  have more := free.addInstance f
  have filled := ((more.addInstance f).setClofork (pid, fd) false).setSlot (pid, fd) (some f)
  have heldMore : 0 < ((s.addInstance f).file f).instances := by
    simp only [State.addInstance, State.setFile, update_self]
    omega
  have dropped : ((((s.addInstance f).addInstance f).setClofork (pid, fd) false).setSlot (pid, fd)
      (some f)).dropInstance f
      = ((s.addInstance f).setClofork (pid, fd) false).setSlot (pid, fd) (some f) := by
    rw [dropInstance_setSlot, dropInstance_setClofork, dropInstance_addInstance heldMore]
  rw [free.sysDup_open isSlot opened, more.dupFile_some slot]
  simp [filled.closeFile, dropped]

/-- The description in the new slot is closed when other slots refer to it as well. -/
theorem closeNew_shared (free : s.Free pid) (opened : s.fds (pid, newfd) = some f)
    (shared : (s.file f).instances ≠ 1) (lock : ℕ → Bool)
    : closeNew { s with lock := lock, kernelFdLock := true } pid newfd
        = .ok { (s.dropInstance f).setSlot (pid, newfd) none with
            lock := lock, kernelFdLock := true } := by
  have isFree := free.access f
  have notLast : ¬ (s.file f).instances - 1 = 0 := by omega
  simp [closeNew, opened, isFree, closeFileForced, notLast, dropInstance, State.setSlot]

/-- The last slot: the lock that is to be released was reset. -/
theorem closeNew_last (free : s.Free pid) (opened : s.fds (pid, newfd) = some f)
    (last : (s.file f).instances = 1) (lock : ℕ → Bool)
    : closeNew { s with lock := lock, kernelFdLock := true } pid newfd = .error .panic := by
  have isFree := free.access f
  simp [closeNew, opened, isFree, closeFileForced, last]

section Dup3
variable {oldfd newfd : ℤ} {i j : ℕ} {flags : Option Bool}

section
variable (free : s.Free pid) (oldSlot : State.slotNumber oldfd = some i)
    (newSlot : State.slotNumber newfd = some j) (differ : i ≠ j)
include free oldSlot newSlot differ

theorem sysDup3_closed (closed : s.fds (pid, i) = none)
    : s.sysDup3 pid oldfd newfd flags = .ok (s, .error .ebadf) := by
  simp [sysDup3, oldSlot, newSlot, if_neg differ, free.lockProcess, free.lockFds_with, closed,
    free.unlock_both]

section
variable (opened : s.fds (pid, i) = some f)
include opened

/-- The middle part of `sys_dup3` on an open descriptor. -/
theorem sysDup3_open
    : s.sysDup3 pid oldfd newfd flags = (do
        let s ← closeNew { s.addInstance f with
          lock := update s.lock pid true, kernelFdLock := true } pid j
        let s := (s.setClofork (pid, j) (flags.getD false)).setSlot (pid, j) (s.fds (pid, i))
        return ((s.unlockProcess pid).unlockFds, .ok j)) := by
  simp only [sysDup3, oldSlot, newSlot, if_neg differ, free.lockProcess, free.lockFds_with,
    bind, Except.bind, opened]
  rfl

theorem sysDup3_empty (empty : s.fds (pid, j) = none)
    : s.sysDup3 pid oldfd newfd flags
        = .ok (((s.addInstance f).setClofork (pid, j) (flags.getD false)).setSlot (pid, j)
            (some f), .ok j) := by
  have nothing : closeNew { s.addInstance f with
      lock := update s.lock pid true, kernelFdLock := true } pid j
      = .ok { s.addInstance f with
          lock := update s.lock pid true, kernelFdLock := true } := by
    simp [closeNew, State.addInstance, empty]
  rw [free.sysDup3_open oldSlot newSlot differ opened, nothing]
  simp [State.addInstance, State.setClofork, State.setSlot, opened, free.unlock_both]

/-- What was in the new slot stays open elsewhere. -/
theorem sysDup3_shared {g} (taken : s.fds (pid, j) = some g)
    (shared : ((s.addInstance f).file g).instances ≠ 1)
    : s.sysDup3 pid oldfd newfd flags
        = .ok (((((s.addInstance f).dropInstance g).setSlot (pid, j) none).setClofork (pid, j)
            (flags.getD false)).setSlot (pid, j) (some f), .ok j) := by
  have more := free.addInstance f
  have otherSlot : (pid, i) ≠ (pid, j) := fun same => differ (Prod.mk.inj same).2
  have old : ((s.addInstance f).setSlot (pid, j) none).fds (pid, i) = some f := by
    simpa [State.setSlot, State.addInstance, otherSlot] using opened
  rw [free.sysDup3_open oldSlot newSlot differ opened, more.closeNew_shared taken shared]
  simp only [dropInstance_shared shared, bind, Except.bind, pure, Except.pure]
  simp only [State.addInstance, State.setFile, State.setClofork, State.setSlot] at old ⊢
  rw [old, free.unlock_both]

theorem sysDup3_last {g} (taken : s.fds (pid, j) = some g)
    (last : ((s.addInstance f).file g).instances = 1)
    : s.sysDup3 pid oldfd newfd flags = .error .panic := by
  have more := free.addInstance f
  rw [free.sysDup3_open oldSlot newSlot differ opened, more.closeNew_last taken last]
  rfl

end

end

end Dup3

end State.Free

-- Slots that are filled and emptied

namespace State

theorem mem_slots {slot}
    : slot ∈ s.slots ↔ slot.1 ∈ s.processes ∧ slot.2 < FD_LIMIT_PROCESS :=
  mem_product.trans (and_congr_right' mem_range)

theorem slotNumber_lt {fd i} (isSlot : slotNumber fd = some i) : i < FD_LIMIT_PROCESS := by
  obtain ⟨inRange, rfl⟩ := guarded isSlot
  omega

theorem freeSlot_some {startfd fd} (slot : s.freeSlot pid startfd = some fd)
    : fd < FD_LIMIT_PROCESS ∧ s.fds (pid, fd) = none := by
  have mem := mem_of_find?_eq_some slot
  have empty := find?_some slot
  simp only [Bool.and_eq_true, decide_eq_true_eq] at empty
  exact ⟨mem_range.mp mem, empty.2⟩

theorem getFreeFd_spec (s : State)
    : (∃ f < INODE_LIMIT_KERNEL, s.getFreeFd = .ok f ∧ (s.file f).instances = 0)
      ∨ (s.getFreeFd = .error .panic ∧ ¬ ∃ f < INODE_LIMIT_KERNEL, (s.file f).instances = 0) := by
  unfold getFreeFd
  split
  next f found =>
    exact .inl ⟨f, mem_range.mp (mem_of_find?_eq_some found), rfl, by simpa using find?_some found⟩
  next missing =>
    refine .inr ⟨rfl, fun ⟨f, inTable, zero⟩ => ?_⟩
    have used := find?_eq_none.mp missing f (mem_range.mpr inTable)
    exact absurd zero (by simpa using used)

namespace Sound

section
variable (sound : s.Sound)
include sound

theorem free (mem : pid ∈ s.processes) : s.Free pid :=
  ⟨sound.unlocked pid mem, sound.fdsUnlocked, sound.accessible⟩

theorem slots_nodup : s.slots.Nodup :=
  sound.nodup.product nodup_range

variable {slot : ℕ × ℕ} {file : File}

theorem held_slot (mem : slot ∈ s.slots) (opened : s.fds slot = some f)
    : 0 < (s.file f).instances ∧ (s.file f).inode.isSome := by
  have positive := holders_pos mem opened
  refine ⟨?_, (sound.held f).mpr positive⟩
  rw [sound.instances f]
  exact_mod_cast positive

theorem setClofork (slot : ℕ × ℕ) (clofork : Bool) : (s.setClofork slot clofork).Sound :=
  { sound with }

/-- The references to one description change, and its counter and its inode with them. -/
theorem reslot {r} (others : ∀ g, g ≠ f → holders s.slots (update s.fds slot r) g = s.references g)
    (instances : file.instances = holders s.slots (update s.fds slot r) f)
    (inode : file.inode.isSome ↔ 0 < holders s.slots (update s.fds slot r) f)
    (access : file.accessLock = ⟨0, false⟩)
    : ((s.setFile f file).setSlot slot r).Sound := by
  have each (g : ℕ) : (update s.file f file g).instances = holders s.slots (update s.fds slot r) g
      ∧ ((update s.file f file g).inode.isSome ↔ 0 < holders s.slots (update s.fds slot r) g)
      ∧ (update s.file f file g).accessLock = ⟨0, false⟩ := by
    by_cases same : g = f
    · subst same
      rw [update_self]
      exact ⟨instances, inode, access⟩
    · rw [update_of_ne same, others g same]
      exact ⟨sound.instances g, sound.held g, sound.accessible g⟩
  exact ⟨⟨fun g => (each g).1, fun g => (each g).2.1, sound.unlocked, sound.fdsUnlocked,
    fun g => (each g).2.2⟩, sound.nodup, sound.known⟩

/-- An empty slot gets a description, which has one more reference. -/
theorem attach (mem : slot ∈ s.slots) (empty : s.fds slot = none)
    (more : file.instances = (s.file f).instances + 1) (inode : file.inode.isSome)
    (access : file.accessLock = ⟨0, false⟩)
    : ((s.setFile f file).setSlot slot (some f)).Sound := by
  have count (g : ℕ) : holders s.slots (update s.fds slot (some f)) g
      = s.references g + if f = g then 1 else 0 := by
    have updated := @holders_update _ _ _ _ s.fds slot g _ sound.slots_nodup mem (some f)
    simpa [empty, references] using updated
  refine sound.reslot (fun g other => ?_) ?_ ?_ access
  · rw [count g, if_neg (Ne.symm other), Nat.add_zero]
  · rw [count f, if_pos rfl, more, sound.instances f]
    rfl
  · rw [count f, if_pos rfl]
    exact iff_of_true inode (Nat.succ_pos _)

theorem attach_open (mem : slot ∈ s.slots)
    (empty : s.fds slot = none) (inode : (s.file f).inode.isSome) (clofork : Bool)
    : (((s.addInstance f).setClofork slot clofork).setSlot slot (some f)).Sound :=
  (sound.setClofork slot clofork).attach mem empty rfl inode (sound.accessible f)

/-- A slot is emptied, and its description has one reference less. -/
theorem detach (mem : slot ∈ s.slots) (opened : s.fds slot = some f)
    : ((s.dropInstance f).setSlot slot none).Sound := by
  have count (g : ℕ) : holders s.slots (update s.fds slot none) g
      + (if f = g then 1 else 0) = s.references g := by
    have updated := @holders_update _ _ _ _ s.fds slot g _ sound.slots_nodup mem none
    simpa [opened, references] using updated
  have others (g : ℕ) (other : g ≠ f)
      : holders s.slots (update s.fds slot none) g = s.references g := by
    rw [← count g, if_neg (Ne.symm other), Nat.add_zero]
  have rest := count f
  rw [if_pos rfl] at rest
  have counted := sound.instances f
  by_cases last : (s.file f).instances - 1 = 0
  · have dropped : s.dropInstance f = s.setFile f ⟨(s.file f).instances - 1, none, ⟨0, false⟩⟩ := by
      simp [dropInstance, closeFileForced, if_pos last]
    rw [dropped]
    refine sound.reslot others ?_ ?_ rfl
    · show (s.file f).instances - 1 = _
      omega
    · simp only [isSome_none, Bool.false_eq_true, false_iff]
      omega
  · rw [dropInstance_shared (by omega)]
    refine sound.reslot others ?_ ?_ (sound.accessible f)
    · show (s.file f).instances - 1 = _
      omega
    · exact iff_of_true ((sound.held f).mpr (by omega)) (by omega)

-- The calls keep the tables sound

/-- The call returns, and leaves the tables sound. -/
abbrev Returns (outcome : Outcome) : Prop := ∃ s' result, outcome = .ok (s', result) ∧ s'.Sound

theorem child_not_mem : s.lastPid + 1 ∉ s.processes :=
  fun mem => absurd (sound.known _ mem) (by omega)

/-- The slots of a new process are empty. -/
theorem references_addChild (g : ℕ) : s.addChild.references g = s.references g := by
  have split : s.addChild.slots = s.slots ++ [s.lastPid + 1].product (range FD_LIMIT_PROCESS) :=
    flatMap_append
  have empty : holders ([s.lastPid + 1].product (range FD_LIMIT_PROCESS)) s.addChild.fds g = 0 := by
    refine holders_eq_zero.mpr fun slot mem => ?_
    have isChild := mem_singleton.mp (mem_product.mp mem).1
    simp [addChild, isChild]
  have same : holders s.slots s.addChild.fds g = s.references g := by
    refine holders_congr fun slot mem => ?_
    have other : slot.1 ≠ s.lastPid + 1 :=
      fun isChild => sound.child_not_mem (isChild ▸ (mem_slots.mp mem).1)
    simp [addChild, if_neg other]
  rw [references, split, holders_append, empty, same, Nat.add_zero]

theorem addChild : s.addChild.Sound := by
  refine ⟨⟨fun g => ?_, fun g => ?_, fun pid mem => ?_, sound.fdsUnlocked, sound.accessible⟩,
    ?_, fun pid mem => ?_⟩
  · rw [sound.references_addChild g]
    exact sound.instances g
  · rw [sound.references_addChild g]
    exact sound.held g
  · by_cases isChild : pid = s.lastPid + 1
    · rw [isChild]
      exact update_self ..
    · have old : pid ∈ s.processes := by simpa [State.addChild, isChild] using mem
      exact (update_of_ne isChild ..).trans (sound.unlocked pid old)
  · have grown := sound.nodup.concat sound.child_not_mem
    rwa [concat_eq_append] at grown
  · rcases mem_append.mp mem with old | isChild
    · exact Nat.le_succ_of_le (sound.known pid old)
    · exact Nat.le_of_eq (mem_singleton.mp isChild)

/-- The slots of the child are filled one by one.
Witness: induction on the slots that are left, which are empty in the child.
-/
theorem foldl_inherit {child} (parent : pid ∈ s.processes)
    (isChild : child ∈ s.processes) {slots : List ℕ} (nodup : slots.Nodup)
    (inRange : ∀ i ∈ slots, i < FD_LIMIT_PROCESS) (empty : ∀ i ∈ slots, s.fds (child, i) = none)
    : (slots.foldl (fun s i => s.inherit pid child i) s).Sound := by
  induction slots generalizing s with
  | nil => exact sound
  | cons i rest ih =>
    obtain ⟨notLater, nodup⟩ := nodup_cons.mp nodup
    obtain ⟨valid, inRange⟩ := forall_mem_cons.mp inRange
    obtain ⟨isEmpty, empty⟩ := forall_mem_cons.mp empty
    have inherited : (s.inherit pid child i).Sound
        ∧ (s.inherit pid child i).processes = s.processes
        ∧ ∀ j ∈ rest, (s.inherit pid child i).fds (child, j) = none := by
      have marked := sound.setClofork (child, i) (s.clofork (pid, i))
      simp only [inherit]
      split
      next f opened =>
        split
        · exact ⟨marked, rfl, empty⟩
        have held := marked.held_slot (mem_slots.mpr ⟨parent, valid⟩) opened
        refine ⟨marked.attach (mem_slots.mpr ⟨isChild, valid⟩) isEmpty rfl held.2
          (sound.accessible f), rfl, fun j mem => ?_⟩
        have other : (child, j) ≠ (child, i) :=
          fun same => notLater ((Prod.mk.inj same).2 ▸ mem)
        exact (update_of_ne other ..).trans (empty j mem)
      · exact ⟨marked, rfl, empty⟩
    obtain ⟨kept, same, empty⟩ := inherited
    exact ih kept (same ▸ parent) (same ▸ isChild) nodup inRange empty

section
variable (mem : pid ∈ s.processes)
include mem

theorem sysFork : Returns (s.sysFork pid) := by
  have free := sound.free mem
  have parent : pid ∈ s.addChild.processes := mem_append_left _ mem
  have isChild : s.lastPid + 1 ∈ s.addChild.processes :=
    mem_append_right _ (mem_singleton_self _)
  refine ⟨_, .ok (s.lastPid + 1), ?_, sound.addChild.foldl_inherit parent isChild nodup_range
    (fun i => mem_range.mp) fun i _ => if_pos rfl⟩
  simp [State.sysFork, free.lockProcess, unlockProcess, free.unlock]

/-- An open succeeds, or finds the table of the process full. -/
theorem openat (inode : ℕ) (clofork : Bool)
    (room : s.freeSlot pid 0 ≠ none → ∃ f < INODE_LIMIT_KERNEL, (s.file f).instances = 0)
    : Returns (s.getFdFromInode pid inode clofork) := by
  have free := sound.free mem
  cases slot : s.freeSlot pid 0 with
  | none => exact ⟨s, _, free.openat_full inode clofork slot, sound⟩
  | some fd =>
    obtain ⟨valid, empty⟩ := freeSlot_some slot
    obtain ⟨f, _, unused, zero⟩ := s.getFreeFd_spec.resolve_right fun none =>
      none.2 (room (by rw [slot]; exact some_ne_none fd))
    refine ⟨_, _, free.openat_some inode clofork slot unused, ?_⟩
    refine (sound.setClofork (pid, fd) clofork).attach (mem_slots.mpr ⟨mem, valid⟩) empty ?_ rfl rfl
    show (1 : ℤ) = (s.file f).instances + 1
    rw [zero]
    rfl

theorem dup (oldfd : ℤ) (isOpen : ∀ i ∈ slotNumber oldfd, s.fds (pid, i) ≠ none)
    : Returns (s.sysDup pid oldfd) := by
  have free := sound.free mem
  cases isSlot : slotNumber oldfd with
  | none =>
    exact ⟨s, .error .ebadf, by simp [sysDup, isSlot], sound⟩
  | some i =>
    obtain ⟨f, opened⟩ := ne_none_iff_exists'.mp (isOpen i isSlot)
    have held := sound.held_slot (mem_slots.mpr ⟨mem, slotNumber_lt isSlot⟩) opened
    cases slot : s.freeSlot pid 0 with
    | none => exact ⟨s, _, free.sysDup_full isSlot opened held.1 slot, sound⟩
    | some fd =>
      obtain ⟨valid, empty⟩ := freeSlot_some slot
      exact ⟨_, _, free.sysDup_some isSlot opened held.1 slot,
        sound.attach_open (mem_slots.mpr ⟨mem, valid⟩) empty held.2 false⟩

theorem close (fd : ℤ) : Returns (s.sysClose pid fd) := by
  have free := sound.free mem
  cases isSlot : slotNumber fd with
  | none =>
    exact ⟨s, .error .ebadf, by simp [sysClose, isSlot], sound⟩
  | some i =>
    cases opened : s.fds (pid, i) with
    | none => exact ⟨s, _, free.sysClose_closed isSlot opened, sound⟩
    | some f =>
      refine ⟨_, _, free.sysClose_open isSlot opened, ?_⟩
      rw [dropInstance_setSlot]
      exact sound.detach (mem_slots.mpr ⟨mem, slotNumber_lt isSlot⟩) opened

end

end

section
variable {g : ℕ} (shared : (s.file g).instances ≠ 1)
include shared

theorem inode_dropInstance (f : ℕ)
    : ((s.dropInstance g).file f).inode = (s.file f).inode := by
  rw [dropInstance_shared shared]
  by_cases same : f = g
  · subst same
    simp
  · simp [same]

/-- A description that stays open may be closed before or after another reference is made. -/
theorem dropInstance_addInstance_comm (held : 0 < (s.file g).instances)
    : (s.addInstance f).dropInstance g = (s.dropInstance g).addInstance f := by
  have notLast : ¬ (s.file g).instances - 1 = 0 := by omega
  by_cases same : g = f
  · subst same
    have notZero : ¬ (s.file g).instances = 0 := by omega
    simp [dropInstance, closeFileForced, addInstance, notLast, notZero]
  · simp [dropInstance, closeFileForced, addInstance, notLast, same, Ne.symm same, update_comm same]

end

/-- In the sum of references the description of the new slot is not the last one. -/
theorem addInstance_ne_one (sound : s.Sound) {slot g} (mem : slot ∈ s.slots)
    (taken : s.fds slot = some g) (f : ℕ)
    : ((s.addInstance f).file g).instances ≠ 1 ↔ s.references g ≠ 1 ∨ g = f := by
  have held := (sound.held_slot mem taken).1
  have counted := sound.instances g
  by_cases same : g = f
  · subst same
    simp only [addInstance, setFile, update_self, or_true, iff_true]
    omega
  · simp only [addInstance, setFile, update_of_ne same, same, or_false]
    omega

theorem dup3 (sound : s.Sound) (mem : pid ∈ s.processes) (oldfd newfd : ℤ)
    (flags : Option Bool) (shared : ∀ i ∈ slotNumber oldfd, ∀ j ∈ slotNumber newfd, i ≠ j →
      s.fds (pid, i) ≠ none → ∀ f ∈ s.fds (pid, j), s.references f ≠ 1)
    : Returns (s.sysDup3 pid oldfd newfd flags) := by
  have free := sound.free mem
  cases oldSlot : slotNumber oldfd with
  | none =>
    exact ⟨s, .error .ebadf, by simp [sysDup3, oldSlot], sound⟩
  | some i =>
  cases newSlot : slotNumber newfd with
  | none =>
    exact ⟨s, .error .ebadf, by simp [sysDup3, newSlot], sound⟩
  | some j =>
  by_cases differ : i = j
  · subst differ
    cases flags with
    | none => exact ⟨s, .ok i, by simp [sysDup3, oldSlot, newSlot], sound⟩
    | some clofork =>
      exact ⟨s, .error .einval, by simp [sysDup3, oldSlot, newSlot], sound⟩
  have newMember := mem_slots.mpr (show (pid, j).1 ∈ s.processes ∧ (pid, j).2 < _ from
    ⟨mem, slotNumber_lt newSlot⟩)
  cases opened : s.fds (pid, i) with
  | none => exact ⟨s, _, free.sysDup3_closed oldSlot newSlot differ opened, sound⟩
  | some f =>
    have held := sound.held_slot (mem_slots.mpr ⟨mem, slotNumber_lt oldSlot⟩) opened
    cases taken : s.fds (pid, j) with
    | none =>
      exact ⟨_, _, free.sysDup3_empty oldSlot newSlot differ opened taken,
        sound.attach_open newMember taken held.2 _⟩
    | some g =>
      have isShared := shared i oldSlot j newSlot differ (by simp [opened]) g taken
      have heldNew := (sound.held_slot newMember taken).1
      have notOne : (s.file g).instances ≠ 1 := by
        have counted := sound.instances g
        omega
      refine ⟨_, _, free.sysDup3_shared oldSlot newSlot differ opened taken
        ((sound.addInstance_ne_one newMember taken f).mpr (.inl isShared)), ?_⟩
      rw [dropInstance_addInstance_comm notOne heldNew]
      have emptied := sound.detach newMember taken
      have heldStill := (inode_dropInstance notOne f).symm ▸ held.2
      rw [dropInstance_shared notOne] at emptied heldStill ⊢
      exact emptied.attach_open newMember (update_self ..) heldStill _

end Sound

/-- A safe call returns, and leaves the tables sound. -/
theorem Sound.step (sound : s.Sound) {call} (safe : s.Safe call)
    : ∃ s', s.step call = some s' ∧ s'.Sound := by
  unfold State.step
  by_cases mem : call.pid ∈ s.processes
  · have returns : Returns (s.perform call) := by
      cases call with
      | openat pid inode clofork => exact sound.openat mem inode clofork (safe mem)
      | dup pid oldfd => exact sound.dup mem oldfd (safe mem)
      | dup3 pid oldfd newfd flags => exact sound.dup3 mem oldfd newfd flags (safe mem)
      | close pid fd => exact sound.close mem fd
      | fork pid => exact sound.sysFork mem
    obtain ⟨s', result, performed, kept⟩ := returns
    exact ⟨s', by rw [if_pos mem, performed], kept⟩
  · exact ⟨s, if_neg mem, sound⟩

/-- A call that is not safe does not return, or returns with a lock held.
Witness: the cases of the condition, in the order of the calls.
-/
theorem Sound.step_unsafe (sound : s.Sound) {call} (notSafe : ¬ s.Safe call)
    (done : s.step call = some s')
    : ¬ s'.Settled := by
  unfold State.step at done
  have fails (mem : call.pid ∈ s.processes) {halt}
      (performed : s.perform call = .error halt) : False := by
    rw [if_pos mem, performed] at done
    cases done
  cases call with
  | openat pid inode clofork =>
    simp only [Safe, Classical.not_imp] at notSafe
    obtain ⟨mem, notFull, used⟩ := notSafe
    obtain ⟨fd, slot⟩ := ne_none_iff_exists'.mp notFull
    rcases s.getFreeFd_spec with ⟨f, inTable, _, zero⟩ | ⟨panics, _⟩
    · exact absurd ⟨f, inTable, zero⟩ used
    exact (fails mem ((sound.free mem).openat_none inode clofork slot panics)).elim
  | dup pid oldfd =>
    simp only [Safe, Classical.not_imp, not_forall, not_not] at notSafe
    obtain ⟨mem, i, isSlot, closed⟩ := notSafe
    have performed := (sound.free mem).sysDup_closed isSlot closed
    rw [if_pos (show (Call.dup pid oldfd).pid ∈ s.processes from mem),
      show s.perform (.dup pid oldfd) = _ from performed] at done
    cases done
    intro settled
    have released : update s.lock pid true pid = false := settled.unlocked pid mem
    rw [update_self] at released
    cases released
  | dup3 pid oldfd newfd flags =>
    simp only [Safe, Classical.not_imp, not_forall, not_not] at notSafe
    obtain ⟨mem, i, oldSlot, j, newSlot, differ, isOpen, g, taken, last⟩ := notSafe
    obtain ⟨f, opened⟩ := ne_none_iff_exists'.mp isOpen
    have newMember : (pid, j) ∈ s.slots := mem_slots.mpr ⟨mem, slotNumber_lt newSlot⟩
    have oldMember : (pid, i) ∈ s.slots := mem_slots.mpr ⟨mem, slotNumber_lt oldSlot⟩
    -- the only slot that refers to it is the new one
    have other : g ≠ f := by
      intro same
      subst same
      exact differ (Prod.mk.inj (eq_of_holders_one last newMember taken oldMember opened)).2
    have isLast : ((s.addInstance f).file g).instances = 1 := by
      by_contra notOne
      rcases (sound.addInstance_ne_one newMember taken f).mp notOne with shared | same
      · exact shared last
      · exact other same
    exact (fails mem ((sound.free mem).sysDup3_last oldSlot newSlot differ opened taken
      isLast)).elim
  | close pid fd | fork pid => exact absurd trivial notSafe

end State

-- Runs

/-- One process without open descriptors. -/
def State.initial : State where
  file _ := ⟨0, none, ⟨0, false⟩⟩
  fds _ := none
  clofork _ := false
  processes := [1]
  lastPid := 1
  lock _ := false
  kernelFdLock := false

theorem State.initial_sound : initial.Sound := by
  have unused (f : ℕ) : initial.references f = 0 :=
    holders_eq_zero.mpr fun _ _ opened => nomatch opened
  refine ⟨⟨fun f => ?_, fun f => ?_, fun _ _ => rfl, rfl, fun _ => rfl⟩, nodup_singleton 1, ?_⟩
  · rw [unused f]
    rfl
  · rw [unused f]
    exact iff_of_false Bool.false_ne_true (Nat.lt_irrefl 0)
  · intro pid mem
    exact Nat.le_of_eq (mem_singleton.mp mem)

instance (s : State) : Decidable (∃ f < INODE_LIMIT_KERNEL, (s.file f).instances = 0) :=
  decidable_of_iff ((List.range INODE_LIMIT_KERNEL).any fun f => (s.file f).instances = 0) (by simp)

instance (s : State) : DecidablePred s.Safe
  | .openat _ _ _ => inferInstanceAs (Decidable (_ → _ → _))
  | .dup _ _ => inferInstanceAs (Decidable (_ → _))
  | .dup3 _ _ _ _ => inferInstanceAs (Decidable (_ → _))
  | .close _ _ | .fork _ => inferInstanceAs (Decidable True)

/-- Every call of a sequence returns, with no lock held and the counters right, exactly when an open
finds an unused description or a full table, only open descriptors are duplicated, and the
description in the new slot of `sys_dup3` has other slots.
Witness: a safe call returns and keeps the tables sound; another one does not return or keeps the
lock of the process.
-/
theorem State.Sound.all_settled_iff (sound : s.Sound) (calls : List Call)
    : (∃ states, trace State.step s calls = some states ∧ ∀ state ∈ states, state.Settled)
        ↔ AllSafe State.step Safe s calls :=
  trace_total_iff Sound Settled (fun sound => sound.toSettled)
    (fun sound safe => sound.step safe) (fun sound notSafe done => sound.step_unsafe notSafe done)
    sound

/-- A descriptor is opened, duplicated, inherited, put over a copy of itself and closed. -/
theorem State.all_settled_inherited
    : let calls : List Call := [.openat 1 7 false, .dup 1 0, .fork 1, .openat 2 9 true,
        .dup3 2 2 1 (some false), .close 1 0, .close 2 5, .dup 1 1]
      ∃ states, trace step initial calls = some states
        ∧ ∀ state ∈ states, state.Settled :=
  (initial_sound.all_settled_iff _).mpr (by decide +kernel)

/-- A descriptor that is not open is duplicated, and the lock of the process stays held. A
descriptor is put over another one that is open in no other slot, and the kernel panics.
-/
theorem State.dup_unsettled
    : initial.Sound
        ∧ (∃ s', initial.step (.dup 1 5) = some s' ∧ s'.lock 1 = true ∧ ¬ s'.Settled)
        ∧ trace step initial [.openat 1 7 false, .openat 1 8 false, .dup3 1 0 1 none] = none := by
  refine ⟨initial_sound, ?_, isNone_iff_eq_none.mp (by decide +kernel)⟩
  have performed : initial.step (.dup 1 5)
      = some { initial with lock := update initial.lock 1 true } := by
    have closed := (initial_sound.free (mem_singleton_self 1)).sysDup_closed
      (show slotNumber 5 = some 5 by decide) rfl
    simp only [step, perform, closed, Call.pid]
    exact if_pos (mem_singleton_self 1)
  have held : update initial.lock 1 true 1 = true := update_self ..
  refine ⟨_, performed, held, fun settled => ?_⟩
  have released := settled.unlocked 1 (mem_singleton_self 1)
  cases released

end UnstableOS.Fs.Descriptors
