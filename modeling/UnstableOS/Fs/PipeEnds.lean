import UnstableOS.Fs.PipeIo

/-! Opening and closing the ends of a pipe or FIFO.
`open_pipe` counts the readers and writers when a FIFO is looked up for opening, which is
before the open file description exists; `close_file_forced` takes one off when the last
descriptor of a description is closed. The pipe lives as long as its inode is referenced.
-/

namespace UnstableOS.Fs.PipeEnds

open Kernel Lib List Option Nat

-- The code

/-- The access modes `O_RDONLY`, `O_WRONLY` and `O_RDWR`, and `O_PATH`, which clears them. -/
inductive Mode where
  | read
  | write
  | readWrite
  | path
deriving Repr, DecidableEq

open Mode

/-- `flags & O_RDONLY`. -/
def Mode.reads : Mode → Bool
  | .read | .readWrite => true
  | .write | .path => false

/-- `flags & O_WRONLY`. -/
def Mode.writes : Mode → Bool
  | .write | .readWrite => true
  | .read | .path => false

/-- The fields of `struct pipe` that are about its ends. -/
structure Ends where
  readers : ℕ
  writers : ℕ
  namedWait : Bool
deriving Repr, DecidableEq

/-- An open file description, `file_descriptor_t`, of the pipe. -/
structure Description where
  mode : Mode
  instances : ℕ
deriving Repr, DecidableEq

/-- The inode of one pipe. It is registered while it has instances, and they include one for
each of its file descriptions.
-/
structure State where
  pipe : Option Ends
  inodeInstances : ℕ
  files : List Description
deriving Repr, DecidableEq

/-- `SIZE_MAX`. -/
def sizeMax : ℕ := 2 ^ 32 - 1

/-- `__atomic_sub_fetch` of one from a `size_t`. -/
def subOne (n : ℕ) : ℕ := (n + sizeMax) % 2 ^ 32

/-- `open_pipe`; `memory` tells whether `kalloc` has any. -/
def openPipe (pipe : Option Ends) (mode : Mode) (memory : Bool) : Except Errno (Option Ends) :=
  if mode = .path then .ok pipe
  else if pipe = none ∧ memory = false then .error .enomem
  else
    let e := pipe.getD ⟨0, 0, true⟩
    if (mode.reads = true ∧ e.readers = sizeMax) ∨ (mode.writes = true ∧ e.writers = sizeMax) then
      .error .ebusy
    else
      let e := { e with
        readers := if mode.reads then e.readers + 1 else e.readers
        writers := if mode.writes then e.writers + 1 else e.writers }
      .ok (some (if 0 < e.readers ∧ 0 < e.writers then { e with namedWait := false } else e))

variable (s : State)

/-- `register_inode` of a FIFO looked up with the flags of an open. -/
def registerInode (mode : Mode) (memory : Bool) : Except Errno State :=
  if s.inodeInstances ≠ 0 then
    match openPipe s.pipe mode memory with
    | .ok pipe => .ok { s with pipe, inodeInstances := s.inodeInstances + 1 }
    | .error err => .error err
  else
    -- the result of `open_pipe` is dropped for an inode that was not registered yet
    match openPipe none mode memory with
    | .ok pipe => .ok { s with pipe, inodeInstances := 1 }
    | .error _ => .ok { s with pipe := none, inodeInstances := 1 }

/-- `close_inode`. -/
def closeInode : State :=
  if s.inodeInstances - 1 = 0 then { s with inodeInstances := 0, pipe := none }
  else { s with inodeInstances := s.inodeInstances - 1 }

/-- `sys_openat` of the FIFO. `getsFd` is false if the open fails after the lookup: no
permission, a flag that does not fit a FIFO, or no free descriptor.
-/
def sysOpenat (mode : Mode) (memory getsFd : Bool) : State :=
  match registerInode s mode memory with
  | .error _ => s
  | .ok s => if getsFd then { s with files := s.files ++ [⟨mode, 1⟩] } else closeInode s

/-- `sys_pipe`. The calls of `get_fd_from_inode` fail with `-EMFILE` or `-ENFILE`, and the code
tests for `-1`, so it goes on without the descriptor.
-/
def sysPipe (first second : Bool) : State where
  pipe := some ⟨1, 1, false⟩
  inodeInstances := 2
  files := (if first then [⟨.read, 1⟩] else []) ++ (if second then [⟨.write, 1⟩] else [])

/-- `dup_file`, also what a fork does for each descriptor. -/
def dupFile (i : ℕ) : Option State :=
  s.files[i]?.map fun file =>
    { s with files := s.files.set i { file with instances := file.instances + 1 } }

/-- The counts after the last descriptor of a description is closed. One that does not read counts
as a writer.
-/
def Ends.closed (e : Ends) (mode : Mode) : Ends :=
  if mode.reads then { e with readers := subOne e.readers }
  else { e with writers := subOne e.writers }

/-- `close_file_forced`; no result if a null `pipe` is followed. -/
def closeFileForced (i : ℕ) : Option State :=
  s.files[i]?.bind fun file =>
    if file.instances - 1 ≠ 0 then
      some { s with files := s.files.set i { file with instances := file.instances - 1 } }
    else
      s.pipe.map fun e =>
        closeInode { s with pipe := some (e.closed file.mode), files := s.files.eraseIdx i }

/-- What happens to the pipe. `reference` and `unreference` are lookups without a descriptor
(`stat`, `unlinkat`) and their end.
-/
inductive Action where
  | openat (mode : Mode) (memory getsFd : Bool)
  | pipe (first second : Bool)
  | dup (i : ℕ)
  | close (i : ℕ)
  | reference
  | unreference
deriving Repr, DecidableEq

def step : Action → Option State
  | .openat mode memory getsFd => some (sysOpenat s mode memory getsFd)
  | .pipe first second => if s.inodeInstances = 0 then some (sysPipe first second) else none
  | .dup i => dupFile s i
  | .close i => closeFileForced s i
  | .reference => some { s with inodeInstances := s.inodeInstances + 1 }
  | .unreference => if s.files.length < s.inodeInstances then some (closeInode s) else none

/-- The pipe before anything is opened. -/
def unopened : State := ⟨none, 0, []⟩

/-- The readers counted; a pipe that does not exist has none. -/
def State.readers : ℕ := s.pipe.elim 0 Ends.readers

/-- The writers counted. -/
def State.writers : ℕ := s.pipe.elim 0 Ends.writers

/-- The counts are the numbers of open descriptions, and a read that finds the ring empty ends
with end of file exactly when none of them writes.
-/
structure CountsOk (s : State) : Prop where
  readers : s.readers = s.files.countP (·.mode.reads)
  writers : s.writers = s.files.countP (·.mode.writes)
  endOfFile : ∀ (io : PipeIo.State) (t n : ℕ) (eintr : Bool) (io' : PipeIo.State),
    io.pipe.writers = s.writers → io.pipe.empty = true →
    PipeIo.advanceRead io t eintr n [] .empty = some io' →
    (io'.task t = .wasRead n [] (.ok 0) ↔ ∀ file ∈ s.files, file.mode.writes = false)

/-- The calls after which the counts still fit. -/
def Safe : Action → Prop
  | .openat mode memory getsFd =>
    mode ≠ .path →
      if s.inodeInstances = 0 then getsFd = true → memory = true
      else getsFd = true ∨ ∀ pipe, openPipe s.pipe mode memory ≠ .ok pipe
  | .pipe first second => first = true ∧ second = true
  | .close i =>
    ∀ file, s.files[i]? = some file → file.instances = 1 →
      file.mode = .readWrite ∨ file.mode = .path → s.inodeInstances = 1
  | _ => True

-- The counts

structure Inv (s : State) : Prop where
  readers : s.readers = s.files.countP (·.mode.reads)
  writers : s.writers = s.files.countP (·.mode.writes)
  references : s.files.length ≤ s.inodeInstances
  unregistered : s.inodeInstances = 0 → s.pipe = none
  live : ∀ file ∈ s.files, file.instances ≠ 0
  small : s.readers ≤ sizeMax ∧ s.writers ≤ sizeMax

variable {s s' : State} {mode : Mode} {memory getsFd : Bool} {e : Ends} {pipe : Option Ends} {i : ℕ}
  {file : Description}

theorem inv_unopened : Inv unopened :=
  ⟨rfl, rfl, le_refl _, fun _ => rfl, fun _ none => absurd none not_mem_nil, by decide⟩

variable {n : ℕ} {front back : List Description} {action : Action}

/-- A reader that finds the ring empty gets end of file exactly when no writer is counted. -/
theorem advanceRead_empty {io io' t eintr}
    (isEmpty : io.pipe.empty = true) (done : PipeIo.advanceRead io t eintr n [] .empty = some io')
    : io'.task t = .wasRead n [] (.ok 0) ↔ io.pipe.writers = 0 := by
  simp only [PipeIo.advanceRead, isEmpty, if_true, length_nil, some.injEq] at done
  subst done
  split
  next none => simp [PipeIo.State.release, PipeIo.State.goto, none]
  next some => simp [PipeIo.State.release, PipeIo.State.goto, some]

theorem Inv.countsOk (inv : Inv s) : CountsOk s where
  readers := inv.readers
  writers := inv.writers
  endOfFile io t n eintr io' same isEmpty done := by
    rw [advanceRead_empty isEmpty done, same, inv.writers, countP_eq_zero]
    simp

attribute [local simp] State.writers writes unopened reads

/-- What a successful `open_pipe` counts. -/
theorem openPipe_ok (opened : openPipe s.pipe mode memory = .ok pipe)
    : pipe.elim 0 Ends.readers = s.readers + mode.reads.toNat
        ∧ pipe.elim 0 Ends.writers = s.writers + mode.writes.toNat
        ∧ (s.readers ≤ sizeMax ∧ s.writers ≤ sizeMax
          → pipe.elim 0 Ends.readers ≤ sizeMax ∧ pipe.elim 0 Ends.writers ≤ sizeMax) := by
  have readers : (s.pipe.getD ⟨0, 0, true⟩).readers = s.readers := by
    cases same : s.pipe <;> simp [State.readers, same]
  have writers : (s.pipe.getD ⟨0, 0, true⟩).writers = s.writers := by
    cases same : s.pipe <;> simp [same]
  unfold openPipe at opened
  split at opened
  next isPath =>
    cases opened
    subst isPath
    exact ⟨rfl, rfl, id⟩
  split at opened
  · cases opened
  simp only [readers, writers] at opened
  split at opened
  · cases opened
  next room =>
  have counted : pipe.elim 0 Ends.readers = (if mode.reads then s.readers + 1 else s.readers)
      ∧ pipe.elim 0 Ends.writers = (if mode.writes then s.writers + 1 else s.writers) := by
    rw [← Except.ok.inj opened, elim_some, elim_some]
    constructor
    · rw [apply_ite Ends.readers, ite_self]
    · rw [apply_ite Ends.writers, ite_self]
  rw [counted.1, counted.2]
  cases mode <;> simp at room ⊢ <;> omega

theorem Mode.reads_or_writes (notPath : mode ≠ .path)
    : mode.reads.toNat + mode.writes.toNat ≠ 0 := by
  cases mode <;> simp_all

theorem countP_snoc (files : List Description) (p : Description → Bool) (file : Description)
    : (files ++ [file]).countP p = files.countP p + (p file).toNat := by
  cases same : p file <;> simp [countP_append, same]

-- Opening

/-- An open that gets its descriptor counts one description more. -/
theorem Inv.opened (inv : Inv s) (opened : openPipe s.pipe mode memory = .ok pipe)
    : Inv ⟨pipe, s.inodeInstances + 1, s.files ++ [⟨mode, 1⟩]⟩ := by
  obtain ⟨readers, writers, small⟩ := openPipe_ok opened
  refine ⟨?_, ?_, ?_, fun none => absurd none (succ_ne_zero _), ?_, small inv.small⟩
  · rw [countP_snoc, ← inv.readers]
    exact readers
  · rw [countP_snoc, ← inv.writers]
    exact writers
  · rw [length_append]
    exact Nat.add_le_add_right inv.references 1
  · intro file mem
    rcases mem_append.mp mem with old | new
    · exact inv.live file old
    · exact mem_singleton.mp new ▸ Nat.one_ne_zero

theorem Inv.openat (inv : Inv s) (isSafe : Safe s (.openat mode memory getsFd))
    : Inv (sysOpenat s mode memory getsFd) := by
  unfold sysOpenat registerInode
  by_cases registered : s.inodeInstances = 0
  · have noPipe := inv.unregistered registered
    have noFiles : s.files = [] :=
      eq_nil_of_length_eq_zero (by have := inv.references; omega)
    simp only [registered, ne_eq, not_true_eq_false, if_false, Safe, if_true] at isSafe ⊢
    cases getsFd with
    | false =>
      -- the pipe goes away with the only reference to its inode
      cases openPipe none mode memory <;> simpa [closeInode, noFiles] using inv_unopened
    | true =>
      cases result : openPipe none mode memory with
      | ok e =>
        have opened := inv.opened (noPipe ▸ result)
        simpa [registered] using opened
      | error err =>
        by_cases isPath : mode = .path
        · simp [openPipe, isPath] at result
        · simp [openPipe, isPath, isSafe isPath rfl, sizeMax] at result
  · simp only [ne_eq, registered, not_false_eq_true, if_true, Safe, if_false] at isSafe ⊢
    cases result : openPipe s.pipe mode memory with
    | error err => exact inv
    | ok pipe =>
      cases getsFd with
      | true => exact inv.opened result
      | false =>
        by_cases isPath : mode = .path
        · obtain rfl : s.pipe = pipe := by simpa [openPipe, isPath] using result
          simpa [closeInode, registered] using inv
        · exact absurd result ((isSafe isPath).resolve_left (by decide) pipe)

/-- An open that fails after the lookup leaves its count behind while the pipe lives on. -/
theorem Inv.openat_broken (inv : Inv s) (isUnsafe : ¬ Safe s (.openat mode memory getsFd))
    : ¬ CountsOk (sysOpenat s mode memory getsFd) := by
  intro counts
  by_cases registered : s.inodeInstances = 0
  · simp only [Safe, registered, if_true, Classical.not_imp, Bool.not_eq_true] at isUnsafe
    obtain ⟨notPath, rfl, rfl⟩ := isUnsafe
    have noFiles : s.files = [] :=
      eq_nil_of_length_eq_zero (by have := inv.references; omega)
    have readers := counts.readers
    have writers := counts.writers
    simp only [sysOpenat, registerInode, registered, ne_eq, not_true_eq_false, if_false, openPipe,
      notPath, and_self, if_true, noFiles, State.readers, State.writers, elim_none]
      at readers writers
    cases mode <;> simp at notPath readers writers
  · simp only [Safe, registered, if_false, not_or, Bool.not_eq_true, not_forall, not_not]
      at isUnsafe
    obtain ⟨notPath, rfl, pipe, opened⟩ := isUnsafe
    obtain ⟨moreReaders, moreWriters, -⟩ := openPipe_ok opened
    have readers := counts.readers
    have writers := counts.writers
    simp only [sysOpenat, registerInode, registered, ne_eq, not_false_eq_true, if_true, opened,
      Bool.false_eq_true, if_false, closeInode, Nat.add_sub_cancel, State.readers, State.writers]
      at readers writers
    have some := Mode.reads_or_writes notPath
    have oldReaders := inv.readers
    have oldWriters := inv.writers
    omega

-- Closing

/-- The description at an index, with the files before and after it. -/
theorem split_at (files : List Description) (found : files[i]? = some file)
    : ∃ front back, files = front ++ file :: back ∧ front.length = i := by
  obtain ⟨within, here⟩ := List.getElem?_eq_some_iff.mp found
  refine ⟨files.take i, files.drop (i + 1), ?_, length_take_of_le within.le⟩
  rw [← here, cons_getElem_drop_succ, take_append_drop]

theorem subOne_eq (positive : 0 < n) (small : n ≤ sizeMax) : subOne n = n - 1 := by
  unfold subOne sizeMax at *
  omega

/-- Changing the number of descriptors of a description changes no count. -/
theorem Inv.setInstances (inv : Inv s) (found : s.files[i]? = some file) {instances}
    (some : instances ≠ 0)
    : Inv { s with files := s.files.set i { file with instances } } := by
  obtain ⟨front, back, files, rfl⟩ := split_at s.files found
  refine ⟨inv.readers.trans ?_, inv.writers.trans ?_, ?_, inv.unregistered, ?_, inv.small⟩
  · simp [files, countP_cons]
  · simp [files, countP_cons]
  · simpa using inv.references
  · intro other mem
    rcases mem_or_eq_of_mem_set mem with old | rfl
    · exact inv.live other old
    · exact some

theorem Inv.closeInode (inv : Inv s) (spare : s.files.length < s.inodeInstances)
    : Inv (closeInode s) := by
  unfold PipeEnds.closeInode
  split
  next last =>
    have noFiles : s.files = [] := eq_nil_of_length_eq_zero (by omega)
    simpa [noFiles] using inv_unopened
  next =>
    exact { inv with
      references := (by omega : s.files.length ≤ s.inodeInstances - 1)
      unregistered := fun none => absurd none (by assumption) }

/-- The counts that the files other than the one at an index account for. -/
theorem Inv.others (inv : Inv s) (pipe : s.pipe = some e) (files : s.files = front ++ file :: back)
    : e.readers = (front ++ back).countP (·.mode.reads) + file.mode.reads.toNat
        ∧ e.writers = (front ++ back).countP (·.mode.writes) + file.mode.writes.toNat := by
  have readers := inv.readers
  have writers := inv.writers
  cases same : file.mode <;> simp [State.readers, pipe, files, same] at readers writers ⊢ <;> omega

/-- Closing a description that reads or writes, but not both, takes off what it counts. -/
theorem Ends.closed_eq (e : Ends) (single : ¬ (mode = .readWrite ∨ mode = .path))
    (readers : mode.reads.toNat ≤ e.readers) (writers : mode.writes.toNat ≤ e.writers)
    (small : e.readers ≤ sizeMax ∧ e.writers ≤ sizeMax)
    : (e.closed mode).readers = e.readers - mode.reads.toNat
        ∧ (e.closed mode).writers = e.writers - mode.writes.toNat := by
  cases mode with
  | readWrite => exact absurd (.inl rfl) single
  | path => exact absurd (.inr rfl) single
  | read => exact ⟨subOne_eq readers small.1, rfl⟩
  | write => exact ⟨rfl, subOne_eq writers small.2⟩

/-- What closing the last descriptor of a description comes to: the files without it, and, if
the inode is referenced elsewhere, the pipe with the count taken off.
-/
theorem closeFileForced_last
    (files : s.files = front ++ file :: back) (last : file.instances - 1 = 0)
    (done : closeFileForced s front.length = some s')
    : ∃ e, s.pipe = some e
        ∧ s' = closeInode ⟨some (e.closed file.mode), s.inodeInstances, front ++ back⟩ := by
  have found : s.files[front.length]? = some file := by simp [files]
  simp only [closeFileForced, found, bind_some, last, ne_eq, not_true_eq_false, if_false] at done
  obtain ⟨e, pipe, rfl⟩ := map_eq_some_iff.mp done
  have erased : s.files.eraseIdx front.length = front ++ back := by
    rw [files, eraseIdx_append_of_length_le (le_refl _), Nat.sub_self, eraseIdx_cons_zero]
  exact ⟨e, pipe, by rw [erased]⟩

theorem Inv.close (inv : Inv s) (done : closeFileForced s i = some s') (isSafe : Safe s (.close i))
    : Inv s' := by
  obtain ⟨file, found, closed⟩ := bind_eq_some_iff.mp done
  split at closed
  · cases closed
    exact inv.setInstances found (by assumption)
  next last =>
  obtain ⟨front, back, files, rfl⟩ := split_at s.files found
  obtain ⟨e, pipe, rfl⟩ := closeFileForced_last files (not_not.mp last) done
  have references := inv.references
  rw [files, length_append, length_cons] at references
  by_cases alone : s.inodeInstances = 1
  · have noFiles : front ++ back = [] :=
      eq_nil_of_length_eq_zero (by rw [length_append]; omega)
    simpa [PipeEnds.closeInode, alone, noFiles] using inv_unopened
  obtain ⟨readers, writers⟩ := inv.others pipe files
  have small : e.readers ≤ sizeMax ∧ e.writers ≤ sizeMax := by
    simpa [State.readers, pipe] using inv.small
  have one : file.instances = 1 := by
    have some := inv.live file (by simp [files])
    omega
  have single := mt (isSafe file found one) alone
  obtain ⟨lessReaders, lessWriters⟩ := e.closed_eq single (by omega) (by omega) small
  refine Inv.closeInode ⟨?_, ?_, ?_, ?_, ?_, ?_⟩ ?_
  · show (e.closed file.mode).readers = (front ++ back).countP (·.mode.reads)
    omega
  · show (e.closed file.mode).writers = (front ++ back).countP (·.mode.writes)
    omega
  · simp only [length_append]
    omega
  · intro unregistered
    simp only at unregistered
    omega
  · intro other mem
    exact inv.live other (files ▸ ((sublist_cons_self file back).append_left front).subset mem)
  · simp only [State.readers, State.writers, elim_some, lessReaders, lessWriters]
    omega
  · simp only [length_append]
    omega

/-- Closing a description that reads and writes takes off its reader only, and closing a path handle
takes off a writer that it is not; while the pipe lives on, the writers are miscounted.
-/
theorem Inv.close_broken (inv : Inv s) (done : closeFileForced s i = some s')
    (isUnsafe : ¬ Safe s (.close i))
    : ¬ CountsOk s' := by
  intro counts
  simp only [Safe, not_forall] at isUnsafe
  obtain ⟨file, found, one, both, shared⟩ := isUnsafe
  obtain ⟨front, back, files, rfl⟩ := split_at s.files found
  obtain ⟨e, pipe, rfl⟩ := closeFileForced_last files (by omega) done
  have references := inv.references
  rw [files, length_append, length_cons] at references
  have more : ¬ s.inodeInstances - 1 = 0 := by omega
  obtain ⟨-, writers⟩ := inv.others pipe files
  have counted : (e.closed file.mode).writers = (front ++ back).countP (·.mode.writes) := by
    have stays := counts.writers
    simpa only [PipeEnds.closeInode, more, if_false, State.writers, elim_some] using stays
  rcases both with readWrite | path
  · simp [readWrite, Ends.closed] at counted writers
    omega
  · simp [path, Ends.closed, subOne, sizeMax] at counted writers
    omega

-- Sequences of calls

theorem inv_sysPipe : Inv (sysPipe true true) :=
  ⟨rfl, rfl, by decide, by decide, by decide, by decide⟩

theorem Inv.step (inv : Inv s) (done : step s action = some s') (isSafe : Safe s action)
    : Inv s' := by
  cases action with
  | openat mode memory getsFd =>
    cases done
    exact inv.openat isSafe
  | pipe first second =>
    obtain ⟨rfl, rfl⟩ := isSafe
    obtain ⟨-, rfl⟩ := guarded done
    exact inv_sysPipe
  | dup i =>
    obtain ⟨file, found, rfl⟩ := map_eq_some_iff.mp done
    exact inv.setInstances found (succ_ne_zero _)
  | close i => exact inv.close done isSafe
  | reference =>
    cases done
    exact { inv with
      references := le_succ_of_le inv.references
      unregistered := fun none => absurd none (succ_ne_zero _) }
  | unreference =>
    obtain ⟨spare, rfl⟩ := guarded done
    exact inv.closeInode spare

theorem Inv.step_broken (inv : Inv s) (done : PipeEnds.step s action = some s')
    (isUnsafe : ¬ Safe s action)
    : ¬ CountsOk s' := by
  cases action with
  | openat mode memory getsFd =>
    cases done
    exact inv.openat_broken isUnsafe
  | pipe first second =>
    obtain ⟨-, rfl⟩ := guarded done
    intro counts
    have readers := counts.readers
    have writers := counts.writers
    cases first <;> cases second <;> simp_all [Safe, sysPipe, State.readers]
  | close i => exact inv.close_broken done isUnsafe
  | dup i | reference | unreference => exact absurd trivial isUnsafe

/-- Over every sequence of opens, duplications and closes the counts are those of the open
descriptions, and end of file is seen exactly without a writer, if and only if no read-write
description or path handle is closed and no open fails behind the lookup while the pipe is in use.
-/
theorem counts_ok_iff {calls : List Action} {states : List State}
    (run : trace step unopened calls = some states)
    : (∀ state ∈ states, CountsOk state) ↔ AllSafe step Safe unopened calls :=
  trace_forall_iff Inv CountsOk Inv.countsOk (fun inv => inv.step) (fun inv => inv.step_broken)
    inv_unopened run

/-- A reader and a writer come and go. -/
def readerAndWriter : List Action :=
  [.openat .read true true, .openat .write true true, .dup 1, .close 1, .close 1, .close 0]

theorem readerAndWriter_safe : AllSafe step Safe unopened readerAndWriter := by
  simp [readerAndWriter, AllSafe, step, Safe, sysOpenat, registerInode, openPipe, sizeMax, dupFile,
    closeFileForced, closeInode]

theorem counts_ok_reader_and_writer
    : ∃ states, trace step unopened readerAndWriter = some states
        ∧ ∀ state ∈ states, CountsOk state := by
  exact exists_of_isSome rfl fun _ run => (counts_ok_iff run).mpr readerAndWriter_safe

/-- A description that reads and writes is opened beside a reader and closed again: the writer
it counted stays, and the reader never sees end of file.
-/
theorem readWrite_close_keeps_writer
    : ∃ states, trace step unopened
          [.openat .read true true, .openat .readWrite true true, .close 1] = some states
        ∧ ∃ state ∈ states, ¬ CountsOk state := by
  refine ⟨_, rfl, ⟨some ⟨1, 1, false⟩, 1, [⟨.read, 1⟩]⟩, by decide, fun counts => ?_⟩
  exact absurd counts.writers (by decide)

end UnstableOS.Fs.PipeEnds
