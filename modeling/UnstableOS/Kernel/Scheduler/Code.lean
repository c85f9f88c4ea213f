import UnstableOS.Kernel.DoubleLinkedList

/-! The scheduler (`kernel_sched.c`) and the steps that put processes on its lists and take them
off: `sys_fork`, the reaper and `sys_waitpid`.
Process and thread structures are named by their addresses. The processes are linked by the macros
of `kernel.h`; the threads of a process are a list, first one first. What the rest of the kernel
does to the scheduler, by signals or otherwise, is given as a list of effects.
-/

namespace UnstableOS.Kernel.Scheduler

open Lib

-- Processes and threads

/-- `enum pstatus_t`. -/
inductive Status where
  | running
  | runnable
  | interrSleep
  | uninterrSleep
  | waiting
  | threadCleanup
  | v86ThreadCleanup
  | dontSchedule
deriving DecidableEq

/-- The fields of a thread that the scheduler reads. The control block of the thread, in user
memory, may ask for its cancellation at once, or may ask for it to be woken from a sleep.
-/
structure Thread where
  status : Status
  inCriticalSection : Bool
  cancelAsync : Bool
  cancelWakes : Bool
deriving DecidableEq

/-- The fields of a process that the scheduler reads. `ignoresChildren` says that the handler of
`SIGCHLD` is `SIG_IGN` or has `SA_NOCLDWAIT`.
-/
structure Process where
  parent : ℕ
  threads : List ℕ
  isStopped : Bool
  doCleanup : ℕ
  nozombie : Bool
  ignoresChildren : Bool
deriving DecidableEq

/-- The variables of the scheduler, all structures, and the process structures that are not yet
freed.
-/
structure State where
  links : Links
  processList : ℕ
  zombieList : ℕ
  allocated : List ℕ
  proc : ℕ → Process
  thread : ℕ → Thread
  currentProcess : ℕ
  currentThread : ℕ
  kernelTask : ℕ
  initTask : ℕ
  idleTask : ℕ
  processReaper : ℕ
  toReap : ℕ
  schedulerLock : Bool

namespace State

variable (s : State)

def setProc (process : ℕ) (p : Process) : State :=
  { s with proc := Function.update s.proc process p }

def setThread (thread : ℕ) (t : Thread) : State :=
  { s with thread := Function.update s.thread thread t }

def setStatus (thread : ℕ) (status : Status) : State :=
  s.setThread thread { s.thread thread with status := status }

def kfree (process : ℕ) : State :=
  { s with allocated := s.allocated.erase process }

/-- The processes on a list, as a loop over it meets them. No list is longer than the number of
structures there are.
-/
def listed (list : ℕ) : List ℕ := follow 0 s.links.next s.allocated.length list

def unlinkProcess (process : ℕ) : State :=
  let unlinked := unlinkDoubleLinkedList s.links process s.processList
  { s with links := unlinked.1, processList := unlinked.2 }

def appendProcess (process : ℕ) : State :=
  let appended := appendDoubleLinkedList s.links process s.processList
  { s with links := appended.1, processList := appended.2 }

def unlinkZombie (process : ℕ) : State :=
  let unlinked := unlinkDoubleLinkedList s.links process s.zombieList
  { s with links := unlinked.1, zombieList := unlinked.2 }

def appendZombie (process : ℕ) : State :=
  let appended := appendDoubleLinkedList s.links process s.zombieList
  { s with links := appended.1, zombieList := appended.2 }

/-- `push_process_to_end`. -/
def pushProcessToEnd (process : ℕ) : State :=
  if s.links.next process = 0 then s else (s.unlinkProcess process).appendProcess process

/-- `push_thread_to_end`. -/
def pushThreadToEnd (process thread : ℕ) : State :=
  s.setProc process { s.proc process with threads := toEnd (s.proc process).threads thread }

end State

-- What the rest of the kernel does

inductive Effect where
  | status (thread : ℕ) (status : Status)
  | critical (thread : ℕ) (inside : Bool)
  | cancel (thread : ℕ) (async wakes : Bool)
  | stopped (process : ℕ) (isStopped : Bool)
  | cleanup (process : ℕ)
  | sigchld (process : ℕ) (ignored : Bool)
  | lock (taken : Bool)
deriving DecidableEq

namespace State

/-- A thread sleeps or wakes, a process is stopped, goes on, or is to be cleaned up because it
exits or is killed, and so on.
-/
def apply (s : State) : Effect → State
  | .status thread status => s.setStatus thread status
  | .critical thread inside =>
    s.setThread thread { s.thread thread with inCriticalSection := inside }
  | .cancel thread async wakes =>
    s.setThread thread { s.thread thread with cancelAsync := async, cancelWakes := wakes }
  | .stopped process isStopped =>
    s.setProc process { s.proc process with isStopped := isStopped }
  | .cleanup process => s.setProc process { s.proc process with doCleanup := 1 }
  | .sigchld process ignored =>
    s.setProc process { s.proc process with ignoresChildren := ignored }
  | .lock taken => { s with schedulerLock := taken }

def deliver (s : State) (signals : List Effect) : State := signals.foldl apply s

end State

-- schedule()

/-- How the loops of `schedule` go on: the kernel panics, `goto scheduler_start`, a thread was
switched to, or the next item.
-/
inductive Visit where
  | panics
  | again (s : State)
  | switches (s : State)
  | goesOn (s : State)

namespace State

variable (s : State)

/-- `kernel_destroy_thread`, once it is known that the thread can be destroyed. -/
def destroyThread (process thread : ℕ) : State :=
  s.setProc process { s.proc process with threads := (s.proc process).threads.erase thread }

/-- The children of a process become those of `/init`. -/
def reparent (process : ℕ) : State :=
  { s with
    proc := fun child =>
      if child ∈ s.listed s.processList ∧ (s.proc child).parent = process then
        { s.proc child with parent := s.initTask }
      else s.proc child }

/-- The first thread of the parent that waits for a child is woken. -/
def wakeParent (parent : ℕ) : State :=
  match (s.proc parent).threads.find? fun thread => (s.thread thread).status = .waiting with
  | some thread => s.setStatus thread .runnable
  | none => s

/-- Case 3 of the cleanup: the reaper is done with the process. -/
def bury (process : ℕ) : Visit :=
  let s := s.unlinkProcess process
  let parent := (s.proc process).parent
  if s.initTask = 0 ∨ parent = 0 then .panics
  else
    let s := (s.reparent process).wakeParent parent
    if (s.proc process).nozombie then .again (s.kfree process)
    else .again (s.appendZombie process)

/-- Cases 1 and 2: the reaper is woken, and gets the process if it has no other. -/
def handOver (process : ℕ) : State :=
  let s :=
    if (s.proc process).doCleanup = 1 ∧ s.toReap = 0 then
      { s.setProc process { s.proc process with doCleanup := 2 } with toReap := process }
    else s
  s.setStatus s.processReaper .runnable

/-- The cleanup of a process; `goesOn` leads to `partial_cleanup`. -/
def cleanupProcess (process : ℕ) : Visit :=
  if process = s.kernelTask ∨ process = s.initTask then .panics
  else if (s.proc process).doCleanup = 3 then s.bury process
  else .goesOn (s.handOver process)

/-- A thread that has ended is destroyed. With the last one the process ends as well, and its parent
gets a signal.
-/
def cleanupThread (signals : List Effect) (process thread : ℕ) : Visit :=
  if thread = s.currentThread then .goesOn s
  else if (s.thread thread).inCriticalSection then .panics
  else
    let s := s.destroyThread process thread
    if (s.proc process).threads = [] then (s.deliver signals).cleanupProcess process
    else .again s

/-- A thread that can run is switched to, unless it is found to be cancelled. -/
def switchTo (process thread : ℕ) : Visit :=
  let s := s.setStatus thread .running
  let s := (s.pushProcessToEnd process).pushThreadToEnd process thread
  if (s.thread thread).cancelAsync then .again (s.setStatus thread .threadCleanup)
  else .switches { s with currentProcess := process, currentThread := thread }

/-- The threads of a process that is cleaned up do not wait any longer. -/
def wakeDying (process thread : ℕ) : State :=
  if (s.proc process).doCleanup ≠ 0 then s.setStatus thread .runnable else s

def checkThread (signals : List Effect) (process thread : ℕ) : Visit :=
  if thread = s.idleTask then .goesOn s
  else
    match (s.thread thread).status with
    | .running | .uninterrSleep | .dontSchedule => .goesOn s
    | .runnable =>
      if (s.proc process).isStopped ∧ ¬ (s.thread thread).inCriticalSection then .goesOn s
      else s.switchTo process thread
    | .interrSleep =>
      let s := if (s.thread thread).cancelWakes then s.setStatus thread .runnable else s
      .goesOn (s.wakeDying process thread)
    | .waiting => .goesOn (s.wakeDying process thread)
    | .v86ThreadCleanup =>
      (s.setStatus thread .threadCleanup).cleanupThread signals process thread
    | .threadCleanup => s.cleanupThread signals process thread

/-- The loop over the threads of a process. -/
def checkThreads (s : State) (signals : List Effect) (process : ℕ) : List ℕ → Visit
  | [] => .goesOn s
  | thread :: rest =>
    match s.checkThread signals process thread with
    | .goesOn s' => s'.checkThreads signals process rest
    | visit => visit

/-- The body of the loop over the processes. The signals are those that are delivered while it
runs.
-/
def checkProcess (signals : List Effect) (process : ℕ) : Visit :=
  if (s.proc process).doCleanup ≠ 0 ∨ (s.proc process).threads = [] then
    match s.cleanupProcess process with
    | .goesOn s' => s'.checkThreads signals process (s'.proc process).threads
    | visit => visit
  else
    let s := s.deliver signals
    s.checkThreads signals process (s.proc process).threads

/-- The loop over the processes, from one of them on. -/
def scan (signals : ℕ → List Effect) : ℕ → State → ℕ → Option State
  | 0, _, _ => none
  | fuel + 1, s, checked =>
    if checked = 0 then
      some { s with currentProcess := s.kernelTask, currentThread := s.idleTask }
    else
      match s.checkProcess (signals fuel) checked with
      | .panics => none
      | .again s' => scan signals fuel s' s'.processList
      | .switches s' => some s'
      | .goesOn s' => scan signals fuel s' (s'.links.next checked)

/-- What becomes of the thread that has run. -/
def putBack : State :=
  let s := if s.currentProcess ≠ 0 then s.pushProcessToEnd s.currentProcess else s
  if s.currentProcess ≠ 0 ∧ s.currentThread ≠ 0 ∧ (s.thread s.currentThread).status = .running then
    (s.setStatus s.currentThread .runnable).pushThreadToEnd s.currentProcess s.currentThread
  else s

/-- `schedule`, with bounded loops; there is no result when the kernel panics or the bound is not
enough.
-/
def schedule (fuel : ℕ) (signals : ℕ → List Effect) : Option State :=
  if s.schedulerLock ∨ s.processList = 0 then some s
  else
    let s := s.putBack
    scan signals fuel s s.processList

-- Creating, reaping and collecting processes

/-- `sys_fork`, with the addresses of the new structures. -/
def fork (process thread : ℕ) : State :=
  let s := s.setProc process
    { s.proc s.currentProcess with parent := s.currentProcess, threads := [thread] }
  let s := s.setThread thread
    { s.thread s.currentThread with inCriticalSection := false, status := .runnable }
  { s with allocated := process :: s.allocated }.appendProcess process

/-- `kernel_create_thread` for the current process. -/
def createThread (thread : ℕ) : State :=
  let p := s.proc s.currentProcess
  let s := s.setProc s.currentProcess { p with threads := p.threads ++ [thread] }
  s.setThread thread ⟨.runnable, false, false, false⟩

/-- The loop of the reaper over the zombies nobody will wait for, from one of them on. -/
def collectZombies (process : ℕ) : ℕ → State → ℕ → State
  | 0, s, _ => s
  | fuel + 1, s, checked =>
    if checked = 0 then s
    else
      let next := s.links.next checked
      if (s.proc checked).parent = process then
        collectZombies process fuel ((s.unlinkZombie checked).kfree checked) next
      else collectZombies process fuel s next

/-- The last part of `scheduler_remove_process`: a process nobody will wait for is unlinked, but
from the list of zombies.
-/
def removeProcess (process : ℕ) : State :=
  let p := s.proc process
  let nozombie := p.nozombie || (s.proc p.parent).ignoresChildren
  let s := s.setProc process { p with nozombie := nozombie }
  let s := if nozombie then s.unlinkZombie process else s
  collectZombies process s.allocated.length s s.zombieList

/-- The reaper has destroyed all threads of the process and goes on. -/
def reap : State :=
  let process := s.toReap
  let s := s.removeProcess process
  { s.setProc process { s.proc process with doCleanup := 3 } with toReap := 0 }

/-- `sys_waitpid` and `sys_waitid` take a child off the list of zombies; `wanted` is what they
compare the `pid` or group of the child with.
-/
def waitpid (wanted : ℕ → Bool) : State :=
  let found := (s.listed s.zombieList).find? fun child =>
    (s.proc child).parent = s.currentProcess && wanted child
  match found with
  | some child => (s.unlinkZombie child).kfree child
  | none => s

end State

inductive Call where
  | schedule (fuel : ℕ) (signals : ℕ → List Effect)
  | effect (effect : Effect)
  | fork (process thread : ℕ)
  | createThread (thread : ℕ)
  | destroyThread
  | reap
  | waitpid (wanted : ℕ → Bool)

/-- The reaper has the processor and a process to clean up. -/
def State.Reaping (s : State) : Prop :=
  s.currentProcess = s.kernelTask ∧ s.currentThread = s.processReaper ∧ s.toReap ≠ 0

instance (s : State) : Decidable s.Reaping :=
  inferInstanceAs (Decidable (_ ∧ _ ∧ _))

/-- A thread that the reaper can destroy. -/
def State.Destroyable (s : State) (thread : ℕ) : Prop :=
  (s.thread thread).inCriticalSection = false ∧ (s.thread thread).status ≠ .uninterrSleep
    ∧ thread ≠ s.currentThread

instance (s : State) (thread : ℕ) : Decidable (s.Destroyable thread) :=
  inferInstanceAs (Decidable (_ ∧ _ ∧ _))

/-- No structure in use has the address of a new one. -/
def State.FreshThread (s : State) (thread : ℕ) : Prop :=
  thread ≠ 0 ∧ thread ≠ s.idleTask ∧ ∀ process ∈ s.allocated, thread ∉ (s.proc process).threads

instance (s : State) (thread : ℕ) : Decidable (s.FreshThread thread) :=
  inferInstanceAs (Decidable (_ ∧ _ ∧ _))

/-- A step of the system. The kernel task does not fork. -/
def State.step (s : State) : Call → Option State
  | .schedule fuel signals => s.schedule fuel signals
  | .effect effect => some (s.apply effect)
  | .fork process thread =>
    if process ≠ 0 ∧ process ∉ s.allocated ∧ s.FreshThread thread
        ∧ s.currentProcess ≠ s.kernelTask then
      some (s.fork process thread)
    else none
  | .createThread thread => if s.FreshThread thread then some (s.createThread thread) else none
  | .destroyThread =>
    match (s.proc s.toReap).threads with
    | thread :: _ =>
      if s.Reaping ∧ s.Destroyable thread then some (s.destroyThread s.toReap thread)
      else none
    | [] => none
  | .reap => if s.Reaping ∧ (s.proc s.toReap).threads = [] then some s.reap else none
  | .waitpid wanted => some (s.waitpid wanted)

end UnstableOS.Kernel.Scheduler
