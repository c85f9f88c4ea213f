import Mathlib.Data.List.Nodup
import Mathlib.Data.Int.Notation
import UnstableOS.Lib.Trace

/-! `sys_waitpid` and `sys_waitid` (`kernel_wait.c`) with the children of one process: their exits,
stops and continues, and their way from the process list over the reaper to the zombie list
(`kernel_sched.c`, `kernel_signals.c`).
Children are named by their structures. Each search of a waiting process is one step; what happens
while it sleeps, and in `reschedule`, are steps of their own.
-/

namespace UnstableOS.Kernel.Wait

open Lib Function List Nat

-- Children

/-- `si_code` and `si_status` of a `siginfo_t` about a child. -/
inductive Info where
  | unset
  | exited (status : ℕ)
  | killed (signal : ℕ)
  | stopped (signal : ℕ)
  | continued (signal : ℕ)
deriving DecidableEq

structure Child where
  pid : ℤ
  pgrp : ℤ
  pendingWaiting : Bool := false
  doCleanup : ℕ := 0
  isStopped : Bool := false
  nozombie : Bool := false
  postmortemWstatus : ℕ := 0
  pendingSigchldInfo : Info := .unset
deriving DecidableEq

/-- What is written to `wstatus`. -/
def Child.wstatus (child : Child) : ℕ :=
  if child.doCleanup ≠ 0 then child.postmortemWstatus
  else if child.isStopped then 0x400
  else 0x800

/-- The bits of `options` by their names in `sys/wait.h`. -/
structure Options where
  wcontinued : Bool := false
  wuntraced : Bool := false
  wnohang : Bool := false
  wexited : Bool := false
  wnowait : Bool := false
  wstopped : Bool := false
deriving DecidableEq

inductive Idtype where
  | pid
  | pgid
  | all
  | other
deriving DecidableEq

inductive Call where
  | waitpid (pid : ℤ) (options : Options)
  | waitid (idtype : Idtype) (id : ℤ) (options : Options)
deriving DecidableEq

/-- What a call hands out about a child: `*wstatus` or `*infop`. -/
inductive Report where
  | status (wstatus : ℕ)
  | info (info : Info)
deriving DecidableEq

/-- How a search ends. With `sleeps` the call goes to sleep and searches again later. -/
inductive Outcome where
  | reported (child : ℕ) (report : Report)
  | signalled (pid : ℤ) (report : Report)
  | echild
  | einval
  | eintr
  | zero
  | sleeps
deriving DecidableEq

/-- A search as it is made, with two facts about the state at that time: whether there was a
matching child whose end had not been reported, and whether there was a matching zombie.
-/
structure Answer where
  call : Call
  outcome : Outcome
  remains : Bool
  ended : Bool

/-- The process and its children; `child` has the structures at their addresses. At the end stands
what happened: how often the end of each child has been reported, and all answers.
-/
structure State where
  pid : ℤ
  pgrp : ℤ
  ignoresChildren : Bool
  processList : List ℕ
  zombieList : List ℕ
  child : ℕ → Child
  toReap : Option ℕ
  created : ℕ
  reported : ℕ → ℕ
  answers : List Answer
  interrupts : List (Call × Outcome)

open State

namespace State

variable (s : State)

def setChild (c : ℕ) (p : Child) : State :=
  { s with child := update s.child c p }

theorem setChild_child (c : ℕ) (p : Child) : (s.setChild c p).child c = p :=
  update_self ..

-- `sys_waitpid`

/-- The conditions of `find_in_list` and `find_unwaited_task` on a child. -/
def selects (pid : ℤ) (c : ℕ) : Bool :=
  (pid < -1 && (s.child c).pgrp = -pid) || pid = -1 || (pid = 0 && (s.child c).pgrp = s.pgrp)
    || (pid > 0 && (s.child c).pid = pid)

def findInList (pid : ℤ) (list : List ℕ) : Option ℕ := list.find? (s.selects pid)

def findUnwaitedTask (pid : ℤ) : Option ℕ :=
  s.processList.find? fun c => (s.child c).pendingWaiting && s.selects pid c

/-- `child->pending_waiting = 0`. -/
def setWaited (c : ℕ) : State :=
  s.setChild c { s.child c with pendingWaiting := false }

/-- A zombie is unlinked and freed. -/
def free (c : ℕ) : State := { s with zombieList := s.zombieList.erase c }

/-- A search of `sys_waitpid`. -/
def sysWaitpid (pid : ℤ) (options : Options) : Outcome × State :=
  if pid = s.pid then (.echild, s)
  else
    match s.findInList pid s.zombieList with
    | some c => (.reported c (.status (s.child c).wstatus), (s.setWaited c).free c)
    | none =>
      match s.findUnwaitedTask pid with
      | some c => (.reported c (.status (s.child c).wstatus), s.setWaited c)
      | none =>
        if s.findInList pid s.processList = none then (.echild, s)
        else if options.wnohang then (.zero, s)
        else (.sleeps, s)

-- `sys_waitid`

/-- The conditions of `waitid_get_child` and `waitid_remaining_child` on the id of a child. -/
def selectsId (idtype : Idtype) (id : ℤ) (c : ℕ) : Bool :=
  match idtype with
  | .pid => (s.child c).pid = id
  | .all => true
  | .pgid => (s.child c).pgrp = id
  | .other => false

/-- The conditions of `waitid_get_child` on a child in the process list. -/
def takes (options : Options) (c : ℕ) : Bool :=
  (s.child c).pendingWaiting && !((s.child c).doCleanup ≠ 0 && !options.wexited)
    && !((s.child c).isStopped && !options.wstopped)

/-- `waitid_get_child`, with whether the child is in the process list. -/
def waitidGetChild (idtype : Idtype) (id : ℤ) (options : Options)
    : Option (ℕ × Bool) :=
  match if options.wexited then s.zombieList.find? (s.selectsId idtype id) else none with
  | some c => some (c, false)
  | none =>
    (s.processList.find? fun c => s.takes options c && s.selectsId idtype id c).map (·, true)

def waitidRemainingChild (idtype : Idtype) (id : ℤ) : Option ℕ :=
  s.processList.find? (s.selectsId idtype id)

/-- A search of `sys_waitid`. -/
def sysWaitid (idtype : Idtype) (id : ℤ) (options : Options) : Outcome × State :=
  if idtype = .other then (.einval, s)
  else if !options.wcontinued && !options.wexited && !options.wstopped then (.einval, s)
  else
    match s.waitidGetChild idtype id options with
    | some (c, inProcessList) =>
      (.reported c (.info (s.child c).pendingSigchldInfo),
        if options.wnowait then s
        else if inProcessList then s.setWaited c
        else (s.setWaited c).free c)
    | none =>
      if s.waitidRemainingChild idtype id = none then (.echild, s)
      else if options.wnohang then (.zero, s)
      else (.sleeps, s)

def search : Call → Outcome × State
  | .waitpid pid options => s.sysWaitpid pid options
  | .waitid idtype id options => s.sysWaitid idtype id options

end State

def Call.asksStopped : Call → Bool
  | .waitpid _ options => options.wuntraced
  | .waitid _ _ options => options.wstopped

def Call.asksContinued : Call → Bool
  | .waitpid _ options => options.wcontinued
  | .waitid _ _ options => options.wcontinued

def Call.nowait : Call → Bool
  | .waitpid _ _ => false
  | .waitid _ _ options => options.wnowait

/-- What is handed out about a child that a signal tells of. -/
def Call.report (call : Call) (info : Info) (wstatus : ℕ) : Report :=
  match call with
  | .waitpid _ _ => .status wstatus
  | .waitid _ _ _ => .info info

/-- The signal that wakes a waiting thread: `SIGCHLD` from the kernel with the pid of a child, or
any other.
-/
inductive Signal where
  | child (pid : ℤ) (info : Info)
  | other

namespace State

/-- The child that a signal tells of is not waited for any more. -/
def clearPending (s : State) (call : Call) (pid : ℤ) : State :=
  if call.nowait then s
  else
    match s.findInList pid s.processList with
    | some c => s.setWaited c
    | none => s

/-- A sleeping call is woken by a signal (`check_eintr`). -/
def interrupted (s : State) (call : Call) : Signal → Outcome × State
  | .other => (.eintr, s)
  | .child pid (.stopped signal) =>
    if !call.asksStopped then (.eintr, s)
    else (.signalled pid (call.report (.stopped signal) 0x400), s.clearPending call pid)
  | .child pid (.continued signal) =>
    if !call.asksContinued then (.eintr, s)
    else (.signalled pid (call.report (.continued signal) 0x800), s.clearPending call pid)
  | .child _ _ => (.sleeps, s)

end State

-- Runs

/-- What a report says about a child. -/
inductive Kind where
  | terminated
  | stopped
  | continued
deriving DecidableEq

def Info.kind : Info → Option Kind
  | .unset => none
  | .exited _ => some .terminated
  | .killed _ => some .terminated
  | .stopped _ => some .stopped
  | .continued _ => some .continued

def Report.kind : Report → Option Kind
  | .status wstatus =>
    if wstatus = 0x400 then some .stopped
    else if wstatus = 0x800 then some .continued
    else some .terminated
  | .info about => about.kind

def Outcome.kind : Outcome → Option Kind
  | .reported _ report => report.kind
  | .signalled _ report => report.kind
  | _ => none

namespace State

/-- The child matches the pid or id of the call. -/
def selectedBy (s : State) : Call → ℕ → Bool
  | .waitpid pid _ => s.selects pid
  | .waitid idtype id _ => s.selectsId idtype id

/-- The reports of the end of children, with the one of an outcome. -/
def count (s : State) : Outcome → ℕ → ℕ
  | .reported c report =>
    if report.kind = some .terminated then update s.reported c (s.reported c + 1)
    else s.reported
  | _ => s.reported

/-- A search with what it leaves of itself. -/
def answer (s : State) (call : Call) : State :=
  let remains :=
    (s.processList ++ s.zombieList).any fun c => s.selectedBy call c && s.reported c = 0
  let ended := s.zombieList.any (s.selectedBy call)
  let (outcome, s') := s.search call
  { s' with
    reported := s.count outcome
    answers := ⟨call, outcome, remains, ended⟩ :: s.answers }

end State

/-- The children fork, end by `exit`, with their last thread, by a signal, by a fault that the
kernel turns into a signal, or because the kernel only sets `do_cleanup` (a stack that is not valid
in a system call or around a signal handler, no memory for a page, a deadlock, `exec` with several
threads, the shutdown); they stop and continue. The scheduler moves processes to the end of its
list, hands over to the reaper those that end, and moves those that are reaped to the zombies. The
parent waits, is woken by signals, and decides whether its children become zombies.
-/
inductive Event where
  | fork (pid pgrp : ℤ)
  | exit (child : ℕ) (status : ℕ)
  | lastThread (child : ℕ)
  | kill (child : ℕ) (signal : ℕ)
  | fault (child : ℕ) (signal : ℕ)
  | abandon (child : ℕ)
  | stop (child : ℕ) (signal : ℕ)
  | continue (child : ℕ) (signal : ℕ)
  | pushToEnd (child : ℕ)
  | handOver (child : ℕ)
  | reaped
  | bury (child : ℕ)
  | ignoreChildren (ignores : Bool)
  | wait (call : Call)
  | interrupt (call : Call) (signal : Signal)

namespace State

/-- `postmortem_wstatus` of a process that a signal has killed. -/
def killedWstatus (signal : ℕ) : ℕ := 0x100 ||| (signal <<< 12)

/-- A signal is not delivered to a process that is cleaned up. -/
def deliver (s : State) (c : ℕ) (p : Child) : Option State :=
  if c ∈ s.processList ∧ (s.child c).doCleanup = 0 then some (s.setChild c p) else none

def perform (s : State) : Event → Option State
  | .fork pid pgrp =>
    if pid > 0 ∧ pid ≠ s.pid then
      some { s.setChild s.created { pid := pid, pgrp := pgrp } with
        processList := s.processList ++ [s.created], created := s.created + 1 }
    else none
  | .exit c status =>
    if c ∈ s.processList ∧ (s.child c).doCleanup ≠ 3 then
      some (s.setChild c { s.child c with
        postmortemWstatus := status &&& 0xFF, pendingSigchldInfo := .exited status
        pendingWaiting := true, doCleanup := 1 })
    else none
  | .lastThread c =>
    s.deliver c { s.child c with
      postmortemWstatus := 0, pendingSigchldInfo := .exited 0, pendingWaiting := true }
  | .kill c signal =>
    s.deliver c { s.child c with
      doCleanup := 1, pendingWaiting := true
      pendingSigchldInfo := .killed signal, postmortemWstatus := killedWstatus signal }
  | .fault c signal =>
    s.deliver c { s.child c with
      doCleanup := 1
      pendingSigchldInfo := .killed signal, postmortemWstatus := killedWstatus signal }
  | .abandon c =>
    if c ∈ s.processList ∧ (s.child c).doCleanup ≠ 3 then
      some (s.setChild c { s.child c with doCleanup := 1 })
    else none
  | .stop c signal =>
    s.deliver c { s.child c with
      isStopped := true, pendingWaiting := true, pendingSigchldInfo := .stopped signal }
  | .continue c signal =>
    s.deliver c { s.child c with
      isStopped := false, pendingWaiting := true, pendingSigchldInfo := .continued signal }
  | .pushToEnd c =>
    if c ∈ s.processList then some { s with processList := s.processList.erase c ++ [c] } else none
  | .handOver c =>
    if c ∈ s.processList ∧ (s.child c).doCleanup = 1 ∧ s.toReap = none then
      some { s.setChild c { s.child c with doCleanup := 2 } with toReap := some c }
    else none
  | .reaped =>
    match s.toReap with
    | none => none
    | some c =>
      some { s.setChild c { s.child c with
          nozombie := (s.child c).nozombie || s.ignoresChildren, doCleanup := 3 } with
        toReap := none }
  | .bury c =>
    if c ∈ s.processList ∧ (s.child c).doCleanup = 3 then
      some { s with
        processList := s.processList.erase c
        zombieList := if (s.child c).nozombie then s.zombieList else s.zombieList ++ [c] }
    else none
  | .ignoreChildren ignores => some { s with ignoresChildren := ignores }
  | .wait call => some (s.answer call)
  | .interrupt call signal =>
    let (outcome, s') := s.interrupted call signal
    some { s' with interrupts := (call, outcome) :: s.interrupts }

/-- A process without children. -/
def initial (pid pgrp : ℤ) : State :=
  ⟨pid, pgrp, false, [], [], fun _ => ⟨0, 0, false, 0, false, false, 0, .unset⟩, none, 0,
    fun _ => 0, [], []⟩

end State

-- The property

/-- The arguments are accepted. -/
def Call.Valid : Call → Prop
  | .waitpid _ _ => True
  | .waitid idtype _ options =>
    idtype ≠ .other ∧ (options.wcontinued ∨ options.wexited ∨ options.wstopped)

def Call.asksExited : Call → Bool
  | .waitpid _ _ => true
  | .waitid _ _ options => options.wexited

/-- A stop or a continue is only reported when the options ask for it. -/
def Outcome.Asked (outcome : Outcome) (call : Call) : Prop :=
  (outcome.kind = some .stopped → call.asksStopped)
    ∧ (outcome.kind = some .continued → call.asksContinued)

/-- The answer is the one that was asked for: `-ECHILD` when no matching child is left to be
reported and only then, and the end of a child when a matching one is a zombie.
-/
structure Answer.Right (answer : Answer) : Prop where
  asked : answer.outcome.Asked answer.call
  echild : answer.call.Valid → (answer.outcome = .echild ↔ answer.remains = false)
  found : answer.call.Valid → answer.call.asksExited → answer.ended →
    answer.outcome.kind = some .terminated

/-- The end of a child has been reported once when the child is gone, and not before; and all
answers are right.
-/
structure State.Correct (s : State) : Prop where
  once : ∀ c < s.created, s.reported c = if c ∈ s.processList ++ s.zombieList then 0 else 1
  right : ∀ answer ∈ s.answers, answer.Right
  asked : ∀ interrupt ∈ s.interrupts, interrupt.2.Asked interrupt.1

/-- A search of the process list must not come upon a child that is still being cleaned up, nor upon
a change of state that the options do not ask for. No process ends with its last thread, none is
ended by `do_cleanup` alone, children become zombies, and `sys_waitid` is not called for other
changes while a matching zombie waits.
-/
def State.Safe (s : State) : Event → Prop
  | .lastThread _ => False
  | .abandon c => (s.child c).doCleanup ≠ 0
  | .reaped => s.ignoresChildren = false
  | .wait (.waitpid pid options) =>
    (∀ c ∈ s.zombieList, ¬ s.selects pid c) → ∀ c ∈ s.processList, s.selects pid c →
      (s.child c).pendingWaiting → (s.child c).doCleanup = 0
        ∧ if (s.child c).isStopped then options.wuntraced else options.wcontinued
  | .wait (.waitid idtype id options) =>
    options.wnowait = false
      ∧ (options.wexited ∨ ∀ c ∈ s.zombieList, ¬ s.selectsId idtype id c)
      ∧ ((∀ c ∈ s.zombieList, ¬ s.selectsId idtype id c) → ∀ c ∈ s.processList,
          s.selectsId idtype id c → s.takes options c →
            (s.child c).doCleanup = 0 ∧ ((s.child c).isStopped ∨ options.wcontinued))
  | _ => True

-- The invariant

/-- The two texts of the report of a child that has ended say so. -/
structure Child.Ended (child : Child) : Prop where
  status : (Report.status child.postmortemWstatus).kind = some .terminated
  info : child.pendingSigchldInfo.kind = some .terminated

/-- A child that is cleaned up has ended; the information about one that is not tells its last
change.
-/
structure Child.Consistent (child : Child) : Prop where
  ended : child.doCleanup ≠ 0 → child.Ended
  changed : child.doCleanup = 0 → child.pendingWaiting →
    child.pendingSigchldInfo.kind = some (if child.isStopped then .stopped else .continued)
  nozombie : child.nozombie = false

structure Sound (s : State) : Prop where
  positive : 0 < s.pid
  nodup : (s.processList ++ s.zombieList).Nodup
  known : ∀ c ∈ s.processList ++ s.zombieList, c < s.created ∧ (s.child c).pid ≠ s.pid
  listed : ∀ c ∈ s.processList, (s.child c).Consistent
  zombies : ∀ c ∈ s.zombieList, (s.child c).doCleanup ≠ 0 ∧ (s.child c).Ended
  reaping : ∀ c, s.toReap = some c →
    c ∈ s.processList ∧ (s.child c).doCleanup ≠ 0 ∧ (s.child c).doCleanup ≠ 3
  fresh : ∀ c ≥ s.created, s.reported c = 0
  correct : s.Correct

theorem status_exited (status : ℕ) : (Report.status (status &&& 0xFF)).kind = some .terminated := by
  have small : status &&& 0xFF ≤ 0xFF := and_le_right
  simp only [Report.kind]
  rw [if_neg (by omega), if_neg (by omega)]

theorem status_killed (signal : ℕ)
    : (Report.status (killedWstatus signal)).kind = some .terminated := by
  have low : killedWstatus signal % 2 ^ 12 = 0x100 := by
    rw [killedWstatus, or_mod_two_pow, shiftLeft_eq, mul_mod_left]
    decide
  simp only [Report.kind]
  rw [if_neg (by omega), if_neg (by omega)]

theorem Child.Ended.wstatus_kind {child : Child} (ended : child.Ended)
    (cleaned : child.doCleanup ≠ 0)
    : (Report.status child.wstatus).kind = some .terminated := by
  rw [Child.wstatus, if_pos cleaned]
  exact ended.status

namespace Sound

variable {s s' : State} {c : ℕ}

theorem init {pid} (positive : 0 < pid) (pgrp : ℤ) : Sound (.initial pid pgrp) where
  positive := positive
  nodup := nodup_nil
  known _ isListed := absurd isListed not_mem_nil
  listed _ isListed := absurd isListed not_mem_nil
  zombies _ isZombie := absurd isZombie not_mem_nil
  reaping _ isReaped := nomatch isReaped
  fresh _ _ := rfl
  correct :=
    ⟨fun _ below => absurd below (not_lt_zero _), fun _ isAnswer => absurd isAnswer not_mem_nil,
      fun _ isInterrupt => absurd isInterrupt not_mem_nil⟩

theorem not_zombie (sound : Sound s) (mem : c ∈ s.processList) : c ∉ s.zombieList :=
  (nodup_append'.mp sound.nodup).2.2 mem

/-- The structure of a child in the process list changes. -/
theorem setChild (sound : Sound s) (mem : c ∈ s.processList) {p}
    (consistent : p.Consistent) (samePid : p.pid = (s.child c).pid)
    (reaping : s.toReap = some c → p.doCleanup ≠ 0 ∧ p.doCleanup ≠ 3)
    : Sound (s.setChild c p) := by
  have kept {d} (other : d ≠ c) : (s.setChild c p).child d = s.child d :=
    update_of_ne other ..
  refine ⟨sound.positive, sound.nodup, fun d isListed => ?_, fun d isListed => ?_,
    fun d isZombie => ?_, fun d isReaped => ?_, sound.fresh, sound.correct.once,
    sound.correct.right, sound.correct.asked⟩
  · refine ⟨(sound.known d isListed).1, ?_⟩
    by_cases same : d = c
    · rw [same, setChild_child, samePid]
      exact (sound.known c (mem_append_left _ mem)).2
    · rw [kept same]
      exact (sound.known d isListed).2
  · by_cases same : d = c
    · rw [same, setChild_child]
      exact consistent
    · rw [kept same]
      exact sound.listed d isListed
  · have other : d ≠ c := fun same => sound.not_zombie mem (same ▸ isZombie)
    rw [kept other]
    exact sound.zombies d isZombie
  · obtain ⟨isListed, dying⟩ := sound.reaping d isReaped
    refine ⟨isListed, ?_⟩
    by_cases same : d = c
    · rw [same, setChild_child]
      exact reaping (same ▸ isReaped)
    · rw [kept same]
      exact dying

theorem deliver (sound : Sound s) {p} (done : s.deliver c p = some s')
    (samePid : p.pid = (s.child c).pid)
    (consistent : (s.child c).doCleanup = 0 → c ∈ s.processList → p.Consistent)
    : Sound s' := by
  obtain ⟨able, rfl⟩ := guarded done
  refine sound.setChild able.1 (consistent able.2 able.1) samePid fun isReaped => ?_
  exact absurd able.2 (sound.reaping c isReaped).2.1

theorem setWaited (sound : Sound s) (mem : c ∈ s.processList) : Sound (s.setWaited c) := by
  have consistent := sound.listed c mem
  refine sound.setChild mem ⟨fun dying => ?_, nofun, consistent.nozombie⟩ rfl
    fun isReaped => (sound.reaping c isReaped).2
  exact ⟨(consistent.ended dying).status, (consistent.ended dying).info⟩

end Sound

-- What a search finds

/-- (Search s call outcome s') says how a search that is safe can end: with a matching zombie, with
a change of a matching child that is asked for, with nothing, or because of its arguments.
-/
inductive Search (s : State) (call : Call) : Outcome → State → Prop where
  | zombie {c : ℕ} {report : Report} (isZombie : c ∈ s.zombieList) (selected : s.selectedBy call c)
      (kind : report.kind = some .terminated)
      : Search s call (.reported c report) ((s.setWaited c).free c)
  | changed {c : ℕ} {report : Report} (isListed : c ∈ s.processList)
      (selected : s.selectedBy call c) (noZombie : ∀ d ∈ s.zombieList, ¬ s.selectedBy call d)
      (kind : report.kind = some .stopped ∧ call.asksStopped
        ∨ report.kind = some .continued ∧ call.asksContinued)
      : Search s call (.reported c report) (s.setWaited c)
  | nothing {outcome : Outcome} (kind : outcome.kind = none)
      (noZombie : ∀ d ∈ s.zombieList, ¬ s.selectedBy call d)
      (echild : outcome = .echild ↔ ∀ d ∈ s.processList, ¬ s.selectedBy call d)
      : Search s call outcome s
  | invalid (notValid : ¬ call.Valid) : Search s call .einval s

namespace Sound

variable {s s' : State} {c : ℕ}

theorem not_selects_self (sound : Sound s) (mem : c ∈ s.processList ++ s.zombieList)
    : ¬ s.selects s.pid c := by
  have positive := sound.positive
  have other := (sound.known c mem).2
  simp only [selects, Bool.or_eq_true, Bool.and_eq_true, decide_eq_true_eq]
  omega

variable {options : Options} {idtype : Idtype} {id : ℤ}

theorem search_waitpid (sound : Sound s) {pid} (safe : s.Safe (.wait (.waitpid pid options)))
    : Search s (.waitpid pid options) (s.sysWaitpid pid options).1
        (s.sysWaitpid pid options).2 := by
  unfold sysWaitpid
  split
  next self =>
    subst self
    refine .nothing rfl (fun d isZombie => ?_) (iff_of_true rfl fun d isListed => ?_)
    · exact sound.not_selects_self (mem_append_right _ isZombie)
    · exact sound.not_selects_self (mem_append_left _ isListed)
  split
  next c found =>
    have isZombie := mem_of_find?_eq_some found
    obtain ⟨cleaned, ended⟩ := sound.zombies c isZombie
    exact .zombie isZombie (find?_some found) (ended.wstatus_kind cleaned)
  next notFound =>
  have noZombie := find?_eq_none.mp notFound
  split
  next c found =>
    have isListed := mem_of_find?_eq_some found
    have chosen := find?_some found
    simp only [Bool.and_eq_true] at chosen
    obtain ⟨running, asked⟩ := safe noZombie c isListed chosen.2 chosen.1
    refine .changed isListed chosen.2 noZombie ?_
    rw [Child.wstatus, if_neg (not_not.mpr running)]
    split at asked
    next stopped =>
      rw [if_pos stopped]
      exact .inl ⟨rfl, asked⟩
    next notStopped =>
      rw [if_neg notStopped]
      exact .inr ⟨rfl, asked⟩
  · split
    next noChild => exact .nothing rfl noZombie (iff_of_true rfl (find?_eq_none.mp noChild))
    next someChild =>
    have notNone := mt find?_eq_none.mpr someChild
    split <;> exact .nothing rfl noZombie (iff_of_false nofun notNone)

/-- `waitid_get_child` finds a zombie, a child in the process list, or none. -/
theorem waitidGetChild_cases
    (exited : options.wexited ∨ ∀ d ∈ s.zombieList, ¬ s.selectsId idtype id d)
    : (∃ c, s.waitidGetChild idtype id options = some (c, false) ∧ c ∈ s.zombieList
          ∧ s.selectsId idtype id c)
        ∨ (∀ d ∈ s.zombieList, ¬ s.selectsId idtype id d)
          ∧ ((∃ c, s.waitidGetChild idtype id options = some (c, true) ∧ c ∈ s.processList
                ∧ s.takes options c ∧ s.selectsId idtype id c)
              ∨ s.waitidGetChild idtype id options = none) := by
  unfold waitidGetChild
  split
  next c found =>
    split at found
    · exact .inl ⟨c, rfl, mem_of_find?_eq_some found, find?_some found⟩
    · cases found
  next notFound =>
  have noZombie : ∀ d ∈ s.zombieList, ¬ s.selectsId idtype id d := by
    split at notFound
    · exact find?_eq_none.mp notFound
    next notAsked => exact exited.resolve_left notAsked
  refine .inr ⟨noZombie, ?_⟩
  cases found : s.processList.find? fun c => s.takes options c && s.selectsId idtype id c with
  | none => exact .inr rfl
  | some c =>
    have chosen := find?_some found
    simp only [Bool.and_eq_true] at chosen
    exact .inl ⟨c, rfl, mem_of_find?_eq_some found, chosen.1, chosen.2⟩

theorem search_waitid (sound : Sound s) (safe : s.Safe (.wait (.waitid idtype id options)))
    : Search s (.waitid idtype id options) (s.sysWaitid idtype id options).1
        (s.sysWaitid idtype id options).2 := by
  obtain ⟨wait, exited, fine⟩ := safe
  unfold sysWaitid
  split
  next other => exact .invalid fun valid => valid.1 other
  split
  next nothing => exact .invalid fun valid => by simp_all [Call.Valid]
  rcases waitidGetChild_cases exited with ⟨c, found, isZombie, selected⟩ | ⟨noZombie, rest⟩
  · simp only [found, wait, Bool.false_eq_true, if_false]
    exact .zombie isZombie selected (sound.zombies c isZombie).2.info
  rcases rest with ⟨c, found, isListed, taken, selected⟩ | notFound
  · obtain ⟨running, asked⟩ := fine noZombie c isListed selected taken
    simp only [takes, Bool.and_eq_true, Bool.not_eq_true', Bool.and_eq_false_imp] at taken
    obtain ⟨⟨pending, _⟩, stopped⟩ := taken
    have kind := (sound.listed c isListed).changed running pending
    simp only [found, wait, Bool.false_eq_true, if_false, if_true]
    refine .changed isListed selected noZombie ?_
    by_cases isStopped : (s.child c).isStopped
    · rw [if_pos isStopped] at kind
      have isAsked : options.wstopped = true := by simpa using stopped isStopped
      exact .inl ⟨kind, isAsked⟩
    · rw [if_neg isStopped] at kind
      exact .inr ⟨kind, asked.resolve_left isStopped⟩
  · simp only [notFound]
    split
    next noChild => exact .nothing rfl noZombie (iff_of_true rfl (find?_eq_none.mp noChild))
    next someChild =>
    have notNone := mt find?_eq_none.mpr someChild
    split <;> exact .nothing rfl noZombie (iff_of_false nofun notNone)

theorem search (sound : Sound s) {call} (safe : s.Safe (.wait call))
    : Search s call (s.search call).1 (s.search call).2 := by
  cases call with
  | waitpid pid options => exact sound.search_waitpid safe
  | waitid idtype id options => exact sound.search_waitid safe

-- The steps keep it

theorem reported_eq_zero (sound : Sound s) (mem : c ∈ s.processList ++ s.zombieList)
    : s.reported c = 0 := by
  rw [sound.correct.once c (sound.known c mem).1, if_pos mem]

theorem remains_iff (sound : Sound s) (call : Call)
    : ((s.processList ++ s.zombieList).any fun c => s.selectedBy call c && s.reported c = 0) = false
        ↔ (∀ d ∈ s.processList, ¬ s.selectedBy call d)
          ∧ ∀ d ∈ s.zombieList, ¬ s.selectedBy call d := by
  rw [any_eq_false, forall_mem_append]
  refine and_congr (forall₂_congr fun d isListed => ?_) (forall₂_congr fun d isZombie => ?_)
  · simp [sound.reported_eq_zero (mem_append_left _ isListed)]
  · simp [sound.reported_eq_zero (mem_append_right _ isZombie)]

theorem count_of_kind {outcome} (kind : outcome.kind ≠ some .terminated)
    : s.count outcome = s.reported := by
  cases outcome with
  | reported c report => exact if_neg kind
  | _ => rfl

section
variable (sound : Sound s)
include sound

theorem answered {answer} (right : answer.Right)
    : Sound { s with answers := answer :: s.answers } :=
  { sound with correct := { sound.correct with
    right := forall_mem_cons.mpr ⟨right, sound.correct.right⟩ } }

/-- A zombie is reported and freed. -/
theorem freed (isZombie : c ∈ s.zombieList)
    : Sound { (s.setWaited c).free c with
        reported := update s.reported c (s.reported c + 1) } := by
  have notListed : c ∉ s.processList := fun isListed => sound.not_zombie isListed isZombie
  have nodupZombies := (nodup_append'.mp sound.nodup).2.1
  have sublist : (s.processList ++ s.zombieList.erase c).Sublist (s.processList ++ s.zombieList) :=
    Sublist.append_left erase_sublist _
  have gone : c ∉ s.processList ++ s.zombieList.erase c := by
    rw [List.mem_append, not_or]
    exact ⟨notListed, nodupZombies.not_mem_erase⟩
  have other {d} (isListed : d ∈ s.processList ++ s.zombieList.erase c) : d ≠ c :=
    fun same => gone (same ▸ isListed)
  have kept {d} (different : d ≠ c) : (s.setWaited c).child d = s.child d :=
    update_of_ne different ..
  refine ⟨sound.positive, sound.nodup.sublist sublist, fun d isListed => ?_, fun d isListed => ?_,
    fun d isZombie => ?_, fun d isReaped => ?_, fun d isFresh => ?_, fun d isKnown => ?_,
    sound.correct.right, sound.correct.asked⟩
  · show d < s.created ∧ ((s.setWaited c).child d).pid ≠ s.pid
    rw [kept (other isListed)]
    exact sound.known d (sublist.subset isListed)
  · show ((s.setWaited c).child d).Consistent
    rw [kept (other (mem_append_left _ isListed))]
    exact sound.listed d isListed
  · show ((s.setWaited c).child d).doCleanup ≠ 0 ∧ ((s.setWaited c).child d).Ended
    rw [kept (other (mem_append_right _ isZombie))]
    exact sound.zombies d (mem_of_mem_erase isZombie)
  · show d ∈ s.processList ∧ ((s.setWaited c).child d).doCleanup ≠ 0
      ∧ ((s.setWaited c).child d).doCleanup ≠ 3
    obtain ⟨isListed, dying⟩ := sound.reaping d isReaped
    rw [kept (other (mem_append_left _ isListed))]
    exact ⟨isListed, dying⟩
  · have isKnown := (sound.known c (mem_append_right _ isZombie)).1
    exact (update_of_ne (Nat.ne_of_gt (Nat.lt_of_lt_of_le isKnown isFresh)) ..).trans
      (sound.fresh d isFresh)
  · show update s.reported c (s.reported c + 1) d
      = if d ∈ s.processList ++ s.zombieList.erase c then 0 else 1
    by_cases same : d = c
    · rw [same, if_neg gone, update_self, sound.reported_eq_zero (mem_append_right _ isZombie)]
    · rw [update_of_ne same, sound.correct.once d isKnown]
      simp [mem_append, mem_erase_of_ne same]

/-- A safe search gives the right answer. -/
theorem right {call outcome} (found : Search s call outcome s')
    : Answer.Right ⟨call, outcome,
        (s.processList ++ s.zombieList).any fun c => s.selectedBy call c && s.reported c = 0,
        s.zombieList.any (s.selectedBy call)⟩ := by
  have remains := sound.remains_iff call
  have noneEnded (noZombie : ∀ d ∈ s.zombieList, ¬ s.selectedBy call d)
      : ¬ s.zombieList.any (s.selectedBy call) := by
    rw [any_eq_true]
    exact fun ⟨d, isZombie, selected⟩ => noZombie d isZombie selected
  cases found with
  | @zombie c report isZombie selected kind =>
    refine ⟨⟨fun stopped => ?_, fun continued => ?_⟩, fun _ => iff_of_false nofun fun none => ?_,
      fun _ _ _ => kind⟩
    · exact nomatch kind.symm.trans stopped
    · exact nomatch kind.symm.trans continued
    · exact (remains.mp none).2 c isZombie selected
  | @changed c report isListed selected noZombie kind =>
    refine ⟨?_, fun _ => iff_of_false nofun fun none => ?_,
      fun _ _ ended => absurd ended (noneEnded noZombie)⟩
    · rcases kind with ⟨kind, asked⟩ | ⟨kind, asked⟩
      · exact ⟨fun _ => asked, fun continued => nomatch kind.symm.trans continued⟩
      · exact ⟨fun stopped => (nomatch kind.symm.trans stopped), fun _ => asked⟩
    · exact (remains.mp none).1 c isListed selected
  | nothing kind noZombie echild =>
    refine ⟨⟨fun stopped => ?_, fun continued => ?_⟩,
      fun _ => echild.trans ⟨fun noChild => ?_, fun none => ?_⟩,
      fun _ _ ended => absurd ended (noneEnded noZombie)⟩
    · exact nomatch kind.symm.trans stopped
    · exact nomatch kind.symm.trans continued
    · exact remains.mpr ⟨noChild, noZombie⟩
    · exact (remains.mp none).1
  | invalid notValid =>
    exact ⟨⟨nofun, nofun⟩, fun valid => absurd valid notValid, fun valid => absurd valid notValid⟩

theorem answer {call} (safe : s.Safe (.wait call)) : Sound (s.answer call) := by
  have found := sound.search safe
  have right := sound.right found
  show Sound { (s.search call).2 with
    reported := s.count (s.search call).1, answers := ⟨call, (s.search call).1, _, _⟩ :: s.answers }
  generalize s.search call = result at found right
  obtain ⟨outcome, s'⟩ := result
  cases found with
  | @zombie c report isZombie selected kind =>
    have counts : s.count (.reported c report) = update s.reported c (s.reported c + 1) :=
      if_pos kind
    rw [counts]
    exact (sound.freed isZombie).answered right
  | @changed c report isListed selected noZombie kind =>
    have notEnd : (Outcome.reported c report).kind ≠ some .terminated := by
      rcases kind with ⟨kind, _⟩ | ⟨kind, _⟩ <;> exact fun ended => nomatch kind.symm.trans ended
    rw [count_of_kind notEnd]
    exact (sound.setWaited isListed).answered right
  | nothing kind noZombie echild =>
    rw [count_of_kind fun ended => nomatch kind.symm.trans ended]
    exact sound.answered right
  | invalid notValid => exact sound.answered right

/-- A call that a signal wakes reports only what it is asked for. -/
theorem interrupt (call : Call) (signal : Signal)
    : Sound { (s.interrupted call signal).2 with
        interrupts := (call, (s.interrupted call signal).1) :: s.interrupts } := by
  have logged {s'} {outcome} (sound : Sound s') (same : s'.interrupts = s.interrupts)
      (asked : outcome.Asked call)
      : Sound { s' with interrupts := (call, outcome) :: s.interrupts } :=
    { sound with correct := { sound.correct with
      asked := forall_mem_cons.mpr ⟨asked, same ▸ sound.correct.asked⟩ } }
  have cleared (pid : ℤ)
      : Sound (s.clearPending call pid) ∧ (s.clearPending call pid).interrupts = s.interrupts := by
    unfold clearPending
    split
    · exact ⟨sound, rfl⟩
    · split
      next c found => exact ⟨sound.setWaited (mem_of_find?_eq_some found), rfl⟩
      · exact ⟨sound, rfl⟩
  unfold interrupted
  split
  · exact logged sound rfl ⟨nofun, nofun⟩
  next pid signal =>
    split
    · exact logged sound rfl ⟨nofun, nofun⟩
    next asked =>
      refine logged (cleared pid).1 (cleared pid).2
        ⟨fun _ => by simpa using asked, fun continued => ?_⟩
      cases call <;> cases continued
  next pid signal =>
    split
    · exact logged sound rfl ⟨nofun, nofun⟩
    next asked =>
      refine logged (cleared pid).1 (cleared pid).2
        ⟨fun stopped => ?_, fun _ => by simpa using asked⟩
      cases call <;> cases stopped
  · exact logged sound rfl ⟨nofun, nofun⟩

theorem fork {pid} (pgrp : ℤ) (other : pid ≠ s.pid)
    : Sound { s.setChild s.created { pid := pid, pgrp := pgrp } with
        processList := s.processList ++ [s.created], created := s.created + 1 } := by
  have notListed : s.created ∉ s.processList ++ s.zombieList :=
    fun isListed => absurd (sound.known _ isListed).1 (Nat.lt_irrefl _)
  have kept {d} (isListed : d ∈ s.processList ++ s.zombieList)
      : (s.setChild s.created { pid := pid, pgrp := pgrp }).child d = s.child d :=
    update_of_ne (Nat.ne_of_lt (sound.known d isListed).1) ..
  have perm : (s.processList ++ [s.created] ++ s.zombieList).Perm
      (s.created :: (s.processList ++ s.zombieList)) := by
    rw [append_assoc]
    exact perm_middle
  refine ⟨sound.positive, perm.nodup_iff.mpr (nodup_cons.mpr ⟨notListed, sound.nodup⟩),
    fun d isListed => ?_, fun d isListed => ?_, fun d isZombie => ?_, fun d isReaped => ?_,
    fun d isFresh => sound.fresh d (le_of_succ_le isFresh), fun d isKnown => ?_,
    sound.correct.right, sound.correct.asked⟩
  · show d < s.created + 1
      ∧ ((s.setChild s.created { pid := pid, pgrp := pgrp }).child d).pid ≠ s.pid
    rcases mem_cons.mp (perm.mem_iff.mp isListed) with rfl | before
    · rw [setChild_child]
      exact ⟨lt_succ_self _, other⟩
    · rw [kept before]
      exact ⟨lt_succ_of_lt (sound.known d before).1, (sound.known d before).2⟩
  · show ((s.setChild s.created { pid := pid, pgrp := pgrp }).child d).Consistent
    rcases mem_append.mp isListed with before | isLast
    · rw [kept (mem_append_left _ before)]
      exact sound.listed d before
    · rw [mem_singleton.mp isLast, setChild_child]
      exact ⟨fun dying => absurd rfl dying, nofun, rfl⟩
  · show ((s.setChild s.created _).child d).doCleanup ≠ 0 ∧ ((s.setChild s.created _).child d).Ended
    rw [kept (mem_append_right _ isZombie)]
    exact sound.zombies d isZombie
  · obtain ⟨isListed, dying⟩ := sound.reaping d isReaped
    refine ⟨mem_append_left _ isListed, ?_⟩
    rw [kept (mem_append_left _ isListed)]
    exact dying
  · show s.reported d = if d ∈ s.processList ++ [s.created] ++ s.zombieList then 0 else 1
    simp only [perm.mem_iff, mem_cons]
    rcases Nat.lt_succ_iff_lt_or_eq.mp isKnown with before | rfl
    · rw [sound.correct.once d before]
      simp [Nat.ne_of_lt before]
    · rw [if_pos (.inl rfl)]
      exact sound.fresh _ (Nat.le_refl _)

/-- Children change their places in the lists. -/
theorem relist {processList zombieList}
    (perm : (processList ++ zombieList).Perm (s.processList ++ s.zombieList))
    (listed : ∀ d ∈ processList, d ∈ s.processList)
    (zombies : ∀ d ∈ zombieList, (s.child d).doCleanup ≠ 0 ∧ (s.child d).Ended)
    (reaping : ∀ d, s.toReap = some d → d ∈ processList)
    : Sound { s with processList := processList, zombieList := zombieList } :=
  ⟨sound.positive, perm.nodup_iff.mpr sound.nodup,
    fun d isListed => sound.known d (perm.mem_iff.mp isListed),
    fun d isListed => sound.listed d (listed d isListed), zombies,
    fun d isReaped => ⟨reaping d isReaped, (sound.reaping d isReaped).2⟩, sound.fresh,
    fun d isKnown => by simpa only [perm.mem_iff] using sound.correct.once d isKnown,
    sound.correct.right, sound.correct.asked⟩

theorem pushToEnd (mem : c ∈ s.processList)
    : Sound { s with processList := s.processList.erase c ++ [c] } := by
  have perm := (perm_append_singleton c _).trans (perm_cons_erase mem).symm
  exact sound.relist (perm.append_right _) (fun d isListed => perm.mem_iff.mp isListed)
    sound.zombies fun d isReaped => perm.mem_iff.mpr (sound.reaping d isReaped).1

/-- A child that is reaped becomes a zombie. -/
theorem bury (mem : c ∈ s.processList) (isReaped : (s.child c).doCleanup = 3)
    : Sound { s with processList := s.processList.erase c, zombieList := s.zombieList ++ [c] } := by
  have perm : (s.processList.erase c ++ (s.zombieList ++ [c])).Perm
      (s.processList ++ s.zombieList) :=
    calc
      (s.processList.erase c ++ (s.zombieList ++ [c])).Perm
          (s.processList.erase c ++ c :: s.zombieList) :=
        (perm_append_singleton c _).append_left _
      _ |>.Perm (c :: s.processList.erase c ++ s.zombieList) := perm_middle
      _ |>.Perm (s.processList ++ s.zombieList) := (perm_cons_erase mem).symm.append_right _
  have dying : (s.child c).doCleanup ≠ 0 := by
    rw [isReaped]
    decide
  refine sound.relist perm (fun d => mem_of_mem_erase) (fun d isZombie => ?_) fun d isNext => ?_
  · rcases mem_append.mp isZombie with before | isLast
    · exact sound.zombies d before
    · rw [mem_singleton.mp isLast]
      exact ⟨dying, (sound.listed c mem).ended dying⟩
  · obtain ⟨isListed, _, notReaped⟩ := sound.reaping d isNext
    have other : d ≠ c := fun same => notReaped (same ▸ isReaped)
    exact (mem_erase_of_ne other).mpr isListed

theorem setReap {toReap} (reaping : ∀ d, toReap = some d →
      d ∈ s.processList ∧ (s.child d).doCleanup ≠ 0 ∧ (s.child d).doCleanup ≠ 3)
    : Sound { s with toReap := toReap } :=
  { sound with reaping := reaping, correct := { sound.correct with } }

theorem handOver (mem : c ∈ s.processList) (dying : (s.child c).doCleanup = 1)
    (free : s.toReap = none)
    : Sound { s.setChild c { s.child c with doCleanup := 2 } with toReap := some c } := by
  have consistent := sound.listed c mem
  have ended := consistent.ended (by rw [dying]; decide)
  have marked : Sound (s.setChild c { s.child c with doCleanup := 2 }) :=
    sound.setChild mem ⟨fun _ => ⟨ended.status, ended.info⟩, nofun, consistent.nozombie⟩ rfl
      fun isReaped => nomatch free.symm.trans isReaped
  refine marked.setReap fun d isReaped => ?_
  cases isReaped
  refine ⟨mem, ?_⟩
  rw [setChild_child]
  exact ⟨(by decide : 2 ≠ 0), (by decide : 2 ≠ 3)⟩

theorem reaped (isReaped : s.toReap = some c) (zombies : s.ignoresChildren = false)
    : Sound { s.setChild c { s.child c with
          nozombie := (s.child c).nozombie || s.ignoresChildren, doCleanup := 3 } with
        toReap := none } := by
  obtain ⟨mem, dying, _⟩ := sound.reaping c isReaped
  have consistent := sound.listed c mem
  have ended := consistent.ended dying
  have idle : Sound { s with toReap := none } := sound.setReap nofun
  refine idle.setChild mem ⟨fun _ => ⟨ended.status, ended.info⟩, nofun, ?_⟩ rfl nofun
  rw [consistent.nozombie, zombies]
  rfl

theorem perform {event} (safe : s.Safe event) (done : s.perform event = some s')
    : Sound s' := by
  cases event with
  | fork pid pgrp =>
    obtain ⟨able, rfl⟩ := guarded done
    exact sound.fork pgrp able.2
  | exit c status =>
    obtain ⟨able, rfl⟩ := guarded done
    have consistent := sound.listed c able.1
    exact sound.setChild able.1
      ⟨fun _ => ⟨status_exited status, rfl⟩, nofun, consistent.nozombie⟩ rfl
      fun _ => ⟨Nat.one_ne_zero, (by decide : 1 ≠ 3)⟩
  | lastThread c => exact safe.elim
  | abandon c =>
    obtain ⟨able, rfl⟩ := guarded done
    have consistent := sound.listed c able.1
    have ended := consistent.ended safe
    exact sound.setChild able.1
      ⟨fun _ => ⟨ended.status, ended.info⟩, nofun, consistent.nozombie⟩ rfl
      fun _ => ⟨Nat.one_ne_zero, (by decide : 1 ≠ 3)⟩
  | kill c signal | fault c signal =>
    refine sound.deliver done rfl fun _ isListed => ?_
    exact ⟨fun _ => ⟨status_killed signal, rfl⟩, nofun, (sound.listed c isListed).nozombie⟩
  | stop c signal | «continue» c signal =>
    refine sound.deliver done rfl fun running isListed => ?_
    exact ⟨fun dying => absurd running dying, fun _ _ => rfl, (sound.listed c isListed).nozombie⟩
  | pushToEnd c =>
    obtain ⟨mem, rfl⟩ := guarded done
    exact sound.pushToEnd mem
  | handOver c =>
    obtain ⟨able, rfl⟩ := guarded done
    exact sound.handOver able.1 able.2.1 able.2.2
  | reaped =>
    simp only [State.perform] at done
    split at done <;> cases done
    next c isReaped =>
      exact sound.reaped isReaped safe
  | bury c =>
    obtain ⟨able, rfl⟩ := guarded done
    rw [(sound.listed c able.1).nozombie]
    exact sound.bury able.1 able.2
  | ignoreChildren ignores =>
    cases done
    exact { sound with correct := { sound.correct with } }
  | wait call =>
    cases done
    exact sound.answer safe
  | interrupt call signal =>
    cases done
    exact sound.interrupt call signal

end

end Sound

instance (s : State) : DecidablePred s.Safe
  | .lastThread _ => isFalse id
  | .abandon c => inferInstanceAs (Decidable ((s.child c).doCleanup ≠ 0))
  | .reaped => inferInstanceAs (Decidable (s.ignoresChildren = false))
  | .wait (.waitpid _ _) =>
    inferInstanceAs (Decidable ((∀ c ∈ s.zombieList, _) → ∀ c ∈ s.processList, _))
  | .wait (.waitid _ _ _) => inferInstanceAs (Decidable (_ ∧ _ ∧ _))
  | .fork _ _ | .exit _ _ | .kill _ _ | .fault _ _ | .stop _ _ | .continue _ _ | .pushToEnd _
  | .handOver _ | .bury _ | .ignoreChildren _ | .interrupt _ _ => isTrue trivial

/-- The steps from the end of a process to the zombie list. -/
def Event.cleanup (c : ℕ) : List Event := [.handOver c, .reaped, .bury c]

end UnstableOS.Kernel.Wait
