import UnstableOS.Kernel.Errno
import UnstableOS.Lib.Holders
import UnstableOS.Lib.Trace

/-! Process groups (`process_groups.c`), with the parts of `sys_fork` and `scheduler_remove_process`
that keep them up.
A process structure is named by its `pid`, which is never used again while a `pid_t` can count the
forks, so that a pointer to a process is a number. The counters `pgrp_members` are integers: a count
below zero is one that has wrapped around.
-/

namespace UnstableOS.Kernel.ProcessGroups

open Lib Function List Option

-- The processes

/-- The fields of a process structure that the calls read and write. -/
structure Process where
  parent : ℕ
  pgrp : ℕ
  session : ℕ
  pgrpLeader : Option ℕ
  pgrpMembers : ℤ
  prgpOrphan : Bool
  afterExec : Bool
deriving DecidableEq

/-- The process structures, the lists of running processes and of zombies, and the last `pid`. -/
structure State where
  proc : ℕ → Process
  processList : List ℕ
  zombieList : List ℕ
  lastPid : ℕ

open State

namespace State

/-- The kernel task and `/init`, which is a group and a session of its own. -/
def init : State where
  proc := fun pid =>
    if pid = 1 then ⟨0, 1, 1, some 1, 0, false, true⟩ else ⟨0, 0, 0, none, 0, false, false⟩
  processList := [0, 1]
  zombieList := []
  lastPid := 1

def set (s : State) (pid : ℕ) (p : Process) : State :=
  { s with proc := update s.proc pid p }

/-- The counter of a leader changes, if there is a leader. -/
def addMembers (s : State) (leader : Option ℕ) (n : ℤ) : State :=
  match leader with
  | some pid => s.set pid { s.proc pid with pgrpMembers := (s.proc pid).pgrpMembers + n }
  | none => s

/-- `sched_find_process`: zombies are in the tree as well. -/
def schedFindProcess (s : State) (pid : ℕ) : Option ℕ :=
  if pid ∈ s.processList ∨ pid ∈ s.zombieList then some pid else none

-- The calls

/-- `sys_setsid`. -/
def setsid (s : State) (current : ℕ) : Except Errno State :=
  if (s.proc current).pgrpMembers ≠ 0 ∨ current = (s.proc current).pgrp then .error .eperm
  else
    let s := s.addMembers (s.proc current).pgrpLeader (-1)
    .ok (s.set current { s.proc current with
      pgrp := current, session := current, pgrpLeader := some current, pgrpMembers := 0 })

/-- The loop of `sys_setpgid` over the ancestors of the target: whether one of those up to the
current process has called `exec`, and whether the current process is not among them.
-/
def ancestors (s : State) (current : ℕ) : ℕ → ℕ → Bool → Bool × Bool
  | 0, _, afterExec => (afterExec, true)
  | fuel + 1, tmp, afterExec =>
    if tmp ≠ 0 ∧ tmp ≠ current then
      s.ancestors current fuel (s.proc tmp).parent (afterExec || (s.proc tmp).afterExec)
    else (afterExec, tmp == 0)

/-- The process and the group leader a call of `sys_setpgid` is about. -/
def targets (s : State) (current : ℕ) (pid pgid : ℤ) : Option ℕ × Option ℕ :=
  let process :=
    if pid = 0 ∨ pid = current then some current else s.schedFindProcess pid.toNat
  let pgrp :=
    if pgid = 0 ∨ pgid = current then some current
    else if pid = pgid then process
    else s.schedFindProcess pgid.toNat
  (process, pgrp)

/-- The checks of `sys_setpgid` once both processes are found. -/
def mayMove (s : State) (current : ℕ) (pid : ℤ) (target group : ℕ) : Except Errno Unit :=
  if target = (s.proc target).session
      ∨ (s.proc target).session ≠ (s.proc current).session
      ∨ (s.proc group).session ≠ (s.proc current).session then .error .eperm
  else if pid ≠ 0 ∧ pid ≠ current then
    let (childAfterExec, notAChild) := s.ancestors current (s.lastPid + 1) target false
    if childAfterExec ∨ notAChild then
      if notAChild then .error .esrch else .error .eacces
    else .ok ()
  else .ok ()

/-- The target is taken off the count of another process that is its leader. -/
def leaveLeader (s : State) (target : ℕ) : State :=
  if (s.proc target).pgrpLeader ≠ some target then s.addMembers (s.proc target).pgrpLeader (-1)
  else s

/-- The target is counted for its new group, or starts to count its own one. -/
def countIn (s : State) (target group : ℕ) : State :=
  if target = group then s.set target { s.proc target with pgrpMembers := 0 }
  else s.addMembers (some group) 1

/-- The target leaves its group and joins the other one. -/
def move (s : State) (target group : ℕ) : State :=
  let s := (s.leaveLeader target).countIn target group
  s.set target { s.proc target with pgrpLeader := some group, pgrp := group }

/-- `sys_setpgid`. -/
def setpgid (s : State) (current : ℕ) (pid pgid : ℤ) : Except Errno State :=
  if pid < 0 ∨ pgid < 0 then .error .einval
  else
    match s.targets current pid pgid with
    | (some target, some group) =>
      match s.mayMove current pid target group with
      | .error e => .error e
      | .ok () => .ok (s.move target group)
    | _ => .error .esrch

/-- `sys_fork`: the structure is copied before the counter of the leader changes. -/
def fork (s : State) (current : ℕ) : State :=
  let copy := s.proc current
  let s := s.addMembers copy.pgrpLeader 1
  let pid := s.lastPid + 1
  { s.set pid { copy with parent := current, afterExec := false } with
    processList := s.processList ++ [pid], lastPid := pid }

/-- The processes of a group are left without a leader. -/
def orphanGroup (s : State) (pgrp : ℕ) : State :=
  { s with
    proc := fun pid =>
      if pid ∈ s.processList ∧ (s.proc pid).pgrp = pgrp then
        { s.proc pid with pgrpLeader := none, prgpOrphan := true }
      else s.proc pid }

/-- The first part of `scheduler_remove_process`. -/
def leaveGroup (s : State) (process : ℕ) : State :=
  if (s.proc process).prgpOrphan then s
  else
    let s := s.set process { s.proc process with prgpOrphan := true }
    let s := s.addMembers (s.proc process).pgrpLeader (-1)
    s.orphanGroup (s.proc process).pgrp

/-- A process ends: it leaves its group, the zombies it did not wait for go away, it leaves the list
of processes, `/init` gets its children, and it becomes a zombie unless nobody will wait for it.
-/
def exit (s : State) (process : ℕ) (nozombie : Bool) : State :=
  let s := s.leaveGroup process
  let running := s.processList.erase process
  let zombies := s.zombieList.filter fun zombie => (s.proc zombie).parent ≠ process
  { s with
    proc := fun pid =>
      if pid ∈ running ∧ (s.proc pid).parent = process then { s.proc pid with parent := 1 }
      else s.proc pid
    processList := running
    zombieList := if nozombie then zombies else zombies ++ [process] }

end State

inductive Call where
  | fork (current : ℕ)
  | setsid (current : ℕ)
  | setpgid (current : ℕ) (pid pgid : ℤ)
  | exec (current : ℕ)
  | exit (process : ℕ) (nozombie : Bool)
  | reap (zombie : ℕ)

namespace State

/-- A step of a running process. A call that fails changes nothing. The kernel task makes no calls,
and when it or `/init` ends the system stops.
-/
def step (s : State) : Call → Option State
  | .fork current =>
    if current ∈ s.processList ∧ current ≠ 0 then some (s.fork current) else none
  | .setsid current =>
    if current ∈ s.processList ∧ current ≠ 0 then
      match s.setsid current with
      | .ok s' => some s'
      | .error _ => some s
    else none
  | .setpgid current pid pgid =>
    if current ∈ s.processList ∧ current ≠ 0 then
      match s.setpgid current pid pgid with
      | .ok s' => some s'
      | .error _ => some s
    else none
  | .exec current =>
    if current ∈ s.processList ∧ current ≠ 0 then
      some (s.set current { s.proc current with afterExec := true })
    else none
  | .exit process nozombie =>
    if process ∈ s.processList ∧ process ≠ 0 ∧ process ≠ 1 then
      some (s.exit process nozombie)
    else none
  | .reap zombie => some { s with zombieList := s.zombieList.erase zombie }

-- The property

/-- The other process a process has as its leader. -/
def follows (s : State) (pid : ℕ) : Option ℕ :=
  if (s.proc pid).pgrpLeader = some pid then none else (s.proc pid).pgrpLeader

/-- The number of other running processes whose `pgrp_leader` points to a process. -/
def followers (s : State) (pid : ℕ) : ℕ := holders s.processList s.follows pid

/-- (Grouped s) holds when the leaders are running processes whose `pid` is the group, and the
counters of the group leaders are the numbers of the others that point to them.
-/
structure Grouped (s : State) : Prop where
  leader : ∀ pid ∈ s.processList, ∀ leader, (s.proc pid).pgrpLeader = some leader →
    leader ∈ s.processList ∧ leader = (s.proc pid).pgrp
  members : ∀ pid ∈ s.processList, (s.proc pid).pgrp = pid →
    (s.proc pid).pgrpMembers = s.followers pid

/-- What every step has to keep. A process that is not the leader of its group may have a counter
that is too large, copied from its parent.
-/
structure Coherent (s : State) : Prop extends s.Grouped where
  nodup : s.processList.Nodup
  enough : ∀ pid ∈ s.processList, (s.followers pid : ℤ) ≤ (s.proc pid).pgrpMembers
  known : ∀ pid ∈ s.processList, pid ≤ s.lastPid ∧ (s.proc pid).pgrp ≤ s.lastPid
  orphan : ∀ pid ∈ s.processList, pid ≠ 0 → (s.proc pid).pgrpLeader = none →
    (s.proc pid).prgpOrphan = true

-- The condition

/-- A process joins the group of a running leader, or makes a group of its own when it leads no
other process.
-/
def SafeMove (s : State) (target group : ℕ) : Prop :=
  target ∈ s.processList
    ∧ if target = group then s.followers target = 0
      else group ∈ s.processList ∧ (s.proc group).pgrp = group

/-- An orphan that ends has no leader and leads nobody. Another process leads its own group or
nobody, and is the only one that follows its leader.
-/
def SafeExit (s : State) (process : ℕ) : Prop :=
  if (s.proc process).prgpOrphan then
    s.followers process = 0 ∧ s.follows process = none
  else
    ((s.proc process).pgrp = process ∨ s.followers process = 0)
      ∧ ∀ leader ∈ s.follows process, s.followers leader = 1

/-- `INT_MAX`, the largest `pid_t`. -/
def pidMax : ℕ := 2 ^ 31 - 1

def Safe (s : State) : Call → Prop
  | .fork _ => s.lastPid < pidMax
  | .setpgid current pid pgid =>
    ∀ target ∈ (s.targets current pid pgid).1, ∀ group ∈ (s.targets current pid pgid).2,
      s.mayMove current pid target group = .ok () → s.SafeMove target group
  | .exit process _ => s.SafeExit process
  | _ => True

end State

instance (s : State) (target group : ℕ) : Decidable (s.SafeMove target group) := by
  unfold State.SafeMove
  infer_instance

instance (s : State) (process : ℕ) : Decidable (s.SafeExit process) := by
  unfold State.SafeExit
  infer_instance

instance (s : State) : (call : Call) → Decidable (s.Safe call)
  | .setpgid current pid pgid =>
    inferInstanceAs (Decidable (∀ target ∈ (s.targets current pid pgid).1,
      ∀ group ∈ (s.targets current pid pgid).2,
        s.mayMove current pid target group = .ok () → s.SafeMove target group))
  | .exit process _ => inferInstanceAs (Decidable (s.SafeExit process))
  | .fork _ => inferInstanceAs (Decidable (s.lastPid < State.pidMax))
  | .setsid _ => isTrue trivial
  | .exec _ => isTrue trivial
  | .reap _ => isTrue trivial

-- Fields after a step

variable {s s' : State} {pid target group current : ℕ}

/-- Following another process is having it as leader. -/
theorem State.follows_eq {leader}
    : s.follows pid = some leader ↔ (s.proc pid).pgrpLeader = some leader ∧ pid ≠ leader := by
  unfold follows
  split
  next own =>
    rw [own]
    simp
  next other =>
  constructor
  · intro has
    refine ⟨has, fun same => other ?_⟩
    rw [has, same]
  · exact And.left

/-- What a step does to the fields of a process but its counter. -/
structure SameGroup (p p' : Process) : Prop where
  pgrpLeader : p'.pgrpLeader = p.pgrpLeader
  pgrp : p'.pgrp = p.pgrp
  prgpOrphan : p'.prgpOrphan = p.prgpOrphan

theorem SameGroup.refl (p : Process) : SameGroup p p := ⟨rfl, rfl, rfl⟩

namespace State

theorem set_same (s : State) {p} (same : SameGroup (s.proc current) p) (pid : ℕ)
    : SameGroup (s.proc pid) ((s.set current p).proc pid) := by
  by_cases isCurrent : pid = current
  · subst isCurrent
    simpa only [set, update_self] using same
  · simp only [set, update_of_ne isCurrent]
    exact .refl _

theorem addMembers_same (s : State) (leader : Option ℕ) (n : ℤ) (pid : ℕ)
    : SameGroup (s.proc pid) ((s.addMembers leader n).proc pid) := by
  unfold addMembers
  split
  · exact s.set_same (by exact ⟨rfl, rfl, rfl⟩) pid
  · exact .refl _

theorem addMembers_members (s : State) (leader : Option ℕ) (n : ℤ) (pid : ℕ)
    : ((s.addMembers leader n).proc pid).pgrpMembers
        = (s.proc pid).pgrpMembers + if leader = some pid then n else 0 := by
  unfold addMembers
  split
  next leader =>
    by_cases same : pid = leader
    · subst same
      simp [set]
    · have differs : leader ≠ pid := fun is => same is.symm
      simp [set, same, differs]
  · simp

theorem addMembers_lists (s : State) (leader : Option ℕ) (n : ℤ)
    : (s.addMembers leader n).processList = s.processList
        ∧ (s.addMembers leader n).lastPid = s.lastPid := by
  unfold addMembers
  split <;> exact ⟨rfl, rfl⟩

theorem leaveLeader_eq (s : State) (target : ℕ)
    : s.leaveLeader target = s.addMembers (s.follows target) (-1) := by
  unfold leaveLeader follows
  by_cases own : (s.proc target).pgrpLeader = some target
  · simp [own, addMembers]
  · simp [own]

theorem countIn_same (s : State) (target group pid : ℕ)
    : SameGroup (s.proc pid) ((s.countIn target group).proc pid) := by
  unfold countIn
  split
  · exact s.set_same (by exact ⟨rfl, rfl, rfl⟩) pid
  · exact s.addMembers_same _ _ pid

theorem countIn_members (s : State) (target group pid : ℕ)
    : ((s.countIn target group).proc pid).pgrpMembers = if pid = target ∧ target = group then 0
          else (s.proc pid).pgrpMembers + if target ≠ group ∧ pid = group then 1 else 0 := by
  unfold countIn
  by_cases own : target = group
  · subst own
    by_cases same : pid = target
    · subst same
      simp [set]
    · simp [set, same]
  · simp [own, addMembers_members, eq_comm]

theorem countIn_lists (s : State) (target group : ℕ)
    : (s.countIn target group).processList = s.processList
        ∧ (s.countIn target group).lastPid = s.lastPid := by
  unfold countIn
  split
  · exact ⟨rfl, rfl⟩
  · exact s.addMembers_lists _ _

end State

/-- What a move does. -/
structure Moved (s s' : State) (target group : ℕ) : Prop where
  lists : s'.processList = s.processList ∧ s'.lastPid = s.lastPid
  leader : ∀ pid, (s'.proc pid).pgrpLeader
    = if pid = target then some group else (s.proc pid).pgrpLeader
  pgrp : ∀ pid, (s'.proc pid).pgrp = if pid = target then group else (s.proc pid).pgrp
  orphan : ∀ pid, (s'.proc pid).prgpOrphan = (s.proc pid).prgpOrphan
  members : ∀ pid, (s'.proc pid).pgrpMembers = if pid = target ∧ target = group then 0
      else (s.proc pid).pgrpMembers + (if s.follows target = some pid then -1 else 0)
        + if target ≠ group ∧ pid = group then 1 else 0

theorem State.move_moved (s : State) (target group : ℕ)
    : Moved s (s.move target group) target group := by
  have same (pid : ℕ) : SameGroup (s.proc pid)
      (((s.leaveLeader target).countIn target group).proc pid) := by
    have first := s.addMembers_same (s.follows target) (-1) pid
    rw [← leaveLeader_eq] at first
    have second := (s.leaveLeader target).countIn_same target group pid
    exact ⟨second.pgrpLeader.trans first.pgrpLeader, second.pgrp.trans first.pgrp,
      second.prgpOrphan.trans first.prgpOrphan⟩
  have lists := (s.leaveLeader target).countIn_lists target group
  have before := s.addMembers_lists (s.follows target) (-1)
  rw [← leaveLeader_eq] at before
  have members (pid : ℕ) := (s.leaveLeader target).countIn_members target group pid
  simp only [leaveLeader_eq, addMembers_members] at members
  simp only [← leaveLeader_eq] at members
  refine ⟨⟨lists.1.trans before.1, lists.2.trans before.2⟩, ?_, ?_, ?_, ?_⟩ <;> intro pid <;>
    rcases eq_or_ne pid target with rfl | atTarget <;>
    simp [*, move, set, (same pid).pgrpLeader, (same pid).pgrp, (same pid).prgpOrphan]

/-- A call of `sys_setpgid` that succeeds is a permitted move. -/
theorem State.setpgid_ok {pid pgid} (moved : s.setpgid current pid pgid = .ok s')
    : ∃ target group, s' = s.move target group
        ∧ s.targets current pid pgid = (some target, some group)
        ∧ s.mayMove current pid target group = .ok () := by
  unfold setpgid at moved
  split at moved
  · cases moved
  split at moved
  next target group found =>
    split at moved <;> cases moved
    next may =>
      exact ⟨target, group, rfl, found, may⟩
  · cases moved

-- Moving to another group

theorem Moved.follows (moved : Moved s s' target group)
    : s'.follows = update s.follows target (if target = group then none else some group) := by
  funext pid
  by_cases atTarget : pid = target
  · subst atTarget
    simp [follows, moved.leader, eq_comm]
  · simp [State.follows, moved.leader, atTarget]

/-- The process is counted where it goes and not where it comes from. -/
theorem Moved.followers (moved : Moved s s' target group) (nodup : s.processList.Nodup)
    (mem : target ∈ s.processList) (pid : ℕ)
    : s'.followers pid + (if s.follows target = some pid then 1 else 0)
        = s.followers pid + if target ≠ group ∧ pid = group then 1 else 0 := by
  have count := @holders_update ℕ ℕ _ s.processList s.follows target pid _ nodup mem
  unfold State.followers
  rw [moved.lists.1, moved.follows, count]
  by_cases own : target = group
  · simp [own]
  · simp [own, eq_comm]

/-- Joining the group of a running leader, or making a group of its own.
Witness: the counters of the old and the new leader change as the numbers of their followers do.
-/
theorem State.Coherent.moved (coherent : s.Coherent) (moved : Moved s s' target group)
    (safe : s.SafeMove target group)
    : s'.Coherent := by
  obtain ⟨mem, safe⟩ := safe
  have count := moved.followers coherent.nodup mem
  have groupIn : group ∈ s.processList := by
    split at safe
    next own => exact own ▸ mem
    · exact safe.1
  -- a process that makes a group of its own had no followers, and has none
  have own (same : target = group) : s'.followers target = 0 := by
    rw [if_pos same] at safe
    have := count target
    simp only [same, not_true_eq_false, false_and, if_false, ne_eq] at this safe ⊢
    omega
  refine ⟨⟨?_, ?_⟩, ?_, ?_, ?_, ?_⟩
  · intro pid running leader has
    rw [moved.lists.1] at running ⊢
    rw [moved.leader] at has
    rw [moved.pgrp]
    by_cases atTarget : pid = target
    · rw [if_pos atTarget] at has ⊢
      cases has
      exact ⟨groupIn, rfl⟩
    · rw [if_neg atTarget] at has ⊢
      exact coherent.leader pid running leader has
  · intro pid running leads
    rw [moved.lists.1] at running
    rw [moved.pgrp] at leads
    rw [moved.members]
    have here := count pid
    by_cases atTarget : pid = target
    · rw [if_pos atTarget] at leads
      have same := atTarget.symm.trans leads.symm
      rw [if_pos ⟨atTarget, same⟩, atTarget, own same]
      rfl
    · rw [if_neg atTarget] at leads
      rw [if_neg (fun both => atTarget both.1), coherent.members pid running leads]
      split_ifs at here ⊢ <;> omega
  · rw [moved.lists.1]
    exact coherent.nodup
  · intro pid running
    rw [moved.lists.1] at running
    rw [moved.members]
    have here := count pid
    have before := coherent.enough pid running
    by_cases reset : pid = target ∧ target = group
    · rw [if_pos reset, reset.1, own reset.2]
      exact Int.le_refl 0
    · rw [if_neg reset]
      split_ifs at here ⊢ <;> omega
  · intro pid running
    rw [moved.lists.1] at running
    rw [moved.lists.2, moved.pgrp]
    refine ⟨(coherent.known pid running).1, ?_⟩
    split
    · exact (coherent.known group groupIn).1
    · exact (coherent.known pid running).2
  · intro pid running user none
    rw [moved.lists.1] at running
    rw [moved.leader] at none
    rw [moved.orphan]
    split at none
    · cases none
    · exact coherent.orphan pid running user none

/-- The invariant looks at the groups only. -/
theorem State.Coherent.congr (coherent : s.Coherent) {p} (samePid : SameGroup (s.proc current) p)
    (sameMembers : p.pgrpMembers = (s.proc current).pgrpMembers)
    : (s.set current p).Coherent := by
  have same := s.set_same samePid
  have members (pid : ℕ) : ((s.set current p).proc pid).pgrpMembers = (s.proc pid).pgrpMembers := by
    rcases eq_or_ne pid current with rfl | other <;> simp [*, set]
  have follows : (s.set current p).follows = s.follows := by
    funext pid
    simp [follows, (same pid).pgrpLeader]
  have followers (pid : ℕ) : (s.set current p).followers pid = s.followers pid := by
    rw [followers, follows]
    rfl
  refine ⟨⟨?_, ?_⟩, coherent.nodup, ?_, ?_, ?_⟩ <;>
    simp only [members, followers, (same _).pgrp, (same _).pgrpLeader, (same _).prgpOrphan]
  · exact coherent.leader
  · exact coherent.members
  · exact coherent.enough
  · exact coherent.known
  · exact coherent.orphan

/-- A new session is a group of its own. -/
theorem State.setsid_moved (started : s.setsid current = .ok s')
    (other : (s.proc current).pgrpLeader ≠ some current)
    : Moved s s' current current := by
  unfold setsid at started
  split at started
  · cases started
  simp only [Except.ok.injEq] at started
  subst started
  have follows : s.follows current = (s.proc current).pgrpLeader := if_neg other
  have same := s.addMembers_same (s.proc current).pgrpLeader (-1)
  refine ⟨s.addMembers_lists _ _, ?_, ?_, ?_, ?_⟩ <;> intro pid <;>
    rcases eq_or_ne pid current with rfl | atCurrent <;>
    simp [*, set, (same pid).pgrpLeader, (same pid).pgrp, (same pid).prgpOrphan, addMembers_members]

theorem State.Coherent.setsid (coherent : s.Coherent) (running : current ∈ s.processList)
    (started : s.setsid current = .ok s')
    : s'.Coherent := by
  have may : (s.proc current).pgrpMembers = 0 ∧ current ≠ (s.proc current).pgrp := by
    unfold State.setsid at started
    split at started
    · cases started
    next allowed => simpa using allowed
  have other : (s.proc current).pgrpLeader ≠ some current :=
    fun own => may.2 (coherent.leader current running current own).2
  refine coherent.moved (setsid_moved started other) ⟨running, ?_⟩
  rw [if_pos rfl]
  have := coherent.enough current running
  omega

-- Fork

/-- What a fork does: the child has the group of its parent and is counted there. -/
structure Forked (s s' : State) (current : ℕ) : Prop where
  lists : s'.processList = s.processList ++ [s.lastPid + 1] ∧ s'.lastPid = s.lastPid + 1
  child : SameGroup (s.proc current) (s'.proc (s.lastPid + 1))
    ∧ (s'.proc (s.lastPid + 1)).pgrpMembers = (s.proc current).pgrpMembers
  others : ∀ pid ≤ s.lastPid, SameGroup (s.proc pid) (s'.proc pid)
    ∧ (s'.proc pid).pgrpMembers
      = (s.proc pid).pgrpMembers + if (s.proc current).pgrpLeader = some pid then 1 else 0

theorem State.fork_forked (s : State) (current : ℕ) : Forked s (s.fork current) current := by
  obtain ⟨running, last⟩ := s.addMembers_lists (s.proc current).pgrpLeader 1
  simp only [fork, running, last]
  refine ⟨⟨rfl, rfl⟩, ?_, ?_⟩
  · simp only [set, update_self, and_true]
    exact ⟨rfl, rfl, rfl⟩
  · intro pid old
    have differs : pid ≠ s.lastPid + 1 := by omega
    simp only [set, update_of_ne differs]
    exact ⟨s.addMembers_same _ _ pid, s.addMembers_members _ _ pid⟩

/-- The child follows the leader of its parent, which may be the parent itself.
Witness: the child is one more follower of that leader, and has none itself.
-/
theorem State.Coherent.forked (coherent : s.Coherent) (forked : Forked s s' current)
    (running : current ∈ s.processList) (user : current ≠ 0)
    : s'.Coherent := by
  obtain ⟨lists, ⟨child, copied⟩, others⟩ := forked
  have old (pid : ℕ) (mem : pid ∈ s.processList) := others pid (coherent.known pid mem).1
  have fresh : s.lastPid + 1 ∉ s.processList := fun mem => by
    have := (coherent.known _ mem).1
    omega
  have split {pid} (mem : pid ∈ s'.processList)
      : pid ∈ s.processList ∨ pid = s.lastPid + 1 := by
    rw [lists.1] at mem
    simpa using mem
  have joins (leader : ℕ) : s'.follows (s.lastPid + 1) = some leader
      ↔ (s.proc current).pgrpLeader = some leader := by
    rw [follows_eq, child.pgrpLeader]
    refine and_iff_left_of_imp fun has same => fresh ?_
    exact same ▸ (coherent.leader current running leader has).1
  have followers (pid : ℕ) : s'.followers pid
      = s.followers pid + if (s.proc current).pgrpLeader = some pid then 1 else 0 := by
    unfold followers
    rw [lists.1, holders_append, holders_singleton]
    simp only [joins]
    congr 1
    apply holders_congr
    intro q mem
    rw [follows_eq, follows_eq, (old q mem).1.pgrpLeader]
  -- every process has the group of one that ran before
  have origin {pid} (mem : pid ∈ s'.processList)
      : ∃ q ∈ s.processList, SameGroup (s.proc q) (s'.proc pid) ∧ (pid ≠ 0 → q ≠ 0) := by
    rcases split mem with before | rfl
    · exact ⟨pid, before, (old pid before).1, id⟩
    · exact ⟨current, running, child, fun _ => user⟩
  refine ⟨⟨?_, ?_⟩, ?_, ?_, ?_, ?_⟩
  · intro pid mem leader has
    obtain ⟨q, before, same, -⟩ := origin mem
    rw [same.pgrpLeader] at has
    rw [same.pgrp, lists.1]
    exact (coherent.leader q before leader has).imp_left (mem_append_left _)
  · intro pid mem leads
    rcases split mem with before | rfl
    · rw [(old pid before).1.pgrp] at leads
      rw [(old pid before).2, followers, coherent.members pid before leads]
      split <;> omega
    · rw [child.pgrp] at leads
      have := (coherent.known current running).2
      omega
  · rw [lists.1]
    exact concat_eq_append ▸ coherent.nodup.concat fresh
  · intro pid mem
    rw [followers]
    rcases split mem with before | rfl
    · rw [(old pid before).2]
      have := coherent.enough pid before
      split <;> omega
    have none : s.followers (s.lastPid + 1) = 0 := by
      apply holders_eq_zero.mpr
      intro q mem has
      exact fresh (coherent.leader q mem _ (follows_eq.mp has).1).1
    have notLeader : (s.proc current).pgrpLeader ≠ some (s.lastPid + 1) :=
      fun has => fresh (coherent.leader current running _ has).1
    rw [copied, none, if_neg notLeader]
    have := coherent.enough current running
    omega
  · intro pid mem
    rcases split mem with before | rfl
    · rw [(old pid before).1.pgrp]
      have := coherent.known pid before
      omega
    · rw [child.pgrp]
      have := coherent.known current running
      omega
  · intro pid mem notKernel none
    obtain ⟨q, before, same, isUser⟩ := origin mem
    rw [same.pgrpLeader] at none
    rw [same.prgpOrphan]
    exact coherent.orphan q before (isUser notKernel) none

-- Exit

/-- The processes that lose their leader when a process ends. -/
def State.Released (s : State) (process pid : ℕ) : Prop :=
  (s.proc process).prgpOrphan = false ∧ pid ∈ s.processList
    ∧ (s.proc pid).pgrp = (s.proc process).pgrp

instance (s : State) (process pid : ℕ) : Decidable (s.Released process pid) :=
  inferInstanceAs (Decidable (_ ∧ _))

/-- What leaving the group does to the processes, the one that ends apart. -/
structure Left (s s' : State) (process : ℕ) : Prop where
  leader : ∀ pid ≠ process, (s'.proc pid).pgrpLeader
    = if s.Released process pid then none else (s.proc pid).pgrpLeader
  pgrp : ∀ pid ≠ process, (s'.proc pid).pgrp = (s.proc pid).pgrp
  orphan : ∀ pid ≠ process, (s'.proc pid).prgpOrphan
    = if s.Released process pid then true else (s.proc pid).prgpOrphan
  members : ∀ pid ≠ process, (s'.proc pid).pgrpMembers = (s.proc pid).pgrpMembers
      + if (s.proc process).prgpOrphan = false ∧ (s.proc process).pgrpLeader = some pid then -1
        else 0

theorem State.leaveGroup_lists (s : State) (process : ℕ)
    : (s.leaveGroup process).processList = s.processList
        ∧ (s.leaveGroup process).lastPid = s.lastPid := by
  unfold leaveGroup
  split
  · exact ⟨rfl, rfl⟩
  · exact addMembers_lists _ _ _

theorem State.leaveGroup_left (s : State) (process : ℕ)
    : Left s (s.leaveGroup process) process := by
  unfold leaveGroup
  by_cases orphan : (s.proc process).prgpOrphan = true
  · have stays (pid : ℕ) : ¬ s.Released process pid :=
      fun released => nomatch released.1.symm.trans orphan
    rw [if_pos orphan]
    exact ⟨fun pid _ => by rw [if_neg (stays pid)], fun _ _ => rfl,
      fun pid _ => by rw [if_neg (stays pid)], fun pid _ => by simp [orphan]⟩
  rw [if_neg orphan]
  have notOrphan := eq_false_of_ne_true orphan
  obtain ⟨marked, marked_eq⟩
    : ∃ marked, marked = s.set process { s.proc process with prgpOrphan := true } := ⟨_, rfl⟩
  have kept (pid : ℕ) (other : pid ≠ process) : marked.proc pid = s.proc pid := by
    rw [marked_eq]
    exact update_of_ne other _ _
  have own : (marked.proc process).pgrpLeader = (s.proc process).pgrpLeader
      ∧ (marked.proc process).pgrp = (s.proc process).pgrp := by
    simp [marked_eq, set]
  have running : marked.processList = s.processList := by rw [marked_eq]; rfl
  simp only [← marked_eq, own.1]
  have same := marked.addMembers_same (s.proc process).pgrpLeader (-1)
  have lists := (marked.addMembers_lists (s.proc process).pgrpLeader (-1)).1
  have members := marked.addMembers_members (s.proc process).pgrpLeader (-1)
  rw [(same process).pgrp, own.2]
  have released (pid : ℕ) (other : pid ≠ process)
      : s.Released process pid ↔ pid ∈ (marked.addMembers (s.proc process).pgrpLeader
          (-1)).processList ∧ ((marked.addMembers (s.proc process).pgrpLeader (-1)).proc pid).pgrp
            = (s.proc process).pgrp := by
    rw [lists, running, (same pid).pgrp, kept pid other, Released]
    simp [notOrphan]
  refine ⟨?_, ?_, ?_, ?_⟩ <;> intro pid other <;> simp only [orphanGroup, released pid other]
  · split
    · rfl
    · rw [(same pid).pgrpLeader, kept pid other]
  · rw [← kept pid other, ← (same pid).pgrp]
    split <;> rfl
  · split
    · rfl
    · rw [(same pid).prgpOrphan, kept pid other]
  · simp only [notOrphan, true_and]
    rw [← kept pid other, ← members pid]
    split <;> rfl

/-- What remains of the processes when one has ended. -/
theorem State.exit_left (s : State) (process : ℕ) (nozombie : Bool)
    : Left s (s.exit process nozombie) process
        ∧ (s.exit process nozombie).processList = s.processList.erase process
        ∧ (s.exit process nozombie).lastPid = s.lastPid := by
  obtain ⟨leader, pgrp, orphan, members⟩ := s.leaveGroup_left process
  obtain ⟨running, last⟩ := s.leaveGroup_lists process
  refine ⟨⟨?_, ?_, ?_, ?_⟩, by simp [exit, running], last⟩ <;> intro pid other
  on_goal 1 => rw [← leader pid other]
  on_goal 2 => rw [← pgrp pid other]
  on_goal 3 => rw [← orphan pid other]
  on_goal 4 => rw [← members pid other]
  all_goals
    simp only [exit]
    split <;> rfl

variable {process : ℕ}

theorem Left.follows (left : Left s s' process) (other : pid ≠ process)
    : s'.follows pid = if s.Released process pid then none else s.follows pid := by
  simp only [State.follows, left.leader pid other]
  by_cases released : s.Released process pid <;> simp [released]

namespace State

theorem Coherent.pgrp_of_follows (coherent : s.Coherent) (running : pid ∈ s.processList)
    {leader} (follows : s.follows pid = some leader)
    : leader ∈ s.processList ∧ leader = (s.proc pid).pgrp :=
  coherent.leader pid running leader (follows_eq.mp follows).1

section
variable (coherent : s.Coherent) (left : Left s s' process)
    (lists : s'.processList = s.processList.erase process ∧ s'.lastPid = s.lastPid)
include coherent left lists

/-- The processes that remain when one has ended, if nobody it leads remains with it as leader and
the counters fit.
-/
theorem Coherent.leave
    (gone : ∀ pid ∈ s.processList, ¬ s.Released process pid → s.follows pid ≠ some process)
    (counts : ∀ pid ∈ s.processList, pid ≠ process →
      ((s.proc pid).pgrp = pid → (s'.proc pid).pgrpMembers = s'.followers pid)
        ∧ (s'.followers pid : ℤ) ≤ (s'.proc pid).pgrpMembers)
    : s'.Coherent := by
  have remains {pid} (mem : pid ∈ s'.processList) : pid ≠ process ∧ pid ∈ s.processList :=
    coherent.nodup.mem_erase_iff.mp (lists.1 ▸ mem)
  refine ⟨⟨?_, ?_⟩, ?_, ?_, ?_, ?_⟩
  · intro pid mem leader has
    obtain ⟨other, before⟩ := remains mem
    rw [left.leader pid other] at has
    split at has
    · cases has
    next stays =>
    obtain ⟨isRunning, same⟩ := coherent.leader pid before leader has
    refine ⟨?_, same.trans (left.pgrp pid other).symm⟩
    rw [lists.1]
    refine (mem_erase_of_ne fun isProcess => ?_).mpr isRunning
    subst isProcess
    exact gone pid before stays (follows_eq.mpr ⟨has, other⟩)
  · intro pid mem leads
    obtain ⟨other, before⟩ := remains mem
    exact (counts pid before other).1 ((left.pgrp pid other).symm.trans leads)
  · rw [lists.1]
    exact coherent.nodup.erase process
  · intro pid mem
    obtain ⟨other, before⟩ := remains mem
    exact (counts pid before other).2
  · intro pid mem
    obtain ⟨other, before⟩ := remains mem
    rw [lists.2, left.pgrp pid other]
    exact coherent.known pid before
  · intro pid mem user none
    obtain ⟨other, before⟩ := remains mem
    rw [left.leader pid other] at none
    rw [left.orphan pid other]
    split
    · rfl
    next stays =>
      rw [if_neg stays] at none
      exact coherent.orphan pid before user none

/-- An orphan ends that leads nobody: the others do not notice. -/
theorem Coherent.exitOrphan
    (running : process ∈ s.processList) (orphan : (s.proc process).prgpOrphan = true)
    (alone : s.followers process = 0) (leaderless : s.follows process = none)
    : s'.Coherent := by
  have stays (pid : ℕ) : ¬ s.Released process pid :=
    fun released => nomatch released.1.symm.trans orphan
  have followers (pid : ℕ) : s'.followers pid = s.followers pid := by
    have erased := @holders_erase ℕ ℕ _ s.processList s.follows process pid _ running
    rw [leaderless] at erased
    simp only [followers, lists.1, ← erased, reduceCtorEq, if_false, Nat.add_zero]
    apply holders_congr
    intro q mem
    rw [left.follows (coherent.nodup.mem_erase_iff.mp mem).1, if_neg (stays q)]
  refine coherent.leave left lists (fun pid mem _ => holders_eq_zero.mp alone pid mem) ?_
  intro pid before other
  have members : (s'.proc pid).pgrpMembers = (s.proc pid).pgrpMembers := by
    rw [left.members pid other]
    simp [orphan]
  rw [members, followers]
  exact ⟨coherent.members pid before, coherent.enough pid before⟩

/-- A process ends that is no orphan: its group is left without a leader.
Witness: whoever follows the leader of the group has that group, so nobody follows it afterwards,
and its counter is zero when the process was its only follower.
-/
theorem Coherent.exitMember (running : process ∈ s.processList) (user : process ≠ 0)
    (orphan : (s.proc process).prgpOrphan = false)
    (own : (s.proc process).pgrp = process ∨ s.followers process = 0)
    (only : ∀ leader ∈ s.follows process, s.followers leader = 1)
    : s'.Coherent := by
  have released (pid : ℕ) (mem : pid ∈ s.processList)
      : s.Released process pid ↔ (s.proc pid).pgrp = (s.proc process).pgrp := by
    simp [Released, orphan, mem]
  have followsNot (leader : ℕ) (differs : leader ≠ (s.proc process).pgrp)
      : s.follows process ≠ some leader :=
    fun has => differs (coherent.pgrp_of_follows running has).2
  have followers (pid : ℕ) : s'.followers pid
      = if pid = (s.proc process).pgrp then 0 else s.followers pid := by
    have other {q} (mem : q ∈ s.processList.erase process)
        := coherent.nodup.mem_erase_iff.mp mem
    unfold followers
    rw [lists.1]
    split
    next same =>
      apply holders_eq_zero.mpr
      intro q mem
      obtain ⟨isOther, before⟩ := other mem
      rw [left.follows isOther]
      split
      · exact fun impossible => nomatch impossible
      next stays =>
        intro has
        refine stays ((released q before).mpr ?_)
        rw [← (coherent.pgrp_of_follows before has).2, same]
    next differs =>
      have erased := @holders_erase ℕ ℕ _ s.processList s.follows process pid _ running
      rw [if_neg (followsNot pid differs), Nat.add_zero] at erased
      rw [← erased]
      apply holders_congr
      intro q mem
      obtain ⟨isOther, before⟩ := other mem
      rw [left.follows isOther]
      split
      next isReleased =>
        refine iff_of_false (fun impossible => nomatch impossible) fun has => differs ?_
        rw [(coherent.pgrp_of_follows before has).2]
        exact (released q before).mp isReleased
      · rfl
  refine coherent.leave left lists ?_ ?_
  · intro pid mem stays has
    rcases own with leads | alone
    · refine stays ((released pid mem).mpr ?_)
      rw [← (coherent.pgrp_of_follows mem has).2, leads]
    · exact holders_eq_zero.mp alone pid mem has
  · intro pid before other
    rw [followers, left.members pid other]
    by_cases same : pid = (s.proc process).pgrp
    · obtain ⟨leader, has⟩ : ∃ leader, (s.proc process).pgrpLeader = some leader :=
        ne_none_iff_exists'.mp fun none => by
          rw [coherent.orphan process running user none] at orphan
          cases orphan
      have isLeader := (coherent.leader process running leader has).2.trans same.symm
      subst isLeader
      have one := only leader (follows_eq.mpr ⟨has, other.symm⟩)
      have enough := coherent.enough leader before
      rw [if_pos same, if_pos ⟨orphan, has⟩]
      refine ⟨fun leads => ?_, by omega⟩
      have exact := coherent.members leader before leads
      omega
    · have notLeader : (s.proc process).pgrpLeader ≠ some pid :=
        fun has => same (coherent.leader process running pid has).2
      rw [if_neg same, if_neg (fun both => notLeader both.2), Int.add_zero]
      exact ⟨coherent.members pid before, coherent.enough pid before⟩

end

theorem Coherent.exit (coherent : s.Coherent) (running : process ∈ s.processList)
    (user : process ≠ 0) (safe : s.SafeExit process) (nozombie : Bool)
    : (s.exit process nozombie).Coherent := by
  obtain ⟨left, lists⟩ := s.exit_left process nozombie
  unfold SafeExit at safe
  split at safe
  next orphan => exact coherent.exitOrphan left lists running orphan safe.1 safe.2
  next notOrphan =>
    exact coherent.exitMember left lists running user (eq_false_of_ne_true notOrphan) safe.1 safe.2

-- Runs

theorem init_coherent : init.Coherent := by
  refine ⟨⟨?_, ?_⟩, by decide, ?_, ?_, ?_⟩ <;> intro pid mem <;>
    (rcases mem_cons.mp mem with rfl | later <;>
      [skip; obtain rfl := mem_singleton.mp later]) <;> decide

/-- Every step under the condition keeps the groups. -/
theorem Coherent.step (coherent : s.Coherent) {call} (done : s.step call = some s')
    (safe : s.Safe call)
    : s'.Coherent := by
  cases call with
  | fork current =>
    obtain ⟨may, rfl⟩ := guarded done
    exact coherent.forked (s.fork_forked current) may.1 may.2
  | setsid current =>
    obtain ⟨may, done⟩ := ite_none_right_eq_some.mp done
    split at done <;> cases done
    next s'' started =>
      exact coherent.setsid may.1 started
    · exact coherent
  | setpgid current pid pgid =>
    obtain ⟨_, done⟩ := ite_none_right_eq_some.mp done
    split at done <;> cases done
    next s'' moved =>
      obtain ⟨target, group, rfl, found, may⟩ := setpgid_ok moved
      exact coherent.moved (s.move_moved target group)
        (safe target (found ▸ rfl) group (found ▸ rfl) may)
    · exact coherent
  | exec current =>
    obtain ⟨-, rfl⟩ := guarded done
    exact coherent.congr ⟨rfl, rfl, rfl⟩ rfl
  | exit process nozombie =>
    obtain ⟨may, rfl⟩ := guarded done
    exact coherent.exit may.1 may.2.1 safe nozombie
  | reap zombie =>
    cases done
    exact { coherent with }

/-- In every run from `/init` whose moves and exits meet the condition, the leaders are running
processes of their groups and the counters are right.
-/
theorem grouped_of_safe {calls : List Call} {states : List State}
    (run : trace step init calls = some states)
    (safe : AllSafe step Safe init calls)
    : ∀ s ∈ states, s.Grouped := by
  intro s mem
  have coherent := trace_forall Coherent
    (fun coherent done safe => coherent.step done safe) init_coherent run safe s mem
  exact coherent.toGrouped

end State

/-- A shell makes a group for its child; the child ends. -/
theorem grouped_job
    : ∃ states, trace step init
          [.fork 1, .setsid 2, .fork 2, .setpgid 2 3 3, .exit 3 false] = some states
        ∧ ∀ s ∈ states, s.Grouped := by
  exact exists_of_isSome rfl fun _ run => grouped_of_safe run (by decide)

/-- `/init` has two children, and one of them ends: all three are left without a leader, but
`/init` still counts the other child.
-/
theorem child_ends_miscounts
    : ∃ states, trace step init [.fork 1, .fork 1, .exit 3 false] = some states
        ∧ ¬ ∀ s ∈ states, s.Grouped := by
  refine ⟨_, rfl, fun all => ?_⟩
  have last := all _ (mem_of_mem_getLast? (by rfl))
  exact absurd (last.members 1 (by decide) (by decide)) (by decide)

end UnstableOS.Kernel.ProcessGroups
