import Mathlib.Data.List.Basic
import UnstableOS.Kernel.Errno

/-! The user and group ids of a process and the calls that change them (`users.c`).
An unprivileged process can only move the ids it holds around, so a set of ids closed under the
calls bounds everything it can ever hold.
-/

namespace UnstableOS.Kernel.Credentials

open Kernel List

-- Ids

/-- `uid_t` and `gid_t`. -/
abbrev Id := UInt32

/-- The value -1 of an argument, which leaves an id as it is. -/
def keep : Id := -1

/-- The real, the effective and the saved id. -/
structure Ids where
  real : Id
  effective : Id
  saved : Id
deriving DecidableEq

/-- The ids that are held. -/
def Ids.held (ids : Ids) : List Id := [ids.real, ids.effective, ids.saved]

/-- The user ids `uid`, `euid`, `suid` and the group ids `gid`, `egid`, `sgid`. -/
structure Process where
  user : Ids
  group : Ids
deriving DecidableEq

/-- An effective user id of 0 passes every check, for user and for group ids. -/
def Process.privileged (p : Process) : Bool := p.user.effective = 0

-- The calls

namespace Ids

/-- The new value of an id, unless it is to be kept. -/
def replace (old new : Id) : Id := if new = keep then old else new

/-- The check of an argument: it is -1, the process is privileged or it is one of the listed ids. -/
def permits (privileged : Bool) (allowed : List Id) (id : Id) : Bool :=
  id = keep || privileged || allowed.contains id

/-- `sys_setuid` and `sys_setgid`: a privileged process sets all three ids. -/
def set (ids : Ids) (privileged : Bool) (id : Id) : Except Errno Ids :=
  if id = keep then .error .einval
  else if privileged then .ok ⟨id, id, id⟩
  else if id = ids.real ∨ id = ids.saved then .ok { ids with effective := id }
  else .error .eperm

/-- `sys_seteuid` and `sys_setegid`. -/
def setEffective (ids : Ids) (privileged : Bool) (id : Id) : Except Errno Ids :=
  if id = keep then .error .einval
  else if privileged ∨ id = ids.real ∨ id = ids.saved then .ok { ids with effective := id }
  else .error .eperm

/-- `sys_setreuid` and `sys_setregid`, which differ in the ids they permit. The saved id follows the
effective one when the two others differ or the real one was given.
-/
def setReal (ids : Ids) (privileged : Bool) (allowedReal allowedEffective : List Id)
    (real effective : Id) : Except Errno Ids :=
  if !permits privileged allowedReal real then .error .eperm
  else if !permits privileged allowedEffective effective then .error .eperm
  else
    let newReal := replace ids.real real
    let newEffective := replace ids.effective effective
    .ok ⟨newReal, newEffective,
      if newEffective ≠ newReal ∨ real ≠ keep then newEffective else ids.saved⟩

/-- `sys_setresuid` and `sys_setresgid`. -/
def setAll (ids : Ids) (privileged : Bool) (real effective saved : Id) : Except Errno Ids :=
  if !permits privileged ids.held real then .error .eperm
  else if !permits privileged ids.held effective then .error .eperm
  else if !permits privileged ids.held saved then .error .eperm
  else .ok ⟨replace ids.real real, replace ids.effective effective, replace ids.saved saved⟩

end Ids

namespace Process

variable (p : Process)

def sysSetgid (gid : Id) : Except Errno Process :=
  (p.group.set p.privileged gid).map fun ids => { p with group := ids }

def sysSetegid (gid : Id) : Except Errno Process :=
  (p.group.setEffective p.privileged gid).map fun ids => { p with group := ids }

/-- Only the saved id may become the real one. -/
def sysSetregid (rgid egid : Id) : Except Errno Process :=
  (p.group.setReal p.privileged [p.group.saved] [p.group.saved, p.group.real] rgid egid).map
    fun ids => { p with group := ids }

def sysSetresgid (rgid egid sgid : Id) : Except Errno Process :=
  (p.group.setAll p.privileged rgid egid sgid).map fun ids => { p with group := ids }

def sysSetuid (uid : Id) : Except Errno Process :=
  (p.user.set p.privileged uid).map fun ids => { p with user := ids }

def sysSeteuid (uid : Id) : Except Errno Process :=
  (p.user.setEffective p.privileged uid).map fun ids => { p with user := ids }

/-- Each of the three ids may become the real or the effective one. -/
def sysSetreuid (ruid euid : Id) : Except Errno Process :=
  (p.user.setReal p.privileged p.user.held p.user.held ruid euid).map
    fun ids => { p with user := ids }

def sysSetresuid (ruid euid suid : Id) : Except Errno Process :=
  (p.user.setAll p.privileged ruid euid suid).map fun ids => { p with user := ids }

end Process

inductive Call where
  | setgid (gid : Id)
  | setegid (gid : Id)
  | setregid (rgid egid : Id)
  | setresgid (rgid egid sgid : Id)
  | setuid (uid : Id)
  | seteuid (uid : Id)
  | setreuid (ruid euid : Id)
  | setresuid (ruid euid suid : Id)

def Process.perform (p : Process) : Call → Except Errno Process
  | .setgid gid => p.sysSetgid gid
  | .setegid gid => p.sysSetegid gid
  | .setregid rgid egid => p.sysSetregid rgid egid
  | .setresgid rgid egid sgid => p.sysSetresgid rgid egid sgid
  | .setuid uid => p.sysSetuid uid
  | .seteuid uid => p.sysSeteuid uid
  | .setreuid ruid euid => p.sysSetreuid ruid euid
  | .setresuid ruid euid suid => p.sysSetresuid ruid euid suid

/-- The process after a call; a call that fails changes nothing. -/
def Process.step (p : Process) (call : Call) : Process := (p.perform call).toOption.getD p

/-- The process after a sequence of calls. -/
def Process.run (p : Process) (calls : List Call) : Process := calls.foldl Process.step p

-- An unprivileged call only moves ids around

namespace Ids

variable {ids ids' : Ids} {bound : List Id}

/-- (Within bound ids) holds when each of the three ids is in a set. -/
structure Within (bound : List Id) (ids : Ids) : Prop where
  real : ids.real ∈ bound
  effective : ids.effective ∈ bound
  saved : ids.saved ∈ bound

theorem within_held (ids : Ids) : ids.Within ids.held := by
  constructor <;> simp [held]

theorem Within.held_subset (within : ids.Within bound) : ids.held ⊆ bound := by
  intro id mem
  simp only [held, mem_cons, not_mem_nil, or_false] at mem
  rcases mem with rfl | rfl | rfl
  · exact within.real
  · exact within.effective
  · exact within.saved

/-- A new id is the old one or one that the check allowed. -/
theorem replace_mem {old new allowed} (permitted : permits false allowed new)
    (oldMember : old ∈ bound) (subset : allowed ⊆ bound)
    : replace old new ∈ bound := by
  unfold replace
  split
  · exact oldMember
  next given =>
    have isAllowed : new ∈ allowed := by simpa [permits, given] using permitted
    exact subset isAllowed

section
variable (within : ids.Within bound)
include within

theorem Within.set {id} (done : ids.set false id = .ok ids')
    : ids'.Within bound := by
  unfold Ids.set at done
  split at done
  · cases done
  simp only [Bool.false_eq_true, if_false] at done
  split at done <;> cases done
  next allowed =>
  refine ⟨within.real, ?_, within.saved⟩
  rcases allowed with rfl | rfl
  · exact within.real
  · exact within.saved

theorem Within.setEffective {id} (done : ids.setEffective false id = .ok ids')
    : ids'.Within bound := by
  unfold Ids.setEffective at done
  split at done
  · cases done
  split at done <;> cases done
  next allowed =>
  refine ⟨within.real, ?_, within.saved⟩
  rcases allowed with impossible | rfl | rfl
  · cases impossible
  · exact within.real
  · exact within.saved

theorem Within.setReal {allowedReal allowedEffective real effective}
    (realSubset : allowedReal ⊆ bound)
    (effectiveSubset : allowedEffective ⊆ bound)
    (done : ids.setReal false allowedReal allowedEffective real effective = .ok ids')
    : ids'.Within bound := by
  simp only [Ids.setReal, Bool.not_eq_true'] at done
  split at done
  · cases done
  next realPermitted =>
  split at done
  · cases done
  next effectivePermitted =>
  have newReal := replace_mem (by simpa using realPermitted) within.real realSubset
  have newEffective :=
    replace_mem (by simpa using effectivePermitted) within.effective effectiveSubset
  cases done
  refine ⟨newReal, newEffective, ?_⟩
  split
  · exact newEffective
  · exact within.saved

theorem Within.setAll {real effective saved}
    (done : ids.setAll false real effective saved = .ok ids')
    : ids'.Within bound := by
  simp only [Ids.setAll, Bool.not_eq_true'] at done
  split at done
  · cases done
  next realPermitted =>
  split at done
  · cases done
  next effectivePermitted =>
  split at done
  · cases done
  next savedPermitted =>
  cases done
  exact ⟨replace_mem (by simpa using realPermitted) within.real within.held_subset,
    replace_mem (by simpa using effectivePermitted) within.effective within.held_subset,
    replace_mem (by simpa using savedPermitted) within.saved within.held_subset⟩

end

end Ids

-- Runs

namespace Process

variable {p : Process} {users groups : List Id}

/-- (Confined users groups p) holds when the ids of the process are in two sets of ids, of which
that of the user ids does not have 0.
-/
structure Confined (users groups : List Id) (p : Process) : Prop where
  user : p.user.Within users
  group : p.group.Within groups
  unprivileged : 0 ∉ users

section
variable (confined : p.Confined users groups)
include confined

theorem Confined.not_privileged : p.privileged = false := by
  have notRoot : p.user.effective ≠ 0 :=
    fun isRoot => confined.unprivileged (isRoot ▸ confined.user.effective)
  simpa [privileged] using notRoot

theorem Confined.mapUser {result : Except Errno Ids}
    (kept : ∀ ids, result = .ok ids → ids.Within users)
    : ((result.map fun ids => { p with user := ids }).toOption.getD p).Confined users groups := by
  cases result with
  | error _ => exact confined
  | ok ids => exact ⟨kept ids rfl, confined.group, confined.unprivileged⟩

theorem Confined.mapGroup {result : Except Errno Ids}
    (kept : ∀ ids, result = .ok ids → ids.Within groups)
    : ((result.map fun ids => { p with group := ids }).toOption.getD p).Confined users groups := by
  cases result with
  | error _ => exact confined
  | ok ids => exact ⟨confined.user, kept ids rfl, confined.unprivileged⟩

theorem Confined.step (call : Call) : (p.step call).Confined users groups := by
  have plain := confined.not_privileged
  have inUsers := confined.user.held_subset
  cases call with
  | setgid gid =>
    exact confined.mapGroup fun ids done => confined.group.set (plain ▸ done)
  | setegid gid =>
    exact confined.mapGroup fun ids done => confined.group.setEffective (plain ▸ done)
  | setregid rgid egid =>
    refine confined.mapGroup fun ids done => confined.group.setReal ?_ ?_ (plain ▸ done)
    · simpa using confined.group.saved
    · simpa using ⟨confined.group.saved, confined.group.real⟩
  | setresgid rgid egid sgid =>
    exact confined.mapGroup fun ids done => confined.group.setAll (plain ▸ done)
  | setuid uid =>
    exact confined.mapUser fun ids done => confined.user.set (plain ▸ done)
  | seteuid uid =>
    exact confined.mapUser fun ids done => confined.user.setEffective (plain ▸ done)
  | setreuid ruid euid =>
    exact confined.mapUser fun ids done => confined.user.setReal inUsers inUsers (plain ▸ done)
  | setresuid ruid euid suid =>
    exact confined.mapUser fun ids done => confined.user.setAll (plain ▸ done)

theorem Confined.run (calls : List Call) : (p.run calls).Confined users groups := by
  induction calls generalizing p with
  | nil => exact confined
  | cons call rest ih => exact ih (confined.step call)

end

/-- A process that holds no user id 0 only ever holds the ids it started with. -/
theorem confined_of_no_root (noRoot : 0 ∉ p.user.held)
    : p.Confined p.user.held p.group.held :=
  ⟨p.user.within_held, p.group.within_held, noRoot⟩

/-- A privileged process that gives its privileges up holds the new id only. -/
theorem confined_of_setuid (isRoot : p.user.effective = 0) {uid} (nonzero : uid ≠ 0)
    (valid : uid ≠ keep)
    : (p.step (.setuid uid)).Confined [uid] p.group.held := by
  have dropped : p.step (.setuid uid) = { p with user := ⟨uid, uid, uid⟩ } := by
    simp [Process.step, perform, sysSetuid, Ids.set, valid, privileged, isRoot, Except.map,
      Except.toOption]
  rw [dropped]
  refine ⟨?_, p.group.within_held, ?_⟩
  · exact ⟨mem_singleton_self uid, mem_singleton_self uid, mem_singleton_self uid⟩
  · exact fun mem => nonzero (mem_singleton.mp mem).symm

/-- A process without the user id 0 keeps to the ids it has, whatever the calls; and a privileged
process that sets its user id to one that is valid and not 0 never holds 0 again.
-/
theorem ids_confined
    : (∀ (p : Process) (calls : List Call), 0 ∉ p.user.held →
        (p.run calls).user.held ⊆ p.user.held ∧ (p.run calls).group.held ⊆ p.group.held
          ∧ 0 ∉ (p.run calls).user.held)
      ∧ ∀ (p : Process) (uid : Id) (calls : List Call),
          p.user.effective = 0 → uid ≠ 0 → uid ≠ keep →
            0 ∉ (p.run (.setuid uid :: calls)).user.held := by
  constructor
  · intro p calls noRoot
    have confined := (confined_of_no_root noRoot).run calls
    exact ⟨confined.user.held_subset, confined.group.held_subset,
      fun mem => noRoot (confined.user.held_subset mem)⟩
  · intro p uid calls isRoot nonzero valid mem
    have confined := (confined_of_setuid isRoot nonzero valid).run calls
    exact confined.unprivileged (confined.user.held_subset mem)

/-- A user process tries to become root, and a root process that became a user one does. -/
theorem ids_confined_user
    : ((Process.mk ⟨7, 8, 9⟩ ⟨3, 0, 0⟩).run [.setreuid 9 keep, .setregid 0 3, .setuid 0]).user.held
          ⊆ [7, 8, 9]
      ∧ 0 ∉ ((Process.mk ⟨7, 0, 0⟩ ⟨0, 0, 0⟩).run
          [.setuid 7, .setresuid keep 0 keep, .seteuid 0]).user.held :=
  ⟨(ids_confined.1 ⟨⟨7, 8, 9⟩, ⟨3, 0, 0⟩⟩ _ (by decide)).1,
    ids_confined.2 ⟨⟨7, 0, 0⟩, ⟨0, 0, 0⟩⟩ 7 _ rfl (by decide) (by decide)⟩

/-- A root process asks for the id -1, which is refused, steps down and takes the id 0 again. -/
theorem setuid_refused
    : let root : Process := ⟨⟨0, 0, 0⟩, ⟨0, 0, 0⟩⟩
      root.user.effective = 0 ∧ keep ≠ 0
        ∧ (root.run [.setuid keep, .setresuid 5 5 0]).user.effective ≠ 0
        ∧ (root.run [.setuid keep, .setresuid 5 5 0, .seteuid 0]).user.effective = 0 := by
  decide

end Process

end UnstableOS.Kernel.Credentials
