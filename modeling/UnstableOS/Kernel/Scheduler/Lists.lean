import UnstableOS.Kernel.Scheduler.Code
import UnstableOS.Lib.Trace

/-! The lists of the scheduler over whole runs.
A process leaves the list of processes only when the reaper is done with it, and then it has no
threads and is not the current one.
-/

namespace UnstableOS.Kernel.Scheduler

open Lib Function State List Nat

variable {s s' : State} {running zombies : List ℕ} {process : ℕ}

-- The property

/-- (Lists s running zombies) holds when the two list variables lead through exactly these
processes, linked in both directions, and every structure not yet freed is on exactly one list.
-/
structure State.Lists (s : State) (running zombies : List ℕ) : Prop where
  processes : TailList s.links s.processList running
  dead : TailList s.links s.zombieList zombies
  distinct : (running ++ zombies).Nodup
  allocated : s.allocated.Perm (running ++ zombies)

def State.WellListed (s : State) : Prop := ∃ running zombies, s.Lists running zombies

/-- What every step has to keep: the processes the variables point to are on the list, and a
process the reaper is done with has no threads and is not the current one.
-/
structure State.Coherent (s : State) (running zombies : List ℕ) : Prop
    extends s.Lists running zombies where
  current : s.currentProcess ∈ running
  kernel : s.kernelTask ∈ running ∧ (s.proc s.kernelTask).doCleanup ≠ 3
  reaping : s.toReap ≠ 0 →
    s.toReap ∈ running ∧ s.toReap ≠ s.kernelTask ∧ (s.proc s.toReap).doCleanup ≠ 3
  ended : ∀ process ∈ running, (s.proc process).doCleanup = 3 →
    (s.proc process).threads = [] ∧ process ≠ s.currentProcess

section
variable (lists : s.Lists running zombies)
include lists

theorem State.Lists.apart
    : running.Nodup ∧ zombies.Nodup ∧ ∀ process ∈ running, process ∉ zombies := by
  obtain ⟨runningDistinct, zombiesDistinct, apart⟩ := nodup_append.mp lists.distinct
  exact ⟨runningDistinct, zombiesDistinct,
    fun process runs dead => apart process runs process dead rfl⟩

theorem State.Lists.listed_zombies
    : s.listed s.zombieList = zombies := by
  apply lists.dead.walk.follow_eq
  rw [lists.allocated.length_eq, length_append]
  exact le_add_left _ _

theorem State.Lists.listed_processes
    : s.listed s.processList = running := by
  apply lists.processes.walk.follow_eq
  rw [lists.allocated.length_eq, length_append]
  exact le_add_right _ _

end

-- Steps that leave the lists alone

/-- Nothing happens to the lists and the processes on them. -/
structure State.Quiet (s s' : State) : Prop where
  links : s'.links = s.links
  processList : s'.processList = s.processList
  zombieList : s'.zombieList = s.zombieList
  allocated : s'.allocated = s.allocated
  currentProcess : s'.currentProcess = s.currentProcess
  kernelTask : s'.kernelTask = s.kernelTask
  toReap : s'.toReap = s.toReap
  ended : ∀ process, (s'.proc process).doCleanup = 3 → (s.proc process).doCleanup = 3 ∧
    ((s.proc process).threads = [] → (s'.proc process).threads = [])

namespace State.Quiet

variable {s'' : State}

theorem refl (s : State) : s.Quiet s := ⟨rfl, rfl, rfl, rfl, rfl, rfl, rfl, fun _ is => ⟨is, id⟩⟩

theorem trans (first : s.Quiet s') (second : s'.Quiet s'') : s.Quiet s'' where
  links := second.links.trans first.links
  processList := second.processList.trans first.processList
  zombieList := second.zombieList.trans first.zombieList
  allocated := second.allocated.trans first.allocated
  currentProcess := second.currentProcess.trans first.currentProcess
  kernelTask := second.kernelTask.trans first.kernelTask
  toReap := second.toReap.trans first.toReap
  ended := by
    intro process is
    obtain ⟨between, still⟩ := second.ended process is
    obtain ⟨before, had⟩ := first.ended process between
    exact ⟨before, still ∘ had⟩

theorem not_ended (quiet : s.Quiet s') (alive : (s.proc process).doCleanup ≠ 3)
    : (s'.proc process).doCleanup ≠ 3 :=
  fun is => alive (quiet.ended process is).1

theorem setThread (s : State) (thread : ℕ) (t : Thread) : s.Quiet (s.setThread thread t) :=
  ⟨rfl, rfl, rfl, rfl, rfl, rfl, rfl, fun _ is => ⟨is, id⟩⟩

theorem setStatus (s : State) (thread : ℕ) (status : Status)
    : s.Quiet (s.setStatus thread status) :=
  setThread s thread _

/-- A process is stored with other fields. -/
theorem setProc {p} (ended : p.doCleanup = 3 →
      (s.proc process).doCleanup = 3 ∧ ((s.proc process).threads = [] → p.threads = []))
    : s.Quiet (s.setProc process p) := by
  refine ⟨rfl, rfl, rfl, rfl, rfl, rfl, rfl, fun other is => ?_⟩
  by_cases same : other = process
  · subst same
    simp only [setProc, update_self] at is ⊢
    exact ended is
  · simp only [State.setProc, update_of_ne same] at is ⊢
    exact ⟨is, id⟩

theorem apply (s : State) (effect : Effect) : s.Quiet (s.apply effect) := by
  cases effect with
  | status thread status => exact setStatus s thread status
  | critical thread inside | cancel thread async wakes => exact setThread s thread _
  | stopped process isStopped | sigchld process ignored => exact setProc fun is => ⟨is, id⟩
  | cleanup process => exact setProc fun is => nomatch is
  | lock taken => exact ⟨rfl, rfl, rfl, rfl, rfl, rfl, rfl, fun _ is => ⟨is, id⟩⟩

theorem deliver (s : State) (signals : List Effect) : s.Quiet (s.deliver signals) := by
  induction signals generalizing s with
  | nil => exact refl s
  | cons effect rest ih => exact (apply s effect).trans (ih (s.apply effect))

theorem destroyThread (s : State) (process thread : ℕ)
    : s.Quiet (s.destroyThread process thread) := by
  refine setProc fun is => ⟨is, fun none => ?_⟩
  simp [none]

theorem threads (alive : (s.proc process).doCleanup ≠ 3) (threads : List ℕ)
    : s.Quiet (s.setProc process { s.proc process with threads := threads }) :=
  setProc fun is => absurd is alive

theorem reparent (s : State) (process : ℕ) : s.Quiet (s.reparent process) := by
  refine ⟨rfl, rfl, rfl, rfl, rfl, rfl, rfl, fun other is => ?_⟩
  simp only [State.reparent] at is ⊢
  split at is <;> exact ⟨is, fun none => by split <;> exact none⟩

theorem wakeParent (s : State) (parent : ℕ) : s.Quiet (s.wakeParent parent) := by
  unfold State.wakeParent
  split
  · exact setStatus s _ _
  · exact refl s

theorem wakeDying (s : State) (process thread : ℕ) : s.Quiet (s.wakeDying process thread) := by
  unfold State.wakeDying
  split
  · exact setStatus s _ _
  · exact refl s

end State.Quiet

/-- Only the links and the list variable change when a process goes to the end. -/
theorem State.pushProcessToEnd_frame (s : State) (process : ℕ)
    : ∃ links list, s.pushProcessToEnd process
        = { s with links := links, processList := list } := by
  unfold pushProcessToEnd
  split <;> exact ⟨_, _, rfl⟩

namespace State.Coherent

section
variable (coherent : s.Coherent running zombies)
include coherent

theorem quiet (quiet : s.Quiet s') : s'.Coherent running zombies := by
  refine ⟨⟨?_, ?_, coherent.distinct, ?_⟩, ?_, ?_, ?_, ?_⟩
  · rw [quiet.links, quiet.processList]
    exact coherent.processes
  · rw [quiet.links, quiet.zombieList]
    exact coherent.dead
  · rw [quiet.allocated]
    exact coherent.allocated
  · rw [quiet.currentProcess]
    exact coherent.current
  · rw [quiet.kernelTask]
    exact ⟨coherent.kernel.1, quiet.not_ended coherent.kernel.2⟩
  · rw [quiet.toReap, quiet.kernelTask]
    intro busy
    obtain ⟨runs, notKernel, alive⟩ := coherent.reaping busy
    exact ⟨runs, notKernel, quiet.not_ended alive⟩
  · rw [quiet.currentProcess]
    intro process runs is
    obtain ⟨before, still⟩ := quiet.ended process is
    obtain ⟨none, notCurrent⟩ := coherent.ended process runs before
    exact ⟨still none, notCurrent⟩

theorem current_alive : (s.proc s.currentProcess).doCleanup ≠ 3 :=
  fun is => (coherent.ended _ coherent.current is).2 rfl

-- Steps that change the lists

theorem switched (runs : process ∈ running) (alive : (s.proc process).doCleanup ≠ 3) (thread : ℕ)
    : Coherent { s with currentProcess := process, currentThread := thread } running zombies := by
  refine { coherent with current := runs, ended := ?_ }
  intro other inList is
  refine ⟨(coherent.ended other inList is).1, ?_⟩
  rintro rfl
  exact alive is

theorem pushProcessToEnd (runs : process ∈ running)
    : (s.pushProcessToEnd process).Coherent (toEnd running process) zombies := by
  obtain ⟨runningDistinct, zombiesDistinct, apart⟩ := coherent.apart
  unfold State.pushProcessToEnd
  split
  next last =>
    rw [coherent.processes.toEnd_of_last runningDistinct runs last]
    exact coherent
  obtain ⟨moved, outside⟩ := coherent.processes.unlink_append runningDistinct runs rfl rfl
  have same := (toEnd_perm runs).append_right zombies
  refine ⟨⟨moved, ?_, ?_, ?_⟩, ?_, ?_, ?_, ?_⟩
  · exact coherent.dead.congr outside fun dead inZombies inList => apart dead inList inZombies
  · exact same.nodup_iff.mpr coherent.distinct
  · exact coherent.allocated.trans same.symm
  · exact (mem_toEnd runs).mpr coherent.current
  · exact ⟨(mem_toEnd runs).mpr coherent.kernel.1, coherent.kernel.2⟩
  · intro busy
    obtain ⟨inList, rest⟩ := coherent.reaping busy
    exact ⟨(mem_toEnd runs).mpr inList, rest⟩
  · intro other inList is
    exact coherent.ended other ((mem_toEnd runs).mp inList) is

/-- A zombie is unlinked and freed. -/
theorem dropZombie (dead : process ∈ zombies)
    : ((s.unlinkZombie process).kfree process).Coherent running (zombies.erase process) := by
  obtain ⟨_, zombiesDistinct, apart⟩ := coherent.apart
  obtain ⟨unlinked, outside⟩ := coherent.dead.unlink zombiesDistinct dead
  have notRunning : process ∉ running := fun runs => apart process runs dead
  have erased : (running ++ zombies).erase process = running ++ zombies.erase process :=
    erase_append_right _ notRunning
  refine ⟨⟨?_, unlinked, ?_, ?_⟩, coherent.current, coherent.kernel, coherent.reaping,
    coherent.ended⟩
  · exact coherent.processes.congr outside apart
  · rw [← erased]
    exact coherent.distinct.erase process
  · rw [← erased]
    exact coherent.allocated.erase process

/-- A process that the reaper is done with leaves the list of processes. Either it is freed or it
becomes a zombie.
-/
theorem bury (runs : process ∈ running)
    (ended : (s.proc process).doCleanup = 3) (buried : s.bury process = .again s')
    : ∃ running' zombies', s'.Coherent running' zombies' := by
  obtain ⟨runningDistinct, zombiesDistinct, apart⟩ := coherent.apart
  obtain ⟨unlinked, outside⟩ := coherent.processes.unlink runningDistinct runs
  have notZombie := apart process runs
  obtain ⟨left, left_eq⟩ : ∃ left, left = s.unlinkProcess process := ⟨_, rfl⟩
  obtain ⟨told, told_eq⟩
      : ∃ told, told = (left.reparent process).wakeParent (left.proc process).parent := ⟨_, rfl⟩
  have quiet : left.Quiet told := by
    rw [told_eq]
    exact (Quiet.reparent left process).trans (.wakeParent _ _)
  have stays {other : ℕ} (inList : other ∈ running) (alive : (s.proc other).doCleanup ≠ 3)
      : other ∈ running.erase process := by
    refine (mem_erase_of_ne ?_).mpr inList
    rintro rfl
    exact alive ended
  have links : told.links = (unlinkDoubleLinkedList s.links process s.processList).1 := by
    rw [quiet.links, left_eq]
    rfl
  have processes : TailList told.links told.processList (running.erase process) := by
    rw [links, quiet.processList, left_eq]
    exact unlinked
  have dead : TailList told.links told.zombieList zombies := by
    rw [links, quiet.zombieList, left_eq]
    exact coherent.dead.congr outside fun other inZombies inList => apart other inList inZombies
  have allocated : told.allocated = s.allocated := by rw [quiet.allocated, left_eq]; rfl
  have erased : (running ++ zombies).erase process = running.erase process ++ zombies :=
    erase_append_left _ runs
  have current : told.currentProcess ∈ running.erase process := by
    rw [quiet.currentProcess, left_eq]
    exact stays coherent.current coherent.current_alive
  have kernel : told.kernelTask ∈ running.erase process
      ∧ (told.proc told.kernelTask).doCleanup ≠ 3 := by
    rw [quiet.kernelTask, left_eq]
    refine ⟨stays coherent.kernel.1 coherent.kernel.2, ?_⟩
    refine quiet.not_ended ?_
    rw [left_eq]
    exact coherent.kernel.2
  have reaping : told.toReap ≠ 0 → told.toReap ∈ running.erase process
      ∧ told.toReap ≠ told.kernelTask ∧ (told.proc told.toReap).doCleanup ≠ 3 := by
    rw [quiet.toReap, quiet.kernelTask, left_eq]
    intro busy
    obtain ⟨inList, notKernel, alive⟩ := coherent.reaping busy
    refine ⟨stays inList alive, notKernel, ?_⟩
    refine quiet.not_ended ?_
    rw [left_eq]
    exact alive
  have others : ∀ other ∈ running.erase process, (told.proc other).doCleanup = 3 →
      (told.proc other).threads = [] ∧ other ≠ told.currentProcess := by
    intro other inList is
    obtain ⟨before, still⟩ := quiet.ended other is
    rw [left_eq] at before still
    obtain ⟨none, notCurrent⟩ := coherent.ended other (mem_of_mem_erase inList) before
    rw [quiet.currentProcess, left_eq]
    exact ⟨still none, notCurrent⟩
  unfold State.bury at buried
  rw [← left_eq] at buried
  simp only at buried
  split at buried
  · cases buried
  rw [← told_eq] at buried
  split at buried <;> cases buried
  · refine ⟨running.erase process, zombies, ⟨processes, dead, ?_, ?_⟩, current, kernel, reaping,
      others⟩
    · rw [← erased]
      exact coherent.distinct.erase process
    · rw [← erased]
      simp only [kfree, allocated]
      exact coherent.allocated.erase process
  · obtain ⟨appended, further⟩ :=
      dead.append zombiesDistinct notZombie (coherent.processes.ne_zero runs)
    have same : (running.erase process ++ (zombies ++ [process])).Perm (running ++ zombies) := by
      rw [← append_assoc]
      refine (perm_append_singleton _ _).trans ?_
      exact (perm_cons_erase runs).symm.append_right zombies
    refine ⟨running.erase process, zombies ++ [process], ⟨?_, appended, ?_, ?_⟩, current, kernel,
      reaping, others⟩
    · refine processes.congr further fun other inList touched => ?_
      rcases touched with rfl | inZombies
      · exact runningDistinct.not_mem_erase inList
      · exact apart other (mem_of_mem_erase inList) inZombies
    · exact same.nodup_iff.mpr coherent.distinct
    · simp only [appendZombie, allocated]
      exact coherent.allocated.trans same.symm

/-- The reaper gets a process. -/
theorem handOver (runs : process ∈ running) (notKernel : process ≠ s.kernelTask)
    : (s.handOver process).Coherent running zombies := by
  refine Coherent.quiet ?_ (.setStatus _ _ _)
  split
  · have marked := coherent.quiet (@State.Quiet.setProc s process
      { s.proc process with doCleanup := 2 } fun is => nomatch is)
    refine { marked with reaping := fun _ => ⟨runs, notKernel, ?_⟩ }
    simp [setProc]
  · exact coherent

/-- A child is appended to the list. -/
theorem fork {thread} (real : process ≠ 0) (fresh : process ∉ s.allocated)
    : (s.fork process thread).Coherent (running ++ [process]) zombies := by
  have unlisted : process ∉ running ++ zombies := fun mem =>
    fresh (coherent.allocated.mem_iff.mpr mem)
  obtain ⟨notRunning, notZombie⟩ := not_or.mp fun mem => unlisted (mem_append.mpr mem)
  obtain ⟨runningDistinct, _, apart⟩ := coherent.apart
  obtain ⟨appended, outside⟩ := coherent.processes.append runningDistinct notRunning real
  have same : (running ++ [process] ++ zombies).Perm (process :: (running ++ zombies)) :=
    (perm_append_singleton _ _).append_right zombies
  have other {q} (inList : q ∈ running) : q ≠ process := by
    rintro rfl
    exact notRunning inList
  have kept {q} (inList : q ∈ running) : (s.fork process thread).proc q = s.proc q :=
    update_of_ne (other inList) _ _
  refine ⟨⟨appended, ?_, ?_, ?_⟩, ?_, ?_, ?_, ?_⟩
  · refine coherent.dead.congr outside fun q inZombies touched => ?_
    rcases touched with rfl | inList
    · exact notZombie inZombies
    · exact apart q inList inZombies
  · exact same.nodup_iff.mpr (nodup_cons.mpr ⟨unlisted, coherent.distinct⟩)
  · exact (coherent.allocated.cons process).trans same.symm
  · exact mem_append_left _ coherent.current
  · refine ⟨mem_append_left _ coherent.kernel.1, ?_⟩
    exact (congrArg Process.doCleanup (kept coherent.kernel.1)).trans_ne coherent.kernel.2
  · intro busy
    obtain ⟨inList, notKernel, alive⟩ := coherent.reaping busy
    refine ⟨mem_append_left _ inList, notKernel, ?_⟩
    exact (congrArg Process.doCleanup (kept inList)).trans_ne alive
  · intro q inList is
    rcases mem_append.mp inList with before | new
    · rw [kept before] at is ⊢
      exact coherent.ended q before is
    obtain rfl := mem_singleton.mp new
    have copied : ((s.fork q thread).proc q).doCleanup = (s.proc s.currentProcess).doCleanup := by
      simp [fork, appendProcess, setProc, setThread]
    exact absurd (copied ▸ is) coherent.current_alive

end

end State.Coherent

/-- The loop over the zombies changes nothing but that list. -/
theorem State.collectZombies_frame (process fuel : ℕ) (s : State) (checked : ℕ)
    : ∃ links zombieList allocated, collectZombies process fuel s checked
        = { s with links := links, zombieList := zombieList, allocated := allocated } := by
  induction fuel generalizing s checked with
  | zero => exact ⟨_, _, _, rfl⟩
  | succ fuel ih =>
    unfold collectZombies
    split
    · exact ⟨_, _, _, rfl⟩
    split
    · obtain ⟨links, zombieList, allocated, frame⟩ :=
        ih ((s.unlinkZombie checked).kfree checked) (s.links.next checked)
      exact ⟨links, zombieList, allocated, frame⟩
    · exact ih s _

namespace State.Coherent

/-- The zombies whose parent ends are freed.
Witness: induction on the zombies still to be visited; those before them stay.
-/
theorem collectZombies {fuel kept rest}
    (coherent : s.Coherent running (kept ++ rest)) (enough : rest.length ≤ fuel)
    : (collectZombies process fuel s (rest.headD 0)).Coherent running
        (kept ++ rest.filter fun zombie => (s.proc zombie).parent ≠ process) := by
  induction rest generalizing s kept fuel with
  | nil => cases fuel <;> exact coherent
  | cons zombie rest ih =>
    cases fuel with
    | zero => exact absurd enough (not_succ_le_zero _)
    | succ fuel =>
      have dead : zombie ∈ kept ++ zombie :: rest := by simp
      have real := coherent.dead.ne_zero dead
      have next := coherent.dead.walk.next_eq
      have fits := le_of_succ_le_succ enough
      simp only [collectZombies, headD_cons, if_neg real, next, filter_cons]
      split
      next orphaned =>
        have notKept : zombie ∉ kept := fun before =>
          (nodup_append.mp coherent.apart.2.1).2.2 zombie before zombie mem_cons_self rfl
        have dropped := coherent.dropZombie dead
        rw [erase_append_right _ notKept, erase_cons_head] at dropped
        rw [if_neg (by simp [orphaned])]
        exact ih dropped fits
      next stays =>
        rw [if_pos (by simp [stays])]
        have moved : s.Coherent running ((kept ++ [zombie]) ++ rest) := by
          rw [append_assoc]
          exact coherent
        have later := ih moved fits
        rw [append_assoc] at later
        exact later

/-- The reaper is done with a process that somebody will wait for. -/
theorem reap (coherent : s.Coherent running zombies) (busy : s.Reaping)
    (none : (s.proc s.toReap).threads = []) (heeded : (s.proc s.toReap).nozombie = false
      ∧ (s.proc (s.proc s.toReap).parent).ignoresChildren = false)
    : ∃ zombies', s.reap.Coherent running zombies' := by
  obtain ⟨isKernel, _, some⟩ := busy
  obtain ⟨runs, notKernel, _⟩ := coherent.reaping some
  have unchanged : s.setProc s.toReap { s.proc s.toReap with nozombie := false } = s := by
    rw [← heeded.1]
    exact congrArg (fun proc => { s with proc := proc }) (update_eq_self _ _)
  have removed : s.removeProcess s.toReap
      = State.collectZombies s.toReap s.allocated.length s s.zombieList := by
    unfold removeProcess
    simp [heeded.1, heeded.2, unchanged]
  have length : zombies.length ≤ s.allocated.length := by
    rw [coherent.allocated.length_eq, length_append]
    exact le_add_left _ _
  have head := coherent.dead.walk.head_eq
  have collected := @collectZombies s running s.toReap s.allocated.length [] zombies coherent length
  rw [← head, ← removed] at collected
  obtain ⟨links, list, allocated, frame⟩ :=
    collectZombies_frame s.toReap s.allocated.length s s.zombieList
  rw [← removed] at frame
  rw [frame] at collected
  unfold State.reap
  simp only [frame]
  refine ⟨_, ⟨collected.processes, collected.dead, collected.distinct, collected.allocated⟩,
    collected.current, ⟨collected.kernel.1, ?_⟩, fun idle => absurd rfl idle, ?_⟩
  · simp only [setProc, update_of_ne notKernel.symm]
    exact collected.kernel.2
  · intro other inList is
    by_cases same : other = s.toReap
    · subst same
      simp only [setProc, update_self]
      exact ⟨none, isKernel ▸ notKernel⟩
    · simp only [setProc, update_of_ne same] at is ⊢
      exact collected.ended other inList is

end State.Coherent

-- schedule()

/-- The lists are right however the loops go on. When they go on to the next item, the lists are as
before and the process visited is not ended.
-/
def Visit.Keeps (running zombies : List ℕ) (process : ℕ) : Visit → Prop
  | .panics => True
  | .again s | .switches s => ∃ running' zombies', s.Coherent running' zombies'
  | .goesOn s => s.Coherent running zombies ∧ (s.proc process).doCleanup ≠ 3

namespace State.Coherent

section
variable (coherent : s.Coherent running zombies)
include coherent

theorem goesOn (alive : (s.proc process).doCleanup ≠ 3) (quiet : s.Quiet s')
    : (Visit.goesOn s').Keeps running zombies process :=
  ⟨coherent.quiet quiet, quiet.not_ended alive⟩

theorem cleanupProcess (runs : process ∈ running)
    : (s.cleanupProcess process).Keeps running zombies process := by
  unfold State.cleanupProcess
  split
  · trivial
  next user =>
  split
  next ended =>
    cases buried : s.bury process with
    | panics => trivial
    | again s' => exact coherent.bury runs ended buried
    | switches s' | goesOn s' =>
      simp only [State.bury] at buried
      split at buried
      · cases buried
      · split at buried <;> cases buried
  next alive =>
    refine ⟨coherent.handOver runs fun isKernel => user (.inl isKernel), ?_⟩
    refine (Quiet.setStatus _ _ _).not_ended ?_
    split
    · simp [setProc]
    · exact alive

section
variable (runs : process ∈ running) (alive : (s.proc process).doCleanup ≠ 3)
include runs alive

theorem cleanupThread (signals : List Effect) (thread : ℕ)
    : (s.cleanupThread signals process thread).Keeps running zombies process := by
  have destroyed := Quiet.destroyThread s process thread
  unfold State.cleanupThread
  split
  · exact ⟨coherent, alive⟩
  split
  · trivial
  simp only
  split
  · exact (coherent.quiet (destroyed.trans (.deliver _ signals))).cleanupProcess runs
  · exact ⟨running, zombies, coherent.quiet destroyed⟩

theorem switchTo (thread : ℕ)
    : (s.switchTo process thread).Keeps running zombies process := by
  have marked := coherent.quiet (.setStatus s thread .running)
  have pushed := marked.pushProcessToEnd runs
  have stillAlive : (((s.setStatus thread .running).pushProcessToEnd process).proc
      process).doCleanup ≠ 3 := by
    obtain ⟨links, list, frame⟩ := (s.setStatus thread .running).pushProcessToEnd_frame process
    rw [frame]
    exact alive
  have turned := Quiet.threads stillAlive
    (toEnd (((s.setStatus thread .running).pushProcessToEnd process).proc process).threads thread)
  unfold State.switchTo
  simp only
  split
  · exact ⟨_, _, (pushed.quiet turned).quiet (.setStatus _ _ _)⟩
  · exact ⟨_, _, (pushed.quiet turned).switched ((mem_toEnd runs).mpr runs)
      (turned.not_ended stillAlive) thread⟩

theorem checkThread (signals : List Effect) (thread : ℕ)
    : (s.checkThread signals process thread).Keeps running zombies process := by
  unfold State.checkThread
  iterate 2
    split
    · exact ⟨coherent, alive⟩
  · exact ⟨coherent, alive⟩
  · exact ⟨coherent, alive⟩
  · split
    · exact ⟨coherent, alive⟩
    · exact coherent.switchTo runs alive thread
  · simp only
    split
    · exact coherent.goesOn alive ((Quiet.setStatus s _ _).trans (.wakeDying _ _ _))
    · exact coherent.goesOn alive (.wakeDying _ _ _)
  · exact coherent.goesOn alive (.wakeDying _ _ _)
  · have marked := Quiet.setStatus s thread .threadCleanup
    exact (coherent.quiet marked).cleanupThread runs (marked.not_ended alive) signals thread
  · exact coherent.cleanupThread runs alive signals thread

theorem checkThreads (signals : List Effect) (threads : List ℕ)
    : (s.checkThreads signals process threads).Keeps running zombies process := by
  induction threads generalizing s with
  | nil => exact ⟨coherent, alive⟩
  | cons thread rest ih =>
    have first := coherent.checkThread runs alive signals thread
    unfold checkThreads
    split
    next s' next =>
      rw [next] at first
      exact ih first.1 first.2
    · exact first

end

theorem checkProcess (runs : process ∈ running) (signals : List Effect)
    : (s.checkProcess signals process).Keeps running zombies process := by
  unfold State.checkProcess
  split
  · have cleaned := coherent.cleanupProcess runs
    split
    next s' next =>
      rw [next] at cleaned
      exact cleaned.1.checkThreads runs cleaned.2 signals _
    · exact cleaned
  next healthy =>
    have delivered := Quiet.deliver s signals
    have alive : (s.proc process).doCleanup ≠ 3 := by
      intro is
      exact healthy (.inl (by rw [is]; decide))
    exact (coherent.quiet delivered).checkThreads runs (delivered.not_ended alive) signals _

/-- Witness: induction on the bound; the loop is always at a process of the list or at its end. -/
theorem scan {signals fuel checked} (inside : checked ≠ 0 → checked ∈ running)
    (done : scan signals fuel s checked = some s')
    : ∃ running' zombies', s'.Coherent running' zombies' := by
  induction fuel generalizing s checked running zombies with
  | zero => cases done
  | succ fuel ih =>
    unfold scan at done
    split at done
    · cases done
      exact ⟨_, _, coherent.switched coherent.kernel.1 coherent.kernel.2 s.idleTask⟩
    next real =>
    have kept := coherent.checkProcess (inside real) (signals fuel)
    split at done
    · cases done
    next s'' visited =>
      rw [visited] at kept
      obtain ⟨running', zombies', again⟩ := kept
      exact ih again (fun some => again.processes.head_mem some) done
    next s'' visited =>
      cases done
      rw [visited] at kept
      exact kept
    next s'' visited =>
      rw [visited] at kept
      exact ih kept.1 (fun some => (kept.1.processes.next_mem (inside real)).resolve_left some) done

theorem putBack : s.putBack.Coherent (toEnd running s.currentProcess) zombies := by
  have real := coherent.processes.ne_zero coherent.current
  have pushed := coherent.pushProcessToEnd coherent.current
  unfold State.putBack
  rw [if_pos real]
  simp only
  split
  · refine pushed.quiet ((Quiet.setStatus _ _ _).trans (.threads ?_ _))
    exact (Quiet.setStatus _ _ _).not_ended pushed.current_alive
  · exact pushed

theorem schedule {fuel signals} (done : s.schedule fuel signals = some s')
    : ∃ running' zombies', s'.Coherent running' zombies' := by
  unfold State.schedule at done
  split at done
  · cases done
    exact ⟨_, _, coherent⟩
  · have ready := coherent.putBack
    exact ready.scan (fun some => ready.processes.head_mem some) done

end

end State.Coherent

-- Runs

/-- The reaper is done with a process only if its parent will wait for it. -/
def State.Heeded (s : State) : Call → Prop
  | .reap => (s.proc s.toReap).nozombie = false
      ∧ (s.proc (s.proc s.toReap).parent).ignoresChildren = false
  | _ => True

instance (s : State) : (call : Call) → Decidable (s.Heeded call)
  | .reap => inferInstanceAs (Decidable (_ ∧ _))
  | .schedule _ _ | .effect _ | .fork _ _ | .createThread _ | .destroyThread | .waitpid _ =>
    isTrue trivial

/-- Every step under the condition keeps the lists. -/
theorem State.Coherent.step {call} (coherent : s.Coherent running zombies)
    (done : s.step call = some s') (heeded : s.Heeded call)
    : ∃ running' zombies', s'.Coherent running' zombies' := by
  cases call with
  | schedule fuel signals => exact coherent.schedule done
  | effect effect =>
    cases done
    exact ⟨_, _, coherent.quiet (.apply s effect)⟩
  | fork process thread =>
    obtain ⟨may, rfl⟩ := guarded done
    exact ⟨_, _, coherent.fork may.1 may.2.1⟩
  | createThread thread =>
    obtain ⟨-, rfl⟩ := guarded done
    exact ⟨_, _, coherent.quiet ((Quiet.threads coherent.current_alive _).trans
      (.setThread _ thread _))⟩
  | destroyThread =>
    simp only [State.step] at done
    split at done
    next thread _ _ =>
      split at done <;> cases done
      exact ⟨_, _, coherent.quiet (.destroyThread s s.toReap thread)⟩
    · cases done
  | reap =>
    obtain ⟨may, rfl⟩ := guarded done
    exact ⟨running, coherent.reap may.1 may.2 heeded⟩
  | waitpid wanted =>
    cases done
    unfold waitpid
    simp only
    split
    next child found =>
      have listed := mem_of_find?_eq_some found
      rw [coherent.listed_zombies] at listed
      exact ⟨_, _, coherent.dropZombie listed⟩
    · exact ⟨_, _, coherent⟩

/-- In every run in which the reaper is done with a process only if its parent will wait for it, the
lists are right in every state.
-/
theorem State.Coherent.wellListed {calls : List Call} {states : List State}
    (coherent : s.Coherent running zombies) (run : trace State.step s calls = some states)
    (heeded : AllSafe State.step Heeded s calls)
    : ∀ state ∈ states, state.WellListed := by
  intro state mem
  obtain ⟨running', zombies', kept⟩ := trace_forall
    (fun s => ∃ running zombies, s.Coherent running zombies)
    (fun ⟨_, _, kept⟩ done heeded => kept.step done heeded) ⟨_, _, coherent⟩ run heeded state mem
  exact ⟨running', zombies', kept.toLists⟩

/-- The kernel task with the reaper and the idle thread, and `/init`, which has the processor. -/
def booted (ignoresChildren : Bool) : State where
  links := ⟨fun process => if process = 1 then 2 else 0,
    fun process => if process = 1 then 2 else 1⟩
  processList := 1
  zombieList := 0
  allocated := [1, 2]
  proc := fun process =>
    if process = 1 then ⟨1, [11, 12], false, 0, false, false⟩
    else ⟨1, [21], false, 0, false, ignoresChildren⟩
  thread := fun thread => ⟨if thread = 21 then .running else .uninterrSleep, false, false, false⟩
  currentProcess := 2
  currentThread := 21
  kernelTask := 1
  initTask := 2
  idleTask := 12
  processReaper := 11
  toReap := 0
  schedulerLock := false

theorem booted_coherent (ignoresChildren : Bool) : (booted ignoresChildren).Coherent [1, 2] [] := by
  refine ⟨⟨⟨2, ?_⟩, .nil _, by decide, .refl _⟩, by simp [booted], ?_,
    fun busy => absurd rfl busy, ?_⟩
  · simp [booted]
  · simp [booted]
  · intro process inList is
    simp only [booted] at is
    split at is <;> cases is

/-- `/init` kills its child, and the reaper does its work. -/
def killChild : List Call :=
  [.fork 3 31, .effect (.cleanup 3), .schedule 9 fun _ => [], .schedule 9 fun _ => [],
    .destroyThread, .reap]

/-- The child becomes a zombie, and `/init` waits for it. -/
def waitForChild : List Call :=
  killChild ++ [.effect (.status 11 .uninterrSleep), .schedule 9 fun _ => [],
    .schedule 9 fun _ => [], .waitpid fun _ => true]

theorem wellListed_child_killed
    : ∃ states, trace step (booted false) waitForChild = some states
        ∧ ∀ state ∈ states, state.WellListed := by
  exact exists_of_isSome (by decide +kernel) fun _ run =>
    (booted_coherent false).wellListed run (by decide +kernel)

/-- With `SIGCHLD` ignored the child is taken off the list of processes when the list of zombies was
meant, and nobody finds it again.
-/
theorem ignored_child_lost
    : ∃ states, trace step (booted true) killChild = some states
        ∧ ¬ ∀ state ∈ states, state.WellListed := by
  refine ⟨_, rfl, fun all => ?_⟩
  obtain ⟨running, zombies, lists⟩ := all _ (mem_of_mem_getLast? (by rfl))
  have others : running = [2, 1] :=
    lists.processes.walk.unique ⟨rfl, by decide, rfl, by decide, rfl⟩
  have none := lists.dead.eq_zero_iff.mp rfl
  have isListed : 3 ∈ running ++ zombies := lists.allocated.mem_iff.mp (by decide)
  rw [others, none] at isListed
  exact absurd isListed (by decide)

end UnstableOS.Kernel.Scheduler
