import UnstableOS.Kernel.Scheduler.Lists

/-! How long a thread that can run waits for the processor.
Whatever is served goes to the end of its list, and the loops of `schedule` come to nothing behind
the waiting thread: the two lists are queues as in `Lib.RoundRobin`.
-/

namespace UnstableOS.Kernel.Scheduler

open Lib State List
open Function (update_apply update_of_ne update_self)

variable {s s' s'' : State} {running zombies : List ℕ} {process thread q x : ℕ}

-- A thread that waits

/-- The thread is not cancelled and has not ended. -/
def Thread.Intact (t : Thread) : Prop :=
  t.cancelAsync = false ∧ t.status ≠ .threadCleanup ∧ t.status ≠ .v86ThreadCleanup

instance (t : Thread) : Decidable t.Intact := inferInstanceAs (Decidable (_ ∧ _ ∧ _))

/-- (Ready s process thread running zombies) holds when the thread can run and its process is not
stopped, no process is being cleaned up and no thread is cancelled. The other fields say that a
thread is on one list only and that the idle thread is not an ordinary one.
-/
structure State.Ready (s : State) (process thread : ℕ) (running zombies : List ℕ) : Prop
    extends s.Coherent running zombies where
  member : process ∈ running
  waits : thread ∈ (s.proc process).threads
  runnable : (s.thread thread).status = .runnable
  going : (s.proc process).isStopped = false
  healthy : ∀ q ∈ running, (s.proc q).doCleanup = 0 ∧ (s.proc q).threads ≠ []
  intact : ∀ x, (s.thread x).Intact
  own : ∀ q ∈ running, thread ∈ (s.proc q).threads → q = process
  notIdle : thread ≠ s.idleTask
  currentOwn : (s.thread s.currentThread).status = .running →
    s.currentThread ∈ (s.proc s.currentProcess).threads

/-- What others may do: they sleep, wake, stop and go on, and take the lock of the scheduler, but
leave the thread and its process alone.
-/
def Effect.Harmless (process thread : ℕ) : Effect → Prop
  | .status x now => (x = thread → now = .runnable) ∧ now ≠ .running
      ∧ now ≠ .threadCleanup ∧ now ≠ .v86ThreadCleanup
  | .cancel _ async _ => async = false
  | .stopped q isStopped => q = process → isStopped = false
  | .cleanup _ => False
  | .critical _ _ | .sigchld _ _ | .lock _ => True

def Call.Harmless (process thread : ℕ) : Call → Prop
  | .schedule _ signals => ∀ n, ∀ effect ∈ signals n, effect.Harmless process thread
  | .effect change => change.Harmless process thread
  | .fork _ _ | .createThread _ | .waitpid _ => True
  | .destroyThread | .reap => False

def Call.isSchedule : Call → Bool
  | .schedule _ _ => true
  | _ => false

/-- (Course process thread bound s calls n) holds when the calls can be made one after the other
from s on, with at most that many processes on the list, and n of them are calls of `schedule` that
find the lock free. The calls of the others are to be possible; nothing is asked of `schedule` but
that its loop is not cut off before the end of the list.
-/
inductive Course (process thread bound : ℕ) : State → List Call → ℕ → Prop
  | done {s : State} (fits : (s.listed s.processList).length ≤ bound)
    : Course process thread bound s [] 0
  | schedule {s : State} {fuel signals rest n} (fits : (s.listed s.processList).length ≤ bound)
    (harmless : (Call.schedule fuel signals).Harmless process thread) (enough : bound ≤ fuel)
    (later : ∀ s', s.schedule fuel signals = some s' → Course process thread bound s' rest n)
    : Course process thread bound s (.schedule fuel signals :: rest)
        (if s.schedulerLock then n else n + 1)
  | other {s s' : State} {call rest n} (fits : (s.listed s.processList).length ≤ bound)
    (harmless : call.Harmless process thread) (others : call.isSchedule = false)
    (may : s.step call = some s') (later : Course process thread bound s' rest n)
    : Course process thread bound s (call :: rest) n

/-- The thread has been given the processor. -/
def State.Selected (s : State) (process thread : ℕ) : Prop :=
  s.currentProcess = process ∧ s.currentThread = thread ∧ (s.thread thread).status = .running

instance (s : State) (process thread : ℕ) : Decidable (s.Selected process thread) :=
  inferInstanceAs (Decidable (_ ∧ _ ∧ _))

/-- The calls return one after the other, until one of them selects the thread. -/
def State.SelectedBy (s : State) (calls : List Call) (process thread : ℕ) : Prop :=
  ∃ front states, front <+: calls ∧ trace State.step s front = some states
    ∧ ∃ state ∈ states, state.Selected process thread

theorem State.SelectedBy.cons {call calls} (done : s.step call = some s')
    (later : s'.SelectedBy calls process thread) : s.SelectedBy (call :: calls) process thread := by
  obtain ⟨front, states, isFront, run, state, mem, selected⟩ := later
  refine ⟨call :: front, s :: states, cons_prefix_cons.mpr ⟨rfl, isFront⟩, ?_, state,
    mem_cons_of_mem s mem, selected⟩
  simp only [trace, done, run, Option.map_some]

theorem Course.fits {bound calls n} (course : Course process thread bound s calls n)
    : (s.listed s.processList).length ≤ bound := by
  cases course with
  | done fits | schedule fits | other fits => exact fits

-- Steps that leave the thread waiting

/-- Statuses may change, but nothing that the waiting thread depends on. -/
structure State.Calm (process thread : ℕ) (s s' : State) : Prop extends s.Quiet s' where
  threads : ∀ q, (s'.proc q).threads = (s.proc q).threads
  cleanup : ∀ q, (s'.proc q).doCleanup = (s.proc q).doCleanup
  stopped : (s.proc process).isStopped = false → (s'.proc process).isStopped = false
  runnable : (s.thread thread).status = .runnable → (s'.thread thread).status = .runnable
  running : ∀ x, (s'.thread x).status = .running → (s.thread x).status = .running
  intact : ∀ x, (s.thread x).Intact → (s'.thread x).Intact
  currentThread : s'.currentThread = s.currentThread
  idleTask : s'.idleTask = s.idleTask

namespace State.Calm

theorem refl (s : State) : s.Calm process thread s :=
  ⟨.refl s, fun _ => rfl, fun _ => rfl, id, id, fun _ => id, fun _ => id, rfl, rfl⟩

theorem trans (first : s.Calm process thread s') (second : s'.Calm process thread s'')
    : s.Calm process thread s'' where
  toQuiet := first.toQuiet.trans second.toQuiet
  threads q := (second.threads q).trans (first.threads q)
  cleanup q := (second.cleanup q).trans (first.cleanup q)
  stopped := second.stopped ∘ first.stopped
  runnable := second.runnable ∘ first.runnable
  running x := first.running x ∘ second.running x
  intact x := second.intact x ∘ first.intact x
  currentThread := second.currentThread.trans first.currentThread
  idleTask := second.idleTask.trans first.idleTask

/-- A thread is stored with other fields. -/
theorem setThread {t}
    (runnable : x = thread → (s.thread thread).status = .runnable → t.status = .runnable)
    (running : t.status = .running → (s.thread x).status = .running)
    (intact : (s.thread x).Intact → t.Intact)
    : s.Calm process thread (s.setThread x t) := by
  have fields (y : ℕ) : (s.setThread x t).thread y = if y = x then t else s.thread y :=
    update_apply _ _ _ _
  refine ⟨.setThread s x t, fun _ => rfl, fun _ => rfl, id, fun can => ?_, fun y runs => ?_,
    fun y before => ?_, rfl, rfl⟩
  · rw [fields]
    split
    next same => exact runnable same.symm can
    · exact can
  · rw [fields] at runs
    split at runs
    next same => exact same ▸ running runs
    · exact runs
  · rw [fields]
    split
    next same => exact intact (same ▸ before)
    · exact before

theorem setStatus {status} (runnable : x = thread → status = .runnable)
    (ordinary : status ≠ .running ∧ status ≠ .threadCleanup ∧ status ≠ .v86ThreadCleanup)
    : s.Calm process thread (s.setStatus x status) :=
  setThread (fun same _ => runnable same) (fun runs => absurd runs ordinary.1)
    (fun before => ⟨before.1, ordinary.2⟩)

/-- A process is stored with another field than its threads and its state of cleanup. -/
theorem setProc {p} (threads : p.threads = (s.proc q).threads)
    (cleanup : p.doCleanup = (s.proc q).doCleanup)
    (stopped : q = process → (s.proc process).isStopped = false → p.isStopped = false)
    : s.Calm process thread (s.setProc q p) := by
  have fields (other : ℕ) : (s.setProc q p).proc other = if other = q then p else s.proc other :=
    update_apply _ _ _ _
  have quiet : s.Quiet (s.setProc q p) :=
    .setProc fun is => ⟨cleanup ▸ is, fun none => threads.trans none⟩
  refine ⟨quiet, fun other => ?_, fun other => ?_, fun going => ?_, id, fun _ => id, fun _ => id,
    rfl, rfl⟩
  · rw [fields]
    split
    next same => rw [same, threads]
    · rfl
  · rw [fields]
    split
    next same => rw [same, cleanup]
    · rfl
  · rw [fields]
    split
    next same => exact stopped same.symm going
    · exact going

theorem apply {effect} (harmless : effect.Harmless process thread)
    : s.Calm process thread (s.apply effect) := by
  cases effect with
  | status x status => exact setStatus harmless.1 harmless.2
  | critical x inside => exact setThread (fun same can => same ▸ can) id id
  | cancel x async wakes =>
    exact setThread (fun same can => same ▸ can) id (fun before => ⟨harmless, before.2⟩)
  | stopped q isStopped => exact setProc rfl rfl (fun same _ => harmless same)
  | cleanup q => exact harmless.elim
  | sigchld q ignored => exact setProc rfl rfl (fun same going => same ▸ going)
  | lock taken =>
    exact ⟨.apply s (.lock taken), fun _ => rfl, fun _ => rfl, id, id, fun _ => id, fun _ => id,
      rfl, rfl⟩

theorem deliver {signals} (harmless : ∀ effect ∈ signals, effect.Harmless process thread)
    : s.Calm process thread (s.deliver signals) := by
  induction signals generalizing s with
  | nil => exact refl s
  | cons effect rest ih =>
    obtain ⟨first, later⟩ := forall_mem_cons.mp harmless
    exact (apply first).trans (ih later)

theorem wakeDying (s : State) (q x : ℕ) : s.Calm process thread (s.wakeDying q x) := by
  unfold State.wakeDying
  split
  · exact setStatus (fun _ => rfl) (by decide)
  · exact refl s

end State.Calm

namespace State.Ready

section
variable (ready : s.Ready process thread running zombies)
include ready

theorem calm (calm : s.Calm process thread s')
    : s'.Ready process thread running zombies where
  toCoherent := ready.toCoherent.quiet calm.toQuiet
  member := ready.member
  waits := by
    rw [calm.threads]
    exact ready.waits
  runnable := calm.runnable ready.runnable
  going := calm.stopped ready.going
  healthy := by
    intro q inList
    rw [calm.cleanup, calm.threads]
    exact ready.healthy q inList
  intact x := calm.intact x (ready.intact x)
  own := by
    intro q inList has
    rw [calm.threads] at has
    exact ready.own q inList has
  notIdle := by
    rw [calm.idleTask]
    exact ready.notIdle
  currentOwn := by
    rw [calm.currentThread, calm.currentProcess, calm.threads]
    exact fun runs => ready.currentOwn (calm.running _ runs)

-- Moving to the end of a list

theorem pushProcessToEnd (inList : q ∈ running)
    : (s.pushProcessToEnd q).Ready process thread (toEnd running q) zombies := by
  have coherent := ready.toCoherent.pushProcessToEnd inList
  obtain ⟨links, list, frame⟩ := s.pushProcessToEnd_frame q
  rw [frame] at coherent ⊢
  exact { ready with
    toCoherent := coherent
    member := (mem_toEnd inList).mpr ready.member
    healthy := fun other inside => ready.healthy other ((mem_toEnd inList).mp inside)
    own := fun other inside => ready.own other ((mem_toEnd inList).mp inside) }

theorem pushThreadToEnd (inList : q ∈ running) (has : x ∈ (s.proc q).threads)
    : (s.pushThreadToEnd q x).Ready process thread running zombies := by
  have alive : (s.proc q).doCleanup ≠ 3 := by
    rw [(ready.healthy q inList).1]
    decide
  have coherent := ready.toCoherent.quiet (.threads alive (toEnd (s.proc q).threads x))
  have fields (other : ℕ) : (s.pushThreadToEnd q x).proc other
      = if other = q then { s.proc q with threads := toEnd (s.proc q).threads x }
        else s.proc other :=
    update_apply _ _ _ _
  have inThreads (other y : ℕ)
      : y ∈ ((s.pushThreadToEnd q x).proc other).threads ↔ y ∈ (s.proc other).threads := by
    rw [fields]
    split
    next same =>
      rw [same]
      exact mem_toEnd has
    · rfl
  refine ⟨coherent, ready.member, (inThreads _ _).mpr ready.waits, ready.runnable, ?_,
    fun other inside => ⟨?_, ?_⟩, ready.intact,
    fun other inside owns => ready.own other inside ((inThreads _ _).mp owns), ready.notIdle,
    fun runs => (inThreads _ _).mpr (ready.currentOwn runs)⟩
  · rw [fields]
    split
    next same => exact same ▸ ready.going
    · exact ready.going
  · rw [fields]
    split
    next same => exact same ▸ (ready.healthy other inside).1
    · exact (ready.healthy other inside).1
  · obtain ⟨y, mem⟩ := exists_mem_of_ne_nil _ (ready.healthy other inside).2
    exact ne_nil_of_mem ((inThreads other y).mpr mem)

/-- The place of the waiting thread after another one went to the end. -/
theorem idxOf_pushThreadToEnd (other : thread ≠ x)
    : ((s.pushThreadToEnd q x).proc process).threads.idxOf thread
        ≤ (s.proc process).threads.idxOf thread := by
  by_cases same : process = q
  · subst same
    simp only [State.pushThreadToEnd, setProc, update_self]
    exact idxOf_toEnd_le ready.waits other
  · simp only [State.pushThreadToEnd, setProc, update_of_ne same]
    exact Nat.le_refl _

/-- What becomes of the thread that has run. -/
theorem putBack
    : s.putBack.Ready process thread (toEnd running s.currentProcess) zombies
        ∧ (s.putBack.proc process).threads.idxOf thread
          ≤ (s.proc process).threads.idxOf thread := by
  have real := ready.processes.ne_zero ready.current
  have pushed := ready.pushProcessToEnd ready.current
  obtain ⟨links, list, frame⟩ := s.pushProcessToEnd_frame s.currentProcess
  unfold State.putBack
  rw [if_pos real]
  simp only
  split
  next runs =>
    have other : thread ≠ (s.pushProcessToEnd s.currentProcess).currentThread := by
      rintro same
      have isRunning := runs.2.2
      rw [← same, pushed.runnable] at isRunning
      cases isRunning
    have woken : (s.pushProcessToEnd s.currentProcess).Calm process thread
        ((s.pushProcessToEnd s.currentProcess).setStatus
          (s.pushProcessToEnd s.currentProcess).currentThread .runnable) :=
      .setStatus (fun _ => rfl) (by decide)
    have marked := pushed.calm woken
    refine ⟨marked.pushThreadToEnd pushed.current (pushed.currentOwn runs.2.2), ?_⟩
    refine Nat.le_trans (marked.idxOf_pushThreadToEnd other) ?_
    rw [frame]
    exact Nat.le_refl _
  · refine ⟨pushed, Nat.le_of_eq ?_⟩
    rw [frame]

end

end State.Ready

-- The loops of schedule()

/-- The state after a thread was switched to. -/
def State.chosen (s : State) (q x : ℕ) : State :=
  { ((s.pushProcessToEnd q).pushThreadToEnd q x).setStatus x .running with
    currentProcess := q, currentThread := x }

attribute [local simp] setStatus setThread

theorem State.switchTo_eq (kept : (s.thread x).cancelAsync = false)
    : s.switchTo q x = .switches (s.chosen q x) := by
  have commute : (s.setStatus x .running).pushProcessToEnd q
      = (s.pushProcessToEnd q).setStatus x .running := by
    unfold pushProcessToEnd
    split <;> split <;> first | rfl | contradiction
  obtain ⟨links, list, frame⟩ := s.pushProcessToEnd_frame q
  unfold switchTo
  simp only [commute]
  rw [if_neg]
  · rfl
  · rw [frame]
    simp [pushThreadToEnd, setProc, kept]

namespace State.Ready

/-- Another thread is switched to. -/
theorem chosen (ready : s.Ready process thread running zombies) (inList : q ∈ running)
    (has : x ∈ (s.proc q).threads) (other : x ≠ thread)
    : (s.chosen q x).Ready process thread (toEnd running q) zombies := by
  have pushed := ready.pushProcessToEnd inList
  have inside := (mem_toEnd inList).mpr inList
  obtain ⟨links, list, frame⟩ := s.pushProcessToEnd_frame q
  have stillHas : x ∈ ((s.pushProcessToEnd q).proc q).threads := by
    rw [frame]
    exact has
  have turned := pushed.pushThreadToEnd inside stillHas
  obtain ⟨turn, turn_eq⟩ : ∃ turn, turn = (s.pushProcessToEnd q).pushThreadToEnd q x := ⟨_, rfl⟩
  rw [← turn_eq] at turned
  have owns : x ∈ (turn.proc q).threads := by
    rw [turn_eq]
    simp only [State.pushThreadToEnd, setProc, update_self]
    exact (mem_toEnd stillHas).mpr stillHas
  have alive : (turn.proc q).doCleanup ≠ 3 := by
    rw [(turned.healthy q inside).1]
    decide
  have marked := turned.toCoherent.quiet (.setStatus turn x .running)
  have fields (y : ℕ) : (turn.setStatus x .running).thread y
      = if y = x then { turn.thread x with status := .running } else turn.thread y :=
    update_apply _ _ _ _
  unfold State.chosen
  rw [← turn_eq]
  refine ⟨marked.switched inside alive x, turned.member, turned.waits, ?_, turned.going,
    turned.healthy, fun y => ?_, turned.own, turned.notIdle, fun _ => owns⟩
  · simp only [fields, if_neg other.symm]
    exact turned.runnable
  · simp only [fields]
    split
    · exact ⟨(turned.intact x).1, by simp⟩
    · exact turned.intact y

theorem threads_chosen (s : State) (process q x : ℕ)
    : ((s.chosen q x).proc process).threads
        = if process = q then toEnd (s.proc process).threads x else (s.proc process).threads := by
  obtain ⟨links, list, frame⟩ := s.pushProcessToEnd_frame q
  unfold State.chosen
  rw [frame]
  split
  next same =>
    subst same
    simp [State.pushThreadToEnd, setProc]
  next other => simp [State.pushThreadToEnd, setProc, other]

section
variable (ready : s.Ready process thread running zombies)
include ready

/-- Each thread is switched to, or the loop goes on and it was not the waiting one. -/
theorem checkThread (inList : q ∈ running) (has : x ∈ (s.proc q).threads) (signals : List Effect)
    : (∃ s', s.checkThread signals q x = .goesOn s' ∧ s.Calm process thread s' ∧ x ≠ thread)
      ∨ s.checkThread signals q x = .switches (s.chosen q x) := by
  by_cases same : x = thread
  · obtain rfl := same
    obtain rfl := ready.own q inList has
    right
    unfold checkThread
    rw [if_neg ready.notIdle, ready.runnable]
    simp only [ready.going, Bool.false_eq_true, false_and, if_false]
    exact switchTo_eq (ready.intact x).1
  · have unchanged : s.Calm process thread s := .refl s
    unfold State.checkThread
    iterate 2
      split
      · exact .inl ⟨s, rfl, unchanged, same⟩
    · exact .inl ⟨s, rfl, unchanged, same⟩
    · exact .inl ⟨s, rfl, unchanged, same⟩
    · split
      · exact .inl ⟨s, rfl, unchanged, same⟩
      · exact .inr (switchTo_eq (ready.intact x).1)
    · refine .inl ⟨_, rfl, ?_, same⟩
      split
      · exact (Calm.setStatus (fun _ => rfl) (by decide)).trans (.wakeDying _ _ _)
      · exact .wakeDying _ _ _
    · exact .inl ⟨_, rfl, .wakeDying _ _ _, same⟩
    next ended => exact absurd ended (ready.intact x).2.2
    next ended => exact absurd ended (ready.intact x).2.1

variable {rest front : List ℕ} {signals : ℕ → List Effect} {fuel bound : ℕ}

/-- The loop over the threads of a process stops at the first that can be switched to, at the
waiting one at the latest.
-/
theorem checkThreads (inList : q ∈ running)
    (signals : List Effect) (has : ∀ x ∈ rest, x ∈ (s.proc q).threads)
    : (∃ s', s.checkThreads signals q rest = .goesOn s' ∧ s.Calm process thread s'
        ∧ thread ∉ rest)
      ∨ ∃ s' x, s.checkThreads signals q rest = .switches (s'.chosen q x)
        ∧ s.Calm process thread s' ∧ x ∈ rest ∧ rest.idxOf x ≤ rest.idxOf thread := by
  induction rest generalizing s with
  | nil => exact .inl ⟨s, rfl, .refl s, not_mem_nil⟩
  | cons x rest ih =>
    rcases ready.checkThread inList (has x mem_cons_self) signals with
      ⟨s', goesOn, calm, other⟩ | switches
    · have later : ∀ y ∈ rest, y ∈ (s'.proc q).threads := by
        intro y mem
        rw [calm.threads]
        exact has y (mem_cons_of_mem x mem)
      have unfolded : s.checkThreads signals q (x :: rest) = s'.checkThreads signals q rest := by
        rw [checkThreads, goesOn]
      rw [unfolded]
      rcases ih (ready.calm calm) later with
        ⟨s'', on, more, absent⟩ | ⟨s'', y, picks, more, mem, before⟩
      · refine .inl ⟨s'', on, calm.trans more, ?_⟩
        exact not_mem_cons_of_ne_of_not_mem other.symm absent
      · exact .inr ⟨s'', y, picks, calm.trans more, mem_cons_of_mem x mem,
          idxOf_cons_le other before⟩
    · refine .inr ⟨s, x, ?_, .refl s, mem_cons_self, idxOf_head_le _ _ _⟩
      rw [checkThreads, switches]

/-- The same for a process. -/
theorem checkProcess (inList : q ∈ running)
    {signals} (harmless : ∀ effect ∈ signals, effect.Harmless process thread)
    : (∃ s', s.checkProcess signals q = .goesOn s' ∧ s.Calm process thread s' ∧ q ≠ process)
      ∨ ∃ s' x, s.checkProcess signals q = .switches (s'.chosen q x)
        ∧ s.Calm process thread s' ∧ x ∈ (s.proc q).threads
        ∧ (s.proc q).threads.idxOf x ≤ (s.proc q).threads.idxOf thread := by
  have delivered : s.Calm process thread (s.deliver signals) := .deliver harmless
  have unfolded : s.checkProcess signals q
      = (s.deliver signals).checkThreads signals q (s.proc q).threads := by
    obtain ⟨clean, some⟩ := ready.healthy q inList
    rw [State.checkProcess, if_neg (by simp [clean, some])]
    simp [delivered.threads]
  rw [unfolded]
  rcases (ready.calm delivered).checkThreads inList signals
      (fun x mem => (delivered.threads q).symm ▸ mem) with
    ⟨s', on, calm, absent⟩ | ⟨s', x, picks, calm, mem, before⟩
  · refine .inl ⟨s', on, delivered.trans calm, ?_⟩
    rintro rfl
    exact absent ready.waits
  · exact .inr ⟨s', x, picks, delivered.trans calm, mem, before⟩

theorem onward (split : running = front ++ q :: rest) : s.links.next q = rest.headD 0 := by
  have walk := ready.processes.walk
  rw [split] at walk
  exact walk.next_eq

section
variable (harmless : ∀ n, ∀ effect ∈ signals n, effect.Harmless process thread)
include harmless

/-- The loop over the processes stops at the process of the waiting thread at the latest.
Witness: induction on the processes still to be visited.
-/
theorem scan (split : running = front ++ rest) (ahead : process ∈ rest)
    (enough : rest.length ≤ fuel)
    : ∃ s'' q x, scan signals fuel s (rest.headD 0) = some (s''.chosen q x)
        ∧ s.Calm process thread s'' ∧ q ∈ rest
        ∧ rest.idxOf q ≤ rest.idxOf process ∧ x ∈ (s.proc q).threads
        ∧ (s.proc q).threads.idxOf x ≤ (s.proc q).threads.idxOf thread := by
  induction rest generalizing s fuel front with
  | nil => cases ahead
  | cons q rest ih =>
    have inList : q ∈ running := by
      rw [split]
      exact mem_append_right _ mem_cons_self
    cases fuel with
    | zero => cases enough
    | succ fuel =>
      rw [scan, headD_cons, if_neg (ready.processes.ne_zero inList)]
      rcases ready.checkProcess inList (harmless fuel) with
        ⟨next, goesOn, calm, other⟩ | ⟨next, x, switches, calm, mem, before⟩
      · have still := ready.calm calm
        rw [goesOn]
        simp only [still.onward split]
        have later := (mem_cons.mp ahead).resolve_left other.symm
        obtain ⟨s'', r, x, result, more, inRest, order, has, place⟩ :=
          ih still (split.trans (append_cons _ _ _)) later (Nat.le_of_succ_le_succ enough)
        rw [calm.threads] at has place
        exact ⟨s'', r, x, result, calm.trans more, mem_cons_of_mem q inRest,
          idxOf_cons_le other order, has, place⟩
      · rw [switches]
        exact ⟨next, q, x, rfl, calm, mem_cons_self, idxOf_head_le _ _ _, mem, before⟩

/-- A call of `schedule` that finds the lock free returns. It selects the waiting thread, or brings
it one turn nearer.
-/
theorem schedule (fits : running.length ≤ bound) (enough : bound ≤ fuel)
    (unlocked : s.schedulerLock = false)
    : ∃ s', s.schedule fuel signals = some s' ∧ (s'.Selected process thread
      ∨ ∃ running', s'.Ready process thread running' zombies
        ∧ turns bound running' (s'.proc process).threads process thread
              (s'.currentProcess = process) + 1
            ≤ turns bound running (s.proc process).threads process thread
              (s.currentProcess = process)) := by
  have some : s.processList ≠ 0 := fun none =>
    ne_nil_of_mem ready.member (ready.processes.eq_zero_iff.mp none)
  obtain ⟨back, moved⟩ := ready.putBack
  have sameLength := (toEnd_perm ready.current).length_eq
  obtain ⟨s'', q, x, done, calm, inList, order, has, place⟩ :=
    back.scan harmless (nil_append _).symm back.member
      (Nat.le_trans (Nat.le_of_eq sameLength) (Nat.le_trans fits enough))
  rw [← back.processes.walk.head_eq] at done
  refine ⟨s''.chosen q x, ?_, ?_⟩
  · unfold State.schedule
    rw [if_neg (by simp [unlocked, some])]
    exact done
  have still := back.calm calm
  rw [← calm.threads] at has place
  have room := Nat.lt_of_lt_of_le (length_pos_of_mem ready.member) fits
  by_cases same : x = thread
  · left
    subst same
    obtain rfl := still.own q inList has
    refine ⟨rfl, rfl, ?_⟩
    simp [State.chosen]
  right
  refine ⟨_, still.chosen inList has same, ?_⟩
  rw [threads_chosen]
  have nearer : (s''.proc process).threads.idxOf thread
      ≤ (s.proc process).threads.idxOf thread := by
    rw [calm.threads]
    exact moved
  by_cases isSame : process = q
  · subst isSame
    rw [if_pos rfl]
    have before : (s''.proc process).threads.idxOf x < (s''.proc process).threads.idxOf thread := by
      refine Nat.lt_of_le_of_ne place fun equal => same ?_
      exact (idxOf_inj has).mp equal
    have turned := idxOf_toEnd_lt still.waits before
    have isCurrent : ((s''.chosen process x).currentProcess = process) = True := eq_self _
    simp only [isCurrent, decide_true]
    exact turns_same room _ (by omega)
  · rw [if_neg isSame]
    have notCurrent : ((s''.chosen q x).currentProcess = process) = False :=
      eq_false (Ne.symm isSame)
    simp only [notCurrent, decide_false]
    refine turns_other ready.apart.1 ready.member fits nearer ?_ ready.current
    refine Nat.lt_of_le_of_ne order fun equal => isSame ?_
    exact ((idxOf_inj inList).mp equal).symm

end

-- Runs

/-- The new process is behind the waiting one. -/
theorem fork (real : q ≠ 0) (fresh : q ∉ s.allocated) (freshThread : s.FreshThread x)
    : (s.fork q x).Ready process thread (running ++ [q]) zombies
        ∧ ((s.fork q x).proc process).threads = (s.proc process).threads := by
  have coherent := @State.Coherent.fork s running zombies q ready.toCoherent x real fresh
  have listed {r} (inList : r ∈ running) : r ∈ s.allocated :=
    ready.allocated.mem_iff.mpr (mem_append_left _ inList)
  have kept {r} (inList : r ∈ running) : (s.fork q x).proc r = s.proc r := by
    refine update_of_ne ?_ _ _
    rintro rfl
    exact fresh (listed inList)
  have child : (s.fork q x).proc q
      = { s.proc s.currentProcess with parent := s.currentProcess, threads := [x] } :=
    update_self _ _ _
  have otherThread : thread ≠ x := by
    rintro rfl
    exact freshThread.2.2 process (listed ready.member) ready.waits
  have fields (y : ℕ) : (s.fork q x).thread y
      = if y = x then
          { s.thread s.currentThread with inCriticalSection := false, status := .runnable }
        else s.thread y :=
    update_apply _ _ _ _
  refine ⟨⟨coherent, mem_append_left _ ready.member, ?_, ?_, ?_, ?_, ?_, ?_, ready.notIdle, ?_⟩,
    by rw [kept ready.member]⟩
  · rw [kept ready.member]
    exact ready.waits
  · rw [fields, if_neg otherThread]
    exact ready.runnable
  · rw [kept ready.member]
    exact ready.going
  · intro r inList
    rcases mem_append.mp inList with before | new
    · rw [kept before]
      exact ready.healthy r before
    · rw [mem_singleton.mp new, child]
      exact ⟨(ready.healthy _ ready.current).1, cons_ne_nil _ _⟩
  · intro y
    rw [fields]
    split
    · exact ⟨(ready.intact s.currentThread).1, by simp⟩
    · exact ready.intact y
  · intro r inList has
    rcases mem_append.mp inList with before | new
    · rw [kept before] at has
      exact ready.own r before has
    · rw [mem_singleton.mp new, child] at has
      exact absurd (mem_singleton.mp has) otherThread
  · intro runs
    have own : s.currentThread ∈ (s.proc s.currentProcess).threads := by
      apply ready.currentOwn
      have before := fields s.currentThread
      split at before
      · rw [show (s.fork q x).currentThread = s.currentThread from rfl, before] at runs
        cases runs
      · rw [← before]
        exact runs
    rw [show (s.fork q x).currentProcess = s.currentProcess from rfl, kept ready.current]
    exact own

/-- The new thread is behind the waiting one. -/
theorem createThread (freshThread : s.FreshThread x)
    : (s.createThread x).Ready process thread running zombies
        ∧ ((s.createThread x).proc process).threads.idxOf thread
          = (s.proc process).threads.idxOf thread := by
  have listed {r} (inList : r ∈ running) : r ∈ s.allocated :=
    ready.allocated.mem_iff.mpr (mem_append_left _ inList)
  have otherThread : thread ≠ x := by
    rintro rfl
    exact freshThread.2.2 process (listed ready.member) ready.waits
  have coherent := ready.toCoherent.quiet ((Quiet.threads ready.current_alive
    ((s.proc s.currentProcess).threads ++ [x])).trans
      (.setThread _ x ⟨.runnable, false, false, false⟩))
  have procs (r : ℕ) : (s.createThread x).proc r = if r = s.currentProcess then
          { s.proc s.currentProcess with threads := (s.proc s.currentProcess).threads ++ [x] }
        else s.proc r :=
    update_apply _ _ _ _
  have threads (r : ℕ) : ((s.createThread x).proc r).threads
      = (s.proc r).threads ++ if r = s.currentProcess then [x] else [] := by
    rw [procs]
    split
    next same => rw [same]
    · rw [append_nil]
  have fields (y : ℕ) : (s.createThread x).thread y
      = if y = x then ⟨.runnable, false, false, false⟩ else s.thread y :=
    update_apply _ _ _ _
  refine ⟨⟨coherent, ready.member, ?_, ?_, ?_, ?_, ?_, ?_, ready.notIdle, ?_⟩, ?_⟩
  · rw [threads]
    exact mem_append_left _ ready.waits
  · rw [fields, if_neg otherThread]
    exact ready.runnable
  · rw [procs]
    split
    next same => exact same ▸ ready.going
    · exact ready.going
  · intro r inList
    refine ⟨?_, ?_⟩
    · rw [procs]
      split
      next same => exact same ▸ (ready.healthy r inList).1
      · exact (ready.healthy r inList).1
    · rw [threads]
      exact append_ne_nil_of_left_ne_nil (ready.healthy r inList).2 _
  · intro y
    rw [fields]
    split
    · exact ⟨rfl, by simp⟩
    · exact ready.intact y
  · intro r inList has
    rw [threads] at has
    rcases mem_append.mp has with before | new
    · exact ready.own r inList before
    · split at new
      · exact absurd (mem_singleton.mp new) otherThread
      · cases new
  · intro runs
    have before := fields s.currentThread
    rw [threads]
    apply mem_append_left
    apply ready.currentOwn
    split at before
    · rw [show (s.createThread x).currentThread = s.currentThread from rfl, before] at runs
      cases runs
    · rw [← before]
      exact runs
  · rw [threads, idxOf_append_of_mem ready.waits]

theorem waitpid (wanted : ℕ → Bool)
    : ∃ zombies', (s.waitpid wanted).Ready process thread running zombies'
        ∧ (s.waitpid wanted).proc = s.proc
        ∧ (s.waitpid wanted).currentProcess = s.currentProcess := by
  unfold State.waitpid
  simp only
  split
  next child found =>
    have listed := mem_of_find?_eq_some found
    rw [ready.listed_zombies] at listed
    have coherent := ready.toCoherent.dropZombie listed
    exact ⟨_, { ready with toCoherent := coherent }, rfl, rfl⟩
  · exact ⟨_, ready, rfl, rfl⟩

/-- A step of the others leaves the thread waiting, and no further from its turn. -/
theorem step {call} (done : s.step call = some s') (harmless : call.Harmless process thread)
    (others : call.isSchedule = false)
    : ∃ running' zombies', s'.Ready process thread running' zombies'
        ∧ turns bound running' (s'.proc process).threads process thread
              (s'.currentProcess = process)
            ≤ turns bound running (s.proc process).threads process thread
              (s.currentProcess = process) := by
  cases call with
  | schedule fuel signals => cases others
  | effect effect =>
    cases done
    have calm : s.Calm process thread (s.apply effect) := .apply harmless
    refine ⟨running, zombies, ready.calm calm, Nat.le_of_eq ?_⟩
    rw [calm.threads, calm.currentProcess]
  | fork q x =>
    obtain ⟨may, rfl⟩ := guarded done
    obtain ⟨still, same⟩ := ready.fork may.1 may.2.1 may.2.2.1
    refine ⟨_, _, still, ?_⟩
    rw [same]
    unfold turns
    rw [idxOf_append_of_mem ready.member]
    exact Nat.le_refl _
  | createThread x =>
    obtain ⟨fresh, rfl⟩ := guarded done
    obtain ⟨still, same⟩ := ready.createThread fresh
    refine ⟨_, _, still, ?_⟩
    unfold turns
    rw [same]
    exact Nat.le_refl _
  | waitpid wanted =>
    cases done
    obtain ⟨zombies', still, same, current⟩ := ready.waitpid wanted
    refine ⟨_, _, still, Nat.le_of_eq ?_⟩
    rw [same, current]
  | destroyThread | reap => exact harmless.elim

/-- `schedule` returns, whether the lock is taken or not. -/
theorem schedule_returns (harmless : ∀ n, ∀ effect ∈ signals n, effect.Harmless process thread)
    (enough : running.length ≤ fuel)
    : ∃ s', s.schedule fuel signals = some s' := by
  cases lock : s.schedulerLock with
  | true => exact ⟨s, by simp [State.schedule, lock]⟩
  | false =>
    obtain ⟨s', done, _⟩ := ready.schedule harmless (Nat.le_refl _) enough lock
    exact ⟨s', done⟩

/-- Witness: induction on the calls; the turns left bound the calls of `schedule` to come that find
the lock free.
-/
theorem selected_of_turns {calls n} (course : Course process thread bound s calls n)
    (enough : turns bound running (s.proc process).threads process thread
        (s.currentProcess = process) ≤ n)
    : s.SelectedBy calls process thread := by
  induction course generalizing running zombies with
  | done fits =>
    rw [ready.listed_processes] at fits
    have room := Nat.lt_of_lt_of_le (length_pos_of_mem ready.member) fits
    exact absurd (turns_pos room _) (Nat.not_lt.mpr enough)
  | @schedule s fuel signals rest n fits harmless bounded later ih =>
    rw [ready.listed_processes] at fits
    cases lock : s.schedulerLock with
    | true =>
      have same : s.schedule fuel signals = some s := by simp [State.schedule, lock]
      rw [lock, if_pos rfl] at enough
      exact .cons (show s.step (.schedule fuel signals) = some s from same)
        (ih s same ready enough)
    | false =>
      obtain ⟨s', done, selected | ⟨running', still, nearer⟩⟩ :=
        ready.schedule harmless fits bounded lock
      · exact .cons (show s.step (.schedule fuel signals) = some s' from done)
          ⟨[], [s'], nil_prefix, rfl, s', mem_singleton_self s', selected⟩
      · rw [lock, if_neg Bool.false_ne_true] at enough
        exact .cons (show s.step (.schedule fuel signals) = some s' from done)
          (ih s' done still (by omega))
  | other fits harmless others may later ih =>
    obtain ⟨running', zombies', still, nearer⟩ := ready.step may harmless others
    exact .cons may (ih still (Nat.le_trans nearer enough))

end

/-- A thread that can run is selected by one of as many calls of `schedule` as its process has
threads, times the greatest number of processes meanwhile. Only calls that find the lock free count.
-/
theorem selected_within {calls : List Call} {bound n : ℕ}
    (ready : s.Ready process thread running zombies)
    (course : Course process thread bound s calls n)
    (enough : bound * (s.proc process).threads.length ≤ n)
    : s.SelectedBy calls process thread := by
  have fits := course.fits
  rw [ready.listed_processes] at fits
  exact ready.selected_of_turns course
    (Nat.le_trans (turns_le ready.member ready.waits fits _) enough)

end State.Ready

/-- The processor is idle, and both threads of `/init` can run. -/
def twoThreads : State where
  links :=
    ⟨fun process => if process = 1 then 2 else 0, fun process => if process = 1 then 2 else 1⟩
  processList := 1
  zombieList := 0
  allocated := [1, 2]
  proc := fun process =>
    if process = 1 then ⟨1, [11, 12], false, 0, false, false⟩
    else ⟨1, [21, 22], false, 0, false, false⟩
  thread := fun thread => ⟨if thread ≤ 12 then .uninterrSleep else .runnable, false, false, false⟩
  currentProcess := 1
  currentThread := 12
  kernelTask := 1
  initTask := 2
  idleTask := 12
  processReaper := 11
  toReap := 0
  schedulerLock := false

theorem twoThreads_ready : twoThreads.Ready 2 22 [1, 2] [] := by
  refine ⟨⟨⟨⟨2, ?_⟩, .nil _, by decide, .refl _⟩, by decide, by decide,
    fun busy => absurd rfl busy, by decide⟩, by decide, by decide, by decide, by decide, by decide,
    fun x => ?_, by decide, by decide, by decide⟩
  · simp [twoThreads]
  · refine ⟨rfl, ?_⟩
    simp only [twoThreads]
    split <;> simp

/-- The lock is taken after the first call, and the second one finds it taken. -/
def lockTaken : List Call :=
  [.schedule 2 fun _ => [], .effect (.lock true), .schedule 2 fun _ => [], .effect (.lock false),
    .schedule 2 fun _ => [], .schedule 2 fun _ => [], .schedule 2 fun _ => []]

/-- Without new processes the second thread gets its turn within the four calls that find the lock
free.
-/
theorem selected_within_four : twoThreads.SelectedBy lockTaken 2 22 := by
  have quiet : (Call.schedule 2 fun _ => []).Harmless 2 22 := fun _ _ none =>
    absurd none not_mem_nil
  have turn {s : State} {rest n m} (fits : (s.listed s.processList).length ≤ 2)
      (returns : (s.schedule 2 fun _ => []).isSome)
      (count : (if s.schedulerLock then n else n + 1) = m)
      (later : Course 2 22 2 ((s.schedule 2 fun _ => []).get returns) rest n)
      : Course 2 22 2 s (.schedule 2 (fun _ => []) :: rest) m :=
    count ▸ .schedule fits quiet (Nat.le_refl _) fun s' done =>
      Option.get_of_eq_some returns done ▸ later
  have course : Course 2 22 2 twoThreads lockTaken 4 := by
    apply turn (n := 3) (by decide +kernel) (by decide +kernel) (by decide +kernel)
    refine .other (by decide +kernel) trivial rfl rfl ?_
    apply turn (n := 3) (by decide +kernel) (by decide +kernel) (by decide +kernel)
    refine .other (by decide +kernel) trivial rfl rfl ?_
    apply turn (n := 2) (by decide +kernel) (by decide +kernel) (by decide +kernel)
    apply turn (n := 1) (by decide +kernel) (by decide +kernel) (by decide +kernel)
    apply turn (n := 0) (by decide +kernel) (by decide +kernel) (by decide +kernel)
    exact .done (by decide +kernel)
  exact twoThreads_ready.selected_within course (by decide)

/-- The first thread of `/init` starts three processes when it has the processor. -/
def forking : List Call :=
  [.schedule 3 fun _ => [], .fork 3 31, .fork 4 41, .fork 5 51, .schedule 9 fun _ => [],
    .schedule 9 fun _ => [], .schedule 9 fun _ => []]

/-- The new processes all come before the second thread, which is not among the four threads that
are selected.
-/
theorem forks_delay
    : twoThreads.Ready 2 22 [1, 2] [] ∧ (∀ call ∈ forking, call.Harmless 2 22)
        ∧ [1, 2].length * (twoThreads.proc 2).threads.length ≤ forking.countP Call.isSchedule
        ∧ ∃ states, trace step twoThreads forking = some states
          ∧ ∀ state ∈ states, state.schedulerLock = false ∧ ¬ state.Selected 2 22 := by
  refine ⟨twoThreads_ready, by simp [forking, Call.Harmless], by decide, ?_⟩
  obtain ⟨states, run⟩ := Option.isSome_iff_exists.mp
    (show (trace step twoThreads forking).isSome by decide +kernel)
  have others : (trace step twoThreads forking).all
      fun states => states.all fun state =>
        decide (state.schedulerLock = false ∧ ¬ state.Selected 2 22) := by
    decide +kernel
  simp only [run, Option.all_some, all_eq_true, decide_eq_true_eq] at others
  exact ⟨states, run, others⟩

end UnstableOS.Kernel.Scheduler
