import UnstableOS.Kernel.Futex
import UnstableOS.Lib.Trace
import Mathlib.Algebra.Order.BigOperators.Group.List
import Mathlib.Algebra.Order.Ring.Nat

/-! `pthread_once` (`pthread_once.c`) under every interleaving of its atomic steps.
Each step of a thread is one access to the control word or one futex call. Threads are not
cancelled.
-/

namespace UnstableOS.Pthread.Once

open Lib Kernel.Futex Function Prod

-- The steps

/-- The values of the control word. -/
inductive Control where
  | uninitialized
  | running
  | contended
  | initialized
deriving DecidableEq

/-- Where a thread is, named by the step it takes next. In `asleep` it waits in `FUTEX_WAIT`, or
has been woken and returns from it.
-/
inductive Place where
  | outside
  | load
  | claim
  | call
  | routine
  | publish
  | wake
  | contend
  | wait
  | asleep
deriving DecidableEq

/-- The control word, the threads, and what has happened: how often the routine was started, whether
it has finished, and how many calls have returned.
-/
structure State where
  control : Control
  place : Tid → Place
  waits : Waits Unit
  starts : ℕ
  finished : Bool
  returns : ℕ

/-- A thread takes its next step, or is woken by a signal. -/
inductive Event where
  | step (thread : Tid)
  | signal (thread : Tid)

namespace State

def goto (s : State) (thread : Tid) (place : Place) : State :=
  { s with place := update s.place thread place }

/-- The call returns. -/
def leave (s : State) (thread : Tid) : State :=
  { s.goto thread .outside with returns := s.returns + 1 }

/-- The next step of a thread; a thread that waits has none. -/
def step (threads : Threads) (s : State) (thread : Tid) : Option State :=
  match s.place thread with
  | .outside => some (s.goto thread .load)
  | .load =>
    if s.control = .initialized then some (s.leave thread) else some (s.goto thread .claim)
  | .claim =>
    match s.control with
    | .uninitialized => some { s.goto thread .call with control := .running }
    | .initialized => some (s.leave thread)
    | .running => some (s.goto thread .contend)
    | .contended => some (s.goto thread .wait)
  | .call => some { s.goto thread .routine with starts := s.starts + 1 }
  | .routine => some { s.goto thread .publish with finished := true }
  | .publish =>
    if s.control = .contended then some { s.goto thread .wake with control := .initialized }
    else some { s.leave thread with control := .initialized }
  | .wake => some { s.leave thread with waits := futexWake threads s.waits () (-1) }
  | .contend =>
    let control := if s.control = .running then .contended else s.control
    some { s.goto thread .wait with control := control }
  | .wait =>
    match futexWait threads s.waits thread () s.control .contended with
    | .ok waits => some { s.goto thread .asleep with waits := waits }
    | .error _ => some (s.goto thread .claim)
  | .asleep => if s.waits thread = none then some (s.goto thread .claim) else none

def perform (threads : Threads) (s : State) : Event → Option State
  | .step thread => if thread ∈ threads.list then s.step threads thread else none
  | .signal thread => some { s with waits := update s.waits thread none }

/-- No thread has called yet. -/
def initial : State := ⟨.uninitialized, fun _ => .outside, fun _ => none, 0, false, 0⟩

-- The property

/-- A thread waits in `FUTEX_WAIT`. -/
def Blocked (s : State) (thread : Tid) : Prop := s.waits thread ≠ none

/-- (Correct s) holds when the routine was started at most once, it was started and has finished if
a call has returned, and a thread that waits when the control word says `INITIALIZED` has a
wake-up coming.
-/
structure Correct (s : State) : Prop where
  once : s.starts ≤ 1
  finished : 0 < s.returns → s.starts = 1 ∧ s.finished = true
  woken : s.control = .initialized → ∀ thread, s.Blocked thread → ∃ waker, s.place waker = .wake

end State

-- The invariant

/-- The places of the thread that runs the routine. -/
def Place.runs : Place → Bool
  | .call | .routine | .publish => true
  | _ => false

/-- What has happened when the running thread is at a place. -/
def Place.history : Place → ℕ × Bool
  | .call => (0, false)
  | .routine => (1, false)
  | _ => (1, true)

/-- (Sound threads s) holds when one thread runs the routine while the control word says so, nobody
runs it before and afterwards, and threads wait only when the word says that they do or a wake-up
is coming.
-/
structure Sound (threads : Threads) (s : State) : Prop where
  fresh : s.control = .uninitialized → (∀ thread, (s.place thread).runs = false)
      ∧ s.starts = 0 ∧ s.finished = false ∧ s.returns = 0
  running : s.control = .running ∨ s.control = .contended → ∃ runner, (s.place runner).runs = true
      ∧ (∀ thread, (s.place thread).runs = true → thread = runner)
      ∧ (s.starts, s.finished) = (s.place runner).history ∧ s.returns = 0
  done : s.control = .initialized →
    (∀ thread, (s.place thread).runs = false) ∧ s.starts = 1 ∧ s.finished = true
  wakers : ∀ thread, s.place thread = .wake → s.control = .initialized
  listed : ∀ thread, s.waits thread ≠ none → thread ∈ threads.list
  waiting : ∀ thread, s.waits thread ≠ none →
    s.control = .contended ∨ s.control = .initialized ∧ ∃ waker, s.place waker = .wake

namespace Sound

variable {threads : Threads} {s s' : State} {thread : Tid}

theorem init (threads : Threads) : Sound threads .initial where
  fresh _ := ⟨fun _ => rfl, rfl, rfl, rfl⟩
  running word := by rcases word with word | word <;> cases word
  done word := nomatch word
  wakers _ at_wake := nomatch at_wake
  listed _ waits := absurd rfl waits
  waiting _ waits := absurd rfl waits

theorem busy_correct (sound : Sound threads s)
    (word : s.control = .running ∨ s.control = .contended)
    : s.Correct := by
  obtain ⟨runner, _, _, history, returns⟩ := sound.running word
  refine ⟨?_, fun returned => absurd returned (by omega), fun other => ?_⟩
  · rw [show s.starts = (s.place runner).history.1 from congrArg fst history]
    cases s.place runner <;> decide
  · rcases word with word | word <;> exact nomatch word.symm.trans other

theorem correct (sound : Sound threads s) : s.Correct := by
  cases word : s.control with
  | uninitialized =>
    obtain ⟨_, starts, _, returns⟩ := sound.fresh word
    exact ⟨by omega, by omega, fun other => nomatch word.symm.trans other⟩
  | running => exact sound.busy_correct (.inl word)
  | contended => exact sound.busy_correct (.inr word)
  | initialized =>
    obtain ⟨_, starts, finished⟩ := sound.done word
    refine ⟨Nat.le_of_eq starts, fun _ => ⟨starts, finished⟩, fun _ other blocked => ?_⟩
    rcases sound.waiting other blocked with contended | ⟨_, waker⟩
    · exact nomatch word.symm.trans contended
    · exact waker

/-- The thread that runs the routine is the only one at such a place. -/
theorem runner_eq (sound : Sound threads s) (runs : (s.place thread).runs = true)
    : (s.control = .running ∨ s.control = .contended)
        ∧ (∀ other, (s.place other).runs = true → other = thread)
        ∧ (s.starts, s.finished) = (s.place thread).history ∧ s.returns = 0 := by
  have busy : s.control = .running ∨ s.control = .contended := by
    cases word : s.control with
    | uninitialized => exact nomatch runs.symm.trans ((sound.fresh word).1 thread)
    | initialized => exact nomatch runs.symm.trans ((sound.done word).1 thread)
    | running => exact .inl rfl
    | contended => exact .inr rfl
  obtain ⟨runner, _, only, history, returns⟩ := sound.running busy
  cases only thread runs
  exact ⟨busy, only, history, returns⟩

-- The steps keep it

section Moves
variable {place : Place}

theorem runs_goto (other : Tid) (same : place.runs = (s.place thread).runs)
    : ((s.goto thread place).place other).runs = (s.place other).runs := by
  by_cases equal : other = thread
  · rw [equal]
    exact (congrArg Place.runs (update_self ..)).trans same
  · exact congrArg Place.runs (update_of_ne equal ..)

section
variable (sound : Sound threads s)
include sound

/-- A thread that neither runs the routine nor is about to wake others moves on. -/
theorem goto (idle : (s.place thread).runs = false)
    (notWaker : s.place thread ≠ .wake) (idleNext : place.runs = false) (notWakes : place ≠ .wake)
    : Sound threads (s.goto thread place) := by
  have runs (other : Tid) := runs_goto (s := s) other (idleNext.trans idle.symm)
  have kept {other} (differs : other ≠ thread)
      : (s.goto thread place).place other = s.place other := update_of_ne differs ..
  refine ⟨fun word => ?_, fun word => ?_, fun word => ?_, fun other isWaker => ?_, sound.listed,
    fun other waits => ?_⟩
  · obtain ⟨none, facts⟩ := sound.fresh word
    exact ⟨fun other => (runs other).trans (none other), facts⟩
  · obtain ⟨runner, isRunner, only, history, returns⟩ := sound.running word
    have differs : runner ≠ thread := fun same => nomatch (same ▸ isRunner).symm.trans idle
    refine ⟨runner, (runs runner).trans isRunner, fun other => ?_, ?_, returns⟩
    · rw [runs other]
      exact only other
    · rw [kept differs]
      exact history
  · obtain ⟨none, facts⟩ := sound.done word
    exact ⟨fun other => (runs other).trans (none other), facts⟩
  · by_cases same : other = thread
    · rw [same, show (s.goto thread place).place thread = place from update_self ..] at isWaker
      exact absurd isWaker notWakes
    · exact sound.wakers other ((kept same).symm.trans isWaker)
  · rcases sound.waiting other waits with contended | ⟨word, waker, isWaker⟩
    · exact .inl contended
    · have differs : waker ≠ thread := fun same => notWaker (same ▸ isWaker)
      exact .inr ⟨word, waker, (kept differs).trans isWaker⟩

theorem leave (word : s.control = .initialized) (notWaker : s.place thread ≠ .wake)
    : Sound threads (s.leave thread) := by
  have moved : Sound threads (s.goto thread .outside) :=
    sound.goto ((sound.done word).1 thread) notWaker rfl nofun
  refine ⟨fun other => ?_, fun other => ?_, moved.done, moved.wakers, moved.listed, moved.waiting⟩
  · exact nomatch word.symm.trans other
  · rcases other with other | other <;> exact nomatch word.symm.trans other

/-- The thread that runs the routine moves on in it. -/
theorem advance (runs : (s.place thread).runs = true)
    (runsNext : place.runs = true) {starts finished} (history : (starts, finished) = place.history)
    : Sound threads { s.goto thread place with starts := starts, finished := finished } := by
  obtain ⟨busy, only, _, returns⟩ := sound.runner_eq runs
  have same (other : Tid) := runs_goto (s := s) other (runsNext.trans runs.symm)
  refine ⟨fun word => ?_, fun word => ?_, fun word => ?_, fun other isWaker => ?_, sound.listed,
    fun other waits => ?_⟩
  · rcases busy with busy | busy <;> exact nomatch busy.symm.trans word
  · refine ⟨thread, (same thread).trans runs, fun other isRunner => ?_, ?_, returns⟩
    · exact only other ((same other).symm.trans isRunner)
    · show (starts, finished) = (update s.place thread place thread).history
      rw [update_self]
      exact history
  · rcases busy with busy | busy <;> exact nomatch busy.symm.trans word
  · by_cases equal : other = thread
    · have atPlace : (s.goto thread place).place thread = place := update_self ..
      have atWake := atPlace.symm.trans (equal ▸ isWaker)
      exact nomatch (atWake ▸ runsNext)
    · have kept : (s.goto thread place).place other = s.place other :=
        update_of_ne equal ..
      exact sound.wakers other (kept.symm.trans isWaker)
  · rcases sound.waiting other waits with contended | ⟨word, _⟩
    · exact .inl contended
    · rcases busy with busy | busy <;> exact nomatch busy.symm.trans word

/-- The first thread that finds the control word `UNINITIALIZED` is to run the routine. -/
theorem claimed (word : s.control = .uninitialized)
    : Sound threads { s.goto thread .call with control := .running } := by
  obtain ⟨none, starts, finished, returns⟩ := sound.fresh word
  have kept {other} (differs : other ≠ thread)
      : (s.goto thread .call).place other = s.place other := update_of_ne differs ..
  have claims : (s.goto thread .call).place thread = .call := update_self ..
  refine ⟨(fun word => nomatch word), fun _ => ?_, (fun word => nomatch word),
    fun other isWaker => ?_,
    sound.listed, fun other waits => ?_⟩
  · refine ⟨thread, congrArg Place.runs claims, fun other runs => ?_, ?_, returns⟩
    · by_contra differs
      exact nomatch (kept differs ▸ none other).symm.trans runs
    · show (s.starts, s.finished) = ((s.goto thread .call).place thread).history
      rw [claims, starts, finished]
      rfl
  · by_cases same : other = thread
    · subst same
      exact nomatch claims.symm.trans isWaker
    · exact nomatch word.symm.trans (sound.wakers other ((kept same).symm.trans isWaker))
  · rcases sound.waiting other waits with contended | ⟨initialized, _⟩
    · exact nomatch word.symm.trans contended
    · exact nomatch word.symm.trans initialized

/-- The control word becomes `INITIALIZED`. -/
theorem published (atPublish : s.place thread = .publish)
    (idle : place.runs = false) (wakes : s.control = .contended → place = .wake) (returns : ℕ)
    : Sound threads { s.goto thread place with control := .initialized, returns := returns } := by
  have runs : (s.place thread).runs = true := by rw [atPublish]; rfl
  obtain ⟨busy, only, history, _⟩ := sound.runner_eq runs
  rw [atPublish] at history
  have atPlace : (s.goto thread place).place thread = place := update_self ..
  refine ⟨(fun word => nomatch word), fun word => ?_, fun _ => ?_, fun _ _ => rfl, sound.listed,
    fun other waits => ?_⟩
  · rcases word with word | word <;> cases word
  · refine ⟨fun other => ?_, congrArg fst history, congrArg snd history⟩
    by_cases same : other = thread
    · rw [same]
      exact (congrArg Place.runs atPlace).trans idle
    have kept : (s.goto thread place).place other = s.place other :=
      update_of_ne same ..
    refine (congrArg Place.runs kept).trans (Bool.eq_false_iff.mpr fun isRunner => ?_)
    exact same (only other isRunner)
  · rcases sound.waiting other waits with contended | ⟨word, _⟩
    · exact .inr ⟨rfl, thread, atPlace.trans (wakes contended)⟩
    · rcases busy with busy | busy <;> exact nomatch busy.symm.trans word

/-- The wake-up that was coming. -/
theorem woken (atWake : s.place thread = .wake)
    : Sound threads { s.leave thread with waits := futexWake threads s.waits () (-1) } := by
  have word := sound.wakers thread atWake
  have none (other : Tid) : futexWake threads s.waits () (-1) other = none := by
    by_contra waits
    rcases futexWake_cases threads s.waits () (-1) other with same | ⟨ended, _⟩
    · have listed := sound.listed other (same ▸ waits)
      exact futexWake_all listed (Option.ne_none_iff_exists'.mp waits).choose_spec
    · exact waits ended
  refine ⟨fun other => ?_, fun other => ?_, fun _ => ?_, fun _ _ => word, fun other waits => ?_,
    fun other waits => ?_⟩
  · exact nomatch word.symm.trans other
  · rcases other with other | other <;> exact nomatch word.symm.trans other
  · obtain ⟨idle, starts, finished⟩ := sound.done word
    refine ⟨fun other => ?_, starts, finished⟩
    rw [← idle other]
    exact runs_goto other (idle thread).symm
  · exact absurd (none other) waits
  · exact absurd (none other) waits

theorem contended (word : s.control = .running)
    : Sound threads { s with control := .contended } := by
  refine ⟨(fun word => nomatch word), fun _ => sound.running (.inl word),
    (fun word => nomatch word),
    fun other isWaker => ?_, sound.listed, fun _ _ => .inl rfl⟩
  exact nomatch word.symm.trans (sound.wakers other isWaker)

/-- A thread of the process goes to sleep while the control word is `CONTENDED`. -/
theorem slept (word : s.control = .contended) (mem : thread ∈ threads.list)
    : Sound threads { s with waits := update s.waits thread (some ()) } := by
  refine { sound with listed := fun other waits => ?_, waiting := fun _ _ => .inl word }
  by_cases same : other = thread
  · exact same ▸ mem
  · exact sound.listed other ((update_of_ne same ..).symm.trans_ne waits)

theorem signal (thread : Tid)
    : Sound threads { s with waits := update s.waits thread none } := by
  have still {other} (waits : update s.waits thread none other ≠ none)
      : s.waits other ≠ none := by
    by_cases same : other = thread
    · rw [same, update_self] at waits
      exact absurd rfl waits
    · rwa [update_of_ne same] at waits
  exact { sound with
    listed := fun other waits => sound.listed other (still waits)
    waiting := fun other waits => sound.waiting other (still waits) }

end

end Moves

theorem step (sound : Sound threads s) (mem : thread ∈ threads.list)
    (done : s.step threads thread = some s')
    : Sound threads s' := by
  unfold State.step at done
  cases place : s.place thread with
  | outside =>
    simp only [place] at done
    cases done
    exact sound.goto (by rw [place]; rfl) (by rw [place]; nofun) rfl nofun
  | load =>
    simp only [place] at done
    split at done <;> cases done
    next word =>
      exact sound.leave word (by rw [place]; nofun)
    · exact sound.goto (by rw [place]; rfl) (by rw [place]; nofun) rfl nofun
  | claim =>
    simp only [place] at done
    have moves {next} (idle : next.runs = false) (notWakes : next ≠ .wake)
        : Sound threads (s.goto thread next) :=
      sound.goto (by rw [place]; rfl) (by rw [place]; nofun) idle notWakes
    cases word : s.control with
    | uninitialized =>
      simp only [word] at done
      cases done
      exact sound.claimed word
    | initialized =>
      simp only [word] at done
      cases done
      exact sound.leave word (by rw [place]; nofun)
    | running | contended =>
      simp only [word] at done
      cases done
      exact moves rfl nofun
  | call =>
    simp only [place] at done
    cases done
    have runs : (s.place thread).runs = true := by rw [place]; rfl
    have history := (sound.runner_eq runs).2.2.1
    rw [place] at history
    have starts : s.starts = 0 := congrArg fst history
    have finished : s.finished = false := congrArg snd history
    refine sound.advance runs rfl ?_
    show (s.starts + 1, s.finished) = (1, false)
    rw [starts, finished]
  | routine =>
    simp only [place] at done
    cases done
    have runs : (s.place thread).runs = true := by rw [place]; rfl
    have history := (sound.runner_eq runs).2.2.1
    rw [place] at history
    have starts : s.starts = 1 := congrArg fst history
    refine sound.advance runs rfl ?_
    show (s.starts, true) = (1, true)
    rw [starts]
  | publish =>
    simp only [place] at done
    split at done <;> cases done
    · exact sound.published place rfl (fun _ => rfl) _
    next notContended =>
      exact sound.published place rfl (fun word => absurd word notContended) _
  | wake =>
    simp only [place] at done
    cases done
    exact sound.woken place
  | contend =>
    have moved : Sound threads (s.goto thread .wait) :=
      sound.goto (by rw [place]; rfl) (by rw [place]; nofun) rfl nofun
    simp only [place] at done
    cases done
    by_cases word : s.control = .running
    · simp only [if_pos word]
      exact moved.contended word
    · simp only [if_neg word]
      exact moved
  | wait =>
    have moved {next} (idle : next.runs = false) (notWakes : next ≠ .wake)
        : Sound threads (s.goto thread next) :=
      sound.goto (by rw [place]; rfl) (by rw [place]; nofun) idle notWakes
    simp only [place] at done
    split at done <;> cases done
    next waits slept =>
      obtain ⟨word, rfl⟩ := futexWait_ok slept
      exact (moved rfl nofun : Sound threads (s.goto thread .asleep)).slept word mem
    · exact moved rfl nofun
  | asleep =>
    simp only [place] at done
    split at done <;> cases done
    exact sound.goto (by rw [place]; rfl) (by rw [place]; nofun) rfl nofun

theorem perform (sound : Sound threads s) {event} (done : s.perform threads event = some s')
    : Sound threads s' := by
  cases event with
  | step thread =>
    simp only [State.perform] at done
    split at done
    next mem => exact sound.step mem done
    · cases done
  | signal thread =>
    cases done
    exact sound.signal thread

end Sound

-- Every call returns

/-- How many values the control word has still to come. -/
def Control.ahead : Control → ℕ
  | .uninitialized => 3
  | .running => 2
  | .contended => 1
  | .initialized => 0

/-- The values ahead when a thread got to a place, at most. -/
def Place.seen : Place → ℕ
  | .contend => 2
  | .wait => 1
  | _ => 3

/-- Only threads of the list are inside calls, and the control word does not go back. -/
structure Steady (threads : Threads) (s : State) : Prop where
  listed : ∀ thread, s.place thread ≠ .outside → thread ∈ threads.list
  seen : ∀ thread, s.control.ahead ≤ (s.place thread).seen

/-- How far a thread is from the end of its call, or from going to sleep, while the control word
stays as it is.
-/
def Place.ahead (control : Control) (waits : Bool) : Place → ℕ
  | .outside => 0
  | .load => 6
  | .claim => if control = .initialized then 2 else 5
  | .call => 3
  | .routine => 2
  | .publish => 1
  | .wake => 1
  | .contend => 4
  | .wait => 3
  | .asleep => if control = .initialized then 3 else if waits then 1 else 6

/-- A bound for the steps that are left to the threads inside calls. -/
def State.work (threads : Threads) (s : State) : ℕ :=
  s.control.ahead * (6 * threads.list.length + 1)
    + (threads.list.map fun thread => (s.place thread).ahead s.control (s.waits thread).isSome).sum

theorem Place.ahead_le (control : Control) (waits : Bool) (place : Place)
    : place.ahead control waits ≤ 6 := by
  cases place <;> cases control <;> cases waits <;> decide

section
variable {threads : Threads} {s s' : State} {thread : Tid}

/-- The control word has changed. -/
theorem work_lt_of_control (later : s'.control.ahead < s.control.ahead)
    : s'.work threads < s.work threads := by
  have bound := List.sum_le_card_nsmul
    (threads.list.map fun thread => (s'.place thread).ahead s'.control (s'.waits thread).isSome) 6
    (by simp [Place.ahead_le])
  have := Nat.mul_le_mul_right (6 * threads.list.length + 1) later
  simp only [State.work, List.length_map, nsmul_eq_mul, Nat.cast_id] at bound ⊢
  rw [Nat.succ_mul] at this
  omega

/-- One thread goes on, and the others stay where they are. -/
theorem work_lt_of_place (mem : thread ∈ threads.list) (same : s'.control = s.control)
    (others : ∀ other ≠ thread, s'.place other = s.place other)
    (waits : s.control ≠ .initialized → ∀ other ≠ thread, s'.waits other = s.waits other)
    (less : (s'.place thread).ahead s.control (s'.waits thread).isSome
      < (s.place thread).ahead s.control (s.waits thread).isSome)
    : s'.work threads < s.work threads := by
  refine Nat.add_lt_add_of_le_of_lt (by rw [same]) (List.sum_lt_sum _ _ (fun other _ => ?_) ?_)
  · by_cases equal : other = thread
    · rw [equal, same]
      exact less.le
    · rw [others other equal, same]
      by_cases word : s.control = .initialized
      · cases s.place other <;> simp [Place.ahead, word]
      · rw [waits word other equal]
  · exact ⟨thread, mem, by rw [same]; exact less⟩

/-- A thread inside a call goes on while the control word stays. -/
theorem work_lt_of_goto (mem : thread ∈ threads.list) {next} (same : s'.control = s.control)
    (places : s'.place = update s.place thread next)
    (waits : s.control ≠ .initialized → ∀ other ≠ thread, s'.waits other = s.waits other)
    (less : next.ahead s.control (s'.waits thread).isSome
      < (s.place thread).ahead s.control (s.waits thread).isSome)
    : s'.work threads < s.work threads := by
  refine work_lt_of_place mem same (fun other differs => ?_) waits ?_
  · rw [places, update_of_ne differs]
  · rw [places, update_self]
    exact less

/-- Each step inside a call brings the calls nearer to their ends. -/
theorem work_step (several : 1 < threads.list.length) (sound : Sound threads s)
    (steady : Steady threads s) (mem : thread ∈ threads.list)
    (inside : s.place thread ≠ .outside) (done : s.step threads thread = some s')
    : s'.work threads < s.work threads := by
  unfold State.step at done
  cases place : s.place thread <;> simp only [place] at done
  case outside => exact absurd place inside
  case load =>
    split at done <;> cases done <;> refine work_lt_of_goto mem rfl rfl (fun _ _ _ => rfl) ?_ <;>
      simp [place, Place.ahead]
    split <;> decide
  case claim =>
    cases word : s.control with
    | uninitialized =>
      simp only [word] at done
      cases done
      refine work_lt_of_control (show Control.running.ahead < s.control.ahead from ?_)
      rw [word]
      decide
    | initialized | running | contended =>
      simp only [word] at done
      cases done
      refine work_lt_of_goto mem rfl rfl (fun _ _ _ => rfl) ?_
      simp [place, Place.ahead, word]
  case call | routine =>
    cases done
    refine work_lt_of_goto mem rfl rfl (fun _ _ _ => rfl) ?_
    simp [place, Place.ahead]
  case publish =>
    have runs : (s.place thread).runs = true := by rw [place]; rfl
    have busy := (sound.runner_eq runs).1
    have less : Control.initialized.ahead < s.control.ahead := by
      rcases busy with word | word <;> rw [word] <;> decide
    split at done <;> cases done <;> exact work_lt_of_control less
  case wake =>
    cases done
    have word := sound.wakers thread place
    refine work_lt_of_goto mem rfl rfl (fun other => absurd word other) ?_
    simp [place, Place.ahead]
  case contend =>
    cases done
    by_cases word : s.control = .running
    · exact work_lt_of_control (by simp only [if_pos word]; rw [word]; decide)
    · refine work_lt_of_goto mem (by simp only [if_neg word]) rfl (fun _ _ _ => rfl) ?_
      simp [place, Place.ahead]
  case wait =>
    split at done <;> cases done
    next waits slept =>
      obtain ⟨word, rfl⟩ := futexWait_ok slept
      refine work_lt_of_goto mem rfl rfl (fun _ _ differs => update_of_ne differs ..) ?_
      simp [place, Place.ahead, word]
    next failed =>
      have word : s.control = .initialized := by
        have seen := steady.seen thread
        rw [futexWait, if_neg (not_le.mpr several)] at failed
        cases word : s.control <;> simp [place, word, Control.ahead, Place.seen] at seen failed ⊢
      refine work_lt_of_goto mem rfl rfl (fun _ _ _ => rfl) ?_
      simp [place, Place.ahead, word]
  case asleep =>
    split at done <;> cases done
    next woken =>
      refine work_lt_of_goto mem rfl rfl (fun _ _ _ => rfl) ?_
      simp only [place, Place.ahead, woken]
      split <;> decide

theorem Steady.goto (steady : Steady threads s) (mem : thread ∈ threads.list) {next}
    (places : s'.place = update s.place thread next) (later : s'.control.ahead ≤ s.control.ahead)
    (seen : s'.control.ahead ≤ next.seen)
    : Steady threads s' := by
  refine ⟨fun other inside => ?_, fun other => ?_⟩ <;> by_cases same : other = thread
  · rwa [same]
  · rw [places, update_of_ne same] at inside
    exact steady.listed other inside
  · rwa [places, same, update_self]
  · rw [places, update_of_ne same]
    exact later.trans (steady.seen other)

theorem Control.ahead_le (control : Control) : control.ahead ≤ 3 := by
  cases control <;> decide

theorem Steady.step (steady : Steady threads s) (mem : thread ∈ threads.list)
    (done : s.step threads thread = some s')
    : Steady threads s' := by
  have seen := steady.seen thread
  have any := Control.ahead_le s.control
  unfold State.step at done
  cases place : s.place thread <;> simp only [place] at done seen
  case outside | call | routine | wake =>
    cases done
    exact steady.goto mem rfl le_rfl any
  case load | asleep =>
    split at done <;> cases done <;> exact steady.goto mem rfl le_rfl any
  case claim =>
    cases word : s.control <;> simp only [word] at done <;> cases done <;>
      refine steady.goto mem rfl ?_ ?_ <;> simp [State.goto, State.leave, word, Control.ahead,
        Place.seen]
  case publish =>
    split at done <;> cases done <;> exact steady.goto mem rfl (Nat.zero_le _) (Nat.zero_le _)
  case contend =>
    cases done
    refine steady.goto mem rfl ?_ ?_ <;>
      cases word : s.control <;> simp [word, Control.ahead, Place.seen] at seen ⊢
  case wait =>
    split at done <;> cases done <;> exact steady.goto mem rfl le_rfl any

theorem Steady.perform (steady : Steady threads s) {event}
    (done : s.perform threads event = some s')
    : Steady threads s' := by
  cases event with
  | step thread =>
    simp only [State.perform] at done
    split at done
    next mem => exact steady.step mem done
    · cases done
  | signal thread =>
    cases done
    exact ⟨steady.listed, steady.seen⟩

/-- (Completes threads s) holds when, whatever the order of the steps of the threads inside calls,
all of the calls return.
-/
inductive Completes (threads : Threads) : State → Prop where
  | returned {s : State} (outside : ∀ thread, s.place thread = .outside) : Completes threads s
  | step {s : State} {thread : Tid} (inside : s.place thread ≠ .outside)
      (enabled : (s.perform threads (.step thread)).isSome)
      (next : ∀ thread, s.place thread ≠ .outside →
        ∀ s', s.perform threads (.step thread) = some s' → Completes threads s')
      : Completes threads s

theorem step_isSome (awake : s.place thread = .asleep → s.waits thread = none)
    : (s.step threads thread).isSome := by
  unfold State.step
  cases place : s.place thread <;> simp only [Option.isSome_some]
  case load | publish => split <;> rfl
  case claim | wait => split <;> rfl
  case asleep => rw [if_pos (awake place), Option.isSome_some]

/-- As long as a thread is inside a call, one of them has a step: the thread itself, the one that
runs the routine, or the one that is about to wake it.
-/
theorem exists_enabled (sound : Sound threads s) (steady : Steady threads s)
    (inside : s.place thread ≠ .outside)
    : ∃ other, s.place other ≠ .outside ∧ (s.perform threads (.step other)).isSome := by
  have goes {other} (notOutside : s.place other ≠ .outside)
      (awake : s.place other = .asleep → s.waits other = none)
      : ∃ other, s.place other ≠ .outside ∧ (s.perform threads (.step other)).isSome :=
    ⟨other, notOutside, by
      rw [State.perform, if_pos (steady.listed other notOutside)]
      exact step_isSome awake⟩
  by_cases waits : s.waits thread = none
  · exact goes inside fun _ => waits
  rcases sound.waiting thread waits with word | ⟨_, waker, place⟩
  · obtain ⟨runner, runs, _⟩ := sound.running (.inr word)
    cases place : s.place runner <;> rw [place] at runs <;> cases runs
    all_goals exact @goes runner (by rw [place]; nofun) (by rw [place]; nofun)
  · exact @goes waker (by rw [place]; nofun) (by rw [place]; nofun)

theorem completes (several : 1 < threads.list.length) (sound : Sound threads s)
    (steady : Steady threads s)
    : Completes threads s := by
  induction work : s.work threads using Nat.strong_induction_on generalizing s with
  | _ work ih =>
    by_cases pending : ∃ thread, s.place thread ≠ .outside
    · obtain ⟨thread, inside⟩ := pending
      obtain ⟨other, notOutside, isSome⟩ := exists_enabled sound steady inside
      refine .step notOutside isSome fun thread inside s' done => ?_
      have listed := steady.listed thread inside
      have step : s.step threads thread = some s' := by rwa [State.perform, if_pos listed] at done
      exact ih _ (work ▸ work_step several sound steady listed inside step) (sound.perform done)
        (steady.perform done) rfl
    · exact .returned (by simpa using pending)

end

-- Runs

/-- Whatever the interleaving, the routine is started once, no call returns before it has finished,
no thread is left waiting, and all calls return.
Witness: every step keeps the invariant, and every step inside a call makes the work that is left
less.
-/
theorem correct_of_run (threads : Threads) (several : 1 < threads.list.length)
    {events : List Event} {states : List State}
    (run : trace (State.perform threads) .initial events = some states)
    : ∀ state ∈ states, state.Correct ∧ Completes threads state := by
  have inv := trace_forall_mem (fun s => Sound threads s ∧ Steady threads s)
    (fun inv done => ⟨inv.1.perform done, inv.2.perform done⟩)
    ⟨.init threads, fun _ inside => absurd rfl inside, fun _ => le_rfl⟩ run
  intro state mem
  obtain ⟨sound, steady⟩ := inv state mem
  exact ⟨sound.correct, completes several sound steady⟩

/-- One thread runs the routine while another one goes to sleep and is woken; both calls return. -/
theorem correct_two_threads
    : ∃ states, trace (State.perform ⟨[0, 1], by decide⟩) .initial
        ([0, 0, 1, 1, 0, 1, 1, 1, 0, 0, 0, 0, 1, 1].map .step) = some states
      ∧ (states.getLast?.any fun state => state.starts = 1 ∧ state.finished ∧ state.returns = 2)
      ∧ ∀ state ∈ states, state.Correct ∧ Completes ⟨[0, 1], by decide⟩ state := by
  have ends : (trace (State.perform ⟨[0, 1], by decide⟩) .initial
      ([0, 0, 1, 1, 0, 1, 1, 1, 0, 0, 0, 0, 1, 1].map .step)).any (fun states =>
        states.getLast?.any fun state => state.starts = 1 ∧ state.finished
          ∧ state.returns = 2) := by
    decide +kernel
  obtain ⟨states, run, last⟩ := (Option.any_eq_true _ _).mp ends
  exact ⟨states, run, last, correct_of_run _ (by decide) run⟩

end UnstableOS.Pthread.Once
