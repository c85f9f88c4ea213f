import UnstableOS.Kernel.Futex
import UnstableOS.Lib.Trace

/-! Condition variables (`pthread_cond_wait.c`, `pthread_cond_signal.c`) under every interleaving of
their steps.
Each step is one operation on a mutex, one access to the sequence word `__magic` or one futex call.
A mutex is its owner. Threads are not cancelled and wait without a timeout.
-/

namespace UnstableOS.Pthread.Cond

open Lib Kernel.Futex Function BitVec

-- The steps

/-- Where a thread is, named by the step it takes next. A waiter keeps the value of `__magic` it has
read, a thread that signals the number of threads it is to wake. In `asleep` the thread waits in
`FUTEX_WAIT`, or has been woken and returns from it.
-/
inductive Place where
  | running
  | lockCond
  | unlockMutex
  | loadMagic
  | unlockCond (magic : BitVec 32)
  | futexWait (magic : BitVec 32)
  | asleep (magic : BitVec 32)
  | lockMutex
  | addMagic (count : BitVec 32)
  | futexWake (count : BitVec 32)
deriving DecidableEq

/-- The mutex and the predicate of the program, the condition variable and the threads; and what
happened: how many signals have been issued, and how many it were when a thread last released the
mutex to wait.
-/
structure State where
  mutex : Option Tid
  predicate : Bool
  condLock : Option Tid
  magic : BitVec 32
  place : Tid → Place
  waits : Waits Unit
  signals : ℕ
  released : Tid → ℕ

/-- What a thread does with the mutex and the predicate, the calls, the steps in them, and a signal
handler that ends a wait.
-/
inductive Event where
  | lock (thread : Tid)
  | unlock (thread : Tid)
  | change (thread : Tid) (predicate : Bool)
  | wait (thread : Tid)
  | signal (thread : Tid)
  | broadcast (thread : Tid)
  | step (thread : Tid)
  | interrupt (thread : Tid)

def Event.thread : Event → Tid
  | .lock t | .unlock t | .change t _ | .wait t | .signal t | .broadcast t | .step t
  | .interrupt t => t

namespace State

def goto (s : State) (t : Tid) (place : Place) : State :=
  { s with place := update s.place t place }

/-- The next step of a call; a thread that waits has none. -/
def step (threads : Threads) (s : State) (t : Tid) : Option State :=
  match s.place t with
  | .running => none
  | .lockCond =>
    if s.condLock = none then some { s.goto t .unlockMutex with condLock := some t } else none
  | .unlockMutex =>
    some { s.goto t .loadMagic with
      mutex := none
      released := update s.released t s.signals }
  | .loadMagic => some (s.goto t (.unlockCond s.magic))
  | .unlockCond magic => some { s.goto t (.futexWait magic) with condLock := none }
  | .futexWait magic =>
    match Kernel.Futex.futexWait threads s.waits t () s.magic magic with
    | .ok waits => some { s.goto t (.asleep magic) with waits := waits }
    | .error _ => some (s.goto t .lockMutex)
  | .asleep _ => if s.waits t = none then some (s.goto t .lockMutex) else none
  | .lockMutex =>
    if s.mutex = none then some { s.goto t .running with mutex := some t } else none
  | .addMagic count =>
    some { s.goto t (.futexWake count) with magic := s.magic + 1, signals := s.signals + 1 }
  | .futexWake count =>
    some { s.goto t .running with waits := Kernel.Futex.futexWake threads s.waits () count }

/-- A running thread locks, unlocks, changes the predicate while it has the mutex, waits while the
predicate is false, or signals. After a signal handler a waiter calls `FUTEX_WAIT` again.
-/
def perform (threads : Threads) (s : State) (event : Event) : Option State :=
  if event.thread ∉ threads.list then none
  else
    match event with
    | .step t => s.step threads t
    | .interrupt t =>
      match s.place t with
      | .asleep magic =>
        some { s.goto t (.futexWait magic) with waits := update s.waits t none }
      | _ => none
    | .lock t =>
      if s.place t = .running ∧ s.mutex = none then some { s with mutex := some t } else none
    | .unlock t =>
      if s.place t = .running ∧ s.mutex = some t then some { s with mutex := none } else none
    | .change t predicate =>
      if s.place t = .running ∧ s.mutex = some t then some { s with predicate := predicate }
      else none
    | .wait t =>
      if s.place t = .running ∧ s.mutex = some t ∧ s.predicate = false then
        some (s.goto t .lockCond)
      else none
    | .signal t => if s.place t = .running then some (s.goto t (.addMagic 1)) else none
    | .broadcast t => if s.place t = .running then some (s.goto t (.addMagic (-1))) else none

def initial : State :=
  ⟨none, false, none, 0, fun _ => .running, fun _ => none, 0, fun _ => 0⟩

end State

-- The property

/-- (NotLost s) holds when no thread is blocked in `FUTEX_WAIT` with the sequence word as it has
read it, although a signal was issued after it released the mutex, and no thread is about to wake
it.
-/
def State.NotLost (s : State) : Prop :=
  ∀ t magic, s.place t = .asleep magic → s.waits t ≠ none → s.released t < s.signals →
    s.magic = magic → ∃ waker count, s.place waker = .futexWake count

/-- The sequence word a waiter has read. -/
def Place.sampled : Place → Option (BitVec 32)
  | .unlockCond magic | .futexWait magic | .asleep magic => some magic
  | _ => none

/-- The thread is about to issue a signal. -/
def Place.issues : Place → Bool
  | .addMagic _ => true
  | _ => false

/-- (MayIssue s u) holds when a thread is not between releasing the mutex and reading the sequence
word, and has not waited for `2 ^ 32 - 1` signals.
-/
def State.MayIssue (s : State) (u : Tid) : Prop :=
  s.place u ≠ .loadMagic
    ∧ ((s.place u).sampled ≠ none → s.signals + 1 < s.released u + 2 ^ 32)

/-- A signal is issued only while no thread has just released the mutex. -/
def State.Safe (threads : Threads) (s : State) : Event → Prop
  | .step t => (s.place t).issues → ∀ u ∈ threads.list, s.MayIssue u
  | _ => True

-- The invariant

/-- (Fits signals released place) holds when the value a waiter has read is that of the time when it
released the mutex.
-/
def Fits (signals released : ℕ) : Place → Prop
  | .loadMagic => released = signals
  | .unlockCond magic | .futexWait magic | .asleep magic =>
    magic = BitVec.ofNat 32 released ∧ released ≤ signals ∧ signals < released + 2 ^ 32
  | _ => True

structure Sound (threads : Threads) (s : State) : Prop where
  magic : s.magic = BitVec.ofNat 32 s.signals
  fits : ∀ t, Fits s.signals (s.released t) (s.place t)
  listed : ∀ t, t ∉ threads.list → s.place t = .running

namespace Sound

variable {threads : Threads} {s s' : State} {t : Tid}

theorem init (threads : Threads) : Sound threads .initial := ⟨rfl, fun _ => trivial, fun _ _ => rfl⟩

section
variable (sound : Sound threads s)
include sound

theorem notLost : s.NotLost := by
  intro t magic asleep _ issued same
  have fits := sound.fits t
  rw [asleep] at fits
  obtain ⟨read, _, few⟩ := fits
  -- the word would have been read after the signal
  rw [sound.magic, read] at same
  have equal := congrArg BitVec.toNat same
  simp only [toNat_ofNat] at equal
  omega

theorem goto (mem : t ∈ threads.list) (place : Place) (fits : Fits s.signals (s.released t) place)
    : Sound threads (s.goto t place) := by
  refine ⟨sound.magic, ?_, fun u notListed => ?_⟩
  · exact (forall_update_iff s.place fun u p => Fits s.signals (s.released u) p).mpr
      ⟨fits, fun u _ => sound.fits u⟩
  · have other : u ≠ t := fun same => notListed (same ▸ mem)
    exact (update_of_ne other ..).trans (sound.listed u notListed)

theorem frame (mutex condLock : Option Tid) (predicate : Bool) (waits : Waits Unit)
    : Sound threads { s with
        mutex := mutex, condLock := condLock, predicate := predicate, waits := waits } :=
  ⟨sound.magic, sound.fits, sound.listed⟩

theorem fits_of {place} (isAt : s.place t = place)
    : Fits s.signals (s.released t) place :=
  isAt ▸ sound.fits t

/-- A thread releases the mutex to wait. -/
theorem release (mem : t ∈ threads.list)
    : Sound threads { s.goto t .loadMagic with
        released := update s.released t s.signals } := by
  have moved := sound.listed
  refine ⟨sound.magic, fun u => ?_, fun u notListed => ?_⟩
  · show Fits s.signals (update s.released t s.signals u) (update s.place t .loadMagic u)
    by_cases same : u = t
    · rw [same, update_self, update_self]
      rfl
    · rw [update_of_ne same, update_of_ne same]
      exact sound.fits u
  · have other : u ≠ t := fun same => notListed (same ▸ mem)
    exact (update_of_ne other ..).trans (moved u notListed)

/-- A signal is issued when no thread is about to read the sequence word. -/
theorem issue (safe : ∀ u ∈ threads.list, s.MayIssue u)
    : Sound threads { s with magic := s.magic + 1, signals := s.signals + 1 } := by
  refine ⟨?_, fun u => ?_, sound.listed⟩
  · show s.magic + 1 = BitVec.ofNat 32 (s.signals + 1)
    rw [sound.magic]
    exact (ofNat_add _ 1).symm
  · show Fits (s.signals + 1) (s.released u) (s.place u)
    by_cases mem : u ∈ threads.list
    · obtain ⟨notLoading, few⟩ := safe u mem
      have fits := sound.fits u
      cases place : s.place u <;> rw [place] at fits notLoading few
      case unlockCond | futexWait | asleep =>
        exact ⟨fits.1, Nat.le_succ_of_le fits.2.1, few (Option.some_ne_none _)⟩
      all_goals trivial
    · rw [sound.listed u mem]
      trivial

theorem step (mem : t ∈ threads.list)
    (safe : s.Safe threads (.step t)) (done : s.step threads t = some s')
    : Sound threads s' := by
  unfold State.step at done
  cases place : s.place t with
  | running =>
    simp only [place] at done
    cases done
  | lockCond =>
    simp only [place] at done
    split at done <;> cases done
    exact (sound.goto mem .unlockMutex trivial).frame _ _ _ _
  | unlockMutex =>
    simp only [place] at done
    cases done
    exact (sound.release mem).frame _ _ _ _
  | loadMagic =>
    simp only [place] at done
    cases done
    have now : s.released t = s.signals := sound.fits_of place
    refine sound.goto mem _ ⟨?_, ?_, ?_⟩
    · rw [now]
      exact sound.magic
    · exact Nat.le_of_eq now
    · omega
  | unlockCond magic =>
    simp only [place] at done
    cases done
    have fits := sound.fits_of place
    exact (sound.goto mem (.futexWait magic) fits).frame _ _ _ _
  | futexWait magic =>
    simp only [place] at done
    split at done <;> cases done
    · have fits := sound.fits_of place
      exact (sound.goto mem (.asleep magic) fits).frame _ _ _ _
    · exact sound.goto mem .lockMutex trivial
  | asleep magic =>
    simp only [place] at done
    split at done <;> cases done
    exact sound.goto mem .lockMutex trivial
  | lockMutex =>
    simp only [place] at done
    split at done <;> cases done
    exact (sound.goto mem .running trivial).frame _ _ _ _
  | addMagic count =>
    simp only [place] at done
    cases done
    have issued := sound.issue (safe (by rw [place]; rfl))
    exact issued.goto mem (.futexWake count) trivial
  | futexWake count =>
    simp only [place] at done
    cases done
    exact (sound.goto mem .running trivial).frame _ _ _ _

theorem perform {event} (done : s.perform threads event = some s') (safe : s.Safe threads event)
    : Sound threads s' := by
  unfold State.perform at done
  split at done
  · cases done
  next notOther =>
  have mem := not_not.mp notOther
  cases event with
  | step t => exact sound.step mem safe done
  | interrupt t =>
    cases place : s.place t <;> simp only [place] at done
    case asleep magic =>
      cases done
      have fits := sound.fits_of place
      exact (sound.goto mem (.futexWait magic) fits).frame _ _ _ _
    all_goals cases done
  | lock t | unlock t | change t predicate =>
    simp only at done
    split at done <;> cases done
    exact sound.frame _ _ _ _
  | wait t | signal t | broadcast t =>
    simp only at done
    split at done <;> cases done
    exact sound.goto mem _ trivial

end

end Sound

-- Runs

/-- In every interleaving in which no signal is issued between the release of the mutex and the read
of the sequence word by a waiter, no signal is lost.
Witness: the value a waiter has read is then that of the time of the release.
-/
theorem notLost_of_safe (threads : Threads) {events : List Event} {states : List State}
    (run : trace (State.perform threads) .initial events = some states)
    (allSafe : AllSafe (State.perform threads) (State.Safe threads) .initial events)
    : ∀ state ∈ states, state.NotLost := by
  have sound := trace_forall (Sound threads) (fun sound done safe => sound.perform done safe)
    (.init threads) run allSafe
  exact fun state mem => (sound state mem).notLost

instance (s : State) : DecidablePred s.MayIssue :=
  fun _ => inferInstanceAs (Decidable (_ ∧ _))

instance (threads : Threads) (s : State) : DecidablePred (s.Safe threads)
  | .step _ =>
    have := List.decidableBAll s.MayIssue threads.list
    inferInstanceAs (Decidable (_ → _))
  | .lock _ | .unlock _ | .change _ _ | .wait _ | .signal _ | .broadcast _ | .interrupt _ =>
    inferInstanceAs (Decidable True)

theorem nodup_two : ([0, 1] : List Tid).Nodup := by decide

def twoThreads : Threads := ⟨[0, 1], nodup_two⟩

/-- A thread waits, another one changes the predicate and signals once the first one sleeps. -/
def signalLate : List Event :=
  [.lock 0, .wait 0, .step 0, .step 0, .step 0, .step 0, .step 0, .lock 1, .change 1 true,
    .unlock 1, .signal 1, .step 1, .step 1, .step 0, .step 0]

theorem notLost_signal_late
    : ∃ states, trace (State.perform twoThreads) .initial signalLate = some states
        ∧ ∀ state ∈ states, state.NotLost := by
  exact exists_of_isSome (by decide +kernel) fun _ run => notLost_of_safe _ run (by decide +kernel)

/-- The signal comes after the release of the mutex and before the read of the sequence word: the
waiter sleeps though the predicate is true, and nobody is about to wake it.
-/
theorem signal_lost
    : (trace (State.perform twoThreads) .initial
        [.lock 0, .wait 0, .step 0, .step 0, .lock 1, .change 1 true, .unlock 1, .signal 1, .step 1,
          .step 1, .step 0, .step 0, .step 0]).any fun states =>
      states.getLast?.any fun s =>
        s.place 0 = .asleep 1 && s.waits 0 = some () && s.released 0 < s.signals && s.magic = 1
          && s.place 1 = .running && s.predicate := by
  decide +kernel

end UnstableOS.Pthread.Cond
