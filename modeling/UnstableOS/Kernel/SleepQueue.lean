import Mathlib.Data.List.Nodup
import UnstableOS.Kernel.Errno
import UnstableOS.Lib.DeltaList
import UnstableOS.Lib.Trace

/-! The queue of sleeping threads (`kernel_sched_sleep_queue.c`) under the interrupts of the clock,
the calls of `clock_nanosleep`, the wake-ups that end a sleep early and the end of threads.
A thread stands for the pair of the thread and its process that an entry of the queue keeps.
-/

namespace UnstableOS.Kernel.SleepQueue
open Lib Lib.DeltaList Function List Nat

-- The queue and the threads

/-- The frequency of the clock and the length of a click (`RTC_TIMER_RESOLUTION_HZ`,
`RTC_TIME_RESOLUTION_USEC`).
-/
def rtcTimerResolutionHz : ℕ := 1024

def rtcTimeResolutionUsec : ℕ := 1000000 / rtcTimerResolutionHz

/-- What an entry of the queue stores besides the time: the thread, and the magic value the thread
had when it went to sleep.
-/
structure Sleeper (θ : Type*) where
  thread : θ
  magic : BitVec 32
deriving DecidableEq

/-- An entry of the queue with its `time_delta_usec`. -/
abbrev Entry (θ : Type*) := Sleeper θ × ℤ

/-- Where a thread is. In the call it has the two local variables `old_time_usec` and
`requested_usec`, whose sum is the deadline.
-/
inductive Place where
  | awake
  | asleep (deadline : ℤ)
  | roused (deadline : ℤ)
  | gone
deriving DecidableEq

open Place

/-- The deadline of a thread that has not returned from the call. -/
def Place.deadline : Place → Option ℤ
  | .asleep deadline => some deadline
  | .roused deadline => some deadline
  | .awake => none
  | .gone => none

/-- The status of a sleeping thread becomes `SCHED_RUNNABLE`. -/
def Place.rouse : Place → Place
  | .asleep deadline => .roused deadline
  | place => place

/-- The global variables and the fields of the threads. The queue is `none` when `sq` points to an
entry that has been freed. Only `asked` is not stored anywhere: the deadline that the thread's
last request meant, before the kernel computed with it.
-/
structure State (θ : Type*) where
  clicks : ℕ
  queue : Option (List (Entry θ))
  place : θ → Place
  magic : θ → BitVec 32
  asked : θ → ℤ

open State

variable {θ : Type*}

/-- The time since the start in microseconds. -/
def State.now (s : State θ) : ℤ := (s.clicks * rtcTimeResolutionUsec : ℕ)

/-- No thread sleeps when the system starts. -/
def State.init : State θ := ⟨0, some [], fun _ => .awake, fun _ => 0, fun _ => 0⟩

-- The functions

/-- An integer as a `time_t` of 64 bits. -/
def timeT (x : ℤ) : ℤ := x.bmod (2 ^ 64)

theorem timeT_eq_self {x} (low : -2 ^ 63 ≤ x) (high : x < 2 ^ 63) : timeT x = x :=
  Int.bmod_eq_of_le (by omega) (by omega)

theorem timeT_lt (x : ℤ) : timeT x < 2 ^ 63 := by
  rw [timeT, Int.bmod_def]
  omega

section Functions

variable [DecidableEq θ]

/-- `sleep_pop_thread` for the entry that is taken off the queue: a thread that has been woken since
it went to sleep has another magic value and is left alone.
-/
def State.sleepPopThread (s : State θ) (sleeper : Sleeper θ) : State θ :=
  if sleeper.magic = s.magic sleeper.thread then
    { s with
        place := update s.place sleeper.thread (s.place sleeper.thread).rouse
        magic := update s.magic sleeper.thread (s.magic sleeper.thread + 1) }
  else s

/-- The loop of `sleep_sched_tick`: what is left of the queue when `delta` microseconds pass. -/
def State.tickLoop (s : State θ) (delta : ℤ) : List (Entry θ) → State θ × List (Entry θ)
  | [] => (s, [])
  | (sleeper, time) :: rest =>
    if time ≤ delta then
      State.tickLoop (s.sleepPopThread sleeper) (delta - time) rest
    else
      (s, (sleeper, time - delta) :: rest)

/-- `sleep_sched_tick`. The product is computed in 32 bits. -/
def State.sleepSchedTick (s : State θ) (ticks : ℕ) : State θ :=
  match s.queue with
  | none => s
  | some entries =>
    let (s', rest) := s.tickLoop ((rtcTimeResolutionUsec * ticks % 2 ^ 32 : ℕ)) entries
    { s' with queue := some rest }

/-- The periodic interrupt of the clock. -/
def State.periodic (s : State θ) : State θ :=
  { s with clicks := s.clicks + 1 }.sleepSchedTick 1

/-- The number of clicks at the end of the running second. -/
def rounded (clicks : ℕ) : ℕ :=
  (clicks + rtcTimerResolutionHz - 1) - (clicks + rtcTimerResolutionHz - 1) % rtcTimerResolutionHz

/-- The interrupt of the clock at the end of a second: the clicks that were missed are made up. -/
def State.updateEnded (s : State θ) : State θ :=
  { s with clicks := rounded s.clicks }.sleepSchedTick (rounded s.clicks - s.clicks)

/-- `sleep_remove_thread`. Where the first entry is removed and another one follows, `sq` is not
moved on: it points to the entry that has been freed.
-/
def sleepRemoveThread (thread : θ) : List (Entry θ) → Option (List (Entry θ))
  | [] => some []
  | (sleeper, time) :: rest =>
    if sleeper.thread = thread then
      match rest with
      | [] => some []
      | _ :: _ => none
    else
      some ((sleeper, time) :: remove (·.thread = thread) rest)

inductive Clock where
  | monotonic | realtime | other
deriving DecidableEq

/-- The arguments of `clock_nanosleep`; `absolute` is the flag `TIMER_ABSTIME`. -/
structure Request where
  clock : Clock
  absolute : Bool
  sec : Int64
  nsec : Int32

/-- `requested_usec` as `sys_clock_nanosleep` computes it, where `wrap` brings the results into
the type of the variables. For zero the call returns at once.
-/
def requestedUsec (wrap : ℤ → ℤ) (clicks : ℕ) (systemTimeSec : Int64) (request : Request)
    : Except Errno ℤ :=
  if request.clock = .other then .error .enotsup
  else
    let sec :=
      if request.absolute ∧ request.clock = .realtime then
        wrap (request.sec.toInt - systemTimeSec.toInt)
      else request.sec.toInt
    if sec < 0 then .ok 0
    else if request.nsec.toInt ≥ 1000000000 ∨ request.nsec.toInt < 0 then .error .einval
    else
      let usec := wrap (sec * 1000000 + request.nsec.toInt / 1000)
      let usec :=
        if request.absolute ∧ request.clock ≠ .realtime then
          wrap (usec - (clicks * rtcTimeResolutionUsec : ℕ))
        else usec
      if usec < 0 then .ok 0 else .ok usec

/-- What the request means, in numbers without bounds. -/
def meantUsec (clicks : ℕ) (systemTimeSec : Int64) (request : Request) : ℤ :=
  (requestedUsec id clicks systemTimeSec request).toOption.getD 0

/-- The loop of `sys_clock_nanosleep` over the queue, and the entry it puts where it stops; `sum` is
`queue_deltas_usec`.
-/
def sleepInsert (sleeper : Sleeper θ) (usec sum : ℤ) : List (Entry θ) → List (Entry θ)
  | [] => [(sleeper, timeT (usec - sum))]
  | (other, time) :: rest =>
    if timeT (sum + time) > usec then
      (sleeper, timeT (usec - sum)) :: (other, timeT (time - timeT (usec - sum))) :: rest
    else
      (other, time) :: sleepInsert sleeper usec (timeT (sum + time)) rest

/-- `sys_clock_nanosleep` up to the point where the thread sleeps. -/
def State.fallAsleep (s : State θ) (thread : θ) (usec meant : ℤ) : State θ :=
  { s with
      queue := s.queue.map (sleepInsert ⟨thread, s.magic thread⟩ usec 0)
      place := update s.place thread (.asleep (s.now + usec))
      asked := update s.asked thread (s.now + meant) }

/-- `sys_clock_nanosleep` from the point where the thread runs again. The two sides of the
comparison are computed in 64 bits.
-/
def State.wakeUp (s : State θ) (thread : θ) (deadline : ℤ) : State θ :=
  { s with
      queue :=
        if timeT deadline > timeT s.now then s.queue.bind (sleepRemoveThread thread)
        else s.queue
      place := update s.place thread .awake }

/-- What happens to the queue. A thread is roused by a signal or from a thread queue, and exits
through `kernel_destroy_thread`, which does not look at the queue.
-/
inductive Step (θ : Type*) where
  | sleep (thread : θ) (request : Request) (systemTimeSec : Int64)
  | periodic
  | updateEnded
  | rouse (thread : θ)
  | resume (thread : θ)
  | exit (thread : θ)

def State.step (s : State θ) : Step θ → Option (State θ)
  | .sleep thread request systemTimeSec =>
    if s.place thread = .awake then
      match requestedUsec timeT s.clicks systemTimeSec request with
      | .error _ => some s
      | .ok usec =>
        if usec = 0 then some s
        else some (s.fallAsleep thread usec (meantUsec s.clicks systemTimeSec request))
    else none
  -- `uptime_clicks` has 64 bits; its end is not followed
  | .periodic => if s.clicks < 2 ^ 62 then some s.periodic else none
  | .updateEnded => if s.clicks < 2 ^ 62 then some s.updateEnded else none
  | .rouse thread =>
    if (s.place thread).deadline.isSome then
      some { s with
        place := update s.place thread (s.place thread).rouse
        magic := update s.magic thread (s.magic thread + 1) }
    else none
  | .resume thread =>
    match s.place thread with
    | .roused deadline => some (s.wakeUp thread deadline)
    | _ => none
  | .exit thread => some { s with place := update s.place thread .gone }

end Functions

theorem Place.rouse_of_not_asleep {place : Place} (up : ∀ deadline, place ≠ .asleep deadline)
    : place.rouse = place := by
  cases place with
  | asleep deadline => exact absurd rfl (up deadline)
  | _ => rfl

@[simp] theorem Place.deadline_rouse (place : Place) : place.rouse.deadline = place.deadline := by
  cases place <;> rfl

@[simp] theorem Place.rouse_ne_asleep (place : Place) (deadline : ℤ)
    : place.rouse ≠ .asleep deadline := by
  cases place <;> simp [rouse]

-- What the queue stands for

namespace State

/-- (Shows s deadlines) holds when the list has exactly the threads that have not returned from
their sleep and whose deadlines are ahead, each of them once, and in the order of the deadlines.
-/
structure Shows (s : State θ) (deadlines : List (Sleeper θ × ℤ)) : Prop where
  ordered : Ordered deadlines
  once : (deadlines.map (·.1.thread)).Nodup
  exact : ∀ thread deadline, (∃ x ∈ deadlines, x.1.thread = thread ∧ x.2 = deadline)
    ↔ (s.place thread).deadline = some deadline ∧ s.now < deadline

/-- (Keeps s) holds when the deadlines of the threads in the call are those they asked for. -/
def Keeps (s : State θ) : Prop :=
  ∀ thread deadline, (s.place thread).deadline = some deadline → deadline = s.asked thread

/-- (Represents s) holds when the queue stands for the sleeping threads and the deadlines they
asked for.
-/
def Represents (s : State θ) : Prop :=
  s.Keeps ∧ ∃ entries, s.queue = some entries ∧ s.Shows (absolute s.now entries)

/-- (Wakes s s') holds when between the two states exactly the threads whose deadlines have been
reached were woken.
-/
def Wakes (s s' : State θ) : Prop :=
  ∀ thread, s'.place thread = match s.place thread with
    | .asleep deadline => if deadline ≤ s'.now then .roused deadline else .asleep deadline
    | place => place

/-- (Faithful s) holds when the queue stands for the sleeping threads, and each interrupt of the
clock wakes those it should.
-/
structure Faithful [DecidableEq θ] (s : State θ) : Prop where
  represents : s.Represents
  periodic : s.Wakes s.periodic
  updateEnded : s.Wakes s.updateEnded

/-- The entries of the sleeping threads have their magic values, no thread oversleeps, and no
deadline is further ahead than a `time_t` reaches.
-/
structure Tracks (s : State θ) (deadlines : List (Sleeper θ × ℤ)) : Prop
    extends s.Shows deadlines where
  fresh : ∀ x ∈ deadlines, ∀ deadline, s.place x.1.thread = .asleep deadline →
    x.1.magic = s.magic x.1.thread
  ahead : ∀ thread deadline, s.place thread = .asleep deadline → s.now < deadline
  near : ∀ x ∈ deadlines, x.2 < s.now + 2 ^ 63

/-- What every step has to keep. -/
def Coherent (s : State θ) : Prop :=
  s.Keeps ∧ ∃ entries, s.queue = some entries ∧ s.Tracks (absolute s.now entries)

-- The condition on the steps

/-- (FirstOfMany s thread) holds when the first entry is the thread's and another one follows. -/
def FirstOfMany (s : State θ) (thread : θ) : Prop :=
  match s.queue with
  | some ((sleeper, _) :: _ :: _) => sleeper.thread = thread
  | _ => False

/-- (Listed s thread) holds when the thread has an entry in the queue. -/
def Listed (s : State θ) (thread : θ) : Prop :=
  ∃ entries ∈ s.queue, thread ∈ entries.map (·.1.thread)

/-- The condition: a thread goes to sleep for as long as its request means, a thread that wakes
early sees that its deadline is ahead and is not the first of several in the queue, and a thread
that ends has no entry.
-/
def Safe (s : State θ) : Step θ → Prop
  | .sleep _ request systemTimeSec =>
    ∀ usec ∈ (requestedUsec timeT s.clicks systemTimeSec request).toOption,
      usec ≠ 0 → usec = meantUsec s.clicks systemTimeSec request
  | .resume thread =>
    (∀ deadline ∈ (s.place thread).deadline, s.now < deadline → timeT s.now < timeT deadline)
      ∧ ¬ s.FirstOfMany thread
  | .exit thread => ¬ s.Listed thread
  | _ => True

variable {s s' : State θ} {entries : List (Entry θ)} {deadlines : List (Sleeper θ × ℤ)}
  {thread : θ} {deadline : ℤ}

theorem Shows.pending (shows : s.Shows deadlines) {x} (mem : x ∈ deadlines)
    : (s.place x.1.thread).deadline = some x.2 ∧ s.now < x.2 :=
  (shows.exact x.1.thread x.2).mp ⟨x, mem, rfl, rfl⟩

theorem Coherent.represents (coherent : s.Coherent) : s.Represents := by
  obtain ⟨keeps, entries, stored, tracks⟩ := coherent
  exact ⟨keeps, entries, stored, tracks.toShows⟩

theorem init_coherent : (init : State θ).Coherent := by
  refine ⟨by simp [Keeps, init, deadline], [], rfl, ⟨Pairwise.nil, nodup_nil, ?_⟩,
    by simp [absolute], by simp [init], by simp [absolute]⟩
  simp [absolute, init, deadline]

/-- A state is shown by a list as another one is, if the same deadlines are ahead in both. -/
theorem Shows.congr (shows : s.Shows deadlines)
    (same : ∀ thread deadline, ((s'.place thread).deadline = some deadline ∧ s'.now < deadline)
      ↔ ((s.place thread).deadline = some deadline ∧ s.now < deadline))
    : s'.Shows deadlines where
  ordered := shows.ordered
  once := shows.once
  exact thread deadline := (shows.exact thread deadline).trans (same thread deadline).symm

variable [DecidableEq θ]

-- Going to sleep

omit [DecidableEq θ] in
/-- What the kernel grants is a time that it can store. -/
theorem requestedUsec_bounds {clicks : ℕ} {systemTimeSec : Int64} {usec : ℤ} {request : Request}
    (granted : requestedUsec timeT clicks systemTimeSec request = .ok usec)
    : 0 ≤ usec ∧ usec < 2 ^ 63 := by
  have bound := timeT_lt
  unfold requestedUsec at granted
  grind

omit [DecidableEq θ] in
/-- Where no deadline is further ahead than a `time_t` reaches, no sum of the loop wraps.
Witness: induction on the queue; the sum is the time until the last entry that was passed.
-/
theorem sleepInsert_eq {base usec sum : ℤ} (sleeper : Sleeper θ)
    (low : 0 ≤ sum) (passed : sum ≤ usec) (high : usec < 2 ^ 63)
    (near : ∀ x ∈ absolute (base + sum) entries, base ≤ x.2 ∧ x.2 < base + 2 ^ 63)
    : sleepInsert sleeper usec sum entries = insert sleeper usec sum entries := by
  have own : timeT (usec - sum) = usec - sum := timeT_eq_self (by omega) (by omega)
  induction entries generalizing sum with
  | nil => rw [sleepInsert, DeltaList.insert, own]
  | cons entry rest ih =>
    obtain ⟨other, time⟩ := entry
    rw [absolute, forall_mem_cons, add_assoc] at near
    obtain ⟨here, near⟩ := near
    dsimp only at here
    rw [sleepInsert, DeltaList.insert, own, timeT_eq_self (x := sum + time) (by omega) (by omega)]
    split
    · rw [timeT_eq_self (by omega) (by omega)]
    · rw [ih (by omega) (by omega) near (timeT_eq_self (by omega) (by omega))]

/-- A thread that goes to sleep gets its entry among the others.
Witness: the entry stands between those that are due before it and those that are due after it.
-/
theorem Coherent.fallAsleep (coherent : s.Coherent) (awake : s.place thread = .awake)
    {usec} (positive : 0 < usec) (bounded : usec < 2 ^ 63)
    : (s.fallAsleep thread usec usec).Coherent := by
  obtain ⟨keeps, entries, stored, tracks⟩ := coherent
  have exact : sleepInsert ⟨thread, s.magic thread⟩ usec 0 entries
      = insert ⟨thread, s.magic thread⟩ usec 0 entries := by
    refine @sleepInsert_eq _ _ s.now _ _ _ le_rfl positive.le bounded ?_
    rw [add_zero]
    exact fun x mem => ⟨(tracks.pending mem).2.le, tracks.near x mem⟩
  refine ⟨?_, ?_⟩
  · intro other deadline pending
    by_cases same : other = thread
    · subst same
      simp only [State.fallAsleep, update_self, Place.deadline] at pending ⊢
      exact (Option.some.inj pending).symm
    · simp only [State.fallAsleep, update_of_ne same] at pending ⊢
      exact keeps other deadline pending
  obtain ⟨front, back, split, inserted, below, above⟩ :=
    @absolute_insert _ s.now 0 entries ⟨thread, s.magic thread⟩ usec (by simpa using tracks.ordered)
  rw [add_zero] at split inserted
  have absent : ∀ x ∈ front ++ back, x.1.thread ≠ thread := by
    intro x mem same
    have := (tracks.pending (split ▸ mem)).1
    rw [same, awake] at this
    cases this
  refine ⟨insert ⟨thread, s.magic thread⟩ usec 0 entries,
    by simp [State.fallAsleep, stored, exact], ?_⟩
  rw [show (s.fallAsleep thread usec usec).now = s.now from rfl, inserted]
  have perm : (front ++ (⟨thread, s.magic thread⟩, s.now + usec) :: back).Perm
      ((⟨thread, s.magic thread⟩, s.now + usec) :: absolute s.now entries) :=
    split ▸ perm_middle
  refine ⟨⟨?_, ?_, ?_⟩, ?_, ?_, ?_⟩
  · have ordered := tracks.ordered
    rw [split] at ordered
    obtain ⟨first, second, across⟩ := pairwise_append.mp ordered
    refine pairwise_append.mpr ⟨first, pairwise_cons.mpr
      ⟨fun x later => le_of_lt (above x later), second⟩, fun x earlier y later => ?_⟩
    rcases mem_cons.mp later with rfl | after
    · exact below x earlier
    · exact across x earlier y after
  · refine (perm.map _).nodup_iff.mpr (nodup_cons.mpr ⟨?_, tracks.once⟩)
    intro again
    obtain ⟨x, mem, same⟩ := mem_map.mp again
    exact absent x (split ▸ mem) same
  · intro other deadline
    simp only [perm.mem_iff, mem_cons, exists_eq_or_imp, State.fallAsleep]
    by_cases same : other = thread
    · subst same
      have none : ¬ ∃ x ∈ absolute s.now entries, x.1.thread = other ∧ x.2 = deadline :=
        fun ⟨x, mem, is, _⟩ => absent x (split ▸ mem) is
      simp only [none, or_false, true_and, update_self, Place.deadline, Option.some.injEq]
      show s.now + usec = deadline ↔ s.now + usec = deadline ∧ s.now < deadline
      omega
    · have apart : thread ≠ other := fun is => same is.symm
      simp only [apart, false_and, false_or, update_of_ne same]
      exact tracks.exact other deadline
  · intro x mem due asleep
    rcases mem_cons.mp (perm.mem_iff.mp mem) with rfl | old
    · rfl
    · have apart := absent x (split ▸ old)
      simp only [State.fallAsleep, update_of_ne apart] at asleep ⊢
      exact tracks.fresh x old due asleep
  · intro other deadline asleep
    by_cases same : other = thread
    · subst same
      simp only [fallAsleep, update_self, Place.asleep.injEq] at asleep
      show s.now < deadline
      omega
    · simp only [State.fallAsleep, update_of_ne same] at asleep
      exact tracks.ahead other deadline asleep
  · intro x mem
    rcases mem_cons.mp (perm.mem_iff.mp mem) with rfl | old
    · exact Int.add_lt_add_left bounded _
    · exact tracks.near x old

-- The clock

/-- The loop pops the entries that are reached, one after the other. -/
theorem tickLoop_eq (s : State θ) (delta : ℤ) (entries : List (Entry θ))
    : s.tickLoop delta entries
        = ((advance delta entries).1.foldl (fun s entry => s.sleepPopThread entry.1) s,
            (advance delta entries).2) := by
  induction entries generalizing s delta with
  | nil => rfl
  | cons entry rest ih =>
    simp only [tickLoop, advance]
    split
    · exact ih _ _
    · rfl

theorem sleepSchedTick_eq {ticks} (stored : s.queue = some entries) (short : ticks ≤ 1023)
    : s.sleepSchedTick ticks = let cut := advance (rtcTimeResolutionUsec * ticks : ℕ) entries
          { cut.1.foldl (fun s entry => s.sleepPopThread entry.1) s with queue := some cut.2 } := by
  have exact32 : rtcTimeResolutionUsec * ticks % 2 ^ 32 = rtcTimeResolutionUsec * ticks := by
    simp only [rtcTimeResolutionUsec, rtcTimerResolutionHz]
    omega
  simp only [sleepSchedTick, stored, exact32, tickLoop_eq]

/-- An entry with the magic value of its thread wakes it. -/
theorem sleepPopThread_place {sleeper}
    (fresh : ∀ deadline, s.place sleeper.thread = .asleep deadline →
      sleeper.magic = s.magic sleeper.thread)
    : (s.sleepPopThread sleeper).place
        = update s.place sleeper.thread (s.place sleeper.thread).rouse := by
  unfold sleepPopThread
  split
  · rfl
  next stale =>
  have up := rouse_of_not_asleep fun deadline asleep => stale (fresh deadline asleep)
  rw [up, update_eq_self]

theorem sleepPopThread_magic {sleeper} (apart : thread ≠ sleeper.thread)
    : (s.sleepPopThread sleeper).magic thread = s.magic thread := by
  unfold sleepPopThread
  split
  · exact update_of_ne apart _ _
  · rfl

@[simp] theorem sleepPopThread_clicks (s : State θ) (sleeper : Sleeper θ)
    : (s.sleepPopThread sleeper).clicks = s.clicks := by
  unfold sleepPopThread
  split <;> rfl

@[simp] theorem sleepPopThread_asked (s : State θ) (sleeper : Sleeper θ)
    : (s.sleepPopThread sleeper).asked = s.asked := by
  unfold sleepPopThread
  split <;> rfl

/-- Popping several entries wakes their threads and leaves the others.
Witness: induction on the entries; a thread that has been woken is not asleep, so the entries left
still have the magic values of the threads that sleep.
-/
theorem popAll (due : List (Entry θ))
    (fresh : ∀ entry ∈ due, ∀ deadline, s.place entry.1.thread = .asleep deadline →
      entry.1.magic = s.magic entry.1.thread)
    : let after := due.foldl (fun s entry => s.sleepPopThread entry.1) s
      after.clicks = s.clicks ∧ after.asked = s.asked
        ∧ (∀ thread, after.place thread
            = if thread ∈ due.map (·.1.thread) then (s.place thread).rouse else s.place thread)
        ∧ ∀ thread ∉ due.map (·.1.thread), after.magic thread = s.magic thread := by
  induction due generalizing s with
  | nil => simp
  | cons entry rest ih =>
    have popped := sleepPopThread_place (fresh entry mem_cons_self)
    have still : ∀ later ∈ rest, ∀ deadline,
        (s.sleepPopThread entry.1).place later.1.thread = .asleep deadline →
          later.1.magic = (s.sleepPopThread entry.1).magic later.1.thread := by
      intro later mem deadline asleep
      rw [popped] at asleep
      by_cases same : later.1.thread = entry.1.thread
      · rw [same, update_self] at asleep
        exact absurd asleep (rouse_ne_asleep _ _)
      · rw [update_of_ne same] at asleep
        rw [sleepPopThread_magic same]
        exact fresh later (mem_cons_of_mem entry mem) deadline asleep
    obtain ⟨clicks, asked, places, magics⟩ := ih still
    refine ⟨clicks.trans (sleepPopThread_clicks _ _), asked.trans (sleepPopThread_asked _ _),
      fun thread => ?_, ?_⟩
    · rw [foldl_cons, places, popped, map_cons]
      by_cases same : thread = entry.1.thread
      · have idle : (s.place entry.1.thread).rouse.rouse = (s.place entry.1.thread).rouse :=
          rouse_of_not_asleep (rouse_ne_asleep _)
        simp [same, idle]
      · simp only [update_of_ne same, mem_cons, same, false_or]
    · intro thread absent
      rw [map_cons, mem_cons, not_or] at absent
      rw [foldl_cons, magics thread absent.2, sleepPopThread_magic absent.1]

omit [DecidableEq θ] in
theorem map_thread_absolute (base : ℤ) (entries : List (Entry θ))
    : (absolute base entries).map (·.1.thread) = entries.map (·.1.thread) := by
  have sleepers := congrArg (List.map Sleeper.thread) (@map_fst_absolute _ base entries)
  rwa [List.map_map, List.map_map] at sleepers

/-- (Ticks s after due kept) holds when the clock has moved on to the second state, past the
deadlines that are due and not past those that are kept, and the threads that are due were roused.
-/
structure Ticks (s after : State θ) (due kept : List (Sleeper θ × ℤ)) : Prop where
  passed : s.now ≤ after.now
  reached : ∀ x ∈ due, x.2 ≤ after.now
  left : ∀ x ∈ kept, after.now < x.2
  place : ∀ thread, after.place thread
    = if thread ∈ due.map (·.1.thread) then (s.place thread).rouse else s.place thread
  magic : ∀ thread ∉ due.map (·.1.thread), after.magic thread = s.magic thread

section Ticks

variable {after : State θ} {due kept : List (Sleeper θ × ℤ)}

theorem Ticks.sameDeadline (ticks : s.Ticks after due kept) (thread : θ)
    : (after.place thread).deadline = (s.place thread).deadline := by
  rw [ticks.place]
  split
  · exact deadline_rouse _
  · rfl

section
variable (ticks : s.Ticks after due kept) (tracks : s.Tracks (due ++ kept))
include ticks tracks

/-- A sleeping thread is due exactly when its deadline has been reached. -/
theorem Ticks.due_iff (asleep : s.place thread = .asleep deadline)
    : thread ∈ due.map (·.1.thread) ↔ deadline ≤ after.now := by
  constructor
  · intro listed
    obtain ⟨x, mem, same⟩ := mem_map.mp listed
    have pending := (tracks.pending (mem_append_left _ mem)).1
    rw [same, asleep] at pending
    cases pending
    exact ticks.reached x mem
  · intro reached
    obtain ⟨x, mem, same, is⟩ := (tracks.exact thread deadline).mpr
      ⟨by rw [asleep]; rfl, tracks.ahead thread deadline asleep⟩
    rcases mem_append.mp mem with first | second
    · exact mem_map.mpr ⟨x, first, same⟩
    · have := ticks.left x second
      omega

theorem Ticks.wakes : s.Wakes after := by
  intro thread
  rw [ticks.place]
  cases place : s.place thread with
  | asleep deadline =>
    simp only [ticks.due_iff tracks place]
    rfl
  | _ => simp [rouse]

/-- The entries that are kept stand for the threads that sleep on. -/
theorem Ticks.stays : after.Tracks kept := by
  have asleepBefore : ∀ thread deadline, after.place thread = .asleep deadline →
      thread ∉ due.map (·.1.thread) ∧ s.place thread = .asleep deadline := by
    intro thread deadline asleep
    rw [ticks.place] at asleep
    split at asleep
    · exact absurd asleep (rouse_ne_asleep _ _)
    next absent => exact ⟨absent, asleep⟩
  refine ⟨⟨?_, ?_, fun thread deadline => ⟨?_, ?_⟩⟩, ?_, ?_, ?_⟩
  · exact (pairwise_append.mp tracks.ordered).2.1
  · have once := tracks.once
    rw [map_append] at once
    exact once.of_append_right
  · rintro ⟨x, mem, rfl, rfl⟩
    rw [ticks.sameDeadline]
    exact ⟨(tracks.pending (mem_append_right _ mem)).1, ticks.left x mem⟩
  · rintro ⟨pending, ahead⟩
    rw [ticks.sameDeadline] at pending
    obtain ⟨x, mem, same, is⟩ :=
      (tracks.exact thread deadline).mpr ⟨pending, lt_of_le_of_lt ticks.passed ahead⟩
    rcases mem_append.mp mem with first | second
    · have := ticks.reached x first
      omega
    · exact ⟨x, second, same, is⟩
  · intro x mem deadline asleep
    obtain ⟨absent, before⟩ := asleepBefore _ _ asleep
    rw [ticks.magic _ absent]
    exact tracks.fresh x (mem_append_right _ mem) deadline before
  · intro thread deadline asleep
    obtain ⟨absent, before⟩ := asleepBefore _ _ asleep
    rw [ticks.due_iff tracks before] at absent
    omega
  · intro x mem
    have := tracks.near x (mem_append_right _ mem)
    have := ticks.passed
    omega

end

end Ticks

/-- A tick of at most a second wakes exactly the threads that are due, and the queue stands for the
others.
Witness: the entries split into those that are reached, which are popped, and the others.
-/
theorem Coherent.tick (coherent : s.Coherent) {ticks} (short : ticks ≤ 1023)
    : ({ s with clicks := s.clicks + ticks }.sleepSchedTick ticks).Coherent
        ∧ s.Wakes ({ s with clicks := s.clicks + ticks }.sleepSchedTick ticks) := by
  obtain ⟨keeps, entries, stored, tracks⟩ := coherent
  rw [sleepSchedTick_eq (s := { s with clicks := s.clicks + ticks }) stored short]
  have moved : ({ s with clicks := s.clicks + ticks } : State θ).now
      = s.now + (rtcTimeResolutionUsec * ticks : ℕ) := by
    simp only [now, add_mul, mul_comm ticks]
    exact Int.natCast_add _ _
  generalize rtcTimeResolutionUsec * ticks = delta at moved ⊢
  obtain ⟨split, reached, left⟩ := @absolute_advance _ s.now delta entries tracks.ordered
  rw [split] at tracks
  obtain ⟨⟨popped, rest⟩, cut⟩ : ∃ cut, advance (delta : ℤ) entries = cut := ⟨_, rfl⟩
  simp only [cut] at tracks reached left ⊢
  have fresh : ∀ entry ∈ popped, ∀ deadline, s.place entry.1.thread = .asleep deadline →
      entry.1.magic = s.magic entry.1.thread := by
    intro entry mem deadline asleep
    have listed : entry.1 ∈ (absolute s.now popped).map Prod.fst := by
      rw [map_fst_absolute]
      exact mem_map_of_mem mem
    obtain ⟨x, inside, same⟩ := mem_map.mp listed
    rw [← same] at asleep ⊢
    exact tracks.fresh x (mem_append_left _ inside) deadline asleep
  obtain ⟨clicks, asked, places, magics⟩ :=
    @State.popAll θ { s with clicks := s.clicks + ticks } _ popped fresh
  generalize popped.foldl (fun s entry => s.sleepPopThread entry.1)
    { s with clicks := s.clicks + ticks } = popState at clicks asked places magics ⊢
  have now : ({ popState with queue := some rest } : State θ).now = s.now + delta := by
    rw [← moved]
    simp [now, clicks]
  have ticked : s.Ticks { popState with queue := some rest } (absolute s.now popped)
      (absolute (s.now + delta) rest) := by
    refine ⟨?_, ?_, ?_, ?_, ?_⟩ <;> simp only [now, map_thread_absolute]
    exacts [by omega, reached, left, places, magics]
  refine ⟨⟨fun thread deadline pending => ?_, rest, rfl, ?_⟩, ticked.wakes tracks⟩
  · rw [ticked.sameDeadline] at pending
    exact (keeps thread deadline pending).trans (congrFun asked thread).symm
  · rw [now]
    exact ticked.stays tracks

omit [DecidableEq θ] in
theorem rounded_eq (clicks : ℕ) : ∃ ticks ≤ 1023, rounded clicks = clicks + ticks := by
  refine ⟨rounded clicks - clicks, ?_, ?_⟩ <;>
    · simp only [rounded, rtcTimerResolutionHz]
      omega

theorem Coherent.periodic (coherent : s.Coherent)
    : s.periodic.Coherent ∧ s.Wakes s.periodic :=
  coherent.tick (by decide)

theorem Coherent.updateEnded (coherent : s.Coherent)
    : s.updateEnded.Coherent ∧ s.Wakes s.updateEnded := by
  obtain ⟨ticks, short, eq⟩ := rounded_eq s.clicks
  unfold State.updateEnded
  rw [eq, Nat.add_sub_cancel_left]
  exact coherent.tick short

theorem Coherent.faithful (coherent : s.Coherent) : s.Faithful where
  represents := coherent.represents
  periodic := coherent.periodic.2
  updateEnded := coherent.updateEnded.2

-- Threads that are woken early, and threads that end

/-- Only the others still sleep when a thread gets to a place where it does not. -/
theorem asleep_of_update {other place} (up : ∀ deadline, place ≠ .asleep deadline)
    (asleep : update s.place thread place other = .asleep deadline)
    : other ≠ thread ∧ s.place other = .asleep deadline := by
  by_cases same : other = thread
  · rw [same, update_self] at asleep
    exact absurd asleep (up deadline)
  · rw [update_of_ne same] at asleep
    exact ⟨same, asleep⟩

/-- A thread that is roused keeps its entry until it runs. -/
theorem Coherent.rouse (coherent : s.Coherent) (thread : θ)
    : Coherent { s with
        place := update s.place thread (s.place thread).rouse
        magic := update s.magic thread (s.magic thread + 1) } := by
  obtain ⟨keeps, entries, stored, tracks⟩ := coherent
  have up := rouse_ne_asleep (s.place thread)
  have pending (other : θ)
      : (update s.place thread (s.place thread).rouse other).deadline
          = (s.place other).deadline := by
    by_cases same : other = thread
    · rw [same, update_self, deadline_rouse]
    · rw [update_of_ne same]
  refine ⟨fun other deadline is => keeps other deadline ((pending other).symm.trans is),
    entries, stored, tracks.toShows.congr ?_, ?_, ?_, tracks.near⟩
  · intro other deadline
    rw [pending]
    rfl
  · intro x mem deadline asleep
    obtain ⟨apart, before⟩ := asleep_of_update up asleep
    exact (tracks.fresh x mem deadline before).trans (update_of_ne apart _ _).symm
  · intro other deadline asleep
    exact tracks.ahead other deadline (asleep_of_update up asleep).2

/-- When a thread is not in the call any more, the others' entries stand for the sleeping
threads.
-/
theorem Tracks.leave (tracks : s.Tracks deadlines) (thread : θ) (place : Place)
    (out : place.deadline = none) (queue : Option (List (Entry θ)))
    : Tracks { s with queue := queue, place := update s.place thread place }
        (deadlines.filter (·.1.thread ≠ thread)) := by
  have up (deadline : ℤ) : place ≠ .asleep deadline := by
    rintro rfl
    cases out
  refine ⟨⟨?_, ?_, fun other deadline => ?_⟩, ?_, ?_,
    fun x mem => tracks.near x (mem_of_mem_filter mem)⟩
  · exact tracks.ordered.sublist filter_sublist
  · exact tracks.once.sublist (filter_sublist.map _)
  · by_cases same : other = thread
    · subst same
      simp [out]
    simp only [update_of_ne same]
    refine Iff.trans ?_ (tracks.exact other deadline)
    constructor
    · rintro ⟨x, mem, rest⟩
      exact ⟨x, mem_of_mem_filter mem, rest⟩
    · rintro ⟨x, mem, rfl, is⟩
      exact ⟨x, mem_filter.mpr ⟨mem, by simpa using same⟩, rfl, is⟩
  · intro x mem deadline asleep
    exact tracks.fresh x (mem_of_mem_filter mem) deadline (asleep_of_update up asleep).2
  · intro other deadline asleep
    exact tracks.ahead other deadline (asleep_of_update up asleep).2

/-- The other threads keep what they asked for. -/
theorem Keeps.leave (keeps : s.Keeps) (thread : θ) (place : Place) (out : place.deadline = none)
    (queue : Option (List (Entry θ)))
    : Keeps { s with queue := queue, place := update s.place thread place } := by
  intro other deadline pending
  by_cases same : other = thread
  · simp [same, out] at pending
  · exact keeps other deadline (by simpa only [update_of_ne same] using pending)

theorem Tracks.leaveAbsent (tracks : s.Tracks deadlines) (place : Place)
    (out : place.deadline = none) (absent : ∀ x ∈ deadlines, x.1.thread ≠ thread)
    : Tracks { s with place := update s.place thread place } deadlines := by
  have left := tracks.leave thread place out s.queue
  rwa [filter_eq_self.mpr fun x mem => decide_eq_true (absent x mem)] at left

instance (s : State θ) (thread : θ) : Decidable (s.FirstOfMany thread) := by
  unfold State.FirstOfMany
  split <;> infer_instance

/-- Except for the first of several, an entry is removed as it should be. -/
theorem sleepRemoveThread_eq (stored : s.queue = some entries) (thread : θ)
    : sleepRemoveThread thread entries
        = if s.FirstOfMany thread then none else some (remove (·.thread = thread) entries) := by
  match entries with
  | [] => simp [sleepRemoveThread, FirstOfMany, stored, remove]
  | [(sleeper, time)] =>
    by_cases same : sleeper.thread = thread <;>
      simp [sleepRemoveThread, FirstOfMany, stored, remove, same]
  | (sleeper, time) :: _ :: _ =>
    by_cases same : sleeper.thread = thread <;>
      simp [sleepRemoveThread, FirstOfMany, stored, remove, same]

/-- Where no thread occurs twice, taking one occurrence out takes the thread out. -/
theorem eraseP_eq_filter (once : (deadlines.map (·.1.thread)).Nodup) (thread : θ)
    : deadlines.eraseP ((·.thread = thread) ∘ Prod.fst)
        = deadlines.filter (·.1.thread ≠ thread) := by
  induction deadlines with
  | nil => rfl
  | cons x rest ih =>
    obtain ⟨absent, once⟩ := nodup_cons.mp once
    by_cases same : x.1.thread = thread
    · have others : ∀ y ∈ rest, decide (y.1.thread ≠ thread) = true := by
        intro y mem
        rw [decide_eq_true_iff, ← same]
        exact fun again => absent (mem_map.mpr ⟨y, mem, again⟩)
      rw [eraseP_cons_of_pos (by simpa using same),
        filter_cons_of_neg (by simpa using same), filter_eq_self.mpr others]
    · simpa [eraseP_cons, same] using ih once

/-- A thread that runs again takes its entry out of the queue. -/
theorem Coherent.wakeUp (coherent : s.Coherent) (roused : s.place thread = .roused deadline)
    (sees : s.now < deadline → timeT s.now < timeT deadline) (safe : ¬ s.FirstOfMany thread)
    : (s.wakeUp thread deadline).Coherent := by
  obtain ⟨keeps, entries, stored, tracks⟩ := coherent
  have left := tracks.leave thread .awake rfl (s.wakeUp thread deadline).queue
  refine ⟨keeps.leave thread .awake rfl _, ?_⟩
  by_cases early : timeT deadline > timeT s.now
  · refine ⟨remove (·.thread = thread) entries, ?_, ?_⟩
    · simp [State.wakeUp, early, stored, sleepRemoveThread_eq stored, safe]
    · rw [show (s.wakeUp thread deadline).now = s.now from rfl, absolute_remove,
        eraseP_eq_filter tracks.once]
      exact left
  rw [State.wakeUp, if_neg early]
  refine ⟨entries, stored, tracks.leaveAbsent .awake rfl fun x mem same => ?_⟩
  obtain ⟨pending, ahead⟩ := tracks.pending mem
  rw [same, roused] at pending
  cases pending
  exact early (sees ahead)

instance (s : State θ) (thread : θ) : Decidable (s.Listed thread) :=
  match queue : s.queue with
  | none => isFalse (by simp [State.Listed, queue])
  | some entries =>
    decidable_of_iff (thread ∈ entries.map (·.1.thread)) (by simp [State.Listed, queue])

theorem Coherent.exit (coherent : s.Coherent) (safe : ¬ s.Listed thread)
    : Coherent { s with place := update s.place thread .gone } := by
  obtain ⟨keeps, entries, stored, tracks⟩ := coherent
  refine ⟨keeps.leave thread .gone rfl s.queue, entries, stored,
    tracks.leaveAbsent .gone rfl fun x mem same => safe ⟨entries, stored, ?_⟩⟩
  rw [← map_thread_absolute s.now]
  exact mem_map.mpr ⟨x, mem, same⟩

-- Runs

instance (s : State θ) : (call : Step θ) → Decidable (s.Safe call)
  | .sleep _ request systemTimeSec =>
    inferInstanceAs (Decidable (∀ usec ∈ (requestedUsec timeT s.clicks systemTimeSec
      request).toOption, usec ≠ 0 → usec = meantUsec s.clicks systemTimeSec request))
  | .resume thread =>
    inferInstanceAs (Decidable ((∀ deadline ∈ (s.place thread).deadline,
      s.now < deadline → timeT s.now < timeT deadline) ∧ ¬ s.FirstOfMany thread))
  | .exit thread => inferInstanceAs (Decidable (¬ s.Listed thread))
  | .periodic | .updateEnded | .rouse _ => isTrue trivial

/-- Every step under the condition keeps the queue coherent. -/
theorem Coherent.step (coherent : s.Coherent) {call}
    (done : s.step call = some s') (safe : s.Safe call)
    : s'.Coherent := by
  cases call with
  | sleep thread request systemTimeSec =>
    obtain ⟨awake, done⟩ := Option.ite_none_right_eq_some.mp done
    split at done
    · cases done
      exact coherent
    next usec granted =>
    split at done
    · cases done
      exact coherent
    next nonzero =>
    cases done
    have bounds := requestedUsec_bounds granted
    rw [← safe usec (by rw [granted]; rfl) nonzero]
    exact coherent.fallAsleep awake (by omega) bounds.2
  | periodic =>
    obtain ⟨-, rfl⟩ := guarded done
    exact coherent.periodic.1
  | updateEnded =>
    obtain ⟨-, rfl⟩ := guarded done
    exact coherent.updateEnded.1
  | rouse thread =>
    obtain ⟨-, rfl⟩ := guarded done
    exact coherent.rouse thread
  | resume thread =>
    simp only [State.step] at done
    split at done <;> cases done
    next deadline roused =>
    exact coherent.wakeUp roused (safe.1 deadline (by rw [roused]; rfl)) safe.2
  | exit thread =>
    cases done
    exact coherent.exit safe

/-- The first of several entries is left in the queue when it is freed. -/
theorem Coherent.wakeUp_dangling (coherent : s.Coherent)
    (roused : s.place thread = .roused deadline)
    (sees : s.now < deadline → timeT s.now < timeT deadline) (first : s.FirstOfMany thread)
    : (s.wakeUp thread deadline).queue = none := by
  obtain ⟨-, entries, stored, tracks⟩ := coherent
  have early : timeT deadline > timeT s.now := by
    apply sees
    match entries, stored, tracks with
    | (sleeper, time) :: second :: rest, stored, tracks =>
      have same : sleeper.thread = thread := by simpa [FirstOfMany, stored] using first
      obtain ⟨pending, ahead⟩ := tracks.pending mem_cons_self
      simp only [same, roused] at pending
      cases pending
      exact ahead
    | [], stored, _ => simp [FirstOfMany, stored] at first
    | [_], stored, _ => simp [FirstOfMany, stored] at first
  simp [State.wakeUp, early, stored, sleepRemoveThread_eq stored, first]

/-- The entry of a thread that takes its deadline to be past stays in the queue. -/
theorem Coherent.wakeUp_left (coherent : s.Coherent) (roused : s.place thread = .roused deadline)
    (blind : ¬ (s.now < deadline → timeT s.now < timeT deadline))
    : ¬ (s.wakeUp thread deadline).Represents := by
  obtain ⟨-, entries, stored, tracks⟩ := coherent
  obtain ⟨ahead, late⟩ := Classical.not_imp.mp blind
  rintro ⟨-, entries', stored', shows⟩
  rw [State.wakeUp, if_neg late, stored] at stored'
  cases stored'
  obtain ⟨x, mem, same, -⟩ := (tracks.exact thread deadline).mpr ⟨by rw [roused]; rfl, ahead⟩
  have := (shows.pending mem).1
  simp [State.wakeUp, same, Place.deadline] at this

/-- After a step against the condition the queue does not stand for the sleeping threads. -/
theorem Coherent.broken (coherent : s.Coherent) {call}
    (done : s.step call = some s') (unsafeCall : ¬ s.Safe call)
    : ¬ s'.Faithful := by
  intro faithful
  obtain ⟨keeps, entries', stored', shows⟩ := faithful.represents
  cases call with
  | sleep thread request systemTimeSec =>
    obtain ⟨awake, done⟩ := Option.ite_none_right_eq_some.mp done
    refine unsafeCall fun usec granted nonzero => ?_
    cases computed : requestedUsec timeT s.clicks systemTimeSec request with
    | error errno =>
      rw [computed] at granted
      cases granted
    | ok value =>
      rw [computed] at granted done
      cases granted
      dsimp only at done
      rw [if_neg nonzero] at done
      cases done
      have asked := keeps thread (s.now + usec) (by simp [State.fallAsleep, Place.deadline])
      simpa [State.fallAsleep] using asked
  | resume thread =>
    simp only [State.step] at done
    split at done <;> cases done
    next deadline roused =>
    by_cases sees : s.now < deadline → timeT s.now < timeT deadline
    · have first : s.FirstOfMany thread := by
        by_contra other
        refine unsafeCall ⟨fun due is => ?_, other⟩
        rw [roused] at is
        cases is
        exact sees
      rw [coherent.wakeUp_dangling roused sees first] at stored'
      cases stored'
    · exact coherent.wakeUp_left roused sees ⟨keeps, entries', stored', shows⟩
  | exit thread =>
    cases done
    obtain ⟨entries, stored, listed⟩ := not_not.mp unsafeCall
    cases stored.symm.trans stored'
    rw [← map_thread_absolute s.now] at listed
    obtain ⟨x, mem, rfl⟩ := mem_map.mp listed
    have := (shows.pending mem).1
    simp [deadline] at this
  | _ => exact unsafeCall trivial

/-- Along a run from the start the queue stands for exactly the sleeping threads and the deadlines
they asked for, in the order of the deadlines, and each tick wakes exactly the threads that are due,
precisely when no sleep is computed with a sum that wraps, no thread that is woken early takes its
deadline to be past or is the first of several in the queue, and no thread ends while it has an
entry.
-/
theorem faithful_iff {calls : List (Step θ)} {states : List (State θ)}
    (run : trace step init calls = some states)
    : (∀ s ∈ states, s.Faithful) ↔ AllSafe step Safe init calls :=
  trace_forall_iff Coherent Faithful Coherent.faithful
    (fun coherent done safe => coherent.step done safe)
    (fun coherent done unsafeCall => coherent.broken done unsafeCall) init_coherent run

end State

/-- A sleep of so many seconds. -/
def Request.seconds (sec : Int64) : Request := ⟨.monotonic, false, sec, 0⟩

/-- Two threads sleep, and a signal wakes the one that would have slept longer. -/
theorem faithful_second_woken
    : ∃ states, trace step (init : State (Fin 2))
          [.sleep 0 (.seconds 1) 0, .sleep 1 (.seconds 2) 0, .rouse 1, .resume 1, .periodic]
            = some states
        ∧ ∀ s ∈ states, s.Faithful := by
  exact exists_of_isSome rfl fun _ run => (faithful_iff run).mpr (by decide)

/-- Two threads sleep, and a signal wakes the one that is due first: its entry is freed and `sq`
still points to it.
-/
theorem first_woken_dangles
    : ∃ states, trace step (init : State (Fin 2))
          [.sleep 0 (.seconds 1) 0, .sleep 1 (.seconds 2) 0, .rouse 0, .resume 0] = some states
        ∧ ¬ ∀ s ∈ states, s.Represents := by
  refine ⟨_, rfl, fun all => ?_⟩
  obtain ⟨-, entries, stored, _⟩ := all _ (mem_of_mem_getLast? (by rfl))
  cases stored

end UnstableOS.Kernel.SleepQueue
