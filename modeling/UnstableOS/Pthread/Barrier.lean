import UnstableOS.Kernel.Futex
import UnstableOS.Lib.Trace

/-! Barriers (`pthread_barrier.c`) under every interleaving of their steps.
A barrier is made for as many threads as use it. Each step is one access to `__counter`, which
counts the arrivals down and is the futex word as well, or one futex call.
-/

namespace UnstableOS.Pthread.Barrier

open Lib Kernel.Futex Function List Nat

-- The steps

/-- Where a thread is, named by the step it takes next, with its local variables. In `asleep` it
waits in `FUTEX_WAIT`, or has been woken and returns from it.
-/
inductive Place where
  | outside
  | reset
  | load
  | cas (expected : ℕ)
  | wake
  | wait (expected desired : ℕ)
  | asleep (expected desired : ℕ)
  | reload (expected : ℕ)
deriving DecidableEq

/-- The counter and the threads; and what happened: how many calls each thread has made, and for
each one that has returned whether it was `PTHREAD_BARRIER_SERIAL_THREAD`.
-/
structure State where
  counter : ℕ
  place : Tid → Place
  waits : Waits Unit
  calls : Tid → ℕ
  results : Tid → List Bool

open State

/-- A thread calls `pthread_barrier_wait`, takes the next step in it, or is woken by a signal. -/
inductive Event where
  | call (thread : Tid)
  | step (thread : Tid)
  | interrupt (thread : Tid)

def Event.thread : Event → Tid
  | .call t | .step t | .interrupt t => t

/-- `__requested_count`. -/
def requestedCount (threads : Threads) : ℕ := threads.list.length

namespace State

def goto (s : State) (t : Tid) (place : Place) : State :=
  { s with place := update s.place t place }

/-- The call returns. -/
def leave (s : State) (t : Tid) (serial : Bool) : State :=
  { s.goto t .outside with results := update s.results t (s.results t ++ [serial]) }

/-- The next step of a call; a thread that waits has none. -/
def step (threads : Threads) (s : State) (t : Tid) : Option State :=
  match s.place t with
  | .outside => none
  | .reset =>
    some { s.goto t .load with
      counter := if s.counter = 0 then requestedCount threads else s.counter }
  | .load => some (s.goto t (if s.counter = 0 then .reset else .cas s.counter))
  | .cas expected =>
    if s.counter = expected then
      let desired := expected - 1
      some { s.goto t (if desired = 0 then .wake else .wait expected desired) with
        counter := desired }
    else some (s.goto t .reset)
  | .wake => some { s.leave t true with waits := futexWake threads s.waits () (-1) }
  | .wait expected desired =>
    match futexWait threads s.waits t () s.counter desired with
    | .ok waits => some { s.goto t (.asleep expected desired) with waits := waits }
    | .error .eagain => some (s.goto t (.reload expected))
    | .error _ => some (s.leave t false)
  | .asleep _ _ => if s.waits t = none then some (s.leave t false) else none
  | .reload expected =>
    let desired := s.counter
    if desired = 0 ∨ desired > expected then some (s.leave t false)
    else some (s.goto t (.wait expected desired))

/-- Each thread makes a number of calls. A barrier for one thread does not wait. -/
def perform (threads : Threads) (rounds : ℕ) (s : State) (event : Event) : Option State :=
  if event.thread ∉ threads.list then none
  else
    match event with
    | .call t =>
      if s.place t = .outside ∧ s.calls t < rounds then
        let s := { s with calls := update s.calls t (s.calls t + 1) }
        if requestedCount threads = 1 then some (s.leave t true) else some (s.goto t .reset)
      else none
    | .step t => s.step threads t
    | .interrupt t =>
      match s.place t with
      | .asleep expected _ =>
        some { s.goto t (.reload expected) with waits := update s.waits t none }
      | _ => none

/-- `pthread_barrier_init`. -/
def initial (threads : Threads) : State :=
  ⟨requestedCount threads, fun _ => .outside, fun _ => none, fun _ => 0, fun _ => []⟩

end State

-- The property

/-- (Correct threads rounds s) holds when no thread has returned more often than every other one has
called, one thread of each round is the serial one, and a thread that has calls to make or to
return from is not blocked.
-/
structure State.Correct (threads : Threads) (rounds : ℕ) (s : State) : Prop where
  ordered : ∀ t ∈ threads.list, ∀ u ∈ threads.list, (s.results t).length ≤ s.calls u
  atMostOne : ∀ k : ℕ, ∀ t ∈ threads.list, ∀ u ∈ threads.list,
    (s.results t)[k]? = some true → (s.results u)[k]? = some true → t = u
  atLeastOne : ∀ k : ℕ, (∀ t ∈ threads.list, k < (s.results t).length) →
    ∃ t ∈ threads.list, (s.results t)[k]? = some true
  live : (∃ t ∈ threads.list, (s.results t).length < rounds) →
    ∃ t ∈ threads.list, (s.results t).length < rounds ∧ s.waits t = none

/-- A thread makes its next call only when all threads have returned from their previous one. -/
def State.Safe (threads : Threads) (s : State) : Event → Prop
  | .call t => ∀ u ∈ threads.list, s.calls t ≤ (s.results u).length
  | _ => True

-- The invariant

/-- (Fits round counter calls returned isIn full waiting place) says what a place means in a round.
A thread is in when it has counted itself, and the round is full when all threads are in.
-/
def Fits (round counter calls returned : ℕ) (isIn full waiting : Prop) : Place → Prop
  | .outside =>
    calls = round ∧ returned = round ∧ ¬ isIn
      ∨ calls = round + 1 ∧ returned = round + 1 ∧ isIn ∧ full
  | .reset | .load => calls = round + 1 ∧ returned = round ∧ ¬ isIn
  | .cas expected => calls = round + 1 ∧ returned = round ∧ ¬ isIn ∧ expected ≠ 0
  | .wake => calls = round + 1 ∧ returned = round ∧ isIn ∧ full
  | .wait expected desired =>
    calls = round + 1 ∧ returned = round ∧ isIn ∧ counter < expected ∧ desired ≠ 0
  | .asleep expected _ =>
    calls = round + 1 ∧ returned = round ∧ isIn ∧ counter < expected ∧ (¬ waiting → full)
  | .reload expected => calls = round + 1 ∧ returned = round ∧ isIn ∧ counter < expected

/-- The thread is the one that was last to arrive in a round. -/
def State.Leads (s : State) (round : ℕ) (t : Tid) : Prop :=
  s.place t = .wake ∨ (s.results t)[round]? = some true

/-- (Sound threads s round arrived) describes a state in the middle of a round, where `arrived` are
the threads that have counted themselves.
-/
structure Sound (threads : Threads) (s : State) (round : ℕ) (arrived : List Tid) : Prop where
  nodup : arrived.Nodup
  subset : arrived ⊆ threads.list
  count : s.counter + arrived.length = requestedCount threads ∨ arrived = [] ∧ s.counter = 0
  fits : ∀ t ∈ threads.list, Fits round s.counter (s.calls t) (s.results t).length (t ∈ arrived)
    (arrived.length = requestedCount threads) (s.waits t ≠ none) (s.place t)
  awake : ∀ t ∈ threads.list, s.waits t ≠ none →
    (∃ expected desired, s.place t = .asleep expected desired)
      ∧ (arrived.length = requestedCount threads → ∃ u ∈ threads.list, s.place u = .wake)
  past : ∀ k < round, ∃ t ∈ threads.list, ∀ u ∈ threads.list, (s.results u)[k]? = some true ↔ u = t
  leader : arrived.length = requestedCount threads →
    ∃ t ∈ threads.list, ∀ u ∈ threads.list, s.Leads round u ↔ u = t
  noLeader : arrived.length ≠ requestedCount threads → ∀ u ∈ threads.list, ¬ s.Leads round u

variable {round counter calls returned : ℕ} {isIn full waiting : Prop} {place : Place}

section
variable (fits : Fits round counter calls returned isIn full waiting place)
include fits

/-- What a place means does not change when the counter goes down, the round gets full, and threads
are woken then.
-/
theorem Fits.mono {counter' isIn' full' waiting'}
    (same : isIn' ↔ isIn) (less : isIn → counter' ≤ counter) (grows : full → full')
    (woken : waiting → ¬ waiting' → full')
    : Fits round counter' calls returned isIn' full' waiting' place := by
  cases place with
  | outside =>
    rcases fits with ⟨called, back, out⟩ | ⟨called, back, isIn, isFull⟩
    · exact .inl ⟨called, back, mt same.mp out⟩
    · exact .inr ⟨called, back, same.mpr isIn, grows isFull⟩
  | reset | load => exact ⟨fits.1, fits.2.1, mt same.mp fits.2.2⟩
  | cas expected => exact ⟨fits.1, fits.2.1, mt same.mp fits.2.2.1, fits.2.2.2⟩
  | wake => exact ⟨fits.1, fits.2.1, same.mpr fits.2.2.1, grows fits.2.2.2⟩
  | wait expected desired =>
    obtain ⟨called, back, isIn, above, nonzero⟩ := fits
    exact ⟨called, back, same.mpr isIn, lt_of_le_of_lt (less isIn) above, nonzero⟩
  | asleep expected desired =>
    obtain ⟨called, back, isIn, above, isFull⟩ := fits
    refine ⟨called, back, same.mpr isIn, lt_of_le_of_lt (less isIn) above, fun notWaiting => ?_⟩
    by_cases waits : waiting
    · exact woken waits notWaiting
    · exact grows (isFull waits)
  | reload expected =>
    obtain ⟨called, back, isIn, above⟩ := fits
    exact ⟨called, back, same.mpr isIn, lt_of_le_of_lt (less isIn) above⟩

/-- Calls and returns in a round. -/
theorem Fits.bounds
    : round ≤ returned ∧ returned ≤ round + 1 ∧ round ≤ calls ∧ (isIn → calls = round + 1)
        ∧ (returned = round + 1 → full ∧ place = .outside) := by
  cases place with
  | outside =>
    rcases fits with ⟨called, back, out⟩ | ⟨called, back, isIn, isFull⟩
    · exact ⟨by omega, by omega, by omega, fun isIn => absurd isIn out, by omega⟩
    · exact ⟨by omega, by omega, by omega, fun _ => called, fun _ => ⟨isFull, rfl⟩⟩
  | _ =>
    obtain ⟨called, back, _⟩ := fits
    exact ⟨by omega, by omega, by omega, fun _ => called, by omega⟩

end

namespace Sound

variable {threads : Threads} {s s' : State} {round : ℕ} {arrived : List Tid} {t : Tid}

theorem init (inUse : requestedCount threads ≠ 0) : Sound threads (.initial threads) 0 [] where
  nodup := nodup_nil
  subset := nil_subset _
  count := .inl (Nat.add_zero _)
  fits _ _ := .inl ⟨rfl, rfl, not_mem_nil⟩
  awake _ _ waits := absurd rfl waits
  past _ before := absurd before (not_lt_zero _)
  leader full := absurd full.symm inUse
  noLeader _ _ _ leads := by
    rcases leads with atWake | serial
    · cases atWake
    · cases serial

section
variable (sound : Sound threads s round arrived)
include sound

theorem mem_of_full (full : arrived.length = requestedCount threads) (mem : t ∈ threads.list)
    : t ∈ arrived := by
  have perm := (subperm_of_subset sound.nodup sound.subset).perm_of_length_le (le_of_eq full.symm)
  exact perm.mem_iff.mpr mem

theorem not_full (mem : t ∈ threads.list) (notIn : t ∉ arrived)
    : arrived.length ≠ requestedCount threads :=
  fun full => notIn (sound.mem_of_full full mem)

theorem counter_zero (isIn : t ∈ arrived)
    : s.counter = 0 ↔ arrived.length = requestedCount threads := by
  rcases sound.count with count | ⟨none, _⟩
  · omega
  · rw [none] at isIn
    cases isIn

/-- Somebody is not in yet. -/
theorem exists_not_mem (notFull : arrived.length ≠ requestedCount threads)
    : ∃ t ∈ threads.list, t ∉ arrived := by
  by_contra all
  have subset : threads.list ⊆ arrived := by
    intro t mem
    by_contra notIn
    exact all ⟨t, mem, notIn⟩
  have atMost := (subperm_of_subset sound.nodup sound.subset).length_le
  have atLeast := (subperm_of_subset threads.nodup subset).length_le
  exact notFull (le_antisymm atMost atLeast)

theorem fits_of (mem : t ∈ threads.list) {place} (isAt : s.place t = place)
    : Fits round s.counter (s.calls t) (s.results t).length (t ∈ arrived)
        (arrived.length = requestedCount threads) (s.waits t ≠ none) place :=
  isAt ▸ sound.fits t mem

theorem not_waiting (mem : t ∈ threads.list)
    (elsewhere : ∀ expected desired, s.place t ≠ .asleep expected desired)
    : s.waits t = none := by
  by_contra waits
  obtain ⟨⟨expected, desired, isAt⟩, _⟩ := sound.awake t mem waits
  exact elsewhere expected desired isAt

-- The property follows

theorem ordered {u} (mem : t ∈ threads.list) (other : u ∈ threads.list)
    : (s.results t).length ≤ s.calls u := by
  obtain ⟨_, atMost, _, _, returned⟩ := (sound.fits t mem).bounds
  obtain ⟨_, _, atLeast, called, _⟩ := (sound.fits u other).bounds
  by_cases back : (s.results t).length = round + 1
  · have isIn := sound.mem_of_full (returned back).1 other
    exact le_of_eq (back.trans (called isIn).symm)
  · omega

theorem atMostOne {u} {k : ℕ} (mem : t ∈ threads.list) (other : u ∈ threads.list)
    (first : (s.results t)[k]? = some true) (second : (s.results u)[k]? = some true)
    : t = u := by
  rcases lt_trichotomy k round with before | now | after
  · obtain ⟨leader, _, only⟩ := sound.past k before
    rw [(only t mem).mp first, (only u other).mp second]
  · subst now
    by_cases full : arrived.length = requestedCount threads
    · obtain ⟨leader, _, only⟩ := sound.leader full
      rw [(only t mem).mp (.inr first), (only u other).mp (.inr second)]
    · exact absurd (.inr first) (sound.noLeader full t mem)
  · have short := (sound.fits t mem).bounds.2.1
    have none : (s.results t)[k]? = none := getElem?_eq_none (by omega)
    rw [none] at first
    cases first

theorem atLeastOne (inUse : requestedCount threads ≠ 0)
    {k} (back : ∀ t ∈ threads.list, k < (s.results t).length)
    : ∃ t ∈ threads.list, (s.results t)[k]? = some true := by
  obtain ⟨t, mem⟩ := exists_mem_of_length_pos (Nat.pos_of_ne_zero inUse)
  have short := (sound.fits t mem).bounds.2.1
  have long := back t mem
  by_cases before : k < round
  · obtain ⟨leader, isThread, only⟩ := sound.past k before
    exact ⟨leader, isThread, (only leader isThread).mpr rfl⟩
  have now : k = round := by omega
  subst now
  obtain ⟨full, _⟩ := (sound.fits t mem).bounds.2.2.2.2 (by omega)
  obtain ⟨leader, isThread, only⟩ := sound.leader full
  refine ⟨leader, isThread, ?_⟩
  rcases (only leader isThread).mpr rfl with atWake | serial
  · have notBack := (sound.fits_of isThread atWake).2.1
    exact absurd (back leader isThread) (by omega)
  · exact serial

theorem live {rounds} (mem : t ∈ threads.list) (unfinished : (s.results t).length < rounds)
    : ∃ u ∈ threads.list, (s.results u).length < rounds ∧ s.waits u = none := by
  by_cases full : arrived.length = requestedCount threads
  · by_cases waits : s.waits t = none
    · exact ⟨t, mem, unfinished, waits⟩
    obtain ⟨_, waker⟩ := sound.awake t mem waits
    obtain ⟨u, isThread, atWake⟩ := waker full
    have notBack := (sound.fits_of isThread atWake).2.1
    have atLeast := (sound.fits t mem).bounds.1
    refine ⟨u, isThread, by omega, sound.not_waiting isThread ?_⟩
    rw [atWake]
    nofun
  · obtain ⟨u, isThread, notIn⟩ := sound.exists_not_mem full
    have bounds := (sound.fits u isThread).bounds
    have atLeast := (sound.fits t mem).bounds.1
    refine ⟨u, isThread, by omega, sound.not_waiting isThread fun expected desired isAt => ?_⟩
    exact notIn (sound.fits_of isThread isAt).2.2.1

theorem correct (inUse : requestedCount threads ≠ 0) (rounds : ℕ)
    : s.Correct threads rounds where
  ordered _ mem _ other := sound.ordered mem other
  atMostOne _ _ mem _ other first second := sound.atMostOne mem other first second
  atLeastOne _ back := sound.atLeastOne inUse back
  live := fun ⟨_, mem, unfinished⟩ => sound.live mem unfinished

end

-- The steps keep it

section Moves
variable {place : Place}

theorem leads_goto (notWake : s.place t ≠ .wake) (notWakes : place ≠ .wake) (u : Tid)
    : (s.goto t place).Leads round u ↔ s.Leads round u := by
  by_cases same : u = t
  · have isAt : (s.goto t place).place u = place := same ▸ update_self ..
    have wasAt := same ▸ notWake
    simp only [Leads, isAt, notWakes, wasAt, false_or]
    rfl
  · have kept : (s.goto t place).place u = s.place u := update_of_ne same ..
    simp only [Leads, kept]
    rfl

section
variable (sound : Sound threads s round arrived)
include sound

/-- A thread goes to another place, and may call, go to sleep or stop to wait there. -/
theorem move (calls : ℕ) (waits : Option Unit)
    (notWake : s.place t ≠ .wake) (notWakes : place ≠ .wake)
    (fits : Fits round s.counter calls (s.results t).length (t ∈ arrived)
      (arrived.length = requestedCount threads) (waits ≠ none) place)
    (asleep : waits ≠ none → (∃ expected desired, place = .asleep expected desired)
      ∧ arrived.length ≠ requestedCount threads)
    : Sound threads { s.goto t place with
        calls := update s.calls t calls, waits := update s.waits t waits }
        round arrived := by
  have leads (u : Tid) := @leads_goto s round t place notWake notWakes u
  have atPlace : (s.goto t place).place t = place := update_self ..
  have kept {u} (other : u ≠ t) : (s.goto t place).place u = s.place u :=
    update_of_ne other ..
  refine ⟨sound.nodup, sound.subset, sound.count, fun u mem => ?_, fun u mem isWaiting => ?_,
    sound.past, fun full => ?_, fun notFull u mem => ?_⟩
  · show Fits round s.counter (update s.calls t calls u) (s.results u).length (u ∈ arrived) _
      (update s.waits t waits u ≠ none) ((s.goto t place).place u)
    by_cases other : u = t
    · subst other
      rw [update_self, update_self, atPlace]
      exact fits
    · rw [update_of_ne other, update_of_ne other, kept other]
      exact sound.fits u mem
  · change update s.waits t waits u ≠ none at isWaiting
    by_cases other : u = t
    · subst other
      rw [update_self] at isWaiting
      obtain ⟨⟨expected, desired, isAsleep⟩, notFull⟩ := asleep isWaiting
      exact ⟨⟨expected, desired, atPlace.trans isAsleep⟩, fun full => absurd full notFull⟩
    · rw [update_of_ne other] at isWaiting
      obtain ⟨⟨expected, desired, isAt⟩, waker⟩ := sound.awake u mem isWaiting
      refine ⟨⟨expected, desired, (kept other).trans isAt⟩, fun full => ?_⟩
      obtain ⟨w, isThread, atWake⟩ := waker full
      have notThis : w ≠ t := fun same => notWake (same ▸ atWake)
      exact ⟨w, isThread, (kept notThis).trans atWake⟩
  · obtain ⟨w, isThread, only⟩ := sound.leader full
    exact ⟨w, isThread, fun u mem => (leads u).trans (only u mem)⟩
  · exact mt (leads u).mp (sound.noLeader notFull u mem)

theorem goto (notWaits : s.waits t = none) (notWake : s.place t ≠ .wake) (notWakes : place ≠ .wake)
    (fits : Fits round s.counter (s.calls t) (s.results t).length (t ∈ arrived)
      (arrived.length = requestedCount threads) (s.waits t ≠ none) place)
    : Sound threads (s.goto t place) round arrived := by
  have moved := sound.move (s.calls t) (s.waits t) notWake notWakes fits fun waits =>
    absurd notWaits waits
  rwa [update_eq_self, update_eq_self] at moved

/-- The counter is reset for a round in which nobody is in. -/
theorem reset (mem : t ∈ threads.list) (notIn : t ∉ arrived)
    : Sound threads { s with
        counter := if s.counter = 0 then requestedCount threads else s.counter } round arrived := by
  split
  next zero =>
    have none : arrived = [] := by
      rcases sound.count with count | ⟨none, _⟩
      · exact absurd (by omega) (sound.not_full mem notIn)
      · exact none
    subst none
    refine { sound with count := .inl (Nat.add_zero _), fits := fun u isThread => ?_ }
    exact (sound.fits u isThread).mono Iff.rfl (fun isIn => absurd isIn not_mem_nil) id
      fun waits notWaits => absurd waits notWaits
  · exact sound

/-- A thread counts itself, and is the leader when it is the last one. -/
theorem arrive (mem : t ∈ threads.list)
    {expected} (isAt : s.place t = .cas expected) (same : s.counter = expected)
    : Sound threads { s.goto t (if expected - 1 = 0 then .wake
      else .wait expected (expected - 1)) with
        counter := expected - 1 } round (t :: arrived) := by
  obtain ⟨called, back, notIn, nonzero⟩ := sound.fits_of mem isAt
  have notFull := sound.not_full mem notIn
  have count : s.counter + arrived.length = requestedCount threads := by
    rcases sound.count with count | ⟨_, zero⟩
    · exact count
    · exact absurd (same.symm.trans zero) nonzero
  have isFull : (t :: arrived).length = requestedCount threads ↔ expected - 1 = 0 := by
    rw [length_cons]
    omega
  have notWaits := sound.not_waiting mem (by rw [isAt]; nofun)
  have notSerial := getElem?_eq_none (le_of_eq back)
  -- the place of the thread afterwards
  generalize place : (if expected - 1 = 0 then Place.wake else .wait expected (expected - 1)) = p
  have atPlace : (s.goto t p).place t = p := update_self ..
  have kept {u} (other : u ≠ t) : (s.goto t p).place u = s.place u :=
    update_of_ne other ..
  have leadsOther {u} (other : u ≠ t) (isThread : u ∈ threads.list)
      : ¬ (s.goto t p).Leads round u := by
    rintro (atWake | serial)
    · exact sound.noLeader notFull u isThread (.inl ((kept other).symm.trans atWake))
    · exact sound.noLeader notFull u isThread (.inr serial)
  refine ⟨nodup_cons.mpr ⟨notIn, sound.nodup⟩,
    cons_subset.mpr ⟨mem, sound.subset⟩, .inl ?_, fun u isThread => ?_, ?_,
    sound.past, fun full => ?_, fun notYet u isThread => ?_⟩
  · show expected - 1 + (arrived.length + 1) = requestedCount threads
    omega
  · by_cases other : u = t
    · subst other
      show Fits round (expected - 1) (s.calls u) (s.results u).length (u ∈ u :: arrived) _ _
        ((s.goto u p).place u)
      rw [atPlace, ← place]
      split
      next last => exact ⟨called, back, mem_cons_self, isFull.mpr last⟩
      next more => exact ⟨called, back, mem_cons_self, by omega, more⟩
    · show Fits round (expected - 1) (s.calls u) (s.results u).length (u ∈ t :: arrived) _ _
        ((s.goto t p).place u)
      rw [kept other]
      exact (sound.fits u isThread).mono (by rw [mem_cons, or_iff_right other])
        (fun _ => by omega) (fun full => absurd full notFull)
          fun waits noWaits => absurd waits noWaits
  · intro u isThread waits
    have other : u ≠ t := fun same => waits (same ▸ notWaits)
    obtain ⟨⟨expected', desired, isAsleep⟩, _⟩ := sound.awake u isThread waits
    refine ⟨⟨expected', desired, (kept other).trans isAsleep⟩, fun full => ⟨t, mem, ?_⟩⟩
    rw [atPlace, ← place, if_pos (isFull.mp full)]
  · refine ⟨t, mem, fun u isThread => ⟨fun leads => ?_, fun same => .inl ?_⟩⟩
    · by_contra other
      exact leadsOther other isThread leads
    · show (s.goto t p).place u = .wake
      rw [same, atPlace, ← place, if_pos (isFull.mp full)]
  · by_cases other : u = t
    · rintro (atWake | serial)
      · have isWake := atWake
        rw [other, atPlace, ← place, if_neg (mt isFull.mpr notYet)] at isWake
        cases isWake
      · rw [other] at serial
        cases notSerial.symm.trans serial
    · exact leadsOther other isThread

/-- A thread returns from a full round, in which the last one in has woken the others. -/
theorem leave {serial waits}
    (called : s.calls t = round + 1) (back : (s.results t).length = round) (isIn : t ∈ arrived)
    (full : arrived.length = requestedCount threads) (isSerial : serial = true ↔ s.place t = .wake)
    (stillWaits : ∀ u ∈ threads.list, waits u ≠ none → s.waits u ≠ none ∧ u ≠ t ∧ s.place t ≠ .wake)
    : Sound threads { s.leave t serial with waits := waits } round arrived := by
  have atPlace : (s.leave t serial).place t = .outside := update_self ..
  have kept {u} (other : u ≠ t) : (s.leave t serial).place u = s.place u :=
    update_of_ne other ..
  have result : (s.leave t serial).results t = s.results t ++ [serial] := update_self ..
  have keptResults {u} (other : u ≠ t) : (s.leave t serial).results u = s.results u :=
    update_of_ne other ..
  refine ⟨sound.nodup, sound.subset, sound.count, fun u mem => ?_, fun u mem isWaiting => ?_,
    fun k before => ?_, fun _ => ?_, fun notFull => absurd full notFull⟩
  · show Fits round s.counter (s.calls u) ((s.leave t serial).results u).length (u ∈ arrived) _
      (waits u ≠ none) ((s.leave t serial).place u)
    by_cases other : u = t
    · subst other
      rw [result, atPlace, length_append, back]
      exact .inr ⟨called, rfl, isIn, full⟩
    · rw [keptResults other, kept other]
      exact (sound.fits u mem).mono Iff.rfl (fun _ => le_refl _) id fun _ _ => full
  · obtain ⟨wasWaiting, other, notWake⟩ := stillWaits u mem isWaiting
    obtain ⟨⟨expected, desired, isAt⟩, waker⟩ := sound.awake u mem wasWaiting
    refine ⟨⟨expected, desired, (kept other).trans isAt⟩, fun _ => ?_⟩
    obtain ⟨w, isThread, atWake⟩ := waker full
    have notThis : w ≠ t := fun same => notWake (same ▸ atWake)
    exact ⟨w, isThread, (kept notThis).trans atWake⟩
  · obtain ⟨leader, isThread, only⟩ := sound.past k before
    refine ⟨leader, isThread, fun u mem => ?_⟩
    rw [← only u mem]
    by_cases other : u = t
    · rw [other, result, getElem?_append_left (by omega)]
    · rw [keptResults other]
  · obtain ⟨leader, isThread, only⟩ := sound.leader full
    refine ⟨leader, isThread, fun u mem => ?_⟩
    rw [← only u mem]
    show (s.leave t serial).place u = .wake ∨ ((s.leave t serial).results u)[round]? = some true ↔ _
    by_cases other : u = t
    · have notYet := getElem?_eq_none (le_of_eq back)
      have now : (s.results t ++ [serial])[round]? = some serial := by
        rw [← back, getElem?_concat_length]
      simp [Leads, other, atPlace, result, notYet, now, isSerial]
    · rw [keptResults other, kept other]
      rfl

/-- All threads are back, so that the next round begins. -/
theorem next (mem : t ∈ threads.list) (done : ∀ u ∈ threads.list, round + 1 ≤ (s.results u).length)
    : Sound threads s (round + 1) [] := by
  have back (u : Tid) (isThread : u ∈ threads.list) : (s.results u).length = round + 1 :=
    le_antisymm (sound.fits u isThread).bounds.2.1 (done u isThread)
  have isOut (u : Tid) (isThread : u ∈ threads.list) : s.place u = .outside :=
    ((sound.fits u isThread).bounds.2.2.2.2 (back u isThread)).2
  have full := ((sound.fits t mem).bounds.2.2.2.2 (back t mem)).1
  have inUse := ne_of_gt (length_pos_of_mem mem)
  refine ⟨nodup_nil, nil_subset _,
    .inr ⟨rfl, (sound.counter_zero (sound.mem_of_full full mem)).mpr full⟩,
    fun u isThread => ?_, fun u isThread waits => ?_, fun k before => ?_,
    fun none => absurd none.symm inUse, fun _ u isThread leads => ?_⟩
  · have called := (sound.fits u isThread).bounds.2.2.2.1 (sound.mem_of_full full isThread)
    rw [isOut u isThread]
    exact .inl ⟨called, back u isThread, not_mem_nil⟩
  · obtain ⟨⟨expected, desired, isAsleep⟩, _⟩ := sound.awake u isThread waits
    exact nomatch (isOut u isThread).symm.trans isAsleep
  · rcases Nat.lt_succ_iff_lt_or_eq.mp before with earlier | rfl
    · exact sound.past k earlier
    obtain ⟨leader, isThread, only⟩ := sound.leader full
    refine ⟨leader, isThread, fun u mem => ?_⟩
    rw [← only u mem, Leads, isOut u mem]
    simp
  · rcases leads with atWake | serial
    · exact nomatch (isOut u isThread).symm.trans atWake
    · rw [getElem?_eq_none (le_of_eq (back u isThread))] at serial
      cases serial

end

end Moves

section
variable (sound : Sound threads s round arrived)
include sound

/-- A thread that did not wait returns without being the serial one. -/
theorem leave_plain (called : s.calls t = round + 1)
    (back : (s.results t).length = round) (isIn : t ∈ arrived)
    (full : arrived.length = requestedCount threads) (notWaits : s.waits t = none)
    (notWake : s.place t ≠ .wake)
    : Sound threads (s.leave t false) round arrived :=
  sound.leave called back isIn full (iff_of_false Bool.false_ne_true notWake)
    fun _ _ waits => ⟨waits, fun same => waits (same ▸ notWaits), notWake⟩

theorem step_sound (many : 1 < requestedCount threads)
    (mem : t ∈ threads.list) (done : s.step threads t = some s')
    : ∃ arrived', Sound threads s' round arrived' := by
  unfold step at done
  split at done
  next => cases done
  next isAt =>
    cases done
    obtain ⟨called, back, notIn⟩ := sound.fits_of mem isAt
    have notWaits := sound.not_waiting mem (by rw [isAt]; nofun)
    exact ⟨arrived, (sound.reset mem notIn).goto notWaits (by rw [isAt]; nofun) (by nofun)
      ⟨called, back, notIn⟩⟩
  next isAt =>
    cases done
    obtain ⟨called, back, notIn⟩ := sound.fits_of mem isAt
    have notWaits := sound.not_waiting mem (by rw [isAt]; nofun)
    refine ⟨arrived, sound.goto notWaits (by rw [isAt]; nofun) (by split <;> nofun) ?_⟩
    split
    · exact ⟨called, back, notIn⟩
    next nonzero => exact ⟨called, back, notIn, nonzero⟩
  next expected isAt =>
    split at done <;> cases done
    next same =>
      exact ⟨t :: arrived, sound.arrive mem isAt same⟩
    · obtain ⟨called, back, notIn, _⟩ := sound.fits_of mem isAt
      have notWaits := sound.not_waiting mem (by rw [isAt]; nofun)
      exact ⟨arrived, sound.goto notWaits (by rw [isAt]; nofun) (by nofun) ⟨called, back, notIn⟩⟩
  next isAt =>
    cases done
    obtain ⟨called, back, isIn, full⟩ := sound.fits_of mem isAt
    refine ⟨arrived, sound.leave called back isIn full (iff_of_true rfl isAt) ?_⟩
    intro u isThread waits
    exact absurd (Option.ne_none_iff_exists'.mp waits).choose_spec (futexWake_all isThread)
  next expected desired isAt =>
    obtain ⟨called, back, isIn, above, nonzero⟩ := sound.fits_of mem isAt
    have notWaits := sound.not_waiting mem (by rw [isAt]; nofun)
    split at done
    next waits slept =>
      cases done
      obtain ⟨same, rfl⟩ := futexWait_ok slept
      have notFull := mt (sound.counter_zero isIn).mpr (same ▸ nonzero)
      have moved := @move _ _ _ _ _ (.asleep expected desired) sound (s.calls t) (some ())
        (by rw [isAt]; nofun) (by nofun) ⟨called, back, isIn, above,
          fun notWaiting => by simp at notWaiting⟩
        fun _ => ⟨⟨expected, desired, rfl⟩, notFull⟩
      rw [update_eq_self] at moved
      exact ⟨arrived, moved⟩
    · cases done
      exact ⟨arrived, sound.goto notWaits (by rw [isAt]; nofun) (by nofun)
        ⟨called, back, isIn, above⟩⟩
    next error other failed => exact absurd (futexWait_error many failed) other
  next expected desired isAt =>
    obtain ⟨notWaits, rfl⟩ := guarded done
    obtain ⟨called, back, isIn, _, full⟩ := sound.fits_of mem isAt
    exact ⟨arrived, sound.leave_plain called back isIn (full (not_not.mpr notWaits)) notWaits
      (by rw [isAt]; nofun)⟩
  next expected isAt =>
    obtain ⟨called, back, isIn, above⟩ := sound.fits_of mem isAt
    have notWaits := sound.not_waiting mem (by rw [isAt]; nofun)
    simp only at done
    split at done <;> cases done
    next ended =>
      have full := (sound.counter_zero isIn).mp (ended.resolve_right (not_lt.mpr above.le))
      exact ⟨arrived, sound.leave_plain called back isIn full notWaits (by rw [isAt]; nofun)⟩
    next goesOn =>
      refine ⟨arrived, sound.goto notWaits (by rw [isAt]; nofun) (by nofun) ?_⟩
      exact ⟨called, back, isIn, above, fun zero => goesOn (.inl zero)⟩

/-- A call opens the next round when all threads are back from the last one. -/
theorem call (mem : t ∈ threads.list)
    (isAt : s.place t = .outside) (safe : s.Safe threads (.call t))
    : ∃ round' arrived', Sound threads
        ({ s with calls := update s.calls t (s.calls t + 1) }.goto t .reset) round' arrived' := by
  -- in its own round the thread is outside before it has called
  have opens {round : ℕ} {arrived : List Tid} (sound : Sound threads s round arrived)
      (called : s.calls t = round) (back : (s.results t).length = round) (notIn : t ∉ arrived)
      : Sound threads ({ s with calls := update s.calls t (s.calls t + 1) }.goto t .reset)
          round arrived := by
    have notWaits := sound.not_waiting mem (by rw [isAt]; nofun)
    have moved := @move _ _ _ _ _ .reset sound (s.calls t + 1) (s.waits t) (by rw [isAt]; nofun)
      (by nofun) ⟨by rw [called], back, notIn⟩ fun waits => absurd notWaits waits
    rwa [update_eq_self] at moved
  rcases sound.fits_of mem isAt with ⟨called, back, notIn⟩ | ⟨called, back, _, _⟩
  · exact ⟨round, arrived, opens sound called back notIn⟩
  · have following := sound.next mem fun u isThread => called ▸ safe u isThread
    exact ⟨round + 1, [], opens following called back not_mem_nil⟩

theorem interrupt (mem : t ∈ threads.list)
    {expected desired} (isAt : s.place t = .asleep expected desired)
    : Sound threads { s.goto t (.reload expected) with waits := update s.waits t none }
        round arrived := by
  obtain ⟨called, back, isIn, above, _⟩ := sound.fits_of mem isAt
  have moved := @move _ _ _ _ _ (.reload expected) sound (s.calls t) none (by rw [isAt]; nofun)
    (by nofun) ⟨called, back, isIn, above⟩ fun waits => absurd rfl waits
  rwa [update_eq_self] at moved

theorem perform_sound (many : 1 < requestedCount threads)
    {rounds event} (safe : s.Safe threads event) (done : s.perform threads rounds event = some s')
    : ∃ round' arrived', Sound threads s' round' arrived' := by
  unfold perform at done
  split at done
  · cases done
  next isThread =>
  have mem := not_not.mp isThread
  cases event with
  | call t =>
    simp only [ne_of_gt many, if_false] at done
    split at done <;> cases done
    next ready =>
    exact sound.call mem ready.1 safe
  | step t => exact ⟨round, sound.step_sound many mem done⟩
  | interrupt t =>
    simp only at done
    split at done <;> cases done
    next isAt =>
    exact ⟨round, arrived, sound.interrupt mem isAt⟩

end

end Sound

instance (threads : Threads) (s : State) (event : Event) : Decidable (s.Safe threads event) :=
  match event with
  | .call t => List.decidableBAll (fun u => s.calls t ≤ (s.results u).length) threads.list
  | .step _ => isTrue trivial
  | .interrupt _ => isTrue trivial

/-- While no thread runs ahead of the others, nobody returns before all have called, each round has
one serial thread, and nobody stays blocked. -/
theorem rounds_correct_of_safe (threads : Threads) (many : 2 ≤ requestedCount threads) (rounds : ℕ)
    {events : List Event} {states : List State}
    (run : trace (perform threads rounds) (.initial threads) events = some states)
    (allSafe : AllSafe (perform threads rounds) (Safe threads) (.initial threads) events)
    : ∀ state ∈ states, state.Correct threads rounds := by
  have first : ∃ round arrived, Sound threads (.initial threads) round arrived :=
    ⟨0, [], Sound.init (by omega)⟩
  have inv := trace_forall (fun s => ∃ round arrived, Sound threads s round arrived)
    (fun ⟨_, _, sound⟩ done safe => sound.perform_sound many safe done) first run allSafe
  intro state isIn
  obtain ⟨round, arrived, sound⟩ := inv state isIn
  exact sound.correct (by omega) rounds

/-- Two threads. -/
def two : Threads := ⟨[0, 1], by decide⟩

/-- Two rounds, one with thread 0 asleep and one with the word changed before it sleeps. -/
def twoRounds : List Event :=
  Event.call 0 :: List.replicate 4 (Event.step 0)
    ++ Event.call 1 :: List.replicate 4 (Event.step 1) ++ [Event.step 0]
    ++ Event.call 0 :: List.replicate 3 (Event.step 0)
    ++ Event.call 1 :: List.replicate 4 (Event.step 1) ++ List.replicate 2 (Event.step 0)

theorem correct_two_rounds
    : ∃ states, trace (perform two 2) (.initial two) twoRounds = some states
        ∧ ∀ state ∈ states, state.Correct two 2 := by
  exact exists_of_isSome (by decide +kernel) fun _ run =>
    rounds_correct_of_safe two (by decide) 2 run (by decide +kernel)

/-- Thread 1 is the last one of a round and calls again before thread 0 has looked at the word,
which has the value then that thread 0 waits on. -/
def runsAhead : List Event :=
  Event.call 0 :: List.replicate 3 (Event.step 0)
    ++ Event.call 1 :: List.replicate 4 (Event.step 1)
    ++ Event.call 1 :: List.replicate 4 (Event.step 1) ++ [Event.step 0]

/-- Thread 0 is back and calls again before thread 1 has woken the threads of the first round. -/
def wokenEarly : List Event :=
  Event.call 0 :: List.replicate 3 (Event.step 0)
    ++ Event.call 1 :: List.replicate 3 (Event.step 1) ++ List.replicate 2 (Event.step 0)
    ++ Event.call 0 :: List.replicate 4 (Event.step 0) ++ [Event.step 1, Event.step 0]

/-- In the first run both threads are blocked with calls to return from. In the second one thread 0
has returned twice, and thread 1 has called once. -/
theorem early_call_wrong
    : ((trace (perform two 2) (.initial two) runsAhead).any fun states =>
        states.getLast?.any fun s => two.list.all fun t =>
          (s.results t).length < 2 && (s.waits t).isSome)
      ∧ ((trace (perform two 2) (.initial two) wokenEarly).any fun states =>
        states.getLast?.any fun s => (s.results 0).length = 2 && s.calls 1 = 1) := by
  decide +kernel

end UnstableOS.Pthread.Barrier
