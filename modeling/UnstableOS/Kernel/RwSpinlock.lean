import UnstableOS.Lib.Occupancy
import UnstableOS.Lib.Trace

/-! Reader-writer locks, `rw_spinlock_*` of `kernel_sync_primitives.c`.
The state is the two spinlocks and the counter of the lock, and where each thread is. A thread that
spins has no step until the spinlock is free. The counter does not overflow: each thread has a
structure in the address space that the counter counts.
-/

namespace UnstableOS.Kernel.RwSpinlock

open Lib Function Bool

-- The steps

/-- Where a thread is. -/
inductive Pc where
  /-- Outside, without the lock. -/
  | idle
  /-- In `rw_spinlock_acquire_read`, with `vlock`. -/
  | readLocked
  /-- Counted as the first reader, spinning for `wlock`. -/
  | readFirst
  /-- Counted, about to release `vlock`. -/
  | readCounted
  /-- With the lock for reading. -/
  | reading
  /-- In `rw_spinlock_release_read`, with `vlock`. -/
  | leaveLocked
  /-- The counter was not 0. -/
  | leaveChecked
  /-- No longer counted, the last reader, about to release `wlock`. -/
  | leaveLast
  /-- No longer counted, about to release `vlock`. -/
  | leaveCounted
  /-- With the lock for writing. -/
  | writing
deriving Repr, DecidableEq

open Pc

/-- `rw_spinlock_t` with the threads that use it. -/
structure State (θ : Type*) where
  value : ℕ
  vlock : Bool
  wlock : Bool
  panicked : Bool
  pc : θ → Pc

/-- What a thread does next: calls, or going on in a call. -/
inductive Choice where
  | acquireRead
  | acquireWrite
  | release
  | downgrade
  | go
deriving Repr, DecidableEq

variable {θ : Type*} [DecidableEq θ]

/-- The lock before it is used. -/
def init : State θ := ⟨0, false, false, false, fun _ => .idle⟩

/-- The thread is at another place. -/
def State.move (s : State θ) (t : θ) (place : Pc) : State θ :=
  { s with pc := update s.pc t place }

/-- One atomic step of a thread, by the place where it is. -/
def State.stepAt (s : State θ) (t : θ) : Pc → Choice → Option (State θ)
  | .idle, .acquireRead =>
    if s.vlock then none else some { s.move t .readLocked with vlock := true }
  | .readLocked, .go =>
    if s.value + 1 = 1 then some { s.move t .readFirst with value := s.value + 1 }
    else some { s.move t .readCounted with value := s.value + 1 }
  | .readFirst, .go =>
    if s.wlock then none else some { s.move t .readCounted with wlock := true }
  | .readCounted, .go => some { s.move t .reading with vlock := false }
  | .reading, .release =>
    if s.vlock then none else some { s.move t .leaveLocked with vlock := true }
  | .leaveLocked, .go =>
    if s.value = 0 then some { s with panicked := true } else some (s.move t .leaveChecked)
  | .leaveChecked, .go =>
    if s.value - 1 = 0 then some { s.move t .leaveLast with value := s.value - 1 }
    else some { s.move t .leaveCounted with value := s.value - 1 }
  | .leaveLast, .go => some { s.move t .leaveCounted with wlock := false }
  | .leaveCounted, .go => some { s.move t .idle with vlock := false }
  | .idle, .acquireWrite =>
    if s.wlock then none else some { s.move t .writing with wlock := true }
  | .writing, .release => some { s.move t .idle with wlock := false }
  | .writing, .downgrade => some { s.move t .reading with value := s.value + 1 }
  | _, _ => none

/-- One atomic step of a thread. After a panic there is none. -/
def step (s : State θ) (call : θ × Choice) : Option (State θ) :=
  if s.panicked then none else s.stepAt call.1 (s.pc call.1) call.2

-- What a step can be

variable {s s' : State θ} {t : θ} {choice : Choice}

/-- All that a step can be. -/
inductive Moves (s : State θ) (t : θ) : Choice → State θ → Prop where
  | enterRead (here : s.pc t = .idle) (free : s.vlock = false)
    : Moves s t .acquireRead { s.move t .readLocked with vlock := true }
  | countFirst (here : s.pc t = .readLocked) (none : s.value = 0)
    : Moves s t .go { s.move t .readFirst with value := s.value + 1 }
  | countNext (here : s.pc t = .readLocked) (some : 0 < s.value)
    : Moves s t .go { s.move t .readCounted with value := s.value + 1 }
  | lockOut (here : s.pc t = .readFirst) (free : s.wlock = false)
    : Moves s t .go { s.move t .readCounted with wlock := true }
  | read (here : s.pc t = .readCounted)
    : Moves s t .go { s.move t .reading with vlock := false }
  | leaveRead (here : s.pc t = .reading) (free : s.vlock = false)
    : Moves s t .release { s.move t .leaveLocked with vlock := true }
  | panic (here : s.pc t = .leaveLocked) (none : s.value = 0)
    : Moves s t .go { s with panicked := true }
  | check (here : s.pc t = .leaveLocked) (some : 0 < s.value)
    : Moves s t .go (s.move t .leaveChecked)
  | uncountLast (here : s.pc t = .leaveChecked) (last : s.value ≤ 1)
    : Moves s t .go { s.move t .leaveLast with value := s.value - 1 }
  | uncount (here : s.pc t = .leaveChecked) (more : 1 < s.value)
    : Moves s t .go { s.move t .leaveCounted with value := s.value - 1 }
  | letIn (here : s.pc t = .leaveLast)
    : Moves s t .go { s.move t .leaveCounted with wlock := false }
  | leave (here : s.pc t = .leaveCounted)
    : Moves s t .go { s.move t .idle with vlock := false }
  | write (here : s.pc t = .idle) (free : s.wlock = false)
    : Moves s t .acquireWrite { s.move t .writing with wlock := true }
  | leaveWrite (here : s.pc t = .writing)
    : Moves s t .release { s.move t .idle with wlock := false }
  | downgrade (here : s.pc t = .writing)
    : Moves s t .downgrade { s.move t .reading with value := s.value + 1 }

theorem stepAt_moves {place} (here : s.pc t = place) (done : s.stepAt t place choice = some s')
    : Moves s t choice s' := by
  unfold State.stepAt at done
  split at done
  · split at done <;> cases done
    next free =>
      exact .enterRead here (by simpa using free)
  · split at done <;> cases done
    next none =>
      exact .countFirst here (by omega)
    next some =>
      exact .countNext here (by omega)
  · split at done <;> cases done
    next free =>
      exact .lockOut here (by simpa using free)
  · cases done
    exact .read here
  · split at done <;> cases done
    next free =>
      exact .leaveRead here (by simpa using free)
  · split at done <;> cases done
    next none =>
      exact .panic here none
    next some =>
      exact .check here (by omega)
  · split at done <;> cases done
    next last =>
      exact .uncountLast here (by omega)
    next more =>
      exact .uncount here (by omega)
  · cases done
    exact .letIn here
  · cases done
    exact .leave here
  · split at done <;> cases done
    next free =>
      exact .write here (by simpa using free)
  · cases done
    exact .leaveWrite here
  · cases done
    exact .downgrade here
  · cases done

theorem step_moves {call} (done : step s call = some s')
    : Moves s call.1 call.2 s' := by
  unfold step at done
  split at done
  · cases done
  · exact stepAt_moves rfl done

-- What holds in every state

/-- The places with `vlock`. -/
def Pc.inCall : Pc → Prop
  | .readLocked | .readFirst | .readCounted | .leaveLocked | .leaveChecked | .leaveLast
  | .leaveCounted => True
  | _ => False

/-- The places that the counter counts. -/
def Pc.counted : Pc → Prop
  | .readFirst | .readCounted | .reading | .leaveLocked | .leaveChecked => True
  | _ => False

/-- The places of a reader for whom `wlock` is held. -/
def Pc.reads : Pc → Prop
  | .readCounted | .reading | .leaveLocked | .leaveChecked => True
  | _ => False

/-- The places for which `wlock` is held by one thread. -/
def Pc.owns : Pc → Prop
  | .leaveLast | .writing => True
  | _ => False

/-- The places for which `wlock` is held. -/
def Pc.covered (p : Pc) : Prop := p.reads ∨ p.owns

attribute [simp] Pc.inCall Pc.counted Pc.reads Pc.owns Pc.covered

/-- The spinlocks and the counter agree with where the threads are. -/
structure State.Coherent (s : State θ) : Prop where
  calm : s.panicked = false
  oneCall : Single Pc.inCall s.pc
  vlock : s.vlock = true ↔ Occupied Pc.inCall s.pc
  value : Counts Pc.counted s.pc s.value
  wlock : s.wlock = true ↔ Occupied Pc.covered s.pc
  alone : Alone Pc.owns Pc.covered s.pc

theorem Pc.counted.reads {p : Pc} (counted : p.counted) (through : p ≠ .readFirst)
    : p.reads := by
  cases p <;> simp_all

theorem Pc.reads.counted {p : Pc} (reads : p.reads) : p.counted := by
  cases p <;> simp_all

omit [DecidableEq θ] in
/-- A thread in a call that could meet a counted one elsewhere meets a reader. -/
theorem State.Coherent.reader {u : θ} (inv : s.Coherent) (inside : (s.pc t).inCall)
    (differs : u ≠ t) (counted : (s.pc u).counted)
    : (s.pc u).reads := by
  apply counted.reads
  intro waits
  exact differs (inv.oneCall u t (by simp [waits]) inside)

/-- The threads in calls agree with a value of `vlock`. -/
def Pc.Calls (pc : θ → Pc) (vlock : Bool) : Prop :=
  Single Pc.inCall pc ∧ (vlock = true ↔ Occupied Pc.inCall pc)

/-- The readers and the writer agree with a value of `wlock`. -/
def Pc.Covers (pc : θ → Pc) (wlock : Bool) : Prop :=
  (wlock = true ↔ Occupied Pc.covered pc) ∧ Alone Pc.owns Pc.covered pc

omit [DecidableEq θ] in
theorem State.Coherent.of_parts (calm : s.panicked = false) (calls : Pc.Calls s.pc s.vlock)
    (value : Counts Pc.counted s.pc s.value) (covers : Pc.Covers s.pc s.wlock)
    : s.Coherent :=
  ⟨calm, calls.1, calls.2, value, covers.1, covers.2⟩

/-- Every step keeps the spinlocks and the counter in line with the threads. -/
theorem State.Coherent.keep (inv : s.Coherent) (moves : Moves s t choice s')
    : s'.Coherent := by
  -- What becomes of `vlock`.
  have callStays {p : Pc} (same : p.inCall ↔ (s.pc t).inCall) : Calls (update s.pc t p) s.vlock :=
    ⟨inv.oneCall.stay same.mp, inv.vlock.trans (occupied_stay same).symm⟩
  have callStarts {p} (free : s.vlock = false) (inside : p.inCall) : Calls (update s.pc t p) true :=
    ⟨.arrive (mt inv.vlock.mpr (by simp [free])), iff_of_true rfl (.arrive inside)⟩
  have callEnds {p : Pc} (inside : (s.pc t).inCall) (outside : ¬ p.inCall)
      : Calls (update s.pc t p) false :=
    ⟨inv.oneCall.stay fun again => absurd again outside,
      iff_of_false false_ne_true (not_occupied_leave outside
        fun u there => inv.oneCall u t there inside)⟩
  -- What becomes of `wlock`.
  have coverStays {p : Pc} (same : p.covered ↔ (s.pc t).covered) (own : p.owns → (s.pc t).owns)
      : Covers (update s.pc t p) s.wlock :=
    ⟨inv.wlock.trans (occupied_stay same).symm, inv.alone.stay own same.mp⟩
  have coverStarts {p} (free : s.wlock = false) (covered : p.covered)
      : Covers (update s.pc t p) true :=
    ⟨iff_of_true rfl (.arrive covered),
      .arrive (fun u _ there => mt inv.wlock.mpr (by simp [free]) ⟨u, there⟩) fun _ => .inr⟩
  have coverEnds {p : Pc} (own : (s.pc t).owns) (open_ : ¬ p.covered)
      : Covers (update s.pc t p) false :=
    ⟨iff_of_false false_ne_true (not_occupied_leave open_ fun u => inv.alone t u own),
      inv.alone.stay (fun owns => absurd (.inr owns) open_) fun covered => absurd covered open_⟩
  have covers := fun u => inv.alone u t
  cases moves with
  | enterRead here free =>
    exact .of_parts inv.calm (callStarts free trivial) (inv.value.stay (by simp [here]))
      (coverStays (by simp [here]) (by simp))
  | countFirst here none | downgrade here =>
    exact .of_parts inv.calm (callStays (by simp [here]))
      (inv.value.arrive (by simp [here]) trivial)
      (coverStays (by simp [here]) (by simp))
  | countNext here some =>
    -- Somebody else is counted and does not wait, so `wlock` is held by readers.
    obtain ⟨u, counted⟩ := inv.value.occupied some
    have differs : u ≠ t := by
      rintro rfl
      simp [here] at counted
    have reads := inv.reader (by simp [here]) differs counted
    have shared : ¬ Occupied owns s.pc := by
      rintro ⟨w, owns⟩
      have same := inv.alone w u owns (.inl reads)
      subst same
      cases place : s.pc u <;> simp [place] at owns reads
    exact .of_parts inv.calm (callStays (by simp [here]))
      (inv.value.arrive (by simp [here]) trivial)
      ⟨iff_of_true (inv.wlock.mpr ⟨u, .inl reads⟩) (.arrive (.inl trivial)), .join shared (by simp)⟩
  | lockOut here free =>
    exact .of_parts inv.calm (callStays (by simp [here])) (inv.value.stay (by simp [here]))
      (coverStarts free (.inl trivial))
  | read here =>
    exact .of_parts inv.calm (callEnds (by simp [here]) (by simp))
      (inv.value.stay (by simp [here]))
      (coverStays (by simp [here]) (by simp))
  | leaveRead here free =>
    exact .of_parts inv.calm (callStarts free trivial) (inv.value.stay (by simp [here]))
      (coverStays (by simp [here]) (by simp))
  | panic here none =>
    have some := inv.value.pos (t := t) (by simp [here])
    omega
  | check here some =>
    exact .of_parts inv.calm (callStays (by simp [here])) (inv.value.stay (by simp [here]))
      (coverStays (by simp [here]) (by simp))
  | uncountLast here last =>
    have only := inv.value.single last
    have nobody : ∀ u, u ≠ t → ¬ (s.pc u).covered := by
      rintro u differs (reads | owns)
      · apply differs
        apply only u t
        · exact reads.counted
        · simp [here]
      · exact differs (covers u owns (by simp [here])).symm
    exact .of_parts inv.calm (callStays (by simp [here]))
      (inv.value.leave (by simp [here]) (by simp))
      ⟨inv.wlock.trans (occupied_stay (by simp [here])).symm,
        .arrive nobody fun _ => .inr⟩
  | uncount here more =>
    obtain ⟨u, differs, counted⟩ := inv.value.another more t
    have reads := inv.reader (by simp [here]) differs counted
    exact .of_parts inv.calm (callStays (by simp [here]))
      (inv.value.leave (by simp [here]) (by simp))
      ⟨iff_of_true (inv.wlock.mpr ⟨u, .inl reads⟩) (.remain (.inl reads) differs),
        inv.alone.stay (by simp) (by simp)⟩
  | letIn here | leaveWrite here =>
    exact .of_parts inv.calm (callStays (by simp [here])) (inv.value.stay (by simp [here]))
      (coverEnds (by simp [here]) (by simp))
  | leave here =>
    exact .of_parts inv.calm (callEnds (by simp [here]) (by simp))
      (inv.value.stay (by simp [here]))
      (coverStays (by simp [here]) (by simp))
  | write here free =>
    exact .of_parts inv.calm (callStays (by simp [here])) (inv.value.stay (by simp [here]))
      (coverStarts free (.inr trivial))

omit [DecidableEq θ] in
theorem init_coherent
    : (init : State θ).Coherent where
  calm := rfl
  oneCall := fun _ _ inside _ => inside.elim
  vlock := iff_of_false (by simp [init]) (fun ⟨_, inside⟩ => inside.elim)
  value := ⟨∅, fun _ => iff_of_false (Finset.notMem_empty _) id, rfl⟩
  wlock := iff_of_false (by simp [init]) (fun ⟨_, covered⟩ => covered.elim id id)
  alone := fun _ _ owns _ => owns.elim

-- A writer is alone

variable {calls : List (θ × Choice)} {states : List (State θ)}

/-- No reader and no second writer besides a writer. -/
def State.Exclusive (s : State θ) : Prop :=
  ∀ t u, s.pc t = .writing → ¬ (s.pc u).reads ∧ (s.pc u = .writing → u = t)

omit [DecidableEq θ] in
theorem State.Coherent.exclusive (inv : s.Coherent) : s.Exclusive := by
  intro t u writes
  have owns : (s.pc t).owns := by simp [writes]
  refine ⟨fun reads => ?_, fun again => inv.alone t u owns (by simp [again])⟩
  have same := inv.alone t u owns (.inl reads)
  rw [same, writes] at reads
  exact reads

/-- For any threads and any interleaving of their steps. -/
theorem writer_alone (run : trace step (init : State θ) calls = some states)
    : ∀ s ∈ states, s.Exclusive := by
  have coherent := trace_forall_mem State.Coherent (fun inv done => inv.keep (step_moves done))
    init_coherent run
  intro s mem
  exact (coherent s mem).exclusive

/-- A writer and a reader that waits for it. -/
def writerThenReader : List (Bool × Choice) :=
  [(false, .acquireWrite), (true, .acquireRead), (true, .go), (false, .release), (true, .go),
    (true, .go)]

theorem writer_alone_of_two
    : ∃ states, trace step init writerThenReader = some states ∧ ∀ s ∈ states, s.Exclusive := by
  exact exists_of_isSome rfl fun _ run => writer_alone run

/-- In every interleaving the counter is the number of readers, and no release finds it at 0. -/
theorem value_counts (run : trace step (init : State θ) calls = some states)
    : ∀ s ∈ states, Counts Pc.counted s.pc s.value ∧ s.panicked = false := by
  intro s mem
  have inv := trace_forall_mem State.Coherent (fun inv done => inv.keep (step_moves done))
    init_coherent run s mem
  exact ⟨inv.value, inv.calm⟩

theorem value_counts_of_two
    : ∃ states, trace step init writerThenReader = some states
        ∧ ∀ s ∈ states, Counts Pc.counted s.pc s.value ∧ s.panicked = false := by
  exact exists_of_isSome rfl fun _ run => value_counts run

-- Whether a holder can go on

/-- The thread has a step. -/
def State.Enabled (s : State θ) (t : θ) : Prop := ∃ choice s', step s (t, choice) = some s'

/-- A thread that holds the lock has a step. -/
def State.Goes (s : State θ) : Prop := ∃ t, (s.pc t).covered ∧ s.Enabled t

/-- If some thread holds the lock, then one of those that hold it has a step. -/
def State.Lively (s : State θ) : Prop := Occupied Pc.covered s.pc → s.Goes

/-- If some thread holds the lock, then one of those that hold it has a step now or when threads in
calls have gone on.
-/
def State.Unblocked (s : State θ) : Prop :=
  Occupied Pc.covered s.pc → ∃ (threads : List θ) (states : List (State θ)),
    trace step s (threads.map (·, .go)) = some states ∧ ∃ s' ∈ states, s'.Goes

/-- Readers that wait while others have the lock for reading are not first. -/
structure State.Orderly (s : State θ) : Prop where
  coherent : s.Coherent
  apart : Occupied (· = .readFirst) s.pc → ¬ Occupied Pc.reads s.pc

theorem enabled_inCall (calm : s.panicked = false) (inside : (s.pc t).inCall)
    (through : s.pc t ≠ .readFirst)
    : s.Enabled t := by
  refine ⟨.go, ?_⟩
  rw [step, calm]
  simp only [false_eq_true, if_false]
  cases place : s.pc t <;> simp [place] at inside through <;> rw [State.stepAt]
  all_goals first
    | exact ⟨_, rfl⟩
    | split
      · exact ⟨_, rfl⟩
      · exact ⟨_, rfl⟩

theorem enabled_reading (calm : s.panicked = false) (reading : s.pc t = .reading)
    (free : s.vlock = false)
    : s.Enabled t := by
  refine ⟨.release, ?_⟩
  rw [step, calm]
  simp [State.stepAt, reading, free]

/-- Where no holder has a step, all of them read and somebody else has `vlock`. -/
theorem State.Coherent.goes (inv : s.Coherent) (held : Occupied Pc.covered s.pc)
    (open_ : ∀ t u, s.pc t = .reading → (s.pc u).inCall → (s.pc u).covered)
    : s.Goes := by
  obtain ⟨t, reads | owns⟩ := held
  · rcases em ((s.pc t).inCall) with inside | outside
    · refine ⟨t, .inl reads, enabled_inCall inv.calm inside fun waits => ?_⟩
      simp [waits] at reads
    have place : s.pc t = .reading := by
      cases place : s.pc t <;> simp_all
    cases locked : s.vlock with
    | false => exact ⟨t, .inl reads, enabled_reading inv.calm place locked⟩
    | true =>
      obtain ⟨u, inside⟩ := inv.vlock.mp locked
      have covered := open_ t u place inside
      refine ⟨u, covered, enabled_inCall inv.calm inside ?_⟩
      intro waits
      simp [waits] at covered
  · refine ⟨t, .inr owns, ?_⟩
    cases place : s.pc t <;> simp [place] at owns
    case leaveLast => exact enabled_inCall inv.calm (by simp [place]) (by simp [place])
    case writing =>
      refine ⟨.release, ?_⟩
      rw [step, inv.calm]
      simp [State.stepAt, place]

/-- Readers that do not overlap: nobody else reads or has `vlock` while a thread reads. -/
structure State.Apart (s : State θ) : Prop where
  coherent : s.Coherent
  alone : Alone Pc.reads (fun p => p.inCall ∨ p.reads) s.pc

theorem State.Apart.lively (inv : s.Apart) : s.Lively := by
  intro held
  refine inv.coherent.goes held fun t u reading inside => ?_
  rw [inv.alone t u (by simp [reading]) (.inl inside), reading]
  exact .inl trivial

/-- Nobody comes to read while a reader is counted, and no writer downgrades the lock while a thread
has `vlock`.
-/
def Undisturbed (s : State θ) (call : θ × Choice) : Prop :=
  (call.2 = .acquireRead → s.value = 0) ∧ (call.2 = .downgrade → s.vlock = false)

/-- A downgrade while nobody is counted, and every other step. -/
def Unhurried (s : State θ) (call : θ × Choice) : Prop := call.2 = .downgrade → s.value = 0

omit [DecidableEq θ] in
theorem State.Coherent.nobody (inv : s.Coherent) (none : s.value = 0)
    : ¬ Occupied Pc.counted s.pc := by
  rintro ⟨t, counted⟩
  have some := inv.value.pos counted
  omega

theorem State.Apart.keep (inv : s.Apart) (moves : Moves s t choice s')
    (undisturbed : Undisturbed s (t, choice))
    : s'.Apart := by
  refine ⟨inv.coherent.keep moves, ?_⟩
  have nobody (none : s.value = 0) : ¬ Occupied Pc.reads s.pc := by
    rintro ⟨u, reads⟩
    exact inv.coherent.nobody none ⟨u, reads.counted⟩
  cases moves with
  | enterRead here free => exact .join (nobody (undisturbed.1 rfl)) (by simp)
  | countFirst here none => exact .join (nobody none) (by simp)
  | countNext here some =>
    -- the reader that is counted already would be alone
    obtain ⟨u, counted⟩ := inv.coherent.value.occupied some
    have differs : u ≠ t := by
      rintro rfl
      simp [here] at counted
    have inside : (s.pc t).inCall := by simp [here]
    exact absurd (inv.alone u t (inv.coherent.reader inside differs counted) (.inl inside)).symm
      differs
  | lockOut here free =>
    refine .arrive (fun u differs => ?_) fun _ => .inr
    rintro (inside | reads)
    · exact differs (inv.coherent.oneCall u t inside (by simp [here]))
    · exact mt inv.coherent.wlock.mpr (by simp [free]) ⟨u, .inl reads⟩
  | read here | leaveRead here free | check here some =>
    exact inv.alone.stay (by simp [here]) (by simp [here])
  | uncountLast here last | uncount here more | letIn here | leave here | write here free
  | leaveWrite here =>
    exact inv.alone.stay (by simp) (by simp [here])
  | panic here none => exact inv.alone
  | downgrade here =>
    refine .arrive (fun u differs => ?_) fun _ => .inr
    rintro (inside | reads)
    · exact mt inv.coherent.vlock.mpr (by simp [undisturbed.2 rfl]) ⟨u, inside⟩
    · exact differs (inv.coherent.alone t u (by simp [here]) (.inl reads))

theorem not_lively (vlocked : s.vlock = true) (reading : s.pc t = .reading)
    (all : ∀ u, (s.pc u).covered → s.pc u = .reading)
    : ¬ s.Lively := by
  intro lively
  obtain ⟨u, covered, choice, s', done⟩ := lively ⟨t, by simp [reading]⟩
  have place := all u covered
  have moves := step_moves done
  cases moves <;> simp_all

/-- A reader that comes to others, or to a writer that then downgrades the lock, takes `vlock` from
them.
-/
theorem State.Coherent.disturbed (inv : s.Coherent) (moves : Moves s t choice s')
    (disturbed : ¬ Undisturbed s (t, choice))
    : ¬ s'.Lively := by
  rw [Undisturbed, not_and_or, Classical.not_imp, Classical.not_imp] at disturbed
  rcases disturbed with ⟨rfl, some⟩ | ⟨rfl, locked⟩
  · cases moves with
    | enterRead here free =>
      have outside (u : θ) : ¬ (s.pc u).inCall := fun inside =>
        mt inv.vlock.mpr (by simp [free]) ⟨u, inside⟩
      obtain ⟨u, counted⟩ := inv.value.occupied (Nat.pos_of_ne_zero some)
      have reading : s.pc u = .reading := by
        have := outside u
        cases place : s.pc u <;> simp_all
      have differs : u ≠ t := by
        rintro rfl
        simp [here] at counted
      refine not_lively rfl (t := u) ((update_of_ne differs _ _).trans reading) fun x covered => ?_
      change (update s.pc t .readLocked x).covered at covered
      show update s.pc t .readLocked x = .reading
      rcases eq_or_ne x t with rfl | other
      · simp at covered
      rw [update_of_ne other] at covered ⊢
      have away := outside x
      cases place : s.pc x <;> simp [place] at covered away
      case reading => rfl
      case writing =>
        have same := inv.alone x u (by simp [place]) (by simp [reading])
        rw [same, place] at reading
        cases reading
  · cases moves with
    | downgrade here =>
      refine not_lively (eq_true_of_ne_false locked) (update_self ..) fun x covered => ?_
      change (update s.pc t .reading x).covered at covered
      show update s.pc t .reading x = .reading
      rcases eq_or_ne x t with rfl | other
      · exact update_self ..
      · rw [update_of_ne other] at covered
        exact absurd (inv.alone t x (by simp [here]) covered) other

/-- One step of the thread that has `vlock` lets a holder go on. -/
theorem State.Orderly.unblocked (inv : s.Orderly) : s.Unblocked := by
  intro held
  have now (goes : s.Goes) : ∃ (threads : List θ) (states : List (State θ)),
      trace step s (threads.map (·, .go)) = some states ∧ ∃ s' ∈ states, s'.Goes :=
    ⟨[], [s], rfl, s, List.mem_singleton_self s, goes⟩
  by_cases open_ : ∀ t u, s.pc t = .reading → (s.pc u).inCall → (s.pc u).covered
  · exact now (inv.coherent.goes held open_)
  push Not at open_
  obtain ⟨t, u, reading, inside, uncovered⟩ := open_
  have calm := inv.coherent.calm
  have next {s'} (done : step s (u, .go) = some s') (goes : s'.Goes)
      : ∃ (threads : List θ) (states : List (State θ)),
        trace step s (threads.map (·, .go)) = some states ∧ ∃ s' ∈ states, s'.Goes :=
    ⟨[u], [s, s'], by simp [trace, done], s', by simp, goes⟩
  have some : s.value ≠ 0 := (inv.coherent.value.pos (t := t) (by simp [reading])).ne'
  cases place : s.pc u <;> simp [place] at inside uncovered
  case readLocked =>
    refine @next { s.move u .readCounted with value := s.value + 1 } ?_ ⟨u, ?_, ?_⟩
    · simp [step, calm, State.stepAt, place, some]
    · simp [State.move]
    · exact enabled_inCall calm (by simp [State.move]) (by simp [State.move])
  case readFirst => exact absurd ⟨t, by simp [reading]⟩ (inv.apart ⟨u, place⟩)
  case leaveCounted =>
    have differs : t ≠ u := by
      rintro rfl
      rw [place] at reading
      cases reading
    have stays : (s.move u .idle).pc t = .reading := (update_of_ne differs _ _).trans reading
    refine @next { s.move u .idle with vlock := false } ?_ ⟨t, ?_, ?_⟩
    · simp [step, calm, State.stepAt, place]
    · simp [stays]
    · exact enabled_reading calm stays rfl

theorem State.Orderly.keep (inv : s.Orderly) (moves : Moves s t choice s')
    (unhurried : Unhurried s (t, choice))
    : s'.Orderly := by
  refine ⟨inv.coherent.keep moves, ?_⟩
  -- Where neither a first reader nor a reader comes in, nothing new can meet.
  have stay : ∀ p : Pc, (p = .readFirst → s.pc t = .readFirst) → (p.reads → (s.pc t).reads) →
      Occupied (· = .readFirst) (update s.pc t p) → ¬ Occupied reads (update s.pc t p) := by
    intro p oldFirst oldReads waits reads
    exact inv.apart (waits.before oldFirst) (reads.before oldReads)
  -- Whoever is in a call is the only one.
  have alone : (s.pc t).inCall → ∀ p : Pc, p ≠ .readFirst →
      ¬ Occupied (· = .readFirst) (update s.pc t p) := by
    rintro inside p other ⟨u, waits⟩
    rcases eq_or_ne u t with rfl | differs
    · exact other ((update_at (· = .readFirst) s.pc u p).mp waits)
    · rw [update_of_ne differs] at waits
      exact differs (inv.coherent.oneCall u t (by simp [waits]) inside)
  cases moves with
  | enterRead here free | uncountLast here last | uncount here more | letIn here | leave here =>
    exact stay _ (by simp) (by simp)
  | countFirst here none =>
    rintro - ⟨u, reads⟩
    rcases eq_or_ne u t with rfl | differs
    · exact (update_at Pc.reads s.pc u _).mp reads
    · change (update s.pc t .readFirst u).reads at reads
      rw [update_of_ne differs] at reads
      exact inv.coherent.nobody none ⟨u, reads.counted⟩
  | countNext here some | lockOut here free =>
    intro waits
    exact absurd waits (alone (by simp [here]) _ (by simp))
  | read here | leaveRead here free | check here some =>
    exact stay _ (by simp) (by simp [here])
  | panic here none => exact inv.apart
  | write here free | leaveWrite here => exact stay _ (by simp) (by simp)
  | downgrade here =>
    intro waits
    obtain ⟨u, first⟩ := Occupied.before waits (by simp)
    exact absurd ⟨u, by simp [first]⟩ (inv.coherent.nobody (unhurried rfl))

/-- The states without a step: `vlock` is held by a first reader that waits for `wlock`, and whoever
has the lock needs `vlock`.
-/
structure State.Stuck (s : State θ) : Prop where
  vlocked : s.vlock = true
  wlocked : s.wlock = true
  places : ∀ t, s.pc t = .idle ∨ s.pc t = .reading ∨ s.pc t = .readFirst

theorem State.Stuck.not_enabled (stuck : s.Stuck) (t : θ) : ¬ s.Enabled t := by
  rintro ⟨choice, s', done⟩
  have moves := step_moves done
  have vlocked := stuck.vlocked
  have wlocked := stuck.wlocked
  rcases stuck.places t with idle | reading | waits <;> cases moves <;> simp_all

theorem State.Stuck.not_unblocked (stuck : s.Stuck) (reading : s.pc t = .reading)
    : ¬ s.Unblocked := by
  intro unblocked
  obtain ⟨threads, states, run, s', mem, u, -, enabled⟩ := unblocked ⟨t, by simp [reading]⟩
  cases threads with
  | nil =>
    cases run
    rw [List.mem_singleton.mp mem] at enabled
    exact stuck.not_enabled u enabled
  | cons first rest =>
    obtain ⟨after, -, done, -⟩ := trace_cons run
    exact stuck.not_enabled first ⟨_, after, done⟩

/-- A downgrade with a first reader waiting. -/
theorem State.Coherent.stuck (inv : s.Coherent) (moves : Moves s t .downgrade s')
    (some : s.value ≠ 0)
    : s'.Stuck ∧ s'.pc t = .reading := by
  cases moves with
  | downgrade here =>
    have owns : (s.pc t).owns := by simp [here]
    obtain ⟨u, counted⟩ := inv.value.occupied (Nat.pos_of_ne_zero some)
    have waits : s.pc u = .readFirst := by
      by_contra through
      have same := inv.alone t u owns (.inl (counted.reads through))
      subst same
      simp [here] at counted
    have inside : (s.pc u).inCall := by simp [waits]
    refine ⟨⟨inv.vlock.mpr ⟨u, inside⟩, inv.wlock.mpr ⟨t, .inr owns⟩, ?_⟩, update_self ..⟩
    intro x
    show update s.pc t .reading x = .idle ∨ update s.pc t .reading x = .reading
      ∨ update s.pc t .reading x = .readFirst
    rcases eq_or_ne x t with rfl | differs
    · rw [update_self]
      exact .inr (.inl rfl)
    rw [update_of_ne differs]
    have uncovered : ¬ (s.pc x).covered := fun covered => differs (inv.alone t x owns covered)
    rcases em ((s.pc x).inCall) with inCall | outside
    · rw [inv.oneCall x u inCall inside]
      exact .inr (.inr waits)
    · cases place : s.pc x <;> simp_all

/-- In every run: in every state that is reached with a holder, a holder has a step if and only if
nobody came to read while a reader was counted and no thread downgraded the lock while another one
had `vlock`; and no holder is blocked forever if and only if no thread downgraded the lock while a
reader was counted.
-/
theorem lively_iff (run : trace step (init : State θ) calls = some states)
    : ((∀ s ∈ states, s.Lively) ↔ AllSafe step Undisturbed init calls)
        ∧ ((∀ s ∈ states, s.Unblocked) ↔ AllSafe step Unhurried init calls) := by
  constructor
  · exact trace_forall_iff State.Apart State.Lively State.Apart.lively
      (fun inv done undisturbed => inv.keep (step_moves done) undisturbed)
      (fun inv done disturbed => inv.coherent.disturbed (step_moves done) disturbed)
      ⟨init_coherent, fun _ _ reads => reads.elim⟩ run
  · apply trace_forall_iff State.Orderly State.Unblocked State.Orderly.unblocked
      (fun inv done unhurried => inv.keep (step_moves done) unhurried) ?_
      ⟨init_coherent, fun ⟨_, waits⟩ => nomatch waits⟩ run
    intro s s' call inv done hurried
    obtain ⟨t, choice⟩ := call
    simp only [Unhurried, Classical.not_imp] at hurried
    obtain ⟨rfl, some⟩ := hurried
    obtain ⟨stuck, reading⟩ := inv.coherent.stuck (step_moves done) some
    exact stuck.not_unblocked reading

instance (s : State θ) (call : θ × Choice) : Decidable (Undisturbed s call) :=
  inferInstanceAs (Decidable (_ ∧ _))

instance (s : State θ) (call : θ × Choice) : Decidable (Unhurried s call) :=
  inferInstanceAs (Decidable (_ → _))

/-- A writer that downgrades the lock before a reader comes, and a reader that comes after it has
released the lock.
-/
def downgradeThenReader : List (Bool × Choice) :=
  [(false, .acquireWrite), (false, .downgrade), (false, .release), (false, .go), (false, .go),
    (false, .go), (false, .go), (true, .acquireRead), (true, .go), (true, .go), (true, .go)]

theorem lively_downgrade
    : ∃ states, trace step init downgradeThenReader = some states
        ∧ (∀ s ∈ states, s.Lively) ∧ ∀ s ∈ states, s.Unblocked := by
  exact exists_of_isSome rfl fun _ run =>
    ⟨(lively_iff run).1.mpr (by decide), (lively_iff run).2.mpr (by decide)⟩

/-- A writer downgrades the lock while a reader waits: no thread has a step any more. -/
theorem downgrade_deadlocks
    : ∃ states s, trace step init
          [(false, .acquireWrite), (true, .acquireRead), (true, .go), (false, .downgrade)]
            = some states
        ∧ s ∈ states ∧ s.pc false = .reading ∧ (∀ t, ¬ s.Enabled t) ∧ ¬ s.Lively
        ∧ ¬ s.Unblocked := by
  have last : ∀ s₀ s₁ s₂ s₃ s₄ : State Bool, s₄ ∈ [s₀, s₁, s₂, s₃, s₄] := by simp
  have lifeless (s : State Bool) (reading : s.pc false = .reading) (stuck : s.Stuck)
      : s.pc false = .reading ∧ (∀ t, ¬ s.Enabled t) ∧ ¬ s.Lively ∧ ¬ s.Unblocked := by
    refine ⟨reading, stuck.not_enabled, fun lively => ?_, stuck.not_unblocked reading⟩
    obtain ⟨t, -, enabled⟩ := lively ⟨false, by simp [reading]⟩
    exact stuck.not_enabled t enabled
  exact ⟨_, _, rfl, last _ _ _ _ _, lifeless _ rfl ⟨rfl, rfl, by decide⟩⟩

end UnstableOS.Kernel.RwSpinlock
