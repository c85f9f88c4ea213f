import Mathlib.Data.Fintype.Card
import UnstableOS.Kernel.Errno

/-! Waiting on a word of user memory (`futex.c`).
`futex_wait` compares the word and marks the thread as waiting under `futex_lock`, with interrupts
off, and `futex_wake` takes the same lock: each of them is one step of the interleavings. The calls
modelled here pass no owner and no timeout.
-/

namespace UnstableOS.Kernel.Futex

open Function List Option Nat

-- The calls

def LONG_MAX : ℕ := 2147483647

/-- The thread ids: `pid_t` has this many positive values. -/
abbrev Tid := Fin 2147483647

instance : LawfulBEq Tid := inferInstance

instance someTid : NeZero 2147483647 := ⟨by decide⟩

/-- The threads of a process in the order of their list; no id is there twice. -/
structure Threads where
  list : List Tid
  nodup : list.Nodup

variable {W V : Type*}

/-- The word a thread waits on, if it has `is_waiting_on_futex`. -/
abbrev Waits (W : Type*) := Tid → Option W

/-- `futex_wait` up to where the thread goes to sleep, for a word with the given value. -/
def futexWait [DecidableEq V] (threads : Threads) (waits : Waits W) (thread : Tid) (word : W)
    (value expected : V)
    : Except Errno (Waits W) :=
  if threads.list.length ≤ 1 then .error .edeadlk
  else if value ≠ expected then .error .eagain
  else .ok (update waits thread (some word))

/-- The loop of `futex_wake` over the threads. -/
def wakeLoop [DecidableEq W] (word : W) (wakeupCount : ℕ) : List Tid → ℕ → Waits W → Waits W
  | [], _, waits => waits
  | thread :: rest, woken, waits =>
    if waits thread = some word then
      let waits := update waits thread none
      if woken + 1 ≥ wakeupCount then waits else wakeLoop word wakeupCount rest (woken + 1) waits
    else wakeLoop word wakeupCount rest woken waits

/-- `futex_wake`. -/
def futexWake [DecidableEq W] (threads : Threads) (waits : Waits W) (word : W)
    (wakeupCount : BitVec 32) : Waits W :=
  if wakeupCount = 0 then waits
  else
    let wakeupCount := if wakeupCount.toNat > LONG_MAX then LONG_MAX else wakeupCount.toNat
    wakeLoop word wakeupCount threads.list 0 waits

-- What they do

variable {threads : Threads} {waits waits' : Waits W} {thread other : Tid} {word : W}

/-- A thread that goes to sleep saw the value it expected. -/
theorem futexWait_ok [DecidableEq V] {value expected : V}
    (slept : futexWait threads waits thread word value expected = .ok waits')
    : value = expected ∧ waits' = update waits thread (some word) := by
  unfold futexWait at slept
  split at slept
  · cases slept
  split at slept <;> cases slept
  next same =>
    exact ⟨not_not.mp same, rfl⟩

theorem futexWait_error [DecidableEq V] {value expected : V} {error}
    (several : 1 < threads.list.length)
    (failed : futexWait threads waits thread word value expected = .error error)
    : error = .eagain := by
  unfold futexWait at failed
  rw [if_neg (not_le.mpr several)] at failed
  split at failed <;> cases failed
  rfl

variable [DecidableEq W]

/-- A wake-up only ends waiting, on this word. -/
theorem wakeLoop_cases (count : ℕ) (list : List Tid) (woken : ℕ) (waits : Waits W) (other : Tid)
    : wakeLoop word count list woken waits other = waits other
        ∨ wakeLoop word count list woken waits other = none ∧ waits other = some word := by
  induction list generalizing woken waits with
  | nil => exact .inl rfl
  | cons first rest ih =>
    simp only [wakeLoop]
    split
    next waiting =>
      have cleared : update waits first none other = waits other
          ∨ update waits first none other = none ∧ waits other = some word := by
        by_cases same : other = first
        · rw [same, update_self]
          exact .inr ⟨rfl, waiting⟩
        · rw [update_of_ne same]
          exact .inl rfl
      split
      · exact cleared
      rcases ih (woken + 1) (update waits first none) with same | ⟨ended, still⟩
      · rw [same]
        exact cleared
      · rcases cleared with kept | ⟨gone, _⟩
        · exact .inr ⟨ended, kept ▸ still⟩
        · exact nomatch gone.symm.trans still
    · exact ih woken waits

theorem futexWake_cases (threads : Threads) (waits : Waits W) (word : W) (count : BitVec 32)
    (other : Tid)
    : futexWake threads waits word count other = waits other
        ∨ futexWake threads waits word count other = none ∧ waits other = some word := by
  unfold futexWake
  split
  · exact .inl rfl
  · exact wakeLoop_cases _ _ _ _ _

/-- With a count that is large enough every thread of the list is woken. -/
theorem wakeLoop_all {count list woken} (enough : woken + list.length ≤ count) (mem : other ∈ list)
    : wakeLoop word count list woken waits other ≠ some word := by
  induction list generalizing woken waits with
  | nil => exact absurd mem not_mem_nil
  | cons first rest ih =>
    have fewer : woken + 1 + rest.length ≤ count := by
      simpa [Nat.add_assoc, Nat.add_comm 1] using enough
    -- a thread that does not wait at some point does not wait later
    have gone {woken} {waits : Waits W} (ended : waits other ≠ some word)
        : wakeLoop word count rest woken waits other ≠ some word := by
      rcases wakeLoop_cases count rest woken waits other with same | ⟨none, _⟩
      · rwa [same]
      · rw [none]
        exact (some_ne_none word).symm
    simp only [wakeLoop]
    rcases mem_cons.mp mem with rfl | later
    · split
      · split
        · rw [update_self]
          exact (some_ne_none word).symm
        · refine gone ?_
          rw [update_self]
          exact (some_ne_none word).symm
      next notWaiting => exact gone notWaiting
    · split
      · split
        next last =>
          have none : rest = [] := length_eq_zero_iff.mp (by omega)
          exact absurd (none ▸ later) not_mem_nil
        · exact ih fewer later
      · exact ih (by omega) later

/-- A wake-up of all (the count -1) leaves no thread of the process waiting on the word. -/
theorem futexWake_all (mem : other ∈ threads.list)
    : futexWake threads waits word (-1) other ≠ some word := by
  have bound : threads.list.length ≤ LONG_MAX := by
    simpa [LONG_MAX] using threads.nodup.length_le_card
  have capped : (-1 : BitVec 32).toNat > LONG_MAX := by decide
  unfold futexWake
  simp only [if_pos capped]
  exact wakeLoop_all (by simpa using bound) mem

end UnstableOS.Kernel.Futex
