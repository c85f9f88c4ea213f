import UnstableOS.Lib.RingBuffer
import UnstableOS.Lib.Trace
import UnstableOS.Kernel.Errno
import Mathlib.Data.List.Infix

/-! Reading and writing a pipe, `pipe.c`.
Any number of threads run `pipe_write` and `pipe_read` on one pipe. A step takes one thread
from one point of its call to the next: taking the lock, one test, one store to the ring or to
one of its two positions, or letting go of the lock to sleep. Steps of different threads
interleave freely, and the ends may be opened and closed at any time.
-/

namespace UnstableOS.Fs.PipeIo

open Kernel Lib Function List Prod Except Option Nat

-- The pipe

/-- `PIPE_BUF`. -/
def pipeBuf : ℕ := 2048

/-- `SSIZE_MAX` of a 32 bit `ssize_t`. -/
def ssizeMax : ℕ := 2 ^ 31 - 1

/-- `struct pipe` without its lock and its two thread queues. -/
structure Pipe where
  pipeFifo : ℕ → UInt8
  head : ℕ
  tail : ℕ
  readers : ℕ
  writers : ℕ
  namedWait : Bool

variable (p : Pipe)

/-- `EMPTY`. -/
def Pipe.empty : Bool := p.head == p.tail

/-- `FULL`; the last difference is one of `size_t`. -/
def Pipe.full : Bool :=
  (p.head == 0 && p.tail == pipeBuf - 1) || p.tail == (p.head + 2 ^ 32 - 1) % 2 ^ 32

/-- `INC`. -/
def Pipe.inc : Pipe := { p with tail := (p.tail + 1) % pipeBuf }

/-- `DEC`. -/
def Pipe.dec : Pipe := { p with head := (p.head + 1) % pipeBuf }

/-- The bytes in the ring, oldest first. -/
def Pipe.contents : List UInt8 := ringContents pipeBuf p.pipeFifo p.head p.tail

/-- The assertion at the start of `pipe_put_ch` and `pipe_get_ch`. -/
def Pipe.inBounds : Bool := decide (p.head < pipeBuf) && decide (p.tail < pipeBuf)

-- Calls in progress

/-- Where a thread stands in `pipe_write`, or in `pipe_put_ch` for the byte it is at. -/
inductive WritePoint where
  /-- waiting for the lock in `pipe_write` -/
  | acquire
  | enter
  /-- at the test of `named_wait` -/
  | named
  | sleepNamed
  /-- at the test of `FULL` -/
  | full
  | sleepFull
  /-- the lock is taken again after the sleep of a full ring -/
  | woken
  | store
  | inc
deriving Repr, DecidableEq

/-- Where a thread stands in `pipe_read`, or in `pipe_get_ch` for the byte it is at. -/
inductive ReadPoint where
  | acquire
  | enter
  | named
  | sleepNamed
  /-- at the test of `EMPTY` -/
  | empty
  | sleepEmpty
  | load
  | dec (out : UInt8)
deriving Repr, DecidableEq

/-- What a thread does. `write` has put `i` bytes of `data`; `read` has `got` in its buffer. A
call that returned keeps its result until the thread makes the next call.
-/
inductive Task where
  | idle
  | write (data : List UInt8) (i : ℕ) (point : WritePoint)
  | wrote (data : List UInt8) (result : Except Errno ℕ)
  | read (n : ℕ) (got : List UInt8) (point : ReadPoint)
  | wasRead (n : ℕ) (got : List UInt8) (result : Except Errno ℕ)
  | panicked

/-- The pipe, its lock and its threads, with the bytes accepted from and delivered to them in
order.
-/
structure State where
  pipe : Pipe
  lock : Option ℕ
  task : ℕ → Task
  accepted : List (ℕ × UInt8)
  delivered : List (ℕ × UInt8)

def State.goto (s : State) (t : ℕ) (task : Task) : State :=
  { s with task := update s.task t task }

/-- `spinlock_acquire_interruptible`: the thread goes on when the lock is free. -/
def State.acquire (s : State) (t : ℕ) (task : Task) : Option State :=
  match s.lock with
  | none => some { s.goto t task with lock := some t }
  | some _ => none

/-- `spinlock_release`. -/
def State.release (s : State) (t : ℕ) (task : Task) : State :=
  { s.goto t task with lock := none }

/-- What an interrupted call returns that moved `i` bytes. -/
def interrupted (i : ℕ) : Except Errno ℕ := if i = 0 then .error .eintr else .ok i

/-- One step of `pipe_write`; `eintr` is what `check_eintr` says if it is asked. -/
def advanceWrite (s : State) (t : ℕ) (eintr : Bool) (data : List UInt8) (i : ℕ)
    : WritePoint → Option State
  | .acquire => s.acquire t (.write data i .enter)
  | .enter => some (s.goto t (if s.pipe.inBounds then .write data i .named else .panicked))
  | .named =>
    some <|
      if s.pipe.namedWait then
        if eintr then s.release t (.wrote data (interrupted i))
        else s.release t (.write data i .sleepNamed)
      else if s.pipe.readers = 0 then s.release t (.wrote data (.error .epipe))
      else s.goto t (.write data i .full)
  | .sleepNamed => s.acquire t (.write data i .named)
  | .full =>
    some <|
      if s.pipe.full then s.release t (.write data i .sleepFull)
      else s.goto t (.write data i .store)
  | .sleepFull => s.acquire t (.write data i .woken)
  | .woken =>
    some <|
      if s.pipe.readers = 0 then s.release t (.wrote data (.error .epipe))
      else if eintr then s.release t (.wrote data (interrupted i))
      else s.goto t (.write data i .full)
  | .store =>
    data[i]?.map fun c =>
      { s.goto t (.write data i .inc) with
        pipe := { s.pipe with pipeFifo := update s.pipe.pipeFifo s.pipe.tail c } }
  | .inc =>
    data[i]?.map fun c =>
      let s := { s with pipe := s.pipe.inc, accepted := s.accepted ++ [(t, c)] }
      if i + 1 < data.length then s.goto t (.write data (i + 1) .enter)
      else s.release t (.wrote data (.ok (i + 1)))

/-- One step of `pipe_read`. -/
def advanceRead (s : State) (t : ℕ) (eintr : Bool) (n : ℕ) (got : List UInt8)
    : ReadPoint → Option State
  | .acquire => s.acquire t (.read n got .enter)
  | .enter => some (s.goto t (if s.pipe.inBounds then .read n got .named else .panicked))
  | .named =>
    some <|
      if s.pipe.namedWait then
        if eintr then s.release t (.wasRead n got (interrupted got.length))
        else s.release t (.read n got .sleepNamed)
      else s.goto t (.read n got .empty)
  | .sleepNamed => s.acquire t (.read n got .named)
  | .empty =>
    some <|
      if s.pipe.empty then
        if s.pipe.writers = 0 then s.release t (.wasRead n got (.ok got.length))
        else if got.length = 0 then s.release t (.read n got .sleepEmpty)
        else s.release t (.wasRead n got (.ok got.length))
      else s.goto t (.read n got .load)
  | .sleepEmpty => s.acquire t (.read n got .enter)
  | .load => some (s.goto t (.read n got (.dec (s.pipe.pipeFifo s.pipe.head))))
  | .dec out =>
    let s := { s with pipe := s.pipe.dec, delivered := s.delivered ++ [(t, out)] }
    some <|
      if got.length + 1 < n then s.goto t (.read n (got ++ [out]) .enter)
      else s.release t (.wasRead n (got ++ [out]) (.ok (got.length + 1)))

/-- A thread calls `pipe_write` or `pipe_read`, a thread takes one step, or the ends of the
pipe are opened or closed.
-/
inductive Action where
  | write (t : ℕ) (data : List UInt8)
  | read (t : ℕ) (n : ℕ)
  | run (t : ℕ) (eintr : Bool)
  | ends (readers writers : ℕ) (namedWait : Bool)

/-- The thread is in no call. -/
def Task.free : Task → Bool
  | .idle => true
  | .wrote _ _ => true
  | .wasRead _ _ _ => true
  | _ => false

/-- One step of the system. -/
def step (s : State) : Action → Option State
  | .write t data =>
    if (s.task t).free then
      some (s.goto t (if data = [] then .wrote data (.ok 0) else .write data 0 .acquire))
    else none
  | .read t n =>
    if (s.task t).free then
      some (s.goto t (if n = 0 then .wasRead n [] (.ok 0)
        else .read (if ssizeMax < n then ssizeMax else n) [] .acquire))
    else none
  | .run t eintr =>
    match s.task t with
    | .write data i point => advanceWrite s t eintr data i point
    | .read n got point => advanceRead s t eintr n got point
    | _ => none
  | .ends readers writers namedWait =>
    some { s with pipe := { s.pipe with readers, writers, namedWait } }

/-- A pipe as `sys_pipe` and `open_pipe` make it, all fields zero but those about its ends. -/
def fresh (readers writers : ℕ) (namedWait : Bool) : State where
  pipe := ⟨fun _ => 0, 0, 0, readers, writers, namedWait⟩
  lock := none
  task := fun _ => .idle
  accepted := []
  delivered := []

/-- Every interleaving of the threads' steps. -/
def Run : State → State → Prop :=
  Relation.ReflTransGen fun s s' => ∃ action, step s action = some s'

def State.acceptedBytes (s : State) : List UInt8 := s.accepted.map Prod.snd

def State.deliveredBytes (s : State) : List UInt8 := s.delivered.map Prod.snd

/-- The bytes accepted from one thread. -/
def State.acceptedFrom (s : State) (t : ℕ) : List UInt8 :=
  (s.accepted.filter (·.1 == t)).map Prod.snd

/-- The bytes delivered to one thread. -/
def State.deliveredTo (s : State) (t : ℕ) : List UInt8 :=
  (s.delivered.filter (·.1 == t)).map Prod.snd

-- The ring

variable {s s' : State} {t other : ℕ} {p : Pipe}

structure Pipe.InRange (p : Pipe) : Prop where
  head : p.head < pipeBuf
  tail : p.tail < pipeBuf

theorem Pipe.InRange.inBounds (range : p.InRange) : p.inBounds = true := by
  simp [Pipe.inBounds, range.head, range.tail]

theorem Pipe.InRange.full_iff (range : p.InRange)
    : p.full = true ↔ ringNext pipeBuf p.tail = p.head := by
  have head := range.head
  have tail := range.tail
  simp only [Pipe.full, ringNext, pipeBuf, Bool.or_eq_true, Bool.and_eq_true, beq_iff_eq] at *
  omega

theorem Pipe.InRange.contents_inc (range : p.InRange) (room : p.full = false)
    : p.inc.contents = p.contents ++ [p.pipeFifo p.tail] := by
  refine ringContents_inc range.head range.tail fun isFull => ?_
  simp [range.full_iff.mpr isFull] at room

theorem Pipe.InRange.contents_dec (range : p.InRange) (some : p.empty = false)
    : p.contents = p.pipeFifo p.head :: p.dec.contents :=
  ringContents_dec range.head range.tail (by simpa [Pipe.empty] using some)

-- The invariant

/-- What holds at the points of `pipe_write` that hold the lock. -/
def WritePoint.Ok (s : State) (t : ℕ) (next : Option UInt8) : WritePoint → Prop
  | .acquire | .sleepNamed | .sleepFull => True
  | .enter | .named | .full | .woken => s.lock = some t
  | .store => s.lock = some t ∧ s.pipe.full = false
  | .inc => s.lock = some t ∧ s.pipe.full = false ∧ next = some (s.pipe.pipeFifo s.pipe.tail)

/-- What holds at the points of `pipe_read` that hold the lock. -/
def ReadPoint.Ok (s : State) (t : ℕ) : ReadPoint → Prop
  | .acquire | .sleepNamed | .sleepEmpty => True
  | .enter | .named | .empty => s.lock = some t
  | .load => s.lock = some t ∧ s.pipe.empty = false
  | .dec out => s.lock = some t ∧ s.pipe.empty = false ∧ out = s.pipe.pipeFifo s.pipe.head

/-- The bytes a call has moved are the last ones accepted from, or delivered to, its thread. -/
def Task.Ok (s : State) (t : ℕ) : Task → Prop
  | .idle => True
  | .write data i point =>
    i < data.length ∧ data.take i <:+ s.acceptedFrom t ∧ point.Ok s t data[i]?
  | .wrote data result =>
    ∀ k, result = .ok k → k ≤ data.length ∧ data.take k <:+ s.acceptedFrom t
  | .read n got point => got.length < n ∧ got <:+ s.deliveredTo t ∧ point.Ok s t
  | .wasRead _ got result => ∀ k, result = .ok k → k = got.length ∧ got <:+ s.deliveredTo t
  | .panicked => False

structure Inv (s : State) : Prop where
  range : s.pipe.InRange
  fifo : s.acceptedBytes = s.deliveredBytes ++ s.pipe.contents
  tasks : ∀ t, (s.task t).Ok s t

/-- The ring and its positions are the same; the ends may differ. -/
structure Pipe.SameRing (p p' : Pipe) : Prop where
  pipeFifo : p'.pipeFifo = p.pipeFifo
  head : p'.head = p.head
  tail : p'.tail = p.tail

variable {p' : Pipe} {point : WritePoint} {task : Task} {lock : Option ℕ} {data got : List UInt8}
    {i n : ℕ} {result : Except Errno ℕ} {c : UInt8} {eintr : Bool}

theorem Pipe.SameRing.full (same : p.SameRing p') : p'.full = p.full := by
  simp only [Pipe.full, same.head, same.tail]

theorem Pipe.SameRing.empty (same : p.SameRing p') : p'.empty = p.empty := by
  simp [Pipe.empty, same.head, same.tail]

/-- What a thread relies on: its own bytes in the two histories and, while it holds the lock,
the lock and the ring.
-/
structure Unaffected (s s' : State) (t : ℕ) : Prop where
  accepted : s'.acceptedFrom t = s.acceptedFrom t
  delivered : s'.deliveredTo t = s.deliveredTo t
  holding : s.lock = some t → s'.lock = some t ∧ s.pipe.SameRing s'.pipe

theorem Unaffected.writePoint (still : Unaffected s s' t) {next} (ok : point.Ok s t next)
    : point.Ok s' t next := by
  cases point with
  | acquire | sleepNamed | sleepFull => trivial
  | enter | named | full | woken => exact (still.holding ok).1
  | store =>
    obtain ⟨lock, ring⟩ := still.holding ok.1
    exact ⟨lock, ring.full.trans ok.2⟩
  | inc =>
    obtain ⟨lock, ring⟩ := still.holding ok.1
    exact ⟨lock, ring.full.trans ok.2.1, by rw [ring.pipeFifo, ring.tail]; exact ok.2.2⟩

theorem Unaffected.readPoint (still : Unaffected s s' t) {point : ReadPoint} (ok : point.Ok s t)
    : point.Ok s' t := by
  cases point with
  | acquire | sleepNamed | sleepEmpty => trivial
  | enter | named | empty => exact (still.holding ok).1
  | load =>
    obtain ⟨lock, ring⟩ := still.holding ok.1
    exact ⟨lock, ring.empty.trans ok.2⟩
  | dec out =>
    obtain ⟨lock, ring⟩ := still.holding ok.1
    exact ⟨lock, ring.empty.trans ok.2.1, by rw [ring.pipeFifo, ring.head]; exact ok.2.2⟩

theorem Unaffected.task_ok (still : Unaffected s s' t) (ok : task.Ok s t)
    : task.Ok s' t := by
  cases task with
  | idle => trivial
  | write data i point =>
    exact ⟨ok.1, by rw [still.accepted]; exact ok.2.1, still.writePoint ok.2.2⟩
  | wrote data result => intro k done; rw [still.accepted]; exact ok k done
  | read n got point =>
    exact ⟨ok.1, by rw [still.delivered]; exact ok.2.1, still.readPoint ok.2.2⟩
  | wasRead n got result => intro k done; rw [still.delivered]; exact ok k done
  | panicked => exact ok

/-- One thread moves: the ring and the histories still fit, the thread's own task is in order,
and the other threads are unaffected.
-/
theorem Inv.move (inv : Inv s) (range : s'.pipe.InRange)
    (fifo : s'.acceptedBytes = s'.deliveredBytes ++ s'.pipe.contents)
    (own : (s'.task t).Ok s' t) (tasks : ∀ other ≠ t, s'.task other = s.task other)
    (others : ∀ other ≠ t, Unaffected s s' other)
    : Inv s' where
  range := range
  fifo := fifo
  tasks other := by
    by_cases same : other = t
    · exact same ▸ own
    · rw [tasks other same]
      exact (others other same).task_ok (inv.tasks other)

/-- A thread goes to another point and may take or leave the lock, which no other thread holds. -/
theorem Inv.goto (inv : Inv s) (exclusive : lock = s.lock ∨ ∀ other ≠ t, s.lock ≠ some other)
    (own : task.Ok { s.goto t task with lock } t)
    : Inv { s.goto t task with lock } := by
  refine inv.move inv.range inv.fifo (by simpa [State.goto] using own)
    (fun other differs => update_of_ne differs _ _) fun other differs => ?_
  refine ⟨rfl, rfl, fun holds => ⟨?_, ⟨rfl, rfl, rfl⟩⟩⟩
  rcases exclusive with kept | nobody
  · exact kept ▸ holds
  · exact absurd holds (nobody other differs)

theorem exclusive_of_holds (holds : s.lock = some t) : ∀ other ≠ t, s.lock ≠ some other :=
  fun _ differs same => differs (some.inj (same.symm.trans holds))

theorem Inv.stay (inv : Inv s) (own : task.Ok (s.goto t task) t) : Inv (s.goto t task) :=
  Inv.goto inv (.inl rfl) own

theorem Inv.release (inv : Inv s) (holds : s.lock = some t) (own : task.Ok (s.release t task) t)
    : Inv (s.release t task) :=
  Inv.goto inv (.inr (exclusive_of_holds holds)) own

theorem Inv.acquire (inv : Inv s) (done : s.acquire t task = some s')
    (own : task.Ok { s.goto t task with lock := some t } t)
    : Inv s' := by
  unfold State.acquire at done
  split at done <;> cases done
  next unlocked =>
  exact Inv.goto inv (.inr fun other _ same => by simp [unlocked] at same) own

-- The histories

theorem filter_snoc_self (log : List (ℕ × UInt8)) (c : UInt8)
    : ((log ++ [(t, c)]).filter (·.1 == t)).map snd
      = (log.filter (·.1 == t)).map snd ++ [c] := by
  simp

theorem filter_snoc_other (log : List (ℕ × UInt8)) (c : UInt8) (differs : other ≠ t)
    : ((log ++ [(t, c)]).filter (·.1 == other)).map snd
      = (log.filter (·.1 == other)).map snd := by
  simp [differs.symm]

theorem suffix_snoc {moved all} (before : moved <:+ all) (c : UInt8)
    : moved ++ [c] <:+ all ++ [c] := by
  obtain ⟨front, rfl⟩ := before
  exact ⟨front, by simp⟩

-- Steps of a writer

/-- A call that stops after `i` bytes, whatever it returns, was stopped in order. -/
theorem wrote_ok (within : i ≤ data.length)
    (moved : data.take i <:+ s.acceptedFrom t) (value : ∀ k, result = .ok k → k = i)
    : (Task.wrote data result).Ok s t := by
  intro k done
  rw [value k done]
  exact ⟨within, moved⟩

theorem interrupted_eq {k} (done : interrupted i = .ok k) : k = i := by
  unfold interrupted at done
  split at done <;> cases done
  rfl

/-- The store to the free slot touches no byte in the ring. -/
theorem Inv.store (inv : Inv s) (own : (Task.write data i .store).Ok s t) (next : data[i]? = some c)
    : Inv { s.goto t (.write data i .inc) with
        pipe := { s.pipe with pipeFifo := update s.pipe.pipeFifo s.pipe.tail c } } := by
  obtain ⟨within, moved, holds, room⟩ := own
  refine inv.move ⟨inv.range.head, inv.range.tail⟩ ?_ ?_
    (fun other differs => update_of_ne differs _ _) fun other differs => ?_
  · exact inv.fifo.trans (congrArg _ (ringContents_store inv.range.head c).symm)
  · simpa [State.goto, Task.Ok, WritePoint.Ok, next] using ⟨within, moved, holds, room⟩
  · exact ⟨rfl, rfl, fun theirs => absurd theirs (exclusive_of_holds holds _ differs)⟩

/-- Moving `tail` accepts the byte that was stored. -/
theorem Inv.inc (inv : Inv s) (own : (Task.write data i .inc).Ok s t) (next : data[i]? = some c)
    (after : ∀ s' : State, s'.lock = lock → data.take (i + 1) <:+ s'.acceptedFrom t → task.Ok s' t)
    : Inv { s with
        pipe := s.pipe.inc, accepted := s.accepted ++ [(t, c)], lock := lock
        task := update s.task t task } := by
  obtain ⟨within, moved, holds, room, stored⟩ := own
  have byte := some.inj (stored.symm.trans next)
  refine inv.move ⟨inv.range.head, mod_lt _ (by decide)⟩ ?_ ?_
    (fun other differs => update_of_ne differs _ _) fun other differs => ?_
  · have grown := inv.range.contents_inc room
    simp only [State.acceptedBytes, State.deliveredBytes, map_append, map_cons,
      map_nil, grown, byte, ← append_assoc]
    exact congrArg (· ++ [c]) inv.fifo
  · simp only [update_self]
    refine after _ rfl ?_
    have longer : data.take (i + 1) = data.take i ++ [c] := by
      rw [take_add_one, next]
      rfl
    simp only [State.acceptedFrom, filter_snoc_self, longer]
    exact suffix_snoc moved c
  · exact ⟨filter_snoc_other _ _ differs, rfl,
      fun theirs => absurd theirs (exclusive_of_holds holds _ differs)⟩

/-- Every step of `pipe_write` keeps the invariant, one case for each point. -/
theorem Inv.advanceWrite (inv : Inv s) (at_ : s.task t = .write data i point)
    (done : advanceWrite s t eintr data i point = some s')
    : Inv s' := by
  have own := inv.tasks t
  rw [at_] at own
  obtain ⟨within, moved, here⟩ := id own
  have stopped {result : Except Errno ℕ} (value : ∀ k, result = .ok k → k = i)
      : (Task.wrote data result).Ok s t :=
    wrote_ok within.le moved value
  cases point with
  | acquire | sleepNamed | sleepFull => exact inv.acquire done ⟨within, moved, rfl⟩
  | enter =>
    cases done
    rw [if_pos inv.range.inBounds]
    exact inv.stay ⟨within, moved, here⟩
  | named =>
    cases done
    split
    · split
      · exact inv.release here (stopped fun k => interrupted_eq)
      · exact inv.release here ⟨within, moved, trivial⟩
    · split
      · exact inv.release here (stopped fun k impossible => by cases impossible)
      · exact inv.stay ⟨within, moved, here⟩
  | full =>
    cases done
    split
    · exact inv.release here ⟨within, moved, trivial⟩
    next room => exact inv.stay ⟨within, moved, here, eq_false_of_ne_true room⟩
  | woken =>
    cases done
    split
    · exact inv.release here (stopped fun k impossible => by cases impossible)
    · split
      · exact inv.release here (stopped fun k => interrupted_eq)
      · exact inv.stay ⟨within, moved, here⟩
  | store =>
    obtain ⟨c, next, rfl⟩ := map_eq_some_iff.mp done
    exact inv.store own next
  | inc =>
    obtain ⟨c, next, rfl⟩ := map_eq_some_iff.mp done
    split
    next more =>
      exact inv.inc own next fun s' lock moved => ⟨more, moved, lock.trans here.1⟩
    · exact inv.inc own next fun s' _ moved =>
        wrote_ok within moved fun k same => (ok.inj same).symm

-- Steps of a reader

theorem wasRead_ok (moved : got <:+ s.deliveredTo t) (value : ∀ k, result = .ok k → k = got.length)
    : (Task.wasRead n got result).Ok s t :=
  fun k done => ⟨value k done, moved⟩

/-- Moving `head` delivers the byte that was loaded. -/
theorem Inv.dec (inv : Inv s) {out} (own : (Task.read n got (.dec out)).Ok s t)
    (after : ∀ s' : State, s'.lock = lock → got ++ [out] <:+ s'.deliveredTo t → task.Ok s' t)
    : Inv { s with
        pipe := s.pipe.dec, delivered := s.delivered ++ [(t, out)], lock := lock
        task := update s.task t task } := by
  obtain ⟨within, moved, holds, some, loaded⟩ := own
  refine inv.move ⟨mod_lt _ (by decide), inv.range.tail⟩ ?_ ?_
    (fun other differs => update_of_ne differs _ _) fun other differs => ?_
  · have shrunk := inv.range.contents_dec some
    have before := inv.fifo
    simp only [State.acceptedBytes, State.deliveredBytes, map_append, map_cons,
      map_nil, append_assoc, singleton_append] at before ⊢
    rw [before, shrunk, loaded]
  · simp only [update_self]
    refine after _ rfl ?_
    simp only [State.deliveredTo, filter_snoc_self]
    exact suffix_snoc moved out
  · exact ⟨rfl, filter_snoc_other _ _ differs,
      fun theirs => absurd theirs (exclusive_of_holds holds _ differs)⟩

/-- Every step of `pipe_read` keeps the invariant, one case for each point. -/
theorem Inv.advanceRead (inv : Inv s) {point} (at_ : s.task t = .read n got point)
    (done : advanceRead s t eintr n got point = some s')
    : Inv s' := by
  have own := inv.tasks t
  rw [at_] at own
  obtain ⟨within, moved, here⟩ := id own
  have stopped {result : Except Errno ℕ} (value : ∀ k, result = .ok k → k = got.length)
      : (Task.wasRead n got result).Ok s t :=
    wasRead_ok moved value
  have all : ∀ k, (ok got.length : Except Errno ℕ) = .ok k → k = got.length :=
    fun k same => (ok.inj same).symm
  cases point with
  | acquire | sleepNamed | sleepEmpty => exact inv.acquire done ⟨within, moved, rfl⟩
  | enter =>
    cases done
    rw [if_pos inv.range.inBounds]
    exact inv.stay ⟨within, moved, here⟩
  | named =>
    cases done
    split
    · split
      · exact inv.release here (stopped fun k => interrupted_eq)
      · exact inv.release here ⟨within, moved, trivial⟩
    · exact inv.stay ⟨within, moved, here⟩
  | empty =>
    cases done
    split
    · split
      · exact inv.release here (stopped all)
      · split
        · exact inv.release here ⟨within, moved, trivial⟩
        · exact inv.release here (stopped all)
    next some => exact inv.stay ⟨within, moved, here, eq_false_of_ne_true some⟩
  | load =>
    cases done
    exact inv.stay ⟨within, moved, here.1, here.2, rfl⟩
  | dec out =>
    cases done
    split
    next more =>
      exact inv.dec own fun s' lock moved => ⟨by simpa using more, moved, lock.trans here.1⟩
    · exact inv.dec own fun s' _ moved =>
        wasRead_ok moved fun k same => by simp [← ok.inj same]

-- Whole runs

theorem inv_fresh (readers writers : ℕ) (namedWait : Bool)
    : Inv (fresh readers writers namedWait) where
  range := ⟨(by decide : 0 < pipeBuf), (by decide : 0 < pipeBuf)⟩
  fifo := ringContents_empty.symm
  tasks _ := trivial

/-- Every step of the system keeps the invariant. -/
theorem Inv.step (inv : Inv s) {action} (done : step s action = some s') : Inv s' := by
  cases action with
  | write t data =>
    obtain ⟨-, rfl⟩ := guarded done
    refine inv.stay ?_
    split
    · exact wrote_ok (zero_le _) (by simp) fun k same => (ok.inj same).symm
    next nonempty =>
      exact ⟨length_pos_iff.mpr nonempty, by simp, trivial⟩
  | read t n =>
    obtain ⟨-, rfl⟩ := guarded done
    refine inv.stay ?_
    split
    · exact wasRead_ok (nil_suffix) fun k same => (ok.inj same).symm
    next positive =>
    refine ⟨?_, nil_suffix, trivial⟩
    split
    · exact (by decide : 0 < ssizeMax)
    · exact Nat.pos_of_ne_zero positive
  | run t eintr =>
    simp only [PipeIo.step] at done
    split at done
    next data i point at_ => exact inv.advanceWrite at_ done
    next n got point at_ => exact inv.advanceRead at_ done
    · cases done
  | ends readers writers namedWait =>
    cases done
    have still (t : ℕ)
        : Unaffected s { s with pipe := { s.pipe with readers, writers, namedWait } } t :=
      ⟨rfl, rfl, fun holds => ⟨holds, ⟨rfl, rfl, rfl⟩⟩⟩
    exact ⟨⟨inv.range.head, inv.range.tail⟩, inv.fifo, fun t => (still t).task_ok (inv.tasks t)⟩

theorem Run.inv (run : Run s s') (inv : Inv s) : Inv s' := by
  induction run with
  | refl => exact inv
  | tail _ last ih =>
    obtain ⟨_, done⟩ := last
    exact ih.step done

/-- First in, first out. The last two fields tie the histories to what the calls moved: the
bytes a returned call reports are the last ones of its thread, as they stand in its buffer.
-/
structure Fifo (s : State) : Prop where
  delivered : s.deliveredBytes <+: s.acceptedBytes
  inRing : s.acceptedBytes = s.deliveredBytes ++ s.pipe.contents
  wrote : ∀ t data k, s.task t = .wrote data (.ok k) →
    k ≤ data.length ∧ data.take k <:+ s.acceptedFrom t
  wasRead : ∀ t n got k, s.task t = .wasRead n got (.ok k) →
    k = got.length ∧ got <:+ s.deliveredTo t
  neverPanics : ∀ t, s.task t ≠ .panicked

/-- Whatever the interleaving, the readers get the bytes the writers had accepted, in order,
and the rest is what the ring holds.
-/
theorem run_fifo {readers writers : ℕ} {namedWait : Bool}
    (run : Run (fresh readers writers namedWait) s)
    : Fifo s := by
  have inv := run.inv (inv_fresh readers writers namedWait)
  refine ⟨⟨s.pipe.contents, inv.fifo.symm⟩, inv.fifo, ?_, ?_, ?_⟩
  · intro t data k returned
    have own := inv.tasks t
    rw [returned] at own
    exact own k rfl
  · intro t n got k returned
    have own := inv.tasks t
    rw [returned] at own
    exact own k rfl
  · intro t panicked
    have own := inv.tasks t
    rw [panicked] at own
    exact own

/-- Running a list of actions. -/
def runActions (s : State) : List Action → Option State
  | [] => some s
  | action :: rest => (step s action).bind (runActions · rest)

theorem run_of_actions {actions} (done : runActions s actions = some s')
    : Run s s' := by
  induction actions generalizing s with
  | nil => cases done; exact .refl
  | cons action rest ih =>
    obtain ⟨middle, first, later⟩ := bind_eq_some_iff.mp done
    exact .head ⟨action, first⟩ (ih later)

/-- Thread 2 finds the ring empty and sleeps, thread 1 writes two bytes, thread 2 reads one. -/
def twoBytes : List Action :=
  Action.read 2 1 :: List.replicate 4 (Action.run 2 false)
    ++ Action.write 1 [7, 8] :: List.replicate 11 (Action.run 1 false)
    ++ List.replicate 6 (Action.run 2 false)

theorem run_fifo_two_bytes
    : ∃ s, runActions (fresh 1 1 false) twoBytes = some s ∧ Fifo s := by
  exact exists_of_isSome rfl fun _ done => run_fifo (run_of_actions done)

end UnstableOS.Fs.PipeIo
