import UnstableOS.Fs.PipeIo
import UnstableOS.Lib.Contiguous

/-! Which bytes of a pipe belong to which call of `pipe_write`.
A call lets go of the lock while the ring is full, so that the bytes of another call can come
between its own. With room for the whole call when its first byte is put, the lock is held until
the last one.
-/

namespace UnstableOS.Fs.PipeIo

open Kernel Lib Function PipeIo State List Nat Pipe Option

-- The calls of the bytes

/-- A call of `pipe_write`: the thread, the number of the call among those of the thread, and the
number of bytes it was asked to write.
-/
structure Call where
  thread : ℕ
  number : ℕ
  size : ℕ
deriving DecidableEq

/-- The system with a history: how often each thread has called `pipe_write`, and the call that
each accepted byte is from.
-/
structure Logged where
  state : State
  number : ℕ → ℕ
  stream : List Call

open Logged

/-- The number of bytes the running call of a thread was asked to write. -/
def Task.size : Task → ℕ
  | .write data _ _ => data.length
  | _ => 0

/-- The running call of a thread. -/
def Logged.current (l : Logged) (t : ℕ) : Call := ⟨t, l.number t, (l.state.task t).size⟩

/-- A step of the system with its history. -/
def Logged.step (l : Logged) (action : Action) : Option Logged :=
  (PipeIo.step l.state action).map fun s' =>
    match action with
    | .write t _ => ⟨s', update l.number t (l.number t + 1), l.stream⟩
    | .run t _ =>
      if s'.accepted.length = l.state.accepted.length then ⟨s', l.number, l.stream⟩
      else ⟨s', l.number, l.stream ++ [l.current t]⟩
    | _ => ⟨s', l.number, l.stream⟩

/-- A pipe that was just made. -/
def Logged.fresh (readers writers : ℕ) (namedWait : Bool) : Logged :=
  ⟨PipeIo.fresh readers writers namedWait, fun _ => 0, []⟩

/-- The calls of the bytes that have been delivered, in the order of delivery. -/
def Logged.deliveredStream (l : Logged) : List Call := l.stream.take l.state.delivered.length

/-- (Atomic l) holds when the delivered bytes of each call of at most `PIPE_BUF` bytes stand
together.
-/
def Logged.Atomic (l : Logged) : Prop :=
  ∀ call : Call, call.size ≤ pipeBuf → Contiguous call l.deliveredStream

-- Room in the ring

variable {s s' : State} {t u : ℕ} {p : Pipe} {l l' : Logged} {data : List UInt8} {i : ℕ}
  {point : WritePoint}

/-- The number of bytes that can be put before the ring is full. -/
def Pipe.room (p : Pipe) : ℕ := pipeBuf - 1 - ringCount pipeBuf p.head p.tail

theorem Pipe.InRange.full_iff_room (range : p.InRange) : p.full = true ↔ p.room = 0 := by
  have head := range.head
  have tail := range.tail
  rw [range.full_iff, ringNext_eq tail]
  unfold room ringCount
  split_ifs <;> omega

/-- Putting a byte takes one place. -/
theorem Pipe.InRange.room_inc (range : p.InRange) (notFull : p.full = false)
    : p.room = p.inc.room + 1 := by
  have head := range.head
  have tail := range.tail
  have next : p.inc.tail = if p.tail + 1 = pipeBuf then 0 else p.tail + 1 := ringNext_eq tail
  have apart : ¬ ringNext pipeBuf p.tail = p.head := by
    rw [← range.full_iff, notFull]
    simp
  rw [ringNext_eq tail] at apart
  have same : p.inc.head = p.head := rfl
  unfold room ringCount
  split_ifs at * <;> omega

-- The condition

/-- The size of the call that is about to put its first byte. -/
def Task.starting : Task → Option ℕ
  | .write data 0 .full => some data.length
  | _ => none

/-- The condition: where a call of at most `PIPE_BUF` bytes puts its first byte, there is room for
all of them. Besides, `named_wait` is not set again, which the source never does.
-/
def Logged.Roomy (l : Logged) : Action → Prop
  | .run t _ =>
    ∀ size ∈ (l.state.task t).starting,
      size ≤ pipeBuf → l.state.pipe.full = false → size ≤ l.state.pipe.room
  | .ends _ _ namedWait => namedWait = true → l.state.pipe.namedWait = true
  | .write _ _ => True
  | .read _ _ => True

instance (l : Logged) : (action : Action) → Decidable (l.Roomy action)
  | .run t _ =>
    inferInstanceAs (Decidable (∀ size ∈ (l.state.task t).starting,
      size ≤ pipeBuf → l.state.pipe.full = false → size ≤ l.state.pipe.room))
  | .ends _ _ namedWait =>
    inferInstanceAs (Decidable (namedWait = true → l.state.pipe.namedWait = true))
  | .write _ _ => isTrue trivial
  | .read _ _ => isTrue trivial

-- The invariant

/-- The points of a call that was not put to sleep by a full ring. -/
def WritePoint.Inside : WritePoint → Prop
  | .enter | .named | .full | .store | .inc => True
  | _ => False

/-- The points behind the test of `named_wait`. -/
def WritePoint.PastNamed : WritePoint → Prop
  | .full | .sleepFull | .woken | .store | .inc => True
  | _ => False

/-- (Underway i point) holds when the call has put a byte or is about to put its first one. -/
def Underway (i : ℕ) (point : WritePoint) : Prop := 0 < i ∨ point = .store ∨ point = .inc

/-- What holds of a call of at most `PIPE_BUF` bytes: once it is underway it has the lock and room
for its other bytes, and the bytes it has put are the last ones in the stream.
-/
structure Logged.Places (l : Logged) (t : ℕ) (data : List UInt8) (i : ℕ) (point : WritePoint)
    : Prop where
  underway : Underway i point →
    l.state.lock = some t ∧ data.length ≤ i + l.state.pipe.room ∧ point.Inside
  last : ∃ front, l.stream = front ++ List.replicate i ⟨t, l.number t, data.length⟩
    ∧ ⟨t, l.number t, data.length⟩ ∉ front

structure Logged.Orderly (l : Logged) : Prop where
  inv : Inv l.state
  blocks : ∀ call : Call, call.size ≤ pipeBuf → Contiguous call l.stream
  numbers : ∀ call ∈ l.stream, call.number ≤ l.number call.thread
  writes : ∀ t data i point, l.state.task t = .write data i point → data.length ≤ pipeBuf →
    l.Places t data i point
  opened : ∀ t data i point, l.state.task t = .write data i point →
    0 < i ∨ point.PastNamed → l.state.pipe.namedWait = false

theorem Logged.Orderly.atomic (orderly : l.Orderly) : l.Atomic :=
  fun call small => (orderly.blocks call small).take _

theorem Logged.orderly_fresh (readers writers : ℕ) (namedWait : Bool)
    : (fresh readers writers namedWait).Orderly where
  inv := inv_fresh readers writers namedWait
  blocks _ _ := Contiguous.nil
  numbers := by simp [fresh]
  writes := by simp [fresh, PipeIo.fresh]
  opened := by simp [fresh, PipeIo.fresh]

theorem Logged.Places.start (places : l.Places t data i point) (free : l.state.lock ≠ some t)
    : i = 0 ∧ ¬ Underway i point := by
  have still : ¬ Underway i point := fun underway => free (places.underway underway).1
  refine ⟨?_, still⟩
  by_contra some
  exact still (.inl (Nat.pos_of_ne_zero some))

theorem Logged.Places.absent (places : l.Places t data 0 point)
    : (⟨t, l.number t, data.length⟩ : Call) ∉ l.stream := by
  obtain ⟨front, split, absent⟩ := places.last
  simpa [split] using absent

theorem Logged.Places.of_absent (absent : (⟨t, l.number t, data.length⟩ : Call) ∉ l.stream)
    (still : ¬ Underway 0 point)
    : l.Places t data 0 point :=
  ⟨fun underway => absurd underway still, l.stream, by simp, absent⟩

variable {eintr : Bool} {task : Task} {lock : Option ℕ} {n : ℕ} {got : List UInt8} {c : UInt8}

/-- A thread that takes a step has the lock, or nobody has it. -/
theorem holder_runs (inv : Inv s) (done : step s (.run t eintr) = some s') (differs : u ≠ t)
    : s.lock ≠ some u := by
  intro theirs
  have own := inv.tasks t
  have notMine : s.lock ≠ some t := by
    rw [theirs]
    exact fun same => differs (some.inj same)
  have stuck (task : Task) : s.acquire t task = none := by simp [acquire, theirs]
  simp only [step] at done
  split at done
  next data i point running =>
    rw [running] at own
    have here := own.2.2
    cases point with
    | acquire | sleepNamed | sleepFull => simp [advanceWrite, stuck] at done
    | enter | named | full | woken => exact notMine here
    | store | inc => exact notMine here.1
  next n got point running =>
    rw [running] at own
    have here := own.2.2
    cases point with
    | acquire | sleepNamed | sleepEmpty => simp [advanceRead, stuck] at done
    | enter | named | empty => exact notMine here
    | load | dec => exact notMine here.1
  · cases done

section
variable (orderly : l.Orderly) (inv : Inv s') (mine : ∀ u ≠ t, l.state.lock ≠ some u)
include orderly inv mine

/-- A thread takes a step without putting a byte. Whatever it does, nobody else is underway. -/
theorem Logged.Orderly.quiet (tasks : ∀ u ≠ t, s'.task u = l.state.task u)
    (named : s'.pipe.namedWait = l.state.pipe.namedWait)
    (own : ∀ data i point, s'.task t = .write data i point → data.length ≤ pipeBuf →
      Places ⟨s', l.number, l.stream⟩ t data i point)
    (opened : ∀ data i point, s'.task t = .write data i point → 0 < i ∨ point.PastNamed →
      s'.pipe.namedWait = false)
    : Orderly ⟨s', l.number, l.stream⟩ where
  inv := inv
  blocks := orderly.blocks
  numbers := orderly.numbers
  writes u data i point running small := by
    by_cases same : u = t
    · subst same
      exact own data i point running small
    · have before := orderly.writes u data i point (tasks u same ▸ running) small
      obtain ⟨rfl, still⟩ := before.start (mine u same)
      exact Places.of_absent before.absent still
  opened u data i point running past := by
    by_cases same : u = t
    · subst same
      exact opened data i point running past
    · exact named.trans (orderly.opened u data i point (tasks u same ▸ running) past)

/-- A thread puts a byte.
Witness: the byte either starts the block of its call or continues it, and no other call of at most
`PIPE_BUF` bytes is underway.
-/
theorem Logged.Orderly.put (running : l.state.task t = .write data i point)
    (tasks : ∀ u ≠ t, s'.task u = l.state.task u)
    (own : ∀ data' i' point', s'.task t = .write data' i' point' → data'.length ≤ pipeBuf →
      data' = data ∧ i' = i + 1 ∧ s'.lock = some t ∧ data.length ≤ i + 1 + s'.pipe.room
        ∧ point'.Inside)
    (wasOpen : s'.pipe.namedWait = false)
    : Orderly ⟨s', l.number, l.stream ++ [l.current t]⟩ := by
  have current : l.current t = ⟨t, l.number t, data.length⟩ := by
    simp [current, running, Task.size]
  refine ⟨inv, ?_, ?_, ?_, ?_⟩
  · intro call small
    by_cases same : call = l.current t
    · obtain ⟨front, split, absent⟩ := (orderly.writes t data i point running (by
        rw [same, current] at small
        exact small)).last
      rw [split, same, current, append_assoc, ← replicate_succ']
      exact contiguous_block absent
    · exact (orderly.blocks call small).snoc_other fun is => same is.symm
  · intro call mem
    rcases mem_append.mp mem with old | new
    · exact orderly.numbers call old
    · rw [mem_singleton.mp new]
      exact le_refl _
  · intro u data' i' point' isRunning small
    by_cases same : u = t
    · subst same
      obtain ⟨rfl, rfl, lock, room, inside⟩ := own data' i' point' isRunning small
      obtain ⟨front, split, absent⟩ := (orderly.writes u data' i point running small).last
      refine ⟨fun _ => ⟨lock, room, inside⟩, front, ?_, absent⟩
      simp [split, current, ← replicate_succ']
    have before := orderly.writes u data' i' point' (tasks u same ▸ isRunning) small
    obtain ⟨rfl, still⟩ := before.start (mine u same)
    refine Places.of_absent ?_ still
    rw [mem_append, not_or]
    refine ⟨before.absent, fun mem => same ?_⟩
    have is := mem_singleton.mp mem
    exact congrArg Call.thread is
  · intro u data' i' point' isRunning past
    exact wasOpen

end

-- Every step keeps the invariant

/-- The thread goes to another point of its call; the ring is not touched. -/
theorem Logged.Orderly.goto (orderly : l.Orderly)
    (mine : ∀ u ≠ t, l.state.lock ≠ some u) (inv : Inv { l.state.goto t task with lock })
    (own : ∀ data i point, task = .write data i point → data.length ≤ pipeBuf →
      Places ⟨{ l.state.goto t task with lock }, l.number, l.stream⟩ t data i point)
    (opened : ∀ data i point, task = .write data i point → 0 < i ∨ point.PastNamed →
      l.state.pipe.namedWait = false)
    : Orderly ⟨{ l.state.goto t task with lock }, l.number, l.stream⟩ := by
  have now : (l.state.goto t task).task t = task := update_self ..
  refine orderly.quiet inv mine (fun u differs => update_of_ne differs ..) rfl ?_ ?_
  · exact fun data i point running => own data i point (now.symm.trans running)
  · exact fun data i point running => opened data i point (now.symm.trans running)

theorem acquire_eq (done : s.acquire t task = some s')
    : s' = { s.goto t task with lock := some t } := by
  unfold acquire at done
  split at done
  · exact (some.inj done).symm
  · cases done

/-- (Follows l t s') holds when the next state is in order with the history a step of the thread
leaves, whether or not it put a byte.
-/
def Logged.Follows (l : Logged) (t : ℕ) (s' : State) : Prop :=
  (s'.accepted = l.state.accepted ∧ Logged.Orderly ⟨s', l.number, l.stream⟩)
    ∨ (s'.accepted.length = l.state.accepted.length + 1
        ∧ Logged.Orderly ⟨s', l.number, l.stream ++ [l.current t]⟩)

theorem Logged.Follows.step (follows : l.Follows t s')
    (stepped : PipeIo.step l.state (.run t eintr) = some s')
    (done : l.step (.run t eintr) = some l')
    : l'.Orderly := by
  simp only [Logged.step, stepped, map_some, some.injEq] at done
  rcases follows with ⟨same, orderly⟩ | ⟨longer, orderly⟩
  · rw [if_pos (by rw [same])] at done
    exact done ▸ orderly
  · rw [if_neg (by omega)] at done
    exact done ▸ orderly

/-- A thread is at a point of `pipe_write`, and no other thread has the lock. -/
structure Logged.Writing (l : Logged) (t : ℕ) (data : List UInt8) (i : ℕ) (point : WritePoint)
    : Prop where
  orderly : l.Orderly
  running : l.state.task t = .write data i point
  mine : ∀ u ≠ t, l.state.lock ≠ some u

namespace Logged.Writing
variable (writing : l.Writing t data i point)
include writing

theorem taskOk : (Task.write data i point).Ok l.state t :=
  writing.running ▸ writing.orderly.inv.tasks t

theorem ok : point.Ok l.state t data[i]? := writing.taskOk.2.2

theorem places (small : data.length ≤ pipeBuf) : l.Places t data i point :=
  writing.orderly.writes t data i point writing.running small

theorem opened (past : 0 < i ∨ point.PastNamed) : l.state.pipe.namedWait = false :=
  writing.orderly.opened t data i point writing.running past

/-- The thread leaves the call. -/
theorem leaves {data' : List UInt8} {result : Except Errno ℕ}
    (inv : Inv (l.state.release t (.wrote data' result)))
    : l.Follows t (l.state.release t (.wrote data' result)) :=
  .inl ⟨rfl, writing.orderly.goto writing.mine inv nofun nofun⟩

/-- The thread goes on without being underway. -/
theorem waits {next : WritePoint} (zero : data.length ≤ pipeBuf → i = 0)
    (still : ¬ Underway 0 next) (past : 0 < i ∨ next.PastNamed → l.state.pipe.namedWait = false)
    (inv : Inv { l.state.goto t (.write data i next) with lock })
    : l.Follows t { l.state.goto t (.write data i next) with lock } := by
  refine .inl ⟨rfl, writing.orderly.goto writing.mine inv ?_ ?_⟩
  · intro data' i' point' same small
    cases same
    have before := writing.places small
    rw [zero small] at before ⊢
    exact Places.of_absent before.absent still
  · intro data' i' point' same late
    cases same
    exact past late

/-- The thread goes on with the lock, underway or not. -/
theorem goes {next : WritePoint} (holds : l.state.lock = some t) (inside : next.Inside)
    (room : Underway i next → data.length ≤ pipeBuf → data.length ≤ i + l.state.pipe.room)
    (past : 0 < i ∨ next.PastNamed → l.state.pipe.namedWait = false)
    (inv : Inv (l.state.goto t (.write data i next)))
    : l.Follows t (l.state.goto t (.write data i next)) := by
  refine .inl ⟨rfl, @Logged.Orderly.goto t l _ l.state.lock writing.orderly writing.mine inv ?_ ?_⟩
  · intro data' i' point' same small
    cases same
    exact ⟨fun underway => ⟨holds, room underway small, inside⟩, (writing.places small).last⟩
  · intro data' i' point' same late
    cases same
    exact past late

/-- Outside of the lock, a call of at most `PIPE_BUF` bytes has put none. -/
theorem outside (not : ¬ point.Inside) (small : data.length ≤ pipeBuf) : i = 0 := by
  by_contra some
  exact not ((writing.places small).underway (.inl (Nat.pos_of_ne_zero some))).2.2

theorem roomStays {next : WritePoint}
    (same : next = .store ∨ next = .inc → point = .store ∨ point = .inc)
    (underway : Underway i next) (small : data.length ≤ pipeBuf)
    : data.length ≤ i + l.state.pipe.room :=
  ((writing.places small).underway (underway.imp_right same)).2.1

end Logged.Writing

theorem Logged.Writing.acquire (writing : l.Writing t data i point) (inv : Inv s')
    (done : advanceWrite l.state t eintr data i point = some s')
    (waiting : point = .acquire ∨ point = .sleepNamed ∨ point = .sleepFull)
    : l.Follows t s' := by
  rcases waiting with rfl | rfl | rfl <;> rw [acquire_eq done] at inv ⊢ <;>
    exact writing.waits (writing.outside id) (by simp [Underway])
      (fun late => writing.opened (late.imp_right id)) inv

theorem Logged.Writing.named (writing : l.Writing t data i .named) (inv : Inv s')
    (done : advanceWrite l.state t eintr data i .named = some s')
    : l.Follows t s' := by
  cases done
  by_cases waiting : l.state.pipe.namedWait = true
  · simp only [waiting, if_true] at inv ⊢
    have zero : i = 0 := by
      by_contra some
      exact absurd (writing.opened (.inl (Nat.pos_of_ne_zero some))) (by simp [waiting])
    cases eintr with
    | true => exact writing.leaves inv
    | false =>
      exact writing.waits (fun _ => zero) (by simp [Underway])
        (by simp [zero, WritePoint.PastNamed]) inv
  · simp only [waiting] at inv ⊢
    by_cases none : l.state.pipe.readers = 0
    · simp only [none, if_true] at inv ⊢
      exact writing.leaves inv
    · simp only [none, if_false] at inv ⊢
      exact writing.goes writing.ok trivial (writing.roomStays (by simp))
        (fun _ => eq_false_of_ne_true waiting) inv

/-- At the test of `FULL`: a call that has put a byte has room for the others, and one that puts its
first byte has room for all.
-/
theorem Logged.Writing.full (writing : l.Writing t data i .full) (inv : Inv s')
    (done : advanceWrite l.state t eintr data i .full = some s') (roomy : l.Roomy (.run t eintr))
    : l.Follows t s' := by
  cases done
  have wasOpen := writing.opened (.inr trivial)
  by_cases isFull : l.state.pipe.full = true
  · simp only [isFull, if_true] at inv ⊢
    have noRoom := writing.orderly.inv.range.full_iff_room.mp isFull
    refine writing.waits (fun small => ?_) (by simp [Underway]) (fun _ => wasOpen) inv
    by_contra some
    have within := writing.taskOk.1
    have := ((writing.places small).underway (.inl (Nat.pos_of_ne_zero some))).2.1
    omega
  · simp only [isFull] at inv ⊢
    refine writing.goes writing.ok trivial (fun _ small => ?_) (fun _ => wasOpen) inv
    cases i with
    | zero =>
      have := roomy data.length (by rw [writing.running]; rfl) small (eq_false_of_ne_true isFull)
      omega
    | succ i => exact ((writing.places small).underway (.inl (succ_pos i))).2.1

theorem Logged.Writing.woken (writing : l.Writing t data i .woken) (inv : Inv s')
    (done : advanceWrite l.state t eintr data i .woken = some s')
    : l.Follows t s' := by
  cases done
  have wasOpen := writing.opened (.inr trivial)
  by_cases none : l.state.pipe.readers = 0
  · simp only [none, if_true] at inv ⊢
    exact writing.leaves inv
  simp only [none, if_false] at inv ⊢
  cases eintr with
  | true => exact writing.leaves inv
  | false =>
    exact writing.goes writing.ok trivial (writing.roomStays (by simp)) (fun _ => wasOpen) inv

theorem Logged.Writing.store (writing : l.Writing t data i .store) (inv : Inv s')
    (done : advanceWrite l.state t eintr data i .store = some s')
    : l.Follows t s' := by
  obtain ⟨c, next, rfl⟩ := map_eq_some_iff.mp done
  have now : (l.state.goto t (.write data i .inc)).task t = .write data i .inc := update_self ..
  refine .inl ⟨rfl, writing.orderly.quiet inv writing.mine
    (fun u differs => update_of_ne differs ..) rfl ?_
    (fun _ _ _ _ _ => writing.opened (.inr trivial))⟩
  intro data' i' point' same small
  cases now.symm.trans same
  have before := writing.places small
  obtain ⟨holds, room, _⟩ := before.underway (.inr (.inl rfl))
  exact ⟨fun _ => ⟨holds, room, trivial⟩, before.last⟩

/-- The byte is put: one place of the room is used. -/
theorem Logged.Writing.inc (writing : l.Writing t data i .inc) (inv : Inv s')
    (done : advanceWrite l.state t eintr data i .inc = some s')
    : l.Follows t s' := by
  obtain ⟨c, next, rfl⟩ := map_eq_some_iff.mp done
  have wasOpen := writing.opened (.inr trivial)
  split_ifs at inv ⊢ with more <;>
    refine .inr ⟨by simp [State.goto, release], writing.orderly.put inv writing.mine
      writing.running (fun u differs => update_of_ne differs ..)
      (fun data' i' point' same small => ?_) wasOpen⟩ <;>
    cases (update_self (β := fun _ => Task) t _ l.state.task).symm.trans same
  obtain ⟨holds, room, _⟩ := (writing.places small).underway (.inr (.inr rfl))
  have shrunk := writing.orderly.inv.range.room_inc writing.ok.2.1
  refine ⟨rfl, rfl, holds, ?_, trivial⟩
  show data.length ≤ i + 1 + l.state.pipe.inc.room
  omega

/-- Every step of `pipe_write` under the condition keeps the invariant, one case for each point. -/
theorem Logged.Writing.advance (writing : l.Writing t data i point)
    (roomy : l.Roomy (.run t eintr)) (inv : Inv s')
    (done : advanceWrite l.state t eintr data i point = some s')
    : l.Follows t s' := by
  cases point with
  | acquire => exact writing.acquire inv done (.inl rfl)
  | sleepNamed => exact writing.acquire inv done (.inr (.inl rfl))
  | sleepFull => exact writing.acquire inv done (.inr (.inr rfl))
  | enter =>
    cases done
    rw [if_pos writing.orderly.inv.range.inBounds] at inv ⊢
    exact writing.goes writing.ok trivial (writing.roomStays (by simp))
      (fun late => writing.opened (late.imp_right id)) inv
  | named => exact writing.named inv done
  | full => exact writing.full inv done roomy
  | woken => exact writing.woken inv done
  | store => exact writing.store inv done
  | inc => exact writing.inc inv done

/-- A reader puts no byte, and is no writer afterwards. -/
structure ReadsOn (s s' : State) (t : ℕ) : Prop where
  accepted : s'.accepted = s.accepted
  named : s'.pipe.namedWait = s.pipe.namedWait
  tasks : ∀ u ≠ t, s'.task u = s.task u
  own : ∀ data i point, s'.task t ≠ .write data i point

theorem readsOn_goto {delivered pipe} (named : pipe.namedWait = s.pipe.namedWait)
    (reads : ∀ data i point, task ≠ .write data i point)
    : ReadsOn s { s.goto t task with lock, delivered, pipe } t where
  accepted := rfl
  named := named
  tasks _ differs := update_of_ne differs ..
  own data i point same := reads data i point ((update_self ..).symm.trans same)

theorem advanceRead_readsOn {point} (done : advanceRead s t eintr n got point = some s')
    : ReadsOn s s' t := by
  cases point with
  | acquire | sleepNamed | sleepEmpty =>
    rw [acquire_eq done]
    exact readsOn_goto rfl nofun
  | load =>
    cases done
    exact readsOn_goto rfl nofun
  | enter | named | empty | dec =>
    cases done
    split_ifs <;> exact readsOn_goto rfl nofun

/-- A thread that was in no call makes one.
Witness: a call that starts has a number of its own.
-/
theorem Logged.Orderly.begin (orderly : l.Orderly) {number}
    (later : l.number t ≤ number) (inv : Inv (l.state.goto t task))
    (own : ∀ data i point, task = .write data i point →
      i = 0 ∧ point = .acquire ∧ l.number t < number)
    : Orderly ⟨l.state.goto t task, update l.number t number, l.stream⟩ := by
  have now : (l.state.goto t task).task t = task := update_self ..
  have others (u : ℕ) (differs : u ≠ t) : (l.state.goto t task).task u = l.state.task u :=
    update_of_ne differs ..
  refine ⟨inv, orderly.blocks, ?_, ?_, ?_⟩
  · intro call mem
    have before := orderly.numbers call mem
    by_cases same : call.thread = t
    · rw [same] at before
      simp only [same, update_self]
      omega
    · simpa only [update_of_ne same] using before
  · intro u data i point running small
    by_cases same : u = t
    · subst same
      obtain ⟨rfl, rfl, newer⟩ := own data i point (now.symm.trans running)
      refine Places.of_absent (fun mem => ?_) (by simp [Underway])
      have := orderly.numbers _ mem
      simp only [update_self] at this
      omega
    · obtain ⟨underway, last⟩ :=
        orderly.writes u data i point ((others u same).symm.trans running) small
      refine ⟨underway, ?_⟩
      simpa only [update_of_ne same] using last
  · intro u data i point running past
    by_cases same : u = t
    · subst same
      obtain ⟨rfl, rfl, _⟩ := own data i point (now.symm.trans running)
      simp [WritePoint.PastNamed] at past
    · exact orderly.opened u data i point ((others u same).symm.trans running) past

/-- Every step under the condition keeps the invariant. -/
theorem Logged.Orderly.step (orderly : l.Orderly) {action}
    (done : l.step action = some l') (roomy : l.Roomy action)
    : l'.Orderly := by
  obtain ⟨s', stepped, after⟩ := map_eq_some_iff.mp done
  have inv := orderly.inv.step stepped
  cases action with
  | write t data =>
    obtain ⟨-, rfl⟩ := guarded stepped
    subst after
    refine orderly.begin (le_succ _) inv fun data' i point same => ?_
    split at same <;> cases same
    exact ⟨rfl, rfl, lt_succ_self _⟩
  | read t n =>
    obtain ⟨-, rfl⟩ := guarded stepped
    subst after
    have := orderly.begin (le_refl (l.number t)) inv fun data i point same => by
      split at same <;> cases same
    rwa [update_eq_self] at this
  | run t eintr =>
    have mine : ∀ u ≠ t, l.state.lock ≠ some u :=
      fun u differs => holder_runs orderly.inv stepped differs
    have follows : l.Follows t s' := by
      have ran := stepped
      simp only [PipeIo.step] at ran
      split at ran
      next data i point running => exact Writing.advance ⟨orderly, running, mine⟩ roomy inv ran
      next n got point running =>
        have reads := advanceRead_readsOn ran
        refine .inl ⟨reads.accepted, orderly.quiet inv mine reads.tasks reads.named ?_ ?_⟩ <;>
          exact fun data i point running => absurd running (reads.own data i point)
      · cases ran
    exact follows.step stepped done
  | ends readers writers namedWait =>
    cases stepped
    subst after
    refine ⟨inv, orderly.blocks, orderly.numbers, ?_, ?_⟩
    · intro t data i point running small
      obtain ⟨underway, last⟩ := orderly.writes t data i point running small
      exact ⟨underway, last⟩
    · intro t data i point running past
      have before := orderly.opened t data i point running past
      cases namedWait with
      | true => exact absurd (roomy rfl) (by simp [before])
      | false => rfl

/-- In every interleaving in which each call of at most `PIPE_BUF` bytes finds room for all of its
bytes when it puts the first one, the bytes of each such call are delivered one after the other.
-/
theorem Logged.atomic_of_roomy {readers writers : ℕ} {namedWait : Bool} {actions : List Action}
    {states : List Logged}
    (run : trace step (fresh readers writers namedWait) actions = some states)
    (roomy : AllSafe step Roomy (fresh readers writers namedWait) actions)
    : ∀ l ∈ states, l.Atomic := by
  intro l mem
  have orderly := trace_forall Orderly (fun orderly done roomy => orderly.step done roomy)
    (orderly_fresh readers writers namedWait) run roomy l mem
  exact orderly.atomic

/-- Threads 0 and 1 both sleep in `pipe_write` until a named pipe has a reader. Thread 1 is the
first to get the lock again; thread 0 waits for it, and thread 2 reads the bytes of both.
-/
theorem atomic_two_writers
    : ∃ states, trace Logged.step (Logged.fresh 0 2 true)
          (.write 0 [7, 8] :: .write 1 [9, 10]
            :: replicate 3 (.run 0 false) ++ replicate 3 (.run 1 false)
            ++ .ends 1 2 false :: replicate 10 (.run 1 false) ++ replicate 10 (.run 0 false)
            ++ .read 2 4 :: replicate 21 (.run 2 false)) = some states
        ∧ ∀ l ∈ states, l.Atomic :=
  exists_of_isSome (by decide +kernel) fun _ run => atomic_of_roomy run (by decide +kernel)

-- A call that is torn apart

/-- The system can get from one state to the other. -/
def Logged.Leads : Logged → Logged → Prop :=
  Relation.ReflTransGen fun l l' => ∃ action, l.step action = some l'

theorem Logged.Leads.trans {l''} (first : l.Leads l') (second : l'.Leads l'')
    : l.Leads l'' :=
  Relation.ReflTransGen.trans first second

theorem Logged.Leads.quiet (t : ℕ) (s' : State)
    (stepped : PipeIo.step l.state (.run t false) = some s')
    (same : s'.accepted = l.state.accepted) (rest : Leads ⟨s', l.number, l.stream⟩ l')
    : l.Leads l' := by
  refine .head ⟨.run t false, ?_⟩ rest
  simp [step, stepped, same]

attribute [local simp] PipeIo.step State.goto State.release State.acquire advanceWrite advanceRead

/-- The state after a thread has put a byte and taken up the next one, if there is one. -/
def Logged.afterPut (l : Logged) (t : ℕ) (data : List UInt8) (i : ℕ) (c : UInt8) : Logged :=
  ⟨{ l.state with
      pipe := Pipe.inc { l.state.pipe with
        pipeFifo := update l.state.pipe.pipeFifo l.state.pipe.tail c }
      lock := if i + 1 < data.length then l.state.lock else none
      task := update l.state.task t
        (if i + 1 < data.length then .write data (i + 1) .enter else .wrote data (.ok (i + 1)))
      accepted := l.state.accepted ++ [(t, c)] },
    l.number, l.stream ++ [⟨t, l.number t, data.length⟩]⟩

/-- From the test of `FULL` on. -/
theorem Logged.Leads.putFromFull (running : l.state.task t = .write data i .full)
    (notFull : l.state.pipe.full = false) (byte : data[i]? = some c)
    : l.Leads (l.afterPut t data i c) := by
  refine .quiet t (l.state.goto t (.write data i .store)) ?_ rfl ?_
  · simp [running, notFull]
  refine .quiet t { l.state.goto t (.write data i .inc) with
    pipe := { l.state.pipe with
      pipeFifo := update l.state.pipe.pipeFifo l.state.pipe.tail c } } ?_ rfl ?_
  · simp [byte]
  refine .single ⟨.run t false, ?_⟩
  by_cases more : i + 1 < data.length <;>
    simp [step, byte, more, current, Task.size, afterPut]

section
variable (running : l.state.task t = .write data i .enter) (range : l.state.pipe.InRange)
    (opened : l.state.pipe.namedWait = false) (readers : l.state.pipe.readers ≠ 0)
include running range opened readers

theorem Logged.Leads.toFull
    : l.Leads ⟨l.state.goto t (.write data i .full), l.number, l.stream⟩ := by
  refine .quiet t (l.state.goto t (.write data i .named)) ?_ rfl ?_
  · simp [running, range.inBounds]
  refine .quiet t (l.state.goto t (.write data i .full)) ?_ rfl .refl
  simp [opened, readers]

theorem Logged.Leads.put (notFull : l.state.pipe.full = false) (byte : data[i]? = some c)
    : l.Leads (l.afterPut t data i c) := by
  have full := @Logged.Leads.putFromFull t
    ⟨l.state.goto t (.write data i .full), l.number, l.stream⟩ data i c (update_self ..)
    notFull byte
  refine (Leads.toFull running range opened readers).trans ?_
  simpa [afterPut] using full

theorem Logged.Leads.block (isFull : l.state.pipe.full = true)
    : l.Leads ⟨l.state.release t (.write data i .sleepFull), l.number, l.stream⟩ := by
  refine (Leads.toFull running range opened readers).trans ?_
  refine .quiet t (l.state.release t (.write data i .sleepFull)) ?_ rfl .refl
  simp [isFull]

end

/-- A thread that slept takes the lock and puts its byte. -/
theorem Logged.Leads.resume (running : l.state.task t = .write data i .sleepFull)
    (free : l.state.lock = none) (readers : l.state.pipe.readers ≠ 0)
    (notFull : l.state.pipe.full = false) (byte : data[i]? = some c) (final : i + 1 = data.length)
    : l.Leads (l.afterPut t data i c) := by
  refine .quiet t { l.state.goto t (.write data i .woken) with lock := some t } ?_ rfl ?_
  · simp [running, free]
  refine .quiet t { l.state.goto t (.write data i .full) with lock := some t } ?_ rfl ?_
  · simp [readers]
  have full := @Logged.Leads.putFromFull t
    ⟨{ l.state.goto t (.write data i .full) with lock := some t }, l.number, l.stream⟩ data i c
    (update_self ..) notFull byte
  simpa [afterPut, final] using full

/-- A thread calls `pipe_write` and gets the lock. -/
theorem Logged.Leads.write (idle : (l.state.task t).free = true) (free : l.state.lock = none)
    (nonempty : data ≠ [])
    : l.Leads ⟨{ l.state.goto t (.write data 0 .enter) with lock := some t },
        update l.number t (l.number t + 1), l.stream⟩ := by
  have called : l.step (.write t data) = some ⟨l.state.goto t (.write data 0 .acquire),
      update l.number t (l.number t + 1), l.stream⟩ := by
    simp [step, idle, nonempty]
  refine .head ⟨_, called⟩ (.single ⟨.run t false, ?_⟩)
  simp [step, free]

theorem Logged.Leads.read (idle : (l.state.task t).free = true)
    (free : l.state.lock = none) (positive : n ≠ 0) (small : n ≤ ssizeMax)
    : l.Leads ⟨{ l.state.goto t (.read n [] .enter) with lock := some t }, l.number, l.stream⟩ := by
  have called : l.step (.read t n)
      = some ⟨l.state.goto t (.read n [] .acquire), l.number, l.stream⟩ := by
    simp [step, idle, positive, not_lt.mpr small]
  refine .head ⟨_, called⟩ (.single ⟨.run t false, ?_⟩)
  simp [step, free]

/-- The state after a thread has read a byte. -/
def Logged.afterGet (l : Logged) (t n : ℕ) (got : List UInt8) : Logged :=
  let out := l.state.pipe.pipeFifo l.state.pipe.head
  ⟨{ l.state with
      pipe := l.state.pipe.dec
      lock := if got.length + 1 < n then l.state.lock else none
      task := update l.state.task t (if got.length + 1 < n then .read n (got ++ [out]) .enter
          else .wasRead n (got ++ [out]) (.ok (got.length + 1)))
      delivered := l.state.delivered ++ [(t, out)] },
    l.number, l.stream⟩

theorem Logged.Leads.get (running : l.state.task t = .read n got .enter)
    (range : l.state.pipe.InRange) (opened : l.state.pipe.namedWait = false)
    (notEmpty : l.state.pipe.empty = false)
    : l.Leads (l.afterGet t n got) := by
  refine .quiet t (l.state.goto t (.read n got .named)) ?_ rfl ?_
  · simp [running, range.inBounds]
  refine .quiet t (l.state.goto t (.read n got .empty)) ?_ rfl ?_
  · simp [opened]
  refine .quiet t (l.state.goto t (.read n got .load)) ?_ rfl ?_
  · simp [notEmpty]
  refine .quiet t (l.state.goto t (.read n got (.dec (l.state.pipe.pipeFifo l.state.pipe.head))))
    ?_ rfl ?_
  · simp
  refine .single ⟨.run t false, ?_⟩
  by_cases more : got.length + 1 < n <;>
    simp [step, more, afterGet]

/-- A pipe of zero bytes with two writers and a reader. -/
def scene (head tail : ℕ) (lock : Option ℕ) (task : ℕ → Task) (number : ℕ → ℕ)
    (accepted delivered : List (ℕ × UInt8)) (stream : List Call) : Logged :=
  ⟨⟨⟨fun _ => 0, head, tail, 1, 2, false⟩, lock, task, accepted, delivered⟩, number, stream⟩

/-- `PIPE_BUF` zero bytes. -/
def zeros : List UInt8 := List.replicate pipeBuf 0

theorem zeros_length : zeros.length = 2048 := length_replicate

theorem zeros_get {k} (within : k < 2048) : zeros[k]? = some 0 :=
  getElem?_replicate_of_lt within

section Scenes

variable {head tail k : ℕ} {task : ℕ → Task} {number : ℕ → ℕ}
  {accepted delivered : List (ℕ × UInt8)} {stream : List Call}

attribute [local simp] scene

/-- The first writer fills the ring. -/
theorem fills (running : task 0 = .write zeros 0 .enter) (within : k ≤ 2047)
    : Leads (scene 0 0 (some 0) task number [] [] [])
        (scene 0 k (some 0) (update task 0 (.write zeros k .enter)) number
          (replicate k (0, 0)) [] (replicate k ⟨0, number 0, 2048⟩)) := by
  induction k with
  | zero =>
    rw [← running, update_eq_self]
    exact .refl
  | succ k ih =>
    have small : k < pipeBuf := by unfold pipeBuf; omega
    have next : (k + 1) % pipeBuf = k + 1 := mod_eq_of_lt (by unfold pipeBuf; omega)
    refine (ih (by omega)).trans ?_
    have put := @Logged.Leads.put 0 (scene 0 k (some 0) (update task 0 (.write zeros k .enter))
      number (replicate k (0, 0)) [] (replicate k ⟨0, number 0, 2048⟩)) zeros k 0
      (by simp) ⟨Nat.two_pow_pos 11, small⟩ rfl Nat.one_ne_zero
      (by simp [full, pipeBuf]; omega) (zeros_get (by omega))
    simpa [afterPut, inc, next, zeros_length, replicate_succ', show k + 1 < 2048 by omega] using put

/-- The reader asks for as many bytes as there are and gets them. -/
theorem reads {n} (idle : (task 2).free = true) (small : n + 1 ≤ ssizeMax)
    (headIn : head < pipeBuf) (tailIn : tail < pipeBuf)
    (more : ∀ j ≤ n, (head + j) % pipeBuf ≠ tail)
    : Leads (scene head tail none task number accepted delivered stream)
        (scene ((head + (n + 1)) % pipeBuf) tail none
          (update task 2 (.wasRead (n + 1) (replicate (n + 1) 0) (.ok (n + 1)))) number accepted
          (delivered ++ replicate (n + 1) (2, 0)) stream) := by
  have called := @Logged.Leads.read 2 (scene head tail none task number accepted delivered stream)
    (n + 1) idle rfl (succ_ne_zero n) small
  have get (k : ℕ) (le : k ≤ n) := @Logged.Leads.get 2 (scene ((head + k) % pipeBuf) tail (some 2)
      (update task 2 (.read (n + 1) (replicate k 0) .enter)) number accepted
      (delivered ++ replicate k (2, 0)) stream)
    (n + 1) (replicate k 0) (by simp) ⟨mod_lt _ (Nat.two_pow_pos 11), tailIn⟩ rfl
    (by simp [empty, more k le])
  have gets (k : ℕ) (le : k ≤ n)
      : Leads (scene head tail none task number accepted delivered stream)
          (scene ((head + k) % pipeBuf) tail (some 2)
            (update task 2 (.read (n + 1) (replicate k 0) .enter)) number accepted
            (delivered ++ replicate k (2, 0)) stream) := by
    induction k with
    | zero => simpa [mod_eq_of_lt headIn] using called
    | succ k ih =>
      refine (ih (by omega)).trans ?_
      simpa [afterGet, dec, replicate_succ', show k < n by omega, Nat.add_assoc]
        using get k (by omega)
  refine (gets n le_rfl).trans ?_
  simpa [afterGet, dec, replicate_succ', Nat.add_assoc] using get n le_rfl

/-- The second writer writes one byte into the empty ring. -/
theorem writes (idle : (task 1).free = true)
    : Leads (scene 2047 2047 none task number accepted delivered stream)
        (scene 2047 0 none (update task 1 (.wrote [0] (.ok 1))) (update number 1 (number 1 + 1))
          (accepted ++ [(1, 0)]) delivered (stream ++ [⟨1, number 1 + 1, 1⟩])) := by
  refine (@Logged.Leads.write 1 _ [0] idle rfl (by simp)).trans ?_
  have put := @Logged.Leads.put 1 (scene 2047 2047 (some 1) (update task 1 (.write [0] 0 .enter))
    (update number 1 (number 1 + 1)) accepted delivered stream) [0] 0 0 (by simp)
    ⟨lt_succ_self 2047, lt_succ_self 2047⟩ rfl Nat.one_ne_zero
    (by simp [full]) rfl
  simpa [afterPut, inc, pipeBuf] using put

theorem resumes (running : task 0 = .write zeros 2047 .sleepFull)
    : Leads (scene 2047 0 none task number accepted delivered stream)
        (scene 2047 1 none (update task 0 (.wrote zeros (.ok 2048))) number (accepted ++ [(0, 0)])
          delivered (stream ++ [⟨0, number 0, 2048⟩])) := by
  simpa [afterPut, inc, pipeBuf, zeros_length] using @Logged.Leads.resume 0
    (scene 2047 0 none task number accepted delivered stream) zeros 2047 0 running rfl
    Nat.one_ne_zero (by simp [full]) (zeros_get (by decide)) zeros_length.symm

end Scenes

/-- Thread 0 writes `PIPE_BUF` bytes and sleeps before the last one, because the ring is full.
Thread 2 reads the ring empty, thread 1 writes a byte, and then thread 0 its last one. Thread 2
reads both.
-/
theorem leads_torn
    : ∃ l : Logged, (Logged.fresh 1 2 false).Leads l
        ∧ l.deliveredStream = replicate 2046 ⟨0, 1, 2048⟩
            ++ ⟨0, 1, 2048⟩ :: ([⟨1, 1, 1⟩] ++ ⟨0, 1, 2048⟩ :: []) := by
  have called := @Logged.Leads.write 0 (Logged.fresh 1 2 false) zeros rfl rfl
    (ne_nil_of_length_pos (by rw [zeros_length]; decide))
  have filled := called.trans (fills rfl (le_refl 2047))
  have slept := filled.trans (Leads.block (t := 0) rfl
    ⟨Nat.two_pow_pos 11, lt_succ_self 2047⟩ rfl Nat.one_ne_zero rfl)
  have drained := slept.trans (reads (n := 2046) rfl (by decide) (Nat.two_pow_pos 11)
    (lt_succ_self 2047) (by unfold pipeBuf; omega))
  have between := drained.trans (writes rfl)
  have resumed := between.trans (resumes rfl)
  refine ⟨_, resumed.trans (reads (n := 1) rfl (by decide) (lt_succ_self 2047) (by decide)
    (by unfold pipeBuf; omega)), ?_⟩
  rw [deliveredStream, take_of_length_le]
  · have one : replicate 2047 (⟨0, 1, 2048⟩ : Call)
        = replicate 2046 ⟨0, 1, 2048⟩ ++ [⟨0, 1, 2048⟩] := replicate_succ'
    show (replicate 2047 (⟨0, 1, 2048⟩ : Call) ++ [⟨1, 1, 1⟩]) ++ [⟨0, 1, 2048⟩] = _
    rw [one, append_assoc, append_assoc]
    rfl
  · simp only [scene, goto, length_append, length_replicate,
      length_cons, length_nil, reduceAdd, le_refl]

/-- The bytes of the torn call do not stand together. -/
theorem torn_not_atomic
    : ∃ actions states, trace Logged.step (Logged.fresh 1 2 false) actions = some states
        ∧ ¬ ∀ l ∈ states, l.Atomic := by
  obtain ⟨l, leads, torn⟩ := leads_torn
  obtain ⟨actions, states, run, mem⟩ := exists_trace leads
  refine ⟨actions, states, run, fun atomic => ?_⟩
  have apart := atomic l mem ⟨0, 1, 2048⟩ (by decide) _ _ _ torn ⟨1, 1, 1⟩ (mem_singleton_self _)
  cases apart

end UnstableOS.Fs.PipeIo
