import Mathlib.Data.List.Perm.Subperm
import UnstableOS.Kernel.Scheduler.Code
import UnstableOS.Lib.Trace

/-! Queues of waiting threads (`kernel_sched_queue.c`).
The first entry of a queue is stored in the queue itself, the others in nodes of the heap; the
`prev` field of the first entry is to name the last node. Against it stands a first-in first-out
list of entries.
-/

namespace UnstableOS.Kernel.ThreadQueue

open Lib Kernel.Scheduler Function Nat Option
open List hiding head isEmpty

-- Threads and nodes

/-- The fields of `thread_t` that the queue uses. `others` is the part of `instances` that does not
come from the queue.
-/
structure Thread where
  instances : ℕ
  others : ℕ
  magicQueueValue : BitVec 32
  status : Status
deriving DecidableEq

/-- `struct __thread_queue_inner`; 0 is the null pointer. -/
structure Node where
  parentProcess : ℕ
  thread : ℕ
  magicQueueValue : BitVec 32
  prev : ℕ
  next : ℕ
deriving DecidableEq

/-- What `memset` leaves. -/
def Node.zero : Node := ⟨0, 0, 0, 0, 0⟩

/-- The address of the entry that is part of the queue. -/
def head : ℕ := 1

/-- The memory the queue uses, the nodes that are allocated, and the threads. -/
structure Store where
  node : ℕ → Node
  allocated : List ℕ
  thread : ℕ → Thread

open Store

-- The functions

namespace Store

variable (s : Store)

def setNode (p : ℕ) (node : Node) : Store :=
  { s with node := update s.node p node }

def setThread (t : ℕ) (thread : Thread) : Store :=
  { s with thread := update s.thread t thread }

/-- The queue has no entries. -/
def isEmpty : Bool := (s.node head).parentProcess = 0

/-- `__thread_queue_add`, where `kalloc` returns `fresh`. A store through a null pointer faults. -/
def add (process thread fresh : ℕ) : Option Store :=
  let s := s.setThread thread
    { s.thread thread with instances := (s.thread thread).instances + 1 }
  let magic := (s.thread thread).magicQueueValue
  if s.isEmpty then
    let s := s.setNode head
      { s.node head with parentProcess := process, thread := thread, prev := head }
    let last := (s.node head).prev
    some (s.setNode last { s.node last with magicQueueValue := magic })
  else
    let tail := (s.node head).prev
    if tail = 0 then none
    else
      let s := { s with allocated := fresh :: s.allocated }
      let s := s.setNode tail { s.node tail with next := fresh }
      let s := s.setNode (s.node tail).next .zero
      let new := (s.node tail).next
      if new = 0 then none
      else
        let s := s.setNode new { s.node new with prev := (s.node head).prev }
        let s := s.setNode head { s.node head with prev := (s.node (s.node head).prev).next }
        let last := (s.node head).prev
        some (s.setNode last { s.node last with
          parentProcess := process, thread := thread, magicQueueValue := magic })

/-- The first entry is overwritten by the second one, whose node is freed, or cleared. -/
def removeFirst : Store :=
  let next := (s.node head).next
  if next ≠ 0 then
    let s := s.setNode head (s.node next)
    let s := s.setNode head { s.node head with prev := (s.node next).prev }
    { s with allocated := s.allocated.erase next }
  else s.setNode head .zero

/-- The part of `__thread_queue_unblock` before it calls itself; the second component is `rerun`. -/
def unblockOne : Option (Store × Bool) :=
  let first := s.node head
  let thread := s.thread first.thread
  if thread.instances = 0 then none
  else
    let valid : Bool := first.magicQueueValue = thread.magicQueueValue
    let s := s.setThread first.thread
      { thread with
        instances := thread.instances - 1
        status := if valid then .runnable else thread.status }
    some (s.removeFirst, !valid)

/-- `__thread_queue_unblock`, which calls itself at most `fuel` times. -/
def unblock : ℕ → Store → Option Store
  | 0, _ => none
  | fuel + 1, s =>
    if s.isEmpty then some s
    else do
      let (s, rerun) ← s.unblockOne
      if rerun then s.unblock fuel else some s

/-- The loop of `thread_queue_unblock_all`. -/
def unblockAll : ℕ → Store → Option Store
  | 0, _ => none
  | fuel + 1, s =>
    if s.isEmpty then some s
    else do
      let s ← s.unblock (fuel + 1)
      s.unblockAll fuel

end Store

/-- The calls on the queue, and what happens to threads meanwhile: a wake-up from elsewhere gives a
thread another magic value, its status changes, and references to it come and go.
-/
inductive Call where
  | add (process thread fresh : ℕ)
  | unblock
  | unblockAll
  | wake (thread : ℕ)
  | status (thread : ℕ) (status : Status)
  | retain (thread : ℕ)
  | release (thread : ℕ)

/-- What happens to a thread meanwhile. -/
def Thread.wake (thread : Thread) : Thread :=
  { thread with magicQueueValue := thread.magicQueueValue + 1 }

def Thread.retain (thread : Thread) : Thread :=
  { thread with instances := thread.instances + 1, others := thread.others + 1 }

def Thread.release (thread : Thread) : Thread :=
  if thread.others = 0 then thread
  else { thread with instances := thread.instances - 1, others := thread.others - 1 }

/-- More turns than there can be entries. -/
def Store.turns (s : Store) : ℕ := s.allocated.length + 2

/-- The process that is passed exists, and `kalloc` returns memory that is not in use. -/
def Store.admits (s : Store) : Call → Bool
  | .add process _ fresh =>
    process ≠ 0 && fresh ≠ 0 && fresh ≠ head && !s.allocated.contains fresh
  | _ => true

def Store.perform (s : Store) : Call → Option Store
  | .add process thread fresh => s.add process thread fresh
  | .unblock => s.unblock s.turns
  | .unblockAll => s.unblockAll s.turns
  | .wake t => some (s.setThread t (s.thread t).wake)
  | .status t status => some (s.setThread t { s.thread t with status := status })
  | .retain t => some (s.setThread t (s.thread t).retain)
  | .release t => some (s.setThread t (s.thread t).release)

-- The list it stands for

/-- An entry: the process, the thread, and the magic value the thread had when it was added. -/
structure Entry where
  process : ℕ
  thread : ℕ
  magic : BitVec 32
deriving DecidableEq

def Node.entry (node : Node) : Entry := ⟨node.parentProcess, node.thread, node.magicQueueValue⟩

/-- A first-in first-out list of entries, and the threads. -/
structure Fifo where
  queue : List Entry
  thread : ℕ → Thread

namespace Fifo

variable (threads : ℕ → Thread)

/-- A stale entry is one whose thread has been woken from elsewhere. -/
def valid (entry : Entry) : Bool :=
  entry.magic = (threads entry.thread).magicQueueValue

/-- A thread whose entry is added has one more reference. -/
def enter (t : ℕ) : ℕ → Thread :=
  update threads t { threads t with instances := (threads t).instances + 1 }

/-- The thread of an entry that leaves the queue, made runnable unless the entry is stale. -/
def leave (entry : Entry) : ℕ → Thread :=
  let thread := threads entry.thread
  update threads entry.thread
    { thread with
      instances := thread.instances - 1
      status := if valid threads entry then .runnable else thread.status }

/-- The oldest entry leaves, and while it is stale the next one. -/
def unblock (threads : ℕ → Thread) : List Entry → Fifo
  | [] => ⟨[], threads⟩
  | entry :: rest =>
    if valid threads entry then ⟨rest, leave threads entry⟩
    else unblock (leave threads entry) rest

def setThread (a : Fifo) (t : ℕ) (thread : Thread) : Fifo :=
  { a with thread := update a.thread t thread }

def perform (a : Fifo) : Call → Fifo
  | .add process t _ =>
    ⟨a.queue ++ [⟨process, t, (a.thread t).magicQueueValue⟩], enter a.thread t⟩
  | .unblock => unblock a.thread a.queue
  | .unblockAll => ⟨[], a.queue.foldl leave a.thread⟩
  | .wake t => a.setThread t (a.thread t).wake
  | .status t status => a.setThread t { a.thread t with status := status }
  | .retain t => a.setThread t (a.thread t).retain
  | .release t => a.setThread t (a.thread t).release

end Fifo

/-- A call on the queue and on the list. -/
def step (pair : Store × Fifo) (call : Call) : Option (Store × Fifo) :=
  if pair.1.admits call then (pair.1.perform call).map fun s => (s, pair.2.perform call)
  else some pair

/-- The nodes of the queue in their order. -/
def Store.nodes (s : Store) : List ℕ := follow 0 (fun p => (s.node p).next) s.turns head

/-- The entries of the queue in their order. -/
def Store.contents (s : Store) : List Entry :=
  if s.isEmpty then [] else s.nodes.map fun p => (s.node p).entry

/-- (Refines pair) holds when the queue has the entries of the list and the threads are the same. -/
def Refines (pair : Store × Fifo) : Prop :=
  pair.1.contents = pair.2.queue ∧ pair.1.thread = pair.2.thread

/-- A thread is added only to an empty queue, or where `prev` of the first entry names the last
node.
-/
def Safe (pair : Store × Fifo) : Call → Prop
  | .add process thread fresh => pair.1.admits (.add process thread fresh) →
      pair.1.isEmpty = false → pair.1.nodes.getLast? = some (pair.1.node head).prev
  | _ => True

-- Chains of nodes

variable {s s' : Store} {nodes : List ℕ} {queue rest : List Entry} {entry : Entry}

/-- (Chain s nodes) holds when the nodes after the first entry are these. -/
structure Chain (s : Store) (nodes : List ℕ) : Prop where
  walk : Walk 0 (fun p => (s.node p).next) head (head :: nodes)
  nodup : (head :: nodes).Nodup
  allocated : nodes ⊆ s.allocated
  real : ∀ p ∈ head :: nodes, (s.node p).parentProcess ≠ 0

/-- (Holds s queue) holds when the queue has these entries. -/
inductive Holds (s : Store) : List Entry → Prop where
  | empty (isEmpty : s.isEmpty = true) (noNext : (s.node head).next = 0) : Holds s []
  | chain {nodes : List ℕ} (chain : Chain s nodes)
      : Holds s ((head :: nodes).map fun p => (s.node p).entry)

section
variable (chain : Chain s nodes)
include chain

theorem Chain.length_le : nodes.length ≤ s.allocated.length :=
  (subperm_of_subset (nodup_cons.mp chain.nodup).2 chain.allocated).length_le

theorem Chain.not_mem {fresh} (freshHead : fresh ≠ head) (notUsed : fresh ∉ s.allocated)
    : fresh ∉ head :: nodes := by
  intro mem
  rcases mem_cons.mp mem with same | later
  · exact freshHead same
  · exact notUsed (chain.allocated later)

theorem Chain.nodes_eq : s.nodes = head :: nodes := by
  have bound := chain.length_le
  refine chain.walk.follow_eq ?_
  simp only [length_cons, Store.turns]
  omega

theorem Chain.not_empty : s.isEmpty = false := by
  simpa [isEmpty] using chain.real head mem_cons_self

end

section
variable (holds : Holds s queue)
include holds

theorem Holds.contents_eq : s.contents = queue := by
  cases holds with
  | empty isEmpty _ => simp [contents, isEmpty]
  | chain chain =>
    simp [contents, chain.not_empty, chain.nodes_eq]

theorem Holds.length_lt : queue.length < s.turns := by
  cases holds with
  | empty _ _ => exact succ_pos _
  | chain chain =>
    have bound := chain.length_le
    simp only [length_map, length_cons, Store.turns]
    omega

theorem Holds.setThread (thread : ℕ → Thread)
    : Holds { s with thread := thread } queue := by
  cases holds with
  | empty isEmpty noNext => exact .empty isEmpty noNext
  | chain chain => exact .chain ⟨chain.walk, chain.nodup, chain.allocated, chain.real⟩

end

-- Removal

/-- The entries are those of a chain. -/
theorem Holds.exists_chain (holds : Holds s (entry :: rest))
    : ∃ nodes, Chain s nodes ∧ (s.node head).entry = entry
        ∧ nodes.map (fun p => (s.node p).entry) = rest := by
  generalize equal : entry :: rest = queue at holds
  cases holds with
  | empty _ _ => cases equal
  | @chain nodes chain =>
    obtain ⟨first, others⟩ := cons.inj equal
    exact ⟨nodes, chain, first.symm, others.symm⟩

theorem Holds.of_nil (holds : Holds s []) : s.isEmpty = true ∧ (s.node head).next = 0 := by
  generalize equal : ([] : List Entry) = queue at holds
  cases holds with
  | empty isEmpty noNext => exact ⟨isEmpty, noNext⟩
  | chain _ => cases equal

theorem Holds.not_empty (holds : Holds s (entry :: rest)) : s.isEmpty = false := by
  obtain ⟨_, chain, -⟩ := holds.exists_chain
  exact chain.not_empty

attribute [local simp] setNode Node.entry Node.zero setThread

/-- The second entry takes the place of the first one.
Witness: the second node is copied over the first one, so the walk goes on where it did.
-/
theorem Holds.removeFirst (holds : Holds s (entry :: rest)) : Holds s.removeFirst rest := by
  obtain ⟨nodes, chain, -, others⟩ := holds.exists_chain
  have moved := chain.walk.2.2
  cases nodes with
  | nil =>
    have noNext : (s.node head).next = 0 := moved
    have cleared : s.removeFirst = s.setNode head .zero := by
      simp [Store.removeFirst, noNext]
    rw [cleared, ← others]
    exact .empty (by simp [isEmpty]) (by simp)
  | cons second later =>
    obtain ⟨isNext, isReal, onward⟩ := moved
    obtain ⟨headOther, nodup⟩ := nodup_cons.mp chain.nodup
    obtain ⟨secondOther, laterNodup⟩ := nodup_cons.mp nodup
    have headLater : head ∉ later := fun mem => headOther (mem_cons_of_mem _ mem)
    have notHead (p : ℕ) (mem : p ∈ later) : p ≠ head := fun same => headLater (same ▸ mem)
    have node (p : ℕ) : s.removeFirst.node p = if p = head then s.node second else s.node p := by
      have secondNode : second ≠ head := fun same => headOther (same ▸ mem_cons_self)
      by_cases isHead : p = head
      · simp [Store.removeFirst, isNext, isReal, isHead, secondNode]
      · simp [Store.removeFirst, isNext, isReal, isHead]
    have kept (p : ℕ) (mem : p ∈ later) : s.removeFirst.node p = s.node p := by
      rw [node p, if_neg (notHead p mem)]
    have first : s.removeFirst.node head = s.node second := by rw [node head, if_pos rfl]
    have allocated : s.removeFirst.allocated = s.allocated.erase second := by
      simp [Store.removeFirst, isNext, isReal]
    have held : Holds s.removeFirst
        ((head :: later).map fun p => (s.removeFirst.node p).entry) := by
      refine .chain ⟨⟨rfl, Nat.one_ne_zero, ?_⟩, nodup_cons.mpr ⟨headLater, laterNodup⟩, ?_, ?_⟩
      · show Walk 0 _ (s.removeFirst.node head).next later
        rw [first]
        exact onward.congr fun p mem => congrArg Node.next (kept p mem)
      · intro p mem
        rw [allocated]
        have other : p ≠ second := fun same => secondOther (same ▸ mem)
        exact (mem_erase_of_ne other).mpr (chain.allocated (mem_cons_of_mem _ mem))
      · refine forall_mem_cons.mpr ⟨?_, fun p mem => ?_⟩
        · rw [first]
          exact chain.real second (mem_cons_of_mem _ mem_cons_self)
        · rw [kept p mem]
          exact chain.real p (mem_cons_of_mem _ (mem_cons_of_mem _ mem))
    have entries : (head :: later).map (fun p => (s.removeFirst.node p).entry) = rest := by
      rw [← others, map_cons, map_cons, first]
      exact congrArg _ (map_congr_left fun p mem => by rw [kept p mem])
    exact entries ▸ held

theorem removeFirst_thread (s : Store) : s.removeFirst.thread = s.thread := by
  simp only [removeFirst]
  split <;> rfl

theorem Holds.unblockOne (holds : Holds s (entry :: rest))
    (held : (s.thread entry.thread).instances ≠ 0)
    : ∃ s', s.unblockOne = some (s', !Fifo.valid s.thread entry) ∧ Holds s' rest
        ∧ s'.thread = Fifo.leave s.thread entry := by
  obtain ⟨nodes, chain, rfl, -⟩ := holds.exists_chain
  have isHeld := held
  exact ⟨_, if_neg isHeld, (holds.setThread _).removeFirst, removeFirst_thread _⟩

-- References

variable {threads : ℕ → Thread}

/-- (Counted threads queue) holds when every entry has its reference to its thread. -/
def Counted (threads : ℕ → Thread) (queue : List Entry) : Prop :=
  ∀ t, (threads t).instances = (threads t).others + queue.countP (·.thread = t)

theorem Counted.held (counted : Counted threads (entry :: rest))
    : (threads entry.thread).instances ≠ 0 := by
  have count := counted entry.thread
  rw [countP_cons_of_pos (by simp)] at count
  omega

theorem Counted.leave (counted : Counted threads (entry :: rest))
    : Counted (Fifo.leave threads entry) rest := by
  intro t
  have count := counted t
  by_cases same : t = entry.thread
  · subst same
    rw [countP_cons_of_pos (by simp)] at count
    simp only [Fifo.leave, update_self]
    omega
  · rw [countP_cons_of_neg (by simpa using Ne.symm same)] at count
    simpa only [Fifo.leave, update_of_ne same] using count

theorem Counted.enter (counted : Counted threads queue) (process t : ℕ) (magic : BitVec 32)
    : Counted (Fifo.enter threads t) (queue ++ [⟨process, t, magic⟩]) := by
  intro other
  have count := counted other
  rw [countP_append]
  by_cases same : other = t
  · subst same
    simp only [Fifo.enter, update_self, countP_singleton, decide_true, if_true]
    omega
  · simpa [Fifo.enter, update_of_ne same, Ne.symm same] using count

variable {thread : Thread} {fuel : ℕ} {pair : Store × Fifo} {c : Store} {a : Fifo} {call : Call}

/-- A thread changes in what the queue does not count. -/
theorem Counted.update (counted : Counted threads queue) {t}
    (same : thread.instances + (threads t).others = (threads t).instances + thread.others)
    : Counted (update threads t thread) queue := by
  intro other
  have count := counted other
  by_cases equal : other = t
  · subst equal
    rw [update_self]
    omega
  · rwa [update_of_ne equal]

-- Unblocking

/-- What the queue and the list have in common. -/
structure Coupled (s : Store) (queue : List Entry) : Prop where
  holds : Holds s queue
  counted : Counted s.thread queue

/-- The threads leave as they do in the list.
Witness: induction on the entries, of which each turn takes one.
-/
theorem Coupled.unblock (coupled : Coupled s queue) (enough : queue.length < fuel)
    : ∃ s', s.unblock fuel = some s' ∧ Coupled s' (Fifo.unblock s.thread queue).queue
        ∧ s'.thread = (Fifo.unblock s.thread queue).thread := by
  induction queue generalizing s fuel with
  | nil =>
    obtain ⟨fuel, rfl⟩ := exists_eq_succ_of_ne_zero (Nat.ne_of_gt enough)
    have isEmpty := coupled.holds.of_nil.1
    exact ⟨s, by simp [unblock, isEmpty], coupled, rfl⟩
  | cons entry rest ih =>
    obtain ⟨fuel, rfl⟩ := exists_eq_succ_of_ne_zero (Nat.ne_of_gt (zero_lt_of_lt enough))
    have notEmpty := coupled.holds.not_empty
    obtain ⟨s₁, one, holds, threads⟩ := coupled.holds.unblockOne coupled.counted.held
    have left : Coupled s₁ rest := ⟨holds, threads ▸ coupled.counted.leave⟩
    simp only [unblock, notEmpty, Bool.false_eq_true, if_false, one, bind_eq_bind,
      bind_some, Fifo.unblock]
    by_cases valid : Fifo.valid s.thread entry = true
    · simp only [valid, Bool.not_true, Bool.false_eq_true, if_false, if_true]
      exact ⟨s₁, rfl, left, threads⟩
    · simp only [valid, Bool.not_false, if_true, Bool.false_eq_true, if_false, ← threads]
      exact ih left (lt_of_succ_lt_succ enough)

/-- The entries that are left are no more than there were, and fewer if there were any. -/
theorem length_unblock (threads : ℕ → Thread) (queue : List Entry)
    : (Fifo.unblock threads queue).queue.length ≤ queue.length - 1 := by
  induction queue generalizing threads with
  | nil => exact Nat.le_refl 0
  | cons entry rest ih =>
    unfold Fifo.unblock
    split
    · exact Nat.le_refl _
    · exact Nat.le_trans (ih _) (sub_le _ _)

/-- All entries that are left leave in their order as well. -/
theorem foldl_unblock (threads : ℕ → Thread) (queue : List Entry)
    : (Fifo.unblock threads queue).queue.foldl Fifo.leave (Fifo.unblock threads queue).thread
        = queue.foldl Fifo.leave threads := by
  induction queue generalizing threads with
  | nil => rfl
  | cons entry rest ih =>
    unfold Fifo.unblock
    split
    · rfl
    · rw [ih, foldl_cons]

theorem Coupled.unblockAll (coupled : Coupled s queue) (enough : queue.length < fuel)
    : ∃ s', s.unblockAll fuel = some s' ∧ Coupled s' []
        ∧ s'.thread = queue.foldl Fifo.leave s.thread := by
  induction fuel generalizing s queue with
  | zero => exact absurd enough (not_lt_zero _)
  | succ fuel ih =>
    cases queue with
    | nil =>
      have isEmpty := coupled.holds.of_nil.1
      exact ⟨s, by simp [unblockAll, isEmpty], coupled, rfl⟩
    | cons entry rest =>
      have notEmpty := coupled.holds.not_empty
      obtain ⟨s₁, one, left, threads⟩ := coupled.unblock enough
      have fewer := length_unblock s.thread (entry :: rest)
      simp only [length_cons, Nat.add_sub_cancel] at fewer enough
      obtain ⟨s₂, all, done, last⟩ := ih left (by omega)
      refine ⟨s₂, ?_, done, ?_⟩
      · simp [unblockAll, notEmpty, one, all]
      · rw [last, threads, foldl_unblock]

-- Adding

variable {process t fresh : ℕ}

/-- The first entry goes in the queue itself. -/
theorem Holds.add_empty (holds : Holds s []) (isProcess : process ≠ 0)
    : ∃ s', s.add process t fresh = some s'
        ∧ Holds s' [⟨process, t, (s.thread t).magicQueueValue⟩]
        ∧ s'.thread = Fifo.enter s.thread t := by
  obtain ⟨isEmpty, noNext⟩ := holds.of_nil
  have stillEmpty (thread : Thread) : (s.setThread t thread).isEmpty = true := isEmpty
  refine ⟨_, if_pos (stillEmpty _), ?_, rfl⟩
  have chain : Chain ((s.setThread t { s.thread t with
      instances := (s.thread t).instances + 1 }).setNode head
        ⟨process, t, (s.thread t).magicQueueValue, head, (s.node head).next⟩) [] := by
    refine ⟨⟨rfl, Nat.one_ne_zero, ?_⟩, nodup_singleton _, nil_subset _, ?_⟩
    · show ((update s.node head _) head).next = 0
      exact noNext
    · simpa using isProcess
  have held := Holds.chain chain
  simpa using held

/-- A node is written behind the one that `prev` of the first entry names. -/
theorem add_behind {tail} (notEmpty : s.isEmpty = false) (isTail : (s.node head).prev = tail)
    (tailReal : tail ≠ 0) (tailOther : tail ≠ fresh) (freshReal : fresh ≠ 0)
    (freshHead : fresh ≠ head)
    : ∃ s', s.add process t fresh = some s'
        ∧ (∀ p, (s'.node p).next
            = if p = fresh then 0 else if p = tail then fresh else (s.node p).next)
        ∧ (∀ p, (s'.node p).entry
            = if p = fresh then ⟨process, t, (s.thread t).magicQueueValue⟩ else (s.node p).entry)
        ∧ s'.allocated = fresh :: s.allocated ∧ s'.thread = Fifo.enter s.thread t := by
  have parent : (s.node head).parentProcess ≠ 0 := by simpa [isEmpty] using notEmpty
  have headOther := Ne.symm freshHead
  by_cases first : head = tail
  · subst first
    refine ⟨_, by
      simp [add, isEmpty, parent, isTail, tailReal, freshReal, headOther, freshHead]
      rfl, fun p => ?_, fun p => ?_, rfl, rfl⟩
    all_goals
      by_cases isFresh : p = fresh
      · simp [isFresh]
      · by_cases isHead : p = head <;> simp [isFresh, isHead, headOther]
  · refine ⟨_, by
      simp [add, isEmpty, parent, isTail, tailReal, freshReal, headOther, freshHead, first,
        tailOther]
      rfl, fun p => ?_, fun p => ?_, rfl, rfl⟩
    all_goals
      by_cases isFresh : p = fresh
      · simp [isFresh]
      by_cases isHead : p = head
      · simp [isHead, headOther, first]
      · by_cases isLast : p = tail <;>
          simp [isFresh, isHead, isLast, tailOther, Ne.symm first]

/-- A store through the null pointer is made when the memory of the node was freed before. -/
theorem add_freed (notEmpty : s.isEmpty = false) (isTail : (s.node head).prev = fresh)
    : s.add process t fresh = none := by
  have parent : (s.node head).parentProcess ≠ 0 := by simpa [isEmpty] using notEmpty
  simp [add, isEmpty, parent, isTail]

/-- The new node comes last when `prev` of the first entry names the last node. -/
theorem Chain.add (chain : Chain s nodes)
    (isLast : (head :: nodes).getLast? = some (s.node head).prev)
    (isProcess : process ≠ 0) (freshReal : fresh ≠ 0) (freshHead : fresh ≠ head)
    (notUsed : fresh ∉ s.allocated)
    : ∃ s', s.add process t fresh = some s'
        ∧ Holds s' ((head :: nodes).map (fun p => (s.node p).entry)
            ++ [⟨process, t, (s.thread t).magicQueueValue⟩])
        ∧ s'.thread = Fifo.enter s.thread t := by
  obtain ⟨front, split⟩ := getLast?_eq_some_iff.mp isLast
  have freshNew := chain.not_mem freshHead notUsed
  have notFresh (p : ℕ) (mem : p ∈ head :: nodes) : p ≠ fresh :=
    fun same => freshNew (same ▸ mem)
  have tailMember : (s.node head).prev ∈ head :: nodes := by simp [split]
  have tailOther := notFresh _ tailMember
  obtain ⟨s', done, next, entry, allocated, thread⟩ :=
    @add_behind s process t fresh _ chain.not_empty rfl (chain.walk.ne_null tailMember) tailOther
      freshReal freshHead
  refine ⟨s', done, ?_, thread⟩
  have nodup := chain.nodup
  have walk := chain.walk
  rw [split] at nodup walk
  obtain ⟨_, _, apart⟩ := nodup_append.mp nodup
  have kept (p : ℕ) (mem : p ∈ head :: nodes) : (s'.node p).entry = (s.node p).entry := by
    rw [entry p, if_neg (notFresh p mem)]
  have extended : Chain s' (nodes ++ [fresh]) := by
    refine ⟨?_, ?_, ?_, ?_⟩
    · rw [← cons_append, split, append_assoc]
      refine walk.redirect (fun p mem => ?_) ?_
      · have notTail := apart p mem _ (mem_singleton_self _)
        rw [next p, if_neg (notFresh p (by simp [split, mem])), if_neg notTail]
      · show Walk 0 _ (s'.node (s.node head).prev).next [fresh]
        rw [next, if_neg tailOther, if_pos rfl]
        refine ⟨rfl, freshReal, ?_⟩
        show (s'.node fresh).next = 0
        rw [next, if_pos rfl]
    · rw [← cons_append]
      exact concat_eq_append ▸ chain.nodup.concat fun mem => notFresh fresh mem rfl
    · rw [allocated]
      intro p mem
      rcases mem_append.mp mem with old | new
      · exact mem_cons_of_mem _ (chain.allocated old)
      · exact mem_cons.mpr (.inl (mem_singleton.mp new))
    · rw [← cons_append]
      intro p mem
      rcases mem_append.mp mem with old | new
      · have same : (s'.node p).parentProcess = (s.node p).parentProcess :=
          congrArg Entry.process (kept p old)
        rw [same]
        exact chain.real p old
      · have same : (s'.node p).parentProcess = process :=
          congrArg Entry.process ((entry p).trans (if_pos (mem_singleton.mp new)))
        rwa [same]
  have entries : (head :: (nodes ++ [fresh])).map (fun p => (s'.node p).entry)
      = (head :: nodes).map (fun p => (s.node p).entry)
          ++ [⟨process, t, (s.thread t).magicQueueValue⟩] := by
    rw [← cons_append, map_append, map_congr_left kept, map_singleton, entry,
      if_pos rfl]
  exact entries ▸ Holds.chain extended

/-- Where `prev` of the first entry names another node, the new entry or later ones are missing.
Witness: behind a node in the middle the chain is cut off; behind a node that is not in the chain
the new node is not found.
-/
theorem Chain.add_stale (chain : Chain s nodes)
    (stale : (head :: nodes).getLast? ≠ some (s.node head).prev) (freshReal : fresh ≠ 0)
    (freshHead : fresh ≠ head) (notUsed : fresh ∉ s.allocated)
    (done : s.add process t fresh = some s')
    : s'.contents.length ≤ (head :: nodes).length := by
  have freshNew := chain.not_mem freshHead notUsed
  have parent := chain.real head mem_cons_self
  have tailReal : (s.node head).prev ≠ 0 := by
    intro isNull
    simp [Store.add, isEmpty, parent, isNull] at done
  have tailOther : (s.node head).prev ≠ fresh := by
    intro isFresh
    rw [add_freed chain.not_empty isFresh] at done
    cases done
  obtain ⟨s₁, made, next, entry, allocated, thread⟩ :=
    @add_behind s process t fresh _ chain.not_empty rfl tailReal tailOther freshReal freshHead
  cases made.symm.trans done
  have notFresh (p : ℕ) (mem : p ∈ head :: nodes) : p ≠ fresh :=
    fun same => freshNew (same ▸ mem)
  obtain ⟨nodes', walk, short⟩ : ∃ nodes', Walk 0 (fun p => (s'.node p).next) head nodes'
      ∧ nodes'.length ≤ (head :: nodes).length := by
    by_cases mem : (s.node head).prev ∈ head :: nodes
    · obtain ⟨front, back, split⟩ := append_of_mem mem
      have someBack : back ≠ [] := by
        rintro rfl
        exact stale (getLast?_eq_some_iff.mpr ⟨front, split⟩)
      have nodup := chain.nodup
      have oldWalk := chain.walk
      rw [split] at nodup oldWalk
      obtain ⟨_, _, apart⟩ := nodup_append.mp nodup
      refine ⟨front ++ (s.node head).prev :: [fresh], oldWalk.redirect (fun p inFront => ?_) ?_, ?_⟩
      · have notTail := apart p inFront _ mem_cons_self
        rw [next p, if_neg (notFresh p (by simp [split, inFront])), if_neg notTail]
      · show Walk 0 _ (s'.node (s.node head).prev).next [fresh]
        rw [next, if_neg tailOther, if_pos rfl]
        refine ⟨rfl, freshReal, ?_⟩
        show (s'.node fresh).next = 0
        rw [next, if_pos rfl]
      · have positive := length_pos_iff.mpr someBack
        rw [split]
        simp only [length_append, length_cons, length_nil]
        omega
    · refine ⟨head :: nodes, chain.walk.congr fun p inChain => ?_, Nat.le_refl _⟩
      have notTail : p ≠ (s.node head).prev := fun same => mem (same ▸ inChain)
      rw [next p, if_neg (notFresh p inChain), if_neg notTail]
  have bound := chain.length_le
  have followed : s'.nodes = nodes' := by
    refine walk.follow_eq ?_
    simp only [Store.turns, allocated, length_cons] at short ⊢
    omega
  have notEmpty : s'.isEmpty = false := by
    have same : (s'.node head).parentProcess = (s.node head).parentProcess :=
      congrArg Entry.process ((entry head).trans (if_neg (Ne.symm freshHead)))
    simpa [isEmpty, same] using parent
  simpa only [contents, notEmpty, Bool.false_eq_true, if_false, followed, length_map]

-- Runs

/-- (Sound pair) holds when the queue and the list have the same entries, with a reference for each
of them, and the same threads.
-/
structure Sound (pair : Store × Fifo) : Prop extends Coupled pair.1 pair.2.queue where
  same : pair.1.thread = pair.2.thread

theorem Sound.refines (sound : Sound pair) : Refines pair :=
  ⟨sound.holds.contents_eq, sound.same⟩

/-- A thread changes in what the queue does not count. -/
theorem Sound.setThread (sound : Sound (c, a)) (change : Thread → Thread)
    (balanced : (change (c.thread t)).instances + (c.thread t).others
      = (c.thread t).instances + (change (c.thread t)).others)
    : Sound (c.setThread t (change (c.thread t)), a.setThread t (change (a.thread t))) := by
  refine ⟨⟨sound.holds.setThread _, sound.counted.update balanced⟩, ?_⟩
  simp only [Store.setThread, Fifo.setThread, show c.thread = a.thread from sound.same]

theorem admits_add (admitted : s.admits (.add process t fresh) = true)
    : process ≠ 0 ∧ fresh ≠ 0 ∧ fresh ≠ head ∧ fresh ∉ s.allocated := by
  simpa [admits, and_assoc] using admitted

theorem Sound.add (sound : Sound (c, a))
    (admitted : c.admits (.add process t fresh) = true) (safe : Safe (c, a) (.add process t fresh))
    : ∃ c', c.add process t fresh = some c' ∧ Sound (c', a.perform (.add process t fresh)) := by
  obtain ⟨isProcess, freshReal, freshHead, notUsed⟩ := admits_add admitted
  have same := sound.same
  have added : ∃ c', c.add process t fresh = some c'
      ∧ Holds c' (a.queue ++ [⟨process, t, (c.thread t).magicQueueValue⟩])
      ∧ c'.thread = Fifo.enter c.thread t := by
    have holds := sound.holds
    generalize a.queue = queue at holds
    cases holds with
    | empty isEmpty noNext => exact (Holds.empty isEmpty noNext).add_empty isProcess
    | chain chain =>
      have isLast := safe admitted chain.not_empty
      exact chain.add (chain.nodes_eq ▸ isLast) isProcess freshReal freshHead notUsed
  obtain ⟨c', done, holds, threads⟩ := added
  rw [same] at holds threads
  refine ⟨c', done, ⟨⟨holds, ?_⟩, threads⟩⟩
  rw [threads, ← same]
  exact sound.counted.enter process t _

/-- A safe call returns and keeps the two together. -/
theorem Sound.step_safe (sound : Sound pair) (safe : Safe pair call)
    : ∃ pair', step pair call = some pair' ∧ Sound pair' := by
  obtain ⟨c, a⟩ := pair
  have same : c.thread = a.thread := sound.same
  unfold ThreadQueue.step
  by_cases admitted : c.admits call = true
  · have performed : ∃ c', c.perform call = some c' ∧ Sound (c', a.perform call) := by
      cases call with
      | add process t fresh => exact sound.add admitted safe
      | unblock =>
        obtain ⟨c', done, coupled, threads⟩ := sound.toCoupled.unblock sound.holds.length_lt
        simp only [same] at coupled threads
        exact ⟨c', done, ⟨coupled, threads⟩⟩
      | unblockAll =>
        obtain ⟨c', done, coupled, threads⟩ := sound.toCoupled.unblockAll sound.holds.length_lt
        simp only [same] at threads
        exact ⟨c', done, ⟨coupled, threads⟩⟩
      | wake t => exact ⟨_, rfl, sound.setThread .wake rfl⟩
      | status t status => exact ⟨_, rfl, sound.setThread ({ · with status := status }) rfl⟩
      | retain t =>
        refine ⟨_, rfl, sound.setThread .retain ?_⟩
        simp only [Thread.retain]
        omega
      | release t =>
        refine ⟨_, rfl, sound.setThread .release ?_⟩
        have count : (c.thread t).instances = (c.thread t).others + _ := sound.counted t
        unfold Thread.release
        split
        · rfl
        · show (c.thread t).instances - 1 + _ = _ + ((c.thread t).others - 1)
          omega
    obtain ⟨c', done, kept⟩ := performed
    exact ⟨_, by rw [if_pos admitted, done]; rfl, kept⟩
  · exact ⟨_, if_neg admitted, sound⟩

/-- An entry is lost when a thread is added behind the wrong node. -/
theorem Sound.step_unsafe {pair'} (sound : Sound pair)
    (notSafe : ¬ Safe pair call) (done : step pair call = some pair')
    : ¬ Refines pair' := by
  obtain ⟨c, a⟩ := pair
  cases call with
  | add process t fresh =>
    simp only [Safe, Classical.not_imp] at notSafe
    obtain ⟨admitted, notEmpty, stale⟩ := notSafe
    obtain ⟨-, freshReal, freshHead, notUsed⟩ := admits_add admitted
    rw [ThreadQueue.step, if_pos admitted] at done
    obtain ⟨c', added, rfl⟩ := map_eq_some_iff.mp done
    rintro ⟨entries, -⟩
    have short : c'.contents.length ≤ a.queue.length := by
      have holds := sound.holds
      generalize a.queue = queue at holds
      cases holds with
      | empty isEmpty _ => exact nomatch isEmpty.symm.trans notEmpty
      | chain chain =>
        rw [length_map]
        exact chain.add_stale (chain.nodes_eq ▸ stale) freshReal freshHead notUsed added
    have longer := congrArg length entries
    simp only [Fifo.perform, length_append, length_singleton] at longer
    omega
  | _ => exact absurd trivial notSafe

/-- Every call returns and the queue stays the list it stands for exactly when each thread is added
to an empty queue or behind the node that is last.
Witness: the nodes keep forming a chain with the entries of the list; an addition elsewhere loses
an entry at once.
-/
theorem Sound.all_refine_iff {pair : Store × Fifo} (sound : Sound pair) (calls : List Call)
    : (∃ pairs, trace step pair calls = some pairs ∧ ∀ pair ∈ pairs, Refines pair)
        ↔ AllSafe step Safe pair calls :=
  trace_total_iff Sound Refines (fun sound => sound.refines)
    (fun sound safe => sound.step_safe safe)
    (fun sound notSafe done => sound.step_unsafe notSafe done) sound

/-- An empty queue, and threads that sleep. -/
def initial : Store × Fifo :=
  let sleeping : Thread := ⟨1, 1, 0, .interrSleep⟩
  (⟨fun _ => .zero, [], fun _ => sleeping⟩, ⟨[], fun _ => sleeping⟩)

theorem initial_sound : Sound initial :=
  ⟨⟨.empty rfl rfl, fun _ => rfl⟩, rfl⟩

instance (pair : Store × Fifo) : DecidablePred (Safe pair)
  | .add _ _ _ => inferInstanceAs (Decidable (_ → _ → _))
  | .unblock | .unblockAll | .wake _ | .status _ _ | .retain _ | .release _ =>
    inferInstanceAs (Decidable True)

/-- Two threads wait at a time, one of them is woken from elsewhere. -/
theorem all_refine_two
    : ∃ pairs, trace step initial [.add 1 10 100, .add 1 11 101, .wake 10, .unblock, .add 2 12 102,
        .unblock, .unblockAll] = some pairs ∧ ∀ pair ∈ pairs, Refines pair :=
  (initial_sound.all_refine_iff _).mpr (by decide +kernel)

/-- Three threads wait, one is woken and a fourth one comes: the third one is never woken. -/
theorem third_lost
    : (trace step initial [.add 1 10 100, .add 1 11 101, .add 1 12 102, .unblock, .add 1 13 103,
        .unblock, .unblock, .unblock]).any fun pairs => pairs.getLast?.any fun (s, a) =>
            s.isEmpty && (s.thread 12).status = .interrSleep
              && (a.thread 12).status = .runnable := by
  decide +kernel

end UnstableOS.Kernel.ThreadQueue
