import UnstableOS.Kernel.Errno
import UnstableOS.Lib.Trace
import Mathlib.Data.List.Pairwise
import Mathlib.Data.List.Perm.Basic

/-! The record locks of `fcntl`, `fs.c`.
An inode has a list of locked ranges. A range of length 0 reaches to the end of the file,
however far the file grows. A lock belongs to a process, or to an open file description if it
was asked for with one of the `F_OFD_` commands.
-/

namespace UnstableOS.Fs.RecordLock

open Kernel Lib List Int Prod

-- The code

inductive LockType where
  | rdlck
  | wrlck
  | unlck
deriving Repr, DecidableEq

/-- `struct flock` with its start relative to the beginning of the file. -/
structure Flock where
  lType : LockType
  lStart : ℤ
  lLen : ℤ
  lPid : ℕ
deriving Repr, DecidableEq

open Flock

/-- `struct flock_entry`; `ofd` is the address of the file description, if it owns the lock. -/
structure FlockEntry where
  ofd : Option ℕ
  flock : Flock
deriving Repr, DecidableEq

open FlockEntry

/-- The test of one block in `fcntl_lock_get_lock`. -/
def blocks (file : ℕ) (target : Flock) (isOfd : Bool) (block : FlockEntry) : Bool :=
  if isOfd = false ∧ block.ofd = none ∧ block.flock.lPid = target.lPid then false
  else if isOfd = true ∧ block.ofd = some file then false
  else if block.flock.lType = .rdlck ∧ target.lType = .rdlck then false
  else if block.flock.lStart = target.lStart then true
  else if block.flock.lStart > target.lStart
      ∧ (target.lLen = 0 ∨ block.flock.lStart < target.lStart + target.lLen) then true
  else if block.flock.lStart < target.lStart
      ∧ (block.flock.lLen = 0 ∨ target.lStart < block.flock.lStart + block.flock.lLen) then true
  else false

/-- `fcntl_lock_get_lock`. -/
def fcntlLockGetLock (locks : List FlockEntry) (file : ℕ) (target : Flock) (isOfd : Bool)
    : Option FlockEntry :=
  locks.find? (blocks file target isOfd)

/-- The blocks the loop of `fcntl_lock_add_lock` does not skip. -/
def isOwn (file : ℕ) (target : Flock) (isOfd : Bool) (block : FlockEntry) : Bool :=
  !(decide (isOfd = false ∧ block.ofd ≠ none)
    || decide (isOfd = false ∧ block.flock.lPid ≠ target.lPid)
    || decide (isOfd = true ∧ block.ofd ≠ some file))

/-- The block trimmed from the right, up to the target. -/
def before (target block : Flock) : Flock :=
  { block with lLen := target.lStart - block.lStart }

/-- The part of the block behind the target. -/
def behind (target block : Flock) : Flock :=
  { block with
    lLen :=
      if block.lLen ≠ 0 then block.lLen - (target.lStart + target.lLen - block.lStart)
      else block.lLen
    lStart := target.lStart + target.lLen }

/-- What the loop of `fcntl_lock_add_lock` makes of one block: the block afterwards, none if it
is deleted, and the part split off behind the target.
-/
def cut (target block : Flock) : Option Flock × Option Flock :=
  let targetEnd := target.lStart + target.lLen
  if block.lStart ≥ target.lStart ∧ (target.lLen = 0 ∨ block.lStart < targetEnd) then
    if target.lLen = 0 ∨ block.lStart + block.lLen ≤ targetEnd then (none, none)
    else (some (behind target block), none)
  else if block.lStart < target.lStart
      ∧ (block.lLen = 0 ∨ block.lStart + block.lLen > target.lStart) then
    if target.lLen = 0 ∨ block.lStart + block.lLen ≤ targetEnd then
      (some (before target block), none)
    else (some (before target block), some (behind target block))
  else (some block, none)

/-- The list during the loop: entries split off, which are put in front, and the list behind
them; `memory` counts the allocations that still succeed.
-/
structure Carved where
  pushed : List FlockEntry
  kept : List FlockEntry
  memory : ℕ
  failed : Bool
deriving Repr, DecidableEq

/-- The loop of `fcntl_lock_add_lock`. -/
def carve (own : FlockEntry → Bool) (target : Flock) : ℕ → List FlockEntry → Carved
  | memory, [] => ⟨[], [], memory, false⟩
  | memory, block :: rest =>
    if own block = false then
      let later := carve own target memory rest
      { later with kept := block :: later.kept }
    else
      match cut target block.flock with
      | (here, none) =>
        let later := carve own target memory rest
        { later with kept := (here.map fun f => { block with flock := f }).toList ++ later.kept }
      | (here, some right) =>
        match memory with
        | 0 => ⟨[], block :: rest, 0, true⟩
        | memory + 1 =>
          let later := carve own target memory rest
          { later with
            pushed := later.pushed ++ [{ block with flock := right }]
            kept := (here.map fun f => { block with flock := f }).toList ++ later.kept }

/-- `fcntl_lock_add_lock`. -/
def fcntlLockAddLock (locks : List FlockEntry) (file : ℕ) (target : Flock) (isOfd : Bool)
    (memory : ℕ) : List FlockEntry × Option Errno :=
  if (fcntlLockGetLock locks file target isOfd).isSome then (locks, some .eagain)
  else if target.lType = .unlck then
    let carved := carve (isOwn file target isOfd) target memory locks
    (carved.pushed ++ carved.kept, if carved.failed then some .enomem else none)
  else
    match memory with
    | 0 => (locks, some .enomem)
    | memory + 1 =>
      let carved := carve (isOwn file target isOfd) target memory locks
      if carved.failed then (carved.pushed ++ carved.kept, some .enomem)
      else (⟨if isOfd then some file else none, target⟩ :: (carved.pushed ++ carved.kept), none)

inductive Whence where
  | set
  | cur
  | «end»
deriving Repr, DecidableEq

/-- One `F_SETLK` or `F_OFD_SETLK` request: the descriptor it is made on (its description, what
it may be locked for, its offset and the size of the file), the process, and the `struct flock`.
-/
structure Request where
  file : ℕ
  lockable : Bool
  canRead : Bool
  canWrite : Bool
  off : ℤ
  size : ℤ
  pid : ℕ
  isOfd : Bool
  lType : LockType
  lWhence : Whence
  lStart : ℤ
  lLen : ℤ
  memory : ℕ
deriving Repr, DecidableEq

/-- The value of an `off_t`, a signed 64 bit number. -/
def offT (n : ℤ) : ℤ := Int.bmod n (2 ^ 64)

/-- The start of the range, by `l_whence`. -/
def Request.base (r : Request) : ℤ :=
  match r.lWhence with
  | .set => r.lStart
  | .cur => offT (r.lStart + r.off)
  | .end => offT (r.lStart + r.size)

/-- The part of `fcntl_lock_file` before the switch on the command. -/
def Request.target (r : Request) : Except Errno Flock :=
  if r.lockable = false then .error .ebadf
  else if r.lType = .rdlck ∧ r.canRead = false then .error .ebadf
  else if r.lType = .wrlck ∧ r.canWrite = false then .error .ebadf
  else if offT (r.base + r.lLen) ≠ r.base + r.lLen then .error .eoverflow
  else if r.base < 0 ∨ r.base + r.lLen < 0 then .error .einval
  else if r.lLen < 0 then .ok ⟨r.lType, r.base + r.lLen, r.lLen * -1, r.pid⟩
  else .ok ⟨r.lType, r.base, r.lLen, r.pid⟩

-- The lock map

inductive Owner where
  | process (pid : ℕ)
  | description (file : ℕ)
deriving Repr, DecidableEq

def FlockEntry.owner (e : FlockEntry) : Owner :=
  match e.ofd with
  | some file => .description file
  | none => .process e.flock.lPid

def Request.owner (r : Request) : Owner :=
  if r.isOfd then .description r.file else .process r.pid

/-- The byte is in the range. -/
def Flock.Covers (f : Flock) (x : ℤ) : Prop :=
  f.lStart ≤ x ∧ (f.lLen = 0 ∨ x < f.lStart + f.lLen)

instance (f : Flock) (x : ℤ) : Decidable (f.Covers x) :=
  inferInstanceAs (Decidable (f.lStart ≤ x ∧ (f.lLen = 0 ∨ x < f.lStart + f.lLen)))

/-- What record locks are for: a lock state for every owner and every byte. -/
abbrev LockMap := Owner → ℤ → LockType

/-- Setting the state of one owner on a range. -/
def LockMap.set (m : LockMap) (owner : Owner) (target : Flock) : LockMap :=
  fun o x => if o = owner ∧ target.Covers x then target.lType else m o x

def Conflict (a b : LockType) : Prop := (a = .wrlck ∧ b ≠ .unlck) ∨ (b = .wrlck ∧ a ≠ .unlck)

/-- The list stands for the map: every entry says the state of its owner on its range, and
where an owner has no entry its state is unlocked.
-/
structure Agrees (locks : List FlockEntry) (m : LockMap) : Prop where
  held : ∀ e ∈ locks, ∀ x, e.flock.Covers x → m e.owner x = e.flock.lType
  free : ∀ o x, (∀ e ∈ locks, e.owner = o → ¬ e.flock.Covers x) → m o x = .unlck

/-- The locks of an inode beside the map the requests granted so far ask for; `refused` notes
that an unlock request was refused because of another owner's lock.
-/
structure State where
  locks : List FlockEntry
  map : LockMap
  refused : Bool

/-- One request. A request that is granted changes the map as it asks; one for which there is
no memory is no step.
-/
def step (s : State) (r : Request) : Option State :=
  match r.target with
  | .error _ => some s
  | .ok target =>
    match fcntlLockAddLock s.locks r.file target r.isOfd r.memory with
    | (locks, none) => some ⟨locks, s.map.set r.owner target, s.refused⟩
    | (_, some .eagain) => some { s with refused := s.refused || target.lType == .unlck }
    | (_, some _) => none

/-- No lock is set. -/
def unlocked : State := ⟨[], fun _ _ => .unlck, false⟩

/-- The list refines the map, no two owners conflict, and no unlock request was refused. -/
structure Refines (s : State) : Prop where
  agrees : Agrees s.locks s.map
  compatible : ∀ a b x, a ≠ b → ¬ Conflict (s.map a x) (s.map b x)
  granted : s.refused = false

/-- The requests after which the list still refines the map: an unlock request meets no lock of
another owner, and no open-ended lock of the requester begins before the end of a range that
has one.
-/
def Safe (s : State) (r : Request) : Prop :=
  match r.target with
  | .error _ => True
  | .ok target =>
    if (fcntlLockGetLock s.locks r.file target r.isOfd).isSome then target.lType ≠ .unlck
    else
      target.lLen = 0
      ∨ ∀ e ∈ s.locks, e.owner = r.owner → e.flock.lLen = 0 →
          target.lStart + target.lLen ≤ e.flock.lStart

instance (s : State) (r : Request) : Decidable (Safe s r) :=
  match accepted : r.target with
  | .error _ => isTrue (by simp only [Safe, accepted])
  | .ok target =>
    decidable_of_iff
      (if (fcntlLockGetLock s.locks r.file target r.isOfd).isSome then target.lType ≠ .unlck
      else
        target.lLen = 0
        ∨ ∀ e ∈ s.locks, e.owner = r.owner → e.flock.lLen = 0 →
            target.lStart + target.lLen ≤ e.flock.lStart)
      (by simp only [Safe, accepted])

-- Cutting one range out of another

structure Flock.Valid (f : Flock) : Prop where
  start : 0 ≤ f.lStart
  length : 0 ≤ f.lLen

variable {target block piece : Flock} {x : ℤ}

/-- Everything `cut` leaves of a block. -/
def pieces (target block : Flock) : List Flock :=
  (cut target block).1.toList ++ (cut target block).2.toList

/-- A bounded target finds an open-ended block that begins before the target ends. -/
def Loses (target block : Flock) : Prop :=
  target.lLen ≠ 0 ∧ block.lLen = 0 ∧ block.lStart < target.lStart + target.lLen

theorem covers_before (starts : block.lStart < target.lStart)
    : (before target block).Covers x ↔ block.lStart ≤ x ∧ x < target.lStart := by
  simp only [before, Covers]
  omega

theorem covers_behind (goesOn : target.lStart + target.lLen < block.lStart + block.lLen)
    (starts : block.lStart < target.lStart + target.lLen)
    : (behind target block).Covers x
      ↔ target.lStart + target.lLen ≤ x ∧ x < block.lStart + block.lLen := by
  simp only [behind, Covers]
  omega

/-- What is left of a block: all of it, or the part before and the part behind, as far as there are
any.
Witness: the tests of `cut`, with what they say about the two ends.
-/
theorem pieces_cases (targetOk : target.Valid) (block : Flock)
    : (pieces target block = [block] ∧ ∀ x, block.Covers x → ¬ target.Covers x)
      ∨ (pieces target block
          = (if block.lStart < target.lStart then [before target block] else [])
            ++ (if 0 < target.lLen ∧ target.lStart + target.lLen < block.lStart + block.lLen
              then [behind target block] else [])
        ∧ (block.lStart < target.lStart
          → block.lLen = 0 ∨ target.lStart < block.lStart + block.lLen)
        ∧ (target.lLen = 0 ∨ block.lStart < target.lStart + target.lLen)) := by
  have targetLength := targetOk.length
  unfold pieces cut
  dsimp only
  split
  next within =>
    refine .inr ⟨?_, by omega⟩
    split_ifs <;> first | rfl | omega
  next =>
  split
  next overlaps =>
    refine .inr ⟨?_, by omega⟩
    split_ifs <;> first | rfl | omega
  next apart =>
    refine .inl ⟨rfl, fun x => ?_⟩
    unfold Covers
    omega

section
variable (targetOk : target.Valid)
include targetOk

section
variable (mem : piece ∈ pieces target block)
include mem

/-- A piece is the part before, the part behind or all of the block. -/
theorem mem_pieces
    : (piece = before target block ∧ block.lStart < target.lStart
        ∧ (block.lLen = 0 ∨ target.lStart < block.lStart + block.lLen))
      ∨ (piece = behind target block ∧ 0 < target.lLen
        ∧ block.lStart < target.lStart + target.lLen
        ∧ target.lStart + target.lLen < block.lStart + block.lLen)
      ∨ (piece = block ∧ ∀ x, block.Covers x → ¬ target.Covers x) := by
  rcases pieces_cases targetOk block with ⟨eq, apart⟩ | ⟨eq, reaches, starts⟩
  · exact .inr (.inr ⟨mem_singleton.mp (eq ▸ mem), apart⟩)
  rw [eq] at mem
  rcases mem_append.mp mem with first | second
  · obtain ⟨early, isBefore⟩ : block.lStart < target.lStart ∧ piece = before target block := by
      simpa using first
    exact .inl ⟨isBefore, early, reaches early⟩
  · obtain ⟨⟨bounded, goesOn⟩, isBehind⟩ := by simpa using second
    exact .inr (.inl ⟨isBehind, bounded, by omega, goesOn⟩)

/-- A piece is a part of the block outside the target. -/
theorem mem_pieces_sub (covers : piece.Covers x)
    : block.Covers x ∧ ¬ target.Covers x := by
  rcases mem_pieces targetOk mem with
    ⟨rfl, starts, reaches⟩ | ⟨rfl, bounded, starts, goesOn⟩ | ⟨rfl, apart⟩
  · have range := (covers_before starts).mp covers
    unfold Covers
    omega
  · have range := (covers_behind goesOn starts).mp covers
    unfold Covers
    omega
  · exact ⟨covers, apart x covers⟩

theorem mem_pieces_valid (blockOk : block.Valid) : piece.Valid := by
  have targetStart := targetOk.start
  have targetLength := targetOk.length
  rcases mem_pieces targetOk mem with
    ⟨rfl, starts, -⟩ | ⟨rfl, -, -, goesOn⟩ | ⟨rfl, -⟩
  · exact ⟨blockOk.start, by simp only [before]; omega⟩
  · exact ⟨by simp only [behind]; omega, by simp only [behind]; omega⟩
  · exact blockOk

end

/-- Two pieces of one block do not meet. -/
theorem pieces_pairwise
    : (pieces target block).Pairwise fun a b => ∀ x, ¬ (a.Covers x ∧ b.Covers x) := by
  rcases pieces_cases targetOk block with ⟨eq, -⟩ | ⟨eq, -, -⟩ <;> rw [eq]
  · exact pairwise_singleton _ _
  split_ifs with starts goesOn
  · simp only [singleton_append, pairwise_pair]
    rintro x ⟨first, second⟩
    have range := (covers_before starts).mp first
    have range' := (covers_behind goesOn.2 (by omega)).mp second
    omega
  all_goals simp

/-- Every byte of the block outside the target is in a piece, unless the target is bounded and
the block is not.
-/
theorem exists_mem_pieces
    (keeps : ¬ Loses target block) (covers : block.Covers x) (outside : ¬ target.Covers x)
    : ∃ piece ∈ pieces target block, piece.Covers x := by
  have targetLength := targetOk.length
  unfold Loses at keeps
  have inBlock := covers
  unfold Covers at inBlock outside
  rcases pieces_cases targetOk block with ⟨eq, -⟩ | ⟨eq, -, starts⟩
  · exact ⟨block, by simp [eq], covers⟩
  by_cases early : x < target.lStart
  · have first : block.lStart < target.lStart := by omega
    exact ⟨_, by simp [eq, first], (covers_before first).mpr (by omega)⟩
  · have second
        : 0 < target.lLen ∧ target.lStart + target.lLen < block.lStart + block.lLen := by omega
    exact ⟨_, by simp [eq, second], (covers_behind second.2 (by omega)).mpr (by omega)⟩

end

/-- Of an open-ended block nothing is left behind a bounded target that begins before it ends. -/
theorem Loses.short (loses : Loses target block) (targetOk : target.Valid)
    (mem : piece ∈ pieces target block) (covers : piece.Covers x)
    : x < target.lStart + target.lLen := by
  obtain ⟨bounded, openEnded, early⟩ := loses
  have targetLength := targetOk.length
  rcases mem_pieces targetOk mem with
    ⟨rfl, starts, -⟩ | ⟨-, -, -, goesOn⟩ | ⟨-, apart⟩
  · have range := (covers_before starts).mp covers
    omega
  · omega
  · -- the block covers its first byte at or behind the start of the target
    have first := apart (max block.lStart target.lStart)
    unfold Covers at first
    omega

theorem mem_pieces_same (mem : piece ∈ pieces target block)
    : piece.lType = block.lType ∧ piece.lPid = block.lPid := by
  simp only [pieces, cut, mem_append, Option.mem_toList] at mem
  split_ifs at mem <;> simp only [Option.some.injEq, or_false, or_self] at mem
  · exact mem ▸ ⟨rfl, rfl⟩
  · exact mem ▸ ⟨rfl, rfl⟩
  · exact mem.elim (· ▸ ⟨rfl, rfl⟩) (· ▸ ⟨rfl, rfl⟩)
  · exact mem ▸ ⟨rfl, rfl⟩

-- The loop

variable {own : FlockEntry → Bool} {memory : ℕ} {locks : List FlockEntry} {e : FlockEntry}

/-- What the loop leaves of one entry. -/
def remains (own : FlockEntry → Bool) (target : Flock) (block : FlockEntry) : List FlockEntry :=
  if own block = false then [block]
  else (pieces target block.flock).map fun f => { block with flock := f }

/-- A loop that finds the memory it needs leaves what remains of every entry, in some order.
Witness: induction on the list; the parts split off go to the front.
-/
theorem carve_perm (done : (carve own target memory locks).failed = false)
    : ((carve own target memory locks).pushed ++ (carve own target memory locks).kept).Perm
        (locks.flatMap (remains own target)) := by
  induction locks generalizing memory with
  | nil => exact Perm.refl _
  | cons block rest ih =>
    rw [flatMap_cons]
    by_cases other : own block = false
    · have same : remains own target block = [block] := if_pos other
      simp only [carve, if_pos other] at done ⊢
      rw [same]
      exact perm_middle.trans ((ih done).cons block)
    rcases eq : cut target block.flock with ⟨here, split⟩
    have parts : remains own target block = (here.map fun f => { block with flock := f }).toList
        ++ (split.map fun f => { block with flock := f }).toList := by
      cases here <;> cases split <;> simp [remains, other, pieces, eq]
    rw [parts]
    cases split with
    | none =>
      simp only [carve, if_neg other, eq] at done ⊢
      rw [Option.map_none, Option.toList_none, append_nil]
      exact (perm_append_comm_assoc _ _ _).trans ((ih done).append_left _)
    | some right =>
      cases memory with
      | zero =>
        simp only [carve, if_neg other, eq] at done
        cases done
      | succ memory =>
        simp only [carve, if_neg other, eq] at done ⊢
        rw [append_assoc, append_assoc]
        have front := (perm_append_comm_assoc (carve own target memory rest).pushed
          (here.map fun f => { block with flock := f }).toList
          (carve own target memory rest).kept).trans ((ih done).append_left _)
        exact (perm_append_comm_assoc _ _ _).trans
          ((front.append_left _).trans (perm_append_comm_assoc _ _ _))

theorem mem_remains {entry} (mem : e ∈ remains own target entry)
    : (own entry = false ∧ e = entry)
      ∨ (own entry = true ∧ ∃ piece ∈ pieces target entry.flock,
          e = { entry with flock := piece }) := by
  unfold remains at mem
  split at mem
  next other => exact .inl ⟨other, mem_singleton.mp mem⟩
  next mine =>
    obtain ⟨piece, inPieces, rfl⟩ := mem_map.mp mem
    exact .inr ⟨by simpa using mine, piece, inPieces, rfl⟩

-- Owners

variable {r : Request} {s s' : State}

theorem target_facts (granted : r.target = .ok target)
    : target.Valid ∧ target.lPid = r.pid ∧ target.lType = r.lType := by
  unfold Request.target at granted
  split_ifs at granted with _ _ _ _ wrong backwards
  · cases granted
    exact ⟨⟨by simp only; omega, by simp only; omega⟩, rfl, rfl⟩
  · cases granted
    exact ⟨⟨by simp only; omega, by simp only; omega⟩, rfl, rfl⟩

theorem isOwn_iff (samePid : target.lPid = r.pid) {block}
    : isOwn r.file target r.isOfd block = true ↔ block.owner = r.owner := by
  unfold isOwn owner Request.owner
  cases r.isOfd <;> cases block.ofd <;> simp [samePid]

/-- A block of another owner that does not stop the target either does not meet it or both are
read locks.
-/
theorem not_blocks (samePid : target.lPid = r.pid) {block}
    (foreign : block.owner ≠ r.owner) (passes : blocks r.file target r.isOfd block = false)
    (covers : block.flock.Covers x) (asked : target.Covers x)
    : block.flock.lType = .rdlck ∧ target.lType = .rdlck := by
  have ownPid : ¬ (r.isOfd = false ∧ block.ofd = none ∧ block.flock.lPid = target.lPid) := by
    rintro ⟨isPid, noOfd, same⟩
    exact foreign (by simp [owner, Request.owner, isPid, noOfd, same, samePid])
  have ownOfd : ¬ (r.isOfd = true ∧ block.ofd = some r.file) := by
    rintro ⟨isOfd, same⟩
    exact foreign (by simp [owner, Request.owner, isOfd, same])
  unfold blocks at passes
  unfold Covers at covers asked
  split_ifs at passes with both start later earlier
  · exact both
  · omega

/-- The entry a granted lock request adds. -/
def added (r : Request) (target : Flock) : List FlockEntry :=
  if target.lType = .unlck then [] else [⟨if r.isOfd then some r.file else none, target⟩]

theorem mem_added (samePid : target.lPid = r.pid) (mem : e ∈ added r target)
    : e.owner = r.owner ∧ e.flock = target ∧ target.lType ≠ .unlck := by
  unfold added at mem
  split at mem
  · exact absurd mem not_mem_nil
  next locks =>
  rw [mem_singleton.mp mem]
  refine ⟨?_, rfl, locks⟩
  cases same : r.isOfd <;> simp [owner, Request.owner, same, samePid]

/-- What a granted request comes to: no entry stopped it, and the list is the new entry with
what remains of the old ones, in some order.
-/
structure Granted (r : Request) (target : Flock) (locks locks' : List FlockEntry) : Prop where
  passes : ∀ e ∈ locks, blocks r.file target r.isOfd e = false
  perm : locks'.Perm
    (added r target ++ locks.flatMap (remains (isOwn r.file target r.isOfd) target))

variable {locks' : List FlockEntry} {old : FlockEntry}

theorem fcntlLockAddLock_granted
    (done : fcntlLockAddLock locks r.file target r.isOfd memory = (locks', none))
    : Granted r target locks locks' := by
  unfold fcntlLockAddLock at done
  split at done
  · cases done
  next free =>
  have passes : ∀ e ∈ locks, blocks r.file target r.isOfd e = false := by
    intro e mem
    have none := find?_eq_none.mp (Option.not_isSome_iff_eq_none.mp free) e mem
    exact eq_false_of_ne_true none
  split at done
  next unlocks =>
    obtain ⟨rfl, status⟩ := mk.inj done
    have finished : (carve (isOwn r.file target r.isOfd) target memory locks).failed = false := by
      by_contra failed
      simp [eq_true_of_ne_false failed] at status
    refine ⟨passes, ?_⟩
    rw [added, if_pos unlocks]
    exact carve_perm finished
  next sets =>
    split at done
    · cases done
    dsimp only at done
    split at done
    · cases done
    next finished =>
    obtain ⟨rfl, -⟩ := mk.inj done
    refine ⟨passes, ?_⟩
    rw [added, if_neg sets]
    exact (carve_perm (eq_false_of_ne_true finished)).cons _

-- The invariant

/-- Two entries of one owner do not meet. -/
def Apart (a b : FlockEntry) : Prop :=
  a.owner = b.owner → ∀ x, ¬ (a.flock.Covers x ∧ b.flock.Covers x)

theorem Apart.symm {a b} (apart : Apart a b) : Apart b a :=
  fun same x both => apart same.symm x both.symm

instance : Std.Symm Apart := ⟨fun _ _ => Apart.symm⟩

structure Inv (s : State) : Prop where
  valid : ∀ e ∈ s.locks, e.flock.Valid ∧ e.flock.lType ≠ .unlck
  apart : s.locks.Pairwise Apart
  refines : Refines s

theorem inv_unlocked : Inv unlocked where
  valid _ mem := absurd mem not_mem_nil
  apart := Pairwise.nil
  refines := ⟨⟨fun _ mem => absurd mem not_mem_nil, fun _ _ _ => rfl⟩,
    fun _ _ _ _ => not_or.mpr ⟨nofun, nofun⟩, rfl⟩

theorem remains_sub (targetOk : target.Valid) (oldOk : old.flock.Valid)
    (mem : e ∈ remains own target old)
    : e.owner = old.owner ∧ ∀ x, e.flock.Covers x → old.flock.Covers x := by
  rcases mem_remains mem with ⟨-, rfl⟩ | ⟨-, piece, inPieces, rfl⟩
  · exact ⟨rfl, fun _ covers => covers⟩
  · obtain ⟨-, pid⟩ := mem_pieces_same inPieces
    refine ⟨by simp [owner, pid], fun x covers => ?_⟩
    exact (mem_pieces_sub targetOk inPieces covers).1

/-- Where an entry of the new list comes from. -/
theorem Granted.mem (granted : Granted r target locks locks')
    (samePid : target.lPid = r.pid) (mem : e ∈ locks')
    : e ∈ added r target
      ∨ (e ∈ locks ∧ e.owner ≠ r.owner)
      ∨ ∃ old ∈ locks, old.owner = r.owner ∧ e.owner = r.owner
          ∧ e.flock ∈ pieces target old.flock := by
  rcases mem_append.mp (granted.perm.mem_iff.mp mem) with new | left
  · exact .inl new
  obtain ⟨old, inLocks, piece⟩ := mem_flatMap.mp left
  rcases mem_remains piece with ⟨foreign, rfl⟩ | ⟨own, f, inPieces, rfl⟩
  · refine .inr (.inl ⟨inLocks, fun same => ?_⟩)
    simp [(isOwn_iff samePid).mpr same] at foreign
  have owner := (isOwn_iff samePid).mp own
  refine .inr (.inr ⟨old, inLocks, owner, ?_, inPieces⟩)
  rw [← owner]
  simp [FlockEntry.owner, (mem_pieces_same inPieces).2]

/-- An entry of another owner stays, and so does every piece of the requester's entries. -/
theorem Granted.stays (granted : Granted r target locks locks')
    (samePid : target.lPid = r.pid) (inLocks : old ∈ locks)
    : (old.owner ≠ r.owner → old ∈ locks')
      ∧ (old.owner = r.owner → ∀ piece ∈ pieces target old.flock,
          { old with flock := piece } ∈ locks') := by
  have keep {entry : FlockEntry} (left : entry ∈ remains (isOwn r.file target r.isOfd) target old)
      : entry ∈ locks' :=
    granted.perm.mem_iff.mpr (mem_append_right _ (mem_flatMap.mpr ⟨old, inLocks, left⟩))
  refine ⟨fun foreign => keep ?_, fun own piece inPieces => keep ?_⟩
  · rw [remains, if_pos (eq_false_of_ne_true (mt (isOwn_iff samePid).mp foreign))]
    exact mem_singleton_self old
  · rw [remains, if_neg (by simp [(isOwn_iff samePid).mpr own])]
    exact mem_map.mpr ⟨piece, inPieces, rfl⟩

section Grant
variable {locks' : List FlockEntry} (inv : Inv s) (granted : Granted r target s.locks locks')
  (targetOk : target.Valid) (samePid : target.lPid = r.pid)
include inv granted targetOk samePid

theorem Granted.valid (mem : e ∈ locks') : e.flock.Valid ∧ e.flock.lType ≠ .unlck := by
  rcases granted.mem samePid mem with new | ⟨old, -⟩ | ⟨old, inLocks, -, -, piece⟩
  · obtain ⟨-, same, sets⟩ := mem_added samePid new
    exact same ▸ ⟨targetOk, sets⟩
  · exact inv.valid e old
  · obtain ⟨oldOk, oldType⟩ := inv.valid old inLocks
    refine ⟨mem_pieces_valid targetOk piece oldOk, ?_⟩
    rw [(mem_pieces_same piece).1]
    exact oldType

theorem Granted.apart : locks'.Pairwise Apart := by
  refine (granted.perm.pairwise_iff Apart.symm).mpr (pairwise_append.mpr ⟨?_, ?_, ?_⟩)
  · unfold added
    split
    · exact Pairwise.nil
    · exact pairwise_singleton _ _
  · refine pairwise_flatMap.mpr ⟨?_, ?_⟩
    · intro old inLocks
      unfold remains
      split
      · exact pairwise_singleton _ _
      · refine pairwise_map.mpr ?_
        exact (pieces_pairwise targetOk).imp fun apart => fun _ => apart
    · refine inv.apart.imp_of_mem fun inLocks inLocks' apart e left e' left' => ?_
      obtain ⟨owner, sub⟩ := remains_sub targetOk (inv.valid _ inLocks).1 left
      obtain ⟨owner', sub'⟩ := remains_sub targetOk (inv.valid _ inLocks').1 left'
      intro same x both
      exact apart (by rw [← owner, ← owner', same]) x ⟨sub x both.1, sub' x both.2⟩
  · intro e new e' left same x both
    obtain ⟨owner, isTarget, -⟩ := mem_added samePid new
    obtain ⟨old, inLocks, piece⟩ := mem_flatMap.mp left
    rcases mem_remains piece with ⟨foreign, rfl⟩ | ⟨-, f, inPieces, rfl⟩
    · simp [(isOwn_iff samePid).mpr (same.symm.trans owner)] at foreign
    · exact (mem_pieces_sub targetOk inPieces both.2).2 (isTarget ▸ both.1)

/-- The new list agrees with the new map, if no entry of the requester loses its end. -/
theorem Granted.agrees (keeps : ∀ old ∈ s.locks, old.owner = r.owner → ¬ Loses target old.flock)
    : Agrees locks' (s.map.set r.owner target) := by
  obtain ⟨held, free⟩ := inv.refines.agrees
  constructor
  · intro e mem x covers
    rcases granted.mem samePid mem with new | ⟨old, foreign⟩ | ⟨old, inLocks, owner, same, piece⟩
    · obtain ⟨owner, isTarget, -⟩ := mem_added samePid new
      rw [LockMap.set, if_pos ⟨owner, isTarget ▸ covers⟩, isTarget]
    · rw [LockMap.set, if_neg fun asked => foreign asked.1]
      exact held e old x covers
    · obtain ⟨inOld, outside⟩ := mem_pieces_sub targetOk piece covers
      rw [LockMap.set, if_neg fun asked => outside asked.2, same, ← owner, held old inLocks x inOld,
        (mem_pieces_same piece).1]
  · intro o x nothing
    unfold LockMap.set
    split
    next asked =>
      obtain ⟨rfl, inTarget⟩ := asked
      by_contra sets
      have new : added r target = [⟨if r.isOfd then some r.file else none, target⟩] := if_neg sets
      have mem : ⟨if r.isOfd then some r.file else none, target⟩ ∈ locks' :=
        granted.perm.mem_iff.mpr (mem_append_left _ (by simp [new]))
      exact nothing _ mem (mem_added samePid (by simp [new])).1 inTarget
    next notAsked =>
      refine free o x fun old inLocks owner covers => ?_
      obtain ⟨foreign, own⟩ := granted.stays samePid inLocks
      by_cases same : o = r.owner
      · have outside : ¬ target.Covers x := fun inTarget => notAsked ⟨same, inTarget⟩
        obtain ⟨piece, inPieces, inPiece⟩ := exists_mem_pieces targetOk
          (keeps old inLocks (owner.trans same)) covers outside
        refine nothing _ (own (owner.trans same) piece inPieces) ?_ inPiece
        rw [← owner]
        simp [FlockEntry.owner, (mem_pieces_same inPieces).2]
      · exact nothing old (foreign fun mine => same (owner.symm.trans mine)) owner covers

omit targetOk in
/-- On a byte of the target nobody else has a lock that conflicts with what is asked for. -/
theorem Granted.no_conflict {o : Owner} (foreign : o ≠ r.owner) (asked : target.Covers x)
    : ¬ Conflict target.lType (s.map o x) := by
  intro conflict
  have locked : s.map o x ≠ .unlck := by
    rcases conflict with ⟨-, locked⟩ | ⟨writes, -⟩
    · exact locked
    · simp [writes]
  obtain ⟨old, inLocks, owner, covers⟩ : ∃ old ∈ s.locks, old.owner = o ∧ old.flock.Covers x := by
    by_contra none
    exact locked (inv.refines.agrees.free o x fun e mem owner covers =>
      none ⟨e, mem, owner, covers⟩)
  have both := not_blocks samePid (owner ▸ foreign) (granted.passes old inLocks) covers asked
  have state := inv.refines.agrees.held old inLocks x covers
  rw [owner] at state
  rw [state, both.1, both.2] at conflict
  rcases conflict with ⟨same, -⟩ | ⟨same, -⟩ <;> cases same

omit targetOk in
theorem Granted.compatible (a b : Owner) (x : ℤ) (differ : a ≠ b)
    : ¬ Conflict (s.map.set r.owner target a x) (s.map.set r.owner target b x) := by
  unfold LockMap.set
  split
  next first =>
    have foreign : b ≠ r.owner := fun same => differ (first.1.trans same.symm)
    rw [if_neg fun second => foreign second.1]
    exact granted.no_conflict inv samePid foreign first.2
  next =>
    split
    next second =>
      have foreign : a ≠ r.owner := fun same => differ (same.trans second.1.symm)
      exact fun conflict => granted.no_conflict inv samePid foreign second.2 conflict.symm
    next => exact inv.refines.compatible a b x differ

end Grant

-- Sequences of requests

/-- Only a lock of another owner makes a request fail with `EAGAIN`. -/
theorem fcntlLockAddLock_ne_eagain
    (free : (fcntlLockGetLock locks r.file target r.isOfd).isSome = false)
    : (fcntlLockAddLock locks r.file target r.isOfd memory).2 ≠ some .eagain := by
  unfold fcntlLockAddLock
  rw [free, if_neg Bool.false_ne_true]
  repeat' split
  all_goals grind

/-- What a request can come to: it is rejected, it is granted, or it is refused because of a
lock of another owner.
-/
theorem step_cases (done : step s r = some s')
    : (∃ error, r.target = .error error ∧ s' = s)
      ∨ ∃ target, r.target = .ok target
        ∧ ((∃ locks', Granted r target s.locks locks'
              ∧ (fcntlLockGetLock s.locks r.file target r.isOfd).isSome = false
              ∧ s' = ⟨locks', s.map.set r.owner target, s.refused⟩)
          ∨ ((fcntlLockGetLock s.locks r.file target r.isOfd).isSome = true
              ∧ s' = { s with refused := s.refused || target.lType == .unlck })) := by
  unfold step at done
  split at done
  next error rejected =>
    cases done
    exact .inl ⟨error, rejected, rfl⟩
  next target accepted =>
  refine .inr ⟨target, accepted, ?_⟩
  cases stopped : (fcntlLockGetLock s.locks r.file target r.isOfd).isSome with
  | true =>
    simp only [fcntlLockAddLock, stopped, if_true] at done
    cases done
    exact .inr ⟨rfl, rfl⟩
  | false =>
    split at done
    next locks' grant =>
      cases done
      exact .inl ⟨locks', fcntlLockAddLock_granted grant, rfl, rfl⟩
    next locks' refusal =>
      exact absurd (congrArg snd refusal) (fcntlLockAddLock_ne_eagain stopped)
    · cases done

theorem Inv.step (inv : Inv s) (done : step s r = some s') (isSafe : Safe s r) : Inv s' := by
  unfold Safe at isSafe
  rcases step_cases done with ⟨error, -, rfl⟩ | ⟨target, accepted, outcome⟩
  · exact inv
  simp only [accepted] at isSafe
  obtain ⟨targetOk, samePid, -⟩ := target_facts accepted
  rcases outcome with ⟨locks', granted, free, rfl⟩ | ⟨stopped, rfl⟩
  · rw [free, if_neg Bool.false_ne_true] at isSafe
    have keeps : ∀ old ∈ s.locks, old.owner = r.owner → ¬ Loses target old.flock := by
      rintro old inLocks owner ⟨bounded, openEnded, early⟩
      rcases isSafe with toEnd | behindIt
      · exact bounded toEnd
      · exact absurd early (Int.not_lt.mpr (behindIt old inLocks owner openEnded))
    exact ⟨fun e => granted.valid inv targetOk samePid, granted.apart inv targetOk samePid,
      ⟨granted.agrees inv targetOk samePid keeps, granted.compatible inv samePid,
        inv.refines.granted⟩⟩
  · rw [stopped, if_pos rfl] at isSafe
    have none : (target.lType == LockType.unlck) = false := by simpa using isSafe
    exact ⟨inv.valid, inv.apart,
      { inv.refines with granted := by simp [inv.refines.granted, none] }⟩

/-- The byte behind a bounded target is lost with the end of an open-ended lock. -/
theorem Inv.step_broken (inv : Inv s) (done : RecordLock.step s r = some s') (isUnsafe : ¬ Safe s r)
    : ¬ Refines s' := by
  intro refines
  unfold Safe at isUnsafe
  rcases step_cases done with ⟨error, rejected, -⟩ | ⟨target, accepted, outcome⟩
  · simp [rejected] at isUnsafe
  simp only [accepted] at isUnsafe
  obtain ⟨targetOk, samePid, -⟩ := target_facts accepted
  rcases outcome with ⟨locks', granted, free, rfl⟩ | ⟨stopped, rfl⟩
  · rw [free, if_neg Bool.false_ne_true] at isUnsafe
    obtain ⟨bounded, someOpen⟩ := not_or.mp isUnsafe
    obtain ⟨old, inLocks, owner, openEnded, early⟩ : ∃ old ∈ s.locks, old.owner = r.owner
        ∧ old.flock.lLen = 0 ∧ old.flock.lStart < target.lStart + target.lLen := by
      by_contra none
      exact someOpen fun e mem owner openEnded =>
        Int.not_lt.mp fun early => none ⟨e, mem, owner, openEnded, early⟩
    have inOld : old.flock.Covers (target.lStart + target.lLen) :=
      ⟨Int.le_of_lt early, .inl openEnded⟩
    have outside : ¬ target.Covers (target.lStart + target.lLen) := by
      unfold Covers
      omega
    have lost := refines.agrees.free r.owner (target.lStart + target.lLen) ?_
    · have asked : s.map.set r.owner target r.owner (target.lStart + target.lLen)
          = old.flock.lType := by
        rw [LockMap.set, if_neg fun both => outside both.2, ← owner]
        exact inv.refines.agrees.held old inLocks _ inOld
      exact (inv.valid old inLocks).2 (asked.symm.trans lost)
    · intro e mem mine covers
      rcases granted.mem samePid mem with new | ⟨-, foreign⟩ | ⟨other, inLocks', owner', -, piece⟩
      · exact outside ((mem_added samePid new).2.1 ▸ covers)
      · exact foreign mine
      by_cases same : other = old
      · subst same
        have short := Loses.short ⟨bounded, openEnded, early⟩ targetOk piece covers
        exact absurd short (Int.lt_irrefl _)
      · have inOther := (mem_pieces_sub targetOk piece covers).1
        exact inv.apart.forall inLocks' inLocks same (owner'.trans owner.symm) _ ⟨inOther, inOld⟩
  · rw [stopped, if_pos rfl, not_not] at isUnsafe
    simpa [isUnsafe] using refines.granted

/-- Over every sequence of requests the lock list stands for the map of what was granted, no
two owners conflict on a byte and no unlock request is refused, if and only if every request
meets the condition.
-/
theorem refines_iff {requests : List Request} {states : List State}
    (run : trace step unlocked requests = some states)
    : (∀ state ∈ states, Refines state) ↔ AllSafe step Safe unlocked requests :=
  trace_forall_iff Inv Refines (fun inv => inv.refines) (fun inv => inv.step)
    (fun inv => inv.step_broken) inv_unlocked run

/-- A request of a process on a descriptor that may be locked for reading and writing. -/
def processRequest (pid : ℕ) (lType : LockType) (lStart lLen : ℤ) : Request :=
  ⟨pid, true, true, true, 0, 0, pid, false, lType, .set, lStart, lLen, 2⟩

/-- Two processes share a range, one of them gives up the middle of it, and the other is
refused a write lock there.
-/
theorem refines_two_readers
    : ∃ states, trace step unlocked [processRequest 1 .rdlck 0 100, processRequest 2 .rdlck 50 0,
          processRequest 1 .unlck 10 20, processRequest 1 .wrlck 60 10] = some states
        ∧ ∀ state ∈ states, Refines state := by
  exact exists_of_isSome rfl fun _ run => (refines_iff run).mpr (by decide)

/-- A process locks from byte 10 to the end of the file and unlocks the bytes 5 to 19: byte 20
is unlocked with them. Another process that then unlocks a range the first has locked is
refused.
-/
theorem unlock_loses_open_end
    : (∃ states, trace step unlocked [processRequest 1 .wrlck 10 0, processRequest 1 .unlck 5 15]
          = some states
        ∧ ∃ state ∈ states, state.locks = [] ∧ state.map (.process 1) 20 = .wrlck
          ∧ ¬ Refines state)
      ∧ (∃ states, trace step unlocked
            [processRequest 1 .wrlck 10 0, processRequest 2 .unlck 5 15] = some states
        ∧ ∃ state ∈ states, ¬ Refines state) := by
  refine ⟨⟨_, rfl, _, mem_cons_of_mem _ (mem_cons_of_mem _ (mem_singleton_self _)),
    rfl, rfl, fun refines => ?_⟩,
    ⟨_, rfl, _, mem_cons_of_mem _ (mem_cons_of_mem _ (mem_singleton_self _)),
      fun refines => ?_⟩⟩
  · exact nomatch refines.agrees.free (.process 1) 20 fun _ mem => absurd mem not_mem_nil
  · exact nomatch refines.granted

end UnstableOS.Fs.RecordLock
