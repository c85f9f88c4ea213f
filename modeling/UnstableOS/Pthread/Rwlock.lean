import UnstableOS.Kernel.Futex
import UnstableOS.Lib.Trace

/-! Reader-writer locks (`pthread_rwlock_rdlocks.c`, `pthread_rwlock_wrlocks.c`,
`pthread_rwlock_unlock.c`) under every interleaving of their steps.
The mutex `__wlock` is held by a writer or by the reader that came first, `__vlock` by a reader that
is coming in. A mutex is its owner: it is locked and unlocked in one step, and only its owner can
unlock it. That `pthread_mutex.c` gives such mutexes is an assumption of this module, and the calls
with a timeout and `pthread_rwlock_tryrdlock` are not among the steps.
-/

namespace UnstableOS.Pthread.Rwlock

open Lib Kernel Kernel.Futex Function List Option

-- The steps

def ULONG_MAX : ℕ := 2 ^ 32 - 1

def PTHREAD_THREADS_MAX : ℕ := 256

def MAX_RWLOCK_VALUE : ℕ := ULONG_MAX - PTHREAD_THREADS_MAX - 1

/-- What a thread that unlocks holds; the code does not know it. -/
inductive Role where
  | reader
  | writer
deriving DecidableEq

/-- Where a thread is, named by the step it takes next. -/
inductive Place where
  | outside
  | rdLock
  | rdCheck
  | rdFull
  | rdAdd
  | rdFirst
  | rdUnlock
  | reading
  | wrLock
  | writing
  | unState (role : Role)
  | unZero (role : Role)
  | unOne (role : Role)
  | unWaiting (role : Role)
  | unSub (role : Role)
  | unMutex (role : Role)
deriving DecidableEq

/-- `pthread_rwlock_t`, with the owners of its two mutexes, and the threads. -/
structure State where
  val : ℕ
  vlock : Option Tid
  wlock : Option Tid
  place : Tid → Place

open State

/-- A thread calls a function, or takes the next step of the one it is in. -/
inductive Event where
  | rdlock (thread : Tid)
  | wrlock (thread : Tid)
  | trywrlock (thread : Tid)
  | unlock (thread : Tid)
  | step (thread : Tid)

/-- `pthread_mutex_unlock`: a thread that is not the owner gets `EPERM`. -/
def mutexUnlock (owner : Option Tid) (thread : Tid) : Option Tid :=
  if owner = some thread then none else owner

namespace State

def goto (s : State) (thread : Tid) (place : Place) : State :=
  { s with place := update s.place thread place }

/-- `pthread_rwlock_trywrlock`. -/
def trywrlock (s : State) (thread : Tid) : Except Errno State :=
  if s.wlock = none then .ok { s.goto thread .writing with wlock := some thread }
  else .error .ebusy

/-- The next step of a thread; a thread that waits for a mutex has none. -/
def step (s : State) (thread : Tid) : Option State :=
  match s.place thread with
  | .outside | .reading | .writing => none
  | .rdLock =>
    if s.vlock = none then some { s.goto thread .rdCheck with vlock := some thread } else none
  | .rdCheck => some (s.goto thread (if s.val ≥ MAX_RWLOCK_VALUE then .rdFull else .rdAdd))
  | .rdFull => some { s.goto thread .outside with vlock := mutexUnlock s.vlock thread }
  | .rdAdd =>
    let val := (s.val + 1) % 2 ^ 32
    some { s.goto thread (if val = 1 then .rdFirst else .rdUnlock) with val := val }
  | .rdFirst =>
    if s.wlock = none then some { s.goto thread .rdUnlock with wlock := some thread } else none
  | .rdUnlock => some { s.goto thread .reading with vlock := mutexUnlock s.vlock thread }
  | .wrLock =>
    if s.wlock = none then some { s.goto thread .writing with wlock := some thread } else none
  | .unState role => some (s.goto thread (if s.wlock = none then .outside else .unZero role))
  | .unZero role => some (s.goto thread (if s.val = 0 then .unMutex role else .unOne role))
  | .unOne role => some (s.goto thread (if s.val = 1 then .unWaiting role else .unSub role))
  | .unWaiting role =>
    some (s.goto thread (if s.vlock ≠ none then .unMutex role else .unSub role))
  | .unSub role =>
    let val := (s.val + 2 ^ 32 - 1) % 2 ^ 32
    some { s.goto thread (if val = 0 then .unMutex role else .outside) with val := val }
  | .unMutex _ => some { s.goto thread .outside with wlock := mutexUnlock s.wlock thread }

/-- Only a thread that holds the lock unlocks it. -/
def perform (s : State) : Event → Option State
  | .rdlock thread => if s.place thread = .outside then some (s.goto thread .rdLock) else none
  | .wrlock thread => if s.place thread = .outside then some (s.goto thread .wrLock) else none
  | .trywrlock thread =>
    if s.place thread = .outside then some ((s.trywrlock thread).toOption.getD s) else none
  | .unlock thread =>
    match s.place thread with
    | .reading => some (s.goto thread (.unState .reader))
    | .writing => some (s.goto thread (.unState .writer))
    | _ => none
  | .step thread => s.step thread

def initial : State := ⟨0, none, none, fun _ => .outside⟩

end State

-- The property

/-- The thread holds the lock, or is still busy with giving it back. -/
def Place.holds : Place → Bool
  | .rdUnlock | .reading | .writing => true
  | .unState _ | .unZero _ | .unOne _ | .unWaiting _ | .unSub _ | .unMutex _ => true
  | _ => false

/-- (Correct s) holds when the lock is free if no thread holds it, and a writer is alone. -/
structure State.Correct (s : State) : Prop where
  free : (∀ thread, (s.place thread).holds = false) → ∀ thread, (s.trywrlock thread).isOk = true
  alone : ∀ thread other, s.place thread = .writing →
    s.place other = .reading ∨ s.place other = .writing → other = thread

/-- A reader that unlocks does not find another one coming in when it looks, and the reader that
locked `__wlock` takes itself off the count when it is the last one, and no other does.
-/
def State.Safe (s : State) : Event → Prop
  | .step thread =>
    (s.place thread = .unWaiting .reader → s.vlock = none)
      ∧ (s.place thread = .unSub .reader → (s.val = 1 ↔ s.wlock = some thread))
  | _ => True

-- Who holds what

/-- What a thread has at a place: `__vlock` at the gate, `__vlock` and its place in the count when
it waits to be the first, both and a share in `__wlock` when it enters, the count and the share as a
reader, `__wlock` alone when it leaves as the last reader or as a writer.
-/
inductive Kind where
  | idle
  | gate
  | first
  | enter
  | reader
  | leaver
  | writer
deriving DecidableEq

def Place.kind : Place → Kind
  | .outside | .rdLock | .wrLock => .idle
  | .rdCheck | .rdFull | .rdAdd => .gate
  | .rdFirst => .first
  | .rdUnlock => .enter
  | .reading => .reader
  | .writing => .writer
  | .unState .reader | .unZero .reader | .unOne .reader | .unWaiting .reader | .unSub .reader =>
    .reader
  | .unMutex .reader => .leaver
  | .unState .writer | .unZero .writer | .unOne .writer | .unWaiting .writer | .unSub .writer
  | .unMutex .writer => .writer

theorem Place.eq_rdFirst {p : Place} (isFirst : p.kind = .first) : p = .rdFirst := by
  cases p with
  | rdFirst => rfl
  | unState role | unZero role | unOne role | unWaiting role | unSub role | unMutex role =>
    cases role <;> cases isFirst
  | _ => cases isFirst

/-- A reader that is in has a share in `__wlock`. -/
def Kind.shares : Kind → Bool
  | .enter | .reader => true
  | _ => false

section Held
variable {vlock wlock vlock' wlock' : Option Tid} {readers readers' : List Tid}
  {kind : Tid → Kind} {t u : Tid} {new : Kind}

/-- (Fits vlock wlock readers t k) holds when the mutexes and the count are as they should be for a
thread that has what its kind says.
-/
def Fits (vlock wlock : Option Tid) (readers : List Tid) (t : Tid) : Kind → Prop
  | .idle => t ∉ readers ∧ vlock ≠ some t ∧ wlock ≠ some t
  | .gate => t ∉ readers ∧ vlock = some t ∧ wlock ≠ some t
  | .first => readers = [t] ∧ vlock = some t ∧ wlock ≠ some t
  | .enter => t ∈ readers ∧ vlock = some t
  | .reader => t ∈ readers ∧ vlock ≠ some t
  | .leaver | .writer => t ∉ readers ∧ vlock ≠ some t ∧ wlock = some t

/-- (Held kind vlock wlock readers) ties the two mutexes and the counted threads to what the threads
have. Of the readers that share `__wlock` one is its owner.
-/
structure Held (kind : Tid → Kind) (vlock wlock : Option Tid) (readers : List Tid) : Prop where
  nodup : readers.Nodup
  fits : ∀ t, Fits vlock wlock readers t (kind t)
  shared : ∀ t, (kind t).shares = true → ∃ u, wlock = some u ∧ (kind u).shares = true

theorem Fits.congr {k} (fits : Fits vlock wlock readers t k)
    (sameV : vlock' = some t ↔ vlock = some t) (sameW : wlock' = some t ↔ wlock = some t)
    (sameR : t ∈ readers' ↔ t ∈ readers) (first : k = .first → readers' = readers)
    : Fits vlock' wlock' readers' t k := by
  cases k with
  | first => exact ⟨(first rfl).trans fits.1, sameV.mpr fits.2.1, mt sameW.mp fits.2.2⟩
  | _ => simpa only [Fits, ne_eq, sameV, sameW, sameR] using fits

namespace Held

section
variable (held : Held kind vlock wlock readers)
include held

theorem fits_of {k} (isKind : kind t = k) : Fits vlock wlock readers t k :=
  isKind ▸ held.fits t

theorem fits_update (fitsNew : Fits vlock' wlock' readers' t new)
    (sameV : ∀ q ≠ t, vlock' = some q ↔ vlock = some q)
    (sameW : ∀ q ≠ t, wlock' = some q ↔ wlock = some q)
    (sameR : ∀ q ≠ t, q ∈ readers' ↔ q ∈ readers)
    (first : ∀ q ≠ t, kind q = .first → readers' = readers)
    : ∀ q, Fits vlock' wlock' readers' q (update kind t new q) :=
  (forall_update_iff kind fun q k => Fits vlock' wlock' readers' q k).mpr ⟨fitsNew, fun q other =>
      (held.fits q).congr (sameV q other) (sameW q other) (sameR q other) (first q other)⟩

theorem fits_vlock (fitsNew : Fits vlock' wlock readers t new)
    (sameV : ∀ q ≠ t, vlock' = some q ↔ vlock = some q)
    : ∀ q, Fits vlock' wlock readers q (update kind t new q) :=
  held.fits_update fitsNew sameV (fun _ _ => Iff.rfl) (fun _ _ => Iff.rfl) fun _ _ _ => rfl

theorem fits_wlock (fitsNew : Fits vlock wlock' readers t new)
    (sameW : ∀ q ≠ t, wlock' = some q ↔ wlock = some q)
    : ∀ q, Fits vlock wlock' readers q (update kind t new q) :=
  held.fits_update fitsNew (fun _ _ => Iff.rfl) sameW (fun _ _ => Iff.rfl) fun _ _ _ => rfl

theorem fits_readers (fitsNew : Fits vlock wlock readers' t new)
    (sameR : ∀ q ≠ t, q ∈ readers' ↔ q ∈ readers) (first : ∀ q ≠ t, kind q ≠ .first)
    : ∀ q, Fits vlock wlock readers' q (update kind t new q) :=
  held.fits_update fitsNew (fun _ _ => Iff.rfl) (fun _ _ => Iff.rfl) sameR fun q other isFirst =>
    absurd isFirst (first q other)

/-- The readers keep their share when neither a reader nor `__wlock` changes. -/
theorem shared_update (same : new.shares = (kind t).shares)
    : ∀ q, (update kind t new q).shares = true →
        ∃ u, wlock = some u ∧ (update kind t new u).shares = true := by
  have shares (q : Tid) : (update kind t new q).shares = (kind q).shares := by
    by_cases equal : q = t
    · rw [equal, update_self, same]
    · rw [update_of_ne equal]
  intro q isReader
  obtain ⟨u, isOwner, shared⟩ := held.shared q ((shares q).symm.trans isReader)
  exact ⟨u, isOwner, (shares u).trans shared⟩

end

/-- No reader shares `__wlock` when a thread that does not is its owner. -/
theorem not_shares (held : Held kind vlock (some t) readers) (notReader : (kind t).shares = false)
    (q : Tid)
    : (kind q).shares = false := by
  refine Bool.eq_false_iff.mpr fun isReader => ?_
  obtain ⟨u, isOwner, shared⟩ := held.shared q isReader
  cases isOwner
  exact nomatch notReader.symm.trans shared

theorem shares_before {q} (notReader : new.shares = false)
    (reads : (update kind t new q).shares = true)
    : q ≠ t ∧ (kind q).shares = true := by
  by_cases same : q = t
  · rw [same, update_self, notReader] at reads
    cases reads
  · rw [update_of_ne same] at reads
    exact ⟨same, reads⟩

theorem some_iff_of_ne {q} (other : q ≠ t) : some t = some q ↔ none = some q := by
  simpa using Ne.symm other

theorem lockGate (held : Held kind none wlock readers) (idle : kind t = .idle)
    : Held (update kind t .gate) (some t) wlock readers := by
  obtain ⟨notIn, _, notOwner⟩ := held.fits_of idle
  refine ⟨held.nodup, held.fits_vlock ⟨notIn, rfl, notOwner⟩ fun _ => some_iff_of_ne,
    held.shared_update ?_⟩
  rw [idle]
  rfl

theorem leaveGate (held : Held kind (some t) wlock readers) (atGate : kind t = .gate)
    : Held (update kind t .idle) none wlock readers := by
  obtain ⟨notIn, _, notOwner⟩ := held.fits_of atGate
  refine ⟨held.nodup, held.fits_vlock ⟨notIn, nofun, notOwner⟩
    fun _ other => (some_iff_of_ne other).symm,
    held.shared_update ?_⟩
  rw [atGate]
  rfl

/-- The first reader is counted; `__wlock` may be held by a writer or by a reader that leaves. -/
theorem addFirst (held : Held kind (some t) wlock []) (atGate : kind t = .gate)
    : Held (update kind t .first) (some t) wlock [t] := by
  obtain ⟨_, _, notOwner⟩ := held.fits_of atGate
  refine ⟨nodup_singleton t, held.fits_readers ⟨rfl, rfl, notOwner⟩ ?_ ?_, held.shared_update ?_⟩
  · exact fun q other => by simpa using other
  · exact fun q _ isFirst => absurd (held.fits_of isFirst).1 (cons_ne_nil q []).symm
  · rw [atGate]
    rfl

/-- Another reader is counted. Nobody waits to be the first, since this one has `__vlock`. -/
theorem addNext (held : Held kind (some t) wlock readers) (atGate : kind t = .gate)
    (counted : readers ≠ [])
    : Held (update kind t .enter) (some t) wlock (t :: readers) := by
  obtain ⟨notIn, _, _⟩ := held.fits_of atGate
  obtain ⟨r, mem⟩ := exists_mem_of_ne_nil readers counted
  have other : r ≠ t := fun same => notIn (same ▸ mem)
  have shares : (kind r).shares = true := by
    have fits := held.fits r
    cases isKind : kind r <;> rw [isKind] at fits
    case enter | reader => rfl
    case first => exact absurd (some.inj fits.2.1).symm other
    all_goals exact absurd mem fits.1
  refine ⟨nodup_cons.mpr ⟨notIn, held.nodup⟩,
    held.fits_readers ⟨mem_cons_self, rfl⟩ ?_ ?_, fun q _ => ?_⟩
  · exact fun q other => by simp [other]
  · exact fun q other isFirst => absurd (some.inj (held.fits_of isFirst).2.1).symm other
  · obtain ⟨w, isOwner, shared⟩ := held.shared r shares
    have notThis : w ≠ t := by
      rintro rfl
      rw [atGate] at shared
      cases shared
    exact ⟨w, isOwner, by rwa [update_of_ne notThis]⟩

theorem lockFirst (held : Held kind vlock none readers) (waits : kind t = .first)
    : Held (update kind t .enter) vlock (some t) readers := by
  obtain ⟨alone, atGate, _⟩ := held.fits_of waits
  exact ⟨held.nodup, held.fits_wlock ⟨by simp [alone], atGate⟩ fun _ => some_iff_of_ne, fun _ _ =>
    ⟨t, rfl, by rw [update_self]; rfl⟩⟩

theorem openGate (held : Held kind (some t) wlock readers) (enters : kind t = .enter)
    : Held (update kind t .reader) none wlock readers := by
  obtain ⟨mem, _⟩ := held.fits_of enters
  refine ⟨held.nodup, held.fits_vlock ⟨mem, nofun⟩ fun _ other => (some_iff_of_ne other).symm,
    held.shared_update ?_⟩
  rw [enters]
  rfl

theorem lockWriter (held : Held kind vlock none readers) (idle : kind t = .idle)
    : Held (update kind t .writer) vlock (some t) readers := by
  obtain ⟨notIn, notGate, _⟩ := held.fits_of idle
  exact ⟨held.nodup, held.fits_wlock ⟨notIn, notGate, rfl⟩ fun _ => some_iff_of_ne,
    fun q isReader =>
    nomatch (held.shared q (shares_before rfl isReader).2).choose_spec.1⟩

/-- The owner of `__wlock` is the last reader. -/
theorem subLast (held : Held kind vlock (some t) [t]) (reads : kind t = .reader)
    : Held (update kind t .leaver) vlock (some t) [] := by
  obtain ⟨_, notGate⟩ := held.fits_of reads
  refine ⟨nodup_nil, held.fits_readers ⟨not_mem_nil, notGate, rfl⟩ ?_ ?_, fun q isReader => ?_⟩
  · exact fun q other => by simpa using other
  · exact fun q other isFirst => absurd (cons.inj (held.fits_of isFirst).1).1.symm other
  · obtain ⟨other, before⟩ := shares_before rfl isReader
    have fits := held.fits q
    cases isKind : kind q <;> rw [isKind] at fits before
    case enter | reader => exact absurd (mem_singleton.mp fits.1) other
    all_goals cases before

/-- A reader that does not own `__wlock` leaves the others with it. -/
theorem subOther (held : Held kind vlock wlock readers) (reads : kind t = .reader)
    (notOwner : wlock ≠ some t)
    : Held (update kind t .idle) vlock wlock (readers.erase t) := by
  obtain ⟨mem, notGate⟩ := held.fits_of reads
  refine ⟨held.nodup.erase t,
    held.fits_readers ⟨held.nodup.not_mem_erase, notGate, notOwner⟩ ?_ ?_, fun q isReader => ?_⟩
  · exact fun q other => mem_erase_of_ne other
  · intro q other isFirst
    rw [(held.fits_of isFirst).1] at mem
    exact absurd (mem_singleton.mp mem).symm other
  · obtain ⟨w, isOwner, shared⟩ := held.shared q (shares_before rfl isReader).2
    have notThis : w ≠ t := fun equal => notOwner (equal ▸ isOwner)
    exact ⟨w, isOwner, by rwa [update_of_ne notThis]⟩

theorem unlock (held : Held kind vlock (some t) readers) (notIn : t ∉ readers)
    (notGate : vlock ≠ some t) (notReader : (kind t).shares = false)
    : Held (update kind t .idle) vlock none readers := by
  exact ⟨held.nodup, held.fits_wlock ⟨notIn, notGate, nofun⟩
    fun _ other => (some_iff_of_ne other).symm,
    fun q isReader => nomatch (held.not_shares notReader q).symm.trans
      (shares_before rfl isReader).2⟩

end Held

end Held

-- The steps keep it

/-- (Sound s) holds when the mutexes and the count fit the places of the threads. A writer that
finds the count not zero has a reader waiting to be the first, and never comes to take itself off
the count.
-/
structure Sound (s : State) : Prop where
  held : ∃ readers, Held (fun t => (s.place t).kind) s.vlock s.wlock readers
    ∧ s.val = readers.length
  passing : ∀ t, s.place t = .unOne .writer ∨ s.place t = .unWaiting .writer →
    ∃ u, s.place u = .rdFirst
  never : ∀ t, s.place t ≠ .unSub .writer

theorem kind_update (place : Tid → Place) (t : Tid) (p : Place)
    : (fun q => (update place t p q).kind) = update (fun q => (place q).kind) t p.kind := by
  funext q
  by_cases same : q = t
  · rw [same, update_self, update_self]
  · rw [update_of_ne same, update_of_ne same]

namespace Sound

variable {s s' : State} {t : Tid}

theorem init : Sound .initial where
  held := ⟨[], ⟨nodup_nil, fun _ => ⟨not_mem_nil, nofun, nofun⟩, nofun⟩, rfl⟩
  passing _ at_place := by rcases at_place with h | h <;> cases h
  never _ := nofun

theorem kind_eq (p : Place) (atPlace : s.place t = p) : (s.place t).kind = p.kind :=
  congrArg Place.kind atPlace

section
variable (sound : Sound s)
include sound

theorem writer_owns (isWriter : (s.place t).kind = .writer) : s.wlock = some t := by
  obtain ⟨readers, held, _⟩ := sound.held
  exact (held.fits_of isWriter).2.2

/-- A thread goes to another place, where it waits no longer to be the first unless `__wlock` is
free.
-/
theorem move {old p val vlock wlock} (atOld : s.place t = old)
    (held : ∃ readers, Held (update (fun q => (s.place q).kind) t p.kind) vlock wlock readers
      ∧ val = readers.length)
    (leaves : old = .rdFirst → s.wlock = none)
    (passing : p = .unOne .writer ∨ p = .unWaiting .writer → ∃ u, u ≠ t ∧ s.place u = .rdFirst)
    (never : p ≠ .unSub .writer)
    : Sound ⟨val, vlock, wlock, update s.place t p⟩ := by
  refine ⟨?_, fun q => ?_, fun q => ?_⟩
  · obtain ⟨readers, held, count⟩ := held
    exact ⟨readers, (kind_update s.place t p).symm ▸ held, count⟩
  · show update s.place t p q = _ ∨ update s.place t p q = _ → _
    by_cases same : q = t
    · rw [same, update_self]
      intro atPlace
      obtain ⟨u, other, isFirst⟩ := passing atPlace
      exact ⟨u, (update_of_ne other ..).trans isFirst⟩
    rw [update_of_ne same]
    intro atPlace
    obtain ⟨u, isFirst⟩ := sound.passing q atPlace
    have other : u ≠ t := by
      rintro rfl
      have owns : s.wlock = some q := by
        apply sound.writer_owns
        rcases atPlace with atPlace | atPlace <;> exact kind_eq _ atPlace
      exact nomatch (leaves (atOld.symm.trans isFirst)).symm.trans owns
    exact ⟨u, (update_of_ne other ..).trans isFirst⟩
  · show update s.place t p q ≠ _
    by_cases same : q = t
    · rw [same, update_self]
      exact never
    · rw [update_of_ne same]
      exact sound.never q

/-- The thread has what it had. -/
theorem stay {old p} (atOld : s.place t = old) (same : p.kind = old.kind)
    (notFirst : old ≠ .rdFirst)
    (passing : p = .unOne .writer ∨ p = .unWaiting .writer → ∃ u, u ≠ t ∧ s.place u = .rdFirst)
    (never : p ≠ .unSub .writer)
    : Sound (s.goto t p) := by
  obtain ⟨readers, held, count⟩ := sound.held
  refine sound.move atOld ⟨readers, ?_, count⟩ (fun isFirst => absurd isFirst notFirst) passing
    never
  rw [same, ← kind_eq old atOld, update_eq_self]
  exact held

/-- A writer that finds the count not zero: the only counted thread waits to be the first. -/
theorem first_of_writer (isWriter : (s.place t).kind = .writer) (counted : s.val ≠ 0)
    : ∃ u, u ≠ t ∧ s.place u = .rdFirst := by
  obtain ⟨readers, held, count⟩ := sound.held
  have owns := sound.writer_owns isWriter
  rw [owns] at held
  have some : readers ≠ [] := by
    rintro rfl
    exact counted count
  obtain ⟨u, mem⟩ := exists_mem_of_ne_nil readers some
  have fits := held.fits u
  have notShares := held.not_shares (by rw [isWriter]; rfl) u
  cases isKind : (s.place u).kind <;> rw [isKind] at fits notShares
  case first =>
      refine ⟨u, ?_, ?_⟩
      · rintro rfl
        exact nomatch isWriter.symm.trans isKind
      · exact Place.eq_rdFirst isKind
  case enter | reader => cases notShares
  all_goals exact absurd mem fits.1

theorem val_lt : s.val < 2 ^ 31 := by
  obtain ⟨readers, held, count⟩ := sound.held
  have bound : readers.length ≤ 2147483647 := by simpa using held.nodup.length_le_card
  omega

theorem correct : s.Correct := by
  obtain ⟨readers, held, _⟩ := sound.held
  refine ⟨fun none t => ?_, fun t u writes other => ?_⟩
  · have isFree : s.wlock = Option.none := by
      by_contra locked
      obtain ⟨w, isOwner⟩ := ne_none_iff_exists'.mp locked
      have fits := held.fits w
      have notHolds := none w
      cases place : s.place w with
      | outside | rdLock | wrLock | rdCheck | rdFull | rdAdd | rdFirst =>
        simp only [place] at fits
        exact fits.2.2 isOwner
      | _ =>
        rw [place] at notHolds
        cases notHolds
    simp only [trywrlock, isFree, if_true]
    rfl
  · have owns := sound.writer_owns (kind_eq .writing writes)
    rw [owns] at held
    rcases other with reads | writes'
    · have notShares := held.not_shares (by simp only [writes]; rfl) u
      simp only [reads] at notShares
      cases notShares
    · have owns' := sound.writer_owns (kind_eq .writing writes')
      exact some.inj (owns'.symm.trans owns)

theorem reader_facts (isReader : (s.place t).kind = .reader)
    : s.wlock ≠ none ∧ s.val ≠ 0 := by
  obtain ⟨readers, held, count⟩ := sound.held
  obtain ⟨u, isOwner, _⟩ := held.shared t (by simp only [isReader]; rfl)
  refine ⟨by rw [isOwner]; exact some_ne_none u, ?_⟩
  have mem := (held.fits_of isReader).1
  rw [count]
  exact Nat.ne_of_gt (length_pos_of_mem mem)

end

theorem mutexUnlock_self (t : Tid) : mutexUnlock (some t) t = none := if_pos rfl

section
variable (sound : Sound s)
include sound

/-- A reader comes in. -/
theorem step_rdAdd (place : s.place t = .rdAdd)
    : Sound { s.goto t (if (s.val + 1) % 2 ^ 32 = 1 then .rdFirst else .rdUnlock) with
        val := (s.val + 1) % 2 ^ 32 } := by
  have small := sound.val_lt
  rw [Nat.mod_eq_of_lt (by omega)]
  obtain ⟨readers, held, count⟩ := sound.held
  have atGate := kind_eq .rdAdd place
  have gate := (held.fits_of atGate).2.1
  rw [gate] at held
  by_cases first : s.val + 1 = 1
  · rw [if_pos first]
    have none : readers = [] := length_eq_zero_iff.mp (by omega)
    subst none
    exact sound.move place ⟨[t], gate ▸ held.addFirst atGate, first⟩ nofun nofun nofun
  · rw [if_neg first]
    have some : readers ≠ [] := by
      rintro rfl
      exact first (congrArg (· + 1) count)
    exact sound.move place ⟨t :: readers, gate ▸ held.addNext atGate some, congrArg (· + 1) count⟩
      nofun nofun
      nofun

/-- A reader takes itself off the count. -/
theorem step_unSub (place : s.place t = .unSub .reader) (safe : s.val = 1 ↔ s.wlock = some t)
    : Sound { s.goto t (if (s.val + 2 ^ 32 - 1) % 2 ^ 32 = 0 then .unMutex .reader
      else .outside) with
        val := (s.val + 2 ^ 32 - 1) % 2 ^ 32 } := by
  obtain ⟨readers, held, count⟩ := sound.held
  have reads := kind_eq (.unSub .reader) place
  have mem := (held.fits_of reads).1
  have small := sound.val_lt
  have positive := (sound.reader_facts reads).2
  have less : (s.val + 2 ^ 32 - 1) % 2 ^ 32 = s.val - 1 := by omega
  rw [less]
  by_cases last : s.val = 1
  · have owns := safe.mp last
    have alone : readers = [t] := by
      obtain ⟨r, rfl⟩ := length_eq_one_iff.mp (count.symm.trans last)
      rw [mem_singleton.mp mem]
    subst alone
    rw [owns] at held
    rw [if_pos (by omega)]
    exact sound.move place ⟨[], owns ▸ held.subLast reads, by rw [last]; rfl⟩ nofun nofun nofun
  · rw [if_neg (by omega)]
    refine sound.move place ⟨readers.erase t, held.subOther reads (mt safe.mpr last), ?_⟩ nofun
      nofun nofun
    rw [length_erase_of_mem mem, ← count]

variable {role : Role}

/-- `__wlock` is unlocked by its owner. -/
theorem step_unMutex (place : s.place t = .unMutex role)
    : Sound { s.goto t .outside with wlock := mutexUnlock s.wlock t } := by
  obtain ⟨readers, held, count⟩ := sound.held
  have leaves : (s.place t).kind = .leaver ∨ (s.place t).kind = .writer := by
    rw [place]
    cases role with
    | reader => exact .inl rfl
    | writer => exact .inr rfl
  obtain ⟨notIn, notGate, owns⟩ : t ∉ readers ∧ s.vlock ≠ some t ∧ s.wlock = some t := by
    rcases leaves with leaves | leaves <;> exact held.fits_of leaves
  have notReader : (s.place t).kind.shares = false := by
    rcases leaves with leaves | leaves <;> rw [leaves] <;> rfl
  rw [owns, mutexUnlock_self]
  rw [owns] at held
  exact sound.move place ⟨readers, held.unlock notIn notGate notReader, count⟩ nofun nofun nofun

/-- An unlocking thread that holds the lock gets past the first two tests. -/
theorem step_unState (place : s.place t = .unState role)
    : Sound (s.goto t (if s.wlock = none then .outside else .unZero role)) := by
  have locked : s.wlock ≠ none := by
    cases role with
    | reader => exact (sound.reader_facts (kind_eq _ place)).1
    | writer =>
      rw [sound.writer_owns (kind_eq _ place)]
      exact some_ne_none t
  rw [if_neg locked]
  exact sound.stay place (by cases role <;> rfl) nofun nofun nofun

theorem step_unZero (place : s.place t = .unZero role)
    : Sound (s.goto t (if s.val = 0 then .unMutex role else .unOne role)) := by
  cases role with
  | reader =>
    rw [if_neg (sound.reader_facts (kind_eq _ place)).2]
    exact sound.stay place rfl nofun nofun nofun
  | writer =>
    split
    · exact sound.stay place rfl nofun nofun nofun
    next counted =>
      exact sound.stay place rfl nofun
        (fun _ => sound.first_of_writer (kind_eq _ place) counted) nofun

/-- A writer that got here has a reader waiting to be the first, so the count is 1. -/
theorem passing_facts (atPlace : s.place t = .unOne .writer ∨ s.place t = .unWaiting .writer)
    : ∃ u, u ≠ t ∧ s.place u = .rdFirst ∧ s.val = 1 ∧ s.vlock = some u := by
  obtain ⟨readers, held, count⟩ := sound.held
  obtain ⟨u, isFirst⟩ := sound.passing t atPlace
  obtain ⟨alone, gate, _⟩ := held.fits_of (kind_eq .rdFirst isFirst)
  refine ⟨u, ?_, isFirst, ?_, gate⟩
  · rintro rfl
    rcases atPlace with atPlace | atPlace <;> exact nomatch isFirst.symm.trans atPlace
  · rw [count, alone]
    rfl

theorem step_unOne (place : s.place t = .unOne role)
    : Sound (s.goto t (if s.val = 1 then .unWaiting role else .unSub role)) := by
  cases role with
  | reader =>
    split <;> exact sound.stay place rfl nofun nofun nofun
  | writer =>
    obtain ⟨u, other, isFirst, one, _⟩ := sound.passing_facts (.inl place)
    rw [if_pos one]
    exact sound.stay place rfl nofun (fun _ => ⟨u, other, isFirst⟩) nofun

theorem step_unWaiting (place : s.place t = .unWaiting role)
    (safe : s.place t = .unWaiting .reader → s.vlock = none)
    : Sound (s.goto t (if s.vlock ≠ none then .unMutex role else .unSub role)) := by
  cases role with
  | reader =>
    rw [if_neg (not_not.mpr (safe place))]
    exact sound.stay place rfl nofun nofun nofun
  | writer =>
    obtain ⟨u, _, _, _, gate⟩ := sound.passing_facts (.inr place)
    rw [if_pos (by rw [gate]; exact some_ne_none u)]
    exact sound.stay place rfl nofun nofun nofun

theorem step (safe : s.Safe (.step t)) (done : s.step t = some s') : Sound s' := by
  obtain ⟨readers, held, count⟩ := sound.held
  unfold State.step at done
  cases place : s.place t with
  | outside | reading | writing =>
    simp only [place] at done
    cases done
  | rdLock =>
    simp only [place] at done
    split at done <;> cases done
    next isFree =>
    rw [isFree] at held
    exact sound.move place ⟨readers, held.lockGate (kind_eq _ place), count⟩ nofun nofun nofun
  | rdCheck =>
    simp only [place] at done
    cases done
    split <;> exact sound.stay place rfl nofun nofun nofun
  | rdFull =>
    simp only [place] at done
    cases done
    have gate := (held.fits_of (kind_eq .rdFull place)).2.1
    rw [gate] at held ⊢
    rw [mutexUnlock_self]
    exact sound.move place ⟨readers, held.leaveGate (kind_eq _ place), count⟩ nofun nofun nofun
  | rdAdd =>
    simp only [place] at done
    cases done
    exact sound.step_rdAdd place
  | rdFirst =>
    simp only [place] at done
    split at done <;> cases done
    next isFree =>
    rw [isFree] at held
    exact sound.move place ⟨readers, held.lockFirst (kind_eq _ place), count⟩ (fun _ => isFree)
      nofun nofun
  | rdUnlock =>
    simp only [place] at done
    cases done
    have gate := (held.fits_of (kind_eq .rdUnlock place)).2
    rw [gate] at held ⊢
    rw [mutexUnlock_self]
    exact sound.move place ⟨readers, held.openGate (kind_eq _ place), count⟩ nofun nofun nofun
  | wrLock =>
    simp only [place] at done
    split at done <;> cases done
    next isFree =>
    rw [isFree] at held
    exact sound.move place ⟨readers, held.lockWriter (kind_eq _ place), count⟩ nofun nofun nofun
  | unState role =>
    simp only [place] at done
    cases done
    exact sound.step_unState place
  | unZero role =>
    simp only [place] at done
    cases done
    exact sound.step_unZero place
  | unOne role =>
    simp only [place] at done
    cases done
    exact sound.step_unOne place
  | unWaiting role =>
    simp only [place] at done
    cases done
    exact sound.step_unWaiting place safe.1
  | unSub role =>
    simp only [place] at done
    rw [← some.inj done]
    cases role with
    | reader => exact sound.step_unSub place (safe.2 place)
    | writer => exact absurd place (sound.never t)
  | unMutex role =>
    simp only [place] at done
    cases done
    exact sound.step_unMutex place

theorem perform {event} (done : s.perform event = some s') (safe : s.Safe event)
    : Sound s' := by
  cases event with
  | step t => exact sound.step safe done
  | rdlock t | wrlock t =>
    obtain ⟨outside, rfl⟩ := guarded done
    exact sound.stay outside rfl nofun nofun nofun
  | trywrlock t =>
    obtain ⟨outside, rfl⟩ := guarded done
    unfold trywrlock
    split
    next isFree =>
      obtain ⟨readers, held, count⟩ := sound.held
      rw [isFree] at held
      exact sound.move outside ⟨readers, held.lockWriter (kind_eq _ outside), count⟩ nofun nofun
        nofun
    · exact sound
  | unlock t =>
    simp only [State.perform] at done
    split at done <;> cases done
    next reading =>
      exact sound.stay reading rfl nofun nofun nofun
    next writing =>
      exact sound.stay writing rfl nofun nofun nofun

end

end Sound

-- Runs

/-- In every interleaving in which the readers leave as they should, the lock is free when nobody
holds it, and writers are alone.
-/
theorem correct_of_safe {events : List Event} {states : List State}
    (run : trace perform .initial events = some states)
    (allSafe : AllSafe perform Safe .initial events)
    : ∀ state ∈ states, state.Correct := by
  have sound := trace_forall Sound (fun sound done safe => sound.perform done safe) .init run
      allSafe
  exact fun state mem => (sound state mem).correct

instance (s : State) : DecidablePred s.Safe
  | .step _ => inferInstanceAs (Decidable (_ ∧ _))
  | .rdlock _ | .wrlock _ | .trywrlock _ | .unlock _ => inferInstanceAs (Decidable True)

/-- A call by a thread and a number of its steps. -/
def Event.then (call : Event) (t : Tid) (steps : ℕ) : List Event :=
  call :: List.replicate steps (.step t)

/-- Two readers come in, and the first one leaves last. -/
def firstLeavesLast : List Event :=
  [(Event.rdlock 0).then 0 5, (Event.rdlock 1).then 1 4, (Event.unlock 1).then 1 4,
    (Event.unlock 0).then 0 6, [.trywrlock 1]].flatten

theorem correct_first_leaves_last
    : ∃ states, trace perform .initial firstLeavesLast = some states
        ∧ ∀ state ∈ states, state.Correct := by
  exact exists_of_isSome (by decide +kernel) fun _ run => correct_of_safe run (by decide +kernel)

/-- Two readers come in and the first one leaves first: both have left, and nobody can write. A
reader unlocks while another one comes in: that one reads while a third thread writes.
-/
theorem readers_leave_wrong
    : ((trace perform .initial
          [(Event.rdlock 0).then 0 5, (Event.rdlock 1).then 1 4, (Event.unlock 0).then 0 4,
            (Event.unlock 1).then 1 6].flatten).any fun states =>
        states.getLast?.any fun s =>
          s.place 0 = .outside && s.place 1 = .outside && s.wlock = some 0 && !(s.trywrlock 1).isOk)
      ∧ (trace perform .initial
          [(Event.rdlock 0).then 0 5, (Event.rdlock 1).then 1 1, (Event.unlock 0).then 0 5,
            replicate 3 (.step 1), (Event.wrlock 2).then 2 1].flatten).any fun states =>
        states.getLast?.any fun s => s.place 1 = .reading && s.place 2 = .writing := by
  decide +kernel

end UnstableOS.Pthread.Rwlock
