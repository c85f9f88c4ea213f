import UnstableOS.Libc.Stdio.Code

/-! Memory streams as an array of bytes with a position.
Each operation has its own branch for streams of `fmemopen`; two of them are wrong. `fputs` has
none and writes to descriptor 0, and a seek from the end goes the wrong way.
-/

namespace UnstableOS.Libc.Stdio

open Lib Nat ByteStore List Int

/-- The abstract stream: the bytes from the start of the buffer on, and a position. -/
structure Tape where
  data : ByteStore
  pos : ℕ

open Tape

inductive Call
  | fputc (c : UInt8)
  | fputs (text : List UInt8)
  | fwrite (ptr : ByteStore) (size nitems : ℕ)
  | fgetc
  | fread (size nitems : ℕ)
  | fseeko (offset : Int64) (whence : Whence)

open Call

inductive Result
  | char (c : Option UInt8)
  | status (ok : Bool)
  | items (count : ℕ) (bytes : List UInt8)

def Call.run (s : Stream) : Call → Result × Stream
  | .fputc c => (.char (Stdio.fputc c s).1, (Stdio.fputc c s).2)
  | .fputs text => (.status (Stdio.fputs text s).1, (Stdio.fputs text s).2)
  | .fwrite ptr size nitems =>
    (.items (Stdio.fwrite ptr size nitems s).1 [], (Stdio.fwrite ptr size nitems s).2)
  | .fgetc => (.char (Stdio.fgetc s).1, (Stdio.fgetc s).2)
  | .fread size nitems =>
    let (n, bytes, s) := Stdio.fread size nitems s
    (.items n bytes, s)
  | .fseeko offset whence =>
    (.status (Stdio.fseeko offset whence s).1, (Stdio.fseeko offset whence s).2)

namespace Tape

/-- As many of the bytes as there is room for are stored at the position. -/
def store (t : Tape) (size : ℕ) (bytes : List UInt8) : Tape :=
  let bytes := bytes.take (size - t.pos)
  ⟨t.data.writeBytes t.pos bytes, t.pos + bytes.length⟩

/-- The next bytes, as many as there are. -/
def load (t : Tape) (size count : ℕ) : List UInt8 × Tape :=
  let count := min count (size - t.pos)
  (t.data.readBytes t.pos count, { t with pos := t.pos + count })

def base (t : Tape) (size : ℕ) : Whence → ℕ
  | .seekSet => 0
  | .seekCur => t.pos
  | .seekEnd => size

/-- What a call is for, on an array of `size` bytes. -/
def apply (t : Tape) (size : ℕ) : Call → Result × Tape
  | .fputc c => (.char (if t.pos < size then some c else none), t.store size [c])
  | .fputs text => (.status (text.length ≤ size - t.pos), t.store size text)
  | .fwrite ptr each nitems =>
    let bytes := ptr.readBytes 0 (request each nitems)
    (.items (min bytes.length (size - t.pos) / each) [], t.store size bytes)
  | .fgetc => (.char (t.load size 1).1.head?, (t.load size 1).2)
  | .fread each nitems =>
    let (bytes, t) := t.load size (request each nitems)
    (.items (bytes.length / each) bytes, t)
  | .fseeko offset whence =>
    let target := t.base size whence + offset.toInt
    if 0 ≤ target ∧ target ≤ size then (.status true, { t with pos := target.toNat })
    else (.status false, t)

theorem take_readBytes (t : Tape) (size : ℕ) (ptr : ByteStore) (n : ℕ)
    : (ptr.readBytes 0 n).take (size - t.pos) = ptr.readBytes 0 (min n (size - t.pos)) := by
  rcases le_total n (size - t.pos) with le | ge
  · rw [min_eq_left le, take_of_length_le (by simpa using le)]
  · rw [min_eq_right ge]
    exact take_drop_readBytes (x := 0) (by omega)

end Tape

/-- Every call of the run returns what it returns on the array, leaves the same bytes and the
same position inside the array, and makes no call on a descriptor.
-/
def Behaves (size : ℕ) : List Call → Stream → Tape → Prop
  | [], _, _ => True
  | call :: calls, s, t =>
    (call.run s).1 = (t.apply size call).1
    ∧ (call.run s).2.buf.buf = (t.apply size call).2.data
    ∧ (call.run s).2.currentOffset = (t.apply size call).2.pos
    ∧ (t.apply size call).2.pos ≤ size
    ∧ (call.run s).2.io.calls = s.io.calls
    ∧ Behaves size calls (call.run s).2 (t.apply size call).2

/-- The calls whose branch for memory streams is right. -/
def Call.Right (size : ℕ) : Call → Prop
  | .fputs _ => False
  | .fseeko offset .seekEnd =>
    ¬ (-size ≤ offset.toInt ∧ offset.toInt < 0) ∧ offset.toInt ≠ -2 ^ 63
  | _ => True

/-- The stream is a memory stream for both directions that stands for the array. -/
structure Stands (size : ℕ) (s : Stream) (t : Tape) : Prop where
  pureBuf : s.pureBuf = true
  buffered : s.buffered = .ionbf
  mode : s.mode = ⟨true, true⟩
  seekable : s.seekable = true
  unpushed : s.ungetcBuf.head = s.ungetcBuf.tail
  empty : s.buf.head = s.buf.tail
  length : s.buf.size = size
  data : s.buf.buf = t.data
  offset : s.currentOffset = t.pos
  inside : t.pos ≤ size
  sizeT : size < 2 ^ 32

/-- A call on the stream came out as on the array, without a call on the descriptor. -/
structure Agrees (size : ℕ) (io : Descriptor) (real : Result × Stream) (ideal : Result × Tape)
    : Prop where
  result : real.1 = ideal.1
  stands : Stands size real.2 ideal.2
  io : real.2.io = io

namespace Stands

variable {size : ℕ} {s : Stream} {t : Tape}

section
variable (stands : Stands size s t)
include stands

theorem flushed : Stands size (fflush s).2 t ∧ (fflush s).2.io = s.io := by
  have offset : max 0 s.currentOffset = s.currentOffset := by
    rw [stands.offset]
    omega
  simp only [fflush, offset]
  rw [if_pos stands.pureBuf]
  exact ⟨{ stands with unpushed := rfl }, rfl⟩

theorem turned (use other : Use)
    : Stands size (s.turn use other) t ∧ (s.turn use other).io = s.io := by
  unfold Stream.turn
  split
  · obtain ⟨still, io⟩ := stands.flushed
    exact ⟨{ still with }, io⟩
  · exact ⟨{ stands with }, rfl⟩

theorem room : (s.buf.size - s.currentOffset : ℤ) = (size - t.pos : ℕ) := by
  have := stands.inside
  rw [stands.offset, stands.length]
  omega

theorem full_iff : s.currentOffset = s.buf.size ↔ size - t.pos = 0 := by
  have := stands.room
  omega

/-- Storing moves the position behind the bytes stored. -/
theorem stored (wasEof : Bool) {bytes} (fits : bytes.length ≤ size - t.pos)
    : Stands size
        { s with
          buf := { s.buf with buf := s.buf.buf.writeBytes s.currentOffset.toNat bytes }
          currentOffset := s.currentOffset + bytes.length
          wasEof := wasEof }
        (t.store size bytes) := by
  rw [store, take_of_length_le fits]
  refine { stands with data := ?_, offset := ?_, inside := ?_ }
  · rw [stands.data, stands.offset, toNat_natCast]
  · simp [stands.offset]
  · exact Nat.add_le_of_le_sub' stands.inside fits

theorem loaded (wasEof : Bool) {count} (fits : count ≤ size - t.pos)
    : Stands size { s with currentOffset := s.currentOffset + count, wasEof := wasEof }
        { t with pos := t.pos + count } :=
  { stands with
    offset := by simp [stands.offset]
    inside := Nat.add_le_of_le_sub' stands.inside fits }

theorem fputc (c : UInt8) : Agrees size s.io ((Call.fputc c).run s) (t.apply size (.fputc c)) := by
  obtain ⟨turned, io⟩ := stands.turned .writing .reading
  rw [← io]
  simp only [run, apply, Stdio.fputc, stands.mode, if_true]
  generalize s.turn .writing .reading = s at turned ⊢
  rw [if_pos turned.buffered, if_pos turned.pureBuf]
  split
  next full =>
    rw [turned.full_iff] at full
    rw [if_neg (by omega)]
    refine ⟨rfl, ?_, rfl⟩
    simp only [store, full, take_zero, writeBytes_nil]
    exact { turned with }
  next more =>
    rw [turned.full_iff] at more
    rw [if_pos (by omega)]
    exact ⟨rfl, turned.stored s.wasEof (pos_of_ne_zero more), rfl⟩

theorem fgetc : Agrees size s.io (Call.fgetc.run s) (t.apply size .fgetc) := by
  obtain ⟨turned, io⟩ := stands.turned .reading .writing
  rw [← io]
  simp only [run, apply, Stdio.fgetc, stands.mode, if_true, load]
  generalize s.turn .reading .writing = s at turned ⊢
  rw [if_neg (by simp [Ring.empty, turned.unpushed]), if_neg (by simp [Ring.empty, turned.empty]),
    if_pos turned.pureBuf]
  split
  next full =>
    rw [turned.full_iff] at full
    rw [full]
    exact ⟨rfl, { turned with }, rfl⟩
  next more =>
    rw [turned.full_iff] at more
    rw [min_eq_left (pos_of_ne_zero more)]
    refine ⟨?_, turned.loaded s.wasEof (pos_of_ne_zero more), rfl⟩
    simp [readBytes, turned.data, turned.offset]

/-- As many bytes are copied as were asked for and as there are up to the end. -/
theorem advance (left : ℕ)
    : (s.advance left).1 = min left (size - t.pos)
      ∧ Stands size (s.advance left).2 { t with pos := t.pos + min left (size - t.pos) }
      ∧ (s.advance left).2.io = s.io := by
  have room := stands.room
  simp only [Stream.advance]
  split
  next full =>
    rw [stands.full_iff.mp full, min_zero]
    exact ⟨rfl, { stands with }, rfl⟩
  next =>
  split
  next short =>
    have ends : (s.buf.size : ℤ) = s.currentOffset + (size - t.pos : ℕ) := by omega
    rw [min_eq_right (by omega), room, toNat_natCast, ends]
    exact ⟨rfl, stands.loaded true le_rfl, rfl⟩
  next enough =>
    have fits : left ≤ size - t.pos := by omega
    rw [min_eq_left fits]
    exact ⟨rfl, stands.loaded s.wasEof fits, rfl⟩

theorem fread (each nitems : ℕ)
    : Agrees size s.io ((Call.fread each nitems).run s) (t.apply size (.fread each nitems)) := by
  simp only [run, apply, Stdio.fread, stands.mode]
  by_cases nothing : request each nitems = 0
  · simp only [nothing, load, zero_min]
    exact ⟨by simp [readBytes], { stands with }, rfl⟩
  obtain ⟨turned, io⟩ := stands.turned .reading .writing
  rw [if_pos ⟨trivial, nothing⟩, ← io]
  generalize s.turn .reading .writing = s at turned ⊢
  have unpushed : takeUngetc (request each nitems) s = ([], s) := by
    cases request each nitems <;> simp [takeUngetc, Ring.empty, turned.unpushed]
  simp only [unpushed, length_nil, Nat.sub_zero, if_neg nothing, nil_append, freadRest]
  rw [if_pos turned.buffered, if_pos turned.pureBuf]
  obtain ⟨count, next, io⟩ := turned.advance (request each nitems)
  refine ⟨?_, next, io⟩
  simp [count, load, turned.data, turned.offset]

theorem fwrite (ptr : ByteStore) (each nitems : ℕ)
    : Agrees size s.io ((Call.fwrite ptr each nitems).run s)
        (t.apply size (.fwrite ptr each nitems)) := by
  simp only [run, apply, Stdio.fwrite, stands.mode, readBytes_length, store, t.take_readBytes]
  by_cases nothing : request each nitems = 0
  · simp only [nothing, zero_min, readBytes, writeBytes_nil]
    exact ⟨by simp, { stands with }, rfl⟩
  obtain ⟨turned, io⟩ := stands.turned .writing .reading
  rw [if_pos ⟨trivial, nothing⟩, ← io]
  rw [if_pos turned.buffered, if_pos turned.pureBuf]
  obtain ⟨count, next, io⟩ := turned.advance (request each nitems)
  refine ⟨by rw [count], { next with data := ?_ }, io⟩
  simp [count, next.data, turned.offset]

theorem fseeko {offset whence} (right : (Call.fseeko offset whence).Right size)
    : Agrees size s.io ((Call.fseeko offset whence).run s)
        (t.apply size (.fseeko offset whence)) := by
  obtain ⟨flushed, io⟩ := stands.flushed
  simp only [run, Stdio.fseeko, apply]
  rw [if_pos stands.seekable, if_pos stands.pureBuf, ← io]
  generalize (fflush s).2 = s at flushed ⊢
  have length := flushed.length
  have here := flushed.offset
  have sizeT := flushed.sizeT
  have pos := flushed.inside
  have low := offset.le_toInt
  have high := offset.toInt_lt
  -- a sum that leaves the type is negative
  have current : offT (offset.toInt + s.currentOffset) = offset.toInt + s.currentOffset
      ∨ size < offset.toInt ∧ offT (offset.toInt + s.currentOffset) < 0 := by
    rw [offT, bmod_def]
    omega
  generalize reached : (t.base size whence : ℤ) + offset.toInt = target
  have outside (out : ¬ (0 ≤ target ∧ target ≤ size))
      : Agrees size s.io (.status false, s)
          (if 0 ≤ target ∧ target ≤ size then (.status true, { t with pos := target.toNat })
            else (.status false, t)) := by
    rw [if_neg out]
    exact ⟨rfl, flushed, rfl⟩
  have inside {reach} (same : reach = target) (within : 0 ≤ target ∧ target ≤ size)
      : Agrees size s.io (.status true, { s with currentOffset := reach })
          (if 0 ≤ target ∧ target ≤ size then (.status true, { t with pos := target.toNat })
            else (.status false, t)) := by
    rw [if_pos within, same]
    refine ⟨rfl, { flushed with offset := ?_, inside := toNat_le.mpr within.2 }, rfl⟩
    exact (toNat_of_nonneg within.1).symm
  cases whence <;> simp only [base, Right] at reached right <;> dsimp only
  case seekSet =>
    split
    · exact outside (by omega)
    · exact inside (by omega) (by omega)
  case seekCur =>
    split
    · exact outside (by omega)
    · exact inside (by omega) (by omega)
  case seekEnd =>
    rw [offT_eq_self (x := -offset.toInt) (by omega) (by omega)]
    split
    · exact outside (by omega)
    · rw [offT_eq_self (by omega) (by omega)]
      exact inside (by omega) (by omega)

/-- A call of the right kind comes out as on the array. -/
theorem step {call} (right : call.Right size)
    : Agrees size s.io (call.run s) (t.apply size call) := by
  cases call with
  | fputc c => exact stands.fputc c
  | fputs text => exact right.elim
  | fwrite ptr each nitems => exact stands.fwrite ptr each nitems
  | fgetc => exact stands.fgetc
  | fread each nitems => exact stands.fread each nitems
  | fseeko offset whence => exact stands.fseeko right

end

end Stands

/-- `fputs` calls `write`; a seek from the end ends behind it. -/
theorem Call.right_of_behaves {size s t call}
    (stands : Stands size s t) (behaves : Behaves size [call] s t)
    : call.Right size := by
  obtain ⟨-, -, offset, inside, quiet, -⟩ := behaves
  cases call with
  | fputs text =>
    obtain ⟨turned, io⟩ := stands.turned .writing .reading
    simp only [run, Stdio.fputs, stands.mode, if_true] at quiet
    rw [if_pos turned.buffered, ← io] at quiet
    exact absurd quiet (succ_ne_self _)
  | fseeko distance whence =>
    cases whence with
    | seekEnd =>
      have length := stands.flushed.1.length
      have sizeT := stands.sizeT
      have low := distance.le_toInt
      generalize (t.apply size _).2.pos = pos at offset inside
      simp only [run, Stdio.fseeko] at offset
      rw [if_pos stands.seekable, if_pos stands.pureBuf, length] at offset
      refine ⟨fun ⟨back, negative⟩ => ?_, fun least => ?_⟩
      · rw [offT_eq_self (by omega) (by omega), offT_eq_self (by omega) (by omega),
          if_neg (by omega)] at offset
        dsimp only at offset
        omega
      · -- the negated offset is itself, and the position is negative
        have itself : offT (- -2 ^ 63) = -2 ^ 63 := by decide
        have wrapped : offT (size - -2 ^ 63) = size - 2 ^ 63 := by
          rw [offT, bmod_def]
          omega
        rw [least, itself, wrapped, if_neg (by omega)] at offset
        dsimp only at offset
        omega
    | _ => trivial
  | _ => trivial

theorem parseMode_updating {access flags mode}
    (parsed : parseMode access mode = some flags) (updating : access = ⟨true, true⟩ ∨ '+' ∈ mode)
    : flags = ⟨true, true⟩ := by
  induction mode generalizing access with
  | nil => simp_all [parseMode]
  | cons c mode ih =>
    by_cases plus : c = '+'
    · subst plus
      exact ih parsed (.inl rfl)
    rw [parseMode] at parsed
    · split at parsed
      · refine ih parsed (updating.imp_right fun mem => ?_)
        exact (mem_cons.mp mem).resolve_left (Ne.symm plus)
      · cases parsed
    · simpa using plus

theorem fopenGetFlags_updating {flags mode}
    (parsed : fopenGetFlags mode = some flags) (updating : '+' ∈ mode)
    : flags = ⟨true, true⟩ := by
  unfold fopenGetFlags at parsed
  split at parsed
  case h_4 => cases parsed
  all_goals exact parseMode_updating parsed (.inr (by simpa using updating))

/-- The streams of `fmemopen` in an updating mode stand for the bytes of their buffer.
Witness: `+` sets both access bits, and the position of a mode `a` is found below the size.
-/
theorem fmemopen_stands {io given bytes size mode s}
    (opened : fmemopen io given bytes size mode = some s)
    (updating : '+' ∈ mode) (sizeT : size < 2 ^ 32)
    : Stands size s ⟨s.buf.buf, s.currentOffset.toNat⟩ := by
  rw [fmemopen] at opened
  split at opened
  · cases opened
  obtain ⟨access, parsed, made⟩ := Option.bind_eq_some_iff.mp opened
  obtain rfl := fopenGetFlags_updating parsed updating
  have below : ((List.range size).find? fun i => bytes i = 0).getD 0 ≤ size := by
    cases found : (List.range size).find? fun i => bytes i = 0 with
    | none => exact zero_le _
    | some i => exact (mem_range.mp (mem_of_find?_eq_some found)).le
  cases made
  constructor <;> try first | rfl | exact sizeT
  · exact (toNat_of_nonneg (by dsimp only; split <;> omega)).symm
  · dsimp only
    split <;> omega

/-- A memory stream opened for updating is an array with a position exactly as long as `fputs`
is not called and no seek from the end goes back or by the least offset.
-/
theorem fmemopen_behaves_iff {io : Descriptor} {given : Bool} {bytes : ByteStore} {size : ℕ}
    {mode : List Char} {s : Stream} (opened : fmemopen io given bytes size mode = some s)
    (updating : '+' ∈ mode) (sizeT : size < 2 ^ 32) (calls : List Call)
    : Behaves size calls s ⟨s.buf.buf, s.currentOffset.toNat⟩
      ↔ ∀ call ∈ calls, call.Right size := by
  have stands := fmemopen_stands opened updating sizeT
  generalize (⟨s.buf.buf, s.currentOffset.toNat⟩ : Tape) = t at stands ⊢
  clear opened
  induction calls generalizing s t with
  | nil => simp [Behaves]
  | cons call calls ih =>
    rw [forall_mem_cons]
    constructor
    · intro behaves
      have right := right_of_behaves stands
        ⟨behaves.1, behaves.2.1, behaves.2.2.1, behaves.2.2.2.1, behaves.2.2.2.2.1, trivial⟩
      exact ⟨right, (ih _ (stands.step right).stands).mp behaves.2.2.2.2.2⟩
    · rintro ⟨right, rest⟩
      obtain ⟨result, next, io⟩ := stands.step right
      exact ⟨result, next.data, next.offset, next.inside, congrArg _ io, (ih _ next).mpr rest⟩

def silent : Descriptor := ⟨[], fun _ => 0, fun _ => 0, 0⟩

theorem fmemopen_behaves_reread
    : ∃ s, fmemopen silent true (fun _ => 7) 4 ['r', '+'] = some s
        ∧ Behaves 4 [.fputc 9, .fseeko 0 .seekSet, .fread 1 4] s ⟨fun _ => 7, 0⟩ := by
  have opened : fmemopen silent true (fun _ => 7) 4 ['r', '+'] = some _ := rfl
  exact ⟨_, opened, (fmemopen_behaves_iff opened (by decide) (by decide) _).mpr (by simp [Right])⟩

/-- A seek to the last byte goes one byte behind the end. -/
theorem fmemopen_seek_end
    : ∃ s, fmemopen silent true (fun _ => 7) 4 ['r', '+'] = some s
        ∧ (fseeko (-1) .seekEnd s).1 = true
        ∧ (fseeko (-1) .seekEnd s).2.currentOffset = 5
        ∧ ¬ Behaves 4 [.fseeko (-1) .seekEnd] s ⟨fun _ => 7, 0⟩ := by
  refine ⟨_, rfl, rfl, rfl, ?_⟩
  rintro ⟨-, -, offset, -⟩
  exact absurd offset (by decide)

end UnstableOS.Libc.Stdio
