import UnstableOS.Lib.ByteStore

/-! The streams of `stdio_file/file_basic.c`, `file_chars.c` and `file_seek.c`.
A character result of `none` is `EOF`, a status of `false` a failed call. The bytes handed to
`write` are not followed, only that the call is made and what it returns.
-/

namespace UnstableOS.Libc.Stdio

open Lib

def fileUngetcArrSize : ℕ := 128

inductive Buffering
  | ionbf
  | iolbf
  | iofbf
deriving DecidableEq

/-- `current_mode`: what the stream was last used for since it was flushed. -/
inductive Use
  | neither
  | reading
  | writing
deriving DecidableEq

inductive Whence
  | seekSet
  | seekCur
  | seekEnd
deriving DecidableEq

/-- The bits `O_RDONLY` and `O_WRONLY` of `mode`. -/
structure Access where
  rdonly : Bool
  wronly : Bool
deriving DecidableEq

structure Ring where
  buf : ByteStore
  head : ℕ
  tail : ℕ
  size : ℕ

namespace Ring

variable (r : Ring)

def empty : Bool := r.head = r.tail

def full : Bool := (r.head = 0 ∧ r.tail = r.size - 1) ∨ r.tail + 1 = r.head

def remain : ℕ :=
  if r.head ≤ r.tail then r.tail - r.head else r.size - r.head + r.tail

def put (c : UInt8) : Ring :=
  { r with buf := r.buf.writeBytes r.tail [c], tail := (r.tail + 1) % r.size }

def dec : Ring := { r with head := (r.head + 1) % r.size }
def decLast : Ring := { r with tail := (r.size + r.tail - 1) % r.size }
def reset : Ring := { r with head := 0, tail := 0 }

end Ring

/-- The open file behind a stream: the bytes that `read` has yet to deliver, how many of them it
is ready to deliver at the time of its `i`-th call, and what `write` and `lseek` return.
-/
structure Descriptor where
  rest : List UInt8
  split : ℕ → ℕ
  answer : ℕ → ℤ
  calls : ℕ

namespace Descriptor

/-- At most as many bytes as asked for, and at least one before the end of the file. -/
def read (d : Descriptor) (n : ℕ) : List UInt8 × Descriptor :=
  let count := min n (max 1 (d.split d.calls))
  (d.rest.take count, { d with rest := d.rest.drop count, calls := d.calls + 1 })

/-- A call of `write` or `lseek`. -/
def ask (d : Descriptor) : ℤ × Descriptor := (d.answer d.calls, { d with calls := d.calls + 1 })

end Descriptor

/-- The fields of `FILE`, with the descriptor in the place of its number. -/
structure Stream where
  io : Descriptor
  buffered : Buffering
  pureBuf : Bool
  currentMode : Use
  buf : Ring
  ungetcBuf : Ring
  mode : Access
  seekable : Bool
  currentOffset : ℤ
  wasEof : Bool
  wasError : Bool

-- Opening

def parseMode (access : Access) : List Char → Option Access
  | [] => some access
  | '+' :: mode => parseMode ⟨true, true⟩ mode
  | c :: mode => if c = 'b' ∨ c = 'e' ∨ c = 'x' then parseMode access mode else none

def fopenGetFlags : List Char → Option Access
  | 'r' :: mode => parseMode ⟨true, false⟩ mode
  | 'w' :: mode => parseMode ⟨false, true⟩ mode
  | 'a' :: mode => parseMode ⟨false, true⟩ mode
  | _ => none

/-- A stream as `memset` and the opening functions leave it. -/
def Stream.fresh (io : Descriptor) (buffered : Buffering) (bytes : ByteStore) (size : ℕ)
    (mode : Access)
    : Stream where
  io := io
  buffered := buffered
  pureBuf := false
  currentMode := .neither
  buf := ⟨bytes, 0, 0, size⟩
  ungetcBuf := ⟨fun _ => 0, 0, 0, fileUngetcArrSize⟩
  mode := mode
  seekable := true
  currentOffset := 0
  wasEof := false
  wasError := false

/-- `bytes` is the memory from the buffer on; without a buffer from the caller (`given`) it is
what `malloc` returned. Descriptor 0 is the one in the zeroed record.
-/
def fmemopen (io : Descriptor) (given : Bool) (bytes : ByteStore) (maxSize : ℕ) (mode : List Char)
    : Option Stream :=
  if maxSize = 0 then none
  else do
    let access ← fopenGetFlags mode
    let truncates := given ∧ mode.head? = some 'w'
    let appends := given ∧ mode.head? = some 'a'
    let stream := Stream.fresh io .ionbf (if truncates then bytes.writeBytes 0 [0] else bytes)
      maxSize access
    some
      { stream with
        pureBuf := true
        currentOffset :=
          if appends then ((List.range maxSize).find? fun i => bytes i = 0).getD 0 else 0 }

-- Flushing and the buffers

variable (s : Stream)

def fflush : Bool × Stream :=
  let use := s.currentMode
  let s := { s with
    ungetcBuf := s.ungetcBuf.reset
    currentOffset := max 0 s.currentOffset
    currentMode := .neither }
  if s.pureBuf then (true, s)
  else match use with
    | .reading =>
      let s := { s with buf := s.buf.reset }
      if s.seekable then
        let (ret, io) := s.io.ask
        let s := { s with io := io }
        if ret = -1 then (false, { s with wasError := true })
        else if ret < s.currentOffset then (false, { s with currentOffset := ret, wasEof := true })
        else (true, s)
      else (true, s)
    | .writing =>
      if s.buf.empty then (true, s)
      else
        let (first, io) := s.io.ask
        -- a wrapped buffer takes two calls; the sum of the results is stored in a `size_t`
        let (written, io) :=
          if s.buf.head < s.buf.tail then (first, io) else (first + io.ask.1, io.ask.2)
        let left := s.buf.remain
        let s := { s with io := io, buf := s.buf.reset }
        if written % 2 ^ 32 < left then (false, { s with wasError := true }) else (true, s)
    | .neither => (true, { s with buf := s.buf.reset })

/-- The start of every transfer: a stream used the other way round is flushed first. -/
def Stream.turn (use other : Use) : Stream :=
  { if s.currentMode = other then (fflush s).2 else s with currentMode := use }

def fileGetUngetc : UInt8 × Stream :=
  let ring := s.ungetcBuf.decLast
  (ring.buf ring.tail, { s with ungetcBuf := ring, currentOffset := s.currentOffset + 1 })

def fileGetBuffer : UInt8 × Stream :=
  (s.buf.buf s.buf.head, { s with buf := s.buf.dec, currentOffset := s.currentOffset + 1 })

/-- The result tells that nothing was read. -/
def fileRefillCache : Bool × Stream :=
  let (data, io) := s.io.read s.buf.size
  (data.isEmpty,
    { s with
      io := io
      buf := { s.buf with buf := s.buf.buf.writeBytes 0 data, head := 0, tail := data.length }
      wasEof := s.wasEof || data.isEmpty })

def filePutBuffer (c : UInt8) : Bool × Stream :=
  let s := { s with currentMode := .writing }
  let (flushed, s) := if s.buf.full then fflush s else (true, s)
  if flushed then
    let s := { s with buf := s.buf.put c, currentOffset := s.currentOffset + 1 }
    if s.buffered = .iolbf ∧ c = 10 then fflush s else (true, s)
  else (false, s)

-- Characters

def fgetc : Option UInt8 × Stream :=
  if s.mode.rdonly then
    let s := s.turn .reading .writing
    if !s.ungetcBuf.empty then
      let (c, s) := fileGetUngetc s
      (some c, s)
    else if !s.buf.empty then
      let (c, s) := fileGetBuffer s
      (some c, s)
    else if s.pureBuf then
      if s.currentOffset = s.buf.size then (none, { s with wasEof := true })
      else
        (some (s.buf.buf s.currentOffset.toNat), { s with currentOffset := s.currentOffset + 1 })
    else if s.buffered ≠ .ionbf then
      let (nothing, s) := fileRefillCache s
      if nothing then (none, s)
      else
        let (c, s) := fileGetBuffer s
        (some c, s)
    else
      match s.io.read 1 with
      | ([], io) => (none, { s with io := io, wasEof := true })
      | (c :: _, io) => (some c, { s with io := io, currentOffset := s.currentOffset + 1 })
  else (none, s)

def fputc (c : UInt8) (s : Stream) : Option UInt8 × Stream :=
  if s.mode.wronly then
    let s := s.turn .writing .reading
    if s.buffered = .ionbf then
      if s.pureBuf then
        if s.currentOffset = s.buf.size then (none, { s with wasEof := true })
        else
          (some c,
            { s with
              buf := { s.buf with buf := s.buf.buf.writeBytes s.currentOffset.toNat [c] }
              currentOffset := s.currentOffset + 1 })
      else
        let (ret, io) := s.io.ask
        let s := { s with io := io }
        if ret = -1 then (none, { s with wasError := true })
        else if ret = 0 then (none, { s with wasEof := true })
        else (some c, { s with currentOffset := s.currentOffset + 1 })
    else
      let (stored, s) := filePutBuffer s c
      (if stored then some c else none, s)
  else (none, s)

/-- The loop of `fputs` and `fwrite` over the bytes to buffer, with the number stored. -/
def putAll : List UInt8 → Stream → ℕ × Stream
  | [], s => (0, s)
  | c :: rest, s =>
    let (stored, s) := filePutBuffer s c
    if stored then
      let (count, s) := putAll rest s
      (count + 1, s)
    else (0, s)

def fputs (text : List UInt8) (s : Stream) : Bool × Stream :=
  if s.mode.wronly then
    let s := s.turn .writing .reading
    if s.buffered = .ionbf then
      let (written, io) := s.io.ask
      (0 ≤ written,
        { s with
          io := io
          wasError := s.wasError || written < 0
          wasEof := s.wasEof || (0 ≤ written && written ≠ text.length)
          currentOffset := s.currentOffset + max 0 written })
    else
      let (count, s) := putAll text s
      (count = text.length, s)
  else (false, s)

-- Blocks

/-- `nitems * size` in a `size_t`. -/
def request (size nitems : ℕ) : ℕ := nitems * size % 2 ^ 32

def takeUngetc : ℕ → Stream → List UInt8 × Stream
  | 0, s => ([], s)
  | left + 1, s =>
    if s.ungetcBuf.empty then ([], s)
    else
      let (c, s) := fileGetUngetc s
      let (bytes, s) := takeUngetc left s
      (c :: bytes, s)

def takeChars : ℕ → Stream → List UInt8 × Stream
  | 0, s => ([], s)
  | left + 1, s =>
    match fgetc s with
    | (none, s) => ([], s)
    | (some c, s) =>
      let (bytes, s) := takeChars left s
      (c :: bytes, s)

/-- The branch of `fread` and `fwrite` for memory streams: the number of bytes copied, and the
stream with its new position.
-/
def Stream.advance (left : ℕ) : ℕ × Stream :=
  let room := s.buf.size - s.currentOffset
  if s.currentOffset = s.buf.size then (0, { s with wasEof := true })
  else if room < left then
    (room.toNat, { s with currentOffset := s.buf.size, wasEof := true })
  else (left, { s with currentOffset := s.currentOffset + left })

/-- What `fread` does once the pushed-back bytes are used up. -/
def freadRest (left : ℕ) (s : Stream) : List UInt8 × Stream :=
  if s.buffered = .ionbf then
    if s.pureBuf then
      let (count, next) := s.advance left
      (s.buf.buf.readBytes s.currentOffset.toNat count, next)
    else
      let (bytes, io) := s.io.read left
      (bytes,
        { s with
          io := io
          currentOffset := s.currentOffset + bytes.length
          wasEof := s.wasEof || bytes.length ≠ left })
  else takeChars left s

/-- The number of items, and the bytes stored at `ptr`. -/
def fread (size nitems : ℕ) (s : Stream) : ℕ × List UInt8 × Stream :=
  let total := request size nitems
  if s.mode.rdonly ∧ total ≠ 0 then
    let (pushed, s) := takeUngetc total (s.turn .reading .writing)
    let left := total - pushed.length
    let (bytes, s) := if left = 0 then ([], s) else freadRest left s
    ((pushed ++ bytes).length / size, pushed ++ bytes, s)
  else (0, [], s)

/-- The number of items; `ptr` is the memory the bytes are taken from. -/
def fwrite (ptr : ByteStore) (size nitems : ℕ) (s : Stream) : ℕ × Stream :=
  let total := request size nitems
  if s.mode.wronly ∧ total ≠ 0 then
    let s := s.turn .writing .reading
    if s.buffered = .ionbf then
      if s.pureBuf then
        let (count, next) := s.advance total
        let bytes := ptr.readBytes 0 count
        (count / size,
          { next with
            buf := { next.buf with buf := next.buf.buf.writeBytes s.currentOffset.toNat bytes } })
      else
        let (written, io) := s.io.ask
        let s := { s with io := io }
        if written < 0 then (0, { s with wasError := true })
        else
          (written.toNat / size,
            { s with
              currentOffset := s.currentOffset + written
              wasEof := s.wasEof || written ≠ total })
    else
      let (count, s) := putAll (ptr.readBytes 0 total) s
      (count / size, s)
  else (0, s)

-- Positions

/-- The value of a computation with `off_t`, which has 64 bits. -/
def offT (x : ℤ) : ℤ := x.bmod (2 ^ 64)

theorem offT_eq_self {x} (low : -2 ^ 63 ≤ x) (high : x < 2 ^ 63) : offT x = x :=
  Int.bmod_eq_of_le (by omega) (by omega)

def fseeko (offset : Int64) (whence : Whence) (s : Stream) : Bool × Stream :=
  if s.seekable then
    if s.pureBuf then
      let s := (fflush s).2
      let moveTo (offset : ℤ) : Bool × Stream :=
        if s.buf.size < offset ∨ offset < 0 then (false, s)
        else (true, { s with currentOffset := offset })
      match whence with
      | .seekSet => moveTo offset.toInt
      | .seekCur => moveTo (offT (offset.toInt + s.currentOffset))
      | .seekEnd =>
        if 0 < offset.toInt ∨ s.buf.size < offT (-offset.toInt) then (false, s)
        else (true, { s with currentOffset := offT (s.buf.size - offset.toInt) })
    else
      let (flushed, s) := fflush s
      if flushed then
        let (ret, io) := s.io.ask
        let s := { s with io := io }
        if ret < 0 then (false, s) else (true, { s with currentOffset := ret })
      else (false, s)
  else (false, s)

end UnstableOS.Libc.Stdio
