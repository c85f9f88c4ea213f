import UnstableOS.Kernel.Errno
import UnstableOS.Lib.ByteStore
import UnstableOS.Lib.WriteBack

/-! The sector cache in front of the ATA drives (`block/hd.c`): reads and writes at any byte go
through chains of cached sectors, the oldest of which are written back and dropped.
Transfers to and from the drives succeed. Whether there is memory for a sector is asked of each
call.
-/

namespace UnstableOS.Block.Hd

open Kernel Lib Lib.WriteBack

-- Drives

/-- `struct ata_drive`. -/
structure Drive where
  sectorSize : ℕ
  sectorCount : ℕ
  sectorSize_pos : 0 < sectorSize

/-- `ata_buses`: the drives that are present. -/
abbrev Buses := ℕ → ℕ → Option Drive

def MAJOR (dev : ℕ) : ℕ := dev >>> 10
def MINOR (dev : ℕ) : ℕ := dev &&& 0x3FF
def DEV_MAJ_BLOCK0 : ℕ := 1
def DEV_MAJ_BLOCK3 : ℕ := 4
def DRIVE_PART_LIMIT : ℕ := 128
def ATA_BUSID (dev : ℕ) : ℕ := MAJOR dev - DEV_MAJ_BLOCK0
def ATA_DRIVEID (dev : ℕ) : ℕ := MINOR dev / DRIVE_PART_LIMIT

/-- `hd_get_ata_drive`. -/
def hdGetAtaDrive (buses : Buses) (dev : ℕ) : Option Drive :=
  if MAJOR dev > DEV_MAJ_BLOCK3 ∨ MAJOR dev < DEV_MAJ_BLOCK0 then none
  else if MINOR dev % DRIVE_PART_LIMIT ≠ 0 then none
  else if ATA_BUSID dev ≥ 2 ∨ ATA_DRIVEID dev ≥ 2 then none
  else buses (ATA_BUSID dev) (ATA_DRIVEID dev)

-- The cache

def HD_SECTOR_BUCKETS : ℕ := 256
def HD_SECTOR_LL_DEPTH : ℕ := 5

/-- `hd_get_key`; that the numbers have 64 bits does not concern the remainder. -/
@[irreducible]
def hdGetKey (dev lba : ℕ) : ℕ := ((dev * 1103515245) ^^^ (lba * 5838519855)) % HD_SECTOR_BUCKETS

/-- A sector, by the device and its number. -/
abbrev Sector := ℕ × ℕ

/-- Where a sector is on the drives. -/
def place (sector : Sector) : ℕ × ℕ × ℕ := (ATA_BUSID sector.1, ATA_DRIVEID sector.1, sector.2)

/-- The chain of a sector. -/
def bucket (sector : Sector) : ℕ := hdGetKey sector.1 sector.2

/-- `struct hd_sector_cache`. -/
abbrev Entry := Line Sector (List UInt8)

/-- The sectors of the drives, and the chains of the cache, oldest entry first. A chain is empty
while the `data` of its first entry is `NULL`.
-/
abbrev State := Cache ℕ (ℕ × ℕ × ℕ) Sector (List UInt8)

/-- `hd_cache_flush_entry`. -/
def hdCacheFlushEntry (s : State) (entry : Entry) : State :=
  if !entry.dirty then s
  else
    (s.writeLine place entry).setChain (bucket entry.key)
      (updateFirst entry.key (fun entry => { entry with dirty := false })
        (s.chains (bucket entry.key)))

/-- `hd_cache_flush`. -/
def hdCacheFlush (s : State) : State :=
  (List.range HD_SECTOR_BUCKETS).foldl (fun s i => (s.chains i).foldl hdCacheFlushEntry s) s

/-- The part of `hd_cache_set` that drops the oldest entry: its successor is copied over it. -/
def dropOldest (s : State) (i : ℕ) : State :=
  match s.chains i with
  | [] => s
  | oldest :: rest => (if oldest.dirty then hdCacheFlushEntry s oldest else s).setChain i rest

/-- `hd_cache_set`. There is memory for a new entry of a chain; without it a `kassert` fires and the
kernel halts.
-/
def hdCacheSet (s : State) (sector : Sector) (data : List UInt8) (dirty : Bool) : State :=
  let i := bucket sector
  if s.chains i = [] then s.setChain i [⟨sector, dirty, data⟩]
  else
    match s.find bucket sector with
    | some entry =>
      let s := if entry.dirty then hdCacheFlushEntry s entry else s
      s.setChain i (updateFirst sector (fun entry => { entry with dirty := dirty, value := data })
        (s.chains i))
    | none =>
      let llLen := (s.chains i).length
      let s := s.setChain i (s.chains i ++ [⟨sector, dirty, data⟩])
      if llLen > HD_SECTOR_LL_DEPTH then dropOldest s i else s

/-- `hd_read_and_cache_ata` for a sector that memory has been found for. -/
def hdReadAndCacheAta (s : State) (sector : Sector) : State :=
  hdCacheSet s sector (s.backing (place sector)) false

-- Reads and writes

def SSIZE_MAX : ℕ := 2147483647

/-- The arguments of a call: the device, where kalloc finds memory for a sector, and the range. -/
structure Request where
  dev : ℕ
  drive : Drive
  memory : ℕ → Bool
  offset : ℕ
  count : ℕ

namespace Request

variable (r : Request)

/-- Where the rest of the range begins in its sector. -/
def inSector (done : ℕ) : ℕ := (r.offset + done) % r.drive.sectorSize

/-- How many bytes are copied in one iteration. -/
def chunk (done : ℕ) : ℕ :=
  if r.inSector done ≠ 0 then
    if r.drive.sectorSize - r.inSector done < r.count - done
      then r.drive.sectorSize - r.inSector done
    else r.count - done
  else if r.drive.sectorSize > r.count - done then r.count - done
  else r.drive.sectorSize

/-- How many bytes are counted after one iteration. -/
def advance (done : ℕ) : ℕ :=
  if r.inSector done ≠ 0 then
    if r.drive.sectorSize - r.inSector done < r.count - done then
      done + (r.drive.sectorSize - r.inSector done)
    else done + r.count
  else if r.drive.sectorSize > r.count - done then done + (r.count - done)
  else done + r.drive.sectorSize

/-- The number of sectors the loop goes through. -/
def sectors : ℕ :=
  min ((r.offset + r.count + r.drive.sectorSize - 1) / r.drive.sectorSize) r.drive.sectorCount
    - r.offset / r.drive.sectorSize

/-- The label `lookup_again` in `hd_read_ata`, with a bound on how often it is reached. -/
def readLookup (lba : ℕ) : ℕ → State → Option (Except Errno Entry × State)
  | 0, _ => none
  | n + 1, s =>
    match s.find bucket (r.dev, lba) with
    | some cached => some (.ok cached, s)
    | none =>
      if !r.memory lba then some (.error .enomem, s)
      else readLookup lba n (hdReadAndCacheAta s (r.dev, lba))

/-- The loop of `hd_read_ata`, with the bytes that are in `buf`. -/
def readLoop : ℕ → ℕ → ℕ → List UInt8 → State → Option (Except Errno (ℕ × List UInt8) × State)
  | 0, _, read, buf, s => some (.ok (read, buf), s)
  | n + 1, lba, read, buf, s =>
    match r.readLookup lba 2 s with
    | none => none
    | some (.error error, s) => some (.error error, s)
    | some (.ok cached, s) =>
      readLoop n (lba + 1) (r.advance read)
        (buf ++ (cached.value.drop (r.inSector read)).take (r.chunk read)) s

/-- `memcpy` into the data of a sector. -/
def patch (data : List UInt8) (first : ℕ) (bytes : List UInt8) : List UInt8 :=
  data.take first ++ bytes ++ data.drop (first + bytes.length)

/-- The label `lookup_again` in `hd_write_ata` and the rest of the iteration. The result is the new
`written`.
-/
def writeSector (sync : Bool) (buf : List UInt8) (lba written : ℕ)
    : ℕ → State → Option (Except Errno ℕ × State)
  | 0, _ => none
  | n + 1, s =>
    match s.find bucket (r.dev, lba) with
    | none =>
      if r.inSector written = 0 ∧ r.count - written ≥ r.drive.sectorSize then
        if !r.memory lba then some (.error .enomem, s)
        else
          let block := (buf.drop written).take r.drive.sectorSize
          -- `ata_write` of the block itself
          let s := if sync then
              hdCacheSet (s.writeLine place ⟨(r.dev, lba), true, block⟩) (r.dev, lba) block false
            else hdCacheSet s (r.dev, lba) block true
          some (.ok (written + r.drive.sectorSize), s)
      else if !r.memory lba then some (.error .enomem, s)
      else writeSector sync buf lba written n (hdReadAndCacheAta s (r.dev, lba))
    | some cached =>
      let bytes := (buf.drop written).take (r.chunk written)
      let change (entry : Entry) : Entry :=
        { entry with dirty := true, value := patch entry.value (r.inSector written) bytes }
      let s := s.setChain (bucket (r.dev, lba))
        (updateFirst (r.dev, lba) change (s.chains (bucket (r.dev, lba))))
      some (.ok (r.advance written), if sync then hdCacheFlushEntry s (change cached) else s)

/-- The loop of `hd_write_ata`. -/
def writeLoop (sync : Bool) (buf : List UInt8) : ℕ → ℕ → ℕ → State → Option (Except Errno ℕ × State)
  | 0, _, written, s => some (.ok written, s)
  | n + 1, lba, written, s =>
    match r.writeSector sync buf lba written 2 s with
    | none => none
    | some (.error error, s) => some (.error error, s)
    | some (.ok written, s) => writeLoop sync buf n (lba + 1) written s

end Request

/-- The result of a call. -/
inductive Result where
  | read (count : ℕ) (bytes : List UInt8)
  | written (count : ℕ)
  | flushed
  | error (error : Errno)
deriving DecidableEq

/-- `hd_read_ata`. -/
def hdReadAta (buses : Buses) (s : State) (dev : ℕ) (memory : ℕ → Bool) (offset count : ℕ)
    : Option (Result × State) :=
  let count := if count > SSIZE_MAX then SSIZE_MAX else count
  if count = 0 then some (.read 0 [], s)
  else
    match hdGetAtaDrive buses dev with
    | none => some (.error .enodev, s)
    | some drive =>
      let r : Request := ⟨dev, drive, memory, offset, count⟩
      (r.readLoop r.sectors (offset / drive.sectorSize) 0 [] s).map fun
        | (.ok (read, bytes), s) => (.read read bytes, s)
        | (.error error, s) => (.error error, s)

/-- `hd_write_ata` of the bytes of a buffer. -/
def hdWriteAta (buses : Buses) (s : State) (dev : ℕ) (memory : ℕ → Bool) (sync : Bool) (offset : ℕ)
    (buf : List UInt8) : Option (Result × State) :=
  let count := if buf.length > SSIZE_MAX then SSIZE_MAX else buf.length
  if count = 0 then some (.written 0, s)
  else
    match hdGetAtaDrive buses dev with
    | none => some (.error .enodev, s)
    | some drive =>
      let r : Request := ⟨dev, drive, memory, offset, count⟩
      (r.writeLoop sync buf r.sectors (offset / drive.sectorSize) 0 s).map fun
        | (.ok written, s) => (.written written, s)
        | (.error error, s) => (.error error, s)

/-- A call, with where there is memory in it. -/
inductive Call where
  | read (dev : ℕ) (memory : ℕ → Bool) (offset count : ℕ)
  | write (dev : ℕ) (memory : ℕ → Bool) (sync : Bool) (offset : ℕ) (buf : List UInt8)
  | flush

def step (buses : Buses) (s : State) : Call → Option (Result × State)
  | .read dev memory offset count => hdReadAta buses s dev memory offset count
  | .write dev memory sync offset buf => hdWriteAta buses s dev memory sync offset buf
  | .flush => some (.flushed, hdCacheFlush s)

/-- The results of a sequence of calls. -/
def run (buses : Buses) : State → List Call → Option (List Result × State)
  | s, [] => some ([], s)
  | s, call :: rest =>
    (step buses s call).bind fun (result, s) =>
      (run buses s rest).map fun (results, s) => (result :: results, s)

/-- The bytes of the drives, by bus and number, and a cache that is empty. -/
def initial (buses : Buses) (disk : ℕ → ℕ → ByteStore) : State where
  backing := fun (bus, number, lba) =>
    match buses bus number with
    | none => []
    | some drive => (disk bus number).readBytes (lba * drive.sectorSize) drive.sectorSize
  chains := fun _ => []

end UnstableOS.Block.Hd
