import UnstableOS.Block.Hd.Refinement

/-! Reads and writes of any range of a drive are those of a store of bytes, whatever is cached. -/

namespace UnstableOS.Block.Hd

open Kernel Lib Lib.WriteBack Function Nat List ByteStore Cache Option

-- The pieces of a range

namespace Request

variable {r : Request} {n lba done : ℕ}

theorem inSector_lt (r : Request) (done : ℕ) : r.inSector done < r.drive.sectorSize :=
  mod_lt _ r.drive.sectorSize_pos

/-- There is no memory for one of the sectors. -/
def NoMemory (r : Request) : Prop := ∃ lba, r.memory lba = false

/-- The range of the request is on its drive. -/
def Inside (r : Request) : Prop := r.offset + r.count ≤ r.drive.sectorCount * r.drive.sectorSize

/-- The sector after the last one of the range. -/
def last (r : Request) : ℕ := (r.offset + r.count + r.drive.sectorSize - 1) / r.drive.sectorSize

theorem last_spec (r : Request)
    : r.offset + r.count ≤ r.last * r.drive.sectorSize
        ∧ r.last * r.drive.sectorSize < r.offset + r.count + r.drive.sectorSize := by
  have positive := r.drive.sectorSize_pos
  have division := div_add_mod (r.offset + r.count + r.drive.sectorSize - 1) r.drive.sectorSize
  have small := mod_lt (r.offset + r.count + r.drive.sectorSize - 1) positive
  rw [mul_comm] at division
  change r.last * r.drive.sectorSize + _ = _ at division
  omega

/-- (r.Progress n lba done) holds when the loop has copied the bytes before `done`, is at the sector
of the next one and has `n` sectors ahead.
-/
structure Progress (r : Request) (n lba done : ℕ) : Prop where
  le_count : done ≤ r.count
  here : done < r.count → r.offset + done = lba * r.drive.sectorSize + r.inSector done
  ahead : done < r.count → n + lba = r.last
  aligned : done < r.count → r.inSector done ≠ 0 → done = 0
  finished : done = r.count → n = 0

theorem Progress.start (inside : r.Inside) (positive : 0 < r.count)
    : r.Progress r.sectors (r.offset / r.drive.sectorSize) 0 := by
  obtain ⟨covers, near⟩ := r.last_spec
  have division := div_add_mod r.offset r.drive.sectorSize
  rw [mul_comm] at division
  have onDrive : r.last ≤ r.drive.sectorCount := by
    refine le_of_lt_succ (Nat.lt_of_mul_lt_mul_right (a := r.drive.sectorSize) ?_)
    rw [succ_mul]
    exact lt_of_lt_of_le near (Nat.add_le_add_right inside _)
  have before : r.offset / r.drive.sectorSize ≤ r.last := by
    refine Nat.le_of_mul_le_mul_right (c := r.drive.sectorSize) ?_ r.drive.sectorSize_pos
    omega
  refine ⟨zero_le _, fun _ => division.symm, fun _ => ?_, fun _ _ => rfl,
    fun none => absurd none.symm positive.ne'⟩
  show min r.last r.drive.sectorCount - _ + _ = _
  omega

theorem Progress.complete (progress : r.Progress 0 lba done) : done = r.count := by
  refine le_antisymm progress.le_count (Nat.le_of_not_lt fun short => ?_)
  have here := progress.here short
  rw [show lba = r.last by have := progress.ahead short; omega] at here
  have covers := r.last_spec.1
  omega

/-- What one iteration copies. -/
structure Piece (r : Request) (n lba done : ℕ) : Prop where
  here : r.offset + done = lba * r.drive.sectorSize + r.inSector done
  fits : r.inSector done + r.chunk done ≤ r.drive.sectorSize
  upto : done + r.chunk done ≤ r.count
  advance : r.advance done = done + r.chunk done
  whole : r.inSector done = 0 → r.count - done ≥ r.drive.sectorSize →
    r.chunk done = r.drive.sectorSize
  onDrive : lba < r.drive.sectorCount
  next : r.Progress n (lba + 1) (done + r.chunk done)

theorem Progress.piece (inside : r.Inside) (progress : r.Progress (n + 1) lba done)
    : r.Piece n lba done := by
  have short : done < r.count := by
    refine lt_of_le_of_ne progress.le_count fun equal => ?_
    exact nomatch progress.finished equal
  have here := progress.here short
  have ahead := progress.ahead short
  have small := r.inSector_lt done
  have fits : r.inSector done + r.chunk done ≤ r.drive.sectorSize := by
    unfold chunk
    split_ifs <;> omega
  have upto : done + r.chunk done ≤ r.count := by
    unfold chunk
    split_ifs <;> omega
  have full : done + r.chunk done < r.count
      → r.inSector done + r.chunk done = r.drive.sectorSize := by
    unfold chunk
    split_ifs <;> omega
  have advance : r.advance done = done + r.chunk done := by
    have aligned := progress.aligned short
    unfold advance chunk
    split_ifs <;> omega
  have onDrive : lba < r.drive.sectorCount := by
    refine Nat.lt_of_mul_lt_mul_right (a := r.drive.sectorSize) ?_
    exact lt_of_lt_of_le (by omega) inside
  -- what does not reach the end of the range ends with its sector
  have behind (more : done + r.chunk done < r.count)
      : r.offset + (done + r.chunk done) = (lba + 1) * r.drive.sectorSize := by
    rw [succ_mul]
    omega
  have zero (more : done + r.chunk done < r.count) : r.inSector (done + r.chunk done) = 0 := by
    rw [inSector, behind more, mul_mod_left]
  have last (finished : done + r.chunk done = r.count) : n = 0 := by
    have near := r.last_spec.2
    rw [← ahead, add_mul, succ_mul] at near
    cases n with
    | zero => rfl
    | succ n =>
      rw [succ_mul] at near
      omega
  refine ⟨here, fits, upto, advance, fun zero enough => ?_, onDrive, upto, fun more => ?_,
    fun _ => by omega, fun more notZero => absurd (zero more) notZero, last⟩
  · rw [chunk, if_neg (by omega), if_neg (by omega)]
  · rw [zero more]
    exact behind more

end Request

-- Reads

section Requests
variable {buses : Buses} {s : State} {content : ℕ → ByteStore} {r : Request} {n lba done : ℕ}
variable (isDrive : hdGetAtaDrive buses r.dev = some r.drive)
include isDrive

/-- A sector that is looked up is found the second time at the latest. -/
theorem readLookup_spec (coupled : Coupled buses s content) (onDrive : lba < r.drive.sectorCount)
    : Total (r.readLookup lba 2 s) fun (result, s') => Coupled buses s' content
        ∧ (result = .error .enomem ∧ r.NoMemory ∨ ∃ entry, result = .ok entry
          ∧ entry.value
            = (content r.dev).readBytes (lba * r.drive.sectorSize) r.drive.sectorSize) := by
  have isValid : Valid buses (r.dev, lba) := ⟨r.drive, isDrive, onDrive⟩
  have cached {t : State} {entry : Entry} (coupled : Coupled buses t content)
      (found : t.find bucket (r.dev, lba) = some entry)
      : entry.value = (content r.dev).readBytes (lba * r.drive.sectorSize) r.drive.sectorSize :=
    (view_of_find found).symm.trans (coupled.sees r.dev r.drive isDrive lba onDrive)
  unfold Request.readLookup
  cases found : s.find bucket (r.dev, lba) with
  | some entry => exact .result ⟨coupled, .inr ⟨entry, rfl, cached coupled found⟩⟩
  | none =>
    refine .ite (fun short => .result ⟨coupled, .inl ⟨rfl, lba, ?_⟩⟩) fun _ => ?_
    · exact (Bool.not_eq_true' _).mp short
    obtain ⟨after, present⟩ := coupled.readAndCache found isValid
    obtain ⟨entry, isEntry⟩ := ne_none_iff_exists'.mp present
    rw [Request.readLookup, isEntry]
    exact .result ⟨after, .inr ⟨entry, rfl, cached after isEntry⟩⟩

variable {buf : List UInt8} {first : ℕ}

/-- Witness: induction on the sectors that are ahead. -/
theorem readLoop_spec (inside : r.Inside) {read}
    (coupled : Coupled buses s content) (progress : r.Progress n lba read)
    : Total (r.readLoop n lba read buf s) fun (result, s') => Coupled buses s' content
        ∧ (result = .error .enomem ∧ r.NoMemory ∨ result = .ok (r.count,
          buf ++ (content r.dev).readBytes (r.offset + read) (r.count - read))) := by
  induction n generalizing lba read buf s with
  | zero =>
    refine .result ⟨coupled, .inr ?_⟩
    rw [progress.complete, Nat.sub_self, readBytes, append_nil]
  | succ n ih =>
    have piece := progress.piece inside
    obtain ⟨⟨result, t⟩, looked, after, outcome⟩ := readLookup_spec isDrive coupled piece.onDrive
    rw [Request.readLoop, looked]
    rcases outcome with ⟨rfl, short⟩ | ⟨entry, rfl, value⟩
    · exact .result ⟨after, .inl ⟨rfl, short⟩⟩
    have copied : (entry.value.drop (r.inSector read)).take (r.chunk read)
        = (content r.dev).readBytes (r.offset + read) (r.chunk read) := by
      rw [value, take_drop_readBytes piece.fits, piece.here]
    have upto := piece.upto
    have rest : r.count - read = r.chunk read + (r.count - (read + r.chunk read)) := by omega
    simp only [piece.advance, copied]
    refine (ih after piece.next).mono ?_
    rintro ⟨result, s'⟩ done
    refine ⟨done.1, done.2.imp_right ?_⟩
    rintro rfl
    rw [rest, readBytes_add, append_assoc, add_assoc]

-- Writes

/-- (Wrote buses content r buf first count s') holds when the bytes of the buffer from `first` on
have been written to their places on the drive.
-/
def Wrote (buses : Buses) (content : ℕ → ByteStore) (r : Request) (buf : List UInt8)
    (first count : ℕ)
    (s' : State) : Prop :=
  Coupled buses s' (update content r.dev
    ((content r.dev).writeBytes (r.offset + first) ((buf.drop first).take count)))

omit isDrive in
theorem Wrote.nothing (coupled : Coupled buses s content)
    : Wrote buses content r buf first 0 s := by
  unfold Wrote
  rwa [List.take_zero, ByteStore.writeBytes_nil, update_eq_self]

omit isDrive in
theorem Wrote.append {count more : ℕ} {s' : State} (long : first + count ≤ buf.length)
    (later : Wrote buses (update content r.dev
      ((content r.dev).writeBytes (r.offset + first) ((buf.drop first).take count)))
      r buf (first + count) more s')
    : Wrote buses content r buf first (count + more) s' := by
  unfold Wrote at later ⊢
  have taken : ((buf.drop first).take count).length = count := by
    rw [List.length_take, List.length_drop]
    omega
  rw [update_idem, update_self] at later
  rw [List.take_add, ByteStore.writeBytes_append, taken, List.drop_drop, Nat.add_assoc]
  exact later

section Piece
variable {sync : Bool} {buf : List UInt8} (piece : r.Piece n lba done) (long : r.count ≤ buf.length)
include piece long

omit isDrive in
theorem piece_length : ((buf.drop done).take (r.chunk done)).length = r.chunk done := by
  have upto := piece.upto
  rw [List.length_take, List.length_drop]
  omega

section
variable (coupled : Coupled buses s content)
include coupled

/-- The bytes of a sector change as the loop wants it. -/
theorem Coupled.wrote {s'} (coherent : s'.Coherent place bucket (Valid buses))
    (changed : s'.view place bucket (r.dev, lba) = Request.patch (s.view place bucket (r.dev, lba))
      (r.inSector done) ((buf.drop done).take (r.chunk done)))
    (same : ∀ sector, Valid buses sector → sector ≠ (r.dev, lba) →
      s'.view place bucket sector = s.view place bucket sector)
    : Wrote buses content r buf done (r.chunk done) s' := by
  have fits := piece.fits
  rw [← piece_length piece long] at fits
  have patched := coupled.patched coherent isDrive piece.onDrive fits changed same
  rwa [← piece.here] at patched

/-- The sector is in the cache: its entry is changed, and written back for `O_SYNC`. -/
theorem writeCached_spec {entry : Entry} (found : s.find bucket (r.dev, lba) = some entry) (n : ℕ)
    : Total (r.writeSector sync buf lba done (n + 1) s) fun (result, s') =>
        result = .ok (done + r.chunk done) ∧ Wrote buses content r buf done (r.chunk done) s' := by
  let change (entry : Entry) : Entry := { entry with
    dirty := true
    value := Request.patch entry.value (r.inSector done) ((buf.drop done).take (r.chunk done)) }
  let t := s.setChain (bucket (r.dev, lba))
    (updateFirst (r.dev, lba) change (s.chains (bucket (r.dev, lba))))
  have changed : t.Coherent place bucket (Valid buses) :=
    Coherent.update (fun _ => rfl) coupled.coherent fun _ _ clean => nomatch clean
  have finds (sector : Sector) : t.find bucket sector
      = if sector = (r.dev, lba) then (s.find bucket (r.dev, lba)).map change
        else s.find bucket sector :=
    @Cache.find_update _ _ _ _ _ bucket s (r.dev, lba) _ change (fun _ => rfl) sector
  have isEntry : t.find bucket (r.dev, lba) = some (change entry) := by
    rw [finds, if_pos rfl, found, map_some]
  have seen : t.view place bucket (r.dev, lba) = (change entry).value := view_of_find isEntry
  have wrote : Wrote buses content r buf done (r.chunk done) t := by
    refine coupled.wrote isDrive piece long changed ?_ fun sector _ other =>
      view_congr ((finds sector).trans (if_neg other)) fun _ => rfl
    rw [seen, view_of_find found]
  have isKey := key_of_find found
  rw [Request.writeSector, found]
  refine .result ⟨congrArg Except.ok piece.advance, ?_⟩
  split
  · have isChanged : t.find bucket (change entry).key = some (change entry) := by
      rwa [show (change entry).key = _ from isKey]
    obtain ⟨coherent, _, same⟩ := flushEntry_spec changed isChanged
    exact wrote.unseen coherent same
  · exact wrote

/-- The sector is not in the cache, and all of it is written. -/
theorem writeBlock_spec (missing : s.find bucket (r.dev, lba) = none)
    (whole : r.inSector done = 0 ∧ r.count - done ≥ r.drive.sectorSize)
    : let block := (buf.drop done).take r.drive.sectorSize
      Wrote buses content r buf done (r.chunk done) (if sync then
          hdCacheSet (s.writeLine place ⟨(r.dev, lba), true, block⟩) (r.dev, lba) block false
        else hdCacheSet s (r.dev, lba) block true) := by
  intro block
  have isValid : Valid buses (r.dev, lba) := ⟨r.drive, isDrive, piece.onDrive⟩
  have isBlock : block = (buf.drop done).take (r.chunk done) := by
    rw [piece.whole whole.1 whole.2]
  have blockLength : block.length = r.drive.sectorSize := by
    rw [isBlock, piece_length piece long, piece.whole whole.1 whole.2]
  have before := coupled.sees r.dev r.drive isDrive lba piece.onDrive
  have patched : block = Request.patch (s.view place bucket (r.dev, lba)) (r.inSector done)
      ((buf.drop done).take (r.chunk done)) := by
    rw [← isBlock, before, whole.1, Request.patch, take_zero, nil_append, zero_add,
      blockLength, drop_of_length_le (by simp), append_nil]
  split
  · -- the drive gets the block first, and a clean entry is made for it
    let line : Entry := ⟨(r.dev, lba), true, block⟩
    obtain ⟨written, same⟩ :=
      @Cache.Coherent.writePlace _ _ _ _ _ _ _ _ s line _ place_injective coupled.coherent missing
        isValid
    have missing' : (s.writeLine place line).find bucket (r.dev, lba) = none :=
      (find_writeLine line (r.dev, lba)).trans missing
    obtain ⟨coherent, found, seen⟩ := cacheSet_spec written missing' isValid fun _ =>
      (update_self (place (r.dev, lba)) block s.backing).symm
    refine coupled.wrote isDrive piece long coherent ?_ fun sector isSector other =>
      (seen sector isSector other).trans (same sector isSector other)
    exact (view_of_find found).trans patched
  · have notClean : true = false → block = s.backing (place (r.dev, lba)) := nofun
    obtain ⟨coherent, found, seen⟩ := cacheSet_spec coupled.coherent missing isValid notClean
    exact coupled.wrote isDrive piece long coherent ((view_of_find found).trans patched) seen

end

variable (sync) in
/-- One iteration of the loop. -/
theorem writeSector_spec (coupled : Coupled buses s content)
    : Total (r.writeSector sync buf lba done 2 s) fun (result, s') =>
        (result = .error .enomem ∧ r.NoMemory ∧ Coupled buses s' content)
          ∨ (result = .ok (done + r.chunk done)
            ∧ Wrote buses content r buf done (r.chunk done) s') := by
  cases found : s.find bucket (r.dev, lba) with
  | some entry => exact (writeCached_spec isDrive piece long coupled found 1).mono fun _ => .inr
  | none =>
    have isValid : Valid buses (r.dev, lba) := ⟨r.drive, isDrive, piece.onDrive⟩
    have noMemory (short : (!r.memory lba) = true) : r.NoMemory :=
      ⟨lba, (Bool.not_eq_true' _).mp short⟩
    rw [Request.writeSector, found]
    refine .ite (fun whole => ?_) fun _ => ?_
    · refine .ite (fun short => .result (.inl ⟨rfl, noMemory short, coupled⟩)) fun _ => ?_
      refine .result (.inr ⟨?_, writeBlock_spec isDrive piece long coupled found whole⟩)
      rw [piece.whole whole.1 whole.2]
    · refine .ite (fun short => .result (.inl ⟨rfl, noMemory short, coupled⟩)) fun _ => ?_
      obtain ⟨after, present⟩ := coupled.readAndCache found isValid
      obtain ⟨entry, isEntry⟩ := Option.ne_none_iff_exists'.mp present
      exact (writeCached_spec isDrive piece long after isEntry 0).mono fun _ => .inr

end Piece

/-- All of the rest is written, or a part of it before there is no memory. Witness: induction on the
sectors that are ahead.
-/
theorem writeLoop_spec (inside : r.Inside) {sync}
    (long : r.count ≤ buf.length) (coupled : Coupled buses s content)
    (progress : r.Progress n lba done)
    : Total (r.writeLoop sync buf n lba done s) fun (result, s') =>
        (∃ count, done + count ≤ r.count ∧ (result = .error .enomem ∧ r.NoMemory)
            ∧ Wrote buses content r buf done count s')
          ∨ (result = .ok r.count ∧ Wrote buses content r buf done (r.count - done) s') := by
  induction n generalizing lba done s content with
  | zero =>
    refine .result (.inr ?_)
    rw [progress.complete, Nat.sub_self]
    exact ⟨rfl, Wrote.nothing coupled⟩
  | succ n ih =>
    have piece := progress.piece inside
    have upto := piece.upto
    obtain ⟨⟨result, t⟩, written, outcome⟩ := writeSector_spec isDrive sync piece long coupled
    rw [Request.writeLoop, written]
    rcases outcome with ⟨rfl, short, same⟩ | ⟨rfl, wrote⟩
    · exact .result (.inl ⟨0, progress.le_count, ⟨rfl, short⟩, Wrote.nothing same⟩)
    have joined {more : ℕ} {s' : State} (later : Wrote buses _ r buf (done + r.chunk done) more s')
        : Wrote buses content r buf done (r.chunk done + more) s' :=
      Wrote.append (le_trans upto long) later
    refine (ih wrote piece.next).mono fun (result, s') after => ?_
    rcases after with ⟨count, few, failed, later⟩ | ⟨finished, later⟩
    · exact .inl ⟨r.chunk done + count, by omega, failed, joined later⟩
    · refine .inr ⟨finished, ?_⟩
      rw [show r.count - done = r.chunk done + (r.count - (done + r.chunk done)) by omega]
      exact joined later

end Requests

-- Sequences of calls

/-- The range of a call is on its drive. -/
def Call.Inside (buses : Buses) : Call → Prop
  | .read dev _ offset n => ∀ drive, hdGetAtaDrive buses dev = some drive →
      offset + n ≤ drive.sectorCount * drive.sectorSize
  | .write dev _ _ offset buf => ∀ drive, hdGetAtaDrive buses dev = some drive →
      offset + buf.length ≤ drive.sectorCount * drive.sectorSize
  | .flush => True

/-- (Answers buses content call result content') holds when a call has the result it would have if
the drives were stores of bytes. A call transfers at most `SSIZE_MAX` bytes; a write that there is
no memory for may have written some of its bytes.
-/
inductive Answers (buses : Buses) (content : ℕ → ByteStore)
    : Call → Result → (ℕ → ByteStore) → Prop where
  | read {dev memory offset count}
      : Answers buses content (.read dev memory offset count)
          (.read (min count SSIZE_MAX) ((content dev).readBytes offset (min count SSIZE_MAX)))
            content
  | write {dev memory sync offset buf}
      : Answers buses content (.write dev memory sync offset buf)
        (.written (min buf.length SSIZE_MAX))
          (update content dev
            ((content dev).writeBytes offset (buf.take (min buf.length SSIZE_MAX))))
  | flush : Answers buses content .flush .flushed content
  | readNoDrive {dev memory offset count} (missing : hdGetAtaDrive buses dev = none)
      : Answers buses content (.read dev memory offset count) (.error .enodev) content
  | writeNoDrive {dev memory sync offset buf} (missing : hdGetAtaDrive buses dev = none)
      : Answers buses content (.write dev memory sync offset buf) (.error .enodev) content
  | readFails {dev memory offset count} (short : ∃ lba, memory lba = false)
      : Answers buses content (.read dev memory offset count) (.error .enomem) content
  | writeFails {dev memory sync offset buf} (short : ∃ lba, memory lba = false) (written : ℕ)
      : Answers buses content (.write dev memory sync offset buf) (.error .enomem)
          (update content dev ((content dev).writeBytes offset (buf.take written)))

/-- The results of a sequence of calls on stores of bytes. -/
inductive Follows (buses : Buses)
    : (ℕ → ByteStore) → List Call → List Result → (ℕ → ByteStore) → Prop where
  | nil {content} : Follows buses content [] [] content
  | cons {content between last call result calls results}
      (answers : Answers buses content call result between)
      (follows : Follows buses between calls results last)
      : Follows buses content (call :: calls) (result :: results) last

/-- The drives have the contents themselves. -/
def OnDrives (buses : Buses) (s : State) (content : ℕ → ByteStore) : Prop :=
  ∀ dev drive, hdGetAtaDrive buses dev = some drive → ∀ lba < drive.sectorCount,
    s.backing (place (dev, lba)) = (content dev).readBytes (lba * drive.sectorSize) drive.sectorSize

section Calls
variable {buses : Buses} {s : State} {content : ℕ → ByteStore}

theorem clamped (count : ℕ)
    : (if count > SSIZE_MAX then SSIZE_MAX else count) = min count SSIZE_MAX := by
  split_ifs <;> omega

theorem hdReadAta_spec {dev offset count memory} (coupled : Coupled buses s content)
    (inside : (Call.read dev memory offset count).Inside buses)
    : Total (hdReadAta buses s dev memory offset count) fun (result, s') =>
        Answers buses content (.read dev memory offset count) result content
          ∧ Coupled buses s' content := by
  have answers : Answers buses content (.read dev memory offset count) (.read (min count SSIZE_MAX)
      ((content dev).readBytes offset (min count SSIZE_MAX))) content := .read
  have fewer : min count SSIZE_MAX ≤ count := min_le_left _ _
  unfold hdReadAta
  rw [clamped]
  generalize min count SSIZE_MAX = few at answers fewer
  refine .ite (fun zero => ?_) fun positive => ?_
  · subst zero
    exact .result ⟨answers, coupled⟩
  cases isDrive : hdGetAtaDrive buses dev with
  | none => exact .result ⟨.readNoDrive isDrive, coupled⟩
  | some drive =>
    let r : Request := ⟨dev, drive, memory, offset, few⟩
    have isInside : r.Inside := le_trans (Nat.add_le_add_left fewer offset) (inside drive isDrive)
    have progress := Request.Progress.start isInside (pos_of_ne_zero positive)
    refine (readLoop_spec (r := r) isDrive isInside coupled progress).map fun (result, t) done => ?_
    obtain ⟨after, ⟨rfl, short⟩ | rfl⟩ := done
    · exact ⟨.readFails short, after⟩
    · exact ⟨answers, after⟩

theorem hdWriteAta_spec {dev offset memory sync buf} (coupled : Coupled buses s content)
    (inside : (Call.write dev memory sync offset buf).Inside buses)
    : Total (hdWriteAta buses s dev memory sync offset buf) fun (result, s') => ∃ content',
        Answers buses content (.write dev memory sync offset buf) result content'
          ∧ Coupled buses s' content' := by
  have answers : Answers buses content (.write dev memory sync offset buf)
      (.written (min buf.length SSIZE_MAX)) (update content dev
        ((content dev).writeBytes offset (buf.take (min buf.length SSIZE_MAX)))) := .write
  have fewer : min buf.length SSIZE_MAX ≤ buf.length := min_le_left _ _
  unfold hdWriteAta
  rw [clamped]
  generalize min buf.length SSIZE_MAX = few at answers fewer
  refine .ite (fun zero => ?_) fun positive => ?_
  · subst zero
    refine .result ⟨_, answers, ?_⟩
    rwa [take_zero, writeBytes_nil, update_eq_self]
  cases isDrive : hdGetAtaDrive buses dev with
  | none => exact .result ⟨content, .writeNoDrive isDrive, coupled⟩
  | some drive =>
    let r : Request := ⟨dev, drive, memory, offset, few⟩
    have isInside : r.Inside := le_trans (Nat.add_le_add_left fewer offset) (inside drive isDrive)
    have progress := Request.Progress.start isInside (pos_of_ne_zero positive)
    refine (writeLoop_spec (r := r) isDrive isInside fewer coupled progress).map
      fun (result, t) done => ?_
    obtain ⟨count, _, ⟨rfl, short⟩, wrote⟩ | ⟨rfl, wrote⟩ := done
    · exact ⟨_, .writeFails short count, wrote⟩
    · exact ⟨_, answers, wrote⟩

theorem step_spec {call} (coupled : Coupled buses s content) (inside : call.Inside buses)
    : Total (step buses s call) fun (result, s') => ∃ content',
        Answers buses content call result content' ∧ Coupled buses s' content'
          ∧ (call = .flush → OnDrives buses s' content') := by
  cases call with
  | read dev memory offset count =>
    exact (hdReadAta_spec coupled inside).mono fun _ done => ⟨content, done.1, done.2, nofun⟩
  | write dev memory sync offset buf =>
    refine (hdWriteAta_spec coupled inside).mono fun _ done => ?_
    obtain ⟨content', answers, after⟩ := done
    exact ⟨content', answers, after, nofun⟩
  | flush => exact .result ⟨content, .flush, coupled.flush.1, fun _ => coupled.flush.2⟩

/-- Witness: induction on the calls that follow the earlier ones; the contents are what is seen
through the cache.
-/
theorem run_spec {calls earlier} (coupled : Coupled buses s content)
    (flushed : earlier.getLast? = some .flush → OnDrives buses s content)
    (inside : ∀ call ∈ calls, call.Inside buses)
    : Total (run buses s calls) fun (results, s') => ∃ content',
        Follows buses content calls results content'
          ∧ ((earlier ++ calls).getLast? = some .flush → OnDrives buses s' content') := by
  induction calls generalizing s content earlier with
  | nil =>
    rw [← append_nil earlier] at flushed
    exact .result ⟨content, .nil, flushed⟩
  | cons call rest ih =>
    obtain ⟨insideFirst, insideRest⟩ := forall_mem_cons.mp inside
    refine (step_spec coupled insideFirst).bind fun (result, t) done => ?_
    obtain ⟨between, answers, after, onDrives⟩ := done
    have flushedNow : (earlier ++ [call]).getLast? = some .flush → OnDrives buses t between := by
      rw [getLast?_concat, some.injEq]
      exact onDrives
    refine (ih after flushedNow insideRest).map fun (results, s') later => ?_
    obtain ⟨content', follows, onDrivesLater⟩ := later
    rw [append_assoc, singleton_append] at onDrivesLater
    exact ⟨content', .cons answers follows, onDrivesLater⟩

end Calls

/-- Whatever the drives hold at first and whatever is called, every call returns what it would
return if the drives were stores of bytes, and after a flush they have the bytes of these stores.
-/
theorem cache_transparent (buses : Buses) (disk : ℕ → ℕ → ByteStore) (calls : List Call)
    (inside : ∀ call ∈ calls, call.Inside buses)
    : Total (run buses (initial buses disk) calls) fun (results, s) => ∃ content,
        Follows buses (fun dev => disk (ATA_BUSID dev) (ATA_DRIVEID dev)) calls results content
          ∧ (calls.getLast? = some .flush → OnDrives buses s content) :=
  @run_spec _ _ _ calls [] (Coupled.initial buses disk) nofun inside

/-- One drive of four sectors of four bytes, all of them zero at first. -/
theorem cache_transparent_one_drive
    : let buses : Buses := fun bus number =>
        if bus = 0 ∧ number = 0 then some ⟨4, 4, by decide⟩ else none
      let calls : List Call := [.write 1024 (fun _ => true) false 3 [1, 2, 3, 4, 5, 6],
        .write 1024 (fun _ => true) true 8 [7], .read 1024 (fun _ => true) 2 8, .flush]
      (run buses (initial buses fun _ _ _ => 0) calls).map (·.1)
          = some [.written 6, .written 1, .read 8 [0, 1, 2, 3, 4, 5, 7, 0], .flushed]
        ∧ Total (run buses (initial buses fun _ _ _ => 0) calls) fun (results, s) => ∃ content,
            Follows buses (fun _ _ => 0) calls results content
              ∧ (calls.getLast? = some .flush → OnDrives buses s content) := by
  intro buses calls
  have isDrive : hdGetAtaDrive buses 1024 = some ⟨4, 4, by decide⟩ := rfl
  refine ⟨by decide +kernel, cache_transparent buses _ calls ?_⟩
  have fits {last} (small : last ≤ 16) (drive : Drive)
      (found : hdGetAtaDrive buses 1024 = some drive)
      : last ≤ drive.sectorCount * drive.sectorSize := by
    cases isDrive.symm.trans found
    exact small
  simp only [calls, forall_mem_cons]
  exact ⟨fits (by decide), fits (by decide), fits (by decide), trivial, nofun⟩

end UnstableOS.Block.Hd
