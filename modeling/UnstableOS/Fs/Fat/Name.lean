import UnstableOS.Kernel.Errno
import Mathlib.Data.List.TakeWhile
import Mathlib.Tactic.Common

/-! Short names, `fat_name_to_short` and `fat_short_to_name`.
A path component is the bytes before its terminating zero.
-/

namespace UnstableOS.Fs.Fat

open Kernel List Nat

/-- The eleven bytes of a name in a directory entry. -/
structure ShortName where
  bytes : List UInt8
  length_eq : bytes.length = 11
deriving DecidableEq

/-- `name[0]`. -/
def ShortName.first (name : ShortName) : UInt8 := name.bytes.headD 0

/-- `FAT_DIR_FREE`. -/
def dirFree : UInt8 := 0xE5

/-- `FAT_DIR_END`. -/
def dirEnd : UInt8 := 0

/-- `'.'`. -/
def dot : UInt8 := 46

/-- `FAT_NAME_BLACKLIST`. -/
def nameBlacklist : List UInt8 :=
  [32, 34, 42, 47, 58, 60, 62, 63, 92, 124, 43, 44, 59, 61, 91, 93, 127, 1, 2, 3, 4, 5, 6, 7, 8, 9,
    10, 11, 12, 13, 14, 15, 16, 17, 18, 19, 20, 21, 22, 23, 24, 25, 26, 27, 28, 29, 30, 31]

/-- `toupper` of the C locale. -/
def toupper (c : UInt8) : UInt8 := if 97 ≤ c ∧ c ≤ 122 then c - 32 else c

/-- One byte of the buffer: the extension is copied over what the base left there. -/
def copiedByte (base ext : List UInt8) (i : ℕ) : UInt8 :=
  if 8 ≤ i ∧ i - 8 < ext.length then ext.getD (i - 8) 0 else base.getD i 32

/-- A first byte that would mark a free entry is stored as another one. -/
def shortByte (base ext : List UInt8) (i : ℕ) : UInt8 :=
  let c := toupper (copiedByte base ext i)
  if i = 0 ∧ c = dirFree then 5 else c

/-- The buffer that `fat_name_to_short` fills. -/
def shortName (base ext : List UInt8) : ShortName :=
  ⟨(List.range 11).map (shortByte base ext), by simp⟩

/-- `fat_name_to_short`. -/
def nameToShort (pathname : List UInt8) : Except Errno ShortName :=
  if pathname.length > 12 then .error .enametoolong
  else if pathname.any (· ∈ nameBlacklist) then .error .eilseq
  else if dot ∉ pathname then
    if pathname.length > 8 then .error .enametoolong else .ok (shortName pathname [])
  else
    let base := pathname.takeWhile (· ≠ dot)
    let ext := pathname.drop (base.length + 1)
    if ext = [] then .error .eilseq
    else if dot ∈ ext then .error .eilseq
    else if ext.length > 3 then .error .eilseq
    else .ok (shortName base ext)

/-- `fat_short_to_name`. -/
def shortToName (name : ShortName) : List UInt8 :=
  let base := (name.bytes.take 8).takeWhile (· ≠ 32)
  let base := base.modifyHead fun c => if c = 5 then dirFree else c
  if name.bytes.getD 8 32 = 32 then base
  else base ++ dot :: (name.bytes.drop 8).takeWhile (· ≠ 32)

-- Going there and back

theorem toupper_eq_iff {c x : UInt8} (low : x < 65) : toupper c = x ↔ c = x := by
  grind [toupper]

theorem takeWhile_map_range {f : ℕ → UInt8} {n k : ℕ} (le : k ≤ n) (before : ∀ i < k, f i ≠ 32)
    (at_end : k < n → f k = 32)
    : ((range n).map f).takeWhile (· ≠ 32) = (range k).map f := by
  obtain ⟨m, rfl⟩ := Nat.exists_eq_add_of_le le
  rw [range_add, map_append, takeWhile_append_of_pos (by simpa using before)]
  cases m with
  | zero => simp
  | succ m => simp [range_succ_eq_map, at_end]

variable {base ext : List UInt8}

/-- The base comes back as its first eight bytes. -/
theorem shortToName_base (clean : ∀ c ∈ base, c ≠ 32 ∧ c ≠ 5)
    : (((shortName base ext).bytes.take 8).takeWhile (· ≠ 32)).modifyHead
        (fun c => if c = 5 then dirFree else c)
      = (base.take 8).map toupper := by
  have byte (i) (low : i < 8) (inside : i < base.length)
      : shortByte base ext i = if i = 0 ∧ toupper base[i] = dirFree then 5
        else toupper base[i] := by
    simp [shortByte, copiedByte, inside, not_le.mpr low]
  have kept (i) (inside : i < base.length) : toupper base[i] ≠ 32 ∧ toupper base[i] ≠ 5 := by
    have := clean _ (getElem_mem inside)
    rwa [ne_eq, ne_eq, toupper_eq_iff (by decide), toupper_eq_iff (by decide)]
  rw [shortName, ← map_take, take_range, takeWhile_map_range (k := min 8 base.length)]
  · apply ext_getElem
    · simp
    · intro i _ short
      simp only [length_map, length_take] at short
      have here := byte i (by omega) (by omega)
      have five := (kept i (by omega)).2
      cases i with
      | zero => by_cases first : toupper base[0] = dirFree <;> simp [here, first, five]
      | succ i => simp [here]
  · omega
  · intro i inside
    rw [byte i (by omega) (by omega)]
    split
    · decide
    · exact (kept i _).1
  · grind [shortByte, copiedByte, toupper, dirFree]

/-- An extension comes back if the base left it its place. -/
theorem shortToName_ext (fits : base.length ≤ 8) (short : ext.length ≤ 3)
    (clean : ∀ c ∈ ext, c ≠ 32)
    : ((shortName base ext).bytes.drop 8).takeWhile (· ≠ 32) = ext.map toupper := by
  have byte (i) (inside : i < ext.length) : shortByte base ext (8 + i) = toupper ext[i] := by
    simp [shortByte, copiedByte, inside]
  have split : (shortName base ext).bytes.drop 8
      = (range 3).map fun i => shortByte base ext (8 + i) := rfl
  rw [split, takeWhile_map_range short]
  · apply ext_getElem <;> grind
  · intro i inside
    rw [byte i inside, ne_eq, toupper_eq_iff (by decide)]
    exact clean _ (getElem_mem inside)
  · grind [shortByte, copiedByte, toupper]

theorem takeWhile_dot (noDot : dot ∉ base) : (base ++ dot :: ext).takeWhile (· ≠ dot) = base := by
  have before : ∀ c ∈ base, decide (c ≠ dot) = true := by grind
  rw [takeWhile_append_of_pos before]
  simp

theorem nameToShort_ok {pathname short} (accepted : nameToShort pathname = .ok short)
    : (∀ c ∈ pathname, c ≠ 32 ∧ c ≠ 5)
      ∧ (dot ∉ pathname ∧ pathname.length ≤ 8 ∧ short = shortName pathname []
        ∨ ∃ base ext, pathname = base ++ dot :: ext ∧ dot ∉ base ∧ ext ≠ [] ∧ ext.length ≤ 3
          ∧ short = shortName base ext) := by
  unfold nameToShort at accepted
  dsimp only at accepted
  split_ifs at accepted with _ listed hasDot nonempty _ long
  all_goals
    refine ⟨fun c mem => ?_, ?_⟩
    · constructor <;> rintro rfl <;> exact listed (any_eq_true.mpr ⟨_, mem, by decide⟩)
  · obtain ⟨base, ext, rfl, noDot⟩ := eq_append_cons_of_mem hasDot
    have after : (base ++ dot :: ext).drop (base.length + 1) = ext := by simp
    rw [takeWhile_dot noDot, after] at nonempty long accepted
    cases accepted
    exact .inr ⟨base, ext, rfl, noDot, nonempty, by omega, rfl⟩
  · cases accepted
    exact .inl ⟨hasDot, by omega, rfl⟩

/-- The name comes back if and only if nothing of its base was cut off. -/
theorem shortToName_eq_iff {pathname short} (accepted : nameToShort pathname = .ok short)
    : shortToName short = pathname.map toupper ↔ (pathname.takeWhile (· ≠ dot)).length ≤ 8 := by
  obtain ⟨clean, ⟨noDot, fits, rfl⟩ | ⟨base, ext, rfl, noDot, nonempty, few, rfl⟩⟩ :=
    nameToShort_ok accepted
  · have whole : pathname.takeWhile (· ≠ dot) = pathname :=
      takeWhile_eq_self_iff.mpr (by grind)
    rw [whole, shortToName, shortToName_base clean, if_pos, take_of_length_le fits]
    · exact iff_of_true rfl fits
    · have ninth : shortByte pathname [] 8 = 32 := by grind [shortByte, copiedByte, toupper]
      exact ninth
  · rw [takeWhile_dot noDot]
    rw [forall_mem_append, forall_mem_cons] at clean
    rw [shortToName, shortToName_base clean.1, if_neg, map_append, map_cons]
    · constructor
      · intro same
        by_contra long
        have inside : 8 < base.length := by omega
        have ninth := congrArg (·[8]?) same
        simp [getElem?_append, min_eq_left inside.le, inside] at ninth
        rw [eq_comm, toupper_eq_iff (by decide)] at ninth
        exact noDot (ninth ▸ getElem_mem inside)
      · intro fits
        rw [shortToName_ext fits few fun c mem => (clean.2.2 c mem).1, take_of_length_le fits]
        rfl
    · obtain ⟨c, rest, rfl⟩ := exists_cons_of_ne_nil nonempty
      have ninth : shortByte base (c :: rest) 8 = toupper c := by simp [shortByte, copiedByte]
      rw [show (shortName base (c :: rest)).bytes.getD 8 32 = toupper c from ninth,
        toupper_eq_iff (by decide)]
      exact (clean.2.2 c mem_cons_self).1

/-- A name that is accepted comes back, in upper case, if and only if the part before its dot has
at most eight bytes, which is not asked for when there is a dot. Names that come back are the same
but for case if their short names are.
-/
theorem shortToName_iff {pathname short} (accepted : nameToShort pathname = .ok short)
    : (shortToName short = pathname.map toupper ↔ (pathname.takeWhile (· ≠ dot)).length ≤ 8)
      ∧ ∀ other, nameToShort other = .ok short → (pathname.takeWhile (· ≠ dot)).length ≤ 8
        → (other.takeWhile (· ≠ dot)).length ≤ 8
        → pathname.map toupper = other.map toupper := by
  refine ⟨shortToName_eq_iff accepted, fun other same fits fitsOther => ?_⟩
  rw [← (shortToName_eq_iff accepted).mpr fits, (shortToName_eq_iff same).mpr fitsOther]

theorem shortToName_letters
    : ∃ short, nameToShort [97, dot, 98] = .ok short ∧ shortToName short = [65, dot, 66] :=
  ⟨_, rfl, (@shortToName_iff [97, dot, 98] _ rfl).1.mpr (by decide)⟩

/-- `abcdefghi.c` and `abcdefgh.c` have one short name. -/
theorem longBase_collides
    : nameToShort [97, 98, 99, 100, 101, 102, 103, 104, 105, dot, 99]
        = nameToShort [97, 98, 99, 100, 101, 102, 103, 104, dot, 99]
      ∧ (nameToShort [97, 98, 99, 100, 101, 102, 103, 104, 105, dot, 99]).map shortToName
        = .ok [65, 66, 67, 68, 69, 70, 71, 72, dot, 67] := by
  decide

end UnstableOS.Fs.Fat
