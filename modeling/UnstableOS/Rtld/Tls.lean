import Mathlib.Algebra.Ring.Nat
import Mathlib.Data.List.Induction

/-! Thread-local storage: the loader places the modules' TLS segments below the thread control block
(`elf.c`), and a symbol's address comes from a relocation (`relocations.c`) or `___tls_get_addr`
(`tls.c`).
-/

namespace UnstableOS.Rtld.Tls

open List Function

abbrev Word := BitVec 32

/-- `MAX_DTV_ENTRIES`. -/
def maxDtvEntries : Word := 1000

/-- `PROGRAM_MAX_TLS_SIZE`, `(1 << 15) - 256`. -/
def programMaxTlsSize : Word := 0x7f00

/-- A `struct dso` with a TLS segment, with the segment's size in memory. -/
structure Dso where
  dvtid : Word
  tlsStart : Word
  size : Word

structure Loader where
  dvt : Word → Word := fun _ => 0
  dvtIdx : Word := 1
  tlsOffset : Word := 0
  dsos : List Dso := []

/-- The `PT_TLS` case of `loadelf`; a module without such a segment changes nothing here. -/
def loadelf (loader : Loader) (size : Word) : Option Loader :=
  let offset := loader.tlsOffset + size
  let next := loader.dvtIdx + 1
  if next ≤ maxDtvEntries ∧ offset ≤ programMaxTlsSize then
    some ⟨update (update loader.dvt loader.dvtIdx offset) 0 next, next, offset,
      loader.dsos ++ [⟨loader.dvtIdx, offset, size⟩]⟩
  else none

/-- The modules with these TLS segments, one after the other. -/
def loadAll (sizes : List Word) : Option Loader := sizes.foldlM loadelf {}

inductive Rela where
  | tpoff | dtpmod32 | dtpoff32 | tpoff32

/-- What `do_rela` stores for a symbol of the module. -/
def doRela (dso : Dso) (value addend : Word) : Rela → Word
  | .tpoff => -(dso.tlsStart + value + addend)
  | .dtpmod32 => dso.dvtid
  | .dtpoff32 => value + addend
  | .tpoff32 => -(dso.tlsStart + value + addend)

/-- `___tls_get_addr` of the thread with this control block. -/
def tlsGetAddr (dvt : Word → Word) (tcb module offset : Word) : Option Word :=
  if module + 1 > maxDtvEntries then none else some (tcb - dvt module + offset)

/-- The relocations give the thread's copy of a symbol one address: `TPOFF` is added to the thread
pointer and `TPOFF32` subtracted from it.
-/
def SameAddress (dvt : Word → Word) (tcb : Word) (entry : Rela → Word) : Prop :=
  tlsGetAddr dvt tcb (entry .dtpmod32) (entry .dtpoff32) = some (tcb + entry .tpoff)
    ∧ tlsGetAddr dvt tcb (entry .dtpmod32) (entry .dtpoff32) = some (tcb - entry .tpoff32)

/-- No byte belongs to the blocks of both modules. -/
def Apart (tcb : Word) (a b : Dso) : Prop :=
  ∀ i < a.size, ∀ j < b.size, tcb - a.tlsStart + i ≠ tcb - b.tlsStart + j

/-- The number of bytes of some blocks. -/
def total (dsos : List Dso) : ℕ := (dsos.map fun dso => dso.size.toNat).sum

/-- Each block lies below the one before it; the sums of the sizes are cut to words. -/
def Stacked (above : ℕ) : List Dso → Prop
  | [] => True
  | dso :: rest =>
    dso.tlsStart = BitVec.ofNat 32 (above + dso.size.toNat) ∧ Stacked (above + dso.size.toNat) rest

/-- A block that is loaded after the others lies below them. -/
theorem Stacked.concat {above dsos} {dso : Dso} (stacked : Stacked above dsos)
    (start : dso.tlsStart = BitVec.ofNat 32 (above + total dsos + dso.size.toNat))
    : Stacked above (dsos ++ [dso]) := by
  induction dsos generalizing above with
  | nil => exact ⟨by simpa [total] using start, trivial⟩
  | cons first rest ih =>
    refine ⟨stacked.1, ih stacked.2 ?_⟩
    simpa [total, Nat.add_assoc] using start

/-- The bytes of the blocks are numbered downwards from the control block. -/
theorem Stacked.number {above dsos dso i} (stacked : Stacked above dsos) (mem : dso ∈ dsos)
    (inside : i < dso.size)
    : ∃ n, above < n ∧ n ≤ above + total dsos ∧ i - dso.tlsStart = -BitVec.ofNat 32 n := by
  induction dsos generalizing above with
  | nil => cases mem
  | cons first rest ih =>
    obtain ⟨start, stacked⟩ := stacked
    simp only [total, map_cons, sum_cons]
    rcases mem_cons.mp mem with rfl | mem
    · refine ⟨above + dso.size.toNat - i.toNat, by bv_omega, by omega, ?_⟩
      rw [start]
      bv_omega
    · obtain ⟨n, low, high, same⟩ := ih stacked mem
      exact ⟨n, by omega, by simp only [total] at high; omega, same⟩

/-- Every number up to the last one belongs to a byte. -/
theorem Stacked.byte {above dsos n} (stacked : Stacked above dsos) (low : above < n)
    (high : n ≤ above + total dsos)
    : ∃ dso ∈ dsos, ∃ i < dso.size, i - dso.tlsStart = -BitVec.ofNat 32 n := by
  induction dsos generalizing above with
  | nil => exact absurd high (Nat.not_le.mpr low)
  | cons first rest ih =>
    obtain ⟨start, stacked⟩ := stacked
    simp only [total, map_cons, sum_cons] at high
    by_cases here : n ≤ above + first.size.toNat
    · have small := first.size.isLt
      refine ⟨first, mem_cons_self, BitVec.ofNat 32 (above + first.size.toNat - n), ?_, ?_⟩
      · bv_omega
      · rw [start]
        bv_omega
    · obtain ⟨dso, mem, i, inside, same⟩ := ih stacked (by omega) (by simp only [total]; omega)
      exact ⟨dso, mem_cons_of_mem _ mem, i, inside, same⟩

theorem sub_add_eq (tcb start i : Word) : tcb - start + i = tcb + (i - start) := by
  bv_omega

/-- Blocks are apart exactly when all of them together fit into the address space.
Witness: induction on the blocks; bytes with numbers less than 2 ^ 32 apart have two addresses, and
the first byte of a block has the address of the byte that is 2 ^ 32 further down.
-/
theorem Stacked.apart_iff {above dsos} (stacked : Stacked above dsos) (tcb : Word)
    : dsos.Pairwise (Apart tcb) ↔ total dsos ≤ 2 ^ 32 := by
  induction dsos generalizing above with
  | nil => simp [total]
  | cons first rest ih =>
    obtain ⟨start, below⟩ := stacked
    have small := first.size.isLt
    have sum : total (first :: rest) = first.size.toNat + total rest := by
      simp [total]
    rw [pairwise_cons, ih below, sum]
    constructor
    · rintro ⟨apart, fits⟩
      by_contra long
      -- the first block is not empty, and the byte 2 ^ 32 below its uppermost one is in the others
      obtain ⟨dso, mem, j, inside, same⟩ :=
        below.byte (n := above + 2 ^ 32 + 1) (by omega) (by omega)
      refine apart dso mem (first.size - 1) (by bv_omega) j inside ?_
      rw [sub_add_eq tcb dso.tlsStart, same, start]
      bv_omega
    · intro fits
      refine ⟨fun dso mem i inside j inside' same => ?_, by omega⟩
      obtain ⟨n, low, high, number⟩ := below.number mem inside'
      rw [sub_add_eq tcb dso.tlsStart, number, start] at same
      bv_omega

/-- The table leads to the modules, whose blocks are stacked. -/
structure Placed (loader : Loader) : Prop where
  idx : 0 < loader.dvtIdx ∧ loader.dvtIdx ≤ maxDtvEntries
  entry : ∀ dso ∈ loader.dsos, 0 < dso.dvtid ∧ dso.dvtid < loader.dvtIdx
    ∧ loader.dvt dso.dvtid = dso.tlsStart ∧ dso.tlsStart ≤ programMaxTlsSize
  offset : loader.tlsOffset = BitVec.ofNat 32 (total loader.dsos)
  stacked : Stacked 0 loader.dsos

theorem Placed.loadelf {loader size next} (placed : Placed loader)
    (done : loadelf loader size = some next)
    : Placed next ∧ total next.dsos = total loader.dsos + size.toNat := by
  obtain ⟨⟨positive, small⟩, entry, sum, stacked⟩ := placed
  simp only [Tls.loadelf, Option.ite_none_right_eq_some, Option.some.injEq] at done
  obtain ⟨⟨room, offset⟩, rfl⟩ := done
  have step : loader.dvtIdx < loader.dvtIdx + 1 := by
    unfold maxDtvEntries at small
    bv_omega
  have longer : loader.tlsOffset + size = BitVec.ofNat 32 (total loader.dsos + size.toNat) := by
    rw [sum]
    bv_omega
  refine ⟨⟨⟨BitVec.lt_trans positive step, room⟩, ?_, ?_, stacked.concat ?_⟩, by simp [total]⟩
  · simp only [mem_append, mem_singleton]
    rintro dso (mem | rfl)
    · obtain ⟨some, less, same, start⟩ := entry dso mem
      refine ⟨some, BitVec.lt_trans less step, ?_, start⟩
      rw [update_of_ne (BitVec.ne_of_lt some).symm, update_of_ne (BitVec.ne_of_lt less), same]
    · refine ⟨positive, step, ?_, offset⟩
      rw [update_of_ne (BitVec.ne_of_lt positive).symm, update_self]
  · simpa [total] using longer
  · simpa using longer

theorem Placed.loadAll {loader next} {sizes : List Word} (placed : Placed loader)
    (done : sizes.foldlM Tls.loadelf loader = some next)
    : Placed next ∧ total next.dsos = total loader.dsos + (sizes.map BitVec.toNat).sum := by
  induction sizes generalizing loader with
  | nil =>
    cases done
    exact ⟨placed, rfl⟩
  | cons size sizes ih =>
    obtain ⟨middle, first, rest⟩ := Option.bind_eq_some_iff.1 done
    obtain ⟨placedNow, sum⟩ := placed.loadelf first
    obtain ⟨placedLater, sumLater⟩ := ih placedNow rest
    exact ⟨placedLater, by rw [sumLater, sum, map_cons, sum_cons, Nat.add_assoc]⟩

theorem below_iff (tcb start offset : Word)
    : tcb - start + offset = tcb + -(start + offset) ↔ offset + offset = 0 := by
  rw [show tcb + -(start + offset) = tcb - start - offset by bv_omega]
  constructor <;> intro same <;> bv_omega

theorem above_iff (tcb start offset : Word)
    : tcb - start + offset = tcb - -(start + offset) ↔ start + start = 0 := by
  rw [show tcb - -(start + offset) = tcb + start + offset by bv_omega]
  constructor <;> intro same <;> bv_omega

/-- A symbol has the same address through each relocation and `___tls_get_addr` exactly when twice
its offset in the block is zero and its block is above all others; the blocks are apart exactly when
their sizes add up to no more than the address space.
-/
theorem tls_addresses_iff {sizes : List Word} {loader dso}
    (loaded : loadAll sizes = some loader)
    (mem : dso ∈ loader.dsos) (tcb value addend : Word)
    : (SameAddress loader.dvt tcb (doRela dso value addend)
        ↔ value + addend + (value + addend) = 0 ∧ dso.tlsStart = 0)
      ∧ (loader.dsos.Pairwise (Apart tcb) ↔ (sizes.map BitVec.toNat).sum ≤ 2 ^ 32) := by
  have start : Placed {} := ⟨by decide, by simp, rfl, trivial⟩
  obtain ⟨placed, sum⟩ := start.loadAll loaded
  obtain ⟨_, less, same, small⟩ := placed.entry dso mem
  have bound := placed.idx.2
  refine ⟨?_, ?_⟩
  · simp only [SameAddress, doRela, tlsGetAddr, same]
    unfold maxDtvEntries at bound
    unfold programMaxTlsSize at small
    rw [if_neg (by unfold maxDtvEntries; bv_omega), Option.some.injEq, Option.some.injEq]
    rw [BitVec.add_assoc dso.tlsStart, below_iff, above_iff]
    refine and_congr_right fun _ => ⟨fun twice => ?_, fun zero => by rw [zero]; rfl⟩
    bv_omega
  · rw [placed.stacked.apart_iff, sum, total, map_nil, sum_nil, Nat.zero_add]

/-- A module without bytes, then two with some: the first symbol of the first module has one
address, and the blocks are apart.
-/
theorem tls_addresses_three
    : ∃ loader dso, loadAll [0, 8, 16] = some loader ∧ dso ∈ loader.dsos ∧ loader.dsos.length = 3
      ∧ SameAddress loader.dvt 0x1000 (doRela dso 0 0) ∧ loader.dsos.Pairwise (Apart 0x1000) := by
  have first : (⟨1, 0, 0⟩ : Dso) ∈ ([⟨1, 0, 0⟩, ⟨2, 8, 8⟩, ⟨3, 24, 16⟩] : List Dso) := mem_cons_self
  have both := @tls_addresses_iff [0, 8, 16] _ _ rfl first 0x1000 0 0
  exact ⟨_, _, rfl, first, rfl, both.1.mpr (by decide), both.2.mpr (by decide)⟩

/-- Offset 4 in a block of 8 is 4 below the control block, but 12 below or above it by the
relocations.
-/
theorem tls_addresses_differ
    : ∃ loader dso, loadAll [8] = some loader ∧ loader.dsos = [dso]
      ∧ ¬ SameAddress loader.dvt 0x1000 (doRela dso 4 0) :=
  ⟨_, _, rfl, rfl, by unfold SameAddress; decide⟩

end UnstableOS.Rtld.Tls
