import Mathlib.Algebra.Order.Ring.Nat
import Mathlib.Data.List.GetD

/-! A store of bytes by address. -/

namespace UnstableOS.Lib

open List Nat

/-- The bytes of a device, by their offset. -/
abbrev ByteStore := ℕ → UInt8

namespace ByteStore

variable {d d' : ByteStore} {a n : ℕ}

/-- The `n` bytes from an address on. -/
def readBytes (d : ByteStore) (a : ℕ) : ℕ → List UInt8
  | 0 => []
  | n + 1 => d a :: d.readBytes (a + 1) n

/-- The store after bytes have been written from an address on. -/
def writeBytes (d : ByteStore) (a : ℕ) (bytes : List UInt8) : ByteStore :=
  fun x => if a ≤ x then bytes.getD (x - a) (d x) else d x

/-- The stores have the same bytes in a range. -/
def SameOn (d d' : ByteStore) (a n : ℕ) : Prop := ∀ i < n, d' (a + i) = d (a + i)

/-- The first byte of the range is the same. -/
theorem SameOn.head (same : SameOn d d' a (n + 1)) : d' a = d a := same 0 (zero_lt_succ n)

/-- So are the others. -/
theorem SameOn.tail (same : SameOn d d' a (n + 1)) : SameOn d d' (a + 1) n := by
  intro i small
  have here := same (i + 1) (by omega)
  rwa [add_assoc, add_comm 1 i]

/-- Reading the range gives the same bytes. -/
theorem SameOn.readBytes_eq (same : SameOn d d' a n) : d'.readBytes a n = d.readBytes a n := by
  induction n generalizing a with
  | zero => rfl
  | succ n ih => rw [readBytes, readBytes, same.head, ih same.tail]

/-- As many bytes are read as asked for. -/
@[simp]
theorem readBytes_length (d : ByteStore) (a n : ℕ) : (d.readBytes a n).length = n := by
  induction n generalizing a with
  | zero => rfl
  | succ n ih => rw [readBytes, length_cons, ih]

variable {bytes : List UInt8} {x : ℕ}

/-- A write changes nothing before its range. -/
theorem writeBytes_of_lt (below : x < a) : d.writeBytes a bytes x = d x :=
  if_neg (by omega)

/-- A write changes nothing behind its range. -/
theorem writeBytes_of_ge (above : a + bytes.length ≤ x) : d.writeBytes a bytes x = d x := by
  rw [writeBytes, if_pos (by omega)]
  rw [getD_eq_getElem?_getD, getElem?_eq_none (by omega), Option.getD_none]

/-- Writing nothing changes nothing. -/
@[simp]
theorem writeBytes_nil (d : ByteStore) (a : ℕ) : d.writeBytes a [] = d := by
  funext x
  rcases lt_or_ge x a with below | above
  · exact writeBytes_of_lt below
  · exact writeBytes_of_ge above

/-- The first byte can be written last. -/
theorem writeBytes_cons (d : ByteStore) (a : ℕ) (b : UInt8) (bytes : List UInt8)
    : d.writeBytes a (b :: bytes) = (d.writeBytes (a + 1) bytes).writeBytes a [b] := by
  funext x
  rcases lt_trichotomy x a with below | same | above
  · rw [writeBytes_of_lt below, writeBytes_of_lt below, writeBytes_of_lt (by omega)]
  · subst x
    simp [writeBytes]
  have next : (d.writeBytes (a + 1) bytes).writeBytes a [b] x = d.writeBytes (a + 1) bytes x :=
    writeBytes_of_ge (succ_le_of_lt above)
  obtain ⟨i, rfl⟩ := Nat.exists_eq_add_of_lt above
  rw [next, writeBytes, writeBytes, if_pos (by omega), if_pos (by omega),
    show a + i + 1 - a = i + 1 by omega, show a + i + 1 - (a + 1) = i by omega,
    getD_cons_succ]

/-- A write keeps a range apart from its own. -/
theorem sameOn_writeBytes {b} (apart : b + n ≤ a ∨ a + bytes.length ≤ b)
    : SameOn d (d.writeBytes a bytes) b n := by
  intro i small
  rcases apart with before | after
  · exact writeBytes_of_lt (by omega)
  · exact writeBytes_of_ge (by omega)

/-- What was written is read back.
Witness: induction on the bytes; the first one is written last.
-/
theorem readBytes_writeBytes (d : ByteStore) (a : ℕ) (bytes : List UInt8)
    : (d.writeBytes a bytes).readBytes a bytes.length = bytes := by
  induction bytes generalizing a with
  | nil => rfl
  | cons b bytes ih =>
    rw [writeBytes_cons, length_cons, readBytes]
    have rest : SameOn (d.writeBytes (a + 1) bytes)
        ((d.writeBytes (a + 1) bytes).writeBytes a [b]) (a + 1) bytes.length :=
      sameOn_writeBytes (.inr (by simp))
    rw [rest.readBytes_eq, ih]
    simp [writeBytes]

/-- A range is read in two parts. -/
theorem readBytes_add (d : ByteStore) (a n m : ℕ)
    : d.readBytes a (n + m) = d.readBytes a n ++ d.readBytes (a + n) m := by
  induction n generalizing a with
  | zero => rw [zero_add, add_zero, readBytes, nil_append]
  | succ n ih =>
    rw [show n + 1 + m = n + m + 1 by omega, readBytes, readBytes, ih, cons_append,
      show a + 1 + n = a + (n + 1) by omega]

/-- A range is written in two parts. -/
theorem writeBytes_append (d : ByteStore) (a : ℕ) (first second : List UInt8)
    : d.writeBytes a (first ++ second)
        = (d.writeBytes a first).writeBytes (a + first.length) second := by
  funext x
  by_cases below : x < a + first.length
  · rw [writeBytes_of_lt below, writeBytes, writeBytes]
    split
    · rw [getD_append _ _ _ _ (by omega)]
    · rfl
  · have above := Nat.le_of_not_lt below
    have kept : d.writeBytes a first x = d x := writeBytes_of_ge above
    rw [writeBytes, writeBytes, if_pos (by omega), if_pos above, kept,
      getD_append_right _ _ _ _ (by omega),
      show x - (a + first.length) = x - a - first.length by omega]

/-- A part of what was read is what is read there. -/
theorem take_drop_readBytes {m} (inside : x + m ≤ n)
    : ((d.readBytes a n).drop x).take m = d.readBytes (a + x) m := by
  obtain ⟨rest, rfl⟩ := Nat.exists_eq_add_of_le inside
  rw [add_assoc, readBytes_add, drop_left' (readBytes_length d a x), readBytes_add,
    take_left' (readBytes_length d (a + x) m)]

/-- A write inside a range replaces a part of it. -/
theorem readBytes_writeBytes_inside (inside : x + bytes.length ≤ n)
    : (d.writeBytes (a + x) bytes).readBytes a n
        = (d.readBytes a n).take x ++ bytes ++ (d.readBytes a n).drop (x + bytes.length) := by
  obtain ⟨rest, rfl⟩ := Nat.exists_eq_add_of_le inside
  have before : SameOn d (d.writeBytes (a + x) bytes) a x :=
    sameOn_writeBytes (.inl (le_refl _))
  have behind : SameOn d (d.writeBytes (a + x) bytes) (a + (x + bytes.length)) rest :=
    sameOn_writeBytes (.inr (by omega))
  have taken : (d.readBytes a (x + bytes.length + rest)).take x = d.readBytes a x := by
    rw [add_assoc, readBytes_add, take_left' (readBytes_length d a x)]
  have dropped : (d.readBytes a (x + bytes.length + rest)).drop (x + bytes.length)
      = d.readBytes (a + (x + bytes.length)) rest := by
    rw [readBytes_add, drop_left' (readBytes_length d a _)]
  rw [taken, dropped, readBytes_add, behind.readBytes_eq, readBytes_add, before.readBytes_eq,
    readBytes_writeBytes]

end ByteStore

end UnstableOS.Lib
