import Mathlib.Tactic.Abel

/-! Ledgers of what a call has taken and not given back: references to objects, buffers, and
read locks. The numbers are differences to the beginning of the call.
-/

namespace UnstableOS.Lib

@[ext]
structure Ledger (ι : Type*) where
  refs : ι → ℤ
  buffers : ℤ
  readers : ℤ

namespace Ledger

variable {ι : Type*}

/-- Nothing was taken. -/
def zero : Ledger ι := ⟨0, 0, 0⟩

variable (l : Ledger ι)

/-- A buffer is allocated. -/
def alloc : Ledger ι := { l with buffers := l.buffers + 1 }

def free : Ledger ι := { l with buffers := l.buffers - 1 }

@[simp]
theorem free_alloc : l.alloc.free = l := by
  simp [alloc, free]

/-- A lock is taken for reading. -/
def lock : Ledger ι := { l with readers := l.readers + 1 }

def unlock : Ledger ι := { l with readers := l.readers - 1 }

variable [DecidableEq ι]

/-- A reference is taken. -/
def take (i : ι) : Ledger ι := { l with refs := l.refs + Pi.single i 1 }

def drop (i : ι) : Ledger ι := { l with refs := l.refs - Pi.single i 1 }

@[simp]
theorem drop_take (i : ι) : (l.take i).drop i = l := by
  simp [take, drop]

end Ledger

end UnstableOS.Lib
