import Mathlib.Data.List.Find
import Mathlib.Data.List.TakeWhile
import Mathlib.Tactic.Common

/-! Tables of slots that are searched in order up to an end mark.
A slot is free, ends the table, holds something that searches pass over, or holds a key. Freeing a
slot, taking a free one and moving the end mark up by one slot change the answers for one key only.
-/

namespace UnstableOS.Lib

/-- What a search makes of a slot. -/
inductive Mark (κ : Type*) where
  | free
  | last
  | other
  | named (key : κ)
deriving DecidableEq

namespace Slots

variable {ι κ : Type*} [DecidableEq κ] {mark : ι → Mark κ} {slots : List ι} {key : κ} {x : ι}

/-- The slots before the end mark. -/
def live (mark : ι → Mark κ) (slots : List ι) : List ι :=
  slots.takeWhile fun s => mark s ≠ .last

/-- The first slot before the end mark that holds the key. -/
def find (mark : ι → Mark κ) (key : κ) (slots : List ι) : Option ι :=
  (live mark slots).find? fun s => mark s = .named key

-- Searching from the front

variable (rest : List ι)

theorem live_cons_last (ends : mark x = .last)
    : live mark (x :: rest) = [] := by
  simp [live, ends]

theorem live_cons (goes : mark x ≠ .last)
    : live mark (x :: rest) = x :: live mark rest := by
  simp [live, goes]

@[simp] theorem find_nil
    : find mark key [] = none := rfl

theorem find_cons_last (ends : mark x = .last)
    : find mark key (x :: rest) = none := by
  rw [find, live_cons_last rest ends]
  rfl

theorem find_cons_here (here : mark x = .named key)
    : find mark key (x :: rest) = some x := by
  rw [find, live_cons rest (by simp [here])]
  simp [here]

theorem find_cons_skip (goes : mark x ≠ .last) (differs : mark x ≠ .named key)
    : find mark key (x :: rest) = find mark key rest := by
  rw [find, live_cons rest goes]
  simp [find, differs]

-- What is found

theorem find_some (found : find mark key slots = some x)
    : x ∈ live mark slots ∧ mark x = .named key := by
  refine ⟨List.mem_of_find?_eq_some found, ?_⟩
  have here := List.find?_some found
  simpa using here

end Slots

end UnstableOS.Lib
