import Mathlib.Data.List.Count
import Mathlib.Data.List.Nodup

/-! The number of members of a list that refer to something. -/

namespace UnstableOS.Lib

open Function List

variable {κ ι : Type*} [DecidableEq ι] {members : List κ} {ref ref' : κ → Option ι} {t : κ}
  {x : ι}

/-- How many members refer to `x`. -/
def holders (members : List κ) (ref : κ → Option ι) (x : ι) : ℕ :=
  members.countP fun q => ref q = some x

theorem holders_congr (same : ∀ q ∈ members, ref' q = some x ↔ ref q = some x)
    : holders members ref' x = holders members ref x := by
  apply countP_congr
  intro q mem
  simpa using same q mem

theorem holders_pos (mem : t ∈ members) (held : ref t = some x)
    : 0 < holders members ref x :=
  countP_pos_iff.mpr ⟨t, mem, by simpa using held⟩

theorem holders_eq_zero : holders members ref x = 0 ↔ ∀ q ∈ members, ref q ≠ some x := by
  simp [holders]

theorem holders_append (added : List κ)
    : holders (members ++ added) ref x = holders members ref x + holders added ref x :=
  countP_append

theorem holders_singleton : holders [t] ref x = if ref t = some x then 1 else 0 := by
  simp [holders]

variable [DecidableEq κ]

theorem holders_erase (mem : t ∈ members)
    : holders (members.erase t) ref x + (if ref t = some x then 1 else 0)
        = holders members ref x := by
  have perm := perm_cons_erase mem
  have same := perm.countP_eq fun q => decide (ref q = some x)
  rw [countP_cons] at same
  simpa [holders] using same.symm

/-- One member refers to something else.
Witness: the other members, among which it does not occur again, refer to what they did.
-/
theorem holders_update (nodup : members.Nodup) (mem : t ∈ members) (r : Option ι)
    : holders members (update ref t r) x + (if ref t = some x then 1 else 0)
        = holders members ref x + (if r = some x then 1 else 0) := by
  have others : holders (members.erase t) (update ref t r) x = holders (members.erase t) ref x := by
    apply holders_congr
    intro q rest
    rw [update_of_ne (nodup.mem_erase_iff.mp rest).1]
  have before := @holders_erase κ ι _ members ref t x _ mem
  have after := @holders_erase κ ι _ members (update ref t r) t x _ mem
  rw [update_self, others] at after
  omega

/-- The only member that refers to something. -/
theorem eq_of_holders_one {q} (single : holders members ref x = 1) (mem : t ∈ members)
    (held : ref t = some x) (other : q ∈ members) (holds : ref q = some x)
    : q = t := by
  by_contra differs
  have rest := @holders_erase κ ι _ members ref t x _ mem
  rw [if_pos held, single] at rest
  have inRest := (mem_erase_of_ne differs).mpr other
  have := holders_pos inRest holds
  omega

end UnstableOS.Lib
