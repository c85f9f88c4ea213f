import Mathlib.Data.Finset.Card

/-! Who is where: threads at places, and flags and counters that follow them.
A flag says whether some thread is at one of the places of a predicate, a counter how many are. Each
lemma is about one thread that moves from where it was to `p`.
-/

namespace UnstableOS.Lib

open Function Finset

variable {θ π : Type*} {P X : π → Prop} {pc : θ → π} {t u : θ} {p : π} {n : ℕ}

/-- Some thread is at such a place. -/
def Occupied (P : π → Prop) (pc : θ → π) : Prop := ∃ t, P (pc t)

/-- At most one thread is at such a place. -/
def Single (P : π → Prop) (pc : θ → π) : Prop := ∀ t u, P (pc t) → P (pc u) → t = u

/-- A thread at a place of `X` is the only one at a place of `P`. -/
def Alone (X P : π → Prop) (pc : θ → π) : Prop := ∀ t u, X (pc t) → P (pc u) → u = t

/-- Exactly `n` threads are at such places. -/
def Counts (P : π → Prop) (pc : θ → π) (n : ℕ) : Prop :=
  ∃ threads : Finset θ, (∀ t, t ∈ threads ↔ P (pc t)) ∧ threads.card = n

section Counts
variable (counts : Counts P pc n)
include counts

/-- A thread at such a place is counted. -/
theorem Counts.pos (here : P (pc t)) : 0 < n := by
  obtain ⟨threads, mem, rfl⟩ := counts
  exact card_pos.mpr ⟨t, (mem t).mpr here⟩

/-- Where something is counted there is a thread. -/
theorem Counts.occupied (some : 0 < n) : Occupied P pc := by
  obtain ⟨threads, mem, rfl⟩ := counts
  obtain ⟨t, inside⟩ := card_pos.mp some
  exact ⟨t, (mem t).mp inside⟩

/-- Of two or more threads one is not the given one. -/
theorem Counts.another (more : 1 < n) (t : θ)
    : ∃ u, u ≠ t ∧ P (pc u) := by
  obtain ⟨threads, mem, rfl⟩ := counts
  obtain ⟨u, inside, differs⟩ := exists_mem_ne more t
  exact ⟨u, differs, (mem u).mp inside⟩

/-- A counter of at most one has at most one thread. -/
theorem Counts.single (few : n ≤ 1) : Single P pc := by
  obtain ⟨threads, mem, rfl⟩ := counts
  intro t u first second
  exact card_le_one.mp few t ((mem t).mpr first) u ((mem u).mpr second)

end Counts

section Move

variable [DecidableEq θ]

theorem update_at (Q : π → Prop) (pc : θ → π) (t : θ) (p : π)
    : Q (update pc t p t) ↔ Q p := by
  rw [update_self]

theorem Occupied.arrive (here : P p) : Occupied P (update pc t p) :=
  ⟨t, (update_at P pc t p).mpr here⟩

/-- If the moving thread did not arrive, somebody was there before. -/
theorem Occupied.before (now : Occupied P (update pc t p)) (old : P p → P (pc t))
    : Occupied P pc := by
  obtain ⟨u, there⟩ := now
  rcases eq_or_ne u t with rfl | differs
  · exact ⟨u, old ((update_at P pc u p).mp there)⟩
  · rw [update_of_ne differs] at there
    exact ⟨u, there⟩

/-- Another thread stays where it is. -/
theorem Occupied.remain (there : P (pc u)) (differs : u ≠ t) : Occupied P (update pc t p) :=
  ⟨u, by rwa [update_of_ne differs]⟩

/-- A move within the places, or outside of them, changes nothing. -/
theorem occupied_stay (same : P p ↔ P (pc t))
    : Occupied P (update pc t p) ↔ Occupied P pc := by
  apply exists_congr
  intro u
  rcases eq_or_ne u t with rfl | differs
  · rw [update_self, same]
  · rw [update_of_ne differs]

/-- When the only thread leaves, nobody is left. -/
theorem not_occupied_leave (gone : ¬ P p) (last : ∀ u, P (pc u) → u = t)
    : ¬ Occupied P (update pc t p) := by
  rintro ⟨u, there⟩
  rcases eq_or_ne u t with rfl | differs
  · exact gone ((update_at P pc u p).mp there)
  · rw [update_of_ne differs] at there
    exact differs (last u there)

/-- The first thread to come is the only one. -/
theorem Single.arrive (empty : ¬ Occupied P pc) : Single P (update pc t p) := by
  have only : ∀ u, P (update pc t p u) → u = t := by
    intro u there
    by_contra differs
    rw [update_of_ne differs] at there
    exact empty ⟨u, there⟩
  intro u v first second
  rw [only u first, only v second]

theorem Single.stay (single : Single P pc) (old : P p → P (pc t))
    : Single P (update pc t p) := by
  have before : ∀ u, P (update pc t p u) → P (pc u) := by
    intro u there
    rcases eq_or_ne u t with rfl | differs
    · exact old ((update_at P pc u p).mp there)
    · rwa [update_of_ne differs] at there
  intro u v first second
  exact single u v (before u first) (before v second)

theorem Alone.stay (alone : Alone X P pc) (oldX : X p → X (pc t)) (oldP : P p → P (pc t))
    : Alone X P (update pc t p) := by
  have before : ∀ (Q : π → Prop) (u : θ), (Q p → Q (pc t)) → Q (update pc t p u) → Q (pc u) := by
    intro Q u old there
    rcases eq_or_ne u t with rfl | differs
    · exact old ((update_at Q pc u p).mp there)
    · rwa [update_of_ne differs] at there
  intro u v first second
  exact alone u v (before X u oldX first) (before P v oldP second)

/-- A thread that comes where no other one is. -/
theorem Alone.arrive (nobody : ∀ u, u ≠ t → ¬ P (pc u)) (within : ∀ q, X q → P q)
    : Alone X P (update pc t p) := by
  have only : ∀ u, P (update pc t p u) → u = t := by
    intro u there
    by_contra differs
    rw [update_of_ne differs] at there
    exact nobody u differs there
  intro u v first second
  rw [only u (within _ first), only v second]

/-- A thread that comes to others, none of which wants to be alone. -/
theorem Alone.join (open_ : ¬ Occupied X pc) (notX : ¬ X p)
    : Alone X P (update pc t p) := by
  intro u v first _
  rcases eq_or_ne u t with rfl | differs
  · exact absurd ((update_at X pc u p).mp first) notX
  · rw [update_of_ne differs] at first
    exact absurd ⟨u, first⟩ open_

/-- A move within the places, or outside of them, keeps the count. -/
theorem Counts.stay (counts : Counts P pc n) (same : P p ↔ P (pc t))
    : Counts P (update pc t p) n := by
  obtain ⟨threads, mem, card⟩ := counts
  refine ⟨threads, ?_, card⟩
  intro u
  rw [mem]
  rcases eq_or_ne u t with rfl | differs
  · rw [update_self, same]
  · rw [update_of_ne differs]

/-- A thread that comes counts one more. -/
theorem Counts.arrive (counts : Counts P pc n) (new : ¬ P (pc t)) (here : P p)
    : Counts P (update pc t p) (n + 1) := by
  obtain ⟨threads, mem, rfl⟩ := counts
  refine ⟨insert t threads, ?_, card_insert_of_notMem fun inside => new ((mem t).mp inside)⟩
  intro u
  rw [mem_insert, mem]
  rcases eq_or_ne u t with rfl | differs
  · simp [here]
  · simp [differs]

/-- A thread that leaves counts one less. -/
theorem Counts.leave (counts : Counts P pc n) (old : P (pc t)) (gone : ¬ P p)
    : Counts P (update pc t p) (n - 1) := by
  obtain ⟨threads, mem, rfl⟩ := counts
  refine ⟨threads.erase t, ?_, card_erase_of_mem ((mem t).mpr old)⟩
  intro u
  rw [mem_erase, mem]
  rcases eq_or_ne u t with rfl | differs
  · simp [gone]
  · simp [differs]

end Move

end UnstableOS.Lib
