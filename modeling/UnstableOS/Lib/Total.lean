import UnstableOS.Lib.Trace

/-! Total correctness of programs that may have no result, with a rule for each way to build one.
-/

namespace UnstableOS.Lib

variable {α β : Type*}

/-- (Total program post) holds when the program has a result, and one with the postcondition. -/
def Total (program : Option α) (post : α → Prop) : Prop :=
  ∃ a, program = some a ∧ post a

namespace Total

variable {program : Option α} {post post' : α → Prop} {post₂ : β → Prop}

theorem result {a} (holds : post a) : Total (some a) post :=
  ⟨a, rfl, holds⟩

theorem mono (total : Total program post) (weaker : ∀ a, post a → post' a)
    : Total program post' := by
  obtain ⟨a, done, holds⟩ := total
  exact ⟨a, done, weaker a holds⟩

theorem bind {next} (total : Total program post) (after : ∀ a, post a → Total (next a) post₂)
    : Total (program.bind next) post₂ := by
  obtain ⟨a, rfl, holds⟩ := total
  exact after a holds

theorem map {f} (total : Total program post) (after : ∀ a, post a → post₂ (f a))
    : Total (program.map f) post₂ := by
  obtain ⟨a, rfl, holds⟩ := total
  exact ⟨f a, rfl, after a holds⟩

theorem ite {condition} [Decidable condition] {other}
    (first : condition → Total program post) (second : ¬ condition → Total other post)
    : Total (if condition then program else other) post := by
  split
  next holds => exact first holds
  next fails => exact second fails

/-- An invariant that every call keeps holds along every sequence of calls. -/
theorem trace {σ step Inv} {s : σ}
    (keep : ∀ s call, Inv s → Total (step s call) Inv) (inv : Inv s) (calls : List α)
    : Total (Lib.trace step s calls) fun states => ∀ state ∈ states, Inv state := by
  induction calls generalizing s with
  | nil => exact .result (by simpa using inv)
  | cons call rest ih =>
    obtain ⟨s', done, kept⟩ := keep s call inv
    simp only [Lib.trace, done]
    exact (ih kept).map fun later fine => List.forall_mem_cons.mpr ⟨inv, fine⟩

end Total

end UnstableOS.Lib
