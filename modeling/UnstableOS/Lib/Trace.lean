import Mathlib.Data.List.Basic
import Mathlib.Logic.Relation

/-! Traces of a deterministic step function, and when a property holds along them.
A property is tied to a condition on the calls by an invariant that the calls meeting the
condition keep, such that a call that does not meet it leaves a state without the property.
-/

namespace UnstableOS.Lib

open List Option

variable {σ α : Type*}

/-- The states a sequence of calls goes through, the first one included, if every call can be
made.
-/
def trace (step : σ → α → Option σ) : σ → List α → Option (List σ)
  | s, [] => some [s]
  | s, call :: rest =>
    match step s call with
    | none => none
    | some s' => (trace step s' rest).map (s :: ·)

/-- (AllSafe step safe s calls) holds when every call meets the condition in the state it is
made in.
-/
def AllSafe (step : σ → α → Option σ) (safe : σ → α → Prop) : σ → List α → Prop
  | _, [] => True
  | s, call :: rest => safe s call ∧ ∀ s', step s call = some s' → AllSafe step safe s' rest

variable {step : σ → α → Option σ} {safe : σ → α → Prop} {s : σ} {calls : List α}
  {states : List σ}

/-- A trace of a nonempty sequence is a first call and the trace after it. -/
theorem trace_cons {call} (run : trace step s (call :: calls) = some states)
    : ∃ s' later, step s call = some s' ∧ trace step s' calls = some later
        ∧ states = s :: later := by
  simp only [trace] at run
  split at run
  · cases run
  next s' done =>
    obtain ⟨later, tail, rfl⟩ := map_eq_some_iff.mp run
    exact ⟨s', later, done, tail, rfl⟩

/-- A condition that can be checked for one call can be checked for a sequence. -/
instance AllSafe.decidable [∀ s call, Decidable (safe s call)]
    : (s : σ) → (calls : List α) → Decidable (AllSafe step safe s calls)
  | _, [] => isTrue trivial
  | s, call :: rest =>
    match done : step s call with
    | none =>
      decidable_of_iff (safe s call)
        ⟨fun isSafe => ⟨isSafe, fun _ made => (nomatch done.symm.trans made)⟩, And.left⟩
    | some s' =>
      have := AllSafe.decidable s' rest
      decidable_of_iff (safe s call ∧ AllSafe step safe s' rest) (by simp [AllSafe, done])

theorem head_mem_trace (run : trace step s calls = some states) : s ∈ states := by
  cases calls with
  | nil =>
    cases run
    exact mem_cons_self
  | cons call rest =>
    obtain ⟨_, later, _, _, rfl⟩ := trace_cons run
    exact mem_cons_self

theorem exists_of_isSome {o : Option α} {holds : α → Prop} (isSome : o.isSome)
    (all : ∀ x, o = some x → holds x)
    : ∃ x, o = some x ∧ holds x := by
  obtain ⟨x, same⟩ := isSome_iff_exists.mp isSome
  exact ⟨x, same, all x same⟩

theorem guarded {p : Prop} [Decidable p] {x y : α} (done : (if p then some x else none) = some y)
    : p ∧ x = y := by
  simpa using done

/-- What can be reached is the end of a trace. -/
theorem exists_trace {s'}
    (reached : Relation.ReflTransGen (fun s s' => ∃ call, step s call = some s') s s')
    : ∃ calls states, trace step s calls = some states ∧ s' ∈ states := by
  induction reached using Relation.ReflTransGen.head_induction_on with
  | refl => exact ⟨[], [s'], rfl, mem_singleton_self s'⟩
  | @head s _ first _ ih =>
    obtain ⟨call, done⟩ := first
    obtain ⟨calls, states, tail, mem⟩ := ih
    exact ⟨call :: calls, s :: states, by simp [trace, done, tail], mem_cons_of_mem s mem⟩

theorem allSafe_iff_forall {safe} (run : trace step s calls = some states)
    : AllSafe step (fun _ => safe) s calls ↔ ∀ call ∈ calls, safe call := by
  induction calls generalizing s states with
  | nil => simp [AllSafe]
  | cons call rest ih =>
    obtain ⟨s', later, done, tail, rfl⟩ := trace_cons run
    simp [AllSafe, done, ih tail]

/-- Safe calls keep the invariant along the trace. -/
theorem trace_forall (Inv : σ → Prop)
    (keep : ∀ {s s'} {call}, Inv s → step s call = some s' → safe s call → Inv s')
    (inv : Inv s) (run : trace step s calls = some states) (allSafe : AllSafe step safe s calls)
    : ∀ state ∈ states, Inv state := by
  induction calls generalizing s states with
  | nil =>
    cases run
    simpa using inv
  | cons call rest ih =>
    obtain ⟨s', later, done, tail, rfl⟩ := trace_cons run
    exact forall_mem_cons.mpr ⟨inv, ih (keep inv done allSafe.1) tail (allSafe.2 s' done)⟩

/-- Steps keep the invariant along the trace, whatever the calls. -/
theorem trace_forall_mem (Inv : σ → Prop)
    (keep : ∀ {s s'} {call}, Inv s → step s call = some s' → Inv s')
    (inv : Inv s) (run : trace step s calls = some states)
    : ∀ state ∈ states, Inv state := by
  have allSafe := (allSafe_iff_forall run).mpr fun _ _ => trivial
  exact trace_forall Inv (fun inv done _ => keep inv done) inv run allSafe

/-- In a sequence of allowed calls the property holds along the trace exactly when every call is
safe.
Witness: induction on the calls; the first call that is not safe is followed by a state without
the property.
-/
theorem trace_forall_iff_within (Allowed : α → Prop) (Inv Good : σ → Prop)
    (good : ∀ {s}, Inv s → Good s)
    (keep : ∀ {s s'} {call}, Allowed call → Inv s → step s call = some s' → safe s call → Inv s')
    (broken : ∀ {s s'} {call}, Allowed call → Inv s → step s call = some s' →
      ¬ safe s call → ¬ Good s')
    (inv : Inv s) (run : trace step s calls = some states) (allowed : ∀ call ∈ calls, Allowed call)
    : (∀ state ∈ states, Good state) ↔ AllSafe step safe s calls := by
  induction calls generalizing s states with
  | nil =>
    cases run
    simpa [AllSafe] using good inv
  | cons call rest ih =>
    obtain ⟨s', later, done, tail, rfl⟩ := trace_cons run
    obtain ⟨first, others⟩ := forall_mem_cons.mp allowed
    simp only [forall_mem_cons, good inv, true_and, AllSafe, done, some.injEq,
      forall_eq']
    by_cases isSafe : safe s call
    · simp only [isSafe, true_and]
      exact ih (keep first inv done isSafe) tail others
    · simp only [isSafe, false_and, iff_false]
      exact fun fine => broken first inv done isSafe (fine s' (head_mem_trace tail))

/-- The property holds along a trace exactly when every call is safe. -/
theorem trace_forall_iff (Inv Good : σ → Prop) (good : ∀ {s}, Inv s → Good s)
    (keep : ∀ {s s'} {call}, Inv s → step s call = some s' → safe s call → Inv s')
    (broken : ∀ {s s'} {call}, Inv s → step s call = some s' → ¬ safe s call → ¬ Good s')
    (inv : Inv s) (run : trace step s calls = some states)
    : (∀ state ∈ states, Good state) ↔ AllSafe step safe s calls :=
  trace_forall_iff_within (fun _ => True) Inv Good good (fun _ => keep) (fun _ => broken) inv run
    (fun _ _ => trivial)

/-- Every call can be made and the property holds along the trace exactly when every call is safe.
Witness: induction on the calls, as for a trace that is known to exist.
-/
theorem trace_total_iff (Inv Good : σ → Prop) (good : ∀ {s}, Inv s → Good s)
    (keep : ∀ {s} {call}, Inv s → safe s call → ∃ s', step s call = some s' ∧ Inv s')
    (broken : ∀ {s s'} {call}, Inv s → ¬ safe s call → step s call = some s' → ¬ Good s')
    (inv : Inv s)
    : (∃ states, trace step s calls = some states ∧ ∀ state ∈ states, Good state)
        ↔ AllSafe step safe s calls := by
  constructor
  · rintro ⟨states, run, fine⟩
    refine (trace_forall_iff Inv Good good (fun inv done isSafe => ?_)
      (fun inv done notSafe => broken inv notSafe done) inv run).mp fine
    obtain ⟨s', made, kept⟩ := keep inv isSafe
    cases made.symm.trans done
    exact kept
  · intro allSafe
    induction calls generalizing s with
    | nil => exact ⟨[s], rfl, by simpa using good inv⟩
    | cons call rest ih =>
      obtain ⟨s', done, kept⟩ := keep inv allSafe.1
      obtain ⟨later, tail, fine⟩ := ih kept (allSafe.2 s' done)
      exact ⟨s :: later, by simp [trace, done, tail], forall_mem_cons.mpr ⟨good inv, fine⟩⟩

end UnstableOS.Lib
