import Mathlib.Data.List.Nodup
import Mathlib.Logic.Function.Iterate

/-! Chains through a successor function that end where a predicate holds.
The successor of each node is stored on its own, so a chain is not disturbed by stores elsewhere,
and a chain that ends visits no node twice.
-/

namespace UnstableOS.Lib

open List

variable {ι : Type*} {next next' : ι → ι} {stop : ι → Prop} {a x : ι} {nodes others : List ι}

/-- (Chain next stop a nodes) holds when following `next` from `a` visits exactly `nodes` and then
comes to an end.
-/
inductive Chain (next : ι → ι) (stop : ι → Prop) : ι → List ι → Prop where
  | done {a : ι} (stops : stop a) : Chain next stop a []
  | step {a : ι} {nodes : List ι} (goes : ¬ stop a) (rest : Chain next stop (next a) nodes)
    : Chain next stop a (a :: nodes)

namespace Chain

section
variable (chain : Chain next stop a nodes)
include chain

theorem unique (other : Chain next stop a others) : nodes = others := by
  induction chain generalizing others with
  | done stops =>
    cases other with
    | done => rfl
    | step goes => exact absurd stops goes
  | step goes _ ih =>
    cases other with
    | done stops => exact absurd stops goes
    | step _ rest => rw [ih rest]

/-- From each of its nodes a chain goes on as before. -/
theorem suffix (mem : x ∈ nodes)
    : ∃ front back, nodes = front ++ x :: back ∧ Chain next stop x (x :: back) := by
  induction chain with
  | done => cases mem
  | @step a rest goes chain ih =>
    rcases mem_cons.mp mem with rfl | later
    · exact ⟨[], rest, rfl, .step goes chain⟩
    · obtain ⟨front, back, split, tail⟩ := ih later
      exact ⟨a :: front, back, by rw [split, cons_append], tail⟩

/-- A chain that ends visits no node twice.
Witness: from a node that came twice the chain would have two lengths.
-/
theorem nodup : nodes.Nodup := by
  induction chain with
  | done => exact nodup_nil
  | @step a rest goes chain ih =>
    refine nodup_cons.mpr ⟨fun again => ?_, ih⟩
    obtain ⟨front, back, split, tail⟩ := chain.suffix again
    have same := tail.unique (.step goes chain)
    have lengths := congrArg length (cons.inj same).2
    rw [split] at lengths
    simp at lengths
    omega

theorem congr (same : ∀ y ∈ nodes, next' y = next y) : Chain next' stop a nodes := by
  induction chain with
  | done stops => exact .done stops
  | @step a rest goes chain ih =>
    refine .step goes ?_
    rw [same a mem_cons_self]
    exact ih fun y mem => same y (mem_cons_of_mem a mem)

end

/-- A chain can be ended at one of its nodes. -/
theorem cut {front rest} (chain : Chain next stop a (front ++ x :: rest))
    (same : ∀ y ∈ front, next' y = next y) (ends : stop (next' x))
    : Chain next' stop a (front ++ [x]) := by
  induction front generalizing a with
  | nil =>
    cases chain with
    | step goes _ => exact .step goes (.done ends)
  | cons first front ih =>
    cases chain with
    | step goes tail =>
      refine .step goes ?_
      rw [same first mem_cons_self]
      exact ih tail fun y mem => same y (mem_cons_of_mem first mem)

theorem stop_iterate (chain : Chain next stop a nodes) : stop (next^[nodes.length] a) := by
  induction chain with
  | done stops => exact stops
  | step _ _ ih => exact ih

theorem drop (chain : Chain next stop a nodes) {n} (within : n ≤ nodes.length)
    : Chain next stop (next^[n] a) (nodes.drop n) := by
  induction n generalizing a nodes with
  | zero => exact chain
  | succ n ih =>
    cases chain with
    | done => exact absurd within (Nat.not_succ_le_zero n)
    | step _ rest => exact ih rest (Nat.le_of_succ_le_succ within)

end Chain

end UnstableOS.Lib
