import Mathlib.Data.List.Basic
import Mathlib.Data.List.Induction

/-! `atexit` and the handlers that `exit` calls (`stdlib.c`). The nodes are gone through from the
newest to the oldest, but the handlers of a node in the order of their registration.
-/

namespace UnstableOS.Libc.Atexit

open List

variable {H : Type}

/-- `ATEXIT_HANDLERS_PER_NODE`. -/
def handlersPerNode : ℕ := 32

/-- `atexit` on the nodes, the newest first. A node is its handlers up to `last_func_idx`; the
first one is static.
-/
def atexit (memory : Bool) (func : H) : List (List H) → Option (List (List H))
  | [] => some [[func]]
  | node :: next =>
    if node.length = handlersPerNode then
      if memory then some ([func] :: node :: next) else none
    else some ((node ++ [func]) :: next)

/-- The handlers that `__call_atexit` calls, in order. -/
def callAtexit (nodes : List (List H)) : List H := nodes.flatten

/-- The nodes after some calls of `atexit`, and the handlers of the successful ones. -/
def register (calls : List (Bool × H)) : List (List H) × List H :=
  calls.foldl (fun (nodes, registered) (memory, func) =>
    match atexit memory func nodes with
    | none => (nodes, registered)
    | some nodes => (nodes, registered ++ [func])) ([], [])

/-- The nodes hold the registered handlers; all but the newest are full. -/
inductive Stores : List (List H) → List H → Prop where
  | none : Stores [] []
  | node {next before node} (older : Stores next before)
      (full : before.length = handlersPerNode * next.length)
      (fits : node.length ≤ handlersPerNode)
      : Stores (node :: next) (before ++ node)

variable {nodes : List (List H)} {registered : List H}

theorem Stores.atexit {memory func nodes'} (stores : Stores nodes registered)
    (done : atexit memory func nodes = some nodes')
    : Stores nodes' (registered ++ [func]) := by
  have one : [func].length ≤ handlersPerNode := by simp [handlersPerNode]
  cases stores with
  | none =>
    cases done
    exact .node .none rfl one
  | node older full fits =>
    rw [Atexit.atexit] at done
    split_ifs at done with isFull <;> cases done
    · exact .node (.node older full fits) (by simp [full, isFull, Nat.mul_add]) one
    · rw [append_assoc]
      exact .node older full (by simp; omega)

theorem register_stores (calls : List (Bool × H))
    : Stores (register calls).1 (register calls).2 := by
  induction calls using reverseRecOn with
  | nil => exact .none
  | append_singleton calls call ih =>
    rw [register, foldl_append, ← register]
    dsimp only [foldl]
    split
    next => exact ih
    next _ done => exact ih.atexit done

/-- The handlers of one node. -/
def block (registered : List H) (i : ℕ) : List H :=
  (registered.drop (handlersPerNode * i)).take handlersPerNode

theorem block_append {before node : List H} {n : ℕ} (full : before.length = handlersPerNode * n)
    (fits : node.length ≤ handlersPerNode) (i : ℕ)
    : block (before ++ node) i = if i = n then node else block before i := by
  unfold block
  split_ifs with last
  · rw [last, ← full, drop_left, take_of_length_le fits]
  · have apart := Nat.lt_or_gt_of_ne last
    unfold handlersPerNode at *
    rcases apart with less | more
    · rw [drop_append_of_le_length (by omega), take_append_of_le_length (by simp; omega)]
    · rw [drop_eq_nil_of_le (by simp; omega), drop_eq_nil_of_le (by omega)]

theorem Stores.reversed_iff (stores : Stores nodes registered)
    : callAtexit nodes = registered.reverse
      ↔ ∀ i, (block registered i).reverse = block registered i := by
  induction stores with
  | none => simp [callAtexit, block]
  | @node next before node older full fits ih =>
    have empty : block before next.length = [] := by simp [block, full]
    rw [callAtexit, flatten_cons, reverse_append]
    simp only [block_append full fits]
    constructor
    · intro same i
      obtain ⟨same, rest⟩ := append_inj same (by simp)
      split_ifs
      exacts [same.symm, ih.1 rest i]
    · intro blocks
      have same := blocks next.length
      rw [if_pos rfl] at same
      rw [same, ← ih.2 fun i => ?_, callAtexit]
      obtain rfl | other := eq_or_ne i next.length
      · rw [empty, reverse_nil]
      · simpa [other] using blocks i

/-- The handlers are called in the reverse order of their registration exactly when each node's
handlers read the same in both directions.
-/
theorem exit_reversed_iff (calls : List (Bool × H))
    : callAtexit (register calls).1 = (register calls).2.reverse
      ↔ ∀ i, (block (register calls).2 i).reverse = block (register calls).2 i :=
  (register_stores calls).reversed_iff

/-- The first of two handlers is called first. -/
theorem exit_in_order
    : callAtexit (register [(true, 'a'), (true, 'b')]).1 = ['a', 'b']
      ∧ (register [(true, 'a'), (true, 'b')]).2 = ['a', 'b'] ∧ ['a', 'b'] ≠ ['a', 'b'].reverse := by
  decide

theorem Stores.perm (stores : Stores nodes registered)
    : (callAtexit nodes).Perm registered := by
  induction stores with
  | none => exact .nil
  | node _ _ _ ih => exact (ih.append_left _).trans perm_append_comm

/-- No handler is lost or called more often than it was registered. -/
theorem exit_calls_registered (calls : List (Bool × H))
    : (callAtexit (register calls).1).Perm (register calls).2 :=
  (register_stores calls).perm

end UnstableOS.Libc.Atexit
