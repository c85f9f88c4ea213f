import Mathlib.Data.List.Nodup

/-! Segments of doubly linked lists threaded through two pointer maps.
The pointer maps are total functions, so a store is an update of one of them; `null` ends a
chain. Both a list whose first back link is null and a list whose first back link names the
last node are segments, with different end points.
-/

namespace UnstableOS.Lib

open List

variable {ι : Type*} {null before before' head last after after' node : ι}
  {nxt prv nxt' prv' : ι → ι}
  {nodes rest front back : List ι}

/-- (Segment null nxt prv before head nodes last after) holds when following `nxt` from
`head` visits exactly `nodes` and leaves at `after`, every back link names the predecessor,
the first back link is `before`, and `last` is the last node visited.
-/
def Segment (null : ι) (nxt prv : ι → ι) : ι → ι → List ι → ι → ι → Prop
  | before, head, [], last, after => head = after ∧ before = last
  | before, head, node :: rest, last, after =>
    head = node
    ∧ node ≠ null
    ∧ prv node = before
    ∧ Segment null nxt prv node (nxt node) rest last after

namespace Segment

@[simp] theorem nil_iff
    : Segment null nxt prv before head [] last after ↔ head = after ∧ before = last :=
  Iff.rfl

@[simp] theorem cons_iff
    : Segment null nxt prv before head (node :: rest) last after
      ↔ head = node
        ∧ node ≠ null
        ∧ prv node = before
        ∧ Segment null nxt prv node (nxt node) rest last after :=
  Iff.rfl

/-- Two segments that meet form one segment, and every split of one arises this way. -/
theorem append_iff
    : Segment null nxt prv before head (front ++ back) last after
      ↔ ∃ middle next, Segment null nxt prv before head front middle next
          ∧ Segment null nxt prv middle next back last after := by
  induction front generalizing before head with
  | nil =>
    constructor
    · intro seg
      exact ⟨before, head, ⟨rfl, rfl⟩, seg⟩
    · rintro ⟨middle, next, ⟨rfl, rfl⟩, seg⟩
      exact seg
  | cons node rest ih =>
    simp only [cons_append, cons_iff, ih]
    constructor
    · rintro ⟨same, real, back, middle, next, first, second⟩
      exact ⟨middle, next, ⟨same, real, back, first⟩, second⟩
    · rintro ⟨middle, next, ⟨same, real, back, first⟩, second⟩
      exact ⟨same, real, back, middle, next, first, second⟩

theorem ne_null (seg : Segment null nxt prv before head nodes last after) (mem : node ∈ nodes)
    : node ≠ null := by
  induction nodes generalizing before head with
  | nil => exact absurd mem not_mem_nil
  | cons first rest ih =>
    obtain ⟨_, real, _, tail⟩ := seg
    rcases mem_cons.mp mem with same | later
    · exact same ▸ real
    · exact ih tail later

section
variable (seg : Segment null nxt prv before head nodes last after) (some : nodes ≠ [])
include seg some

theorem head_eq : head = nodes.head some := by
  cases nodes with
  | nil => exact absurd rfl some
  | cons first rest => exact seg.1

theorem head_mem : head ∈ nodes := by
  rw [seg.head_eq some]
  exact List.head_mem some

theorem head_prv : prv head = before := by
  cases nodes with
  | nil => exact absurd rfl some
  | cons first rest => exact seg.1 ▸ seg.2.2.1

theorem last_mem : last ∈ nodes := by
  induction nodes generalizing before head with
  | nil => exact absurd rfl some
  | cons first rest ih =>
    obtain ⟨_, _, _, tail⟩ := seg
    cases rest with
    | nil => simp [← tail.2]
    | cons second more => exact mem_cons_of_mem _ (ih tail (by simp))

theorem last_nxt : nxt last = after := by
  induction nodes generalizing before head with
  | nil => exact absurd rfl some
  | cons first rest ih =>
    obtain ⟨_, _, _, tail⟩ := seg
    cases rest with
    | nil => exact tail.2 ▸ tail.1
    | cons second more => exact ih tail (by simp)

end

/-- A chain that ends in null is empty exactly when its head is null. -/
theorem head_eq_null_iff (seg : Segment null nxt prv before head nodes last null)
    : head = null ↔ nodes = [] := by
  cases nodes with
  | nil => simp [seg.1]
  | cons first rest => simp [seg.1, seg.2.1]

/-- Stores outside the visited nodes do not disturb a segment. -/
theorem congr (seg : Segment null nxt prv before head nodes last after)
    (sameNxt : ∀ node ∈ nodes, nxt' node = nxt node)
    (samePrv : ∀ node ∈ nodes, prv' node = prv node)
    : Segment null nxt' prv' before head nodes last after := by
  induction nodes generalizing before head with
  | nil => exact seg
  | cons first rest ih =>
    obtain ⟨same, real, back, tail⟩ := seg
    refine ⟨same, real, ?_, ?_⟩
    · rw [samePrv first (by simp), back]
    · rw [sameNxt first (by simp)]
      exact ih tail (fun node mem => sameNxt node (by simp [mem]))
        (fun node mem => samePrv node (by simp [mem]))

/-- The two ends of a nonempty segment can be retargeted: the back link of its head and the
forward link of its last node.
Witness: induction on the visited nodes; distinctness keeps the interior links apart from
the two stores.
-/
theorem retarget (seg : Segment null nxt prv before head nodes last after)
    (some : nodes ≠ []) (distinct : nodes.Nodup)
    (sameNxt : ∀ node ∈ nodes, node ≠ last → nxt' node = nxt node)
    (samePrv : ∀ node ∈ nodes, node ≠ head → prv' node = prv node)
    (newAfter : nxt' last = after') (newBefore : prv' head = before')
    : Segment null nxt' prv' before' head nodes last after' := by
  induction nodes generalizing before before' head with
  | nil => exact absurd rfl some
  | cons first rest ih =>
    obtain ⟨rfl, real, back, tail⟩ := seg
    obtain ⟨fresh, restDistinct⟩ := nodup_cons.mp distinct
    refine ⟨rfl, real, newBefore, ?_⟩
    cases rest with
    | nil =>
      obtain ⟨_, rfl⟩ := tail
      exact ⟨newAfter, rfl⟩
    | cons second more =>
      have lastRest := tail.last_mem (by simp)
      have notLast : head ≠ last := fun same => fresh (same ▸ lastRest)
      have notSecond : second ≠ head := fun same => fresh (by simp [← same])
      rw [sameNxt head (by simp) notLast]
      have secondHead := tail.1
      apply ih tail (by simp) restDistinct
      · exact fun node mem => sameNxt node (by simp [mem_cons.mp mem])
      · intro node mem _
        refine samePrv node (mem_cons_of_mem _ mem) ?_
        exact fun same => fresh (same ▸ mem)
      · rw [secondHead, samePrv second (by simp) notSecond]
        exact secondHead ▸ tail.head_prv (by simp)

/-- Unlinking one node joins the two parts around it.
The forward link of its predecessor and the back link of its successor are redirected past
it; the back link of the head may change as well, which a list that keeps its tail there needs.
Witness: split the segment at the node and retarget the facing ends of both parts.
-/
theorem remove (seg : Segment null nxt prv before head (front ++ node :: back) last null)
    (distinct : (front ++ node :: back).Nodup)
    (sameNxt : ∀ other ∈ front ++ back, (front = [] ∨ other ≠ prv node) → nxt' other = nxt other)
    (samePrv : ∀ other ∈ front ++ back, other ≠ nxt node → other ≠ head → prv' other = prv other)
    (newNxt : front ≠ [] → nxt' (prv node) = nxt node)
    (newPrv : back ≠ [] → prv' (nxt node) = (if front = [] then before' else prv node))
    (newBefore : front ≠ [] → prv' head = before')
    (alone : front = [] → back = [] → before' = prv node)
    : Segment null nxt' prv' before' (if front = [] then nxt node else head) (front ++ back)
        (if back = [] then prv node else last) null := by
  obtain ⟨middle, next, first, rfl, real, toMiddle, second⟩ := append_iff.mp seg
  obtain ⟨frontDistinct, restDistinct, apart⟩ := nodup_append.mp distinct
  have backDistinct := (nodup_cons.mp restDistinct).2
  -- the predecessor of the node is the last node of the front part
  have predFront (some : front ≠ []) : prv next ∈ front := toMiddle ▸ first.last_mem some
  have secondPart (some : back ≠ [])
      : Segment null nxt' prv' (if front = [] then before' else prv next) (nxt next) back last
          null := by
    have keep {other} (mem : other ∈ back) : nxt' other = nxt other := by
      refine sameNxt other (by simp [mem]) ?_
      by_cases empty : front = []
      · exact .inl empty
      · exact .inr fun same => apart _ (predFront empty) other (by simp [mem]) same.symm
    refine second.retarget some backDistinct (fun other mem _ => keep mem) ?_ ?_ (newPrv some)
    · intro other mem notNext
      refine samePrv other (by simp [mem]) notNext ?_
      rintro rfl
      cases front with
      | nil => exact (nodup_cons.mp restDistinct).1 (first.1 ▸ mem)
      | cons _ _ => exact apart _ (first.head_mem (by simp)) _ (by simp [mem]) rfl
    · rw [keep (second.last_mem some), second.last_nxt some]
  have firstPart (some : front ≠ [])
      : Segment null nxt' prv' before' head front (prv next) (nxt next) := by
    refine (toMiddle ▸ first).retarget some frontDistinct ?_ ?_ (newNxt some) (newBefore some)
    · exact fun other mem notPred => sameNxt other (by simp [mem]) (.inr notPred)
    · intro other mem notHead
      refine samePrv other (by simp [mem]) ?_ notHead
      rintro rfl
      by_cases empty : back = []
      · subst empty
        exact first.ne_null mem second.1
      · exact apart _ mem _ (by simp [second.head_mem empty]) rfl
  by_cases frontEmpty : front = []
  · subst frontEmpty
    by_cases backEmpty : back = []
    · subst backEmpty
      simpa using ⟨second.1, alone rfl rfl⟩
    · simpa [backEmpty] using secondPart backEmpty
  · rw [if_neg frontEmpty]
    refine append_iff.mpr ⟨prv next, nxt next, firstPart frontEmpty, ?_⟩
    by_cases backEmpty : back = []
    · subst backEmpty
      simpa using second.1
    · simpa [frontEmpty, backEmpty] using secondPart backEmpty

end Segment

/-- (Walk null nxt head nodes) holds when following `nxt` from `head` visits exactly `nodes`
and then ends at null. The back links play no part.
-/
def Walk (null : ι) (nxt : ι → ι) : ι → List ι → Prop
  | head, [] => head = null
  | head, node :: rest => head = node ∧ node ≠ null ∧ Walk null nxt (nxt node) rest

section
variable (walk : Walk null nxt head nodes)
include walk

theorem Walk.unique {others} (other : Walk null nxt head others)
    : nodes = others := by
  induction nodes generalizing head others with
  | nil =>
    cases others with
    | nil => rfl
    | cons node rest => exact absurd (other.1 ▸ walk) other.2.1
  | cons node rest ih =>
    cases others with
    | nil => exact absurd (walk.1 ▸ other) walk.2.1
    | cons second more =>
      obtain ⟨rfl, _, tail⟩ := walk
      obtain ⟨rfl, _, otherTail⟩ := other
      rw [ih tail otherTail]

theorem Walk.ne_null (mem : node ∈ nodes)
    : node ≠ null := by
  induction nodes generalizing head with
  | nil => exact absurd mem not_mem_nil
  | cons first rest ih =>
    rcases mem_cons.mp mem with rfl | later
    · exact walk.2.1
    · exact ih walk.2.2 later

theorem Walk.congr (same : ∀ node ∈ nodes, nxt' node = nxt node)
    : Walk null nxt' head nodes := by
  induction nodes generalizing head with
  | nil => exact walk
  | cons node rest ih =>
    obtain ⟨rfl, real, tail⟩ := walk
    obtain ⟨first, others⟩ := forall_mem_cons.mp same
    exact ⟨rfl, real, first ▸ ih tail others⟩

end

/-- The forward link of one node of a walk is redirected. -/
theorem Walk.redirect {more} (walk : Walk null nxt head (front ++ node :: back))
    (same : ∀ other ∈ front, nxt' other = nxt other) (onward : Walk null nxt' (nxt' node) more)
    : Walk null nxt' head (front ++ node :: more) := by
  induction front generalizing head with
  | nil => exact ⟨walk.1, walk.2.1, onward⟩
  | cons first rest ih =>
    obtain ⟨rfl, real, tail⟩ := walk
    obtain ⟨kept, others⟩ := forall_mem_cons.mp same
    exact ⟨rfl, real, kept ▸ ih tail others⟩

theorem Walk.head_eq (walk : Walk null nxt head nodes) : head = nodes.headD null := by
  cases nodes with
  | nil => exact walk
  | cons node rest => exact walk.1

theorem Walk.next_eq (walk : Walk null nxt head (front ++ node :: back))
    : nxt node = back.headD null := by
  induction front generalizing head with
  | nil => exact walk.2.2.head_eq
  | cons first rest ih => exact ih walk.2.2

/-- The nodes that following `nxt` from `head` visits before null, at most `fuel` of them. -/
def follow [DecidableEq ι] (null : ι) (nxt : ι → ι) : ℕ → ι → List ι
  | 0, _ => []
  | fuel + 1, head => if head = null then [] else head :: follow null nxt fuel (nxt head)

theorem Walk.follow_eq [DecidableEq ι] {fuel}
    (walk : Walk null nxt head nodes) (enough : nodes.length ≤ fuel)
    : follow null nxt fuel head = nodes := by
  induction nodes generalizing head fuel with
  | nil =>
    have isNull : head = null := walk
    cases fuel with
    | zero => rfl
    | succ fuel => rw [follow, if_pos isNull]
  | cons node rest ih =>
    obtain ⟨rfl, real, tail⟩ := walk
    cases fuel with
    | zero => exact absurd enough (Nat.not_succ_le_zero _)
    | succ fuel => rw [follow, if_neg real, ih tail (Nat.le_of_succ_le_succ enough)]

theorem Segment.walk (seg : Segment null nxt prv before head nodes last null)
    : Walk null nxt head nodes := by
  induction nodes generalizing before head with
  | nil => exact seg.1
  | cons node rest ih => exact ⟨seg.1, seg.2.1, ih seg.2.2.2⟩

/-- A walk that sets out on the nodes of a segment gets to the node the segment leads to, if
the stores made since leave the forward links of these nodes alone.
-/
theorem Segment.mem_of_walk {target}
    (seg : Segment null nxt prv before head front last target) (real : target ≠ null)
    (same : ∀ node ∈ front, nxt' node = nxt node) (walk : Walk null nxt' head nodes)
    : target ∈ nodes := by
  induction front generalizing before head nodes with
  | nil =>
    cases nodes with
    | nil => exact absurd (seg.1 ▸ walk) real
    | cons node rest => exact mem_cons.mpr (.inl (seg.1 ▸ walk.1))
  | cons first more ih =>
    cases nodes with
    | nil => exact absurd (seg.1 ▸ walk) seg.2.1
    | cons node rest =>
      have onward : nxt' node = nxt first := by
        rw [← walk.1, seg.1]
        exact same first (by simp)
      exact mem_cons_of_mem _ (ih seg.2.2.2 (fun other mem => same other (by simp [mem]))
        (onward ▸ walk.2.2))

end UnstableOS.Lib
