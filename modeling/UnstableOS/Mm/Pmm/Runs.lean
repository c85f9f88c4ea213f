import UnstableOS.Mm.Pmm.Boot

/-! Every run of the allocator after boot.
The callers are modelled by the list of blocks they hold: a block may be freed or retained as
long as it is held, and its references fit the 20-bit count.
-/

namespace UnstableOS.Mm.Pmm

open Lib Lib.Dyadic Option

/-- The allocator together with the blocks handed out and not yet freed. -/
structure System where
  state : State
  live : List LiveBlock

/-- One call of the interface. -/
inductive Step : System → System → Prop where
  | alloc {sys : System} {order block : Nat} {t : State} (le : order ≤ pmmOrderMax)
      (call : pmmAlloc sys.state order = some (block, t))
      : Step sys ⟨t, if block = 0 then sys.live else ⟨block, order, 1⟩ :: sys.live⟩
  | free {sys : System} {block : LiveBlock} {t : State} (mem : block ∈ sys.live)
      (call : pmmFree sys.state block.head = some t)
      : Step sys ⟨t, block.released sys.live⟩
  | retain {sys : System} {block : LiveBlock} {t : State} (mem : block ∈ sys.live)
      (fits : block.refs + 1 < 2 ^ 20) (call : pmmRetain sys.state block.head = some t)
      : Step sys ⟨t, block.retained sys.live⟩

def Run : System → System → Prop := Relation.ReflTransGen Step

variable {sys next : System} {lists : Nat → List Nat}

theorem Step.inv (step : Step sys next) (inv : Inv sys.state sys.live lists)
    : (∃ lists', Inv next.state next.live lists') ∧ next.state.ranges = sys.state.ranges := by
  cases step with
  | alloc le call =>
    obtain ⟨block, t, lists', result, after, ranges, _⟩ := inv.pmmAlloc le
    rw [call] at result
    cases result
    exact ⟨⟨lists', after⟩, ranges⟩
  | free mem call =>
    obtain ⟨t, lists', result, after, ranges⟩ := inv.pmmFree mem
    rw [call] at result
    cases result
    exact ⟨⟨lists', after⟩, ranges⟩
  | retain mem fits call =>
    obtain ⟨t, result, after, ranges⟩ := inv.pmmRetain mem fits
    rw [call] at result
    cases result
    exact ⟨⟨lists, after⟩, ranges⟩

theorem Run.inv (run : Run sys next) (inv : ∃ lists, Inv sys.state sys.live lists)
    : (∃ lists, Inv next.state next.live lists) ∧ next.state.ranges = sys.state.ranges := by
  induction run with
  | refl => exact ⟨inv, rfl⟩
  | tail _ step ih =>
    obtain ⟨⟨lists, before⟩, ranges⟩ := ih
    obtain ⟨after, sameRanges⟩ := step.inv before
    exact ⟨after, sameRanges.trans ranges⟩

/-- The free lists and the live blocks partition the pages of the given ranges, and the page
records and the counter say so. The chain of list `k` is `lists k`.
-/
structure Partitioned (ranges : List Range) (s : State) (live : List LiveBlock)
    (lists : Nat → List Nat)
    : Prop where
  links : Lists s lists
  pages : ∀ page, InRanges ranges page ↔ Covered lists page ∨ ∃ block ∈ live, block.Owns page
  freeOnce
    : ∀ j ≤ pmmOrderMax, ∀ k ≤ pmmOrderMax, ∀ b ∈ lists j, ∀ c ∈ lists k, ∀ page,
        Span j b page → Span k c page → j = k ∧ b = c
  liveOnce
    : live.Nodup ∧ ∀ b ∈ live, ∀ c ∈ live, ∀ page, b.Owns page → c.Owns page → b = c
  apart : ∀ block ∈ live, ∀ page, block.Owns page → ¬ Covered lists page
  aligned : ∀ k ≤ pmmOrderMax, ∀ block ∈ lists k, 2 ^ k ∣ block
  marked
    : ∀ k ≤ pmmOrderMax, ∀ block ∈ lists k, ∀ page, Span k block page
        → (s.pages page).refcount = 0 ∧ (s.pages page).order = k
  heads
    : ∀ block ∈ live, (s.pages block.head).refcount = block.refs
        ∧ (s.pages block.head).order = block.order
  tails
    : ∀ block ∈ live, ∀ page, block.Owns page → page ≠ block.head
        → (s.pages page).order = orderTail ∧ (s.pages page).refcount = block.head
  separate : ∀ k < pmmOrderMax, ∀ block ∈ lists k, buddy k block ∉ lists k
  count : s.freePageCount = totalPages lists

theorem Inv.partitioned {s live} (inv : Inv s live lists)
    : Partitioned s.ranges s live lists where
  links := inv.free.links
  pages := inv.pages
  freeOnce _ jLe _ kLe _ inJ _ inK _ inB inC := inv.free.entry_unique jLe kLe inJ inK inB inC
  liveOnce := ⟨inv.live_nodup, fun _ memberB _ memberC _ => inv.owner_unique memberB memberC⟩
  apart _ mem _ := inv.live_not_covered mem
  aligned := inv.free.aligned
  marked := inv.free.marked
  heads block mem := (inv.marked block mem).head
  tails block mem page owns notHead := ((inv.marked block mem).tail page owns notHead).symm
  separate := inv.free.separate
  count := inv.count

/-- No permitted call stops the kernel: from every state a run reaches, each allocation, free
and retain returns.
-/
theorem run_calls_return {boot early pageTables start}
    (booted : pmmBoot boot early pageTables = some start) (run : Run ⟨start, []⟩ sys)
    : (∀ order ≤ pmmOrderMax, (pmmAlloc sys.state order).isSome)
      ∧ (∀ block ∈ sys.live, (pmmFree sys.state block.head).isSome)
      ∧ ∀ block ∈ sys.live, block.refs + 1 < 2 ^ 20
          → (pmmRetain sys.state block.head).isSome := by
  obtain ⟨⟨lists, inv⟩, _⟩ := run.inv (pmmBoot_inv booted)
  refine ⟨?_, ?_, ?_⟩
  · intro order le
    obtain ⟨_, _, _, result, _⟩ := inv.pmmAlloc le
    rw [result]
    rfl
  · intro block mem
    obtain ⟨_, _, result, _⟩ := inv.pmmFree mem
    rw [result]
    rfl
  · intro block mem fits
    obtain ⟨_, result, _⟩ := inv.pmmRetain mem fits
    rw [result]
    rfl

/-- In every state a run reaches, the free lists and the live blocks partition the pages of the
boot range list, and an allocation returns zero only when no list of a sufficient order has an
entry.
-/
theorem run_partitioned {boot : BootInfo} {early pageTables : Nat} {start : State} {sys : System}
    (booted : pmmBoot boot early pageTables = some start) (run : Run ⟨start, []⟩ sys)
    : ∃ lists, Partitioned start.ranges sys.state sys.live lists
        ∧ ∀ order ≤ pmmOrderMax, ∃ block t, pmmAlloc sys.state order = some (block, t)
          ∧ (block = 0 → ∀ k, order ≤ k → k ≤ pmmOrderMax → lists k = []) := by
  obtain ⟨⟨lists, inv⟩, ranges⟩ := run.inv (pmmBoot_inv booted)
  refine ⟨lists, ranges ▸ inv.partitioned, ?_⟩
  intro order le
  obtain ⟨block, t, _, result, _, _, exhausted⟩ := inv.pmmAlloc le
  exact ⟨block, t, result, exhausted⟩

/-- A machine with four usable pages, one of which holds the page records; one page is then
allocated and retained.
-/
theorem run_partitioned_four_pages
    : ∃ start sys, pmmBoot ⟨[⟨0x10000, 0x4000⟩], []⟩ 0 0 = some start
        ∧ Run ⟨start, []⟩ sys ∧ sys.live = [⟨17, 0, 2⟩]
        ∧ ∃ lists, Partitioned start.ranges sys.state sys.live lists := by
  have first : ((pmmBoot ⟨[⟨0x10000, 0x4000⟩], []⟩ 0 0).bind fun start =>
      (pmmAlloc start 0).map Prod.fst) = some 17 := by
    decide
  obtain ⟨start, booted, allocated⟩ := bind_eq_some_iff.mp first
  obtain ⟨⟨block, t⟩, call, rfl⟩ := map_eq_some_iff.mp allocated
  have taken : Step ⟨start, []⟩ ⟨t, if 17 = 0 then [] else [⟨17, 0, 1⟩]⟩ :=
    .alloc (Nat.zero_le _) call
  have one : Run ⟨start, []⟩ ⟨t, [⟨17, 0, 1⟩]⟩ := .single taken
  obtain ⟨u, retained⟩ := isSome_iff_exists.mp
    ((run_calls_return booted one).2.2 ⟨17, 0, 1⟩ (by simp) (by decide))
  have more : Step ⟨t, [⟨17, 0, 1⟩]⟩ ⟨u, LiveBlock.retained ⟨17, 0, 1⟩ [⟨17, 0, 1⟩]⟩ :=
    .retain (by simp) (by decide) retained
  have two := one.tail more
  obtain ⟨lists, partitioned, _⟩ := run_partitioned booted two
  exact ⟨start, _, booted, two, rfl, lists, partitioned⟩

end UnstableOS.Mm.Pmm
