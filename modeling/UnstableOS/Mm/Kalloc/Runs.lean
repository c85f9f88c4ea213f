import UnstableOS.Mm.Kalloc.Calls

/-! Every run of the kernel heap from its first state.
The callers are modelled by the blocks they hold. Between calls they may write anything into the
bytes of their own blocks, and so to any link stored there.
-/

namespace UnstableOS.Mm.Kalloc

open Lib Lib.BuddyTree Lib.NodeStatus Kernel Function Nat List

/-- The address is in the block of the given order. -/
def Within (k block a : Nat) : Prop := block ≤ a ∧ a < block + 2 ^ (k + 6)

theorem within_node_iff (k i a : Nat)
    : Within k (nodeAddr k i) a
      ↔ kernelHeapBase ≤ a ∧ (a - kernelHeapBase) / 2 ^ 6 / 2 ^ k = i := by
  have positive := Nat.two_pow_pos (k + 6)
  have width : 2 ^ 6 * 2 ^ k = 2 ^ (k + 6) := by rw [← pow_add, add_comm]
  rw [Nat.div_div_eq_div_mul, width, Nat.div_eq_iff positive, Within, nodeAddr,
    mul_comm i (2 ^ (k + 6))]
  omega

/-- A block handed out for a request of `size` bytes. -/
structure LiveBlock where
  addr : Nat
  size : Nat
deriving DecidableEq, Repr

open LiveBlock

/-- The order the block was allocated with. -/
def LiveBlock.order (block : LiveBlock) : Nat := sizeOrder block.size - minOrder

def LiveBlock.Owns (block : LiveBlock) (a : Nat) : Prop := Within block.order block.addr a

structure System where
  state : State
  live : List LiveBlock

/-- One call, or a write of a caller to its own blocks. -/
inductive Step (mapPage : Nat → Bool) : System → System → Prop where
  | alloc {sys : System} {size block : Nat} {t : State}
      (call : kalloc mapPage sys.state size = some (block, t))
      : Step mapPage sys ⟨t, if block = 0 then sys.live else ⟨block, size⟩ :: sys.live⟩
  | free {sys : System} {block : LiveBlock} {t : State} (mem : block ∈ sys.live)
      (call : kfree sys.state block.addr = some t)
      : Step mapPage sys ⟨t, sys.live.erase block⟩
  | freeNull {sys : System} {t : State} (call : kfree sys.state 0 = some t)
      : Step mapPage sys ⟨t, sys.live⟩
  | write {sys : System} {links : Links}
      (own : sys.state.links.SameOutside (fun a => ∃ block ∈ sys.live, block.Owns a) links)
      : Step mapPage sys ⟨{ sys.state with links := links }, sys.live⟩

/-- A call that does not return null. -/
theorem Step.handOut {mapPage sys size block t}
    (call : kalloc mapPage sys.state size = some (block, t)) (real : block ≠ 0)
    : Step mapPage sys ⟨t, ⟨block, size⟩ :: sys.live⟩ := by
  simpa only [if_neg real] using Step.alloc call

def Run (mapPage : Nat → Bool) : System → System → Prop := Relation.ReflTransGen (Step mapPage)

/-- The heap represents a tree whose live nodes are the blocks of the callers. -/
structure Inv (s : State) (live : List LiveBlock) (tree : Nat → Nat → NodeStatus)
    (lists : Nat → List Nat)
    : Prop where
  heap : Heap s tree lists nothing
  nodes
    : ∀ k ≤ 19, ∀ i, tree k i = NodeStatus.live ↔ ∃ b ∈ live, b.order = k ∧ b.addr = nodeAddr k i
  blocks : ∀ b ∈ live, b.size ≠ 0 ∧ b.size ≤ maxAlloc ∧ ∃ i, b.addr = nodeAddr b.order i
  distinct : (live.map LiveBlock.addr).Nodup

namespace Inv

variable {mapPage : Nat → Bool} {s : State} {live : List LiveBlock}
  {tree : Nat → Nat → NodeStatus} {lists : Nat → List Nat}

section
variable (inv : Inv s live tree lists)
include inv

section
variable {b : LiveBlock} (mem : b ∈ live)
include mem

theorem order_le : b.order ≤ 19 := by
  obtain ⟨positive, fits, _⟩ := inv.blocks b mem
  have := (sizeOrder_spec positive fits).2.1
  simp only [order, minOrder]
  omega

theorem size_le : b.size ≤ 2 ^ (b.order + 6) := by
  obtain ⟨positive, fits, _⟩ := inv.blocks b mem
  obtain ⟨low, _, enough, _⟩ := sizeOrder_spec positive fits
  rwa [order, minOrder, Nat.sub_add_cancel low]

theorem node
    : ∃ i, b.addr = nodeAddr b.order i ∧ tree b.order i = NodeStatus.live := by
  obtain ⟨_, _, i, addr⟩ := inv.blocks b mem
  exact ⟨i, addr, (inv.nodes _ (inv.order_le mem) i).mpr ⟨b, mem, rfl, addr⟩⟩

end

theorem alloc {size block t} (call : kalloc mapPage s size = some (block, t))
    : ∃ tree' lists', Inv t (if block = 0 then live else ⟨block, size⟩ :: live) tree' lists' := by
  rcases (inv.heap.kalloc mapPage size).1 block t call with
    ⟨null, rfl, _⟩ | ⟨positive, fits, allocated⟩
  · rw [if_pos null]
    exact ⟨tree, lists, inv⟩
  obtain ⟨i, tree', lists', rfl, heap, fresh, sameLive⟩ := allocated
  have orderLe : sizeOrder size - minOrder ≤ 19 := by
    have := (sizeOrder_spec positive fits).2.1
    simp only [minOrder]
    omega
  have isLive := (sameLive _ _).mpr (.inr ⟨rfl, rfl⟩)
  rw [if_neg (nodeAddr_ne_zero _ _)]
  refine ⟨tree', lists', heap, ?_, ?_, ?_⟩
  · intro k kLe c
    rw [sameLive, inv.nodes k kLe, exists_mem_cons_iff, or_comm]
    refine or_congr_left ⟨?_, ?_⟩
    · rintro ⟨rfl, rfl⟩
      exact ⟨rfl, rfl⟩
    · rintro ⟨rfl, addr⟩
      exact ⟨rfl, (nodeAddr_inj addr).symm⟩
  · intro b mem
    rcases mem_cons.mp mem with rfl | old
    · exact ⟨positive, fits, i, rfl⟩
    · exact inv.blocks b old
  · rw [map_cons, nodup_cons]
    refine ⟨?_, inv.distinct⟩
    intro mem
    obtain ⟨b, old, addr⟩ := mem_map.mp mem
    obtain ⟨c, addr', wasLive⟩ := inv.node old
    have stillLive := (sameLive _ _).mpr (.inl wasLive)
    obtain ⟨orders, rfl⟩ := leaf_eq_of_addr heap.shape (inv.order_le old) orderLe
      (.inr stillLive) (.inr isLive) (addr'.symm.trans addr)
    exact fresh (orders ▸ wasLive)

theorem free {block} (mem : block ∈ live)
    : ∃ t tree' lists', kfree s block.addr = some t
        ∧ Inv t (live.erase block) tree' lists' := by
  obtain ⟨i, addr, isLive⟩ := inv.node mem
  obtain ⟨t, tree', lists', run, heap, sameLive⟩ := inv.heap.kfree (inv.order_le mem) isLive
  have nodup := Nodup.of_map _ inv.distinct
  refine ⟨t, tree', lists', addr ▸ run, heap, ?_, ?_, ?_⟩
  · intro k kLe c
    rw [sameLive, inv.nodes k kLe]
    constructor
    · rintro ⟨⟨b, old, rfl, bAddr⟩, notThis⟩
      refine ⟨b, nodup.mem_erase_iff.mpr ⟨?_, old⟩, rfl, bAddr⟩
      rintro rfl
      exact notThis ⟨rfl, nodeAddr_inj (bAddr.symm.trans addr)⟩
    · rintro ⟨b, inRest, rfl, bAddr⟩
      obtain ⟨different, old⟩ := nodup.mem_erase_iff.mp inRest
      refine ⟨⟨b, old, rfl, bAddr⟩, ?_⟩
      rintro ⟨orders, rfl⟩
      apply different
      apply inj_on_of_nodup_map inv.distinct old mem
      rw [bAddr, addr, orders]
  · exact fun b inRest => inv.blocks b (mem_of_mem_erase inRest)
  · exact inv.distinct.sublist ((erase_sublist).map _)

/-- Two leaves that share an address are the same node. -/
theorem leaf_unique {j k i c a} (jLe : j ≤ 19) (kLe : k ≤ 19)
    (inJ : IsLeaf (tree j i)) (inK : IsLeaf (tree k c)) (here : Within j (nodeAddr j i) a)
    (there : Within k (nodeAddr k c) a)
    : j = k ∧ i = c := by
  have unitJ := ((within_node_iff j i a).mp here).2
  have unitK := ((within_node_iff k c a).mp there).2
  subst unitJ unitK
  have orders := inv.heap.shape.leaf_unique jLe kLe inJ inK
  subst orders
  exact ⟨rfl, rfl⟩

/-- Writes of the callers reach no link of a bucket. -/
theorem write {links} (own : s.links.SameOutside (fun a => ∃ block ∈ live, block.Owns a) links)
    : Inv { s with links := links } live tree lists where
  heap :=
    { inv.heap with
      bits := ⟨inv.heap.bits.split, inv.heap.bits.used⟩
      chains :=
        { inv.heap.chains with
          chain := by
            intro k kLe
            refine (inv.heap.chains.chain k kLe).congr own ?_
            rintro node mem ⟨b, inLive, owns⟩
            obtain ⟨i, rfl, isFree, _⟩ := (inv.heap.entries k kLe node).mp mem
            obtain ⟨c, addr, isLive⟩ := inv.node inLive
            have self : Within k (nodeAddr k i) (nodeAddr k i) :=
              ⟨le_rfl, Nat.lt_add_of_pos_right (Nat.two_pow_pos _)⟩
            rw [Owns, addr] at owns
            obtain ⟨rfl, rfl⟩ := inv.leaf_unique kLe (inv.order_le inLive) (.inl isFree)
              (.inr isLive) self owns
            rw [isFree] at isLive
            cases isLive } }
  nodes := inv.nodes
  blocks := inv.blocks
  distinct := inv.distinct

end

end Inv

-- Runs

/-- One free block, the whole heap. -/
def wholeHeap (k i : Nat) : NodeStatus := if k = 19 ∧ i = 0 then free else absent

theorem kallocPrepare_heap
    : Heap kallocPrepare wholeHeap (update (fun _ => []) 19 [kernelHeapBase]) nothing := by
  have notSplit (k i) : wholeHeap k i ≠ NodeStatus.split := by
    simp only [wholeHeap]
    split <;> decide
  have clear (bit : Nat) : bmGet (fun _ => 0#32) bit = false := by simp [bmGet]
  constructor
  case shape =>
    refine ⟨by decide, ?_, ?_, fun i => notSplit 0 i⟩
    · intro i notRoot
      simp [wholeHeap, notRoot]
    · intro k kLt i
      have lower : wholeHeap k i = absent := if_neg (by simp only [height] at kLt; omega)
      simp [lower, notSplit]
  case bits =>
    refine ⟨?_, ?_⟩
    · intro k i _ _ _
      simp [kallocPrepare, clear, notSplit]
    · intro k i kLt _
      have lower (c) : wholeHeap k c = absent := if_neg (by omega)
      simp [kallocPrepare, clear, busy, lower]
  case chains =>
    refine ⟨?_, ?_, ?_⟩
    · intro k kLe
      by_cases top : k = 19
      · subst top
        refine ⟨kernelHeapBase, rfl, by decide, ?_, rfl, rfl⟩
        simp [kallocPrepare]
      · have empty : kallocPrepare.buckets k = 0 := by
          simp [kallocPrepare, norder_sub_one, top]
        rw [update_of_ne top, empty]
        exact TailList.nil _
    · intro k kLe
      by_cases top : k = 19 <;> simp [top]
    · intro j jLe k kLe block inJ inK
      by_cases topJ : j = 19 <;> by_cases topK : k = 19
      · omega
      · simp [topK] at inK
      · simp [topJ] at inJ
      · simp [topJ] at inJ
  case entries =>
    intro k kLe block
    by_cases top : k = 19
    · subst top
      simp only [update_self, mem_singleton, nothing, not_false_eq_true, and_true,
        wholeHeap, true_and]
      constructor
      · rintro rfl
        exact ⟨0, rfl, rfl⟩
      · rintro ⟨i, rfl, isFree⟩
        by_cases root : i = 0
        · subst root
          rfl
        · simp [root] at isFree
    · simp [top, wholeHeap]
  case merged =>
    intro k kLt i divided
    exact absurd divided (notSplit _ _)

theorem kallocPrepare_inv
    : Inv kallocPrepare [] wholeHeap (update (fun _ => []) 19 [kernelHeapBase]) where
  heap := kallocPrepare_heap
  nodes k kLe i := by
    simp only [not_mem_nil, false_and, exists_false, iff_false, wholeHeap]
    split <;> decide
  blocks := by simp
  distinct := nodup_nil

variable {mapPage : Nat → Bool} {sys : System}

theorem Step.inv {next} (step : Step mapPage sys next)
    (inv : ∃ tree lists, Inv sys.state sys.live tree lists)
    : ∃ tree lists, Inv next.state next.live tree lists := by
  obtain ⟨tree, lists, inv⟩ := inv
  cases step with
  | alloc call => exact inv.alloc call
  | free mem call =>
    obtain ⟨t, tree', lists', result, after⟩ := inv.free mem
    rw [call] at result
    cases result
    exact ⟨tree', lists', after⟩
  | freeNull call =>
    cases call
    exact ⟨tree, lists, inv⟩
  | write own => exact ⟨tree, lists, inv.write own⟩

theorem Run.inv (run : Run mapPage ⟨kallocPrepare, []⟩ sys)
    : ∃ tree lists, Inv sys.state sys.live tree lists := by
  induction run with
  | refl => exact ⟨_, _, kallocPrepare_inv⟩
  | tail _ step ih => exact step.inv ih

/-- Some byte of the node belongs to a live block. -/
def BlockInUse (live : List LiveBlock) (k i : Nat) : Prop :=
  ∃ a, Within k (nodeAddr k i) a ∧ ∃ block ∈ live, block.Owns a

/-- The live blocks and the blocks on the buckets partition the heap, and the bitmaps describe
them. The bucket of order `k` leads through `lists k`.
-/
structure Partitioned (s : State) (live : List LiveBlock) (lists : Nat → List Nat) : Prop where
  buckets : ∀ k ≤ 19, TailList s.links (s.buckets k) (lists k) ∧ (lists k).Nodup
  cover
    : ∀ a, (kernelHeapBase ≤ a ∧ a < kernelHeapBase + 2 ^ maxOrder)
        ↔ (∃ k ≤ 19, ∃ block ∈ lists k, Within k block a) ∨ ∃ block ∈ live, block.Owns a
  freeOnce
    : ∀ j ≤ 19, ∀ k ≤ 19, ∀ b ∈ lists j, ∀ c ∈ lists k, ∀ a,
        Within j b a → Within k c a → j = k ∧ b = c
  liveOnce
    : live.Nodup ∧ ∀ b ∈ live, ∀ c ∈ live, ∀ a, b.Owns a → c.Owns a → b = c
  apart : ∀ b ∈ live, ∀ k ≤ 19, ∀ c ∈ lists k, ∀ a, b.Owns a → ¬ Within k c a
  freeAligned : ∀ k ≤ 19, ∀ block ∈ lists k, 2 ^ (k + 6) ∣ block - kernelHeapBase
  liveAligned : ∀ b ∈ live, 2 ^ (b.order + 6) ∣ b.addr - kernelHeapBase
  largeEnough : ∀ b ∈ live, b.size ≤ 2 ^ (b.order + 6)
  used
    : ∀ k < 19, ∀ i < 2 ^ (19 - (k + 1)),
        bmGet s.usedBitmap (getIdx (nodeAddr (k + 1) i) (k + 1)) = true
          ↔ ¬ (BlockInUse live k (2 * i) ↔ BlockInUse live k (2 * i + 1))
  orders : ∀ b ∈ live, getOrder s b.addr = b.order
  separate
    : ∀ k < 19, ∀ i, ¬ (nodeAddr k (2 * i) ∈ lists k ∧ nodeAddr k (2 * i + 1) ∈ lists k)

section Reading
variable {s : State} {live : List LiveBlock} {tree : Nat → Nat → NodeStatus}
  {lists : Nat → List Nat}

section
variable (inv : Inv s live tree lists)
include inv

/-- An address is in a free node exactly when it is in a block on a bucket. -/
theorem Inv.free_iff {k a} (kLe : k ≤ 19) (above : kernelHeapBase ≤ a)
    : tree k ((a - kernelHeapBase) / 2 ^ 6 / 2 ^ k) = NodeStatus.free
      ↔ ∃ block ∈ lists k, Within k block a := by
  constructor
  · intro isFree
    exact ⟨_, (inv.heap.entries k kLe _).mpr ⟨_, rfl, isFree, id⟩,
      (within_node_iff k _ a).mpr ⟨above, rfl⟩⟩
  · rintro ⟨block, mem, within⟩
    obtain ⟨i, rfl, isFree, _⟩ := (inv.heap.entries k kLe block).mp mem
    rw [((within_node_iff k i a).mp within).2]
    exact isFree

/-- An address is in a live node exactly when a caller owns it. -/
theorem Inv.live_iff {a} (above : kernelHeapBase ≤ a)
    : (∃ k ≤ 19, tree k ((a - kernelHeapBase) / 2 ^ 6 / 2 ^ k) = NodeStatus.live)
      ↔ ∃ block ∈ live, block.Owns a := by
  constructor
  · rintro ⟨k, kLe, isLive⟩
    obtain ⟨b, mem, rfl, addr⟩ := (inv.nodes k kLe _).mp isLive
    refine ⟨b, mem, ?_⟩
    rw [Owns, addr]
    exact (within_node_iff _ _ a).mpr ⟨above, rfl⟩
  · rintro ⟨b, mem, owns⟩
    obtain ⟨i, addr, isLive⟩ := inv.node mem
    rw [Owns, addr] at owns
    refine ⟨b.order, inv.order_le mem, ?_⟩
    rw [((within_node_iff _ i a).mp owns).2]
    exact isLive

theorem Inv.inUse_iff (k i : Nat) : InUse height tree k i ↔ BlockInUse live k i := by
  constructor
  · rintro ⟨unit, within, owner⟩
    have offset : (kernelHeapBase + unit * 2 ^ 6 - kernelHeapBase) / 2 ^ 6 = unit := by
      rw [Nat.add_sub_cancel_left, Nat.mul_div_cancel _ (by decide)]
    refine ⟨kernelHeapBase + unit * 2 ^ 6, ?_, (inv.live_iff (le_add_right _ _)).mp ?_⟩
    · rw [within_node_iff, offset]
      exact ⟨le_add_right _ _, within⟩
    · rw [offset]
      exact owner
  · rintro ⟨a, within, owned⟩
    obtain ⟨above, quotient⟩ := (within_node_iff k i a).mp within
    exact ⟨_, quotient, (inv.live_iff above).mpr owned⟩

theorem Inv.cover (a : Nat)
    : (kernelHeapBase ≤ a ∧ a < kernelHeapBase + 2 ^ maxOrder)
      ↔ (∃ k ≤ 19, ∃ block ∈ lists k, Within k block a) ∨ ∃ block ∈ live, block.Owns a := by
  have units : a - kernelHeapBase < 2 ^ 25 ↔ (a - kernelHeapBase) / 2 ^ 6 < 2 ^ 19 := by
    rw [div_lt_iff_lt_mul (by decide), ← pow_add]
  constructor
  · rintro ⟨above, below⟩
    have inside := units.mp (by simp only [maxOrder] at below; omega)
    obtain ⟨k, kLe, isFree | isLive⟩ := inv.heap.shape.exists_leaf inside
    · exact .inl ⟨k, kLe, (inv.free_iff kLe above).mp isFree⟩
    · exact .inr ((inv.live_iff above).mp ⟨k, kLe, isLive⟩)
  · have leafInside {k i : Nat} (kLe : k ≤ 19) (leaf : IsLeaf (tree k i))
        (within : Within k (nodeAddr k i) a)
        : kernelHeapBase ≤ a ∧ a < kernelHeapBase + 2 ^ maxOrder := by
      obtain ⟨above, quotient⟩ := (within_node_iff k i a).mp within
      have index := inv.heap.shape.index_lt kLe leaf.ne_absent
      rw [← quotient, div_lt_iff_lt_mul (Nat.two_pow_pos k), ← pow_add,
        Nat.sub_add_cancel kLe] at index
      simp only [maxOrder]
      omega
    rintro (⟨k, kLe, block, mem, within⟩ | ⟨b, mem, owns⟩)
    · obtain ⟨i, rfl, isFree, _⟩ := (inv.heap.entries k kLe block).mp mem
      exact leafInside kLe (.inl isFree) within
    · obtain ⟨i, addr, isLive⟩ := inv.node mem
      rw [Owns, addr] at owns
      exact leafInside (inv.order_le mem) (.inr isLive) owns

theorem Inv.merged : Merged height tree := by
  rintro k kLt i divided ⟨left, right⟩
  exact (inv.heap.merged k kLt i divided left right).elim id id

end

theorem dvd_nodeAddr (k i : Nat) : 2 ^ (k + 6) ∣ nodeAddr k i - kernelHeapBase := by
  rw [nodeAddr, Nat.add_sub_cancel_left]
  exact dvd_mul_left _ _

theorem Inv.partitioned (inv : Inv s live tree lists) : Partitioned s live lists where
  buckets k kLe := ⟨inv.heap.chains.chain k kLe, inv.heap.chains.distinct k kLe⟩
  cover := inv.cover
  freeOnce j jLe k kLe b inJ c inK a here there := by
    obtain ⟨i, rfl, freeJ, _⟩ := (inv.heap.entries j jLe b).mp inJ
    obtain ⟨i', rfl, freeK, _⟩ := (inv.heap.entries k kLe c).mp inK
    obtain ⟨rfl, rfl⟩ := inv.leaf_unique jLe kLe (.inl freeJ) (.inl freeK) here there
    exact ⟨rfl, rfl⟩
  liveOnce := by
    refine ⟨Nodup.of_map _ inv.distinct, ?_⟩
    intro b memberB c memberC a ownsB ownsC
    obtain ⟨i, addrB, liveB⟩ := inv.node memberB
    obtain ⟨i', addrC, liveC⟩ := inv.node memberC
    rw [Owns, addrB] at ownsB
    rw [Owns, addrC] at ownsC
    obtain ⟨orders, indices⟩ := inv.leaf_unique (inv.order_le memberB) (inv.order_le memberC)
      (.inr liveB) (.inr liveC) ownsB ownsC
    apply inj_on_of_nodup_map inv.distinct memberB memberC
    rw [addrB, addrC, orders, indices]
  apart b mem k kLe c inK a owns within := by
    obtain ⟨i, addr, isLive⟩ := inv.node mem
    obtain ⟨i', rfl, isFree, _⟩ := (inv.heap.entries k kLe c).mp inK
    rw [Owns, addr] at owns
    obtain ⟨rfl, rfl⟩ := inv.leaf_unique (inv.order_le mem) kLe (.inr isLive) (.inl isFree)
      owns within
    rw [isFree] at isLive
    cases isLive
  freeAligned k kLe block mem := by
    obtain ⟨i, rfl, _⟩ := (inv.heap.entries k kLe block).mp mem
    exact dvd_nodeAddr k i
  liveAligned b mem := by
    obtain ⟨i, addr, _⟩ := inv.node mem
    rw [addr]
    exact dvd_nodeAddr _ i
  largeEnough b mem := inv.size_le mem
  used k kLt i inside := by
    rw [getIdx_self kLt, inv.heap.bits.used k i kLt inside, ← inv.inUse_iff, ← inv.inUse_iff]
    exact inv.heap.shape.busy_ne_iff inv.merged kLt
  orders b mem := by
    obtain ⟨i, addr, isLive⟩ := inv.node mem
    rw [addr]
    exact inv.heap.getOrder_eq (inv.order_le mem) isLive
  separate k kLt i both := by
    obtain ⟨c, addrC, freeC, _⟩ := (inv.heap.entries k kLt.le _).mp both.1
    obtain ⟨d, addrD, freeD, _⟩ := (inv.heap.entries k kLt.le _).mp both.2
    rw [← nodeAddr_inj addrC] at freeC
    rw [← nodeAddr_inj addrD] at freeD
    have divided := (inv.heap.shape.present k kLt (2 * i)).mp (by rw [freeC]; decide)
    rw [Nat.mul_div_cancel_left _ (by decide)] at divided
    exact inv.merged k kLt i divided ⟨freeC, freeD⟩

end Reading

/-- With nothing live the heap is one free block: a root that is split has a live block below it. -/
theorem Inv.whole {s tree lists} (inv : Inv s [] tree lists) : tree 19 0 = NodeStatus.free := by
  have present := inv.heap.shape.root
  have unused := (inv.heap.shape.inUse_iff_busy inv.merged le_rfl present).not.mp
    ((inv.inUse_iff 19 0).not.mpr (by simp [BlockInUse]))
  cases status : tree 19 0 <;> simp_all [busy]

/-- No call stops the kernel as long as pages can be mapped, and once all blocks are freed no
request up to the size of the heap gets null.
-/
theorem kalloc_calls_return
    (run : Run mapPage ⟨kallocPrepare, []⟩ sys) (mapped : ∀ page, mapPage page = true)
    : (∀ size, (kalloc mapPage sys.state size).isSome)
      ∧ (∀ block ∈ sys.live, (kfree sys.state block.addr).isSome)
      ∧ (sys.live = [] → ∀ size t, size ≠ 0 → size ≤ maxAlloc
        → kalloc mapPage sys.state size ≠ some (0, t)) := by
  obtain ⟨tree, lists, inv⟩ := run.inv
  refine ⟨?_, ?_, ?_⟩
  · intro size
    obtain ⟨result, eq⟩ := (inv.heap.kalloc mapPage size).2 mapped
    simp [eq]
  · intro block mem
    obtain ⟨t, _, _, eq, _⟩ := inv.free mem
    simp [eq]
  · intro none size t positive fits call
    rw [none] at inv
    have top := (inv.heap.entries 19 le_rfl _).mpr ⟨0, rfl, inv.whole, id⟩
    rcases (inv.heap.kalloc mapPage size).1 0 t call with
      ⟨_, _, zero | full⟩ | ⟨_, _, i, _, _, addr, _⟩
    · exact positive zero
    · simp [full 19 le_rfl fits] at top
    · exact nodeAddr_ne_zero _ i addr.symm

/-- Two blocks are handed out and freed; then the whole heap can be had. -/
theorem kalloc_returns_merged
    : let mapPage : Nat → Bool := fun _ => true
      ∃ s₁ s₂ s₃ s₄, kalloc mapPage kallocPrepare 100 = some (kernelHeapBase, s₁)
        ∧ kalloc mapPage s₁ 100 = some (kernelHeapBase + 128, s₂)
        ∧ kfree s₂ kernelHeapBase = some s₃ ∧ kfree s₃ (kernelHeapBase + 128) = some s₄
        ∧ ∀ t, kalloc mapPage s₄ maxAlloc ≠ some (0, t) := by
  intro mapPage
  obtain ⟨s₁, s₂, first, second⟩ : ∃ s₁ s₂,
      kalloc mapPage kallocPrepare 100 = some (kernelHeapBase, s₁)
        ∧ kalloc mapPage s₁ 100 = some (kernelHeapBase + 128, s₂) :=
    ⟨_, _, rfl, rfl⟩
  have two : Run mapPage ⟨kallocPrepare, []⟩
      ⟨s₂, [⟨kernelHeapBase + 128, 100⟩, ⟨kernelHeapBase, 100⟩]⟩ :=
    (Relation.ReflTransGen.single (.handOut first (by decide))).tail (.handOut second (by decide))
  have lower := (kalloc_calls_return two fun _ => rfl).2.1 ⟨kernelHeapBase, 100⟩ (by simp)
  obtain ⟨s₃, third⟩ := Option.isSome_iff_exists.mp lower
  have one : Run mapPage ⟨kallocPrepare, []⟩ ⟨s₃, [⟨kernelHeapBase + 128, 100⟩]⟩ :=
    two.tail (.free (by simp) third)
  have upper := (kalloc_calls_return one fun _ => rfl).2.1 ⟨kernelHeapBase + 128, 100⟩ (by simp)
  obtain ⟨s₄, fourth⟩ := Option.isSome_iff_exists.mp upper
  have none : Run mapPage ⟨kallocPrepare, []⟩ ⟨s₄, []⟩ := one.tail (.free (by simp) fourth)
  refine ⟨s₁, s₂, s₃, s₄, first, second, third, fourth, fun t => ?_⟩
  exact (kalloc_calls_return none fun _ => rfl).2.2 rfl _ t (by decide) le_rfl

/-- In every state a run reaches, the live blocks and the buckets partition the heap, and
`kalloc` returns null only for the size zero or when no bucket of a sufficient order has a block.
-/
theorem kalloc_run_partitioned {mapPage : Nat → Bool} {sys : System}
    (run : Run mapPage ⟨kallocPrepare, []⟩ sys)
    : ∃ lists, Partitioned sys.state sys.live lists
        ∧ ∀ size t, kalloc mapPage sys.state size = some (0, t)
          → size = 0 ∨ ∀ k ≤ 19, size ≤ 2 ^ (k + 6) → lists k = [] := by
  obtain ⟨tree, lists, inv⟩ := run.inv
  refine ⟨lists, inv.partitioned, ?_⟩
  intro size t call
  rcases (inv.heap.kalloc mapPage size).1 0 t call with ⟨_, _, why⟩ | ⟨_, _, allocated⟩
  · exact why
  · obtain ⟨i, _, _, addr, _⟩ := allocated
    exact absurd addr.symm (nodeAddr_ne_zero _ i)

/-- A request of 100 bytes on the fresh heap, answered at the heap base. -/
theorem kalloc_run_partitioned_one_block
    : ∃ sys, Run (fun _ => true) ⟨kallocPrepare, []⟩ sys
        ∧ sys.live = [⟨kernelHeapBase, 100⟩]
        ∧ ∃ lists, Partitioned sys.state sys.live lists := by
  have first : (kalloc (fun _ => true) kallocPrepare 100).map Prod.fst = some kernelHeapBase := by
    decide
  obtain ⟨⟨block, t⟩, call, rfl⟩ := Option.map_eq_some_iff.mp first
  have run : Run (fun _ => true) ⟨kallocPrepare, []⟩ ⟨t, [⟨kernelHeapBase, 100⟩]⟩ :=
    .single (.handOut call (by decide))
  obtain ⟨lists, partitioned, _⟩ := kalloc_run_partitioned run
  exact ⟨_, run, rfl, lists, partitioned⟩

/-- A request of zero bytes is answered with null although the whole heap is free. -/
theorem kalloc_null_on_fresh_heap
    : ¬ ∀ mapPage sys size t lists, Run mapPage ⟨kallocPrepare, []⟩ sys
        → Partitioned sys.state sys.live lists
        → kalloc mapPage sys.state size = some (0, t)
        → ∀ k ≤ 19, size ≤ 2 ^ (k + 6) → lists k = [] := by
  intro onlyWhenFull
  have empty := onlyWhenFull (fun _ => true) ⟨kallocPrepare, []⟩ 0 kallocPrepare _ .refl
    kallocPrepare_inv.partitioned rfl 19 le_rfl (zero_le _)
  simp at empty

end UnstableOS.Mm.Kalloc
