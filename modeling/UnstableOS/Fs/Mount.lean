import UnstableOS.Kernel.DoubleLinkedList
import UnstableOS.Kernel.Errno
import UnstableOS.Lib.Trace

/-! The list of mounted filesystems of `mount.c`.
Superblocks and inodes are named by their addresses. A superblock stays in its slot of
`kernel_superblocks` when it is unmounted and is taken again by a later mount.
-/

namespace UnstableOS.Fs.Mount

open Kernel Lib Function List

-- The code

/-- What mounting reads and writes of the superblocks and of the inodes mounted on. -/
structure State where
  links : Links
  mounts : ℕ
  /-- The slots of `kernel_superblocks` that are not null, in order. -/
  slots : List ℕ
  isMounted : ℕ → Bool
  /-- How many inodes have the superblock as their backing superblock. -/
  instances : ℕ → ℕ
  isMountpoint : ℕ → Bool
  nextSuperblock : ℕ → ℕ
  inodeInstances : ℕ → ℕ

/-- `FS_LIMIT_KERNEL`. -/
def fsLimitKernel : ℕ := 0x100

variable (s : State)

/-- The part of `get_free_superblock` behind the label `found`: the slot is cleared, links
included, and taken.
-/
def State.take (sb : ℕ) : State :=
  { s with
    links := ⟨update s.links.next sb 0, update s.links.prev sb 0⟩
    instances := update s.instances sb 0
    isMounted := update s.isMounted sb true }

/-- `get_free_superblock`; `fresh` is what `kalloc` returns for a slot that is still null. -/
def getFreeSuperblock (fresh : ℕ) : Option (State × ℕ) :=
  match s.slots.find? (fun sb => !s.isMounted sb) with
  | some sb => some (s.take sb, sb)
  | none =>
    if s.slots.length < fsLimitKernel then
      some ({ s with slots := s.slots ++ [fresh] }.take fresh, fresh)
    else none

/-- The outside world of one `mount_file` call: the address `kalloc` returns, whether the
mountpoint lies on a procfs, whether the file is not null, and the error of `fs_init`, if any.
-/
structure Request where
  fresh : ℕ
  point : ℕ
  onProcfs : Bool
  hasFile : Bool
  fsInit : Option Errno
deriving DecidableEq

/-- `mount_file`. -/
def mountFile (r : Request) : State × Option Errno :=
  if r.onProcfs then (s, some .einval)
  else if !r.hasFile then (s, some .einval)
  else
    match getFreeSuperblock s r.fresh with
    | none => (s, some .enomem)
    | some (s, sb) =>
      if s.isMountpoint r.point then
        ({ s with isMounted := update s.isMounted sb false }, some .ebusy)
      else
        match r.fsInit with
        | some e => ({ s with isMounted := update s.isMounted sb false }, some e)
        | none =>
          let linked := appendDoubleLinkedList s.links sb s.mounts
          ({ s with
            inodeInstances :=
              update s.inodeInstances r.point (s.inodeInstances r.point + 1)
            nextSuperblock := update s.nextSuperblock r.point sb
            isMountpoint := update s.isMountpoint r.point true
            links := linked.1
            mounts := linked.2 }, none)

/-- `sys_umount` on the inode its path leads to. -/
def sysUmount (point : ℕ) : State × Option Errno :=
  if !s.isMountpoint point then (s, some .einval)
  else
    let target := s.nextSuperblock point
    if 0 < s.instances target then (s, some .ebusy)
    else
      -- the macro called here is the one that appends
      let linked := appendDoubleLinkedList s.links target s.mounts
      ({ s with
        isMountpoint := update s.isMountpoint point false
        inodeInstances := update s.inodeInstances point (s.inodeInstances point - 1)
        links := linked.1
        mounts := linked.2
        isMounted := update s.isMounted target false }, none)

/-- The state `mount_root` leaves: one superblock, mounted on its own root inode. -/
def mountRoot (sb root : ℕ) : State where
  links := ⟨fun _ => 0, update (fun _ => 0) sb sb⟩
  mounts := sb
  slots := [sb]
  isMounted := update (fun _ => false) sb true
  instances := update (fun _ => 0) sb 1
  isMountpoint := update (fun _ => false) root true
  nextSuperblock := update (fun _ => 0) root sb
  inodeInstances := update (fun _ => 0) root 3

/-- What happens between two states: a successful mount, a successful unmount, or files being
opened and closed, which sets the instance counts of the superblocks.
-/
inductive Call where
  | mount (r : Request)
  | umount (point : ℕ)
  | use (instances : ℕ → ℕ)

/-- One successful call. `kalloc` never returns null here nor the address of a live superblock. -/
def step : Call → Option State
  | .mount r =>
    if r.fresh = 0 ∨ r.fresh ∈ s.slots then none
    else
      match mountFile s r with
      | (s', none) => some s'
      | (_, some _) => none
  | .umount point =>
    match sysUmount s point with
    | (s', none) => some s'
    | (_, some _) => none
  | .use instances => some { s with instances }

def Call.isUmount : Call → Bool
  | .umount _ => true
  | _ => false

/-- The walk from `mounts` ends, and it meets every mounted superblock once and no other. -/
def MountListOk : Prop :=
  ∃ nodes, Walk 0 s.links.next s.mounts nodes
    ∧ nodes.Nodup
    ∧ ∀ sb, sb ∈ nodes ↔ s.isMounted sb = true

-- Mounting

/-- The mount list as mounting keeps it, back links included. -/
structure Linked (s : State) (nodes : List ℕ) : Prop where
  list : TailList s.links s.mounts nodes
  distinct : nodes.Nodup
  mounted : ∀ sb, sb ∈ nodes ↔ s.isMounted sb = true
  slots : ∀ sb ∈ nodes, sb ∈ s.slots
  real : ∀ sb ∈ s.slots, sb ≠ 0
  targets : ∀ point, s.isMountpoint point = true → s.nextSuperblock point ∈ nodes

variable {s s' : State} {nodes : List ℕ} {r : Request} {sb fresh : ℕ}

theorem Linked.mountListOk (linked : Linked s nodes) : MountListOk s := by
  obtain ⟨_, seg⟩ := linked.list
  exact ⟨nodes, seg.walk, linked.distinct, linked.mounted⟩

attribute [local simp] State.take mountRoot

theorem linked_mountRoot {root} (real : sb ≠ 0) : Linked (mountRoot sb root) [sb] where
  list := ⟨sb, rfl, real, by simp, rfl, rfl⟩
  distinct := nodup_singleton sb
  mounted other := by simp [update_apply]
  slots _ mem := mem
  real _ mem := mem_singleton.mp mem ▸ real
  targets point isPoint := by
    have same : point = root := by
      by_contra other
      simp [update_of_ne other] at isPoint
    simp [same]

/-- What a superblock is that `get_free_superblock` hands out: not on the mount list, and
cleared.
-/
structure Got (s s' : State) (sb : ℕ) : Prop where
  unused : s.isMounted sb = false ∨ sb ∉ s.slots
  slots : ∃ more, s'.slots = s.slots ++ more ∧ (∀ other ∈ more, other = sb) ∧ sb ∈ s'.slots
  rest : s' = { s.take sb with slots := s'.slots }

theorem getFreeSuperblock_got (found : getFreeSuperblock s fresh = some (s', sb))
    (unknown : fresh ∉ s.slots)
    : Got s s' sb ∧ (sb ∈ s.slots ∨ sb = fresh) := by
  unfold getFreeSuperblock at found
  split at found
  next old search =>
    cases found
    have inSlots := mem_of_find?_eq_some search
    have unmounted : s.isMounted sb = false := by simpa using find?_some search
    exact ⟨⟨.inl unmounted, ⟨[], by simp, by simp, inSlots⟩, rfl⟩, .inl inSlots⟩
  next =>
    split at found <;> cases found
    exact ⟨⟨.inr unknown, ⟨[sb], by simp, by simp, by simp⟩, rfl⟩,
      .inr rfl⟩

section
variable (linked : Linked s nodes)
include linked

/-- A superblock that was handed out joins the list at its end. -/
theorem Linked.mount (got : Got s s' sb) (real : sb ≠ 0) (point : ℕ)
    : let list := appendDoubleLinkedList s'.links sb s'.mounts
      Linked
        { s' with
          inodeInstances := update s'.inodeInstances point (s'.inodeInstances point + 1)
          nextSuperblock := update s'.nextSuperblock point sb
          isMountpoint := update s'.isMountpoint point true
          links := list.1
          mounts := list.2 } (nodes ++ [sb]) := by
  obtain ⟨unused, ⟨more, grown, onlyNew, inSlots⟩, rest⟩ := got
  have outside : sb ∉ nodes := by
    intro mem
    rcases unused with unmounted | unknown
    · simp [(linked.mounted sb).mp mem] at unmounted
    · exact unknown (linked.slots sb mem)
  have before : TailList s'.links s'.mounts nodes := by
    rw [rest]
    refine linked.list.congr (⟨?_, ?_⟩ : s.links.SameOutside (· = sb) _)
      (fun node mem same => outside (same ▸ mem))
    · exact fun q other => update_of_ne other _ _
    · exact fun q other => update_of_ne other _ _
  have marked (other : ℕ) : s'.isMounted other = true ↔ other = sb ∨ s.isMounted other = true := by
    rw [rest]
    by_cases same : other = sb <;> simp [same]
  refine ⟨(before.append linked.distinct outside real).1, ?_, ?_, ?_, ?_, ?_⟩
  · exact concat_eq_append ▸ linked.distinct.concat outside
  · intro other
    rw [marked, mem_append, mem_singleton, linked.mounted, or_comm]
  · intro other mem
    rcases mem_append.mp mem with old | new
    · exact grown ▸ mem_append_left _ (linked.slots other old)
    · exact mem_singleton.mp new ▸ inSlots
  · intro other mem
    rcases mem_append.mp (grown ▸ mem) with old | new
    · exact linked.real other old
    · exact onlyNew other new ▸ real
  · intro inode isPoint
    by_cases same : inode = point
    · simp [same]
    have points : s'.isMountpoint = s.isMountpoint := by rw [rest]; rfl
    have targets : s'.nextSuperblock = s.nextSuperblock := by rw [rest]; rfl
    simp only [update_of_ne same, points, targets] at isPoint ⊢
    exact mem_append_left _ (linked.targets inode isPoint)

/-- A successful mount keeps the list linked. -/
theorem Linked.step_mount (done : step s (.mount r) = some s')
    : ∃ nodes', Linked s' nodes' := by
  simp only [step] at done
  split at done
  · cases done
  next valid =>
  obtain ⟨real, unknown⟩ := not_or.mp valid
  unfold mountFile at done
  split at done
  next same =>
    -- the branches of `mount_file` that fail give no state
    iterate 3
      split at same
      · cases same
    next after sb found =>
    split at same
    · cases same
    split at same <;> cases same
    cases done
    obtain ⟨got, whence⟩ := getFreeSuperblock_got found unknown
    have notNull := whence.elim (linked.real sb) (fun isFresh => isFresh ▸ real)
    exact ⟨_, linked.mount got notNull r.point⟩
  · cases done

theorem Linked.use (instances : ℕ → ℕ) : Linked { s with instances } nodes :=
  { linked with }

-- Unmounting

/-- After a successful unmount the walk, if it ends at all, still meets the superblock that is
mounted no more: nothing before it on the list was changed.
-/
theorem Linked.step_umount {point} (done : step s (.umount point) = some s')
    : ¬ MountListOk s' := by
  simp only [step] at done
  split at done <;> cases done
  next after same =>
  simp only [sysUmount] at same
  split at same
  · cases same
  next isPoint =>
  split at same <;> cases same
  have inNodes := linked.targets point (by simpa using isPoint)
  rintro ⟨walked, walk, -, mounted⟩
  generalize s.nextSuperblock point = target at inNodes walk mounted
  obtain ⟨front, back, rfl⟩ := append_of_mem inNodes
  obtain ⟨last, seg⟩ := linked.list
  have headReal := seg.ne_null (seg.head_mem (by simp))
  have lastPrev := seg.head_prv (by simp)
  obtain ⟨middle, next, first, rfl, real, -, second⟩ := Segment.append_iff.mp seg
  obtain ⟨-, -, apart⟩ := nodup_append.mp linked.distinct
  have lastBehind : last ∈ next :: back := by
    by_cases empty : back = []
    · subst empty
      exact mem_singleton.mpr second.2.symm
    · exact mem_cons_of_mem _ (second.last_mem empty)
  have sameFront (node : ℕ) (inFront : node ∈ front)
      : (appendDoubleLinkedList s.links next s.mounts).1.next node = s.links.next node := by
    rw [append_next headReal, lastPrev, update_of_ne (apart node inFront last lastBehind),
      update_of_ne (apart node inFront next (by simp))]
  have sameHead : (appendDoubleLinkedList s.links next s.mounts).2 = s.mounts := by
    simp [appendDoubleLinkedList, if_neg headReal]
  rw [sameHead] at walk
  have still := first.mem_of_walk real sameFront walk
  simpa using (mounted next).mp still

end

-- Sequences of calls

/-- From a linked list, the states are in order exactly as long as nothing is unmounted. -/
theorem Linked.trace_ok_iff {calls states}
    (linked : Linked s nodes) (run : trace step s calls = some states)
    : (∀ state ∈ states, MountListOk state) ↔ ∀ call ∈ calls, call.isUmount = false := by
  refine (trace_forall_iff (fun s => ∃ nodes, Linked s nodes) MountListOk
    (fun ⟨_, linked⟩ => linked.mountListOk) ?_ ?_ ⟨nodes, linked⟩ run).trans
    (allSafe_iff_forall run)
  · rintro s s' call ⟨nodes, linked⟩ done isSafe
    cases call with
    | mount r => exact linked.step_mount done
    | use instances =>
      cases done
      exact ⟨nodes, linked.use instances⟩
    | umount point => cases isSafe
  · rintro s s' call ⟨nodes, linked⟩ done isUnsafe
    cases call with
    | umount point => exact linked.step_umount done
    | mount r | use instances => exact absurd rfl isUnsafe

/-- Every sequence of successful mounts and unmounts after boot: the mount list is an acyclic
list of exactly the mounted superblocks in every state if and only if nothing was unmounted.
-/
theorem mount_list_ok_iff {root : ℕ} {calls : List Call} {states : List State} (real : sb ≠ 0)
    (run : trace step (mountRoot sb root) calls = some states)
    : (∀ state ∈ states, MountListOk state) ↔ ∀ call ∈ calls, call.isUmount = false :=
  (linked_mountRoot real).trace_ok_iff run

/-- One filesystem mounted on inode 20 below the root. -/
def oneMount : List Call := [.mount ⟨2, 20, false, true, none⟩]

theorem mount_list_ok_one_mount
    : ∃ states, trace step (mountRoot 1 10) oneMount = some states
        ∧ ∀ state ∈ states, MountListOk state := by
  exact exists_of_isSome rfl fun _ run =>
    (mount_list_ok_iff Nat.one_ne_zero run).mpr (by simp [oneMount, Call.isUmount])

/-- Mounting and unmounting once leaves a list whose walk never ends: the last superblock is
its own successor.
-/
theorem umount_breaks_mount_list
    : ∃ states, trace step (mountRoot 1 10) (oneMount ++ [.umount 20]) = some states
        ∧ ∃ state ∈ states, ¬ MountListOk state := by
  refine exists_of_isSome rfl fun _ run => ?_
  by_contra fine
  have unused := ((linked_mountRoot Nat.one_ne_zero).trace_ok_iff run).mp
    (fun state mem => by_contra fun broken => fine ⟨state, mem, broken⟩)
  exact absurd (unused (.umount 20) (by simp)) (by decide)

end UnstableOS.Fs.Mount
