import UnstableOS.Kernel.Credentials

/-! Who may read, write and execute an inode, `inode_check_perm`. -/

namespace UnstableOS.Fs.Permissions

open Kernel Credentials

/-- The fields of an inode that are checked. -/
structure Attributes where
  uid : Id
  gid : Id
  mode : ℕ

/-- Who asks: the ids of the process, its supplementary groups and `AT_EACCESS`. -/
structure Caller where
  process : Process
  supGroups : List Id
  eaccess : Bool

namespace Caller

variable (caller : Caller)

/-- `target_uid`. -/
def uid : Id := if caller.eaccess then caller.process.user.effective else caller.process.user.real

/-- `target_gid`. -/
def gid : Id := if caller.eaccess then caller.process.group.effective else caller.process.group.real

end Caller

namespace Attributes

variable (inode : Attributes) (caller : Caller) (amode : ℕ)

/-- `S_ISDIR || S_ISLNK`. -/
def isDirOrLink : Bool := inode.mode &&& 0o170000 = 0o040000 || inode.mode &&& 0o170000 = 0o120000

/-- All requested bits are set in the class at `shift`. -/
def grants (shift : ℕ) : Bool :=
  inode.mode &&& (amode &&& 7) <<< shift = (amode &&& 7) <<< shift

/-- `inode_check_perm`. -/
def checkPerm : Except Errno Unit :=
  if caller.uid = 0 ∧ amode &&& 1 ≠ 0 ∧ inode.mode &&& 0o111 = 0 ∧ !inode.isDirOrLink then
    .error .eacces
  else if caller.uid = 0
      ∨ inode.uid = caller.uid ∧ inode.grants amode 6
      ∨ inode.gid = caller.gid ∧ inode.grants amode 3
      ∨ caller.supGroups.any (inode.gid = · ∧ inode.grants amode 3)
      ∨ inode.grants amode 0 then .ok ()
  else .error .eacces

/-- The group of the inode is one of the caller's. -/
def InGroup : Prop := inode.gid = caller.gid ∨ inode.gid ∈ caller.supGroups

instance : Decidable (inode.InGroup caller) := inferInstanceAs (Decidable (_ ∨ _))

/-- The class that applies grants the access: the owner's, or else the group's, or else that of the
others.
-/
def classGrants : Bool :=
  if inode.uid = caller.uid then inode.grants amode 6
  else if inode.InGroup caller then inode.grants amode 3
  else inode.grants amode 0

/-- An unprivileged caller gets what the class that applies grants, for every mode and request, if
and only if no class after it grants what it denies: the later classes are asked as well.
-/
theorem checkPerm_iff (unprivileged : caller.uid ≠ 0)
    : (inode.checkPerm caller amode = .ok () ↔ inode.classGrants caller amode)
      ↔ (inode.uid = caller.uid → ¬ inode.grants amode 6
          → ¬ (inode.InGroup caller ∧ inode.grants amode 3) ∧ ¬ inode.grants amode 0)
        ∧ (inode.uid ≠ caller.uid → inode.InGroup caller → ¬ inode.grants amode 3
          → ¬ inode.grants amode 0) := by
  have group : (inode.gid = caller.gid ∧ inode.grants amode 3
      ∨ caller.supGroups.any (inode.gid = · ∧ inode.grants amode 3))
      ↔ inode.InGroup caller ∧ inode.grants amode 3 := by
    simp only [InGroup, List.any_eq_true, decide_eq_true_eq]
    grind
  have granted : inode.checkPerm caller amode = .ok ()
      ↔ inode.uid = caller.uid ∧ inode.grants amode 6
        ∨ (inode.InGroup caller ∧ inode.grants amode 3) ∨ inode.grants amode 0 := by
    rw [← group, checkPerm, if_neg (fun root => unprivileged root.1)]
    grind
  rw [granted, classGrants]
  split <;> grind

theorem checkPerm_owner
    : (⟨1, 1, 0o600⟩ : Attributes).checkPerm ⟨⟨⟨1, 1, 1⟩, ⟨1, 1, 1⟩⟩, [], false⟩ 4 = .ok () :=
  ((checkPerm_iff _ _ _ (by decide)).mpr (by decide)).mpr (by decide)

/-- A file that denies its owner what it grants to the others is read by its owner. -/
theorem owner_granted_as_other
    : (⟨1, 1, 0o004⟩ : Attributes).checkPerm ⟨⟨⟨1, 1, 1⟩, ⟨1, 1, 1⟩⟩, [], false⟩ 4 = .ok ()
      ∧ ¬ (⟨1, 1, 0o004⟩ : Attributes).classGrants ⟨⟨⟨1, 1, 1⟩, ⟨1, 1, 1⟩⟩, [], false⟩ 4 := by
  decide

end Attributes

end UnstableOS.Fs.Permissions
