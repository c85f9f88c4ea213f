import UnstableOS.Mm.Mmap.Layout

/-! `mmap_file`, which unmaps what a fixed mapping replaces, and `mmap_to_vmr`, which then checks
the arguments and adds a record.
-/

namespace UnstableOS.Mm.Mmap

open Option

def eio : Int := 11
def ebadf : Int := 7
def enodev : Int := 26
def enxio : Int := 30
def enotsup : Int := 36

/-- How a call ends that does not return; `unmap` is a failed `kassert` or an access through a null
pointer in `munmap_to_vmr`.
-/
inductive Stop where
  | kassert
  | panic
  | unmap
deriving DecidableEq, Repr

/-- The bits of `int flags`. -/
structure MapFlags where
  anonymous : Bool
  fixed : Bool
  isPrivate : Bool
  shared : Bool
deriving DecidableEq, Repr

/-- An open file: whether `file->inode` is set, and the bit `O_RDONLY` of its flags. -/
structure OpenFile where
  fd : FileDescriptor
  hasInode : Bool
  readable : Bool
deriving DecidableEq, Repr

/-- The arguments; `vmr` is the process the record tree belongs to, none for `NULL`. -/
structure MmapRequest where
  vmr : Option ℕ
  addr : ℕ
  len : ℕ
  prot : Prot
  flags : MapFlags
  file : Option OpenFile
  off : ℤ
deriving DecidableEq, Repr

/-- The file of a mapping that is not anonymous. -/
def MmapRequest.backing (r : MmapRequest) : Option OpenFile :=
  if r.flags.anonymous then none else r.file

/-- A device: whether operations are registered for it, whether `mmap` is one of them (it is the
framebuffer then), and `dev_opened` of its inode.
-/
structure Device where
  registered : Bool
  hasMmap : Bool
  opened : Bool

/-- The answers of the other parts of the kernel: those to `munmap_to_vmr`, `pf_get_free_memory`,
`kalloc`, the frames of `pfalloc` in turn, and the devices of the inodes.
-/
structure MmapEnv where
  unmap : Env
  freeMemory : ℕ
  kalloc : Bool
  pfalloc : ℕ → Option ℕ
  device : ℕ → Device

variable (env : MmapEnv)

/-- The call leaves the records as they are; it can only panic. -/
def Keeps (s : State) : Except Stop (State × Int) → Prop
  | .error stop => stop = .panic
  | .ok (s', _) => s'.vm = s.vm

/-- The call fires no `kassert`, goes through no null pointer, and leaves the records as they are
where it returns one of these errors.
-/
def Harmless (errors : List Int) (s : State) : Except Stop (State × Int) → Prop
  | .error stop => stop = .panic
  | .ok (s', code) => code ∈ errors → s'.vm = s.vm

section Harmless
variable {env : MmapEnv} {s : State} {pid : ℕ} {r : MmapRequest} {file : Option OpenFile}
  {errors : List Int}

section
variable (negative : ∀ code ∈ errors, code < 0)
include negative

end

end Harmless

def MmapEnv.able : MmapEnv := ⟨.able, 2 ^ 20, true, fun _ => none, fun _ => ⟨false, false, false⟩⟩

end UnstableOS.Mm.Mmap
