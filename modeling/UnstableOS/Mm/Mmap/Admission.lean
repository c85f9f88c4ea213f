import UnstableOS.Mm.Mmap.Layout

/-! Which accesses are admitted, by `mmap_page_fault` and by `mmap_check_address`.
A fault on the page behind the end of a record passes its first test, which compares the end with
the start of the page by `<`. A fault behind the end of the file is answered with `SIGBUS`, and
`mmap_check_address` does not look at the end of the file.
-/

namespace UnstableOS.Mm.Mmap

open Option

def Prot.allows (prot : Prot) (write : Bool) : Bool := if write then prot.write else prot.read

variable {env : Env} {s s' : State} {pid addr n : ℕ} {error : PageFaultError} {vm : List VmRecord}

theorem Prot.accessible {prot : Prot} {write} (allows : prot.allows write = true)
    : prot.read = true ∨ prot.write = true := by
  cases write with
  | false => exact .inl allows
  | true => exact .inr allows

section
variable (valid : Valid (s.vm pid))
include valid

end

end UnstableOS.Mm.Mmap
