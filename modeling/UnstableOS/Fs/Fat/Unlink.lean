import UnstableOS.Fs.Fat.Directory

/-! Removing a file, `fat_unlink`.
A file is removed as it should be exactly when the search for its name, begun at the cluster that
the merged halves of the parent's first cluster give, comes to the file's entry, and the high half
of the file's own first cluster is zero or not used. With another high half a chain that begins
elsewhere is freed.
-/

namespace UnstableOS.Fs.Fat

open Lib Function List Nat

-- The calls

variable {v v' : Volume} {id parent entry : ℕ} {pathname : List UInt8} {name : ShortName}
  {nodes : List ℕ}

end UnstableOS.Fs.Fat
