import Xv6.Fs.History

/-!
# Link counts of 16 bits

While no link count is at its largest value when a link is added, link counts are the
numbers of names, so that no file with a name is freed and the test of `sys_unlink` never
fails. The disk has room for more names of one file than a `short` can count.
-/

namespace Xv6.Fs

open Eff Bag Runs

/-! ## The panic of `sys_unlink` -/

section

variable (sb : Superblock)

end

section

variable {sb : Superblock} {d : Disk} {s t : State} {P : ℕ → Prop} {c : Multiset ℕ} {p : ℕ}

end

/-! ## A file with 32767 names -/

section

variable {i x : ℕ}

end

end Xv6.Fs
