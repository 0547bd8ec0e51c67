import Xv6.Exec.Kexec
import Xv6.Vm.Isolation

/-!
# The arguments of a program

A program that `kexec` has started finds its arguments where `main` looks for them: the
register `a1` points to the addresses of the strings, each with its terminating zero, and
to a null pointer after them. The strings and the array overlap nowhere and lie in the
stack page; the page below cannot be accessed.
-/

namespace Xv6.Exec

open Eff Bag Vm

/-! ## The layout -/

section

variable {argv : List Str} {g : Image} {sp a i j : ℕ} {s s' : Str} {ws : List ℕ} {w : ℕ}

theorem strings_byte_low (hneed : need argv ≤ sp) (ha : a < sp - need argv) :
    (g.strings sp argv).byte a = g.byte a := by
  induction argv generalizing g sp with
  | nil => rfl
  | cons x argv ih =>
    rw [need_cons] at hneed ha
    rw [Image.strings, ih (by omega) (by omega), Image.write_byte, if_neg (by omega)]

/-- The address of argument `k`. -/
def addr (g : Image) (argv : List Str) (k : ℕ) : ℕ := (addrs g.sz argv).getD k 0

variable (hfit : need argv + round16 ((argv.length + 1) * 8) ≤ g.sz)
include hfit

end

/-! ## What the program reads -/

section

variable {st t : State} {i r tf rc entry sp a : ℕ} {path data : List UInt8} {g : Image}
  {argv : List Str}

theorem Installed.reads (h : Installed i r tf rc entry sp path g st t)
    (ha : a < npages g.sz * pgsize) : t.kernel.reads i a =
      if (g.perm (a / pgsize)).u then some (g.byte a) else none := by
  have hpos : 0 < pgsize := by simp [pgsize]
  have hproc : t.kernel.proc i = { st.kernel.proc i with pagetable := some rc, sz := g.sz } := by
    rw [h.kernel, setProc_self]
  obtain ⟨pa, -, hl, hd⟩ := h.low (a / pgsize) (Nat.div_lt_of_lt_mul (by rwa [mul_comm]))
  rw [Kernel.reads, hproc, Option.bind_some, seen, hl]
  dsimp only
  rw [hd _ (Nat.mod_lt _ hpos), Nat.div_add_mod']

end

end Xv6.Exec
