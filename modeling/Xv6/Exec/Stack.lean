import Xv6.Exec.Image

/-!
# The stack of a new program

`kexec` pushes the argument strings and then the array of their addresses, each at a
multiple of 16. The layout is a function of the top of the stack and of the arguments;
`copyArgs` and `copyStack` produce it exactly when it fits.
-/

namespace Xv6.Exec

open Eff Bag Vm

def round16 (n : ℕ) : ℕ := (n + 15) / 16 * 16

/-- The bytes of a string with its terminating zero. -/
def Str.nul (s : Str) : List ℕ := s.bytes.map UInt8.toNat ++ [0]

@[simp] theorem length_nul (s : Str) : s.nul.length = strlen s + 1 := by simp [Str.nul, strlen]

/-- The bytes that the strings take. -/
def need (argv : List Str) : ℕ := (argv.map fun s => round16 (strlen s + 1)).sum

/-- The addresses of strings that are pushed from `sp` on. -/
def addrs : ℕ → List Str → List ℕ
  | _, [] => []
  | sp, s :: argv => (sp - round16 (strlen s + 1)) :: addrs (sp - round16 (strlen s + 1)) argv

/-- The strings are written below `sp`. -/
def Image.strings (g : Image) : ℕ → List Str → Image
  | _, [] => g
  | sp, s :: argv =>
    (g.write (sp - round16 (strlen s + 1)) s.nul).strings (sp - round16 (strlen s + 1)) argv

section

variable {sp len : ℕ}

theorem le_round16 (n : ℕ) : n ≤ round16 n := by
  unfold round16
  omega

theorem push_eq (hal : sp % 16 = 0) (hsp : sp < 2 ^ 64) (hle : len ≤ sp) :
    push sp len = sp - round16 len := by
  have hsub : sub64 sp len = sp - len := by
    unfold sub64
    omega
  rw [push, hsub, round16]
  omega

theorem push_wrap (hlt : sp < len) (hlen : len ≤ 128 * 1024 * 1024) :
    maxva ≤ pgrounddown (push sp len) := by
  have hsub : 2 ^ 64 - len ≤ sub64 sp len := by
    unfold sub64
    omega
  simp only [push, pgrounddown, maxva, pgsize]
  omega

@[simp] theorem need_nil : need [] = 0 := rfl

@[simp] theorem need_cons (s : Str) (argv : List Str) :
    need (s :: argv) = round16 (strlen s + 1) + need argv := rfl

theorem need_mod (argv : List Str) : need argv % 16 = 0 := by
  induction argv with
  | nil => rfl
  | cons s argv ih =>
    rw [need_cons, round16]
    omega

@[simp] theorem strings_sz (g : Image) (sp : ℕ) (argv : List Str) :
    (g.strings sp argv).sz = g.sz := by
  induction argv generalizing g sp with
  | nil => rfl
  | cons s argv ih => rw [Image.strings, ih, Image.write_sz]

@[simp] theorem strings_perm (g : Image) (sp : ℕ) (argv : List Str) :
    (g.strings sp argv).perm = g.perm := by
  induction argv generalizing g sp with
  | nil => rfl
  | cons s argv ih => rw [Image.strings, ih, Image.write_perm]

@[simp] theorem length_addrs (sp : ℕ) (argv : List Str) : (addrs sp argv).length = argv.length := by
  induction argv generalizing sp with
  | nil => rfl
  | cons s argv ih => rw [addrs, List.length_cons, ih, List.length_cons]

theorem copyout_far (oldsz old r : ℕ) {a : ℕ} {bs : List ℕ} {m : Mem} (hne : bs ≠ [])
    (ha : maxva ≤ pgrounddown a) : copyout oldsz old r a bs m = .ok (false, m) := by
  cases bs with
  | nil => exact absurd rfl hne
  | cons b bs =>
    rw [copyout, if_pos ha]
    rfl

end

section

variable {tf r top stackbase : ℕ} {g : Image} {m0 m : Mem}

/-- The stack page of an image. -/
structure Stack (g : Image) (stackbase : ℕ) : Prop where
  pos : pgsize ≤ stackbase
  le : stackbase ≤ g.sz
  sz : g.sz % pgsize = 0
  perm : ∀ v, stackbase / pgsize ≤ v → v < npages g.sz → (g.perm v).u = true ∧ (g.perm v).w = true

theorem Stack.write (h : Stack g stackbase) (a : ℕ) (bs : List ℕ) : Stack (g.write a bs) stackbase :=
  ⟨h.pos, h.le, h.sz, h.perm⟩

theorem Stack.copyout (hp : m0.free ≤ pool) (h : Built tf r g m0 m) (hs : Stack g stackbase)
    (oldsz old : ℕ) {a : ℕ} (bs : List ℕ) (ha : stackbase ≤ a) (hle : a + bs.length ≤ g.sz) :
    Ensures (Vm.copyout oldsz old r a bs) m fun b m' =>
      b = true ∧ Built tf r (g.write a bs) m0 m' := by
  refine h.copyout hp oldsz old bs (hle.trans (le_npages_mul _)) fun v hv => ?_
  exact hs.perm v ((Nat.div_le_div_right ha).trans hv)

theorem copyArgs_spec (hp : m0.free ≤ pool) (oldsz old : ℕ) (argv : List Str) {sp : ℕ}
    {ustack : List ℕ} (h : Built tf r g m0 m) (hs : Stack g stackbase) (hal : sp % 16 = 0)
    (hbase : stackbase ≤ sp) (hsp : sp ≤ g.sz) (hlen : ustack.length ≤ maxarg) :
    Ensures (copyArgs oldsz old r stackbase argv sp ustack) m fun res m' =>
      if ustack.length + argv.length ≤ maxarg ∧ stackbase + need argv ≤ sp
      then res = some (sp - need argv, ustack ++ addrs sp argv) ∧
        Built tf r (g.strings sp argv) m0 m'
      else res = none ∧ ∃ g', Built tf r g' m0 m' ∧ g'.sz = g.sz := by
  induction argv generalizing sp ustack g m with
  | nil =>
    refine ensures_pure ?_
    rw [if_pos (by simpa using ⟨hlen, hbase⟩)]
    exact ⟨by simp [addrs], h⟩
  | cons s argv ih =>
    have hshort := s.short
    have hsmall : sp < 2 ^ 64 := by
      have hroom := h.room hp
      have hsz := le_npages_mul g.sz
      simp only [userVpn, Vm.trapframe, trampoline, maxva, pgsize] at hroom hsz
      omega
    have hround := le_round16 (strlen s + 1)
    rw [copyArgs, List.length_cons, need_cons]
    by_cases hfull : maxarg ≤ ustack.length
    · rw [if_pos hfull]
      refine ensures_pure ?_
      rw [if_neg (by omega)]
      exact ⟨rfl, g, h, rfl⟩
    rw [if_neg hfull]
    by_cases hwrap : sp < strlen s + 1
    · -- the address wraps around, and `copyout` refuses it
      have hfar := push_wrap hwrap (by unfold strlen; omega)
      have hbig : ¬ push sp (strlen s + 1) < stackbase := by
        have hle : pgrounddown (push sp (strlen s + 1)) ≤ push sp (strlen s + 1) :=
          Nat.div_mul_le_self _ _
        have hroom := h.room hp
        have hsz := le_npages_mul g.sz
        simp only [userVpn, Vm.trapframe, trampoline, maxva, pgsize] at *
        omega
      rw [if_neg hbig]
      refine ensures_eq_bind (copyout_far oldsz old r (by simp) hfar) (ensures_pure ?_)
      rw [if_neg (by omega)]
      exact ⟨rfl, g, h, rfl⟩
    · rw [push_eq hal hsmall (by omega)]
      by_cases hfit : sp - round16 (strlen s + 1) < stackbase
      · rw [if_pos hfit]
        refine ensures_pure ?_
        rw [if_neg (by omega)]
        exact ⟨rfl, g, h, rfl⟩
      · have hle : round16 (strlen s + 1) ≤ sp := by
          unfold round16 at *
          omega
        rw [if_neg hfit]
        refine (hs.copyout hp h oldsz old s.nul (by omega) (by rw [length_nul]; omega)).bind ?_
        rintro b m1 ⟨rfl, h1⟩
        refine (ih h1 (hs.write _ _) ?_ (by omega) (by rw [Image.write_sz]; omega) ?_).mono ?_
        · unfold round16
          omega
        · rw [List.length_append, List.length_singleton]
          omega
        intro res m2 h2
        rw [List.length_append, List.length_singleton] at h2
        by_cases hall : ustack.length + (argv.length + 1) ≤ maxarg ∧
            stackbase + (round16 (strlen s + 1) + need argv) ≤ sp
        · rw [if_pos (by omega)] at h2
          rw [if_pos hall]
          refine ⟨?_, h2.2⟩
          rw [h2.1, addrs, List.append_assoc, Nat.sub_sub]
          rfl
        · rw [if_neg (by omega)] at h2
          rw [if_neg hall]
          exact h2

/-- The image with the whole stack: the strings, and below them the array. -/
def Image.stack (g : Image) (argv : List Str) : Image :=
  (g.strings g.sz argv).write (g.sz - need argv - round16 ((argv.length + 1) * 8))
    ((addrs g.sz argv ++ [0]).flatMap word)

theorem length_words (ws : List ℕ) : (ws.flatMap word).length = ws.length * 8 := by
  induction ws with
  | nil => rfl
  | cons w ws ih =>
    rw [List.flatMap_cons, List.length_append, ih, List.length_cons, word, List.length_map,
      List.length_range]
    ring

theorem copyStack_spec (hp : m0.free ≤ pool) (oldsz old : ℕ) (argv : List Str)
    (h : Built tf r g m0 m) (hs : Stack g stackbase) (hne : argv.length ≠ maxarg) :
    Ensures (copyStack oldsz old r g.sz stackbase argv) m fun res m' =>
      if argv.length < maxarg ∧ stackbase + (need argv + round16 ((argv.length + 1) * 8)) ≤ g.sz
      then res = some (argv.length, g.sz - need argv - round16 ((argv.length + 1) * 8)) ∧
        Built tf r (g.stack argv) m0 m'
      else res = none ∧ ∃ g', Built tf r g' m0 m' ∧ g'.sz = g.sz := by
  have hal : g.sz % 16 = 0 := by
    have := hs.sz
    simp only [pgsize] at this
    omega
  refine (copyArgs_spec hp oldsz old argv h hs hal hs.le le_rfl (Nat.zero_le _)).bind ?_
  intro res m1 h1
  rw [List.length_nil, zero_add] at h1
  by_cases hfit : argv.length ≤ maxarg ∧ stackbase + need argv ≤ g.sz
  case neg =>
    rw [if_neg hfit] at h1
    obtain ⟨rfl, hex⟩ := h1
    refine ensures_pure ?_
    rw [if_neg (by omega)]
    exact ⟨rfl, hex⟩
  rw [if_pos hfit] at h1
  obtain ⟨rfl, h1⟩ := h1
  have hsum := need_mod argv
  have hsmall : g.sz < 2 ^ 64 := by
    have hroom := h.room hp
    have hsz := le_npages_mul g.sz
    simp only [userVpn, Vm.trapframe, trampoline, maxva, pgsize] at hroom hsz
    omega
  dsimp only
  rw [List.nil_append, length_addrs, if_neg (by omega)]
  have hpos := hs.pos
  have hmax : argv.length < 32 := by
    simp only [maxarg] at hfit hne
    omega
  have hlen : (argv.length + 1) * 8 ≤ g.sz - need argv := by
    simp only [pgsize] at hpos
    omega
  have hle : round16 ((argv.length + 1) * 8) ≤ g.sz - need argv := by
    unfold round16
    omega
  rw [push_eq (by omega) (by omega) hlen]
  have hround := le_round16 ((argv.length + 1) * 8)
  have hcount : ((addrs g.sz argv ++ [0]).flatMap word).length = (argv.length + 1) * 8 := by
    rw [length_words, List.length_append, length_addrs, List.length_singleton]
  split_ifs with hlow hall hall
  · omega
  · exact ensures_pure ⟨rfl, _, h1, strings_sz _ _ _⟩
  · have hstack : Stack (g.strings g.sz argv) stackbase := by
      refine ⟨hs.pos, ?_, ?_, ?_⟩
      · rw [strings_sz]
        exact hs.le
      · rw [strings_sz]
        exact hs.sz
      · rw [strings_sz, strings_perm]
        exact hs.perm
    refine (hstack.copyout hp h1 oldsz old _ (not_lt.mp hlow)
      (by rw [hcount, strings_sz]; omega)).bind ?_
    rintro b m2 ⟨rfl, h2⟩
    exact ensures_pure ⟨rfl, h2⟩
  · omega

end

end Xv6.Exec
