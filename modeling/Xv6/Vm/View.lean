import Xv6.Vm.Kernel
import Xv6.Vm.Spec

/-!
# What page tables show

`view m r` is what a process sees of the page table with root `r`: the permissions and
the bytes of every virtual page that is mapped. A page of the heap is mapped with zeros,
by `vmfault` or by `uvmalloc`, and takes at most three pages from the free list.
-/

namespace Xv6.Vm

open Eff Function

/-- The permissions and the bytes of a mapped page. -/
@[ext] structure Frame where
  perm : Perm
  bytes : ℕ → ℕ

/-- A page as `vmfault` and `uvmalloc` map it for the heap. -/
def Frame.zero : Frame := ⟨⟨true, true, false, true⟩, fun _ => 0⟩

@[ext] structure Space where
  sz : ℕ
  page : ℕ → Option Frame

namespace Space

def copyinstr (s : Space) : ℕ → ℕ → Option (List ℕ)
  | _, 0 => none
  | srcva, max + 1 =>
    match (s.page (srcva / pgsize)).filter fun f => f.perm.u with
    | none => none
    | some f =>
      if f.bytes (srcva % pgsize) = 0 then some []
      else (s.copyinstr (srcva + 1) max).map (f.bytes (srcva % pgsize) :: ·)

end Space

theorem lt_npages {v sz : ℕ} : v < npages sz ↔ v * pgsize < sz := by
  simp only [npages, pgsize]
  omega

/-- The first virtual page that is not for the user. -/
def userVpn : ℕ := trapframe / pgsize

/-- The permissions and bytes behind an entry; bytes that the user cannot reach do not
count. -/
def Mem.frame (m : Mem) (pte : Pte) : Frame :=
  ⟨pte.perm, if pte.perm.u then m.data pte.pa else fun _ => 0⟩

def view (m : Mem) (r v : ℕ) : Option Frame := ((m.table r).leaf v).map m.frame

/-- Some pages were taken from the free list, and only those were written. -/
def Took (n : ℕ) (m m' : Mem) : Prop :=
  ∃ l, m.freelist = l ++ m'.freelist ∧ l.length ≤ n ∧ ∀ x ∉ l, m'.data x = m.data x

section

variable {n k : ℕ} {m m' m'' : Mem}

theorem Took.refl (m : Mem) : Took 0 m m := ⟨[], rfl, le_rfl, fun _ _ => rfl⟩

theorem Took.trans (h1 : Took n m m') (h2 : Took k m' m'') : Took (n + k) m m'' := by
  obtain ⟨l, hl, hn, hd⟩ := h1
  obtain ⟨l', hl', hn', hd'⟩ := h2
  refine ⟨l ++ l', by rw [hl, hl', List.append_assoc], by simp; omega, fun x hx => ?_⟩
  rw [List.mem_append, not_or] at hx
  rw [hd' x hx.2, hd x hx.1]

theorem Took.mono (h : Took n m m') (hk : n ≤ k) : Took k m m' := by
  obtain ⟨l, hl, hn, hd⟩ := h
  exact ⟨l, hl, hn.trans hk, hd⟩

theorem Took.length (h : Took n m m') : m.freelist.length ≤ m'.freelist.length + n := by
  obtain ⟨l, hl, hn, -⟩ := h
  rw [hl, List.length_append]
  omega

theorem Took.data (h : Took n m m') {x : ℕ} (hx : x ∉ m.freelist) : m'.data x = m.data x := by
  obtain ⟨l, hl, -, hd⟩ := h
  exact hd x fun hm => hx (hl ▸ List.mem_append_left _ hm)

theorem Took.subset (h : Took n m m') {x : ℕ} (hx : x ∈ m'.freelist) : x ∈ m.freelist := by
  obtain ⟨l, hl, -, -⟩ := h
  exact hl ▸ List.mem_append_right _ hx

theorem Took.nodup (h : Took n m m') (hn : m.freelist.Nodup) : m'.freelist.Nodup := by
  obtain ⟨l, hl, -, -⟩ := h
  exact (hl ▸ hn).of_append_right

/-- The memory with the first free page `x` taken and filled. -/
def Mem.take (m : Mem) (x : ℕ) (d : ℕ → ℕ) : Mem :=
  { m with freelist := m.freelist.tail, data := update m.data x d }

end

/-! ## `walk` and `mappages` -/

variable {m : Mem} {r : ℕ}

variable {m' : Mem}

theorem PageTable.Wf.leaf_lt {t : PageTable} (h : t.Wf) {v : ℕ} (hl : t.leaf v ≠ none) :
    v * pgsize < maxva := by
  have := h.bound _ (h.next _ (h.leaf v hl))
  simp only [pgsize, maxva]
  omega

theorem lookup_eq (q : Pte → Bool) (va : ℕ) (hwf : (m.table r).Wf) :
    (if maxva ≤ va then pure none else do
      match ← pteOf r va with
      | none => pure none
      | some pte => if q pte then pure (some pte.pa) else pure none : M (Option ℕ)) m =
    .ok ((((m.table r).leaf (va / pgsize)).filter q).map Pte.pa, m) := by
  split
  · rename_i hva
    have hnone : (m.table r).leaf (va / pgsize) = none := by
      by_contra hl
      have := hwf.leaf_lt hl
      simp only [pgsize, maxva] at this hva
      omega
    rw [hnone]
    rfl
  · rename_i hva
    simp only [bind, StateT.bind, Except.bind, pteOf_eq (not_le.mp hva) hwf]
    cases (m.table r).leaf (va / pgsize) with
    | none => rfl
    | some pte => cases hq : q pte <;> simp [hq, Option.filter] <;> rfl

theorem walkaddr_eq (va : ℕ) (hwf : (m.table r).Wf) : walkaddr r va m =
    .ok ((((m.table r).leaf (va / pgsize)).filter fun pte => pte.perm.u).map Pte.pa, m) :=
  lookup_eq _ va hwf

theorem translate_eq (va : ℕ) (acc : Access) (hwf : (m.table r).Wf) : translate r va acc m =
    .ok ((((m.table r).leaf (va / pgsize)).filter fun pte => pte.perm.allows acc).map Pte.pa, m) :=
  lookup_eq _ va hwf

theorem ismapped_eq {va : ℕ} (hva : va < maxva) (hwf : (m.table r).Wf) :
    ismapped r (pgrounddown va) m = .ok (((m.table r).leaf (va / pgsize)).isSome, m) := by
  have hlt : pgrounddown va < maxva := lt_of_le_of_lt (Nat.div_mul_le_self va pgsize) hva
  have hpte := pteOf_eq hlt hwf
  rw [pgrounddown, mul_pgsize_div] at hpte
  simp only [ismapped, bind, StateT.bind, Except.bind, pgrounddown, hpte]
  rfl

theorem vmfault_none {sz va : ℕ} (hwf : (m.table r).Wf) (hsz : sz ≤ maxva)
    (h : sz ≤ va ∨ (m.table r).leaf (va / pgsize) ≠ none) :
    vmfault sz r r va m = .ok (none, m) := by
  rw [vmfault]
  split
  · rfl
  · rename_i hlt
    have hmap := ismapped_eq (lt_of_lt_of_le (not_le.mp hlt) hsz) hwf
    rw [Option.isSome_iff_ne_none.mpr (h.resolve_left hlt)] at hmap
    simp only [bind, StateT.bind, Except.bind, hmap]
    rfl

/-- The space that a page table shows for a process of the given size. -/
def Mem.space (m : Mem) (r sz : ℕ) : Space := ⟨sz, view m r⟩

theorem space_page (m : Mem) (r sz : ℕ) : (m.space r sz).page = view m r := rfl

theorem writable_eq (va0 : ℕ) {pte : Pte} (hwf : (m.table r).Wf)
    (hl : (m.table r).leaf (va0 / pgsize) = some pte) :
    writable r va0 m = .ok (pte.perm.w, m) := by
  have hva : va0 < maxva := by
    have := hwf.leaf_lt (v := va0 / pgsize) (by simp [hl])
    simp only [pgsize, maxva] at this ⊢
    omega
  have hdiv : va0 / pgsize / 512 = va0 / 2 ^ 21 := Nat.div_div_eq_div_mul va0 pgsize 512
  obtain ⟨x, hx⟩ := Option.ne_none_iff_exists'.mp (hwf.leaf (va0 / pgsize) (by simp [hl]))
  rw [hdiv] at hx
  have hwalk := walk_false hva hwf
  rw [hx] at hwalk
  simp only [writable, bind, StateT.bind, Except.bind, hwalk]
  change Except.ok (((m.table r).leaf (va0 / pgsize)).any fun pte => pte.perm.w, m) = _
  rw [hl]
  rfl

theorem copyinstr_view (sz : ℕ) (hwf : (m.table r).Wf) (max srcva : ℕ) :
    Ensures (copyinstr r srcva max) m fun res m' =>
      res = (m.space r sz).copyinstr srcva max ∧ m' = m := by
  induction max generalizing srcva with
  | zero => exact ensures_pure ⟨rfl, rfl⟩
  | succ max ih =>
    have hwalk := walkaddr_eq (pgrounddown srcva) hwf
    rw [pgrounddown, mul_pgsize_div] at hwalk
    rw [copyinstr, Space.copyinstr, space_page, view]
    refine ensures_eq_bind hwalk ?_
    cases hl : (m.table r).leaf (srcva / pgsize) with
    | none => exact ensures_pure ⟨rfl, rfl⟩
    | some pte =>
      cases hu : pte.perm.u with
      | false =>
        simp only [Option.map_some, Option.filter_some, Mem.frame, hu]
        exact ensures_pure ⟨rfl, rfl⟩
      | true =>
        simp only [Option.map_some, Option.filter_some, Mem.frame, hu, if_true]
        refine ensures_get_bind ?_
        split
        · exact ensures_pure ⟨rfl, rfl⟩
        · refine (ih (srcva + 1)).bind ?_
          rintro res m' ⟨rfl, rfl⟩
          exact ensures_pure ⟨rfl, rfl⟩

theorem mul_pgsize_lt {v : ℕ} (hv : v < userVpn) : v * pgsize < maxva := by
  simp only [userVpn, trapframe, trampoline, maxva, pgsize] at hv ⊢
  omega

section

variable {sz newsz : ℕ}

theorem npages_mono (h : sz ≤ newsz) : npages sz ≤ npages newsz := Nat.div_le_div_right (by omega)

theorem npages_le_userVpn (h : sz ≤ trapframe) : npages sz ≤ userVpn := by
  simp only [npages, userVpn, trapframe, trampoline, maxva, pgsize] at h ⊢
  omega

end

/-! ## Functions on memory in the kernel -/

theorem ensures_onMem {α : Type} {f : M α} {k : Kernel} {Q : α → Kernel → Prop}
    (h : Ensures f k.mem fun a m => Q a { k with mem := m }) : Ensures (onMem f) k Q := by
  obtain ⟨a, m, hf, hq⟩ := h
  refine ⟨a, _, ?_, hq⟩
  rw [onMem, hf]

theorem onMem_eq {α : Type} {f : M α} {k : Kernel} {a : α} (h : f k.mem = .ok (a, k.mem)) :
    onMem f k = .ok (a, k) := by
  rw [onMem, h]

theorem ensures_deref_bind {β : Type} {p : Option ℕ} {a : ℕ} {g : ℕ → KM β} {k : Kernel}
    {Q : β → Kernel → Prop} (hp : p = some a) (hg : Ensures (g a) k Q) :
    Ensures (deref p >>= g) k Q := by
  subst hp
  exact hg

theorem ensures_onMem_bind {α β : Type} {f : M α} {g : α → KM β} {k : Kernel}
    {P : α → Mem → Prop} {Q : β → Kernel → Prop} (h : Ensures f k.mem P)
    (hg : ∀ a m, P a m → Ensures (g a) { k with mem := m } Q) : Ensures (onMem f >>= g) k Q := by
  refine Ensures.bind (ensures_onMem (Q := fun a k' => P a k'.mem ∧ k' = { k with mem := k'.mem })
    (h.mono fun a m hp => ⟨hp, rfl⟩)) ?_
  rintro a k' ⟨hp, hk'⟩
  rw [hk']
  exact hg a _ hp

theorem setProc_self (k : Kernel) (i : ℕ) (p : Proc) : (k.setProc i p).proc i = p :=
  update_self ..

theorem setProc_ne (k : Kernel) {i j : ℕ} (p : Proc) (h : j ≠ i) :
    (k.setProc i p).proc j = k.proc j := update_of_ne h ..

/-- What `allocproc` puts into a slot. -/
def Proc.alloc (p : Proc) (pid tf pagetable : ℕ) : Proc :=
  { p with
    pid := pid, state := .used, shmMask := fun _ => false, isThread := false
    trapframe := some tf, pagetable := some pagetable }

/-- The kernel before its first process, with sixty free pages. -/
def bootKernel : Kernel where
  mem :=
    { freelist := (List.range 60).map fun i => 0x80100000 + i * pgsize
      twice := false
      data := fun _ _ => 1
      table := fun _ => .empty }
  proc := fun _ => .clear
  shmtable := fun _ => ⟨none, 0⟩
  nextpid := 1
  initproc := 0

end Xv6.Vm
