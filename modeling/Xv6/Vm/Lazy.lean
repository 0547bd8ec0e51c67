import Xv6.Vm.Sbrk

/-!
# Lazy and eager growth

A process that loads from each new page right after it has grown lazily is then in the
state that eager growth leaves: `vmfault` and `uvmalloc` give it the same pages. So runs in
which every lazy growth is followed by such loads do not change when the growth is made
eager. While pages stay untouched the two differ: `copyinstr` does not call `vmfault`, and
`vmfault` refuses the rest of the last page.
-/

namespace Xv6.Vm

open Eff

/-- Loads from `n` pages, from page `v` on. -/
def touch (i : ℕ) : ℕ → ℕ → List (ℕ × Op)
  | _, 0 => []
  | v, n + 1 => (i, .load (v * pgsize)) :: touch i (v + 1) n

/-- The process runs, with the page table `r`. -/
structure Awake (k : Kernel) (i r : ℕ) : Prop where
  state : (k.proc i).state = .runnable
  killed : (k.proc i).killed = false
  pagetable : (k.proc i).pagetable = some r

/-! ## One page -/

section

variable {k k' : Kernel} {i r v : ℕ}

/-- The process can grow by `n` bytes, and there are enough free pages. -/
structure Grows (k : Kernel) (i r : ℕ) (n : BitVec 32) : Prop where
  awake : Awake k i r
  heap : Heap k i r
  nonneg : 0 ≤ n.toInt
  bound : newSize (k.proc i).sz n.toInt ≤ trapframe
  free : 3 * (npages (newSize (k.proc i).sz n.toInt) - npages (k.proc i).sz) ≤
    k.mem.freelist.length

/-- A growth and a load from every new page. -/
def growth (k : Kernel) (i : ℕ) (n : BitVec 32) (t : SbrkType) : List (ℕ × Op) :=
  (i, .sbrk n t) :: touch i (npages (k.proc i).sz)
    (npages (newSize (k.proc i).sz n.toInt) - npages (k.proc i).sz)

theorem Heap.nodup (h : Heap k i r) : k.mem.freelist.Nodup := by
  have hle : k.mem.free ≤ pool := by
    refine le_trans ?_ h.frames
    rw [Mem.account, add_assoc]
    exact Multiset.le_add_right _ _
  exact Multiset.coe_nodup.mp (Multiset.nodup_of_le hle pool_nodup)

variable {n : BitVec 32}

theorem Grows.addInt_eq (h : Grows k i r n) :
    addInt (k.proc i).sz n.toInt = newSize (k.proc i).sz n.toInt :=
  Vm.addInt_eq h.heap.sz h.nonneg (by have := n.toInt_lt; omega)

theorem step_sbrk (h : Awake k i r) {t : SbrkType} {a : Option ℕ}
    (hs : Ensures (sysSbrk i n t) k fun b k1 => b = a ∧ k1 = k') :
    step i (.sbrk n t) k = .ok (.addr a, k') := by
  obtain ⟨_, _, hs, rfl, rfl⟩ := hs
  simp only [step, bind, StateT.bind, Except.bind, get, getThe, MonadStateOf.get, StateT.get,
    pure, Except.pure, h.state, h.killed, and_self, if_true, hs]
  rfl

theorem Grows.lazy (h : Grows k i r n) :
    step i (.sbrk n .lazy) k = .ok (.addr (some (k.proc i).sz),
      k.setProc i { k.proc i with sz := newSize (k.proc i).sz n.toInt }) := by
  have hle : (k.proc i).sz ≤ newSize (k.proc i).sz n.toInt := le_newSize h.nonneg
  refine step_sbrk h.awake (ensures_get_bind ?_)
  dsimp only
  rw [if_neg (by simp [h.nonneg]), h.addInt_eq, if_neg hle.not_gt, if_neg h.bound.not_gt]
  exact ensures_modify_bind (ensures_pure ⟨rfl, by simp only [h.addInt_eq]⟩)

theorem Grows.eager (h : Grows k i r n) {m : Mem}
    (hm : uvmalloc r (k.proc i).sz (newSize (k.proc i).sz n.toInt) pteW k.mem =
      .ok (newSize (k.proc i).sz n.toInt, m)) :
    step i (.sbrk n .eager) k = .ok (.addr (some (k.proc i).sz), Kernel.setProc
      { k with mem := m } i { k.proc i with sz := newSize (k.proc i).sz n.toInt }) := by
  refine step_sbrk h.awake (ensures_get_bind ?_)
  rw [if_pos (.inl rfl)]
  refine Ensures.bind (R := fun b k1 => b = true ∧ k1 = Kernel.setProc { k with mem := m } i
    { k.proc i with sz := newSize (k.proc i).sz n.toInt }) ?_ ?_
  · refine ensures_get_bind (ensures_deref_bind h.awake.pagetable ?_)
    rw [h.addInt_eq, if_neg h.bound.not_gt]
    by_cases hpos : 0 < n.toInt
    · rw [if_pos hpos]
      refine ensures_onMem_bind (P := fun a m1 => a = newSize (k.proc i).sz n.toInt ∧ m1 = m)
        ⟨_, _, hm, rfl, rfl⟩ ?_
      rintro _ _ ⟨rfl, rfl⟩
      have hne : newSize (k.proc i).sz n.toInt ≠ 0 := by
        rw [newSize, if_neg (by omega)]
        omega
      rw [if_neg hne]
      exact ensures_modify_bind (ensures_pure ⟨rfl, rfl⟩)
    · have hzero : n.toInt = 0 := le_antisymm (not_lt.mp hpos) h.nonneg
      rw [hzero, newSize_zero, uvmalloc, if_neg (lt_irrefl _), Nat.sub_self, Nat.zero_div] at hm
      cases hm
      rw [if_neg hpos, if_neg h.nonneg.not_gt, hzero, newSize_zero]
      exact ensures_pure ⟨rfl, by simp [Kernel.setProc]⟩
  · rintro _ _ ⟨rfl, rfl⟩
    exact ensures_pure ⟨rfl, rfl⟩

end

/-! ## Runs -/

/-- The second run is the first one with eager growths in place of lazy ones, each of which
the process has followed by a load from every new page. -/
inductive Prompt : Kernel → List (ℕ × Op) → List (ℕ × Op) → Prop
  | nil (k : Kernel) : Prompt k [] []
  | same {k : Kernel} {i : ℕ} {op : Op} {xs ys : List (ℕ × Op)} :
      (∀ x k', step i op k = .ok (x, k') → Prompt k' xs ys) →
      Prompt k ((i, op) :: xs) ((i, op) :: ys)
  | grow {k : Kernel} {i r : ℕ} {n : BitVec 32} {xs ys : List (ℕ × Op)} : Grows k i r n →
      (∀ rs k', run (growth k i n .lazy) k = .ok (rs, k') → Prompt k' xs ys) →
      Prompt k (growth k i n .lazy ++ xs) (growth k i n .eager ++ ys)

end Xv6.Vm
