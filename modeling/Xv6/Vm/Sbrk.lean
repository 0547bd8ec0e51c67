import Xv6.Vm.View

/-!
# The size of a process

`sys_sbrk` adds a signed 32-bit increment to an unsigned 64-bit size, and moves the pages
of the heap accordingly. It gives the size that the sum says, or leaves the process as it
was; what lies below both sizes is not touched.
-/

namespace Xv6.Vm

open Eff

/-- The pages of a process that are its own: those of the user, and the trapframe. -/
def ownVpn (v : ℕ) : Bool := v ≤ userVpn

/-- A process that is not a thread and not attached to a shared page. Its pages are its
own: none of them is mapped twice, is a page of the table, or is free. -/
structure Heap (k : Kernel) (i r : ℕ) : Prop where
  pagetable : (k.proc i).pagetable = some r
  thread : (k.proc i).isThread = false
  shmMask : ∀ key, (k.proc i).shmMask key = false
  sz : (k.proc i).sz ≤ Vm.trapframe
  above : ∀ v < userVpn, npages (k.proc i).sz ≤ v → (k.mem.table r).leaf v = none
  wf : (k.mem.table r).Wf
  frames : k.mem.account ownVpn r {r} ≤ pool

/-- The size after `sbrk(n)`. -/
def newSize (sz : ℕ) (n : ℤ) : ℕ := if sz + n < 0 then sz else (sz + n).toNat

/-- The mappings of the first `b` pages stay, and what these pages hold. -/
def Kept (r b : ℕ) (m m' : Mem) : Prop :=
  ∀ v < b, (m'.table r).leaf v = (m.table r).leaf v ∧
    ∀ pte, (m.table r).leaf v = some pte → m'.data pte.pa = m.data pte.pa

/-- The process is as before, and every page it was given for the heap is free again. -/
structure Unchanged (r : ℕ) (k k' : Kernel) : Prop where
  proc : k'.proc = k.proc
  leaf : (k'.mem.table r).leaf = (k.mem.table r).leaf
  kept : Kept r (userVpn + 1) k.mem k'.mem
  free : k'.mem.free + (k'.mem.table r).tables = k.mem.free + (k.mem.table r).tables

/-- The process has the size `sz`. -/
structure Resized (i r sz : ℕ) (k k' : Kernel) : Prop where
  proc : k'.proc = Function.update k.proc i { k.proc i with sz := sz }
  bound : sz ≤ Vm.trapframe
  kept : Kept r (npages (min (k.proc i).sz sz)) k.mem k'.mem
  above : ∀ v < userVpn, npages sz ≤ v → (k'.mem.table r).leaf v = none

/-- The pages from `lo` up to `hi` are mapped for the user and zero. -/
def Zeroed (r lo hi : ℕ) (m : Mem) : Prop :=
  ∀ v, lo ≤ v → v < hi → ∃ pa,
    (m.table r).leaf v = some ⟨pa, pteR ||| pteU ||| pteW⟩ ∧ m.data pa = fun _ => 0

/-! ## Sums and pages -/

section

variable {sz : ℕ} {n : ℤ}

theorem userVpn_lt : userVpn < vpns := by decide

theorem addInt_eq (hsz : sz ≤ trapframe) (hn : 0 ≤ n) (hhi : n < 2 ^ 31) :
    addInt sz n = newSize sz n := by
  simp only [trapframe, trampoline, maxva, pgsize] at hsz
  rw [addInt, newSize, if_neg (by omega)]
  congr 1
  omega

/-- A decrement below zero wraps to a size above the old one, which `uvmdealloc` ignores. -/
theorem min_addInt (hsz : sz ≤ trapframe) (hn : n < 0) (hlo : -2 ^ 31 ≤ n) :
    min sz (addInt sz n) = newSize sz n := by
  simp only [trapframe, trampoline, maxva, pgsize] at hsz
  rw [addInt, newSize]
  split_ifs with hneg <;> omega

theorem newSize_le (hn : n ≤ 0) : newSize sz n ≤ sz := by
  rw [newSize]
  split_ifs <;> omega

theorem le_newSize (hn : 0 ≤ n) : sz ≤ newSize sz n := by
  rw [newSize]
  split_ifs <;> omega

@[simp] theorem newSize_zero (sz : ℕ) : newSize sz 0 = sz := by
  simp [newSize]

end

section

variable {k : Kernel} {i r : ℕ} {n : ℤ}

theorem Kept.refl (r b : ℕ) (m : Mem) : Kept r b m m := fun _ _ => ⟨rfl, fun _ _ => rfl⟩

/-- The pages counted in a range. -/
def inRange (lo hi v : ℕ) : Bool := lo ≤ v ∧ v < hi

theorem inRange_le {lo hi : ℕ} (hhi : hi ≤ userVpn + 1) (w : ℕ)
    (hw : inRange lo hi w = true) : ownVpn w = true := by
  simp only [inRange, ownVpn, decide_eq_true_eq] at *
  omega

theorem Heap.fits (h : Heap k i r) {lo hi : ℕ} (hhi : hi ≤ userVpn + 1) :
    k.mem.account (inRange lo hi) r 0 ≤ pool :=
  (Mem.account_mono (inRange_le hhi) (Multiset.zero_le _)).trans h.frames

theorem Heap.not_mem (h : Heap k i r) {lo hi v : ℕ} {pte : Pte} (hhi : hi ≤ userVpn + 1)
    (hv : v ≤ userVpn) (hout : v < lo ∨ hi ≤ v) (hl : (k.mem.table r).leaf v = some pte) :
    pte.pa ∉ k.mem.account (inRange lo hi) r 0 := by
  refine not_mem_account (inRange_le hhi) (Multiset.zero_le _) h.frames
    (lt_of_le_of_lt hv userVpn_lt) ?_ ?_ hl
  · simp only [inRange, decide_eq_false_iff_not]
    omega
  · simpa [ownVpn] using hv

theorem Heap.owned_zero (h : Heap k i r) {hi : ℕ} (hhi : hi ≤ userVpn) :
    (k.mem.table r).owned (inRange (npages (k.proc i).sz) hi) = 0 := by
  refine PageTable.owned_zero fun v hv => ?_
  simp only [inRange, decide_eq_true_eq] at hv
  exact h.above v (by omega) hv.1

theorem Resized.refl (h : Heap k i r) : Resized i r (k.proc i).sz k k :=
  ⟨(Function.update_eq_self ..).symm, h.sz, Kept.refl _ _ _, h.above⟩

theorem Unchanged.refl (r : ℕ) (k : Kernel) : Unchanged r k k :=
  ⟨rfl, rfl, Kept.refl _ _ _, rfl⟩

/-! ## Growing -/

/-- Growing the heap; on failure what was mapped is unmapped and freed again. -/
theorem Heap.uvmalloc (h : Heap k i r) {sz : ℕ} (hsz : sz ≤ Vm.trapframe)
    (hle : (k.proc i).sz ≤ sz) :
    Ensures (uvmalloc r (k.proc i).sz sz pteW) k.mem fun res m =>
      res = sz ∧ Resized i r sz k (Kernel.setProc { k with mem := m } i
        { k.proc i with sz := sz }) ∧ Zeroed r (npages (k.proc i).sz) (npages sz) m ∨
      res = 0 ∧ Unchanged r k { k with mem := m } := by
  have hnew := npages_le_userVpn hsz
  have hold := npages_mono hle
  have hlt := userVpn_lt
  refine (uvmalloc_spec (inRange (npages (k.proc i).sz) (npages sz)) r ∅ 0 (by omega) h.wf ?_ ?_
    (h.fits (by omega))).mono ?_
  · exact fun v hv hv' _ => by simp [inRange, hv, hv']
  · exact fun v hv hv' _ => h.above v (by omega) hv
  rintro res m (⟨rfl, hg⟩ | ⟨rfl, he, hleaf⟩)
  · rw [max_eq_right hle]
    refine .inl ⟨rfl, ⟨rfl, hsz, ?_, ?_⟩, ?_⟩
    · rw [min_eq_left hle]
      refine fun v hv => ⟨hg.other v (by omega), fun pte hl => hg.takes.data _ fun hfree => ?_⟩
      have hnot : pte.pa ∉ k.mem.account (inRange (npages (k.proc i).sz) (npages sz)) r 0 :=
        h.not_mem (by omega) (by omega) (.inl hv) hl
      exact hnot (by simp [Mem.account, Mem.free, hfree])
    · intro v hv hv'
      exact (hg.other v (by omega)).trans (h.above v hv (by omega))
    · intro v hv hv'
      obtain ⟨pa, -, hl, hd⟩ := hg.mapped v hv (by omega)
      exact ⟨pa, hl, hd⟩
  · refine .inr ⟨rfl, rfl, hleaf, fun v hv => ⟨congrFun hleaf v, fun pte hl => ?_⟩, ?_⟩
    · refine he.data _ (h.not_mem (by omega) (by omega) ?_ hl) (by simp)
      by_contra hin
      rw [h.above v (by omega) (by omega)] at hl
      cases hl
    · have hledger := he.ledger
      have howned := h.owned_zero hnew
      have howned' : (m.table r).owned (inRange (npages (k.proc i).sz) (npages sz)) = 0 := by
        rw [← howned, PageTable.owned, PageTable.owned, hleaf]
      simpa [Mem.account, PageTable.pages, howned, howned'] using hledger

/-! ## Shrinking -/

theorem Heap.uvmdealloc (h : Heap k i r) (sz : ℕ) :
    Ensures (uvmdealloc r (k.proc i).sz sz) k.mem fun res m => res = min (k.proc i).sz sz ∧
      Resized i r (min (k.proc i).sz sz) k (Kernel.setProc { k with mem := m } i
        { k.proc i with sz := min (k.proc i).sz sz }) := by
  have hold := npages_le_userVpn h.sz
  have hlt := userVpn_lt
  refine (uvmdealloc_spec (inRange (npages sz) (npages (k.proc i).sz)) r ∅ 0 (by omega) h.wf ?_
    (h.fits (by omega))).mono ?_
  · exact fun v hv hv' => by simp [inRange, hv, hv']
  rintro res m ⟨rfl, hu⟩
  have hmin : npages (min (k.proc i).sz sz) ≤ npages sz := npages_mono (min_le_right _ _)
  have hmin' : npages (min (k.proc i).sz sz) ≤ npages (k.proc i).sz := npages_mono (min_le_left _ _)
  refine ⟨rfl, rfl, (min_le_left _ _).trans h.sz, ?_, ?_⟩
  · rw [min_eq_right (min_le_left _ _)]
    refine fun v hv => ⟨?_, fun pte hl => ?_⟩
    · exact (congrFun hu.leaf v).trans (if_neg (by omega))
    · exact hu.evolves.data _ (h.not_mem (by omega) (by omega) (.inl (by omega)) hl) (by simp)
  · intro v hv hv'
    refine (congrFun hu.leaf v).trans ?_
    rw [clear]
    split_ifs with hin
    · rfl
    · refine h.above v hv ?_
      rcases le_total (k.proc i).sz sz with hle | hle
      · rwa [min_eq_left hle] at hv'
      · rw [min_eq_right hle] at hv'
        omega

theorem growproc_spec (h : Heap k i r) (hlo : -2 ^ 31 ≤ n) (hhi : n < 2 ^ 31) :
    Ensures (growproc i n) k fun b k' =>
      b = true ∧ Resized i r (newSize (k.proc i).sz n) k k' ∧
        Zeroed r (npages (k.proc i).sz) (npages (newSize (k.proc i).sz n)) k'.mem ∨
      b = false ∧ Unchanged r k k' := by
  refine ensures_get_bind (ensures_deref_bind h.pagetable ?_)
  have hnone : ∀ {hi m}, hi ≤ npages (k.proc i).sz → Zeroed r (npages (k.proc i).sz) hi m :=
    fun hle v hv hv' => by omega
  split_ifs with hpos hfit hneg
  · exact ensures_pure (.inr ⟨rfl, Unchanged.refl r k⟩)
  · rw [addInt_eq h.sz hpos.le hhi] at hfit ⊢
    have hgrow : (k.proc i).sz < newSize (k.proc i).sz n := by
      rw [newSize, if_neg (by omega)]
      omega
    refine ensures_onMem_bind (h.uvmalloc (not_lt.mp hfit) hgrow.le) ?_
    rintro sz m (⟨rfl, hr, hz⟩ | ⟨rfl, hu⟩)
    · rw [if_neg (by omega)]
      exact ensures_modify_bind (ensures_pure (.inl ⟨rfl, hr, hz⟩))
    · exact ensures_pure (.inr ⟨rfl, hu⟩)
  · refine ensures_onMem_bind (h.uvmdealloc _) ?_
    rintro sz m ⟨rfl, hr⟩
    rw [min_addInt h.sz hneg hlo] at hr ⊢
    exact ensures_modify_bind (ensures_pure
      (.inl ⟨rfl, hr, hnone (npages_mono (newSize_le hneg.le))⟩))
  · obtain rfl : n = 0 := by omega
    rw [newSize_zero]
    exact ensures_pure (.inl ⟨rfl, Resized.refl h, hnone le_rfl⟩)

theorem Heap.grow_lazy (h : Heap k i r) {sz : ℕ} (hsz : sz ≤ Vm.trapframe)
    (hle : (k.proc i).sz ≤ sz) :
    Resized i r sz k (k.setProc i { k.proc i with sz := sz }) := by
  refine ⟨rfl, hsz, ?_, fun v hv hv' => h.above v hv ((npages_mono hle).trans hv')⟩
  exact Kept.refl _ _ _

/-- `sys_sbrk` either fails and leaves the process as it was, or returns the old size and
the new one is the sum, without a wrap; a decrement by more than the size does nothing. -/
theorem sysSbrk_spec (h : Heap k i r) (n : BitVec 32) (t : SbrkType) :
    Ensures (sysSbrk i n t) k fun res k' => match res with
      | none => Unchanged r k k'
      | some addr => addr = (k.proc i).sz ∧ Resized i r (newSize (k.proc i).sz n.toInt) k k' ∧
          (t = .eager →
            Zeroed r (npages (k.proc i).sz) (npages (newSize (k.proc i).sz n.toInt)) k'.mem) := by
  have hlo : -2 ^ 31 ≤ n.toInt := by have := n.le_toInt; omega
  have hhi : n.toInt < 2 ^ 31 := by have := n.toInt_lt; omega
  refine ensures_get_bind ?_
  dsimp only
  split_ifs with heager hwrap hfit
  · refine (growproc_spec h hlo hhi).bind ?_
    rintro b k' (⟨rfl, hr, hz⟩ | ⟨rfl, hu⟩)
    · exact ensures_pure ⟨rfl, hr, fun _ => hz⟩
    · exact ensures_pure hu
  · exact ensures_pure (Unchanged.refl r k)
  · exact ensures_pure (Unchanged.refl r k)
  · rw [not_or, not_lt] at heager
    rw [addInt_eq h.sz heager.2 hhi] at hfit
    refine ensures_modify_bind (ensures_pure ⟨rfl, ?_, fun ht => absurd ht heager.1⟩)
    dsimp only
    rw [addInt_eq h.sz heager.2 hhi]
    exact h.grow_lazy (not_lt.mp hfit) (le_newSize heager.2)

/-- A process with an empty heap, and sixty free pages. -/
def emptyHeap : Kernel :=
  bootKernel.setProc 0 { Proc.clear with state := .runnable, pagetable := some 0x80200000 }

theorem emptyHeap_heap : Heap emptyHeap 0 0x80200000 where
  pagetable := rfl
  thread := rfl
  shmMask _ := rfl
  sz := Nat.zero_le _
  above _ _ _ := rfl
  wf := PageTable.wf_empty
  frames := by
    have haccount : emptyHeap.mem.account ownVpn 0x80200000 {0x80200000} =
        (emptyHeap.mem.freelist ++ [0x80200000] : List ℕ) := by
      change emptyHeap.mem.free + PageTable.empty.pages ownVpn + _ = _
      rw [PageTable.pages_empty, add_zero]
      rfl
    rw [haccount, Multiset.le_iff_subset (Multiset.coe_nodup.mpr (by decide))]
    exact fun x hx => mem_pool (by revert x; decide)

/-- The first page of a heap. -/
theorem sysSbrk_spec_page : Heap emptyHeap 0 0x80200000 ∧
    Ensures (sysSbrk 0 4096 .eager) emptyHeap fun res k' => match res with
      | none => Unchanged 0x80200000 emptyHeap k'
      | some addr => addr = 0 ∧ Resized 0 0x80200000 4096 emptyHeap k' ∧
          Zeroed 0x80200000 0 1 k'.mem := by
  refine ⟨emptyHeap_heap, (sysSbrk_spec emptyHeap_heap 4096 .eager).mono ?_⟩
  rintro (_ | addr) k' h
  · exact h
  · exact ⟨h.1, h.2.1, h.2.2 rfl⟩

end

end Xv6.Vm
