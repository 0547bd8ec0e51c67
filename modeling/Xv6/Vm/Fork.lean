import Xv6.Vm.Spends

/-!
# `fork`

A successful `kfork` gives the child a copy of every page of the parent in pages that were
free; a failing one gives back all it took. Afterwards the two processes cannot reach each
other's memory: whatever one of them stores, faults in or grows, the other sees its own
bytes.
-/

namespace Xv6.Vm

open Eff Bag Function

/-- An unused slot is as `freeproc` has left it. -/
def Kernel.Clean (k : Kernel) : Prop :=
  ∀ j, (k.proc j).state = .unused → k.proc j = { Proc.clear with shmMask := (k.proc j).shmMask }

/-- Nothing is left of an attempt to make a process. -/
structure GaveUp (k k' : Kernel) : Prop where
  mem : Spends 0 k.mem k'.mem
  used : ∀ j, (k.proc j).state ≠ .unused → k'.proc j = k.proc j
  unused : ∀ j, (k.proc j).state = .unused → k'.proc j = k.proc j ∨ k'.proc j = Proc.clear
  shmtable : k'.shmtable = k.shmtable

section

variable {own : ℕ → Bool} {k k' : Kernel} {i np r tf : ℕ} {m0 : Mem}

/-! ## Slots -/

theorem GaveUp.refl (k : Kernel) : GaveUp k k :=
  ⟨Spends.refl _, fun _ _ => rfl, fun _ _ => .inl rfl, rfl⟩

theorem gaveUp_clear {m : Mem} (n : ℕ) (hs : Spends 0 k.mem m)
    (hunused : (k.proc np).state = .unused) :
    GaveUp k (Kernel.setProc { k with mem := m, nextpid := n } np Proc.clear) := by
  refine ⟨hs, fun j hj => ?_, fun j _ => ?_, rfl⟩
  · refine setProc_ne _ _ ?_
    rintro rfl
    exact hj hunused
  · by_cases hj : j = np
    · subst hj
      exact .inr (setProc_self _ _ _)
    · exact .inl (setProc_ne _ _ hj)

theorem shmcleanup_idle (hmask : (k.proc i).shmMask = fun _ => false) :
    Ensures (shmcleanup i) k fun _ k' => k' = k := by
  unfold shmcleanup
  refine (ensures_forUpto (I := fun _ t => t = k) rfl ?_).bind ?_
  · rintro key - t rfl
    refine ensures_get_bind ?_
    dsimp only
    rw [hmask, if_neg (by simp)]
    exact ensures_pure rfl
  · rintro - t rfl
    refine ensures_modify ?_
    dsimp only
    rw [← hmask, Kernel.setProc, update_eq_self]

theorem freeproc_early (hpt : (k.proc i).pagetable = none)
    (hmask : (k.proc i).shmMask = fun _ => false) (hp : m0.free ≤ pool)
    (hs : Spends (opt (k.proc i).trapframe) m0 k.mem) :
    Ensures (freeproc i) k fun _ k' => ∃ m, k' = Kernel.setProc { k with mem := m } i Proc.clear ∧
      Spends 0 m0 m := by
  unfold freeproc
  refine ensures_get_bind ?_
  cases htf : (k.proc i).trapframe <;> rw [htf] at hs
  case' some tf =>
    have hs1 : Spends (0 + {tf}) m0 k.mem := by simpa using hs
    refine ensures_onMem_bind (hs1.kfree hp) ?_
    rintro - m ⟨hs, -⟩
  all_goals
    refine ensures_modify_bind (ensures_get_bind ?_)
    simp only [setProc_self, hpt]
    refine ensures_modify ⟨_, ?_, hs⟩
    simp only [Kernel.setProc, update_self, update_idem, hmask]
    rfl

theorem freeproc_new (hpt : (k.proc i).pagetable = some r) (htf : (k.proc i).trapframe = some tf)
    (hmask : (k.proc i).shmMask = fun _ => false) (hthread : (k.proc i).isThread = false)
    (hsz : (k.proc i).sz = 0) (hown : ∀ v ≥ userVpn, own v = false) (hp : m0.free ≤ pool)
    (hn : NewTable own r {tf} m0 k.mem) (hleaf : (k.mem.table r).leaf = baseLeaf tf) :
    Ensures (freeproc i) k fun _ k' => ∃ m, k' = Kernel.setProc { k with mem := m } i Proc.clear ∧
      Spends 0 m0 m := by
  have hs : Spends ((k.mem.table r).pages own + ({r} + 0) + {tf}) m0 k.mem := by
    simpa [add_assoc] using hn.spends
  unfold freeproc
  refine ensures_get_bind ?_
  rw [htf]
  refine ensures_onMem_bind (hs.kfree hp) ?_
  rintro - m1 ⟨hs1, ht1⟩
  refine ensures_modify_bind (ensures_get_bind ?_)
  simp only [setProc_self, hpt]
  refine (shmcleanup_idle (by rw [setProc_self]; exact hmask)).bind ?_
  rintro - k1 rfl
  refine ensures_get_bind ?_
  simp only [setProc_self, hthread, hsz]
  have hn1 : NewTable own r 0 m0 m1 := ⟨hn.root, ht1 ▸ hs1, ht1 ▸ hn.wf⟩
  have hleaf1 : (m1.table r).leaf = baseLeaf tf := by rw [ht1, hleaf]
  refine ensures_onMem_bind (hn1.procFreepagetable hown hp hleaf1) ?_
  intro _ m2 hs2
  refine ensures_modify ⟨m2, ?_, hs2⟩
  simp only [Kernel.setProc, update_self, update_idem, hmask]
  rfl

theorem allocproc_spec (own : ℕ → Bool) (hown : ∀ v ≥ userVpn, own v = false) (hk : k.Clean)
    (hp : k.mem.free ≤ pool) :
    Ensures allocproc k fun res k' => match res with
      | none => GaveUp k k'
      | some np => (k.proc np).state = .unused ∧ ∃ r tf m,
          k' = Kernel.setProc { k with mem := m, nextpid := k.nextpid + 1 } np
            ((k.proc np).alloc k.nextpid tf r) ∧
          NewTable own r {tf} k.mem m ∧ (m.table r).leaf = baseLeaf tf := by
  refine ensures_get_bind ?_
  cases hfind : (List.range nproc).find? fun i => (k.proc i).state = .unused with
  | none => exact ensures_pure (GaveUp.refl k)
  | some np =>
    have hunused : (k.proc np).state = .unused := by simpa using List.find?_some hfind
    have hpt : (k.proc np).pagetable = none := by rw [hk np hunused]; rfl
    have htf : (k.proc np).trapframe = none := by rw [hk np hunused]; rfl
    refine ensures_modify_bind (ensures_modify_bind ?_)
    refine ensures_onMem_bind (Spends.refl k.mem).kalloc ?_
    rintro (_ | tf) m1 ⟨hs1, -⟩
    · refine (freeproc_early ?_ ?_ hp ?_).bind ?_
      · simp [Kernel.setProc, hpt]
      · simp [Kernel.setProc]
      · simpa [Kernel.setProc, htf] using hs1
      · rintro - k' ⟨m, rfl, hs⟩
        refine ensures_pure ?_
        have := gaveUp_clear (k.nextpid + 1) hs hunused
        simpa [Kernel.setProc] using this
    · refine ensures_modify_bind ?_
      rw [zero_add, opt_some] at hs1
      refine ensures_onMem_bind (procPagetable_spec hown hs1 hp tf) ?_
      rintro (_ | r) m2 h2
      · refine (freeproc_early ?_ ?_ hp ?_).bind ?_
        · simp [Kernel.setProc, hpt]
        · simp [Kernel.setProc]
        · simpa [Kernel.setProc] using h2
        · rintro - k' ⟨m, rfl, hs⟩
          refine ensures_pure ?_
          have := gaveUp_clear (k.nextpid + 1) hs hunused
          simpa [Kernel.setProc] using this
      · obtain ⟨hn, hleaf⟩ := h2
        refine ensures_modify_bind (ensures_pure ⟨hunused, r, tf, m2, ?_, hn, hleaf⟩)
        simp [Kernel.setProc, Proc.alloc]

/-! ## `kfork` -/

/-- What the processes use is not free. -/
structure Sane (k : Kernel) : Prop where
  clean : k.Clean
  free : k.mem.free ≤ pool
  mapped : ∀ j r, (k.proc j).pagetable = some r → r ∉ k.mem.freelist ∧
    ∀ v pte, (k.mem.table r).leaf v = some pte → pte.pa ∉ k.mem.freelist

/-- A process with its page table and its trapframe. -/
structure Owns (k : Kernel) (i r tf : ℕ) : Prop where
  pagetable : (k.proc i).pagetable = some r
  trapframe : (k.proc i).trapframe = some tf
  space : UserTable k.mem r (k.proc i).sz
  tf_free : tf ∉ k.mem.freelist
  used : (k.proc i).state ≠ .unused

/-- Slot `c` holds a child of process `i` with root `rc` and trapframe `tfc`. -/
structure Forked (i r tf c rc tfc : ℕ) (k k' : Kernel) : Prop where
  slot : (k.proc c).state = .unused
  child : k'.proc c = { (k.proc c).alloc k.nextpid tfc rc with
    sz := (k.proc i).sz, parent := some i, state := .runnable }
  others : ∀ j ≠ c, k'.proc j = k.proc j
  shmtable : k'.shmtable = k.shmtable
  table : NewTable belowTrapframe rc {tfc} k.mem k'.mem
  none : ∀ v < npages (k.proc i).sz, (k.mem.table r).leaf v = none →
    (k'.mem.table rc).leaf v = none
  some : ∀ v < npages (k.proc i).sz, ∀ pte, (k.mem.table r).leaf v = some pte →
    ∃ pa ∈ k.mem.freelist, (k'.mem.table rc).leaf v = some ⟨pa, pte.perm⟩ ∧
      k'.mem.data pa = k.mem.data pte.pa
  above : ∀ v, npages (k.proc i).sz ≤ v → (k'.mem.table rc).leaf v = baseLeaf tfc v
  regs : k'.mem.data tfc = fun o => if 112 ≤ o ∧ o < 120 then 0 else k.mem.data tf o

theorem setWord_zero (m : Mem) (tf off : ℕ) :
    Ensures (setWord tf off 0) m fun _ m' => m' = { m with
      data := update m.data tf fun o =>
        if off ≤ o ∧ o < off + 8 then 0 else m.data tf o } := by
  refine (setWord_spec m tf off 0).mono ?_
  rintro - m' rfl
  have hpoke : poke (m.data tf) off 0 =
      fun o => if off ≤ o ∧ o < off + 8 then 0 else m.data tf o := by
    funext o
    simp [poke]
  rw [hpoke]

theorem kfork_spec (hk : Sane k) (hi : Owns k i r tf) :
    Ensures (kfork i) k fun res k' => match res with
      | Option.none => GaveUp k k'
      | Option.some c => ∃ rc tfc, Forked i r tf c rc tfc k k' := by
  have hnp := npages_le_userVpn hi.space.sz
  have hlt := userVpn_lt
  refine (allocproc_spec belowTrapframe belowTrapframe_high hk.clean hk.free).bind ?_
  rintro (_ | c) k1 h1
  · exact ensures_pure h1
  obtain ⟨hunused, rc, tfc, m1, rfl, hn1, hleaf1⟩ := h1
  have hic : i ≠ c := by
    rintro rfl
    exact hi.used hunused
  have hold1 : m1.table r = k.mem.table r :=
    hn1.spends.table r (hk.mapped i r hi.pagetable).1
  have hrne : r ≠ rc := fun heq => (hk.mapped i r hi.pagetable).1 (heq ▸ hn1.root)
  refine ensures_get_bind ?_
  simp only [setProc_ne _ _ hic]
  refine ensures_deref_bind hi.pagetable (ensures_get_bind ?_)
  refine ensures_deref_bind (by rw [setProc_self]; rfl) ?_
  -- the frames of the parent are not among the pages that the child is made of
  have hcopy : Ensures (uvmcopy r rc (k.proc i).sz) m1 fun b m' =>
      Evolves belowTrapframe rc ∅ ({rc} + {tfc}) ({rc} + {tfc}) m1 m' ∧
      (b = true → Cloned r rc 0 (npages (k.proc i).sz) m1 m') ∧
      (b = false → (m'.table rc).leaf =
        clear 0 (0 + npages (k.proc i).sz) (m1.table rc).leaf) := by
    rw [uvmcopy, pgroundup_eq, mul_pgsize_div, ← zero_mul pgsize]
    refine uvmcopyLoop_spec hrne (npages (k.proc i).sz) 0 (by omega) hn1.wf (hold1 ▸ hi.space.wf)
      ?_ ?_ ?_ (hn1.fits hk.free)
    · intro v hv
      simp only [belowTrapframe, decide_eq_true_eq]
      omega
    · intro v _ hv
      rw [hleaf1]
      exact baseLeaf_user (by omega)
    · intro v _ _ pte hl
      rw [hn1.spends.account_eq]
      exact fun hfree => (hk.mapped i r hi.pagetable).2 v pte (hold1 ▸ hl) (Multiset.mem_coe.mp hfree)
  refine ensures_onMem_bind hcopy ?_
  rintro b m2 ⟨he2, htrue, hfalse⟩
  have hn2 : NewTable belowTrapframe rc {tfc} k.mem m2 := hn1.evolves he2
  cases b with
  | false =>
    have hleaf2 : (m2.table rc).leaf = baseLeaf tfc := by
      rw [hfalse rfl, hleaf1]
      funext v
      rw [clear]
      split_ifs with hv
      · exact (baseLeaf_user (by omega)).symm
      · rfl
    have hclear : (k.proc c).sz = 0 := by rw [hk.clean c hunused]; rfl
    refine (freeproc_new (i := c) (by rw [setProc_self]; rfl)
      (by rw [setProc_self]; rfl) (by rw [setProc_self]; rfl) (by rw [setProc_self]; rfl)
      (by rw [setProc_self]; exact hclear) belowTrapframe_high hk.free hn2 hleaf2).bind ?_
    rintro - k' ⟨m, rfl, hs⟩
    refine ensures_pure ?_
    have := gaveUp_clear (k.nextpid + 1) hs hunused
    simpa [Kernel.setProc] using this
  | true =>
    have hc := htrue rfl
    have htf2 : m2.data tf = k.mem.data tf := hn2.spends.data tf hi.tf_free
    have htfc : tfc ∉ m1.freelist := by
      have hsum := hn1.spends.free
      have hnodup := Multiset.nodup_of_le hk.free pool_nodup
      rw [← hsum, Multiset.nodup_add] at hnodup
      exact fun hm => Multiset.disjoint_left.mp hnodup.2.2 (Multiset.mem_coe.mpr hm) (by simp)
    -- the trapframe is filled
    set d := fun o => if 112 ≤ o ∧ o < 112 + 8 then 0 else k.mem.data tf o with hd
    have hn3 : NewTable belowTrapframe rc {tfc} k.mem
        { m2 with data := update m2.data tfc d } :=
      ⟨hn2.root, hn2.spends.memset (by simp) d, hn2.wf⟩
    refine ensures_modify_bind (ensures_get_bind ?_)
    refine ensures_deref_bind (a := tfc) (by simp [Kernel.setProc, Proc.alloc]) ?_
    refine ensures_deref_bind hi.trapframe ?_
    refine ensures_onMem_bind (P := fun _ m' => m' = { m2 with
      data := update m2.data tfc (k.mem.data tf) }) (ensures_modify ?_) ?_
    · rw [← htf2]
      rfl
    rintro - m3 rfl
    have hword := setWord_zero { m2 with data := update m2.data tfc (k.mem.data tf) } tfc 112
    simp only [update_self, update_idem, ← hd] at hword
    refine ensures_onMem_bind hword ?_
    rintro - m4 rfl
    refine ensures_modify_bind (ensures_modify_bind (ensures_pure ⟨rc, tfc, ?_⟩))
    constructor
    case slot => exact hunused
    case child => simp [Kernel.setProc, Proc.alloc]
    case others =>
      intro j hj
      simp [Kernel.setProc, hj]
    case shmtable => rfl
    case table => exact hn3
    case none =>
      intro v hv hl
      exact hc.none v (by omega) (by omega) (hold1 ▸ hl)
    case some =>
      intro v hv pte hl
      obtain ⟨pa, hpa, hlc, hdc⟩ := hc.some v (by omega) (by omega) pte (hold1 ▸ hl)
      have hne : pa ≠ tfc := by
        rintro rfl
        exact htfc hpa
      refine ⟨pa, hn1.spends.free_mem hpa, hlc, ?_⟩
      refine (update_of_ne hne _ _).trans ?_
      rw [hdc, hn1.spends.data _ ((hk.mapped i r hi.pagetable).2 v pte hl)]
    case above =>
      intro v hv
      refine (hc.other v (by omega)).trans ?_
      rw [hleaf1]
    case regs => exact update_self ..

end

end Xv6.Vm
