import Xv6.Vm.Fork

/-!
# Processes apart

After `kfork` parent and child own different pages. An operation of one of them reaches
its own pages and the free ones only, so that it leaves what the other sees as it was,
however the two are interleaved.
-/

namespace Xv6.Vm

open Eff Bag

/-- The process in slot `i` has the page table at `r`. -/
structure Has (k : Kernel) (i r : ℕ) : Prop where
  pagetable : (k.proc i).pagetable = some r
  space : UserTable k.mem r (k.proc i).sz

/-- The process in slot `i` worked on its own pages and on free ones. -/
structure Stays (i r : ℕ) (k k' : Kernel) : Prop where
  evolves : Evolves belowTrapframe r ∅ {r} {r} k.mem k'.mem
  has : Has k' i r
  others : ∀ j ≠ i, k'.proc j = k.proc j

section

variable {k k' k'' : Kernel} {m m' : Mem} {i r c rc : ℕ} {E : String → Prop}

theorem Stays.refl (h : Has k i r) : Stays i r k k := ⟨.refl _ _ _ _ _, h, fun _ _ => rfl⟩

theorem Stays.trans (h : Stays i r k k') (h' : Stays i r k' k'') : Stays i r k k'' :=
  ⟨h.evolves.trans h'.evolves, h'.has, fun j hj => (h'.others j hj).trans (h.others j hj)⟩

theorem Has.onMem (h : Has k i r) (he : Evolves belowTrapframe r ∅ {r} {r} k.mem m)
    (ht : UserTable m r (k.proc i).sz) : Stays i r k { k with mem := m } :=
  ⟨he, ⟨h.pagetable, ht⟩, fun _ _ => rfl⟩

theorem Has.setProc (h : Has k i r) {p : Proc} (hp : p.pagetable = (k.proc i).pagetable)
    (hsz : p.sz ≤ Vm.trapframe) : Stays i r k (k.setProc i p) where
  evolves := .refl _ _ _ _ _
  has := by
    constructor
    · rw [setProc_self, hp, h.pagetable]
    · rw [setProc_self]
      exact ⟨hsz, h.space.wf, h.space.frames, h.space.high⟩
  others j hj := setProc_ne _ _ hj

theorem within_onMem_bind {α β : Type} {f : M α} {g : α → KM β} {P : α → Mem → Prop}
    {Q : β → Kernel → Prop} (h : Within E f k.mem P)
    (hg : ∀ a m, P a m → Within E (g a) { k with mem := m } Q) : Within E (onMem f >>= g) k Q := by
  have hrun : (onMem f >>= g) k = onMem f k >>= fun x => g x.1 x.2 := rfl
  unfold Within at h ⊢
  rw [hrun, onMem]
  split at h
  · rename_i a m hf
    rw [hf]
    exact hg a m h
  · rename_i e hf
    rw [hf]
    exact h

theorem within_deref_bind {β : Type} {p : Option ℕ} {a : ℕ} {g : ℕ → KM β}
    {Q : β → Kernel → Prop} (hp : p = some a) (h : Within E (g a) k Q) :
    Within E (deref p >>= g) k Q := by
  subst hp
  exact h

/-! ## Growing over pages that are mapped

The window of the shared pages lies below the trapframe, and to grow over one of them is a
panic in `mappages`. Short of it, a growth that is given up may clear pages of the process.
-/

variable {sz : ℕ}

theorem mappages_within (own : ℕ → Bool) (r : ℕ) (W : Set ℕ) (h : Multiset ℕ) {va : ℕ} (pa : ℕ)
    (perm : Perm) (hva : va < maxva) (hal : va % pgsize = 0) (hwf : (m.table r).Wf) :
    Within (fun _ => True) (mappages r va pgsize pa perm) m fun b m' =>
      Mapped own r W h va ⟨pa, perm⟩ b m m' := by
  cases hl : (m.table r).leaf (va / pgsize) with
  | none => exact (mappages_spec own r W h pa perm hva hal hwf hl).within
  | some pte =>
    have hdiv : va / pgsize / 512 = va / 2 ^ 21 := Nat.div_div_eq_div_mul va pgsize 512
    have hnext : (m.table r).next 1 (va / 2 ^ 21) ≠ none := by
      rw [← hdiv]
      exact hwf.leaf _ (by simp [hl])
    rw [mappages, if_neg (by omega), if_neg (by simp), if_neg (by simp [pgsize]),
      Nat.div_self (by simp [pgsize]), mapLoop]
    refine (walk_spec own r W h hva hwf).within.bind ?_
    rintro b m1 hw
    obtain ⟨rfl, rfl⟩ := hw.keep hwf hnext
    refine within_get_bind ?_
    rw [hl]
    exact within_throw trivial

theorem UserTable.evolves (ht : UserTable m r sz) (he : Evolves belowTrapframe r ∅ {r} {r} m m')
    (hhigh : ∀ v ≥ userVpn, (m'.table r).leaf v = (m.table r).leaf v) : UserTable m' r sz :=
  ⟨ht.sz, he.wf ht.wf, he.fits ht.frames, fun v hv pte hl => ht.high v hv pte (hhigh v hv ▸ hl)⟩

theorem uvmdealloc_stays (ht : UserTable m r sz) {oldsz newsz : ℕ} (hold : oldsz ≤ Vm.trapframe) :
    Ensures (uvmdealloc r oldsz newsz) m fun res m' => res = min oldsz newsz ∧
      Evolves belowTrapframe r ∅ {r} {r} m m' ∧ UserTable m' r sz := by
  have hnp := npages_le_userVpn hold
  have hlt := userVpn_lt
  refine (uvmdealloc_spec belowTrapframe r ∅ {r} (by omega) ht.wf (fun v _ hv => ?_)
    ht.frames).mono fun res m' ⟨hres, hu⟩ => ⟨hres, hu.evolves, ht.evolves hu.evolves ?_⟩
  · simp only [belowTrapframe, decide_eq_true_eq]
    omega
  · intro v hv
    rw [hu.leaf]
    exact if_neg (by omega)

theorem uvmallocLoop_stays {lo newsz : ℕ} {xperm : Perm} (n k : ℕ) (hk : k + n ≤ userVpn)
    (ht : UserTable m r sz) :
    Within (fun _ => True) (uvmallocLoop r (lo * pgsize) newsz xperm n (k * pgsize)) m
      fun res m' => (res = newsz ∨ res = 0) ∧ Evolves belowTrapframe r ∅ {r} {r} m m' ∧
        UserTable m' r sz := by
  induction n generalizing k m with
  | zero => exact within_pure ⟨.inl rfl, .refl _ _ _ _ _, ht⟩
  | succ n ih =>
    have hlt : k * pgsize < maxva := mul_pgsize_lt (by omega)
    have hcost : ∀ pte, cost belowTrapframe k pte = opt (pte.map Pte.pa) := by
      intro pte
      have huser : k < userVpn := by omega
      simp [cost, belowTrapframe, huser]
    have hundo : ∀ {t}, Evolves belowTrapframe r ∅ {r} {r} m t → UserTable t r sz →
        Within (fun _ => True) (uvmdealloc r (k * pgsize) (lo * pgsize) >>= fun _ => pure 0) t
          fun res m' => (res = newsz ∨ res = 0) ∧ Evolves belowTrapframe r ∅ {r} {r} m m' ∧
            UserTable m' r sz := by
      intro t he hu
      have hold : k * pgsize ≤ Vm.trapframe := by
        simp only [userVpn, trapframe, trampoline, maxva, pgsize] at *
        omega
      refine (uvmdealloc_stays hu hold).within.bind ?_
      rintro - m' ⟨-, he', hu'⟩
      exact within_pure ⟨.inr rfl, he.trans he', hu'⟩
    rw [uvmallocLoop]
    refine (kalloc_spec belowTrapframe r ∅ {r}).within.bind ?_
    rintro (_ | mem) m1 ⟨he, htab, hfree, -, -⟩
    · have he' : Evolves belowTrapframe r ∅ {r} {r} m m1 := by simpa using he
      exact hundo he' (ht.evolves he' fun _ _ => by rw [htab])
    · refine (memset_spec belowTrapframe r ∅ ({r} + {mem}) 0
        (.inl (mem_account_hand (by simp)))).within.bind ?_
      rintro - m2 ⟨he2, htab2, -, -⟩
      have hem : Evolves belowTrapframe r ∅ {r} ({r} + {mem}) m m2 := he.trans he2
      refine (mappages_within belowTrapframe r ∅ {r} mem _ hlt (Nat.mul_mod_left _ _)
        (hem.wf ht.wf)).bind ?_
      rintro (_ | _) m3 hm
      · have hev : Evolves belowTrapframe r ∅ {r} ({r} + {mem}) m m3 :=
          hem.trans (by simpa [hcost] using hm.evolves)
        have hpage : Page mem := page_of_mem
          (Multiset.subset_of_le (hev.fits ht.frames) (mem_account_hand (by simp)))
        refine (kfree_spec belowTrapframe r ∅ {r} hpage).within.bind ?_
        rintro - m4 ⟨he4, htab4, -⟩
        refine hundo (hev.trans he4) (ht.evolves (hev.trans he4) fun v _ => ?_)
        rw [htab4, hm.leaf, htab2, htab]
        rfl
      · have hev : Evolves belowTrapframe r ∅ {r} {r} m m3 :=
          hem.trans (by simpa [hcost] using hm.evolves)
        have hnext : k * pgsize + pgsize = (k + 1) * pgsize := by ring
        simp only [if_true, hnext]
        refine (ih (k + 1) (by omega) (ht.evolves hev fun v hv => ?_)).mono ?_
        · rw [hm.leaf, if_pos rfl, mul_pgsize_div, Function.update_of_ne (by omega), htab2, htab]
        · rintro res m' ⟨hres, he', hu⟩
          exact ⟨hres, hev.trans he', hu⟩

theorem uvmalloc_stays {oldsz newsz : ℕ} {xperm : Perm} (hold : oldsz ≤ newsz)
    (hnew : newsz ≤ Vm.trapframe) (ht : UserTable m r sz) :
    Within (fun _ => True) (uvmalloc r oldsz newsz xperm) m
      fun res m' => (res = newsz ∨ res = 0) ∧ Evolves belowTrapframe r ∅ {r} {r} m m' ∧
        UserTable m' r sz := by
  have hnp := npages_le_userVpn hnew
  have hmono := npages_mono hold
  have hcount : (pgroundup newsz - pgroundup oldsz) / pgsize = npages newsz - npages oldsz := by
    rw [pgroundup_eq, pgroundup_eq, ← Nat.sub_mul, mul_pgsize_div]
  rw [uvmalloc, if_neg (by omega), hcount, pgroundup_eq]
  exact uvmallocLoop_stays _ _ (by omega) ht

/-! ## One operation -/

theorem growproc_stays (h : Has k i r) {n : ℤ} (hhi : n < 2 ^ 31) :
    Within (fun _ => True) (growproc i n) k fun _ k' => Stays i r k k' := by
  have hsz := h.space.sz
  refine within_get_bind (within_deref_bind h.pagetable ?_)
  split_ifs with hpos hfit hneg
  · exact within_pure (Stays.refl h)
  · have hle : (k.proc i).sz ≤ addInt (k.proc i).sz n := by
      rw [addInt_eq hsz hpos.le hhi]
      exact le_newSize hpos.le
    refine within_onMem_bind (uvmalloc_stays hle (not_lt.mp hfit) h.space) ?_
    rintro sz m ⟨hres, he, ht⟩
    have hmem := h.onMem he ht
    split_ifs with hzero
    · exact within_pure hmem
    · refine within_modify_bind (within_pure (hmem.trans (hmem.has.setProc rfl ?_)))
      have hnew : sz = addInt (k.proc i).sz n := hres.resolve_right hzero
      exact hnew ▸ not_lt.mp hfit
  · refine within_onMem_bind (uvmdealloc_stays h.space hsz).within ?_
    rintro sz m ⟨rfl, he, ht⟩
    have hmem := h.onMem he ht
    refine within_modify_bind (within_pure (hmem.trans (hmem.has.setProc rfl ?_)))
    exact (min_le_left _ _).trans hsz
  · exact within_pure (Stays.refl h)

theorem sysSbrk_stays (h : Has k i r) (n : BitVec 32) (t : SbrkType) :
    Within (fun _ => True) (sysSbrk i n t) k fun _ k' => Stays i r k k' := by
  have hhi : n.toInt < 2 ^ 31 := by have := n.toInt_lt; omega
  refine within_get_bind ?_
  dsimp only
  split_ifs with heager hwrap hfit
  · refine (growproc_stays h hhi).bind ?_
    rintro b k' hs
    cases b <;> exact within_pure hs
  · exact within_pure (Stays.refl h)
  · exact within_pure (Stays.refl h)
  · exact within_modify_bind (within_pure (h.setProc rfl (not_lt.mp hfit)))

theorem vmfault_stays (ht : UserTable m r sz) (va : ℕ) :
    Ensures (vmfault sz r r va) m fun _ m' =>
      Evolves belowTrapframe r ∅ {r} {r} m m' ∧ UserTable m' r sz := by
  have hmax : sz ≤ maxva := ht.sz.trans (by decide)
  have hsame : Evolves belowTrapframe r ∅ {r} {r} m m ∧ UserTable m r sz :=
    ⟨.refl _ _ _ _ _, ht⟩
  by_cases hva : sz ≤ va
  · exact ⟨_, _, vmfault_none ht.wf hmax (.inl hva), hsame⟩
  by_cases hl : (m.table r).leaf (va / pgsize) = none
  · have hle : va / pgsize * pgsize ≤ va := Nat.div_mul_le_self _ _
    have hround : vmfault sz r r va m = vmfault sz r r (va / pgsize * pgsize) m := by
      rw [vmfault, vmfault, if_neg (by omega), if_neg (by omega)]
      simp only [pgrounddown, mul_pgsize_div]
    obtain ⟨res, m', hrun, hp⟩ := vmfault_spec ht (v := va / pgsize) (by omega) hl
    exact ⟨res, m', hround.trans hrun, hp.evolves, hp.table⟩
  · exact ⟨_, _, vmfault_none ht.wf hmax (.inr hl), hsame⟩

theorem access_stays (h : Has k i r) (va : ℕ) (acc : Access) :
    Ensures (access i va acc) k fun res k' => Stays i r k k' ∧ ∀ pa, res = some pa →
      ∃ v pte, (k'.mem.table r).leaf v = some pte ∧ pte.perm.u = true ∧ pte.pa = pa := by
  have hfound : ∀ {m pa}, ((((m : Mem).table r).leaf (va / pgsize)).filter
      fun pte => pte.perm.allows acc).map Pte.pa = some pa →
      ∃ v pte, (m.table r).leaf v = some pte ∧ pte.perm.u = true ∧ pte.pa = pa := by
    intro m pa hpa
    obtain ⟨pte, hpte, rfl⟩ := Option.map_eq_some_iff.mp hpa
    obtain ⟨hl, hal⟩ := Option.filter_eq_some_iff.mp hpte
    refine ⟨_, pte, hl, ?_, rfl⟩
    cases acc <;> simp only [Perm.allows, Bool.and_eq_true] at hal <;> exact hal.1
  refine ensures_get_bind (ensures_deref_bind h.pagetable ?_)
  refine ensures_eq_bind (onMem_eq (translate_eq va acc h.space.wf)) ?_
  split
  · rename_i pa hpa
    refine ensures_pure ⟨Stays.refl h, ?_⟩
    rintro pa' ⟨⟩
    exact hfound hpa
  · refine ensures_onMem_bind (vmfault_stays h.space va) ?_
    rintro (_ | x) m ⟨he, ht⟩
    · have hmem := h.onMem he ht
      refine ensures_modify_bind (ensures_pure ⟨hmem.trans (hmem.has.setProc rfl ht.sz), ?_⟩)
      simp
    · refine ensures_onMem ⟨_, _, translate_eq va acc ht.wf, h.onMem he ht, ?_⟩
      exact fun pa hpa => hfound hpa

theorem load_stays (h : Has k i r) (va : ℕ) :
    Ensures (load i va) k fun _ k' => Stays i r k k' := by
  refine (access_stays h va .load).bind ?_
  rintro (_ | pa) k1 ⟨hs, -⟩
  · exact ensures_pure hs
  · exact ensures_get_bind (ensures_pure hs)

theorem store_stays (h : Has k i r) (va b : ℕ) :
    Ensures (store i va b) k fun _ k' => Stays i r k k' := by
  refine (access_stays h va .store).bind ?_
  rintro (_ | pa) k1 ⟨hs, hfound⟩
  · exact ensures_pure hs
  · obtain ⟨v, pte, hl, hu, rfl⟩ := hfound pa rfl
    have ht := hs.has.space
    have he := ht.evolves_setByte (va % pgsize) b hl hu
    refine ensures_onMem_bind (P := fun _ m => m = k1.mem.setByte pte.pa (va % pgsize) b)
      (ensures_modify rfl) ?_
    rintro - m rfl
    exact ensures_pure (hs.trans (hs.has.onMem he (ht.evolves he fun _ _ => rfl)))

theorem copyinstr_stays (h : Has k i r) (srcva max : ℕ) :
    Ensures (onMem (copyinstr r srcva max)) k fun _ k' => Stays i r k k' := by
  refine ensures_onMem ((copyinstr_view (k.proc i).sz h.space.wf max srcva).mono ?_)
  rintro res m ⟨-, rfl⟩
  exact Stays.refl h

theorem copyin_stays (h : Has k i r) (srcva len : ℕ) :
    Ensures (onMem (copyin (k.proc i).sz r r srcva len)) k fun _ k' => Stays i r k k' :=
  ensures_onMem ((copyin_spec len srcva h.space).mono fun _ _ hc => h.onMem hc.evolves hc.table)

/-- Whatever a process does short of `fork` stays within its own pages and the free ones. -/
theorem step_stays (h : Has k i r) {op : Op} (hop : op ≠ .fork) :
    Within (fun _ => True) (step i op) k fun _ k' => Stays i r k k' := by
  refine within_get_bind ?_
  dsimp only
  split_ifs
  · cases op with
    | load va => exact (load_stays h va).within.bind fun _ _ hs => within_pure hs
    | store va b => exact (store_stays h va b).within.bind fun _ _ hs => within_pure hs
    | copyin srcva len =>
      exact within_deref_bind h.pagetable
        ((copyin_stays h srcva len).within.bind fun _ _ hs => within_pure hs)
    | copyout dstva src =>
      refine within_deref_bind h.pagetable ?_
      refine within_onMem_bind (copyout_spec src dstva h.space).within ?_
      exact fun _ _ hc => within_pure (h.onMem hc.evolves hc.table)
    | copyinstr srcva max =>
      exact within_deref_bind h.pagetable
        ((copyinstr_stays h srcva max).within.bind fun _ _ hs => within_pure hs)
    | fetchaddr addr =>
      have hfetch : Ensures (fetchaddr i addr) k fun _ k' => Stays i r k k' := by
        refine ensures_get_bind ?_
        dsimp only
        split_ifs
        · exact ensures_pure (Stays.refl h)
        · exact ensures_deref_bind h.pagetable (copyin_stays h addr 8)
      exact hfetch.within.bind fun _ _ hs => within_pure hs
    | fetchstr addr max =>
      have hfetch : Ensures (fetchstr i addr max) k fun _ k' => Stays i r k k' :=
        ensures_get_bind (ensures_deref_bind h.pagetable (copyinstr_stays h addr max))
      exact hfetch.within.bind fun _ _ hs => within_pure hs
    | sbrk n t => exact (sysSbrk_stays h n t).bind fun _ _ hs => within_pure hs
    | fork => exact absurd rfl hop
  · exact within_pure (Stays.refl h)

/-! ## Two processes -/

/-- The byte that the process in a slot reads at an address. -/
def Kernel.reads (k : Kernel) (i a : ℕ) : Option ℕ :=
  (k.proc i).pagetable.bind fun r => seen k.mem r (k.proc i).sz a

theorem Has.reads (h : Has k i r) (a : ℕ) : k.reads i a = seen k.mem r (k.proc i).sz a := by
  rw [Kernel.reads, h.pagetable]
  rfl

/-- Two processes that have no page in common. -/
structure Pair (k : Kernel) (i r c rc : ℕ) : Prop where
  ne : i ≠ c
  left : Has k i r
  right : Has k c rc
  frames : k.mem.account belowTrapframe r
    ({r} + ((k.mem.table rc).pages belowTrapframe + {rc})) ≤ pool

theorem Pair.symm (h : Pair k i r c rc) : Pair k c rc i r where
  ne := h.ne.symm
  left := h.right
  right := h.left
  frames := by
    refine le_of_eq_of_le ?_ h.frames
    simp only [Mem.account]
    abel

theorem Pair.disjoint (h : Pair k i r c rc) {x : ℕ}
    (hx : x ∈ (k.mem.table rc).pages belowTrapframe + {rc}) :
    x ∉ k.mem.account belowTrapframe r {r} := by
  have hnodup := Multiset.nodup_of_le h.frames pool_nodup
  rw [Mem.account_add] at hnodup
  exact fun hmem => (Multiset.disjoint_left.mp (Multiset.nodup_add.mp hnodup).2.2) hmem hx

theorem Pair.roots (h : Pair k i r c rc) : rc ≠ r := by
  rintro rfl
  exact h.disjoint (x := rc) (by simp) (mem_account_hand (by simp))

theorem Pair.stays (h : Pair k i r c rc) (hs : Stays i r k k') : Pair k' i r c rc ∧
    ∀ a, k'.reads c a = k.reads c a := by
  have hproc := hs.others c h.ne.symm
  have htab := hs.evolves.frame rc h.roots
  have hframes : k'.mem.account belowTrapframe r
      ({r} + ((k'.mem.table rc).pages belowTrapframe + {rc})) ≤ pool := by
    rw [htab, Mem.account_add, hs.evolves.ledger, ← Mem.account_add]
    exact h.frames
  have hc : Has k' c rc := by
    refine ⟨hproc ▸ h.right.pagetable, hproc ▸ h.right.space.sz, htab ▸ h.right.space.wf, ?_,
      htab ▸ h.right.space.high⟩
    refine le_trans ?_ hframes
    simp only [Mem.account]
    calc k'.mem.free + (k'.mem.table rc).pages belowTrapframe + {rc}
        ≤ k'.mem.free + (k'.mem.table rc).pages belowTrapframe + {rc} +
            ((k'.mem.table r).pages belowTrapframe + {r}) := Multiset.le_add_right _ _
      _ = _ := by abel
  refine ⟨⟨h.ne, hs.has, hc, hframes⟩, fun a => ?_⟩
  rw [hc.reads, h.right.reads, hproc]
  refine seen_congr (by rw [htab]) fun pte hl hu => ?_
  have hv := h.right.space.lt hl hu
  have hmem : pte.pa ∈ (k.mem.table rc).pages belowTrapframe :=
    leaf_mem_pages (hv.trans userVpn_lt) (by simpa [belowTrapframe] using hv) hl
  exact congrFun (hs.evolves.data _ (h.disjoint (Multiset.mem_add.mpr (.inl hmem))) (by simp)) _

/-- What processes `i` and `c` do from now on short of `fork`. -/
def Later (i c : ℕ) (x : ℕ × Op) : Prop := (x.1 = i ∨ x.1 = c) ∧ x.2 ≠ .fork

theorem Pair.step (h : Pair k i r c rc) {x : ℕ × Op} (hx : Later i c x) :
    Within (fun _ => True) (step x.1 x.2) k fun _ k' => Pair k' i r c rc ∧
      (x.1 = i → ∀ a, k'.reads c a = k.reads c a) ∧
      (x.1 = c → ∀ a, k'.reads i a = k.reads i a) := by
  obtain ⟨j, op⟩ := x
  obtain ⟨rfl | rfl, hop⟩ := hx
  · refine (step_stays h.left hop).mono fun _ k' hs => ?_
    obtain ⟨hpair, hsame⟩ := h.stays hs
    exact ⟨hpair, fun _ => hsame, fun heq => absurd heq h.ne⟩
  · refine (step_stays h.right hop).mono fun _ k' hs => ?_
    obtain ⟨hpair, hsame⟩ := h.symm.stays hs
    exact ⟨hpair.symm, fun heq => absurd heq.symm h.ne, fun _ => hsame⟩

theorem Pair.run (h : Pair k i r c rc) (ops : List (ℕ × Op)) (hops : ∀ x ∈ ops, Later i c x) :
    Within (fun _ => True) (run ops) k fun _ k' => Pair k' i r c rc := by
  induction ops generalizing k with
  | nil => exact within_pure h
  | cons x ops ih =>
    refine (h.step (hops x (by simp))).bind fun _ k1 ⟨h1, _⟩ => ?_
    exact (ih h1 fun y hy => hops y (by simp [hy])).bind fun _ k2 h2 => within_pure h2

/-- However `i` and `c` go on, what one of them does leaves what the other reads. -/
def Isolated (i c : ℕ) (k : Kernel) : Prop :=
  ∀ ops : List (ℕ × Op), (∀ x ∈ ops, Later i c x) → ∀ rs k1, run ops k = .ok (rs, k1) →
    ∀ x, Later i c x → ∀ res k2, step x.1 x.2 k1 = .ok (res, k2) →
      (x.1 = i → ∀ a, k2.reads c a = k1.reads c a) ∧ (x.1 = c → ∀ a, k2.reads i a = k1.reads i a)

theorem Pair.isolated (h : Pair k i r c rc) : Isolated i c k := by
  intro ops hops rs k1 hrun x hx res k2 hstep
  exact (((h.run ops hops).of_ok hrun).step hx).of_ok hstep |>.2

/-! ## After `fork` -/

variable {tf tfc : ℕ}

theorem baseLeaf_kernel {v : ℕ} {pte : Pte} (hl : baseLeaf tf v = some pte) :
    pte.perm.u = false := by
  unfold baseLeaf at hl
  split_ifs at hl <;> cases hl <;> rfl

theorem Forked.pair (hk : Sane k) (hi : Owns k i r tf) (h : Forked i r tf c rc tfc k k') :
    Pair k' i r c rc := by
  have hroot := (hk.mapped i r hi.pagetable).1
  have hic : i ≠ c := by
    rintro rfl
    exact hi.used h.slot
  have htab : k'.mem.table r = k.mem.table r := h.table.spends.table r hroot
  have hproc : k'.proc i = k.proc i := h.others i hic
  have hsz : (k'.proc c).sz = (k.proc i).sz := by rw [h.child]
  have hfree := h.table.spends.free
  have hframes : k'.mem.account belowTrapframe r
      ({r} + ((k'.mem.table rc).pages belowTrapframe + {rc})) ≤ pool := by
    refine le_trans ?_ hi.space.frames
    simp only [Mem.account, htab, ← hfree]
    calc _ ≤ k'.mem.free + (k.mem.table r).pages belowTrapframe +
            ({r} + ((k'.mem.table rc).pages belowTrapframe + {rc})) + {tfc} :=
          Multiset.le_add_right _ _
      _ = _ := by abel
  refine ⟨hic, ⟨hproc ▸ hi.pagetable, hproc ▸ hi.space.sz, htab ▸ hi.space.wf, ?_,
    htab ▸ hi.space.high⟩, ⟨by rw [h.child]; rfl, hsz ▸ hi.space.sz, h.table.wf, ?_, ?_⟩, hframes⟩
  · refine le_trans ?_ hframes
    rw [Mem.account_add]
    exact Multiset.le_add_right _ _
  · refine le_trans ?_ (h.table.fits hk.free)
    rw [Mem.account_add]
    exact Multiset.le_add_right _ _
  · intro v hv pte hl
    have hnp := npages_le_userVpn hi.space.sz
    rw [h.above v (by omega)] at hl
    exact baseLeaf_kernel hl

theorem Forked.sole (hk : Sane k) (h : Forked i r tf c rc tfc k k') {pa : ℕ}
    (hpa : pa ∈ k.mem.freelist) {j rj v : ℕ} (hj : j ≠ c) (hp : (k'.proc j).pagetable = Option.some rj)
    {pte : Pte} (hl : (k'.mem.table rj).leaf v = Option.some pte) : pte.pa ≠ pa := by
  rw [h.others j hj] at hp
  obtain ⟨hroot, hmapped⟩ := hk.mapped j rj hp
  rw [h.table.spends.table rj hroot] at hl
  rintro rfl
  exact hmapped v pte hl hpa

/-- `kfork` on a kernel whose processes use no free page. When it succeeds the child has
the pages of the parent with equal flags and contents in frames of its own, the registers
of the parent but for `a0`, and from then on neither process can change what the other
reads. When it fails nothing is left of the attempt. -/
theorem kfork_isolates (hk : Sane k) (hi : Owns k i r tf) :
    Ensures (kfork i) k fun res k' => match res with
      | none => GaveUp k k' ∧ k'.proc i = k.proc i ∧ k'.mem.table r = k.mem.table r ∧
          (∀ v pte, (k.mem.table r).leaf v = some pte → k'.mem.data pte.pa = k.mem.data pte.pa) ∧
          k'.mem.data tf = k.mem.data tf
      | some c => ∃ rc tfc, (k.proc c).state = .unused ∧ (k'.proc c).state = .runnable ∧
          (k'.proc c).pagetable = some rc ∧ (k'.proc c).trapframe = some tfc ∧
          (k'.proc c).sz = (k.proc i).sz ∧
          (∀ v < npages (k.proc i).sz, (k.mem.table r).leaf v = none →
            (k'.mem.table rc).leaf v = none) ∧
          (∀ v < npages (k.proc i).sz, ∀ pte, (k.mem.table r).leaf v = some pte →
            ∃ pa, (k'.mem.table rc).leaf v = some ⟨pa, pte.perm⟩ ∧
              k'.mem.data pa = k.mem.data pte.pa ∧
              ∀ j ≠ c, ∀ rj, (k'.proc j).pagetable = some rj → ∀ w pte',
                (k'.mem.table rj).leaf w = some pte' → pte'.pa ≠ pa) ∧
          (k'.mem.data tfc = fun o => if 112 ≤ o ∧ o < 120 then 0 else k.mem.data tf o) ∧
          (∀ a, k'.reads i a = k.reads i a) ∧ Isolated i c k' := by
  have hroot := hk.mapped i r hi.pagetable
  refine (kfork_spec hk hi).mono ?_
  rintro (_ | c) k' h
  · exact ⟨h, h.used i hi.used, h.mem.table r hroot.1,
      fun v pte hl => h.mem.data _ (hroot.2 v pte hl), h.mem.data tf hi.tf_free⟩
  · obtain ⟨rc, tfc, h⟩ := h
    have hpair := h.pair hk hi
    have hproc := h.others i hpair.ne
    refine ⟨rc, tfc, h.slot, ?_, hpair.right.pagetable, ?_, ?_, h.none, ?_, h.regs, ?_,
      hpair.isolated⟩
    · rw [h.child]
    · rw [h.child]
      rfl
    · rw [h.child]
    · intro v hv pte hl
      obtain ⟨pa, hpa, hl', hd⟩ := h.some v hv pte hl
      exact ⟨pa, hl', hd, fun j hj rj hp w pte' hw => h.sole hk hpa hj hp hw⟩
    · intro a
      have hold : Has k i r := ⟨hi.pagetable, hi.space⟩
      rw [hpair.left.reads, hold.reads, hproc]
      refine seen_congr (by rw [h.table.spends.table r hroot.1]) fun pte hl _ => ?_
      exact congrFun (h.table.spends.data _ (hroot.2 _ pte hl)) _

/-- A process with an empty heap and a trapframe. -/
def freshKernel : Kernel :=
  bootKernel.setProc 0 { Proc.clear with
    state := .runnable, pagetable := some 0x80200000, trapframe := some 0x80201000 }

theorem freshKernel_proc {j rj : ℕ} (hp : (freshKernel.proc j).pagetable = some rj) : rj = 0x80200000 := by
  by_cases hj : j = 0
  · subst hj
    exact (Option.some.inj hp).symm
  · rw [freshKernel, setProc_ne _ _ hj] at hp
    cases hp

theorem freshKernel_frames :
    freshKernel.mem.account belowTrapframe 0x80200000 {0x80200000} ≤ pool := by
  have haccount : freshKernel.mem.account belowTrapframe 0x80200000 {0x80200000} =
      (freshKernel.mem.freelist ++ [0x80200000] : List ℕ) := by
    change freshKernel.mem.free + PageTable.empty.pages belowTrapframe + _ = _
    rw [PageTable.pages_empty, add_zero]
    rfl
  rw [haccount, Multiset.le_iff_subset (Multiset.coe_nodup.mpr (by decide))]
  exact fun x hx => mem_pool (by revert x; decide)

theorem freshKernel_sane : Sane freshKernel where
  clean j hj := by
    by_cases hj0 : j = 0
    · subst hj0
      cases hj
    · rw [freshKernel, setProc_ne _ _ hj0]
      rfl
  free := le_trans (by simp [Mem.account, add_assoc]) freshKernel_frames
  mapped j rj hp := by
    obtain rfl := freshKernel_proc hp
    exact ⟨by decide, fun v pte hl => by cases hl⟩

theorem freshKernel_owns : Owns freshKernel 0 0x80200000 0x80201000 where
  pagetable := rfl
  trapframe := rfl
  space := ⟨Nat.zero_le _, PageTable.wf_empty, freshKernel_frames, fun v _ pte hl => by cases hl⟩
  tf_free := by decide
  used := by decide

/-- The first process forks. -/
theorem kfork_isolates_first : Sane freshKernel ∧ Owns freshKernel 0 0x80200000 0x80201000 ∧
    Ensures (kfork 0) freshKernel fun res k' => match res with
      | none => GaveUp freshKernel k'
      | some c => (k'.proc c).state = .runnable ∧ Isolated 0 c k' := by
  refine ⟨freshKernel_sane, freshKernel_owns, (kfork_isolates freshKernel_sane freshKernel_owns).mono ?_⟩
  rintro (_ | c) k' h
  · exact h.1
  · obtain ⟨rc, tfc, -, hs, -, -, -, -, -, -, -, hiso⟩ := h
    exact ⟨hs, hiso⟩

end

end Xv6.Vm
