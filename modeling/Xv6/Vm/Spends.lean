import Xv6.Vm.Copy

/-!
# New address spaces

A new page table is built from free pages: its root, the pages below it, the trapframe
and the copies of user pages. `Spends` accounts for them against the free list at the
start, so that giving up at any point and freeing what was taken restores the free list,
and nothing that was not free is touched.
-/

namespace Xv6.Vm

open Eff Bag Function

/-- From `m` to `m'` the pages `g` were taken from the free list. -/
structure Spends (g : Multiset ℕ) (m m' : Mem) : Prop where
  free : m'.free + g = m.free
  data : ∀ x ∉ m.freelist, m'.data x = m.data x
  table : ∀ r ∉ m.freelist, m'.table r = m.table r
  twice : m.free.Nodup → m'.twice = m.twice

section

variable {own : ℕ → Bool} {r tf : ℕ} {g h h' : Multiset ℕ} {m m' m'' : Mem}

theorem Spends.refl (m : Mem) : Spends 0 m m :=
  ⟨add_zero _, fun _ _ => rfl, fun _ _ => rfl, fun _ => rfl⟩

theorem Spends.mem (hs : Spends g m m') {x : ℕ} (hx : x ∈ g) : x ∈ m.freelist := by
  have hmem : x ∈ m.free := hs.free ▸ Multiset.mem_add.mpr (.inr hx)
  exact Multiset.mem_coe.mp hmem

theorem Spends.free_mem (hs : Spends g m m') {x : ℕ} (hx : x ∈ m'.freelist) : x ∈ m.freelist := by
  have hmem : x ∈ m.free := hs.free ▸ Multiset.mem_add.mpr (.inl (Multiset.mem_coe.mpr hx))
  exact Multiset.mem_coe.mp hmem

theorem Spends.account_eq (hs : Spends ((m'.table r).pages own + h) m m') :
    m'.account own r h = m.free := by
  rw [Mem.account, add_assoc]
  exact hs.free

theorem Spends.fits (hs : Spends ((m'.table r).pages own + h) m m') (hp : m.free ≤ pool) :
    m'.account own r h ≤ pool := hs.account_eq ▸ hp

theorem Spends.evolves (hs : Spends ((m'.table r).pages own + h) m m') (hr : r ∈ m.freelist)
    (he : Evolves own r ∅ h h' m' m'') : Spends ((m''.table r).pages own + h') m m'' where
  free := by
    have hledger := he.ledger
    rw [hs.account_eq, Mem.account, add_assoc] at hledger
    exact hledger
  data x hx := by
    rw [he.data x (hs.account_eq ▸ hx) (by simp), hs.data x hx]
  table r' hr' := by
    have hne : r' ≠ r := fun heq => hr' (heq ▸ hr)
    rw [he.frame r' hne, hs.table r' hr']
  twice hn := (he.twice (hs.account_eq.symm ▸ hn)).trans (hs.twice hn)

theorem Spends.kalloc (hs : Spends g m m') :
    Ensures kalloc m' fun res m'' => Spends (g + opt res) m m'' ∧ m''.table = m'.table := by
  rcases hm : m'.freelist with _ | ⟨x, rest⟩
  · exact ⟨none, m', kalloc_nil hm, by simpa using hs, rfl⟩
  · refine ⟨some x, _, kalloc_cons hm, ⟨?_, fun y hy => ?_, hs.table, hs.twice⟩, rfl⟩
    · have hsum := hs.free
      rw [Mem.free, hm, ← Multiset.cons_coe, ← Multiset.singleton_add] at hsum
      rw [← hsum, opt_some, Mem.free]
      ac_rfl
    · have hne : y ≠ x := by
        rintro rfl
        exact hy (hs.free_mem (by simp [hm]))
      exact (update_of_ne hne _ _).trans (hs.data y hy)

theorem Spends.memset (hs : Spends g m m') {x : ℕ} (hx : x ∈ g) (d : ℕ → ℕ) :
    Spends g m { m' with data := update m'.data x d } where
  free := hs.free
  data y hy := by
    have hne : y ≠ x := by
      rintro rfl
      exact hy (hs.mem hx)
    exact (update_of_ne hne _ _).trans (hs.data y hy)
  table := hs.table
  twice := hs.twice

theorem Spends.kfree (hs : Spends (g + {tf}) m m') (hp : m.free ≤ pool) :
    Ensures (kfree tf) m' fun _ m'' => Spends g m m'' ∧ m''.table = m'.table := by
  have hmem : tf ∈ m.freelist := hs.mem (by simp)
  have hpage : Page tf := page_of_mem (Multiset.mem_of_le hp (Multiset.mem_coe.mpr hmem))
  refine ⟨(), _, kfree_eq hpage, ⟨?_, fun y hy => ?_, hs.table, fun hn => ?_⟩, rfl⟩
  · rw [← hs.free, Mem.freed, Mem.free, ← Multiset.cons_coe, ← Multiset.singleton_add]
    simp only [Mem.free]
    ac_rfl
  · have hne : y ≠ tf := by
      rintro rfl
      exact hy hmem
    exact (update_of_ne hne _ _).trans (hs.data y hy)
  · have hnot : tf ∉ m'.freelist := by
      intro hm
      rw [← hs.free, ← add_assoc, Multiset.nodup_add] at hn
      exact Multiset.disjoint_left.mp hn.2.2 (by simp [Mem.free, hm])
        (Multiset.mem_singleton_self tf)
    simp [Mem.freed, hnot, hs.twice hn]

/-! ## `proc_pagetable` -/

def trampolineVpn : ℕ := trampoline / pgsize

/-- The leaf entries of a page table without user pages. -/
def baseLeaf (tf v : ℕ) : Option Pte :=
  if v = trampolineVpn then some ⟨trampolineText, pteR ||| pteX⟩
  else if v = userVpn then some ⟨tf, pteR ||| pteW⟩
  else none

theorem baseLeaf_user {v : ℕ} (hv : v < userVpn) : baseLeaf tf v = none := by
  have htramp : trampolineVpn = userVpn + 1 := by decide
  rw [baseLeaf, if_neg (by omega), if_neg (by omega)]

/-- A page table with root `r` that was built from free pages. -/
structure NewTable (own : ℕ → Bool) (r : ℕ) (h : Multiset ℕ) (m m' : Mem) : Prop where
  root : r ∈ m.freelist
  spends : Spends ((m'.table r).pages own + ({r} + h)) m m'
  wf : (m'.table r).Wf

theorem NewTable.fits (hn : NewTable own r h m m') (hp : m.free ≤ pool) :
    m'.account own r ({r} + h) ≤ pool := hn.spends.fits hp

theorem NewTable.evolves (hn : NewTable own r h m m')
    (he : Evolves own r ∅ ({r} + h) ({r} + h') m' m'') : NewTable own r h' m m'' :=
  ⟨hn.root, hn.spends.evolves hn.root he, he.wf hn.wf⟩

theorem uvmcreate_spec (own : ℕ → Bool) (hs : Spends g m m') :
    Ensures uvmcreate m' fun res m'' => match res with
      | none => Spends g m m''
      | some r => NewTable own r g m m'' ∧ m''.table r = .empty := by
  refine hs.kalloc.bind ?_
  rintro (_ | r) m1 ⟨hs1, -⟩
  · exact ensures_pure (by simpa using hs1)
  · have hr : r ∈ m.freelist := hs1.mem (by simp)
    have hs2 := hs1.memset (x := r) (by simp) fun _ => 0
    refine ensures_modify_bind (ensures_modify_bind (ensures_pure ⟨⟨hr, ⟨?_, hs2.data, ?_,
      hs2.twice⟩, ?_⟩, ?_⟩))
    · rw [← hs2.free]
      simp only [Mem.setTable, update_self, PageTable.pages_empty, opt_some]
      change m1.free + (0 + ({r} + g)) = m1.free + (g + {r})
      ac_rfl
    · intro r' hr'
      have hne : r' ≠ r := fun heq => hr' (heq ▸ hr)
      exact (update_of_ne hne _ _).trans (hs2.table r' hr')
    · simp only [Mem.setTable, update_self]
      exact PageTable.wf_empty
    · simp only [Mem.setTable, update_self]

theorem NewTable.uvmfree (hn : NewTable own r h m m') (hp : m.free ≤ pool)
    (hleaf : ∀ v, (m'.table r).leaf v = none) :
    Ensures (uvmfree r 0) m' fun _ m'' => Spends h m m'' := by
  refine (uvmfree_spec own r ∅ h (by simp [npages, pgsize]) hn.wf (by simp [npages, pgsize])
    (fun v _ => hleaf v) ?_).mono ?_
  · rw [add_comm h]
    exact hn.fits hp
  · rintro - m'' ⟨he, hpages⟩
    rw [add_comm h] at he
    simpa [hpages] using hn.spends.evolves hn.root he

variable (hown : ∀ v ≥ userVpn, own v = false)
include hown

theorem NewTable.mapHigh (hn : NewTable own r h m m') {v : ℕ} (hv : userVpn ≤ v) (hlt : v < vpns)
    (pa : ℕ) (perm : Perm) (hnone : (m'.table r).leaf v = none) :
    Ensures (mappages r (v * pgsize) pgsize pa perm) m' fun b m'' => NewTable own r h m m'' ∧
      (m''.table r).leaf = if b then update (m'.table r).leaf v (some ⟨pa, perm⟩)
        else (m'.table r).leaf := by
  have hmax : v * pgsize < maxva := by
    rw [← vpns_mul]
    exact Nat.mul_lt_mul_of_pos_right hlt (by simp [pgsize])
  refine (mappages_spec own r ∅ ({r} + h) pa perm hmax (Nat.mul_mod_left _ _) hn.wf
    (by rw [mul_pgsize_div]; exact hnone)).mono ?_
  intro b m'' hm
  have hcost : ∀ pte, cost own v pte = 0 := by
    intro pte
    simp [cost, hown v hv]
  have he := hm.evolves
  have hleaf := hm.leaf
  simp only [mul_pgsize_div, hcost, add_zero] at he hleaf
  exact ⟨hn.evolves he, hleaf⟩

theorem NewTable.unmapHigh (hn : NewTable own r h m m') (hp : m.free ≤ pool) {v : ℕ}
    (hv : userVpn ≤ v) (hlt : v < vpns) :
    Ensures (uvmunmap r (v * pgsize) 1 false) m' fun _ m'' => NewTable own r h m m'' ∧
      (m''.table r).leaf = update (m'.table r).leaf v none := by
  have hmax : v * pgsize + 1 * pgsize ≤ maxva := by
    rw [← vpns_mul, ← Nat.add_mul]
    exact Nat.mul_le_mul_right _ hlt
  refine (uvmunmap_spec own r ∅ ({r} + h) (Nat.mul_mod_left _ _) hmax hn.wf ?_ (hn.fits hp)).mono ?_
  · intro w hw _
    rw [mul_pgsize_div] at hw
    exact hown w (by omega)
  · intro _ m'' hu
    refine ⟨hn.evolves hu.evolves, ?_⟩
    rw [hu.leaf, mul_pgsize_div, clear_succ, clear_zero, add_zero]

theorem procPagetable_spec (hs : Spends g m m') (hp : m.free ≤ pool) (tf : ℕ) :
    Ensures (procPagetable tf) m' fun res m'' => match res with
      | none => Spends g m m''
      | some r => NewTable own r g m m'' ∧ (m''.table r).leaf = baseLeaf tf := by
  have htramp : trampoline = trampolineVpn * pgsize := by decide
  have htrap : trapframe = userVpn * pgsize := by decide
  have hle : userVpn ≤ trampolineVpn := by decide
  have hlt : trampolineVpn < vpns := by decide
  have hne : userVpn ≠ trampolineVpn := by decide
  refine (uvmcreate_spec own hs).bind ?_
  rintro (_ | r) m1 h1
  · exact ensures_pure h1
  obtain ⟨hn1, hempty⟩ := h1
  have hnone : ∀ v, (m1.table r).leaf v = none := fun v => by rw [hempty]; rfl
  rw [htramp, htrap]
  refine (hn1.mapHigh hown hle hlt _ _ (hnone _)).bind ?_
  rintro b m2 ⟨hn2, hleaf2⟩
  cases b with
  | false =>
    refine (hn2.uvmfree hp fun v => ?_).bind fun _ m3 hs3 => ensures_pure hs3
    rw [hleaf2]
    exact hnone v
  | true =>
    rw [if_pos rfl] at hleaf2
    refine (hn2.mapHigh hown le_rfl (hle.trans_lt hlt) _ _ ?_).bind ?_
    · rw [hleaf2, update_of_ne hne]
      exact hnone _
    rintro b m3 ⟨hn3, hleaf3⟩
    cases b with
    | false =>
      refine (hn3.unmapHigh hown hp hle hlt).bind ?_
      rintro - m4 ⟨hn4, hleaf4⟩
      refine (hn4.uvmfree hp fun v => ?_).bind fun _ m5 hs5 => ensures_pure hs5
      rw [hleaf4, hleaf3]
      by_cases hv : v = trampolineVpn
      · simp [hv]
      · simp [hleaf2, hv, hnone]
    | true =>
      rw [if_pos rfl, hleaf2] at hleaf3
      refine ensures_pure ⟨hn3, ?_⟩
      rw [hleaf3]
      funext v
      rw [baseLeaf, update_apply, update_apply, hnone]
      split_ifs with h1 h2 <;> first | rfl | exact absurd (h1.symm.trans h2) hne

/-- `proc_freepagetable` of a page table with nothing but the pages above the heap. -/
theorem NewTable.procFreepagetable (hn : NewTable own r h m m') (hp : m.free ≤ pool)
    (hleaf : (m'.table r).leaf = baseLeaf tf) :
    Ensures (procFreepagetable r 0) m' fun _ m'' => Spends h m m'' := by
  have htramp : trampoline = trampolineVpn * pgsize := by decide
  have htrap : trapframe = userVpn * pgsize := by decide
  have hle : userVpn ≤ trampolineVpn := by decide
  have hlt : trampolineVpn < vpns := by decide
  unfold Vm.procFreepagetable
  rw [htramp, htrap]
  refine (hn.unmapHigh hown hp hle hlt).bind ?_
  rintro - m1 ⟨hn1, hleaf1⟩
  refine (hn1.unmapHigh hown hp le_rfl (hle.trans_lt hlt)).bind ?_
  rintro - m2 ⟨hn2, hleaf2⟩
  refine hn2.uvmfree hp fun v => ?_
  rw [hleaf2, hleaf1, hleaf, update_apply, update_apply, baseLeaf]
  split_ifs <;> rfl

end

/-! ## Registers -/

/-- Bytes with a 64-bit word among them. -/
def poke (f : ℕ → ℕ) (off w o : ℕ) : ℕ :=
  if off ≤ o ∧ o < off + 8 then w / 256 ^ (o - off) % 256 else f o

theorem setWord_spec (m : Mem) (tf off w : ℕ) :
    Ensures (setWord tf off w) m fun _ m' =>
      m' = { m with data := update m.data tf (poke (m.data tf) off w) } := by
  refine (ensures_forUpto (I := fun n t => t = { m with
      data := update m.data tf fun o =>
        if off ≤ o ∧ o < off + n then w / 256 ^ (o - off) % 256 else m.data tf o }) ?_ ?_)
  · have hsame : (fun o => if off ≤ o ∧ o < off + 0 then w / 256 ^ (o - off) % 256
        else m.data tf o) = m.data tf := by
      funext o
      exact if_neg (by omega)
    rw [hsame, update_eq_self]
  · rintro j - t rfl
    refine ensures_modify ?_
    simp only [Mem.setByte, update_self, update_idem]
    congr 2
    funext o
    by_cases ho : o = off + j
    · subst ho
      rw [update_self, if_pos (by omega), Nat.add_sub_cancel_left]
    · rw [update_of_ne ho]
      exact if_congr (by omega) rfl rfl

/-! ## `uvmcopy` -/

/-- What `uvmcopy` has done on `n` pages from `j` on: the pages of `old` have copies with the
same permissions, in pages that were free. -/
structure Cloned (old r j n : ℕ) (m m' : Mem) : Prop where
  other : ∀ v, ¬ (j ≤ v ∧ v < j + n) → (m'.table r).leaf v = (m.table r).leaf v
  takes : Takes m m'
  none : ∀ v, j ≤ v → v < j + n → (m.table old).leaf v = none → (m'.table r).leaf v = none
  some : ∀ v, j ≤ v → v < j + n → ∀ pte, (m.table old).leaf v = some pte →
    ∃ pa ∈ m.freelist, (m'.table r).leaf v = some ⟨pa, pte.perm⟩ ∧ m'.data pa = m.data pte.pa

section

variable {own : ℕ → Bool} {old r : ℕ} {h : Multiset ℕ} {m : Mem}

theorem uvmcopyLoop_spec (hne : old ≠ r) (n j : ℕ) (hbound : j + n ≤ vpns)
    (hwf : (m.table r).Wf) (hold : (m.table old).Wf) (hown : ∀ v < j + n, own v = true)
    (hnone : ∀ v, j ≤ v → v < j + n → (m.table r).leaf v = none)
    (hout : ∀ v, j ≤ v → v < j + n → ∀ pte, (m.table old).leaf v = some pte →
      pte.pa ∉ m.account own r h)
    (hp : m.account own r h ≤ pool) :
    Ensures (uvmcopyLoop old r n (j * pgsize)) m fun b m' => Evolves own r ∅ h h m m' ∧
      (b = true → Cloned old r j n m m') ∧
      (b = false → (m'.table r).leaf = clear 0 (j + n) (m.table r).leaf) := by
  induction n generalizing j m with
  | zero =>
    refine ensures_pure ⟨.refl _ _ _ _ _, fun _ => ⟨fun _ _ => rfl, .refl m, ?_, ?_⟩, by simp⟩
    · intro v hv hv'
      omega
    · intro v hv hv'
      omega
  | succ n ih =>
    have hlt : j * pgsize < maxva := by
      rw [← vpns_mul]
      exact Nat.mul_lt_mul_of_pos_right (by omega) (by simp [pgsize])
    have hnext : j * pgsize + pgsize = (j + 1) * pgsize := by ring
    -- giving up clears the rest of the range as well, which was empty
    have hundo : ∀ {t}, (t.table r).leaf = (m.table r).leaf → Evolves own r ∅ h h m t →
        Ensures (uvmunmap r 0 j true >>= fun _ => pure false) t fun b m' =>
          Evolves own r ∅ h h m m' ∧ (b = true → Cloned old r j (n + 1) m m') ∧
          (b = false → (m'.table r).leaf = clear 0 (j + (n + 1)) (m.table r).leaf) := by
      intro t hleaf ht
      refine (uvmunmap_spec own r ∅ h (by simp) ?_ (ht.wf hwf) ?_ (ht.fits hp)).bind fun _ m' hu =>
        ensures_pure ⟨ht.trans hu.evolves, by simp, fun _ => ?_⟩
      · rw [zero_add, ← vpns_mul]
        exact Nat.mul_le_mul_right _ (by omega)
      · intro v _ hv
        rw [Nat.zero_div] at hv
        exact hown v (by omega)
      · rw [hu.leaf, hleaf]
        funext v
        simp only [clear, Nat.zero_div, zero_add, Nat.zero_le, true_and]
        by_cases hv : j ≤ v ∧ v < j + (n + 1)
        · rw [if_neg (by omega), if_pos hv.2, hnone v hv.1 hv.2]
        · exact if_congr (by omega) rfl rfl
    -- the copy of page `j` is done, or there is nothing to copy
    have hgo : ∀ {t}, Evolves own r ∅ h h m t → Takes m t →
        (∀ v ≠ j, (t.table r).leaf v = (m.table r).leaf v) →
        ((m.table old).leaf j = none → (t.table r).leaf j = none) →
        (∀ pte, (m.table old).leaf j = some pte → ∃ pa ∈ m.freelist, pa ∉ t.freelist ∧
          (t.table r).leaf j = some ⟨pa, pte.perm⟩ ∧ t.data pa = m.data pte.pa) →
        Ensures (uvmcopyLoop old r n (j * pgsize + pgsize)) t fun b m' =>
          Evolves own r ∅ h h m m' ∧ (b = true → Cloned old r j (n + 1) m m') ∧
          (b = false → (m'.table r).leaf = clear 0 (j + (n + 1)) (m.table r).leaf) := by
      intro t ht htakes hother hjnone hjsome
      have htold : t.table old = m.table old := ht.frame old hne
      rw [hnext]
      refine (ih (j + 1) (by omega) (ht.wf hwf) (htold ▸ hold) (fun v hv => hown v (by omega))
        (fun v hv hv' => ?_) (fun v hv hv' pte hl => ?_) (ht.fits hp)).mono ?_
      · rw [hother v (by omega)]
        exact hnone v (by omega) (by omega)
      · rw [ht.ledger]
        exact hout v (by omega) (by omega) pte (htold ▸ hl)
      rintro b m' ⟨he, htrue, hfalse⟩
      refine ⟨ht.trans he, fun hb => ?_, fun hb => ?_⟩
      · have hc := htrue hb
        refine ⟨fun v hv => ?_, htakes.trans hc.takes, fun v hv hv' hl => ?_,
          fun v hv hv' pte hl => ?_⟩
        · rw [hc.other v (by omega), hother v (by omega)]
        · by_cases hvj : v = j
          · subst hvj
            rw [hc.other v (by omega)]
            exact hjnone hl
          · exact hc.none v (by omega) (by omega) (htold ▸ hl)
        · by_cases hvj : v = j
          · subst hvj
            obtain ⟨pa, hpa, hoff, hlt, hd⟩ := hjsome pte hl
            refine ⟨pa, hpa, ?_, ?_⟩
            · rw [hc.other v (by omega), hlt]
            · rw [hc.takes.data pa hoff, hd]
          · obtain ⟨pa, hpa, hlt, hd⟩ := hc.some v (by omega) (by omega) pte (htold ▸ hl)
            refine ⟨pa, htakes.mem hpa, hlt, ?_⟩
            rw [hd, ht.data _ (hout v hv hv' pte hl) (by simp)]
      · rw [hfalse hb]
        funext v
        simp only [clear, Nat.zero_le, true_and, zero_add]
        by_cases hvj : v = j
        · rw [if_pos (by omega), if_pos (by omega)]
        · rw [hother v hvj]
          exact if_congr (by omega) rfl rfl
    rw [uvmcopyLoop]
    refine ensures_pteOf_bind hlt hold ?_
    rw [mul_pgsize_div]
    cases hl : (m.table old).leaf j with
    | none =>
      refine hgo (.refl _ _ _ _ _) (.refl m) (fun _ _ => rfl) (fun _ => ?_) (by simp [hl])
      exact hnone j le_rfl (by omega)
    | some pte =>
      have hpte := hout j le_rfl (by omega) pte hl
      refine (kalloc_spec own r ∅ h).bind ?_
      rintro (_ | mem) m1 ⟨he, ht, hfree, -, htakes⟩
      · exact hundo (by rw [ht]) (by simpa using he)
      have hmem : mem ∈ m.freelist := by simp [hfree]
      have hdata1 : m1.data pte.pa = m.data pte.pa := he.data _ hpte (by simp)
      refine (memmove_spec own r ∅ (h + {mem}) (.inl (mem_account_hand (by simp)))).bind ?_
      rintro - m2 ⟨he2, ht2, hfree2, hdata2⟩
      have htab : m2.table = m.table := ht2.trans ht
      have hem : Evolves own r ∅ h (h + {mem}) m m2 := he.trans he2
      have htakes2 : Takes m m2 := htakes.write hmem hfree2 fun y hy => by
        rw [hdata2, update_of_ne hy]
      have hcost : ∀ pte, cost own j pte = opt (pte.map Pte.pa) := by
        intro pte
        simp [cost, hown j (by omega)]
      refine (mappages_spec own r ∅ h mem pte.perm hlt (Nat.mul_mod_left _ _) (htab ▸ hwf)
        (by rw [htab, mul_pgsize_div]; exact hnone j le_rfl (by omega))).bind ?_
      rintro b m3 hm
      cases b with
      | false =>
        have hev : Evolves own r ∅ h (h + {mem}) m m3 := by
          refine hem.trans ?_
          simpa [hcost] using hm.evolves
        have hpage : Page mem := page_of_mem
          (Multiset.subset_of_le (hev.fits hp) (mem_account_hand (by simp)))
        refine (kfree_spec own r ∅ h hpage).bind ?_
        rintro - m4 ⟨he4, ht4, -⟩
        refine hundo ?_ (hev.trans he4)
        rw [ht4, hm.leaf, htab]
        rfl
      | true =>
        have hev : Evolves own r ∅ h h m m3 := by
          refine hem.trans ?_
          simpa [hcost] using hm.evolves
        have hleaf : (m3.table r).leaf =
            update (m.table r).leaf j (some ⟨mem, pte.perm⟩) := by
          simpa [htab] using hm.leaf
        have hoff : mem ∉ m2.freelist := by
          have hnodup := account_nodup hp
          rw [hfree] at hnodup
          rw [hfree2]
          exact (List.nodup_cons.mp hnodup).1
        refine hgo hev (htakes2.trans hm.takes) (fun v hv => ?_) (by simp [hl]) ?_
        · rw [hleaf, update_of_ne hv]
        · intro pte' hl'
          rw [hl] at hl'
          cases hl'
          refine ⟨mem, hmem, fun hx => hoff (hm.takes.mem hx), ?_, ?_⟩
          · rw [hleaf, update_self]
          · rw [hm.takes.data mem hoff, hdata2, update_self, hdata1]

end

end Xv6.Vm
