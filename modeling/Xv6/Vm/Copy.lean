import Xv6.Vm.Sbrk

/-!
# Copies to and from user memory

`copyout` and `copyin` move bytes a page at a time between the kernel and addresses that
the user gave. They are exact and confined, whatever the address, the length and the
free pages: a copy that succeeds moves the bytes that the page table shows, one that fails
stops early, and neither reaches a byte that the user could not.
-/

namespace Xv6.Vm

open Eff Bag Function

/-! ## The loops a page at a time -/

/-- `memmove` of some bytes into a page. -/
def Mem.setBytes (m : Mem) (pa off : ℕ) (bs : List ℕ) : Mem :=
  { m with
    data := update m.data pa fun o =>
      if off ≤ o ∧ o < off + bs.length then bs.getD (o - off) 0 else m.data pa o }

/-- `memmove` of some bytes from a page. -/
def Mem.bytes (m : Mem) (pa off n : ℕ) : List ℕ := (List.range n).map fun j => m.data pa (off + j)

/-- `copyout` as the source has it: the bytes of one page at once, on 64-bit addresses. -/
def copyoutPages (sz own pagetable dstva : ℕ) (src : List ℕ) : M Bool :=
  if h : src = [] then pure true
  else
    let va0 := pgrounddown dstva
    if maxva ≤ va0 then pure false else do
      match ← userPage sz own pagetable va0 with
      | none => pure false
      | some pa0 => do
        if ← writable pagetable va0 then do
          let n := min (pgsize - (dstva - va0)) src.length
          modify fun m => m.setBytes pa0 (dstva - va0) (src.take n)
          copyoutPages sz own pagetable ((va0 + pgsize) % 2 ^ 64) (src.drop n)
        else pure false
termination_by src.length
decreasing_by
  have hpos := List.length_pos_of_ne_nil h
  have hlt : dstva % pgsize < pgsize := Nat.mod_lt _ (by simp [pgsize])
  have hmod := Nat.div_add_mod' dstva pgsize
  simp only [List.length_drop, pgrounddown]
  omega

/-- `copyin` as the source has it. -/
def copyinPages (sz own pagetable srcva len : ℕ) : M (Option (List ℕ)) :=
  if h : len = 0 then pure (some [])
  else do
    let va0 := pgrounddown srcva
    match ← userPage sz own pagetable va0 with
    | none => pure none
    | some pa0 => do
      let n := min (pgsize - (srcva - va0)) len
      let bs := (← get).bytes pa0 (srcva - va0) n
      return (← copyinPages sz own pagetable ((va0 + pgsize) % 2 ^ 64) (len - n)).map (bs ++ ·)
termination_by len
decreasing_by
  have hlt : srcva % pgsize < pgsize := Nat.mod_lt _ (by simp [pgsize])
  have hmod := Nat.div_add_mod' srcva pgsize
  simp only [pgrounddown]
  omega

/-! ## What the user sees -/

/-- The pages of the user. -/
def belowTrapframe (v : ℕ) : Bool := v < userVpn

theorem belowTrapframe_high : ∀ v ≥ userVpn, belowTrapframe v = false := by
  intro v hv
  simpa [belowTrapframe] using hv

/-- A page table for a process of size `sz`: different pages of the user have different
frames, which are neither pages of the table nor free. -/
structure UserTable (m : Mem) (r sz : ℕ) : Prop where
  sz : sz ≤ Vm.trapframe
  wf : (m.table r).Wf
  frames : m.account belowTrapframe r {r} ≤ pool
  high : ∀ v ≥ userVpn, ∀ pte, (m.table r).leaf v = some pte → pte.perm.u = false

/-- The byte that the user sees at an address. A page below the size that is not mapped
yet counts as zero-filled. -/
def seen (m : Mem) (r sz a : ℕ) : Option ℕ :=
  match (m.table r).leaf (a / pgsize) with
  | some pte => if pte.perm.u then some (m.data pte.pa (a % pgsize)) else none
  | none => if pgrounddown a < sz then some 0 else none

section

variable {m m' : Mem} {r sz : ℕ}

theorem UserTable.lt (h : UserTable m r sz) {v : ℕ} {pte : Pte}
    (hl : (m.table r).leaf v = some pte) (hu : pte.perm.u = true) : v < userVpn := by
  by_contra hv
  rw [h.high v (not_lt.mp hv) pte hl] at hu
  cases hu

theorem UserTable.not_free (h : UserTable m r sz) {v : ℕ} {pte : Pte}
    (hl : (m.table r).leaf v = some pte) (hu : pte.perm.u = true) : pte.pa ∉ m.freelist := by
  have hv := h.lt hl hu
  exact frame_not_free h.frames (hv.trans userVpn_lt) (by simpa [belowTrapframe] using hv) hl

theorem UserTable.inj (h : UserTable m r sz) {v v' : ℕ} {pte pte' : Pte}
    (hl : (m.table r).leaf v = some pte) (hu : pte.perm.u = true)
    (hl' : (m.table r).leaf v' = some pte') (hu' : pte'.perm.u = true)
    (heq : pte.pa = pte'.pa) : v = v' := by
  have hv := h.lt hl hu
  have hv' := h.lt hl' hu'
  exact frame_inj h.frames (hv.trans userVpn_lt) (by simpa [belowTrapframe] using hv) hl
    (hv'.trans userVpn_lt) (by simpa [belowTrapframe] using hv') hl' heq

theorem UserTable.evolves_setByte (h : UserTable m r sz) {v : ℕ} {pte : Pte} (o b : ℕ)
    (hl : (m.table r).leaf v = some pte) (hu : pte.perm.u = true) :
    Evolves belowTrapframe r ∅ {r} {r} m (m.setByte pte.pa o b) where
  frame _ _ := rfl
  ledger := rfl
  data x hx _ := by
    refine update_of_ne ?_ _ _
    rintro rfl
    have hv := h.lt hl hu
    exact hx (leaf_mem_account (hv.trans userVpn_lt) (by simpa [belowTrapframe] using hv) hl)
  twice _ := rfl
  wf := id

theorem seen_congr {a : ℕ} (hl : (m'.table r).leaf (a / pgsize) = (m.table r).leaf (a / pgsize))
    (hd : ∀ pte, (m.table r).leaf (a / pgsize) = some pte → pte.perm.u = true →
      m'.data pte.pa (a % pgsize) = m.data pte.pa (a % pgsize)) :
    seen m' r sz a = seen m r sz a := by
  rw [seen, seen, hl]
  cases hpte : (m.table r).leaf (a / pgsize) with
  | none => rfl
  | some pte =>
    dsimp only
    split_ifs with hu
    · rw [hd pte hpte hu]
    · rfl

theorem seen_mapped {a : ℕ} {pte : Pte} (hl : (m.table r).leaf (a / pgsize) = some pte)
    (hu : pte.perm.u = true) : seen m r sz a = some (m.data pte.pa (a % pgsize)) := by
  rw [seen, hl]
  exact if_pos hu

theorem pgrounddown_div (a : ℕ) : pgrounddown a / pgsize = a / pgsize := mul_pgsize_div _

/-! ## The page of an address -/

/-- What `userPage` has done for page `v`: it changed nothing that the user sees, and took
what it needed from the free list. -/
structure Paged (r sz v : ℕ) (res : Option ℕ) (m m' : Mem) : Prop where
  evolves : Evolves belowTrapframe r ∅ {r} {r} m m'
  table : UserTable m' r sz
  free : m'.freelist ⊆ m.freelist
  data : ∀ x ∉ m.freelist, m'.data x = m.data x
  leaf : (m'.table r).leaf = (m.table r).leaf ∨
    (m.table r).leaf v = none ∧ v * pgsize < sz ∧ ∃ x, m'.data x = (fun _ => 0) ∧
      (m'.table r).leaf = update (m.table r).leaf v (some ⟨x, pteW ||| pteU ||| pteR⟩)
  found : ∀ pa, res = some pa → ∃ pte, (m'.table r).leaf v = some pte ∧ pte.pa = pa ∧
    pte.perm.u = true

theorem Paged.refl (h : UserTable m r sz) (v : ℕ) : Paged r sz v none m m :=
  ⟨.refl _ _ _ _ _, h, fun _ => id, fun _ _ => rfl, .inl rfl, by simp⟩

theorem Paged.kept {v : ℕ} {res : Option ℕ} (h : Paged r sz v res m m') {w : ℕ} {pte : Pte}
    (hl : (m.table r).leaf w = some pte) : (m'.table r).leaf w = some pte := by
  rcases h.leaf with heq | ⟨hnone, -, x, -, heq⟩
  · rw [heq, hl]
  · have hne : w ≠ v := by
      rintro rfl
      rw [hnone] at hl
      cases hl
    rw [heq, update_of_ne hne, hl]

theorem Paged.seen {v : ℕ} {res : Option ℕ} (hm : UserTable m r sz) (h : Paged r sz v res m m')
    (a : ℕ) : seen m' r sz a = seen m r sz a := by
  have hdata : ∀ pte, (m.table r).leaf (a / pgsize) = some pte → pte.perm.u = true →
      m'.data pte.pa (a % pgsize) = m.data pte.pa (a % pgsize) :=
    fun pte hl hu => congrFun (h.data _ (hm.not_free hl hu)) _
  rcases h.leaf with heq | ⟨hnone, hlt, x, hx, heq⟩
  · exact seen_congr (congrFun heq _) hdata
  · by_cases hv : a / pgsize = v
    · subst hv
      have hnew : (m'.table r).leaf (a / pgsize) = some ⟨x, pteW ||| pteU ||| pteR⟩ := by
        rw [heq, update_self]
      rw [seen_mapped hnew rfl, Vm.seen, hnone, hx]
      exact (if_pos hlt).symm
    · refine seen_congr ?_ hdata
      rw [heq, update_of_ne hv]

theorem vmfault_spec (h : UserTable m r sz) {v : ℕ} (hv : v * pgsize < sz)
    (hnone : (m.table r).leaf v = none) :
    Ensures (vmfault sz r r (v * pgsize)) m fun res m' => Paged r sz v res m m' := by
  have huser : v < userVpn := by
    have := h.sz
    simp only [userVpn, trapframe, trampoline, maxva, pgsize] at *
    omega
  have hmax : v * pgsize < maxva := mul_pgsize_lt huser
  have hown : ∀ pte, cost belowTrapframe v pte = opt (pte.map Pte.pa) := by
    intro pte
    simp [cost, belowTrapframe, huser]
  rw [vmfault, if_neg (by omega)]
  have hround : pgrounddown (v * pgsize) = v * pgsize := by rw [pgrounddown, mul_pgsize_div]
  refine ensures_eq_bind (ismapped_eq hmax h.wf) ?_
  rw [mul_pgsize_div, hnone, hround]
  refine (kalloc_spec belowTrapframe r ∅ {r}).bind ?_
  rintro (_ | mem) m1 ⟨he, ht, hfree, hnil, htakes⟩
  · refine ensures_pure ⟨by simpa using he, ⟨h.sz, ht ▸ h.wf, he.fits h.frames, ht ▸ h.high⟩, ?_,
      htakes.data,
      .inl (by rw [ht]), by simp⟩
    exact fun x => htakes.mem
  · have hmem : mem ∈ m.freelist := by simp [hfree]
    refine (memset_spec belowTrapframe r ∅ ({r} + {mem}) 0
      (.inl (mem_account_hand (by simp)))).bind ?_
    rintro - m2 ⟨he2, ht2, hfree2, hdata2⟩
    have htab : m2.table = m.table := ht2.trans ht
    have hem : Evolves belowTrapframe r ∅ {r} ({r} + {mem}) m m2 := he.trans he2
    have htakes2 : Takes m m2 := htakes.write hmem hfree2 fun y hy => by
      rw [hdata2, update_of_ne hy]
    refine (mappages_spec belowTrapframe r ∅ {r} mem _ hmax (Nat.mul_mod_left _ _) (htab ▸ h.wf)
      (by rw [htab, mul_pgsize_div]; exact hnone)).bind ?_
    rintro b m3 hm
    have htakes3 : Takes m m3 := htakes2.trans hm.takes
    cases b with
    | false =>
      have hev : Evolves belowTrapframe r ∅ {r} ({r} + {mem}) m m3 := by
        refine hem.trans ?_
        simpa [hown] using hm.evolves
      have hleaf : (m3.table r).leaf = (m.table r).leaf := by
        rw [hm.leaf, htab]
        rfl
      have hpage : Page mem := page_of_mem
        (Multiset.subset_of_le (hev.fits h.frames) (mem_account_hand (by simp)))
      refine ensures_eq_bind (kfree_eq hpage) (ensures_pure ?_)
      have hev' := hev.trans (evolves_freed (W := ∅) (h := {r}) mem)
      refine ⟨hev', ⟨h.sz, hev'.wf h.wf, hev'.fits h.frames, ?_⟩, ?_, ?_, .inl hleaf, by simp⟩
      · intro w hw pte hl
        exact h.high w hw pte (hleaf ▸ hl)
      · intro x hx
        rcases List.mem_cons.mp hx with rfl | hx
        · exact hmem
        · exact htakes3.mem hx
      · intro x hx
        have hne : x ≠ mem := by
          rintro rfl
          exact hx hmem
        exact (update_of_ne hne _ _).trans (htakes3.data x hx)
    | true =>
      have hev : Evolves belowTrapframe r ∅ {r} {r} m m3 := by
        refine hem.trans ?_
        simpa [hown] using hm.evolves
      have hleaf : (m3.table r).leaf =
          update (m.table r).leaf v (some ⟨mem, pteW ||| pteU ||| pteR⟩) := by
        simpa [htab] using hm.leaf
      have hoff : mem ∉ m2.freelist := by
        have hnodup := account_nodup h.frames
        rw [hfree] at hnodup
        rw [hfree2]
        exact (List.nodup_cons.mp hnodup).1
      have hzero : m3.data mem = fun _ => 0 := by
        rw [hm.takes.data mem hoff, hdata2, update_self]
      refine ensures_pure ⟨hev, ⟨h.sz, hev.wf h.wf, hev.fits h.frames, ?_⟩, ?_, htakes3.data,
        .inr ⟨hnone, hv, mem, hzero, hleaf⟩, ?_⟩
      · intro w hw pte hl
        rw [hleaf, update_of_ne (by omega)] at hl
        exact h.high w hw pte hl
      · exact fun x => htakes3.mem
      · rintro pa hpa
        refine ⟨_, by rw [hleaf, update_self], Option.some.inj hpa, rfl⟩

theorem userPage_spec (h : UserTable m r sz) (va : ℕ) :
    Ensures (userPage sz r r (pgrounddown va)) m fun res m' =>
      Paged r sz (va / pgsize) res m m' := by
  have hmax : sz ≤ maxva := h.sz.trans (by decide)
  have hwalk := walkaddr_eq (pgrounddown va) h.wf
  rw [pgrounddown_div] at hwalk
  refine ensures_eq_bind hwalk ?_
  cases hl : (m.table r).leaf (va / pgsize) with
  | none =>
    by_cases hlt : va / pgsize * pgsize < sz
    · exact vmfault_spec h hlt hl
    · exact ⟨_, _, vmfault_none h.wf hmax (.inl (not_lt.mp hlt)), Paged.refl h _⟩
  | some pte =>
    cases hu : pte.perm.u with
    | true =>
      simp only [Option.filter, hu, if_true, Option.map_some]
      refine ensures_pure ⟨.refl _ _ _ _ _, h, fun _ => id, fun _ _ => rfl, .inl rfl, ?_⟩
      rintro pa ⟨⟩
      exact ⟨pte, hl, rfl, hu⟩
    | false =>
      simp only [Option.filter, hu]
      refine ⟨_, _, vmfault_none h.wf hmax (.inr ?_), Paged.refl h _⟩
      rw [pgrounddown_div, hl]
      simp

/-! ## A byte at a time -/

/-- What a copy from the user did. -/
structure CopiedIn (r sz srcva len : ℕ) (res : Option (List ℕ)) (m m' : Mem) : Prop where
  evolves : Evolves belowTrapframe r ∅ {r} {r} m m'
  table : UserTable m' r sz
  free : m'.freelist ⊆ m.freelist
  data : ∀ x ∉ m.freelist, m'.data x = m.data x
  seen : ∀ a, seen m' r sz a = seen m r sz a
  exact : ∀ bs, res = some bs →
    bs.map some = (List.range len).map fun j => Vm.seen m r sz (srcva + j)

/-- What a copy to the user did. The pages it wrote were free before, or the byte is one
that the user could have written at its address. -/
structure CopiedOut (r sz dstva : ℕ) (src : List ℕ) (b : Bool) (m m' : Mem) : Prop where
  evolves : Evolves belowTrapframe r ∅ {r} {r} m m'
  table : UserTable m' r sz
  free : m'.freelist ⊆ m.freelist
  kept : ∀ v pte, (m.table r).leaf v = some pte → (m'.table r).leaf v = some pte
  written : ∀ x o, m'.data x o ≠ m.data x o → x ∈ m.freelist ∨ ∃ j < src.length,
    (dstva + j) % pgsize = o ∧ ∃ pte, (m'.table r).leaf ((dstva + j) / pgsize) = some pte ∧
      pte.pa = x ∧ pte.perm.u = true ∧ pte.perm.w = true
  other : ∀ a, a < dstva ∨ dstva + src.length ≤ a → seen m' r sz a = seen m r sz a
  exact : b = true → src.map some = (List.range src.length).map fun j => seen m' r sz (dstva + j)

theorem UserTable.seen_lt (h : UserTable m r sz) {a b : ℕ} (hs : seen m r sz a = some b) :
    a < maxva := by
  have hpos : 0 < pgsize := by simp [pgsize]
  rw [seen] at hs
  split at hs
  · rename_i pte hl
    split_ifs at hs with hu
    have hv := h.lt hl hu
    simp only [userVpn, trapframe, trampoline, maxva, pgsize] at *
    omega
  · split_ifs at hs with hlt
    have := h.sz
    simp only [pgrounddown, trapframe, trampoline, maxva, pgsize] at *
    omega

theorem copyin_spec (len srcva : ℕ) (h : UserTable m r sz) :
    Ensures (copyin sz r r srcva len) m fun res m' => CopiedIn r sz srcva len res m m' := by
  induction len generalizing m srcva with
  | zero =>
    refine ensures_pure ⟨.refl _ _ _ _ _, h, fun _ => id, fun _ _ => rfl, fun _ => rfl, ?_⟩
    rintro bs ⟨⟩
    rfl
  | succ len ih =>
    rw [copyin]
    refine (userPage_spec h srcva).bind ?_
    rintro (_ | pa) m1 hp
    · exact ensures_pure ⟨hp.evolves, hp.table, hp.free, hp.data, hp.seen h, by simp⟩
    · obtain ⟨pte, hl, rfl, hu⟩ := hp.found pa rfl
      refine ensures_get_bind ((ih (srcva + 1) hp.table).bind ?_)
      intro res m2 hc
      refine ensures_pure ⟨hp.evolves.trans hc.evolves, hc.table, fun x hx => hp.free (hc.free hx),
        ?_, ?_, ?_⟩
      · intro x hx
        rw [hc.data x fun hm => hx (hp.free hm), hp.data x hx]
      · exact fun a => (hc.seen a).trans (hp.seen h a)
      · intro bs hbs
        obtain ⟨cs, rfl, rfl⟩ := Option.map_eq_some_iff.mp hbs
        rw [List.map_cons, hc.exact cs rfl, List.range_succ_eq_map, List.map_cons, List.map_map,
          ← seen_mapped hl hu, hp.seen h]
        refine congrArg _ (List.map_congr_left fun j _ => ?_)
        rw [hp.seen h, Function.comp_apply, Nat.succ_eq_add_one, Nat.add_right_comm, add_assoc]

theorem UserTable.seen_setByte (h : UserTable m r sz) {va : ℕ} {pte : Pte} (b : ℕ)
    (hl : (m.table r).leaf (va / pgsize) = some pte) (hu : pte.perm.u = true) (a : ℕ) :
    seen (m.setByte pte.pa (va % pgsize) b) r sz a =
      if a = va then some b else seen m r sz a := by
  split_ifs with ha
  · subst ha
    have hl' : ((m.setByte pte.pa (a % pgsize) b).table r).leaf (a / pgsize) = some pte := hl
    rw [seen_mapped hl' hu, Mem.setByte]
    simp
  · refine seen_congr rfl fun pte' hl' hu' => ?_
    by_cases hpa : pte'.pa = pte.pa
    · have hv := h.inj hl' hu' hl hu hpa
      have hmod : a % pgsize ≠ va % pgsize := by
        intro hmod
        apply ha
        rw [← Nat.div_add_mod' a pgsize, ← Nat.div_add_mod' va pgsize, hv, hmod]
      rw [Mem.setByte, hpa]
      simp [hmod]
    · exact congrFun (update_of_ne hpa _ _) _

theorem copyout_spec (src : List ℕ) (dstva : ℕ) (h : UserTable m r sz) :
    Ensures (copyout sz r r dstva src) m fun b m' => CopiedOut r sz dstva src b m m' := by
  induction src generalizing m dstva with
  | nil =>
    exact ensures_pure ⟨.refl _ _ _ _ _, h, fun _ => id, fun _ _ => id, by simp, fun _ _ => rfl,
      by simp⟩
  | cons b src ih =>
    have hstop : ∀ {res m'}, Paged r sz (dstva / pgsize) res m m' →
        CopiedOut r sz dstva (b :: src) false m m' := by
      intro res m' hp
      refine ⟨hp.evolves, hp.table, hp.free, fun _ _ => hp.kept, fun x o hne => .inl ?_,
        fun a _ => hp.seen h a, by simp⟩
      by_contra hx
      exact hne (congrFun (hp.data x hx) o)
    rw [copyout]
    split
    · exact ensures_pure (hstop (Paged.refl h _))
    refine (userPage_spec h dstva).bind ?_
    rintro (_ | pa) m1 hp
    · exact ensures_pure (hstop hp)
    obtain ⟨pte, hl, rfl, hu⟩ := hp.found pa rfl
    refine ensures_eq_bind (writable_eq (pgrounddown dstva) hp.table.wf
      (by rw [pgrounddown_div]; exact hl)) ?_
    cases hw : pte.perm.w with
    | false => exact ensures_pure (hstop hp)
    | true =>
      set m2 := m1.setByte pte.pa (dstva % pgsize) b with hm2
      have htable : UserTable m2 r sz :=
        ⟨hp.table.sz, hp.table.wf, hp.table.frames, hp.table.high⟩
      have hseen : ∀ a, seen m2 r sz a = if a = dstva then some b else seen m r sz a := by
        intro a
        rw [hm2, hp.table.seen_setByte b hl hu, hp.seen h]
      refine ensures_modify_bind ((ih (dstva + 1) htable).mono ?_)
      intro res m3 hc
      constructor
      case evolves =>
        exact (hp.evolves.trans (hp.table.evolves_setByte _ b hl hu)).trans hc.evolves
      case table => exact hc.table
      case free => exact fun x hx => hp.free (hc.free hx)
      case kept => exact fun v pte' hv => hc.kept v pte' (hp.kept hv)
      case written =>
        intro x o hne
        by_cases hx : x ∈ m.freelist
        · exact .inl hx
        refine .inr ?_
        by_cases h3 : m3.data x o = m2.data x o
        · -- the byte written here
          have h2 : m2.data x o ≠ m1.data x o := by
            rw [hp.data x hx, ← h3]
            exact hne
          have hxo : x = pte.pa ∧ o = dstva % pgsize := by
            by_contra hno
            apply h2
            rw [hm2, Mem.setByte]
            by_cases hxp : x = pte.pa
            · subst hxp
              have ho : o ≠ dstva % pgsize := fun ho => hno ⟨rfl, ho⟩
              simp [ho]
            · exact congrFun (update_of_ne hxp _ _) _
          exact ⟨0, by simp, hxo.2.symm, pte, hc.kept _ _ hl, hxo.1.symm, hu, hw⟩
        · rcases hc.written x o h3 with hfree | ⟨j, hj, ho, hmap⟩
          · exact (hx (hp.free hfree)).elim
          · rw [show dstva + 1 + j = dstva + (j + 1) by omega] at ho hmap
            exact ⟨j + 1, by simpa using hj, ho, hmap⟩
      case other =>
        intro a ha
        rw [List.length_cons] at ha
        rw [hc.other a (by omega), hseen, if_neg (by omega)]
      case exact =>
        intro hres
        rw [List.map_cons, hc.exact hres, List.length_cons, List.range_succ_eq_map, List.map_cons,
          List.map_map, hc.other (dstva + 0) (by omega), hseen, if_pos (add_zero _)]
        refine congrArg _ (List.map_congr_left fun j _ => ?_)
        rw [Function.comp_apply, Nat.succ_eq_add_one, Nat.add_right_comm, add_assoc]

/-! ## A page at a time -/

theorem setBytes_nil (pa off : ℕ) : m.setBytes pa off [] = m := by
  have hdata : update m.data pa (fun o =>
      if off ≤ o ∧ o < off + ([] : List ℕ).length then ([] : List ℕ).getD (o - off) 0
      else m.data pa o) = m.data := by
    rw [Function.update_eq_self_iff]
    funext o
    exact if_neg (by simp)
  rw [Mem.setBytes, hdata]

theorem setBytes_cons (pa off b : ℕ) (bs : List ℕ) :
    (m.setByte pa off b).setBytes pa (off + 1) bs = m.setBytes pa off (b :: bs) := by
  simp only [Mem.setBytes, Mem.setByte, update_idem, update_self]
  congr 2
  funext o
  rcases lt_trichotomy o off with ho | rfl | ho
  · rw [if_neg (by omega), if_neg (by omega), update_of_ne (by omega)]
  · rw [if_neg (by omega), if_pos (by simp), update_self]
    simp
  · obtain ⟨j, rfl⟩ : ∃ j, o = off + 1 + j := ⟨o - (off + 1), by omega⟩
    rw [update_of_ne (by omega)]
    refine if_congr (by rw [List.length_cons]; omega) ?_ rfl
    rw [show off + 1 + j - off = j + 1 by omega, List.getD_cons_succ, Nat.add_sub_cancel_left]

theorem userPage_mapped {va : ℕ} {pte : Pte} (sz : ℕ) (hwf : (m.table r).Wf)
    (hl : (m.table r).leaf (va / pgsize) = some pte) (hu : pte.perm.u = true) :
    userPage sz r r (pgrounddown va) m = .ok (some pte.pa, m) := by
  have hwalk := walkaddr_eq (pgrounddown va) hwf
  rw [pgrounddown_div, hl] at hwalk
  simp only [userPage, bind, StateT.bind, Except.bind, hwalk, Option.filter, hu, if_true,
    Option.map_some]
  rfl

theorem copyout_cons {dstva b : ℕ} {src : List ℕ} {m1 : Mem} {pte : Pte}
    (hva : pgrounddown dstva < maxva)
    (hpage : userPage sz r r (pgrounddown dstva) m = .ok (some pte.pa, m1))
    (hwf : (m1.table r).Wf) (hl : (m1.table r).leaf (dstva / pgsize) = some pte)
    (hw : pte.perm.w = true) :
    copyout sz r r dstva (b :: src) m =
      copyout sz r r (dstva + 1) src (m1.setByte pte.pa (dstva % pgsize) b) := by
  have hwrite := writable_eq (pgrounddown dstva) hwf (by rw [pgrounddown_div]; exact hl)
  rw [copyout, if_neg (not_le.mpr hva)]
  simp only [bind, StateT.bind, Except.bind, hpage, hwrite, hw, if_true]
  rfl

theorem copyout_page (sz : ℕ) {v : ℕ} {pte : Pte} (hwf : (m.table r).Wf)
    (hl : (m.table r).leaf v = some pte) (hu : pte.perm.u = true) (hw : pte.perm.w = true)
    (bs rest : List ℕ) (o : ℕ) (ho : o + bs.length ≤ pgsize) :
    copyout sz r r (v * pgsize + o) (bs ++ rest) m =
      copyout sz r r (v * pgsize + o + bs.length) rest (m.setBytes pte.pa o bs) := by
  induction bs generalizing m o with
  | nil => rw [setBytes_nil, List.nil_append, List.length_nil, add_zero]
  | cons b bs ih =>
    rw [List.length_cons] at ho
    have hdiv : (v * pgsize + o) / pgsize = v := by
      simp only [pgsize] at ho ⊢
      omega
    have hmod : (v * pgsize + o) % pgsize = o := by
      simp only [pgsize] at ho ⊢
      omega
    have hlt : pgrounddown (v * pgsize + o) < maxva := by
      rw [pgrounddown, hdiv]
      exact hwf.leaf_lt (by simp [hl])
    rw [List.cons_append, copyout_cons hlt
      (userPage_mapped sz hwf (by rw [hdiv]; exact hl) hu) hwf (by rw [hdiv]; exact hl) hw, hmod,
      add_assoc, ih (m := m.setByte pte.pa o b) hwf hl (o + 1) (by omega), setBytes_cons]
    congr 1
    rw [List.length_cons]
    omega

theorem pgrounddown_add_mod (a : ℕ) : pgrounddown a + a % pgsize = a := Nat.div_add_mod' a pgsize

theorem copyoutPages_eq (h : UserTable m r sz) (dstva : ℕ) (src : List ℕ) :
    copyoutPages sz r r dstva src m = copyout sz r r dstva src m := by
  induction hn : src.length using Nat.strong_induction_on generalizing m dstva src with
  | _ n ih =>
    rw [copyoutPages]
    rcases src with _ | ⟨b, src⟩
    · rfl
    rw [dif_neg (by simp)]
    dsimp only
    have hmod := pgrounddown_add_mod dstva
    have hlt : dstva % pgsize < pgsize := Nat.mod_lt _ (by simp [pgsize])
    have hoff : dstva - pgrounddown dstva = dstva % pgsize := by omega
    by_cases hva : maxva ≤ pgrounddown dstva
    · rw [if_pos hva, copyout, if_pos hva]
    obtain ⟨res, m1, hpage, hp⟩ := userPage_spec h dstva
    rw [if_neg hva]
    rcases res with _ | pa
    · rw [copyout, if_neg hva]
      simp only [bind, StateT.bind, Except.bind, hpage]
    obtain ⟨pte, hl, rfl, hu⟩ := hp.found pa rfl
    have hwrite := writable_eq (pgrounddown dstva) hp.table.wf (by rw [pgrounddown_div]; exact hl)
    cases hw : pte.perm.w with
    | false =>
      rw [copyout, if_neg hva]
      simp only [bind, StateT.bind, Except.bind, hpage, hwrite, hw, Bool.false_eq_true, if_false]
    | true =>
      set k := min (pgsize - dstva % pgsize) (b :: src).length with hk
      have hkpos : 0 < k := by
        rw [hk, List.length_cons]
        omega
      have hkle : k ≤ (b :: src).length := min_le_right _ _
      have hsplit : b :: src = (b :: src).take k ++ (b :: src).drop k :=
        (List.take_append_drop k _).symm
      have htake : ((b :: src).take k).length = k := List.length_take_of_le hkle
      -- the page stays mapped, so the other bytes of the page find it at once
      have hbytes : copyout sz r r dstva (b :: src) m = copyout sz r r (dstva + k)
          ((b :: src).drop k) (m1.setBytes pte.pa (dstva % pgsize) ((b :: src).take k)) := by
        have hfirst : copyout sz r r dstva (b :: src) m = copyout sz r r dstva (b :: src) m1 := by
          rw [copyout_cons (not_le.mp hva) hpage hp.table.wf hl hw,
            copyout_cons (not_le.mp hva) (userPage_mapped sz hp.table.wf hl hu) hp.table.wf hl hw]
        have hrest := copyout_page sz hp.table.wf hl hu hw ((b :: src).take k)
          ((b :: src).drop k) (dstva % pgsize) (by rw [htake]; omega)
        rw [← hsplit, htake, ← pgrounddown, hmod] at hrest
        rw [hfirst, hrest]
      simp only [bind, StateT.bind, Except.bind, hpage, hwrite, hw, if_true, hoff]
      rw [hbytes]
      change copyoutPages sz r r ((pgrounddown dstva + pgsize) % 2 ^ 64) ((b :: src).drop k)
        (m1.setBytes pte.pa (dstva % pgsize) ((b :: src).take k)) = _
      have htable : UserTable (m1.setBytes pte.pa (dstva % pgsize) ((b :: src).take k)) r sz :=
        ⟨hp.table.sz, hp.table.wf, hp.table.frames, hp.table.high⟩
      rw [ih ((b :: src).drop k).length (by rw [List.length_drop]; omega) htable _ _ rfl]
      by_cases hfull : (b :: src).length ≤ pgsize - dstva % pgsize
      · rw [List.drop_eq_nil_of_le (by omega), copyout, copyout]
      · have hwrap : (pgrounddown dstva + pgsize) % 2 ^ 64 = dstva + k := by
          simp only [maxva, pgsize] at *
          omega
        rw [hwrap]

theorem copyin_succ {srcva len : ℕ} {m1 : Mem} {pa : ℕ}
    (hpage : userPage sz r r (pgrounddown srcva) m = .ok (some pa, m1)) :
    copyin sz r r srcva (len + 1) m = (do
      return (← copyin sz r r (srcva + 1) len).map (m1.data pa (srcva % pgsize) :: ·) : M _) m1 := by
  rw [copyin]
  simp only [bind, StateT.bind, Except.bind, hpage]
  rfl

theorem bytes_succ (pa off n : ℕ) :
    m.bytes pa off (n + 1) = m.data pa off :: m.bytes pa (off + 1) n := by
  rw [Mem.bytes, List.range_succ_eq_map, List.map_cons, List.map_map, add_zero, Mem.bytes]
  refine congrArg _ (List.map_congr_left fun j _ => ?_)
  rw [Function.comp_apply, Nat.succ_eq_add_one, Nat.add_right_comm, add_assoc]

theorem copyin_page (sz : ℕ) {v : ℕ} {pte : Pte} (hwf : (m.table r).Wf)
    (hl : (m.table r).leaf v = some pte) (hu : pte.perm.u = true) (k rest o : ℕ)
    (ho : o + k ≤ pgsize) :
    copyin sz r r (v * pgsize + o) (k + rest) m = (do
      return (← copyin sz r r (v * pgsize + o + k) rest).map (m.bytes pte.pa o k ++ ·) : M _) m := by
  induction k generalizing o with
  | zero =>
    simp [Mem.bytes, bind, StateT.bind, Except.bind, pure, StateT.pure, Except.pure]
    cases copyin sz r r (v * pgsize + o) rest m <;> rfl
  | succ k ih =>
    have hdiv : (v * pgsize + o) / pgsize = v := by
      simp only [pgsize] at ho ⊢
      omega
    have hmod : (v * pgsize + o) % pgsize = o := by
      simp only [pgsize] at ho ⊢
      omega
    have hrec := ih (o + 1) (by omega)
    rw [show k + 1 + rest = k + rest + 1 by omega,
      copyin_succ (userPage_mapped sz hwf (by rw [hdiv]; exact hl) hu), hmod, bytes_succ]
    simp only [bind, StateT.bind, Except.bind, ← add_assoc] at hrec ⊢
    rw [hrec, show v * pgsize + o + 1 + k = v * pgsize + o + k + 1 by omega]
    cases copyin sz r r (v * pgsize + o + k + 1) rest m with
    | error e => rfl
    | ok p =>
      obtain ⟨res, m2⟩ := p
      cases res <;> rfl

theorem copyinPages_eq (h : UserTable m r sz) (srcva len : ℕ) :
    copyinPages sz r r srcva len m = copyin sz r r srcva len m := by
  induction len using Nat.strong_induction_on generalizing m srcva with
  | _ len ih =>
    rw [copyinPages]
    rcases len with _ | len
    · rfl
    rw [dif_neg (by simp)]
    dsimp only
    have hmod := pgrounddown_add_mod srcva
    have hlt : srcva % pgsize < pgsize := Nat.mod_lt _ (by simp [pgsize])
    have hoff : srcva - pgrounddown srcva = srcva % pgsize := by omega
    obtain ⟨res, m1, hpage, hp⟩ := userPage_spec h srcva
    rcases res with _ | pa
    · rw [copyin]
      simp only [bind, StateT.bind, Except.bind, hpage]
    obtain ⟨pte, hl, rfl, hu⟩ := hp.found pa rfl
    set k := min (pgsize - srcva % pgsize) (len + 1) with hk
    have hfirst : copyin sz r r srcva (len + 1) m = copyin sz r r srcva (len + 1) m1 := by
      rw [copyin_succ hpage, copyin_succ (userPage_mapped sz hp.table.wf hl hu)]
    have hrest := copyin_page sz hp.table.wf hl hu k (len + 1 - k) (srcva % pgsize)
      (by omega)
    rw [← pgrounddown, hmod, show k + (len + 1 - k) = len + 1 by omega] at hrest
    have hnext : ∀ va, copyinPages sz r r va (len + 1 - k) m1 =
        copyin sz r r va (len + 1 - k) m1 := fun va => ih _ (by omega) hp.table va
    rw [hfirst, hrest]
    simp only [bind, StateT.bind, Except.bind, hpage, hoff]
    have hread : (get : M Mem) m1 = .ok (m1, m1) := rfl
    simp only [hread, ← hk, hnext]
    by_cases hfull : len + 1 ≤ pgsize - srcva % pgsize
    · rw [show len + 1 - k = 0 by omega]
      rfl
    · have hva : pgrounddown srcva < maxva := by
        have hleaf := hp.table.wf.leaf_lt (v := srcva / pgsize) (by simp [hl])
        exact hleaf
      have hwrap : (pgrounddown srcva + pgsize) % 2 ^ 64 = srcva + k := by
        simp only [maxva, pgsize] at *
        omega
      rw [hwrap]

/-! ## What a copy reads -/

/-- Memories with the same page tables and free pages. -/
structure SameTables (m t : Mem) : Prop where
  freelist : t.freelist = m.freelist
  twice : t.twice = m.twice
  table : t.table = m.table

theorem SameTables.userTable {t : Mem} (h : SameTables m t) (hm : UserTable m r sz) :
    UserTable t r sz := by
  refine ⟨hm.sz, ?_, ?_, ?_⟩
  · rw [h.table]
    exact hm.wf
  · rw [Mem.account, Mem.free, h.freelist, h.table]
    exact hm.frames
  · rw [h.table]
    exact hm.high

theorem memset_respects (pa c : ℕ) : Respects SameTables (memset pa c) :=
  respects_modify fun _ _ h => ⟨h.freelist, h.twice, h.table⟩

theorem kfree_respects (pa : ℕ) : Respects SameTables (kfree pa) := by
  refine respects_ite respects_throw ((memset_respects pa 1).bind fun _ => respects_modify ?_)
  intro s t h
  exact ⟨by simp [h.freelist], by simp [h.freelist, h.twice], h.table⟩

theorem kalloc_respects : Respects SameTables kalloc := by
  refine respects_get_bind (fun s t h => by rw [h.freelist]) fun s => ?_
  rcases s.freelist with _ | ⟨x, rest⟩
  · exact respects_pure
  · refine (respects_modify fun s t h => ?_).bind fun _ =>
      (memset_respects x 5).bind fun _ => respects_pure
    exact ⟨rfl, h.twice, h.table⟩

theorem setNext_respects (r l i : ℕ) (pa : Option ℕ) :
    Respects SameTables (modify fun m => m.setNext r l i pa : M PUnit) :=
  respects_modify fun _ _ h =>
    ⟨h.freelist, h.twice, by simp only [Mem.setNext, Mem.setTable, h.table]⟩

theorem setLeaf_respects (r v : ℕ) (pte : Option Pte) :
    Respects SameTables (modify fun m => m.setLeaf r v pte : M PUnit) :=
  respects_modify fun _ _ h =>
    ⟨h.freelist, h.twice, by simp only [Mem.setLeaf, Mem.setTable, h.table]⟩

theorem walkFrom_respects (r va : ℕ) (alloc : Bool) (level : ℕ) :
    Respects SameTables (walkFrom r va alloc level) := by
  induction level with
  | zero => exact respects_pure
  | succ level ih =>
    refine respects_get_bind (fun s t h => by rw [h.table]) fun s => ?_
    rcases (s.table r).next (level + 1) (va / 2 ^ (12 + 9 * (level + 1))) with _ | x
    · refine respects_ite (kalloc_respects.bind ?_) respects_pure
      rintro (_ | pa)
      · exact respects_pure
      · exact (memset_respects pa 0).bind fun _ => (setNext_respects r _ _ _).bind fun _ => ih
    · exact ih

theorem walk_respects (r va : ℕ) (alloc : Bool) : Respects SameTables (walk r va alloc) :=
  respects_ite respects_throw (walkFrom_respects r va alloc 2)

theorem pteOf_respects (r va : ℕ) : Respects SameTables (pteOf r va) := by
  refine (walk_respects r va false).bind fun b => respects_ite ?_ respects_pure
  exact respects_get_bind (fun s t h => by rw [h.table]) fun s => respects_pure

theorem walkaddr_respects (r va : ℕ) : Respects SameTables (walkaddr r va) := by
  refine respects_ite respects_pure ((pteOf_respects r va).bind ?_)
  rintro (_ | pte)
  · exact respects_pure
  · exact respects_ite respects_pure respects_pure

theorem mapLoop_respects (r : ℕ) (perm : Perm) (n a pa : ℕ) :
    Respects SameTables (mapLoop r perm n a pa) := by
  induction n generalizing a pa with
  | zero => exact respects_pure
  | succ n ih =>
    refine (walk_respects r a true).bind fun b => respects_ite ?_ respects_pure
    refine respects_get_bind (fun s t h => by rw [h.table]) fun s => ?_
    rcases (s.table r).leaf (a / pgsize) with _ | pte
    · exact (setLeaf_respects r _ _).bind fun _ => ih _ _
    · exact respects_throw

theorem mappages_respects (r va size pa : ℕ) (perm : Perm) :
    Respects SameTables (mappages r va size pa perm) :=
  respects_ite respects_throw (respects_ite respects_throw (respects_ite respects_throw
    (mapLoop_respects r perm _ va pa)))

theorem vmfault_respects (sz own r va : ℕ) : Respects SameTables (vmfault sz own r va) := by
  refine respects_ite respects_pure (((pteOf_respects r _).bind fun _ => respects_pure).bind
    fun b => respects_ite respects_pure (kalloc_respects.bind ?_))
  rintro (_ | mem)
  · exact respects_pure
  · exact (memset_respects mem 0).bind fun _ => (mappages_respects own _ _ mem _).bind fun b =>
      respects_ite respects_pure ((kfree_respects mem).bind fun _ => respects_pure)

/-- The page found for an address does not depend on what pages hold. -/
theorem userPage_respects (sz own r va0 : ℕ) : Respects SameTables (userPage sz own r va0) := by
  refine (walkaddr_respects r va0).bind ?_
  rintro (_ | pa)
  · exact vmfault_respects sz own r va0
  · exact respects_pure

theorem copyin_agree (len srcva : ℕ) {t : Mem} (h : UserTable m r sz) (hsame : SameTables m t)
    (hseen : ∀ j < len, seen t r sz (srcva + j) = seen m r sz (srcva + j)) :
    ∃ res m' t', copyin sz r r srcva len m = .ok (res, m') ∧
      copyin sz r r srcva len t = .ok (res, t') := by
  induction len generalizing m t srcva with
  | zero => exact ⟨some [], m, t, rfl, rfl⟩
  | succ len ih =>
    have ht := hsame.userTable h
    obtain ⟨res, m1, hm1, hpm⟩ := userPage_spec h srcva
    obtain ⟨t1, ht1, hsame1⟩ := userPage_respects sz r r (pgrounddown srcva) m t hsame res m1 hm1
    have hpt : Paged r sz (srcva / pgsize) res t t1 := (userPage_spec ht srcva).of_ok ht1
    rcases res with _ | pa
    · refine ⟨none, m1, t1, ?_, ?_⟩
      · rw [copyin]
        simp only [bind, StateT.bind, Except.bind, hm1]
        rfl
      · rw [copyin]
        simp only [bind, StateT.bind, Except.bind, ht1]
        rfl
    obtain ⟨pte, hl, rfl, hu⟩ := hpm.found pa rfl
    have hl' : (t1.table r).leaf (srcva / pgsize) = some pte := by rw [hsame1.table, hl]
    have hbyte : t1.data pte.pa (srcva % pgsize) = m1.data pte.pa (srcva % pgsize) := by
      have hm : seen m1 r sz srcva = some (m1.data pte.pa (srcva % pgsize)) := seen_mapped hl hu
      have ht : seen t1 r sz srcva = some (t1.data pte.pa (srcva % pgsize)) := seen_mapped hl' hu
      apply Option.some.inj
      rw [← hm, ← ht, hpm.seen h, hpt.seen (hsame.userTable h)]
      exact hseen 0 (by omega)
    obtain ⟨bs, m2, t2, hm2, ht2⟩ := ih (srcva + 1) hpm.table hsame1 fun j hj => by
      rw [hpm.seen h, hpt.seen ht, show srcva + 1 + j = srcva + (j + 1) by omega]
      exact hseen (j + 1) (by omega)
    refine ⟨bs.map (m1.data pte.pa (srcva % pgsize) :: ·), m2, t2, ?_, ?_⟩
    · rw [copyin_succ hm1]
      simp only [bind, StateT.bind, Except.bind, hm2]
      rfl
    · rw [copyin_succ ht1, hbyte]
      simp only [bind, StateT.bind, Except.bind, ht2]
      rfl

/-- Copies are exact, and confined to what the page table shows to the user. What `copyin`
returns depends on no other byte. -/
theorem copies_confined (h : UserTable m r sz) :
    (∀ dstva src, Ensures (copyoutPages sz r r dstva src) m fun b m' =>
      CopiedOut r sz dstva src b m m' ∧ (b = true → src ≠ [] → dstva + src.length ≤ maxva)) ∧
    ∀ srcva len, Ensures (copyinPages sz r r srcva len) m fun res m' =>
      CopiedIn r sz srcva len res m m' ∧ (res ≠ none → 0 < len → srcva + len ≤ maxva) ∧
      ∀ t, SameTables m t →
        (∀ j < len, ∀ pte, (m.table r).leaf ((srcva + j) / pgsize) = some pte →
          pte.perm.u = true → t.data pte.pa ((srcva + j) % pgsize) =
            m.data pte.pa ((srcva + j) % pgsize)) →
        ∃ t', copyinPages sz r r srcva len t = .ok (res, t') := by
  refine ⟨fun dstva src => ?_, fun srcva len => ?_⟩
  · obtain ⟨b, m', hrun, hc⟩ := copyout_spec src dstva h
    refine ⟨b, m', (copyoutPages_eq h dstva src).trans hrun, hc, fun hb hne => ?_⟩
    have hpos := List.length_pos_of_ne_nil hne
    have hlast := congrArg (·[src.length - 1]?) (hc.exact hb)
    simp only [List.getElem?_map, List.getElem?_range (show src.length - 1 < src.length by omega),
      List.getElem?_eq_getElem (show src.length - 1 < src.length by omega), Option.map_some,
      Option.some.injEq] at hlast
    have := hc.table.seen_lt hlast.symm
    omega
  · obtain ⟨res, m', hrun, hc⟩ := copyin_spec len srcva h
    refine ⟨res, m', (copyinPages_eq h srcva len).trans hrun, hc, fun hres hpos => ?_, ?_⟩
    · obtain ⟨bs, rfl⟩ := Option.ne_none_iff_exists'.mp hres
      have hlen : bs.length = len := by simpa using congrArg List.length (hc.exact bs rfl)
      have hlast := congrArg (·[len - 1]?) (hc.exact bs rfl)
      simp only [List.getElem?_map, List.getElem?_range (show len - 1 < len by omega),
        List.getElem?_eq_getElem (show len - 1 < bs.length by omega), Option.map_some,
        Option.some.injEq] at hlast
      have := h.seen_lt hlast.symm
      omega
    · intro t hsame hbytes
      have hseen : ∀ j < len, seen t r sz (srcva + j) = seen m r sz (srcva + j) := fun j hj =>
        seen_congr (by rw [hsame.table]) (hbytes j hj)
      obtain ⟨res', m1, t1, hm1, ht1⟩ := copyin_agree len srcva h hsame hseen
      obtain ⟨rfl, -⟩ := Prod.mk.inj (Except.ok.inj (hrun.symm.trans hm1))
      exact ⟨t1, (copyinPages_eq (hsame.userTable h) srcva len).trans ht1⟩

/-- A heap of one page that is not mapped yet, to which the kernel copies two bytes. -/
theorem copies_confined_fault : UserTable emptyHeap.mem 0x80200000 4096 ∧
    Ensures (copyoutPages 4096 0x80200000 0x80200000 7 [1, 2]) emptyHeap.mem fun b m' =>
      CopiedOut 0x80200000 4096 7 [1, 2] b emptyHeap.mem m' := by
  have htable : UserTable emptyHeap.mem 0x80200000 4096 :=
    ⟨by decide, PageTable.wf_empty,
      (Mem.account_mono (by simp [belowTrapframe, ownVpn]; omega) le_rfl).trans emptyHeap_heap.frames,
      fun _ _ _ => by simp [emptyHeap, bootKernel, Kernel.setProc, PageTable.empty]⟩
  exact ⟨htable, ((copies_confined htable).1 7 [1, 2]).mono fun _ _ h => h.1⟩

end

end Xv6.Vm
