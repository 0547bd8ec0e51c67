import Xv6.Exec.Model
import Xv6.Vm.Spends

/-!
# Program images

What `kexec` builds, without frames and page tables: a size, and the permissions and the
bytes of the pages below it. `Built` relates a page table under construction to its image;
each function that `kexec` calls has one lemma, which says what it does to the image.
-/

namespace Xv6.Exec

open Eff Bag Vm Function

/-- The pages of a program below its size. Bytes above the last page are kept as zero. -/
structure Image where
  sz : ℕ
  perm : ℕ → Perm
  byte : ℕ → ℕ

namespace Image

def empty : Image := ⟨0, fun _ => pteR, fun _ => 0⟩

/-- More pages, up to a size. -/
def grow (g : Image) (newsz : ℕ) (perm : Perm) : Image :=
  { g with sz := max g.sz newsz, perm := fun v => if npages g.sz ≤ v then perm else g.perm v }

/-- Bytes are copied into the image. -/
def write (g : Image) (a : ℕ) (bs : List ℕ) : Image :=
  { g with byte := fun x => if a ≤ x ∧ x < a + bs.length then bs.getD (x - a) 0 else g.byte x }

/-- A page is hidden from the user. -/
def guard (g : Image) (v : ℕ) : Image :=
  { g with perm := update g.perm v { g.perm v with u := false } }

@[simp] theorem write_sz (g : Image) (a : ℕ) (bs : List ℕ) : (g.write a bs).sz = g.sz := rfl

@[simp] theorem write_perm (g : Image) (a : ℕ) (bs : List ℕ) : (g.write a bs).perm = g.perm := rfl

theorem write_byte (g : Image) (a : ℕ) (bs : List ℕ) (x : ℕ) : (g.write a bs).byte x =
    if a ≤ x ∧ x < a + bs.length then bs.getD (x - a) 0 else g.byte x := rfl

@[simp] theorem guard_sz (g : Image) (v : ℕ) : (g.guard v).sz = g.sz := rfl

@[simp] theorem write_nil (g : Image) (a : ℕ) : g.write a [] = g := by
  simp only [write, List.length_nil]
  congr 1
  funext x
  exact if_neg (by omega)

theorem write_cons (g : Image) (a b : ℕ) (bs : List ℕ) :
    g.write a (b :: bs) = (g.write a [b]).write (a + 1) bs := by
  simp only [write, List.length_cons, List.length_nil]
  congr 1
  funext x
  by_cases hx : x = a
  · subst hx
    rw [if_pos (by omega), if_neg (by omega), if_pos (by omega)]
    simp
  · by_cases hin : a + 1 ≤ x ∧ x < a + 1 + bs.length
    · rw [if_pos (by omega), if_pos hin]
      obtain ⟨d, hd⟩ : ∃ d, x - a = d + 1 := ⟨x - a - 1, by omega⟩
      rw [hd, List.getD_cons_succ]
      congr 1
      omega
    · rw [if_neg (by omega), if_neg hin, if_neg (by omega)]

end Image

/-- From `m0` on a page table with root `r` has been built from free pages; it holds the
image `g` and, above, the pages of a process with trapframe `tf`. -/
structure Built (tf r : ℕ) (g : Image) (m0 m : Mem) : Prop where
  table : NewTable belowTrapframe r 0 m0 m
  low : ∀ v < npages g.sz, ∃ pa, (m.table r).leaf v = some ⟨pa, g.perm v⟩ ∧
    ∀ o < pgsize, m.data pa o = g.byte (v * pgsize + o)
  high : ∀ v, npages g.sz ≤ v → (m.table r).leaf v = baseLeaf tf v
  count : npages g.sz + m.freelist.length ≤ m0.freelist.length
  zero : ∀ a, npages g.sz * pgsize ≤ a → g.byte a = 0

/-- What remains to be said of a page table that will be given up. -/
structure Shell (tf r sz : ℕ) (m0 m : Mem) : Prop where
  table : NewTable belowTrapframe r 0 m0 m
  room : npages sz ≤ userVpn
  high : ∀ v, npages sz ≤ v → (m.table r).leaf v = baseLeaf tf v

section

variable {tf r : ℕ} {g : Image} {m0 m m' : Mem} (hp : m0.free ≤ pool)
include hp

theorem length_le_userVpn : m0.freelist.length ≤ userVpn := by
  have hcard : m0.freelist.length ≤ Multiset.card pool := by
    simpa [Mem.free] using Multiset.card_le_card hp
  have hpool : Multiset.card pool ≤ userVpn := by
    simp only [pool, poolList, Multiset.coe_card, List.length_map, List.length_range]
    decide
  exact hcard.trans hpool

namespace Built

variable (h : Built tf r g m0 m)
include h

theorem room : npages g.sz ≤ userVpn := by
  have := h.count
  have := length_le_userVpn hp
  omega

theorem fits : m.account belowTrapframe r {r} ≤ pool := by
  simpa using h.table.fits hp

theorem own {v : ℕ} (hv : v < npages g.sz) : belowTrapframe v = true := by
  have := h.room hp
  simp only [belowTrapframe, decide_eq_true_eq]
  omega

theorem lt_vpns {v : ℕ} (hv : v < npages g.sz) : v < vpns := by
  have := h.room hp
  have := userVpn_lt
  omega

theorem inj {v v' : ℕ} {pte pte' : Pte} (hv : v < npages g.sz) (hv' : v' < npages g.sz)
    (hl : (m.table r).leaf v = some pte) (hl' : (m.table r).leaf v' = some pte')
    (heq : pte.pa = pte'.pa) : v = v' :=
  frame_inj (h.fits hp) (h.lt_vpns hp hv) (h.own hp hv) hl (h.lt_vpns hp hv') (h.own hp hv') hl' heq

theorem not_free {v : ℕ} {pte : Pte} (hv : v < npages g.sz)
    (hl : (m.table r).leaf v = some pte) : pte.pa ∉ m.freelist :=
  frame_not_free (h.fits hp) (h.lt_vpns hp hv) (h.own hp hv) hl

theorem frame_mem {v : ℕ} {pte : Pte} (hv : v < npages g.sz)
    (hl : (m.table r).leaf v = some pte) : pte.pa ∈ m0.freelist :=
  h.table.spends.mem (Multiset.mem_add.mpr
    (.inl (leaf_mem_pages (h.lt_vpns hp hv) (h.own hp hv) hl)))

omit hp in
theorem lookup {a : ℕ} (ha : a < npages g.sz * pgsize) :
    ∃ pa, (m.table r).leaf (a / pgsize) = some ⟨pa, g.perm (a / pgsize)⟩ ∧
      m.data pa (a % pgsize) = g.byte a := by
  have hpos : 0 < pgsize := by simp [pgsize]
  obtain ⟨pa, hl, hd⟩ := h.low (a / pgsize) (Nat.div_lt_of_lt_mul (by rwa [mul_comm]))
  refine ⟨pa, hl, ?_⟩
  rw [hd _ (Nat.mod_lt _ hpos), Nat.div_add_mod']

theorem shell : Shell tf r g.sz m0 m := ⟨h.table, h.room hp, h.high⟩

theorem uvmalloc (newsz : ℕ) (xperm : Perm) :
    Ensures (Vm.uvmalloc r g.sz newsz xperm) m fun res m' =>
      res = max g.sz newsz ∧ Built tf r (g.grow newsz (pteR ||| pteU ||| xperm)) m0 m' ∨
      res = 0 ∧ Shell tf r g.sz m0 m' := by
  have hlen := length_le_userVpn hp
  have hcount := h.count
  have hlt := userVpn_lt
  refine (uvmalloc_spec belowTrapframe r ∅ {r} (by omega) h.table.wf (fun v _ _ hv => ?_)
    (fun v hv _ hv' => ?_) (h.fits hp)).mono ?_
  · simp only [belowTrapframe, decide_eq_true_eq]
    omega
  · rw [h.high v hv]
    exact baseLeaf_user (by omega)
  rintro res m' (⟨rfl, hg⟩ | ⟨rfl, he, hleaf⟩)
  · have hmax : npages (max g.sz newsz) = max (npages g.sz) (npages newsz) :=
      Monotone.map_max fun _ _ => npages_mono
    refine .inl ⟨rfl, h.table.evolves (by simpa using hg.evolves), ?_, ?_, ?_, ?_⟩
    · intro v hv
      simp only [Image.grow, hmax] at hv ⊢
      by_cases hold : npages g.sz ≤ v
      · obtain ⟨pa, -, hl, hd⟩ := hg.mapped v hold (by omega)
        refine ⟨pa, by rw [hl, if_pos hold], fun o _ => ?_⟩
        rw [hd, h.zero]
        exact (Nat.mul_le_mul_right _ hold).trans (Nat.le_add_right _ _)
      · obtain ⟨pa, hl, hd⟩ := h.low v (by omega)
        refine ⟨pa, by rw [hg.other v (by omega), hl, if_neg hold], fun o ho => ?_⟩
        rw [hg.takes.data pa (h.not_free hp (by omega) hl), hd o ho]
    · intro v hv
      simp only [Image.grow, hmax] at hv
      rw [hg.other v (by omega), h.high v (by omega)]
    · have := hg.free
      simp only [Image.grow, hmax]
      omega
    · intro a ha
      refine h.zero a (le_trans (Nat.mul_le_mul_right _ ?_) ha)
      exact npages_mono (le_max_left _ _)
  · refine .inr ⟨rfl, h.table.evolves (by simpa using he), h.room hp, fun v hv => ?_⟩
    rw [hleaf, h.high v hv]

theorem setBytes {v pa : ℕ} {perm : Perm} (hv : v < npages g.sz)
    (hl : (m.table r).leaf v = some ⟨pa, perm⟩) (off : ℕ) (bs : List ℕ) (hlen : off + bs.length ≤ pgsize) :
    Built tf r (g.write (v * pgsize + off) bs) m0 (m.setBytes pa off bs) where
  table := by
    refine ⟨h.table.root, ⟨h.table.spends.free, fun x hx => ?_, h.table.spends.table,
      h.table.spends.twice⟩, h.table.wf⟩
    refine (update_of_ne ?_ _ _).trans (h.table.spends.data x hx)
    rintro rfl
    exact hx (h.frame_mem hp hv hl)
  low w hw := by
    obtain ⟨pa', hl', hd⟩ := h.low w hw
    refine ⟨pa', hl', fun o ho => ?_⟩
    by_cases hwv : w = v
    · subst hwv
      obtain ⟨rfl, -⟩ := Pte.mk.inj (Option.some.inj (hl.symm.trans hl'))
      simp only [Mem.setBytes, update_self, Image.write, Nat.add_sub_add_left]
      rw [hd o ho]
      exact if_congr (by omega) rfl rfl
    · have hne : pa' ≠ pa := fun heq => hwv (h.inj hp hw hv hl' hl heq)
      have hpage : w * pgsize + pgsize ≤ v * pgsize ∨ v * pgsize + pgsize ≤ w * pgsize := by
        rw [← Nat.succ_mul, ← Nat.succ_mul]
        rcases Nat.lt_or_gt_of_ne hwv with hlt | hlt
        · exact .inl (Nat.mul_le_mul_right _ hlt)
        · exact .inr (Nat.mul_le_mul_right _ hlt)
      simp only [Mem.setBytes, update_of_ne hne, hd o ho, Image.write]
      exact (if_neg (by omega)).symm
  high := h.high
  count := h.count
  zero a ha := by
    have hpage : v * pgsize + pgsize ≤ npages g.sz * pgsize := by
      rw [← Nat.succ_mul]
      exact Nat.mul_le_mul_right _ hv
    rw [Image.write_sz] at ha
    exact (if_neg (by omega)).trans (h.zero a ha)

theorem copyout (oldsz old : ℕ) (bs : List ℕ) {a : ℕ} (hle : a + bs.length ≤ npages g.sz * pgsize)
    (hperm : ∀ v, a / pgsize ≤ v → v < npages g.sz → (g.perm v).u = true ∧ (g.perm v).w = true) :
    Ensures (Vm.copyout oldsz old r a bs) m fun b m' =>
      b = true ∧ Built tf r (g.write a bs) m0 m' := by
  induction bs generalizing g m a with
  | nil => exact ensures_pure ⟨rfl, by rwa [Image.write_nil]⟩
  | cons b bs ih =>
    have hpos : 0 < pgsize := by simp [pgsize]
    have hroom := h.room hp
    simp only [List.length_cons] at hle
    have hv : a / pgsize < npages g.sz := Nat.div_lt_of_lt_mul (by rw [mul_comm]; omega)
    obtain ⟨pa, hl, -⟩ := h.lookup (a := a) (by omega)
    obtain ⟨hu, hw⟩ := hperm _ le_rfl hv
    have hmax : pgrounddown a < maxva := by
      rw [pgrounddown]
      exact mul_pgsize_lt (by omega)
    rw [Vm.copyout, if_neg (by omega)]
    have hpage : userPage oldsz old r (pgrounddown a) m = .ok (some pa, m) := by
      have hwalk := walkaddr_eq (pgrounddown a) h.table.wf
      rw [pgrounddown_div, hl] at hwalk
      simp only [Option.filter, hu, if_true, Option.map_some] at hwalk
      simp only [userPage, bind, StateT.bind, hwalk]
      rfl
    have hwr : writable r (pgrounddown a) m = .ok (true, m) := by
      rw [writable_eq (pgrounddown a) h.table.wf (by rw [pgrounddown_div]; exact hl), hw]
    refine ensures_eq_bind hpage (ensures_eq_bind hwr (ensures_modify_bind ?_))
    have hset : m.setByte pa (a % pgsize) b = m.setBytes pa (a % pgsize) [b] := by
      rw [← setBytes_cons, setBytes_nil]
    have hmod := Nat.mod_lt a hpos
    have hnext := h.setBytes hp hv hl (a % pgsize) [b] (by simp; omega)
    rw [Nat.div_add_mod'] at hnext
    rw [hset, Image.write_cons]
    refine ih hnext ?_ ?_
    · rw [Image.write_sz]
      omega
    · intro v hv'
      exact hperm v (le_trans (Nat.div_le_div_right (Nat.le_succ a)) hv')

theorem uvmclear {v : ℕ} (hv : v < npages g.sz) :
    Ensures (Vm.uvmclear r (v * pgsize)) m fun _ m' => Built tf r (g.guard v) m0 m' := by
  have hmax : v * pgsize < maxva := by
    rw [← vpns_mul]
    exact Nat.mul_lt_mul_of_pos_right (h.lt_vpns hp hv) (by simp [pgsize])
  obtain ⟨pa, hl, hd⟩ := h.low v hv
  have hnext : (m.table r).next 1 (v / 512) ≠ none := h.table.wf.leaf v (by simp [hl])
  have hdiv : v * pgsize / 2 ^ 21 = v / 512 := by
    rw [← mul_pgsize_div v, Nat.div_div_eq_div_mul, mul_pgsize_div]
    rfl
  have hwalk : walk r (v * pgsize) false m = .ok (true, m) := by
    rw [walk_false hmax h.table.wf, hdiv, Option.isSome_iff_ne_none.mpr hnext]
  refine ensures_eq_bind hwalk (ensures_modify ?_)
  rw [mul_pgsize_div, hl, Option.map_some]
  have hev : Evolves belowTrapframe r ∅ {r} {r} m
      (m.setLeaf r v (some ⟨pa, { g.perm v with u := false }⟩)) :=
    evolves_setLeaf (h.lt_vpns hp hv) (by simp [cost, h.own hp hv, hl]) fun _ => hnext
  refine ⟨h.table.evolves (by simpa using hev), fun w hw => ?_, fun w hw => ?_, h.count, h.zero⟩
  · obtain ⟨pa', hl', hd'⟩ := h.low w hw
    by_cases hwv : w = v
    · subst hwv
      refine ⟨pa, ?_, hd⟩
      simp [Image.guard]
    · refine ⟨pa', ?_, hd'⟩
      rw [setLeaf_table_self, leaf_setLeaf_ne _ _ hwv, hl']
      simp [Image.guard, hwv]
  · rw [Image.guard_sz] at hw
    rw [setLeaf_table_self, leaf_setLeaf_ne _ _ (by omega), h.high w hw]

end Built

end

/-! ## Segments -/

/-- Byte `j` of a segment. `loadseg` adds offsets in 32 bits, a page at a time. -/
def segByte (data : List UInt8) (offset j : ℕ) : ℕ :=
  (data.getD ((offset + j / pgsize * pgsize) % 2 ^ 32 + j % pgsize) 0).toNat

/-- The first bytes of a segment are copied from the file. -/
def Image.fill (g : Image) (data : List UInt8) (va offset sz : ℕ) : Image :=
  { g with byte := fun a =>
      if va ≤ a ∧ a < va + sz then segByte data offset (a - va) else g.byte a }

theorem length_readi_le (data : List UInt8) (off n : ℕ) : (readi data off n).length ≤ n := by
  unfold readi
  split_ifs
  · simp
  · simp
    omega
  · simp

/-- What `readi` has copied when it returns the length that it was asked for. -/
theorem readi_full {data : List UInt8} {off n : ℕ} (hn : 0 < n)
    (hlen : (readi data off n).length = n) :
    off + n ≤ data.length ∧ readi data off n = (data.drop off).take n := by
  unfold readi at hlen ⊢
  split_ifs at hlen ⊢ with hout hlong
  · simp at hlen
    omega
  · simp at hlen
    omega
  · exact ⟨by omega, rfl⟩

theorem getD_readi (data : List UInt8) (offset i : ℕ) {n o : ℕ} (ho : o < n) (hn : n ≤ pgsize)
    (hlen : (readi data ((offset + i * pgsize) % 2 ^ 32) n).length = n) :
    ((readi data ((offset + i * pgsize) % 2 ^ 32) n).map UInt8.toNat).getD o 0 =
      segByte data offset (i * pgsize + o) := by
  obtain ⟨-, heq⟩ := readi_full (by omega) hlen
  have hdiv : (i * pgsize + o) / pgsize = i := by
    simp only [pgsize] at *
    omega
  have hmod : (i * pgsize + o) % pgsize = o := by
    simp only [pgsize] at *
    omega
  rw [heq, segByte, hdiv, hmod, List.getD_eq_getElem?_getD, List.getElem?_map,
    List.getElem?_take_of_lt ho, List.getElem?_drop, List.getD_eq_getElem?_getD]
  cases data[(offset + i * pgsize) % 2 ^ 32 + o]? <;> rfl

section

variable {tf r : ℕ} {g : Image} {m0 m : Mem} {va sz : ℕ}

theorem Built.loadsegLoop (hp : m0.free ≤ pool) (data : List UInt8) (v0 offset sz : ℕ)
    (rounds i : ℕ) (h : Built tf r g m0 m) (hi : i + rounds = npages sz)
    (hle : v0 * pgsize + sz ≤ npages g.sz * pgsize)
    (hu : ∀ v < npages g.sz, (g.perm v).u = true) :
    Ensures (Exec.loadsegLoop data r (v0 * pgsize) offset sz rounds (i * pgsize)) m fun b m' =>
      ∃ g', Built tf r g' m0 m' ∧ g'.sz = g.sz ∧ g'.perm = g.perm ∧
        (b = true → ∀ a, g'.byte a = if v0 * pgsize + i * pgsize ≤ a ∧ a < v0 * pgsize + sz
          then segByte data offset (a - v0 * pgsize) else g.byte a) := by
  induction rounds generalizing i g m with
  | zero =>
    refine ensures_pure ⟨g, h, rfl, rfl, fun _ a => ?_⟩
    have hend : sz ≤ i * pgsize := by
      rw [← Nat.add_zero i, hi]
      simp only [npages, pgsize]
      omega
    exact (if_neg (by omega)).symm
  | succ rounds ih =>
    have hlt : i * pgsize < sz := by
      have hlt' : i < npages sz := by omega
      simp only [npages, pgsize] at hlt' ⊢
      omega
    have hva : v0 * pgsize + i * pgsize = (v0 + i) * pgsize := by ring
    have hv : v0 + i < npages g.sz := by
      apply lt_of_mul_lt_mul_right (a := pgsize) _ (Nat.zero_le _)
      omega
    have hsmall : (v0 + i) * pgsize < 2 ^ 64 := by
      have hroom := h.room hp
      simp only [userVpn, Vm.trapframe, trampoline, maxva, pgsize] at hroom ⊢
      omega
    obtain ⟨pa, hl, -⟩ := h.low (v0 + i) hv
    have hwalk := walkaddr_eq ((v0 + i) * pgsize) h.table.wf
    rw [mul_pgsize_div, hl] at hwalk
    simp only [Option.filter, hu _ hv, if_true, Option.map_some] at hwalk
    rw [Exec.loadsegLoop, hva, Nat.mod_eq_of_lt hsmall]
    refine ensures_eq_bind hwalk (ensures_modify_bind ?_)
    generalize hn : (if sz - i * pgsize < pgsize then sz - i * pgsize else pgsize) = n
    have hnle : n ≤ pgsize ∧ i * pgsize + n ≤ sz ∧ 0 < n ∧
        (n = pgsize ∨ i * pgsize + n = sz) := by
      have hpos : 0 < pgsize := by simp [pgsize]
      rw [← hn]
      split_ifs <;> omega
    have hread := length_readi_le data ((offset + i * pgsize) % 2 ^ 32) n
    have h1 := h.setBytes hp hv hl 0
      ((readi data ((offset + i * pgsize) % 2 ^ 32) n).map UInt8.toNat)
      (by rw [List.length_map]; omega)
    rw [add_zero] at h1
    split_ifs with hlen
    · exact ensures_pure ⟨_, h1, rfl, rfl, by simp⟩
    · rw [not_not] at hlen
      obtain ⟨hfile, heq⟩ := readi_full hnle.2.2.1 hlen
      have hnext : i * pgsize + pgsize = (i + 1) * pgsize := by ring
      rw [hnext]
      refine (ih (i + 1) h1 (by omega) hle hu).mono ?_
      rintro b m' ⟨g', hb, hsz, hperm, hbytes⟩
      refine ⟨g', hb, hsz, hperm, fun htrue a => ?_⟩
      rw [hbytes htrue a]
      by_cases hlate : v0 * pgsize + (i + 1) * pgsize ≤ a ∧ a < v0 * pgsize + sz
      · rw [if_pos hlate, if_pos (by omega)]
      · rw [if_neg hlate, Image.write_byte, List.length_map, hlen, ← hva]
        by_cases hpage : v0 * pgsize + i * pgsize ≤ a ∧ a < v0 * pgsize + sz
        · obtain ⟨o, rfl⟩ := Nat.exists_eq_add_of_le hpage.1
          have ho : o < n := by omega
          rw [if_pos (by omega), if_pos hpage, Nat.add_sub_cancel_left, add_assoc,
            Nat.add_sub_cancel_left]
          exact getD_readi data offset i ho (by omega) hlen
        · rw [if_neg (by omega), if_neg hpage]

theorem le_npages_mul (sz : ℕ) : sz ≤ npages sz * pgsize := by
  simp only [npages, pgsize]
  omega

theorem Built.loadseg (hp : m0.free ≤ pool) (h : Built tf r g m0 m) (data : List UInt8)
    (offset : ℕ) (hva : va % pgsize = 0) (hle : va + sz ≤ g.sz)
    (hu : ∀ v < npages g.sz, (g.perm v).u = true) :
    Ensures (Exec.loadseg data r va offset sz) m fun b m' =>
      ∃ g', Built tf r g' m0 m' ∧ g'.sz = g.sz ∧ g'.perm = g.perm ∧
        (b = true → g' = g.fill data va offset sz) := by
  obtain ⟨v0, rfl⟩ := Nat.dvd_of_mod_eq_zero hva
  have hbound := le_npages_mul g.sz
  rw [mul_comm pgsize v0] at *
  have hloop := h.loadsegLoop hp data v0 offset sz (npages sz) 0 (by omega) (by omega) hu
  rw [Nat.zero_mul, Nat.add_zero] at hloop
  rw [Exec.loadseg, pgroundup_eq, mul_pgsize_div]
  refine hloop.mono ?_
  rintro b m' ⟨g', hb, hsz, hperm, hbytes⟩
  refine ⟨g', hb, hsz, hperm, fun htrue => ?_⟩
  have hbyte : g'.byte = (g.fill data (v0 * pgsize) offset sz).byte := funext (hbytes htrue)
  cases g'
  cases g
  simp only [Image.fill] at *
  subst hsz hperm hbyte
  rfl

end

/-! ## The segments of a file -/

theorem le_lt (bs : List UInt8) : le bs < 256 ^ bs.length := by
  induction bs with
  | nil => simp [le]
  | cons b bs ih =>
    have hb := b.toNat_lt
    rw [le, List.length_cons, pow_succ]
    omega

theorem field_lt (bs : List UInt8) (off n : ℕ) : field bs off n < 256 ^ n := by
  refine (le_lt _).trans_le (Nat.pow_le_pow_right (by omega) ?_)
  simp

/-- The program header at an offset of the file. -/
def headerAt (data : List UInt8) (off : ℕ) : Proghdr :=
  Proghdr.ofBytes (readi data (off % 2 ^ 32) Proghdr.size)

/-- The headers of the segments to be loaded, among `n` headers from `off` on. -/
def loads (data : List UInt8) : ℕ → ℕ → List Proghdr
  | 0, _ => []
  | n + 1, off =>
    if (headerAt data off).type = elfProgLoad
    then headerAt data off :: loads data n (off + Proghdr.size)
    else loads data n (off + Proghdr.size)

/-- The permissions of the pages that are mapped for a segment. -/
def Proghdr.perm (ph : Proghdr) : Perm := pteR ||| pteU ||| flags2perm ph.flags

/-- The image with one more segment. -/
def Image.segment (data : List UInt8) (g : Image) (ph : Proghdr) : Image :=
  (g.grow (ph.vaddr + ph.memsz) ph.perm).fill data ph.vaddr (ph.off % 2 ^ 32) (ph.filesz % 2 ^ 32)

/-- The checks that `kexec` makes before it loads a segment. -/
structure Proghdr.Valid (ph : Proghdr) : Prop where
  filesz : ph.filesz ≤ ph.memsz
  end_lt : ph.vaddr + ph.memsz < 2 ^ 64
  aligned : ph.vaddr % pgsize = 0

section

variable {tf r : ℕ} {g : Image} {m0 m : Mem}

theorem perm_user (ph : Proghdr) : ph.perm.u = true := rfl

theorem Built.loadLoop (hp : m0.free ≤ pool) (data : List UInt8) (n off : ℕ)
    (h : Built tf r g m0 m) (hu : ∀ v < npages g.sz, (g.perm v).u = true) :
    Ensures (Exec.loadLoop data r n off g.sz) m fun res m' => match res with
      | (true, sz) => Built tf r ((loads data n off).foldl (Image.segment data) g) m0 m' ∧
          sz = ((loads data n off).foldl (Image.segment data) g).sz ∧
          (∀ v < npages sz, (((loads data n off).foldl (Image.segment data) g).perm v).u = true) ∧
          ∀ ph ∈ loads data n off, ph.Valid
      | (false, sz) => Shell tf r sz m0 m' := by
  induction n generalizing off g m with
  | zero => exact ensures_pure ⟨h, rfl, hu, by simp [loads]⟩
  | succ n ih =>
    rw [Exec.loadLoop]
    simp only [← headerAt.eq_1]
    by_cases hlen : (readi data (off % 2 ^ 32) Proghdr.size).length ≠ Proghdr.size
    · rw [if_pos hlen]
      exact ensures_pure (h.shell hp)
    rw [if_neg hlen]
    by_cases htype : (headerAt data off).type = elfProgLoad
    case neg =>
      rw [if_pos htype, loads, if_neg htype]
      exact ih _ h hu
    rw [if_neg (not_not.mpr htype), loads, if_pos htype, List.foldl_cons]
    have hvaddr : (headerAt data off).vaddr < 256 ^ 8 := field_lt _ 16 8
    have hmemsz : (headerAt data off).memsz < 256 ^ 8 := field_lt _ 40 8
    generalize headerAt data off = ph at *
    split_ifs with hsize hwrap hal
    · exact ensures_pure (h.shell hp)
    · exact ensures_pure (h.shell hp)
    · exact ensures_pure (h.shell hp)
    · have hend : ph.vaddr + ph.memsz < 2 ^ 64 := by omega
      have hvalid : ph.Valid := ⟨by omega, hend, not_not.mp hal⟩
      rw [Nat.mod_eq_of_lt hend]
      refine (h.uvmalloc hp _ _).bind ?_
      rintro sz1 m1 (⟨rfl, h1⟩ | ⟨rfl, hs⟩)
      case inr => exact ensures_pure hs
      have hu1 : ∀ v < npages (max g.sz (ph.vaddr + ph.memsz)),
          ((g.grow (ph.vaddr + ph.memsz) ph.perm).perm v).u = true := by
        intro v _
        simp only [Image.grow]
        split_ifs with hv
        · rfl
        · exact hu v (by omega)
      split_ifs with hz
      · have hshell := h1.shell hp
        simp only [Image.grow, hz] at hshell
        have hzero : g.sz = 0 := by omega
        exact ensures_pure (hzero ▸ hshell)
      have hfit : ph.vaddr + ph.filesz % 2 ^ 32 ≤ max g.sz (ph.vaddr + ph.memsz) := by
        have := Nat.mod_le ph.filesz (2 ^ 32)
        omega
      refine (h1.loadseg hp data (ph.off % 2 ^ 32) hvalid.aligned hfit hu1).bind ?_
      rintro b m2 ⟨g', h2, hsz, hperm, hfill⟩
      cases b with
      | false =>
        have hshell := h2.shell hp
        rw [hsz] at hshell
        exact ensures_pure hshell
      | true =>
        obtain rfl := hfill rfl
        refine (ih _ h2 hu1).mono ?_
        rintro ⟨ok, sz⟩ m3 h3
        cases ok with
        | false => exact h3
        | true =>
          refine ⟨h3.1, h3.2.1, h3.2.2.1, fun q hq => ?_⟩
          rcases List.mem_cons.mp hq with rfl | hq
          · exact hvalid
          · exact h3.2.2.2 q hq

end

/-! ## Giving a page table up -/

section

variable {own : ℕ → Bool} {W : Set ℕ} {hand : Multiset ℕ} {tf r sz : ℕ} {m0 m : Mem}

/-- `proc_freepagetable` of a page table with no more than the pages below the size. -/
theorem procFreepagetable_spec (hsz : npages sz ≤ userVpn) (hwf : (m.table r).Wf)
    (hhigh : ∀ v, npages sz ≤ v → (m.table r).leaf v = baseLeaf tf v)
    (hp : m.account belowTrapframe r (hand + {r}) ≤ pool) :
    Ensures (procFreepagetable r sz) m fun _ m' =>
      Evolves belowTrapframe r W (hand + {r}) hand m m' ∧
        (m'.table r).pages belowTrapframe = 0 := by
  have htramp : trampoline = trampolineVpn * pgsize := by decide
  have htrap : trapframe = userVpn * pgsize := by decide
  have hle : userVpn ≤ trampolineVpn := by decide
  have hlt : trampolineVpn < vpns := by decide
  have hunmap : ∀ {t : Mem} {v : ℕ}, userVpn ≤ v → v < vpns → (t.table r).Wf →
      t.account belowTrapframe r (hand + {r}) ≤ pool →
      Ensures (uvmunmap r (v * pgsize) 1 false) t fun _ t' =>
        Unmapped belowTrapframe r W (hand + {r}) v 1 t t' := by
    intro t v hv hv' hwt hpt
    have hmax : v * pgsize + 1 * pgsize ≤ maxva := by
      rw [← vpns_mul, ← Nat.add_mul]
      exact Nat.mul_le_mul_right _ hv'
    refine (uvmunmap_spec belowTrapframe r W (hand + {r}) (Nat.mul_mod_left _ _) hmax hwt ?_
      hpt).mono fun _ t' hu => by simpa using hu
    intro w hw _
    rw [mul_pgsize_div] at hw
    simp only [belowTrapframe, decide_eq_false_iff_not]
    omega
  unfold procFreepagetable
  rw [htramp, htrap]
  refine (hunmap hle hlt hwf hp).bind fun _ m1 h1 => ?_
  refine (hunmap le_rfl (hle.trans_lt hlt) (h1.evolves.wf hwf) (h1.evolves.fits hp)).bind
    fun _ m2 h2 => ?_
  have hev := h1.evolves.trans h2.evolves
  refine (uvmfree_spec belowTrapframe r W hand (by omega) (hev.wf hwf) (fun v hv => ?_)
    (fun v hv => ?_) (hev.fits hp)).mono fun _ m3 h3 => ⟨hev.trans h3.1, h3.2⟩
  · simp only [belowTrapframe, decide_eq_true_eq]
    omega
  · rw [h2.leaf, h1.leaf]
    simp only [clear, hhigh v hv, baseLeaf]
    split_ifs <;> first | rfl | omega

theorem Shell.procFreepagetable (h : Shell tf r sz m0 m) (hp : m0.free ≤ pool) :
    Ensures (Vm.procFreepagetable r sz) m fun _ m' => Spends 0 m0 m' := by
  have hfits : m.account belowTrapframe r (0 + {r}) ≤ pool := by
    simpa using h.table.fits hp
  refine (procFreepagetable_spec (W := ∅) h.room h.table.wf h.high hfits).mono ?_
  rintro - m' ⟨he, hpages⟩
  have hs := h.table.spends.evolves h.table.root (by simpa using he)
  rwa [hpages, zero_add] at hs

end

end Xv6.Exec
