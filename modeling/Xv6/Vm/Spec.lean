import Xv6.Vm.Ledger

/-!
# What the functions of `vm.c` do

For every function: that it does not panic where its callers use it, where the pages
go, and what the entries of the page table are afterwards.
-/

namespace Xv6.Vm

open Eff Bag Function

/-- A tree with one entry changed. -/
def PageTable.setNext (t : PageTable) (l i : ℕ) (pa : Option ℕ) : PageTable :=
  { t with next := update t.next l (update (t.next l) i pa) }

def PageTable.setLeaf (t : PageTable) (v : ℕ) (pte : Option Pte) : PageTable :=
  { t with leaf := update t.leaf v pte }

section

variable (m : Mem) (r l i : ℕ) (pa : Option ℕ) (v : ℕ) (pte : Option Pte)

@[simp] theorem setNext_table_self :
    (m.setNext r l i pa).table r = (m.table r).setNext l i pa := by
  simp [Mem.setNext, Mem.setTable, PageTable.setNext]

@[simp] theorem setLeaf_table_self : (m.setLeaf r v pte).table r = (m.table r).setLeaf v pte := by
  simp [Mem.setLeaf, Mem.setTable, PageTable.setLeaf]

theorem setNext_table_ne {r' : ℕ} (h : r' ≠ r) : (m.setNext r l i pa).table r' = m.table r' := by
  simp [Mem.setNext, Mem.setTable, h]

theorem setLeaf_table_ne {r' : ℕ} (h : r' ≠ r) : (m.setLeaf r v pte).table r' = m.table r' := by
  simp [Mem.setLeaf, Mem.setTable, h]

@[simp] theorem setNext_free : (m.setNext r l i pa).free = m.free := rfl

@[simp] theorem setLeaf_free : (m.setLeaf r v pte).free = m.free := rfl

end

/-! ## Entries and the ledger -/

section

variable (t : PageTable)

@[simp] theorem next_setNext_self (l i : ℕ) (pa : Option ℕ) : (t.setNext l i pa).next l i = pa := by
  simp [PageTable.setNext]

theorem next_setNext_ne {l i l' i' : ℕ} (pa : Option ℕ) (hne : ¬ (l' = l ∧ i' = i)) :
    (t.setNext l i pa).next l' i' = t.next l' i' := by
  by_cases hl : l' = l
  · subst hl
    have hi : i' ≠ i := fun hi => hne ⟨rfl, hi⟩
    simp [PageTable.setNext, hi]
  · simp [PageTable.setNext, hl]

theorem next_setNext_mono {l i l' i' x : ℕ} (hn : t.next l' i' ≠ none) :
    (t.setNext l i (some x)).next l' i' ≠ none := by
  by_cases he : l' = l ∧ i' = i
  · obtain ⟨rfl, rfl⟩ := he
    simp
  · rwa [next_setNext_ne t _ he]

@[simp] theorem leaf_setLeaf_self (v : ℕ) (pte : Option Pte) : (t.setLeaf v pte).leaf v = pte := by
  simp [PageTable.setLeaf]

theorem leaf_setLeaf_ne {v v' : ℕ} (pte : Option Pte) (hne : v' ≠ v) :
    (t.setLeaf v pte).leaf v' = t.leaf v' := by
  simp [PageTable.setLeaf, hne]


/-- The number of entries that may be in use at a level. -/
def entries (l : ℕ) : ℕ := if l = 2 then 512 else 512 * 512

theorem tables_setNext {l i : ℕ} (hl : l = 1 ∨ l = 2) (hi : i < entries l) (pa : Option ℕ) :
    (t.setNext l i pa).tables + opt (t.next l i) = t.tables + opt pa := by
  rcases hl with rfl | rfl
  · have h := total_update (t.next 1) (fun _ => opt) (i := i) (n := 512 * 512) hi pa
    simp only [PageTable.tables, PageTable.setNext, ne_eq, OfNat.ofNat_ne_one, not_false_eq_true,
      update_of_ne, update_self]
    rw [add_assoc, h]
    ac_rfl
  · have h := total_update (t.next 2) (fun _ => opt) (i := i) (n := 512) hi pa
    simp only [PageTable.tables, PageTable.setNext, ne_eq, OfNat.one_ne_ofNat, not_false_eq_true,
      update_of_ne, update_self]
    rw [add_right_comm, h]
    ac_rfl

theorem pages_setLeaf (own : ℕ → Bool) {v : ℕ} (hv : v < vpns) (pte : Option Pte) :
    (t.setLeaf v pte).pages own + cost own v (t.leaf v) = t.pages own + cost own v pte := by
  have htables : (t.setLeaf v pte).tables = t.tables := rfl
  have howned : (t.setLeaf v pte).owned own + cost own v (t.leaf v) =
      t.owned own + cost own v pte := total_update t.leaf (fun w => cost own w) hv pte
  rw [PageTable.pages, PageTable.pages, htables, add_assoc, howned, add_assoc]

theorem pages_setNext (own : ℕ → Bool) {l i : ℕ} (hl : l = 1 ∨ l = 2) (hi : i < entries l)
    (pa : Option ℕ) :
    (t.setNext l i pa).pages own + opt (t.next l i) = t.pages own + opt pa := by
  have h := tables_setNext t hl hi pa
  have howned : (t.setNext l i pa).owned own = t.owned own := rfl
  unfold PageTable.pages
  rw [howned, add_right_comm, h]
  ac_rfl

end

variable {own : ℕ → Bool} {r : ℕ} {W : Set ℕ} {h : Multiset ℕ} {m : Mem}

/-! ## `kalloc.c` -/

/-- Pages were only taken from the free list, and only such pages were written. -/
structure Takes (m m' : Mem) : Prop where
  suffix : m'.freelist <:+ m.freelist
  data : ∀ x ∉ m.freelist, m'.data x = m.data x

section

variable {m m' m'' : Mem}

theorem Takes.refl (m : Mem) : Takes m m := ⟨List.suffix_refl _, fun _ _ => rfl⟩

theorem Takes.mem (h : Takes m m') {x : ℕ} (hx : x ∈ m'.freelist) : x ∈ m.freelist :=
  h.suffix.mem hx

theorem Takes.trans (h : Takes m m') (h' : Takes m' m'') : Takes m m'' :=
  ⟨h'.suffix.trans h.suffix, fun x hx => (h'.data x fun hm => hx (h.mem hm)).trans (h.data x hx)⟩

theorem Takes.length (h : Takes m m') : m'.freelist.length ≤ m.freelist.length := h.suffix.length_le

theorem Takes.write (h : Takes m m') {x : ℕ} (hx : x ∈ m.freelist)
    (hfree : m''.freelist = m'.freelist) (hdata : ∀ y ≠ x, m''.data y = m'.data y) :
    Takes m m'' := by
  refine ⟨hfree ▸ h.suffix, fun y hy => ?_⟩
  rw [hdata y (by rintro rfl; exact hy hx), h.data y hy]

end

variable (own r W h) in
theorem memset_spec {x : ℕ} (c : ℕ) (hx : x ∈ m.account own r h ∨ x ∈ W) :
    Ensures (memset x c) m fun _ m' =>
      Evolves own r W h h m m' ∧ m'.table = m.table ∧ m'.freelist = m.freelist ∧
        m'.data = update m.data x fun _ => c := by
  refine ensures_modify ⟨⟨fun _ _ => rfl, rfl, fun y hy hW => ?_, fun _ => rfl, id⟩, rfl, rfl, rfl⟩
  have hne : y ≠ x := by
    rintro rfl
    exact hx.elim hy hW
  exact update_of_ne hne _ _

variable (own r W h) in
theorem memmove_spec {x src : ℕ} (hx : x ∈ m.account own r h ∨ x ∈ W) :
    Ensures (memmove x src) m fun _ m' =>
      Evolves own r W h h m m' ∧ m'.table = m.table ∧ m'.freelist = m.freelist ∧
        m'.data = update m.data x (m.data src) := by
  refine ensures_modify ⟨⟨fun _ _ => rfl, rfl, fun y hy hW => ?_, fun _ => rfl, id⟩, rfl, rfl, rfl⟩
  have hne : y ≠ x := by
    rintro rfl
    exact hx.elim hy hW
  exact update_of_ne hne _ _

/-- The memory after `kfree`. -/
def Mem.freed (m : Mem) (x : ℕ) : Mem :=
  { m with
    data := update m.data x fun _ => 1
    freelist := x :: m.freelist
    twice := m.twice || x ∈ m.freelist }

theorem kfree_eq {x : ℕ} (hx : Page x) : kfree x m = .ok ((), m.freed x) := by
  have hok : ¬ (x % pgsize ≠ 0 ∨ x < kernelEnd ∨ phystop ≤ x) := by
    obtain ⟨h1, h2, h3⟩ := hx
    omega
  rw [kfree, if_neg hok]
  rfl

theorem evolves_freed (x : ℕ) : Evolves own r W (h + {x}) h m (m.freed x) where
  frame _ _ := rfl
  ledger := by
    simp only [Mem.freed, Mem.account, Mem.free, ← Multiset.cons_coe, ← Multiset.singleton_add]
    ac_rfl
  data y hy _ := by
    refine update_of_ne ?_ _ _
    rintro rfl
    exact hy (by simp [Mem.account])
  twice hn := by
    have hnot : x ∉ m.freelist := by
      intro hm
      rw [Mem.account, ← add_assoc, Multiset.nodup_add] at hn
      exact Multiset.disjoint_left.mp hn.2.2 (by simp [Mem.free, hm]) (Multiset.mem_singleton_self x)
    simp [Mem.freed, hnot]
  wf := id

variable (own r W h) in
theorem kfree_spec {x : ℕ} (hx : Page x) :
    Ensures (kfree x) m fun _ m' => Evolves own r W (h + {x}) h m m' ∧ m'.table = m.table ∧
      m'.freelist = x :: m.freelist :=
  ⟨(), _, kfree_eq hx, evolves_freed x, rfl, rfl⟩

theorem kalloc_nil (hm : m.freelist = []) : kalloc m = .ok (none, m) := by
  unfold kalloc
  simp only [bind, StateT.bind, get, getThe, MonadStateOf.get, StateT.get, pure, Except.pure,
    Except.bind, hm]
  rfl

theorem kalloc_cons {x : ℕ} {rest : List ℕ} (hm : m.freelist = x :: rest) : kalloc m =
    .ok (some x, { m with freelist := rest, data := update m.data x fun _ => 5 }) := by
  unfold kalloc
  simp only [bind, StateT.bind, get, getThe, MonadStateOf.get, StateT.get, pure, Except.pure,
    Except.bind, hm]
  rfl

variable (own r W h) in
theorem kalloc_spec :
    Ensures kalloc m fun res m' => Evolves own r W h (h + opt res) m m' ∧ m'.table = m.table ∧
      m.freelist = res.toList ++ m'.freelist ∧ (res = none → m.freelist = []) ∧ Takes m m' := by
  rcases hm : m.freelist with _ | ⟨x, rest⟩
  · exact ⟨none, m, kalloc_nil hm, by simpa using Evolves.refl own r W h m, rfl, by simp [hm],
      fun _ => rfl, .refl m⟩
  · refine ⟨some x, _, kalloc_cons hm, ⟨fun _ _ => rfl, ?_, fun y hy _ => ?_, fun _ => rfl, id⟩,
      rfl, rfl, by simp, ⟨[x], hm.symm⟩, fun y hy => update_of_ne ?_ _ _⟩
    · simp only [Mem.account, Mem.free, hm, ← Multiset.cons_coe, ← Multiset.singleton_add, opt_some]
      ac_rfl
    · refine update_of_ne ?_ _ _
      rintro rfl
      exact hy (by simp [Mem.account, Mem.free, hm])
    · rintro rfl
      exact hy (by simp [hm])

/-! ## Entries -/

theorem evolves_setNext {l i x : ℕ} (hl : l = 1 ∨ l = 2) (hi : i < entries l)
    (hnone : (m.table r).next l i = none) (h2 : l = 2 → i < 256)
    (h1 : l = 1 → (m.table r).next 2 (i / 512) ≠ none) :
    Evolves own r W (h + {x}) h m (m.setNext r l i (some x)) where
  frame r' hr := setNext_table_ne m r l i _ hr
  ledger := by
    have hp := pages_setNext (m.table r) own hl hi (some x)
    rw [hnone, opt_none, add_zero, opt_some] at hp
    simp only [Mem.account, setNext_free, setNext_table_self, hp]
    ac_rfl
  data _ _ _ := rfl
  twice _ := rfl
  wf hw := by
    have hback : ∀ l' i', ((m.table r).setNext l i (some x)).next l' i' ≠ none →
        (m.table r).next l' i' ≠ none ∨ l' = l ∧ i' = i := by
      intro l' i' hn
      by_cases he : l' = l ∧ i' = i
      · exact .inr he
      · exact .inl (next_setNext_ne _ _ he ▸ hn)
    rw [setNext_table_self]
    constructor
    · exact fun v hv => next_setNext_mono _ (hw.leaf v hv)
    · intro j hj
      rcases hback 1 j hj with hj | ⟨rfl, rfl⟩
      · exact next_setNext_mono _ (hw.next j hj)
      · exact next_setNext_mono _ (h1 rfl)
    · intro j hj
      rcases hback 2 j hj with hj | ⟨rfl, rfl⟩
      · exact hw.bound j hj
      · exact h2 rfl

theorem evolves_setLeaf {v : ℕ} (hv : v < vpns) {pte : Option Pte} {h' : Multiset ℕ}
    (hh : h' + cost own v pte = h + cost own v ((m.table r).leaf v))
    (hnext : pte ≠ none → (m.table r).next 1 (v / 512) ≠ none) :
    Evolves own r W h h' m (m.setLeaf r v pte) where
  frame r' hr := setLeaf_table_ne m r v _ hr
  ledger := by
    have hp := pages_setLeaf (m.table r) own hv pte
    simp only [Mem.account, setLeaf_free, setLeaf_table_self]
    apply add_right_cancel (b := cost own v ((m.table r).leaf v))
    calc m.free + ((m.table r).setLeaf v pte).pages own + h' + cost own v ((m.table r).leaf v)
        = m.free + (((m.table r).setLeaf v pte).pages own + cost own v ((m.table r).leaf v)) +
          h' := by ac_rfl
      _ = m.free + (m.table r).pages own + (h' + cost own v pte) := by rw [hp]; ac_rfl
      _ = _ := by rw [hh]; ac_rfl
  data _ _ _ := rfl
  twice _ := rfl
  wf hw := by
    rw [setLeaf_table_self]
    refine ⟨fun v' hv' => ?_, hw.next, hw.bound⟩
    by_cases he : v' = v
    · subst he
      exact hnext (by simpa [PageTable.setLeaf] using hv')
    · exact hw.leaf v' (by simpa [PageTable.setLeaf, he] using hv')

/-! ## `walk` -/

/-- What `walk` with allocation has done for an address. -/
structure Walked (own : ℕ → Bool) (r : ℕ) (W : Set ℕ) (h : Multiset ℕ) (va : ℕ) (b : Bool)
    (m m' : Mem) : Prop where
  evolves : Evolves own r W h h m m'
  takes : Takes m m'
  leaf : (m'.table r).leaf = (m.table r).leaf
  mono : ∀ l i, (m.table r).next l i ≠ none → (m'.table r).next l i ≠ none
  found : b = true → (m'.table r).next 1 (va / 2 ^ 21) ≠ none
  keep : (m.table r).Wf → (m.table r).next 1 (va / 2 ^ 21) ≠ none → b = true ∧ m' = m

theorem walkFrom_spec {va : ℕ} (level : ℕ) (hlevel : level ≤ 2) (hva : va < maxva)
    (hwf : (m.table r).Wf)
    (hup : level = 1 → (m.table r).next 2 (va / 2 ^ 30) ≠ none)
    (h0 : level = 0 → (m.table r).next 1 (va / 2 ^ 21) ≠ none) :
    Ensures (walkFrom r va true level) m fun b m' => Walked own r W h va b m m' := by
  induction level generalizing m with
  | zero =>
    exact ensures_pure ⟨.refl _ _ _ _ _, .refl m, rfl, fun _ _ => id, fun _ => h0 rfl,
      fun _ _ => ⟨rfl, rfl⟩⟩
  | succ level ih =>
    have hdiv : va / 2 ^ 21 / 512 = va / 2 ^ 30 := Nat.div_div_eq_div_mul va (2 ^ 21) 512
    have hlv : level = 0 ∨ level = 1 := by omega
    have hidx : va / 2 ^ (12 + 9 * (level + 1)) < entries (level + 1) := by
      rcases hlv with rfl | rfl <;> simp only [entries, maxva] at hva ⊢ <;> norm_num <;> omega
    rw [walkFrom]
    refine ensures_get_bind ?_
    cases hn : (m.table r).next (level + 1) (va / 2 ^ (12 + 9 * (level + 1))) with
    | some x =>
      refine ih (by omega) hwf (fun hl => ?_) fun hl => ?_ <;> subst hl <;>
        exact Option.ne_none_iff_exists'.mpr ⟨x, hn⟩
    | none =>
      have hfalse : (m.table r).Wf → (m.table r).next 1 (va / 2 ^ 21) ≠ none → False := by
        intro hwf h1
        rcases hlv with rfl | rfl
        · exact h1 hn
        · exact hwf.next _ h1 (hdiv ▸ hn)
      refine (kalloc_spec own r W h).bind ?_
      rintro (_ | x) m1 ⟨he, ht, hfree, -, htakes⟩
      · exact ensures_pure ⟨by simpa using he, htakes, by rw [ht],
          fun l i => by rw [ht]; exact id, by simp, fun hwf h1 => (hfalse hwf h1).elim⟩
      · refine (memset_spec own r W (h + {x}) 0 ?_).bind ?_
        · exact .inl (by simp [Mem.account])
        rintro - m2 ⟨he2, ht2, hfree2, hdata2⟩
        refine ensures_modify_bind ?_
        have htakes2 : Takes m m2 := htakes.write (x := x) (by simp [hfree]) hfree2 fun y hy => by
          rw [hdata2, update_of_ne hy]
        have htab : m2.table = m.table := ht2.trans ht
        have hup2 : level + 1 = 2 → va / 2 ^ (12 + 9 * (level + 1)) < 256 := by
          intro hl
          rw [hl]
          simp only [maxva] at hva
          norm_num
          omega
        have hup1 : level + 1 = 1 →
            (m2.table r).next 2 (va / 2 ^ (12 + 9 * (level + 1)) / 512) ≠ none := by
          intro hl
          rw [htab, hl]
          exact hdiv ▸ hup hl
        have hev : Evolves own r W h h m (m2.setNext r _ _ (some x)) :=
          (he.trans he2).trans (evolves_setNext (by omega) hidx (htab ▸ hn) hup2 hup1)
        have hnew : ((m2.setNext r (level + 1) (va / 2 ^ (12 + 9 * (level + 1)))
            (some x)).table r).next (level + 1) (va / 2 ^ (12 + 9 * (level + 1))) ≠ none := by simp
        refine (ih (by omega) (hev.wf hwf) (fun hl => ?_) fun hl => ?_).mono fun b m' hw =>
          ⟨hev.trans hw.evolves, htakes2.trans ⟨hw.takes.suffix, hw.takes.data⟩, ?_,
            fun l i hi => hw.mono l i ?_, hw.found, fun hwf h1 => (hfalse hwf h1).elim⟩
        · subst hl; exact hnew
        · subst hl; exact hnew
        · rw [hw.leaf, setNext_table_self, htab]
          rfl
        · rw [setNext_table_self, htab]
          exact next_setNext_mono _ hi

variable (own r W h) in
theorem walk_spec {va : ℕ} (hva : va < maxva) (hwf : (m.table r).Wf) :
    Ensures (walk r va true) m fun b m' => Walked own r W h va b m m' := by
  rw [walk, if_neg (by omega)]
  exact walkFrom_spec 2 le_rfl hva hwf (by simp) (by simp)

theorem walkFrom_none {va l : ℕ} (hn : (m.table r).next (l + 1) (va / 2 ^ (12 + 9 * (l + 1))) = none) :
    walkFrom r va false (l + 1) m = .ok (false, m) := by
  rw [walkFrom]
  simp only [bind, StateT.bind, get, getThe, MonadStateOf.get, StateT.get, pure, Except.pure,
    Except.bind, hn]
  rfl

theorem walkFrom_some {va l x : ℕ}
    (hn : (m.table r).next (l + 1) (va / 2 ^ (12 + 9 * (l + 1))) = some x) :
    walkFrom r va false (l + 1) m = walkFrom r va false l m := by
  rw [walkFrom]
  simp only [bind, StateT.bind, get, getThe, MonadStateOf.get, StateT.get, pure, Except.pure,
    Except.bind, hn]

theorem walk_false {va : ℕ} (hva : va < maxva) (hwf : (m.table r).Wf) :
    walk r va false m = .ok (((m.table r).next 1 (va / 2 ^ 21)).isSome, m) := by
  have hdiv : va / 2 ^ 21 / 512 = va / 2 ^ 30 := Nat.div_div_eq_div_mul va (2 ^ 21) 512
  rw [walk, if_neg (by omega)]
  cases h1 : (m.table r).next 1 (va / 2 ^ 21) with
  | none =>
    cases h2 : (m.table r).next 2 (va / 2 ^ 30) with
    | none => exact walkFrom_none h2
    | some x => exact (walkFrom_some h2).trans (walkFrom_none h1)
  | some y =>
    have hne : (m.table r).next 1 (va / 2 ^ 21) ≠ none := Option.ne_none_iff_exists'.mpr ⟨y, h1⟩
    obtain ⟨x, h2⟩ := Option.ne_none_iff_exists'.mp (hwf.next _ hne)
    exact (walkFrom_some (hdiv ▸ h2)).trans (walkFrom_some h1)

theorem pteOf_eq {va : ℕ} (hva : va < maxva) (hwf : (m.table r).Wf) :
    pteOf r va m = .ok ((m.table r).leaf (va / pgsize), m) := by
  have hdiv : va / pgsize / 512 = va / 2 ^ 21 := Nat.div_div_eq_div_mul va pgsize 512
  unfold pteOf
  simp only [bind, StateT.bind, walk_false hva hwf, Except.bind]
  cases h1 : (m.table r).next 1 (va / 2 ^ 21) with
  | none =>
    have hleaf : (m.table r).leaf (va / pgsize) = none := by
      by_contra hleaf
      exact hwf.leaf _ hleaf (hdiv ▸ h1)
    rw [hleaf]
    rfl
  | some y => rfl

theorem ensures_pteOf_bind {va : ℕ} {β : Type} {g : Option Pte → M β} {Q : β → Mem → Prop}
    (hva : va < maxva) (hwf : (m.table r).Wf)
    (hg : Ensures (g ((m.table r).leaf (va / pgsize))) m Q) : Ensures (pteOf r va >>= g) m Q :=
  ensures_eq_bind (pteOf_eq hva hwf) hg

/-! ## `mappages` -/

theorem vpn_lt {va : ℕ} (hva : va < maxva) : va / pgsize < vpns := by
  simp only [vpns, maxva, pgsize] at *
  omega

/-- What `mappages` of one page has done. -/
structure Mapped (own : ℕ → Bool) (r : ℕ) (W : Set ℕ) (h : Multiset ℕ) (va : ℕ) (pte : Pte) (b : Bool)
    (m m' : Mem) : Prop where
  evolves : Evolves own r W (h + cost own (va / pgsize) (some pte))
    (h + cost own (va / pgsize) (if b then none else some pte)) m m'
  takes : Takes m m'
  leaf : (m'.table r).leaf = if b then update (m.table r).leaf (va / pgsize) (some pte)
    else (m.table r).leaf
  mono : ∀ l i, (m.table r).next l i ≠ none → (m'.table r).next l i ≠ none
  keep : (m.table r).next 1 (va / 2 ^ 21) ≠ none → b = true

variable (own r W h) in
theorem mappages_spec {va : ℕ} (pa : ℕ) (perm : Perm) (hva : va < maxva) (hal : va % pgsize = 0)
    (hwf : (m.table r).Wf) (hnone : (m.table r).leaf (va / pgsize) = none) :
    Ensures (mappages r va pgsize pa perm) m fun b m' => Mapped own r W h va ⟨pa, perm⟩ b m m' := by
  have hdiv : va / pgsize / 512 = va / 2 ^ 21 := Nat.div_div_eq_div_mul va pgsize 512
  rw [mappages, if_neg (by omega), if_neg (by simp), if_neg (by simp [pgsize]), Nat.div_self (by simp [pgsize]),
    mapLoop]
  refine (walk_spec own r W (h + cost own (va / pgsize) (some ⟨pa, perm⟩)) hva hwf).bind ?_
  rintro (_ | _) m1 hw
  · exact ensures_pure ⟨by simpa using hw.evolves, hw.takes, by simp [hw.leaf], hw.mono, fun h1 => by
      simpa using (hw.keep hwf h1).1⟩
  · refine ensures_get_bind ?_
    rw [hw.leaf, hnone]
    refine ensures_modify_bind (ensures_pure ⟨hw.evolves.trans
      (evolves_setLeaf (vpn_lt hva) ?_ ?_), ⟨hw.takes.suffix, hw.takes.data⟩, ?_, ?_, ?_⟩)
    · simp [hw.leaf, hnone]
    · exact fun _ => hdiv ▸ hw.found rfl
    · rw [setLeaf_table_self, PageTable.setLeaf, hw.leaf]
      rfl
    · intro l i hi
      rw [setLeaf_table_self]
      exact hw.mono l i hi
    · exact fun _ => rfl

/-! ## Unmapping -/

/-- The leaf entries without those of `n` pages from `lo` on. -/
def clear (lo n : ℕ) (leaf : ℕ → Option Pte) (v : ℕ) : Option Pte :=
  if lo ≤ v ∧ v < lo + n then none else leaf v

@[simp] theorem clear_zero (lo : ℕ) (leaf : ℕ → Option Pte) : clear lo 0 leaf = leaf := by
  funext v
  rw [clear, if_neg (by omega)]

theorem clear_succ (lo n : ℕ) (leaf : ℕ → Option Pte) :
    clear lo (n + 1) leaf = update (clear lo n leaf) (lo + n) none := by
  funext v
  by_cases hv : v = lo + n
  · subst hv
    simp [clear]
  · rw [update_of_ne hv]
    exact if_congr (by omega) rfl rfl

/-- What `uvmunmap` has done on `n` virtual pages from `lo` on. -/
structure Unmapped (own : ℕ → Bool) (r : ℕ) (W : Set ℕ) (h : Multiset ℕ) (lo n : ℕ) (m m' : Mem) :
    Prop where
  evolves : Evolves own r W h h m m'
  leaf : (m'.table r).leaf = clear lo n (m.table r).leaf
  next : (m'.table r).next = (m.table r).next

theorem unmapPage_spec {a : ℕ} {doFree : Bool} (ha : a < maxva) (hwf : (m.table r).Wf)
    (hd : own (a / pgsize) = doFree) (hp : m.account own r h ≤ pool) :
    Ensures (unmapPage r doFree a) m fun _ m' => Evolves own r W h h m m' ∧
      m'.table r = (m.table r).setLeaf (a / pgsize) none := by
  refine ensures_pteOf_bind ha hwf ?_
  cases hl : (m.table r).leaf (a / pgsize) with
  | none =>
    refine ensures_pure ⟨.refl _ _ _ _ _, ?_⟩
    rw [PageTable.setLeaf, ← hl, update_eq_self]
  | some pte =>
    cases doFree with
    | false => exact ensures_modify ⟨evolves_setLeaf (vpn_lt ha) (by simp [cost, hd]) (by simp),
        by simp⟩
    | true =>
      have hmem := leaf_mem_account (h := h) (vpn_lt ha) hd hl
      have hpage := page_of_mem (Multiset.subset_of_le hp hmem)
      -- clearing the entry first gives the same memory
      have hclear : Evolves own r W h (h + {pte.pa}) m (m.setLeaf r (a / pgsize) none) :=
        evolves_setLeaf (vpn_lt ha) (by simp [cost, hd, hl]) (by simp)
      refine ⟨(), (m.setLeaf r (a / pgsize) none).freed pte.pa, ?_,
        hclear.trans (evolves_freed pte.pa), setLeaf_table_self _ _ _ _⟩
      simp only [if_true, bind, StateT.bind, kfree_eq hpage]
      rfl

variable (own r W h) in
theorem uvmunmap_spec {va n : ℕ} {doFree : Bool} (hal : va % pgsize = 0)
    (hva : va + n * pgsize ≤ maxva) (hwf : (m.table r).Wf)
    (hd : ∀ v, va / pgsize ≤ v → v < va / pgsize + n → own v = doFree)
    (hp : m.account own r h ≤ pool) :
    Ensures (uvmunmap r va n doFree) m fun _ m' => Unmapped own r W h (va / pgsize) n m m' := by
  rw [uvmunmap, if_neg (by omega)]
  refine ensures_forUpto (I := fun i t => Unmapped own r W h (va / pgsize) i m t)
    ⟨.refl _ _ _ _ _, by simp, rfl⟩ fun i hi t ht => ?_
  have hidx : (va + i * pgsize) / pgsize = va / pgsize + i :=
    Nat.add_mul_div_right _ _ (by simp [pgsize])
  have hlt : va + i * pgsize < maxva := by simp only [pgsize] at *; omega
  refine (unmapPage_spec (W := W) hlt (ht.evolves.wf hwf) (hidx ▸ hd _ (by omega) (by omega))
    (ht.evolves.fits hp)).mono ?_
  rintro - t' ⟨he, htab⟩
  refine ⟨ht.evolves.trans he, ?_, ?_⟩
  · rw [htab, hidx, clear_succ, ← ht.leaf]
    rfl
  · rw [htab, ← ht.next]
    rfl

/-! ## Growing and shrinking -/

/-- The number of pages that a size takes. -/
def npages (sz : ℕ) : ℕ := (sz + pgsize - 1) / pgsize

theorem pgroundup_eq (sz : ℕ) : pgroundup sz = npages sz * pgsize := rfl

@[simp] theorem mul_pgsize_div (k : ℕ) : k * pgsize / pgsize = k :=
  Nat.mul_div_cancel _ (by simp [pgsize])

@[simp] theorem npages_mul (k : ℕ) : npages (k * pgsize) = k := by
  simp only [npages, pgsize]
  omega

theorem vpns_mul : vpns * pgsize = maxva := by decide

variable (own r W h) in
theorem uvmdealloc_spec {oldsz newsz : ℕ} (hold : npages oldsz ≤ vpns) (hwf : (m.table r).Wf)
    (hown : ∀ v, npages newsz ≤ v → v < npages oldsz → own v = true)
    (hp : m.account own r h ≤ pool) :
    Ensures (uvmdealloc r oldsz newsz) m fun res m' => res = min oldsz newsz ∧
      Unmapped own r W h (npages newsz) (npages oldsz - npages newsz) m m' := by
  have hmono : oldsz ≤ newsz → npages oldsz ≤ npages newsz := fun hle =>
    Nat.div_le_div_right (by omega)
  have hpos : 0 < pgsize := by simp [pgsize]
  rw [uvmdealloc]
  split_ifs with hle hlt
  · refine ensures_pure ⟨by omega, .refl _ _ _ _ _, ?_, rfl⟩
    rw [Nat.sub_eq_zero_of_le (hmono hle), clear_zero]
  · have hlt' : npages newsz < npages oldsz := lt_of_mul_lt_mul_right hlt (Nat.zero_le _)
    have hcount : (pgroundup oldsz - pgroundup newsz) / pgsize = npages oldsz - npages newsz := by
      rw [pgroundup_eq, pgroundup_eq, ← Nat.sub_mul, mul_pgsize_div]
    rw [hcount, pgroundup_eq]
    refine (uvmunmap_spec own r W h (Nat.mul_mod_left _ _) ?_ hwf ?_ hp).bind fun _ m' hu =>
      ensures_pure ⟨by omega, by simpa using hu⟩
    · rw [← Nat.add_mul, ← vpns_mul]
      exact Nat.mul_le_mul_right _ (by omega)
    · intro v hv hv'
      rw [mul_pgsize_div] at hv hv'
      exact hown v hv (by omega)
  · have hge : npages oldsz ≤ npages newsz := Nat.le_of_mul_le_mul_right (not_lt.mp hlt) hpos
    refine ensures_pure ⟨by omega, .refl _ _ _ _ _, ?_, rfl⟩
    rw [Nat.sub_eq_zero_of_le hge, clear_zero]

/-- What `uvmalloc` has done when it mapped `n` pages from `k` on. -/
structure Grown (own : ℕ → Bool) (r : ℕ) (W : Set ℕ) (h : Multiset ℕ) (perm : Perm) (k n : ℕ)
    (m m' : Mem) : Prop where
  evolves : Evolves own r W h h m m'
  other : ∀ v, ¬ (k ≤ v ∧ v < k + n) → (m'.table r).leaf v = (m.table r).leaf v
  mapped : ∀ v, k ≤ v → v < k + n → ∃ pa ∈ m.freelist, (m'.table r).leaf v = some ⟨pa, perm⟩ ∧
    m'.data pa = fun _ => 0
  free : n + m'.freelist.length ≤ m.freelist.length
  takes : Takes m m'

theorem mem_account_hand {x : ℕ} (hx : x ∈ h) : x ∈ m.account own r h :=
  Multiset.mem_add.mpr (.inr hx)

theorem account_nodup (hp : m.account own r h ≤ pool) : m.freelist.Nodup := by
  have hle : m.free ≤ m.account own r h := by
    rw [Mem.account, add_assoc]
    exact Multiset.le_add_right _ _
  exact Multiset.coe_nodup.mp (Multiset.nodup_of_le (hle.trans hp) pool_nodup)

/-- No more pages are mapped than are free, so the range that matters ends there. -/
theorem uvmallocLoop_spec {lo newsz : ℕ} {xperm : Perm} (n k : ℕ) (hlo : lo ≤ k)
    (hbound : k + min n m.freelist.length ≤ vpns) (hwf : (m.table r).Wf)
    (hown : ∀ v, lo ≤ v → v < k + min n m.freelist.length → own v = true)
    (hnone : ∀ v, k ≤ v → v < k + min n m.freelist.length → (m.table r).leaf v = none)
    (hp : m.account own r h ≤ pool) :
    Ensures (uvmallocLoop r (lo * pgsize) newsz xperm n (k * pgsize)) m fun res m' =>
      res = newsz ∧ Grown own r W h (pteR ||| pteU ||| xperm) k n m m' ∨
      res = 0 ∧ Evolves own r W h h m m' ∧
        (m'.table r).leaf = clear lo (k + min n m.freelist.length - lo) (m.table r).leaf := by
  induction n generalizing k m with
  | zero =>
    refine ensures_pure (.inl ⟨rfl, .refl _ _ _ _ _, fun _ _ => rfl, ?_, by omega, .refl m⟩)
    intro v hv hv'
    omega
  | succ n ih =>
    -- giving back what was mapped so far also clears the rest of the range, which was empty
    have hundo : ∀ {t}, (t.table r).leaf = (m.table r).leaf → Evolves own r W h h m t →
        Ensures (uvmdealloc r (k * pgsize) (lo * pgsize) >>= fun _ => pure 0) t fun res m' =>
          res = newsz ∧ Grown own r W h (pteR ||| pteU ||| xperm) k (n + 1) m m' ∨
          res = 0 ∧ Evolves own r W h h m m' ∧ (m'.table r).leaf =
            clear lo (k + min (n + 1) m.freelist.length - lo) (m.table r).leaf := by
      intro t hleaf ht
      refine (uvmdealloc_spec own r W h (by simp; omega) (ht.wf hwf) (fun v hv hv' => ?_)
        (ht.fits hp)).bind ?_
      · rw [npages_mul] at hv hv'
        exact hown v hv (by omega)
      · rintro - m' ⟨-, hu⟩
        refine ensures_pure (.inr ⟨rfl, ht.trans hu.evolves, ?_⟩)
        rw [hu.leaf, hleaf, npages_mul, npages_mul]
        funext v
        by_cases hv : k ≤ v ∧ v < k + min (n + 1) m.freelist.length
        · simp [clear, hnone v hv.1 hv.2]
        · exact if_congr (by omega) rfl rfl
    rw [uvmallocLoop]
    refine (kalloc_spec own r W h).bind ?_
    rintro (_ | mem) m1 ⟨he, ht, hfree, -, htakes⟩
    · exact hundo (by rw [ht]) (by simpa using he)
    · have hlen : m.freelist.length = m1.freelist.length + 1 := by simp [hfree]
      have hk : k < vpns := by omega
      have hmem : mem ∈ m.freelist := by simp [hfree]
      refine (memset_spec own r W (h + {mem}) 0 (.inl (mem_account_hand (by simp)))).bind ?_
      rintro - m2 ⟨he2, ht2, hfree2, hdata2⟩
      have htab : m2.table = m.table := ht2.trans ht
      have hem : Evolves own r W h (h + {mem}) m m2 := he.trans he2
      have htakes2 : Takes m m2 := htakes.write hmem hfree2 fun y hy => by
        rw [hdata2, update_of_ne hy]
      refine (mappages_spec own r W h mem _ ?_ (Nat.mul_mod_left _ _) (htab ▸ hwf) ?_).bind ?_
      · rw [← vpns_mul]
        exact Nat.mul_lt_mul_of_pos_right hk (by simp [pgsize])
      · rw [htab, mul_pgsize_div]
        exact hnone k le_rfl (by omega)
      have hcost : ∀ pte, cost own k pte = opt (pte.map Pte.pa) := by
        intro pte
        simp [cost, hown k hlo (by omega)]
      rintro (_ | _) m3 hm
      · have hev : Evolves own r W (h + {mem}) (h + {mem}) m2 m3 := by
          simpa [hcost] using hm.evolves
        have hpage : Page mem := page_of_mem
          (Multiset.subset_of_le ((hem.trans hev).fits hp) (mem_account_hand (by simp)))
        refine (kfree_spec own r W h hpage).bind ?_
        rintro - m4 ⟨he4, ht4, -⟩
        refine hundo ?_ ((hem.trans hev).trans he4)
        rw [ht4, hm.leaf, htab]
        rfl
      · have hev : Evolves own r W h h m m3 := hem.trans (by simpa [hcost] using hm.evolves)
        have hleaf : (m3.table r).leaf =
            update (m.table r).leaf k (some ⟨mem, pteR ||| pteU ||| xperm⟩) := by
          simpa [htab] using hm.leaf
        have hlen3 := hm.takes.length
        rw [hfree2] at hlen3
        -- the new page is zero and off the free list
        have hoff : mem ∉ m2.freelist := by
          have hnodup := account_nodup hp
          rw [hfree] at hnodup
          rw [hfree2]
          exact (List.nodup_cons.mp hnodup).1
        have hzero : m3.data mem = fun _ => 0 := by
          rw [hm.takes.data mem hoff, hdata2, update_self]
        have htakes3 : Takes m m3 := htakes2.trans hm.takes
        have hnext : k * pgsize + pgsize = (k + 1) * pgsize := by ring
        simp only [if_true, hnext]
        refine (ih (k + 1) (by omega) (by omega) (hev.wf hwf) ?_ ?_ (hev.fits hp)).mono ?_
        · exact fun v hv hv' => hown v hv (by omega)
        · intro v hv hv'
          rw [hleaf, update_of_ne (by omega)]
          exact hnone v (by omega) (by omega)
        rintro res m' (⟨rfl, hg⟩ | ⟨rfl, he', hl'⟩)
        · refine .inl ⟨rfl, hev.trans hg.evolves, fun v hv => ?_, fun v hv hv' => ?_, ?_,
            htakes3.trans hg.takes⟩
          · rw [hg.other v (by omega), hleaf, update_of_ne (by omega)]
          · by_cases hvk : v = k
            · refine ⟨mem, hmem, ?_, ?_⟩
              · rw [hg.other v (by omega), hleaf, hvk, update_self]
              · rw [hg.takes.data mem fun hx => hoff (hm.takes.mem hx), hzero]
            · obtain ⟨pa, hpa, hl, hd⟩ := hg.mapped v (by omega) (by omega)
              exact ⟨pa, htakes3.mem hpa, hl, hd⟩
          · have := hg.free
            omega
        · refine .inr ⟨rfl, hev.trans he', ?_⟩
          rw [hl', hleaf]
          funext v
          by_cases hvk : v = k
          · rw [clear, clear, if_pos (by omega), if_pos (by omega)]
          · simp only [clear, update_of_ne hvk]
            by_cases hv : k ≤ v ∧ v < k + min (n + 1) m.freelist.length
            · simp [hnone v hv.1 hv.2]
            · exact if_congr (by omega) rfl rfl

variable (own r W h) in
theorem uvmalloc_spec {oldsz newsz : ℕ} {xperm : Perm}
    (hbound : npages oldsz + min (npages newsz - npages oldsz) m.freelist.length ≤ vpns)
    (hwf : (m.table r).Wf)
    (hown : ∀ v, npages oldsz ≤ v → v < npages newsz → v < npages oldsz + m.freelist.length →
      own v = true)
    (hnone : ∀ v, npages oldsz ≤ v → v < npages newsz → v < npages oldsz + m.freelist.length →
      (m.table r).leaf v = none)
    (hp : m.account own r h ≤ pool) :
    Ensures (uvmalloc r oldsz newsz xperm) m fun res m' =>
      res = max oldsz newsz ∧ Grown own r W h (pteR ||| pteU ||| xperm) (npages oldsz)
        (npages newsz - npages oldsz) m m' ∨
      res = 0 ∧ Evolves own r W h h m m' ∧ (m'.table r).leaf = (m.table r).leaf := by
  have hmono : newsz ≤ oldsz → npages newsz ≤ npages oldsz := fun hle =>
    Nat.div_le_div_right (by omega)
  rw [uvmalloc]
  split_ifs with hlt
  · refine ensures_pure (.inl ⟨by omega, .refl _ _ _ _ _, fun _ _ => rfl, ?_, ?_, .refl m⟩)
    · intro v hv hv'
      have := hmono hlt.le
      omega
    · have := hmono hlt.le
      omega
  · have hcount : (pgroundup newsz - pgroundup oldsz) / pgsize = npages newsz - npages oldsz := by
      rw [pgroundup_eq, pgroundup_eq, ← Nat.sub_mul, mul_pgsize_div]
    rw [hcount, pgroundup_eq]
    refine (uvmallocLoop_spec (W := W) (h := h) _ _ le_rfl hbound hwf ?_ ?_ hp).mono ?_
    · exact fun v hv hv' => hown v hv (by omega) (by omega)
    · exact fun v hv hv' => hnone v hv (by omega) (by omega)
    rintro res m' (⟨rfl, hg⟩ | ⟨rfl, he, hl⟩)
    · exact .inl ⟨by omega, hg⟩
    · refine .inr ⟨rfl, he, ?_⟩
      rw [hl]
      funext v
      rw [clear, Nat.add_sub_cancel_left]
      split_ifs with hv
      · exact (hnone v hv.1 (by omega) (by omega)).symm
      · rfl

/-! ## `freewalk` -/

/-- The pages `ps` were freed while the entries of `r` were cleared. -/
structure Released (r : ℕ) (ps : Multiset ℕ) (m m' : Mem) : Prop where
  frame : ∀ r' ≠ r, m'.table r' = m.table r'
  leaf : (m'.table r).leaf = (m.table r).leaf
  free : m'.free = m.free + ps
  data : ∀ x ∉ ps, m'.data x = m.data x
  twice : (m.free + ps).Nodup → m'.twice = m.twice

theorem Released.refl (r : ℕ) (m : Mem) : Released r 0 m m :=
  ⟨fun _ _ => rfl, rfl, by simp, fun _ _ => rfl, fun _ => rfl⟩

theorem Released.trans {ps ps' : Multiset ℕ} {m m' m'' : Mem} (h1 : Released r ps m m')
    (h2 : Released r ps' m' m'') : Released r (ps + ps') m m'' where
  frame r' hr := (h2.frame r' hr).trans (h1.frame r' hr)
  leaf := h2.leaf.trans h1.leaf
  free := by rw [h2.free, h1.free, add_assoc]
  data x hx := by
    rw [Multiset.mem_add, not_or] at hx
    rw [h2.data x hx.2, h1.data x hx.1]
  twice hn := by
    rw [← add_assoc] at hn
    rw [h2.twice (h1.free ▸ hn), h1.twice (Multiset.nodup_of_le (Multiset.le_add_right _ _) hn)]

theorem released_freed (r x : ℕ) (m : Mem) : Released r {x} m (m.freed x) where
  frame _ _ := rfl
  leaf := rfl
  free := by
    simp only [Mem.freed, Mem.free, ← Multiset.cons_coe, ← Multiset.singleton_add]
    ac_rfl
  data y hy := update_of_ne (by simpa using hy) _ _
  twice hn := by
    have hnot : x ∉ m.freelist := by
      intro hm
      rw [Multiset.nodup_add] at hn
      exact Multiset.disjoint_left.mp hn.2.2 (by simp [Mem.free, hm]) (Multiset.mem_singleton_self x)
    simp [Mem.freed, hnot]

theorem released_setNext (r l i : ℕ) (m : Mem) : Released r 0 m (m.setNext r l i none) where
  frame _ hr := setNext_table_ne m r l i none hr
  leaf := by rw [setNext_table_self]; rfl
  free := by simp
  data _ _ := rfl
  twice _ := rfl

theorem freewalkFrom_zero {idx page : ℕ} (hleaf : ∀ v, (m.table r).leaf v = none)
    (hpage : Page page) :
    Ensures (freewalkFrom r 0 idx page) m fun _ m' => m' = m.freed page := by
  rw [freewalkFrom]
  refine (ensures_forUpto (I := fun _ t => t = m) rfl fun i _ t ht => ?_).bind fun _ t ht => ?_
  · subst ht
    refine ensures_get_bind ?_
    rw [hleaf]
    exact ensures_pure rfl
  · subst ht
    exact ⟨_, _, kfree_eq hpage, rfl⟩

/-- The pages of the tables below the one at level 1 that `idx` leads to. -/
def PageTable.row (t : PageTable) (idx : ℕ) : Multiset ℕ :=
  total 512 fun j => opt (t.next 1 (idx * 512 + j))

theorem freewalkFrom_one {idx page : ℕ} (hleaf : ∀ v, (m.table r).leaf v = none)
    (hpage : Page page) (hrow : ∀ x ∈ (m.table r).row idx, Page x) :
    Ensures (freewalkFrom r 1 idx page) m fun _ m' =>
      Released r ((m.table r).row idx + {page}) m m' ∧
      (m'.table r).next 2 = (m.table r).next 2 ∧
      ∀ j, (m'.table r).next 1 j = if j / 512 = idx then none else (m.table r).next 1 j := by
  rw [freewalkFrom]
  refine (ensures_forUpto
    (I := fun i t => Released r (total i fun j => opt ((m.table r).next 1 (idx * 512 + j))) m t ∧
      (t.table r).next 2 = (m.table r).next 2 ∧
      ∀ j, (t.table r).next 1 j =
        if idx * 512 ≤ j ∧ j < idx * 512 + i then none else (m.table r).next 1 j)
    ⟨by simpa using Released.refl r m, rfl, fun j => by rw [if_neg (by omega)]⟩ ?_).bind ?_
  · rintro i hi t ⟨hrel, h2, h1⟩
    refine ensures_get_bind ?_
    have hat : (t.table r).next 1 (idx * 512 + i) = (m.table r).next 1 (idx * 512 + i) := by
      rw [h1, if_neg (by omega)]
    rw [zero_add, hat, total_succ]
    cases hc : (m.table r).next 1 (idx * 512 + i) with
    | none =>
      refine ensures_pure ⟨by simpa using hrel, h2, fun j => ?_⟩
      rw [h1]
      by_cases hj : j = idx * 512 + i
      · simp [hj, hc]
      · exact if_congr (by omega) rfl rfl
    | some child =>
      have hchild : Page child := hrow child (mem_total.mpr ⟨i, hi, by simp [hc]⟩)
      refine (freewalkFrom_zero (fun v => by rw [hrel.leaf]; exact hleaf v) hchild).bind ?_
      rintro - t' rfl
      refine ensures_modify ⟨?_, ?_, fun j => ?_⟩
      · simpa using (hrel.trans (released_freed r child t)).trans
          (released_setNext r 1 (idx * 512 + i) _)
      · rw [setNext_table_self, ← h2]
        simp [PageTable.setNext, Mem.freed]
      · rw [setNext_table_self]
        by_cases hj : j = idx * 512 + i
        · simp [hj]
        · rw [next_setNext_ne _ _ (by simp [hj])]
          exact (h1 j).trans (if_congr (by omega) rfl rfl)
  · rintro - t ⟨hrel, h2, h1⟩
    refine ⟨_, _, kfree_eq hpage, hrel.trans (released_freed r page t), h2, fun j => ?_⟩
    exact (h1 j).trans (if_congr (by omega) rfl rfl)

theorem PageTable.tables_eq (t : PageTable) :
    t.tables = total 512 fun i => opt (t.next 2 i) + t.row i := by
  rw [tables, total_add, ← total_rows]
  rfl

theorem PageTable.Wf.row_eq {t : PageTable} (hwf : t.Wf) {i : ℕ} (hi : t.next 2 i = none) :
    t.row i = 0 := by
  refine total_zero fun j hj => ?_
  have h1 : t.next 1 (i * 512 + j) = none := by
    by_contra h1
    have h2 := hwf.next _ h1
    rw [show (i * 512 + j) / 512 = i by omega] at h2
    exact h2 hi
  simp [h1]

theorem freewalkFrom_two {page : ℕ} (hwf : (m.table r).Wf) (hleaf : ∀ v, (m.table r).leaf v = none)
    (hpage : Page page) (htables : ∀ x ∈ (m.table r).tables, Page x) :
    Ensures (freewalkFrom r 2 0 page) m fun _ m' =>
      Released r ((m.table r).tables + {page}) m m' ∧
      (∀ j, (m'.table r).next 2 j = none) ∧ ∀ j, (m'.table r).next 1 j = none := by
  have hparts : ∀ i < 512, ∀ x ∈ opt ((m.table r).next 2 i) + (m.table r).row i, Page x := by
    intro i hi x hx
    refine htables x ?_
    rw [PageTable.tables_eq]
    exact mem_total.mpr ⟨i, hi, hx⟩
  rw [freewalkFrom]
  refine (ensures_forUpto
    (I := fun i t =>
      Released r (total i fun j => opt ((m.table r).next 2 j) + (m.table r).row j) m t ∧
      (∀ j, (t.table r).next 2 j = if j < i then none else (m.table r).next 2 j) ∧
      ∀ j, (t.table r).next 1 j = if j / 512 < i then none else (m.table r).next 1 j)
    ⟨by simpa using Released.refl r m, by simp, by simp⟩ ?_).bind ?_
  · rintro i hi t ⟨hrel, h2, h1⟩
    refine ensures_get_bind ?_
    have hat : (t.table r).next 2 i = (m.table r).next 2 i := by rw [h2, if_neg (by omega)]
    simp only [zero_mul, zero_add, Nat.reduceAdd]
    rw [hat, total_succ]
    cases hc : (m.table r).next 2 i with
    | none =>
      refine ensures_pure ⟨by simpa [hwf.row_eq hc] using hrel, fun j => ?_, fun j => ?_⟩
      · rw [h2]
        by_cases hj : j = i
        · simp [hj, hc]
        · exact if_congr (by omega) rfl rfl
      · rw [h1]
        by_cases hj : j / 512 = i
        · have hnone : (m.table r).next 1 j = none := by
            by_contra hne
            exact hwf.next j hne (hj ▸ hc)
          simp [hnone]
        · exact if_congr (by omega) rfl rfl
    | some child =>
      have hrow : (t.table r).row i = (m.table r).row i := by
        refine total_congr fun j hj => ?_
        rw [h1, if_neg (by omega)]
      have hchild : Page child := hparts i hi child (by simp [hc])
      have hrows : ∀ x ∈ (t.table r).row i, Page x := fun x hx =>
        hparts i hi x (Multiset.mem_add.mpr (.inr (hrow ▸ hx)))
      refine (freewalkFrom_one (fun v => by rw [hrel.leaf]; exact hleaf v) hchild hrows).bind ?_
      rintro - t' ⟨hrel', h2', h1'⟩
      refine ensures_modify ⟨?_, fun j => ?_, fun j => ?_⟩
      · have := (hrel.trans hrel').trans (released_setNext r 2 i _)
        rw [hrow, add_zero, add_comm (PageTable.row _ _)] at this
        exact this
      · rw [setNext_table_self]
        by_cases hj : j = i
        · simp [hj]
        · rw [next_setNext_ne _ _ (by simp [hj]), h2', h2]
          exact if_congr (by omega) rfl rfl
      · rw [setNext_table_self, next_setNext_ne _ _ (by simp), h1', h1]
        by_cases hj : j / 512 = i
        · simp [hj]
        · rw [if_neg hj]
          exact if_congr (by omega) rfl rfl
  · rintro - t ⟨hrel, h2, h1⟩
    refine ⟨_, _, kfree_eq hpage, ?_, fun j => (h2 j).trans ?_, fun j => (h1 j).trans ?_⟩
    · rw [PageTable.tables_eq]
      exact hrel.trans (released_freed r page t)
    · split_ifs with hj
      · rfl
      · by_contra hne
        have := hwf.bound j hne
        omega
    · split_ifs with hj
      · rfl
      · by_contra hne
        have := hwf.bound _ (hwf.next j hne)
        omega

variable (own r W h) in
theorem freewalk_spec (hwf : (m.table r).Wf) (hleaf : ∀ v, (m.table r).leaf v = none)
    (hp : m.account own r (h + {r}) ≤ pool) :
    Ensures (freewalk r) m fun _ m' => Evolves own r W (h + {r}) h m m' ∧
      (m'.table r).pages own = 0 := by
  have hin : ∀ x ∈ m.account own r (h + {r}), Page x := fun x hx =>
    page_of_mem (Multiset.subset_of_le hp hx)
  refine (freewalkFrom_two hwf hleaf (hin r (mem_account_hand (by simp))) ?_).mono ?_
  · intro x hx
    exact hin x (by simp [Mem.account, PageTable.pages, hx])
  rintro - m' ⟨hrel, h2, h1⟩
  have htables : (m'.table r).tables = 0 := by
    rw [PageTable.tables, total_zero, total_zero, add_zero] <;> simp [h1, h2]
  have hleaf' : ∀ v, (m'.table r).leaf v = none := fun v => by rw [hrel.leaf]; exact hleaf v
  have hpages : (m'.table r).pages own = 0 := by
    rw [PageTable.pages, htables, PageTable.owned_zero fun v _ => hleaf' v, add_zero]
  have hpages' : (m.table r).pages own = (m.table r).tables := by
    rw [PageTable.pages, PageTable.owned_zero fun v _ => hleaf v, add_zero]
  have hacc : m.account own r (h + {r}) = m.free + ((m.table r).tables + {r}) + h := by
    rw [Mem.account, hpages']
    abel
  refine ⟨⟨hrel.frame, ?_, fun x hx _ => hrel.data x ?_, fun hn => hrel.twice ?_, fun _ => ?_⟩,
    hpages⟩
  · rw [hacc, Mem.account, hrel.free, hpages]
    abel
  · rw [hacc] at hx
    exact fun hm => hx (Multiset.mem_add.mpr (.inl (Multiset.mem_add.mpr (.inr hm))))
  · exact Multiset.nodup_of_le (Multiset.le_add_right _ _) (hacc ▸ hn)
  · exact ⟨fun v hv => (hv (hleaf' v)).elim, fun i hi => (hi (h1 i)).elim,
      fun i hi => (hi (h2 i)).elim⟩

variable (own r W h) in
theorem uvmfree_spec {sz : ℕ} (hsz : npages sz ≤ vpns) (hwf : (m.table r).Wf)
    (hown : ∀ v < npages sz, own v = true)
    (hleaf : ∀ v, npages sz ≤ v → (m.table r).leaf v = none)
    (hp : m.account own r (h + {r}) ≤ pool) :
    Ensures (uvmfree r sz) m fun _ m' => Evolves own r W (h + {r}) h m m' ∧
      (m'.table r).pages own = 0 := by
  have hrest : ∀ t, Unmapped own r W (h + {r}) 0 (npages sz) m t →
      Ensures (freewalk r) t fun _ m' => Evolves own r W (h + {r}) h m m' ∧
        (m'.table r).pages own = 0 := by
    intro t ht
    refine (freewalk_spec own r W h (ht.evolves.wf hwf) (fun v => ?_) (ht.evolves.fits hp)).mono
      fun _ m' hf => ⟨ht.evolves.trans hf.1, hf.2⟩
    rw [ht.leaf, clear]
    split_ifs with hv
    · rfl
    · exact hleaf v (by omega)
  rw [uvmfree]
  split_ifs with hpos
  · rw [pgroundup_eq, mul_pgsize_div]
    refine (uvmunmap_spec own r W (h + {r}) (by simp) ?_ hwf ?_ hp).bind fun _ t ht =>
      hrest t (by simpa using ht)
    · rw [zero_add, ← vpns_mul]
      exact Nat.mul_le_mul_right _ hsz
    · intro v _ hv
      rw [Nat.zero_div, zero_add] at hv
      exact hown v hv
  · have hzero : npages sz = 0 := by simp [npages, pgsize, Nat.eq_zero_of_not_pos hpos]
    exact hrest m ⟨.refl _ _ _ _ _, by simp [hzero], rfl⟩

end Xv6.Vm
