import Xv6.Lib.Bag
import Xv6.Vm.Model

/-!
# Where pages are

The pages that `kinit` hands out form a pool. A function of `vm.c` works on one page
table: it moves pages between the free list, the table pages of that tree, the user
pages that the table owns, and the pages its caller has in hand. `Evolves` says that such
a function loses no page and uses none twice, leaves other page tables alone and writes
only pages that it may write. The virtual pages whose frames count as owned are a
parameter, since a table also maps pages that it does not own.
-/

namespace Xv6.Vm

open Eff Bag Function

/-- An address that `kfree` accepts. -/
def Page (x : ℕ) : Prop := x % pgsize = 0 ∧ kernelEnd ≤ x ∧ x < phystop

instance (x : ℕ) : Decidable (Page x) := inferInstanceAs (Decidable (_ ∧ _ ∧ _))

/-- The pages from `end` to `PHYSTOP`, lowest first. -/
def poolList : List ℕ :=
  (List.range ((phystop - pgroundup kernelEnd) / pgsize)).map fun i =>
    pgroundup kernelEnd + i * pgsize

def pool : Multiset ℕ := poolList

theorem pool_nodup : pool.Nodup := by
  refine Multiset.coe_nodup.mpr (List.Nodup.map (fun i j h => ?_) List.nodup_range)
  simp only [pgsize] at h
  omega

theorem page_of_mem {x : ℕ} (h : x ∈ pool) : Page x := by
  obtain ⟨i, hi, rfl⟩ := List.mem_map.mp (Multiset.mem_coe.mp h)
  rw [List.mem_range] at hi
  simp only [Page, pgroundup, pgsize, kernelEnd, phystop] at hi ⊢
  omega

theorem mem_pool {x : ℕ} (h : Page x) : x ∈ pool := by
  refine Multiset.mem_coe.mpr (List.mem_map.mpr ⟨(x - pgroundup kernelEnd) / pgsize, ?_, ?_⟩)
  · rw [List.mem_range]
    simp only [Page, pgroundup, pgsize, kernelEnd, phystop] at h ⊢
    omega
  · simp only [Page, pgroundup, pgsize, kernelEnd, phystop] at h ⊢
    omega

/-- The table pages below the root. -/
def PageTable.tables (t : PageTable) : Multiset ℕ :=
  total 512 (fun i => opt (t.next 2 i)) + total (512 * 512) (fun i => opt (t.next 1 i))

/-- The number of virtual pages. -/
def vpns : ℕ := maxva / pgsize

/-- What an entry for page `v` counts for, if the pages in `own` are counted. -/
def cost (own : ℕ → Bool) (v : ℕ) (pte : Option Pte) : Multiset ℕ :=
  if own v then opt (pte.map Pte.pa) else 0

/-- The frames of the virtual pages in `own`. -/
def PageTable.owned (own : ℕ → Bool) (t : PageTable) : Multiset ℕ :=
  total vpns fun v => cost own v (t.leaf v)

/-- The pages that a table holds. -/
def PageTable.pages (own : ℕ → Bool) (t : PageTable) : Multiset ℕ := t.tables + t.owned own

/-- Entries hang together, and belong to addresses below `MAXVA`. -/
structure PageTable.Wf (t : PageTable) : Prop where
  leaf : ∀ v, t.leaf v ≠ none → t.next 1 (v / 512) ≠ none
  next : ∀ i, t.next 1 i ≠ none → t.next 2 (i / 512) ≠ none
  bound : ∀ i, t.next 2 i ≠ none → i < 256

theorem PageTable.wf_empty : PageTable.empty.Wf := ⟨by simp [empty], by simp [empty], by simp [empty]⟩

@[simp] theorem cost_none (own : ℕ → Bool) (v : ℕ) : cost own v none = 0 := by simp [cost]

theorem PageTable.owned_zero {t : PageTable} {own : ℕ → Bool}
    (h : ∀ v, own v = true → t.leaf v = none) : t.owned own = 0 := by
  refine total_zero fun v _ => ?_
  cases hv : own v with
  | false => simp [cost, hv]
  | true => simp [h v hv]

theorem PageTable.pages_empty (own : ℕ → Bool) : PageTable.empty.pages own = 0 := by
  have htables : PageTable.empty.tables = 0 := by
    simp [tables, total, empty]
  rw [pages, htables, PageTable.owned_zero fun _ _ => rfl, add_zero]

/-- A frame that `own` does not count comes on top of those it counts. -/
theorem PageTable.owned_add_le (t : PageTable) {own own' : ℕ → Bool}
    (hle : ∀ w, own w = true → own' w = true) {v : ℕ} (hv : v < vpns) (hown : own v = false) :
    t.owned own + cost own' v (t.leaf v) ≤ t.owned own' := by
  let f : ℕ → Multiset ℕ := fun w => cost own w (t.leaf w)
  have hsum := total_change (f := f) (g := update f v (cost own' v (t.leaf v))) hv
    fun j _ hj => update_of_ne hj _ _
  have hzero : f v = 0 := by simp [f, cost, hown]
  rw [hzero, add_zero, update_self] at hsum
  change total vpns f + _ ≤ _
  rw [← hsum]
  refine total_mono fun w _ => ?_
  by_cases hw : w = v
  · subst hw
    rw [update_self]
  · rw [update_of_ne hw]
    cases how : own w with
    | false => simp [f, cost, how]
    | true => simp [f, cost, how, hle w how]

def Mem.free (m : Mem) : Multiset ℕ := m.freelist

/-- Everything that a function on the table of `r` may take pages from. -/
def Mem.account (m : Mem) (own : ℕ → Bool) (r : ℕ) (hand : Multiset ℕ) : Multiset ℕ :=
  m.free + (m.table r).pages own + hand

/-- From `m` to `m'` a function has worked on the table of `r`, with the pages `hand`
in hand before and `hand'` after, and may have written the pages in `W`. -/
structure Evolves (own : ℕ → Bool) (r : ℕ) (W : Set ℕ) (hand hand' : Multiset ℕ) (m m' : Mem) :
    Prop where
  frame : ∀ r' ≠ r, m'.table r' = m.table r'
  ledger : m'.account own r hand' = m.account own r hand
  data : ∀ x, x ∉ m.account own r hand → x ∉ W → m'.data x = m.data x
  twice : (m.account own r hand).Nodup → m'.twice = m.twice
  wf : (m.table r).Wf → (m'.table r).Wf

section

variable {own : ℕ → Bool} {r : ℕ} {W : Set ℕ} {h h' h'' : Multiset ℕ} {m m' m'' : Mem}

theorem Evolves.refl (own : ℕ → Bool) (r : ℕ) (W : Set ℕ) (h : Multiset ℕ) (m : Mem) :
    Evolves own r W h h m m :=
  ⟨fun _ _ => rfl, rfl, fun _ _ _ => rfl, fun _ => rfl, id⟩

theorem Evolves.trans (h1 : Evolves own r W h h' m m') (h2 : Evolves own r W h' h'' m' m'') :
    Evolves own r W h h'' m m'' where
  frame r' hr := (h2.frame r' hr).trans (h1.frame r' hr)
  ledger := h2.ledger.trans h1.ledger
  data x hx hW := (h2.data x (h1.ledger ▸ hx) hW).trans (h1.data x hx hW)
  twice hn := (h2.twice (h1.ledger ▸ hn)).trans (h1.twice hn)
  wf hw := h2.wf (h1.wf hw)

theorem Mem.account_add (g : Multiset ℕ) :
    m.account own r (h + g) = m.account own r h + g := by
  simp only [account]
  ac_rfl

theorem Evolves.fits (h1 : Evolves own r W h h' m m') (hp : m.account own r h ≤ pool) :
    m'.account own r h' ≤ pool := h1.ledger ▸ hp

theorem Mem.account_mono {own' : ℕ → Bool} (hle : ∀ w, own w = true → own' w = true)
    (hh : h ≤ h') : m.account own r h ≤ m.account own' r h' := by
  have howned : (m.table r).owned own ≤ (m.table r).owned own' := by
    refine total_mono fun w _ => ?_
    cases how : own w with
    | false => simp [cost, how]
    | true => simp [cost, how, hle w how]
  exact add_le_add (add_le_add_right (add_le_add_right howned _) _) hh

theorem leaf_mem_pages {v : ℕ} {pte : Pte} (hv : v < vpns) (hown : own v = true)
    (hl : (m.table r).leaf v = some pte) : pte.pa ∈ (m.table r).pages own := by
  have hmem : pte.pa ∈ (m.table r).owned own := mem_total.mpr ⟨v, hv, by simp [cost, hown, hl]⟩
  simp [PageTable.pages, hmem]

theorem leaf_mem_account {v : ℕ} {pte : Pte} (hv : v < vpns) (hown : own v = true)
    (hl : (m.table r).leaf v = some pte) : pte.pa ∈ m.account own r h := by
  simp [Mem.account, leaf_mem_pages hv hown hl]

theorem not_mem_account {own' : ℕ → Bool} (hle : ∀ w, own w = true → own' w = true) (hh : h ≤ h')
    (hp : m.account own' r h' ≤ pool) {v : ℕ} {pte : Pte} (hv : v < vpns) (hown : own v = false)
    (hown' : own' v = true) (hl : (m.table r).leaf v = some pte) :
    pte.pa ∉ m.account own r h := by
  intro hmem
  have hadd := (m.table r).owned_add_le hle hv hown
  rw [hl, cost, hown', if_pos rfl, Option.map_some, opt_some] at hadd
  have hsum : m.account own r h + {pte.pa} ≤ m.account own' r h' := by
    calc m.account own r h + {pte.pa}
        = m.free + ((m.table r).tables + ((m.table r).owned own + {pte.pa})) + h := by
          simp only [Mem.account, PageTable.pages]
          ac_rfl
      _ ≤ m.free + ((m.table r).tables + (m.table r).owned own') + h' :=
          add_le_add (add_le_add_right (add_le_add_right hadd _) _) hh
      _ = _ := rfl
  have hnodup := Multiset.nodup_of_le (hsum.trans hp) pool_nodup
  exact Multiset.disjoint_left.mp (Multiset.nodup_add.mp hnodup).2.2 hmem (by simp)

section

variable (hp : m.account own r h ≤ pool) {v v' : ℕ} {pte pte' : Pte} (hv : v < vpns)
  (hown : own v = true) (hl : (m.table r).leaf v = some pte)
include hp hv hown hl

theorem frame_not_free : pte.pa ∉ m.freelist := by
  have hnot : pte.pa ∉ m.account (fun _ => false) r 0 :=
    not_mem_account (by simp) (Multiset.zero_le _) hp hv rfl hown hl
  exact fun hfree => hnot (by simp [Mem.account, Mem.free, hfree])

theorem frame_inj (hv' : v' < vpns) (hown' : own v' = true)
    (hl' : (m.table r).leaf v' = some pte') (heq : pte.pa = pte'.pa) : v = v' := by
  by_contra hne
  have hnot : pte.pa ∉ m.account (fun w => own w && w ≠ v) r 0 :=
    not_mem_account (fun w hw => by simp at hw; exact hw.1) (Multiset.zero_le _) hp hv (by simp)
      hown hl
  apply hnot
  rw [heq]
  refine leaf_mem_account hv' ?_ hl'
  simp [hown', Ne.symm hne]

end

end

end Xv6.Vm
