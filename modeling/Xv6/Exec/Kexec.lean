import Xv6.Exec.Stack
import Xv6.Vm.Fork

/-!
# `kexec` is all or nothing

Whatever the file holds and wherever the pages run out, `kexec` either returns the number
of arguments with the new image in place of the old one, or gives back all it took and
leaves the process as it was. The inode is unlocked and released, and the transaction is
closed, in both cases.
-/

namespace Xv6.Exec

open Eff Bag Vm Function

/-- The virtual page of a shared-memory key. -/
def shmVpn (key : ℕ) : ℕ := shmbase / pgsize + key

/-- A process that can call `kexec`: its pages are its own, and above its size it has no
more than the shared pages it is attached to, here none, and the two pages of the kernel. -/
structure Ready (s : State) (i r tf : ℕ) : Prop where
  pagetable : (s.kernel.proc i).pagetable = some r
  trapframe : (s.kernel.proc i).trapframe = some tf
  detached : ∀ key, (s.kernel.proc i).shmMask key = false
  sz : (s.kernel.proc i).sz ≤ Vm.trapframe
  wf : (s.kernel.mem.table r).Wf
  above : ∀ v, npages (s.kernel.proc i).sz ≤ v →
    (∀ key < shmPages, (s.kernel.proc i).shmMask key = true → v ≠ shmVpn key) →
    (s.kernel.mem.table r).leaf v = baseLeaf tf v
  frames : s.kernel.mem.account belowTrapframe r ({r} + {tf}) ≤ pool
  unlocked : s.locked = false
  ref : 0 ≤ s.ref

/-- Nothing is left of a call that failed. -/
structure Failed (s s' : State) : Prop where
  mem : Spends 0 s.kernel.mem s'.kernel.mem
  kernel : s'.kernel = { s.kernel with mem := s'.kernel.mem }
  name : s'.name = s.name
  ref : s'.ref = s.ref
  locked : s'.locked = s.locked
  outstanding : s'.outstanding = s.outstanding

section

variable {s t : State} {i r tf rc sz : ℕ} {α β : Type}

theorem ensures_onKernel_bind {f : KM α} {c : α → EM β} {P : α → Kernel → Prop}
    {Q : β → State → Prop} (h : Ensures f s.kernel P)
    (hc : ∀ a k, P a k → Ensures (c a) { s with kernel := k } Q) :
    Ensures (onKernel f >>= c) s Q := by
  obtain ⟨a, k, hf, ha⟩ := h
  have hrun : onKernel f s = .ok (a, { s with kernel := k }) := by
    rw [onKernel, hf]
  exact ensures_eq_bind hrun (hc a k ha)

theorem ensures_mem_bind {f : M α} {c : α → EM β} {P : α → Mem → Prop}
    {Q : β → State → Prop} (h : Ensures f s.kernel.mem P)
    (hc : ∀ a m, P a m → Ensures (c a) { s with kernel := { s.kernel with mem := m } } Q) :
    Ensures (onKernel (onMem f) >>= c) s Q := by
  refine ensures_onKernel_bind (P := fun a k => P a k.mem ∧ k = { s.kernel with mem := k.mem })
    (ensures_onMem (h.mono fun a m hm => ⟨hm, rfl⟩)) ?_
  rintro a k ⟨hm, hk⟩
  rw [hk]
  exact hc a k.mem hm

theorem ensures_mem {f : M α} {Q : α → State → Prop}
    (h : Ensures f s.kernel.mem fun a m => Q a { s with kernel := { s.kernel with mem := m } }) :
    Ensures (onKernel (onMem f)) s Q := by
  obtain ⟨a, m, hf, ha⟩ := h
  refine ⟨a, _, ?_, ha⟩
  rw [onKernel, onMem, hf]

theorem ensures_modifyProc_bind {u : Proc → Proc} {c : Unit → EM β} {Q : β → State → Prop}
    (h : Ensures (c ()) { s with kernel := s.kernel.setProc i (u (s.kernel.proc i)) } Q) :
    Ensures (onKernel (modifyProc i u) >>= c) s Q := h

theorem ensures_deref {p : Option ℕ} {a : ℕ} {c : ℕ → EM β} {Q : β → State → Prop}
    (hp : p = some a) (hc : Ensures (c a) s Q) : Ensures (onKernel (deref p) >>= c) s Q := by
  subst hp
  exact hc

theorem Ready.free (h : Ready s i r tf) : s.kernel.mem.free ≤ pool := by
  refine le_trans ?_ h.frames
  rw [Mem.account, add_assoc]
  exact Multiset.le_add_right _ _

/-- The state of a call that has only changed memory. -/
def closed (s : State) (m : Mem) : State := { s with kernel := { s.kernel with mem := m } }

/-- The state of a call that has the file open and locked. -/
def opened (s : State) (m : Mem) : State :=
  { closed s m with ref := s.ref + 1, locked := true, outstanding := s.outstanding + 1 }

theorem close_opened (h : Ready s i r tf) (m : Mem) {c : EM β} {Q : β → State → Prop}
    (hc : Ensures c (closed s m) Q) :
    Ensures (do iunlockput; endOp; c) (opened s m) Q := by
  have href := h.ref
  have hrun : Ensures iunlockput (opened s m) fun _ t => t =
      { closed s m with outstanding := s.outstanding + 1 } := by
    refine ensures_get_bind ?_
    rw [if_neg (by simp [opened]; omega)]
    refine ensures_modify ?_
    simp [opened, closed, h.unlocked]
  refine hrun.bind ?_
  rintro - t rfl
  refine ensures_modify_bind ?_
  have heq : ({ closed s m with
      outstanding := s.outstanding + 1 - 1 } : State) = closed s m := by simp [closed]
  exact heq ▸ hc

theorem Failed.of_spends {m : Mem} (hs : Spends 0 s.kernel.mem m) : Failed s (closed s m) :=
  ⟨hs, rfl, rfl, rfl, rfl, rfl⟩

/-- `bad` gives back what was built, and closes the file if it is open. -/
theorem bad_spec (h : Ready s i r tf) {m : Mem} (pagetable : Option ℕ) (ip : Bool)
    (hmem : match pagetable with
      | none => Spends 0 s.kernel.mem m
      | some rc => Shell tf rc sz s.kernel.mem m) :
    Ensures (bad (α := α) pagetable sz ip) (if ip then opened s m else closed s m)
      fun res t => res = none ∧ Failed s t := by
  have hrest : ∀ m', Spends 0 s.kernel.mem m' → Ensures (do
      if ip then do
        iunlockput
        endOp
      pure (none : Option α)) (if ip then opened s m' else closed s m')
        fun res t => res = none ∧ Failed s t := by
    intro m' hs
    cases ip with
    | false => exact ensures_pure ⟨rfl, Failed.of_spends hs⟩
    | true =>
      have := close_opened h m' (ensures_pure (ε := String) (Q := fun (res : Option α) t =>
        res = none ∧ Failed s t) ⟨rfl, Failed.of_spends hs⟩)
      simpa using this
  cases pagetable with
  | none => exact hrest m hmem
  | some rc =>
    have hkernel : (if ip then opened s m else closed s m).kernel.mem = m := by
      cases ip <;> rfl
    refine ensures_mem_bind (P := fun _ m' => Spends 0 s.kernel.mem m') ?_ ?_
    · rw [hkernel]
      exact hmem.procFreepagetable h.free
    · intro _ m' hs
      have := hrest m' hs
      cases ip <;> exact this

/-! ## The program -/

/-- The header of a file. -/
def elfOf (data : List UInt8) : Elfhdr := Elfhdr.ofBytes (readi data 0 Elfhdr.size)

/-- The segments of a file that are to be loaded. -/
def segments (data : List UInt8) : List Proghdr :=
  loads data (elfOf data).phnum (elfOf data).phoff

/-- The image that the segments of a file make up. -/
def program (data : List UInt8) : Image :=
  (segments data).foldl (Image.segment data) .empty

theorem Built.empty {m0 m : Mem} (hn : NewTable belowTrapframe rc 0 m0 m)
    (hleaf : (m.table rc).leaf = baseLeaf tf) : Built tf rc .empty m0 m where
  table := hn
  low v hv := by simp [Image.empty, npages, pgsize] at hv
  high v _ := by rw [hleaf]
  count := by
    have hcard : m.freelist.length ≤ m0.freelist.length := by
      have hle : m.free ≤ m0.free := by
        rw [← hn.spends.free]
        exact Multiset.le_add_right _ _
      simpa [Mem.free] using Multiset.card_le_card hle
    simpa [Image.empty, npages, pgsize] using hcard
  zero _ _ := rfl

/-- What `openImage` has made of a file: a page table that holds its program. -/
structure Loaded (tf : ℕ) (file : Option (List UInt8)) (entry rc sz : ℕ) (data : List UInt8)
    (s : State) (m : Mem) : Prop where
  file : file = some data
  entry : entry = (elfOf data).entry
  sz : sz = (program data).sz
  built : Built tf rc (program data) s.kernel.mem m
  user : ∀ v < npages (program data).sz, ((program data).perm v).u = true
  valid : ∀ ph ∈ segments data, ph.Valid

theorem openImage_spec (h : Ready s i r tf) (file : Option (List UInt8)) :
    Ensures (openImage i file) s fun res t => match res with
      | none => Failed s t
      | some (entry, rc, sz) => ∃ data m, t = closed s m ∧ Loaded tf file entry rc sz data s m := by
  have href := h.ref
  unfold openImage
  refine ensures_modify_bind ?_
  cases file with
  | none =>
    refine ensures_modify_bind (ensures_pure ⟨Spends.refl _, rfl, rfl, rfl, rfl, ?_⟩)
    simp
  | some data =>
    have hlock : Ensures ilock { s with outstanding := s.outstanding + 1, ref := s.ref + 1 }
        fun _ t => t = opened s s.kernel.mem := by
      refine ensures_get_bind ?_
      rw [if_neg (by simp; omega)]
      exact ensures_modify rfl
    refine ensures_modify_bind (hlock.bind ?_)
    rintro - t rfl
    have hbad : ∀ (pagetable : Option ℕ) (sz : ℕ) {m : Mem}, (match pagetable with
          | none => Spends 0 s.kernel.mem m
          | some rc => Shell tf rc sz s.kernel.mem m) →
        Ensures (bad (α := ℕ × ℕ × ℕ) pagetable sz true) (opened s m) fun res t => match res with
          | none => Failed s t
          | some (entry, rc, sz) => ∃ data' m, t = closed s m ∧
              Loaded tf (some data) entry rc sz data' s m := by
      intro pagetable sz m hm
      refine (bad_spec h pagetable true hm).mono ?_
      rintro res t ⟨rfl, hf⟩
      exact hf
    dsimp only
    split_ifs with hlen hmagic
    · exact hbad none 0 (Spends.refl _)
    · exact hbad none 0 (Spends.refl _)
    · refine ensures_get_bind (ensures_deref h.trapframe ?_)
      refine ensures_mem_bind (procPagetable_spec belowTrapframe_high (Spends.refl _) h.free tf) ?_
      rintro (_ | rc) m1 h1
      · exact hbad none 0 h1
      · obtain ⟨hn, hleaf⟩ := h1
        have hempty := Built.empty hn hleaf
        refine ensures_mem_bind (hempty.loadLoop h.free data _ _ ?_) ?_
        · simp [Image.empty, npages, pgsize]
        rintro ⟨ok, sz⟩ m2 h2
        cases ok with
        | false => exact hbad (some rc) sz h2
        | true =>
          obtain ⟨hb, rfl, hu, hvalid⟩ := h2
          refine close_opened h m2 (ensures_pure ⟨data, m2, rfl, rfl, rfl, rfl, hb, hu, hvalid⟩)

/-! ## The stack pages -/

variable {g : Image} {m : Mem}

/-- The image up to the end of its last page. -/
def Image.align (g : Image) : Image := { g with sz := npages g.sz * pgsize }

/-- The image with a guard page and a stack page on top. -/
def Image.withStack (g : Image) : Image :=
  (g.align.grow ((npages g.sz + 2) * pgsize) (pteR ||| pteU ||| pteW)).guard (npages g.sz)

theorem Built.align {m0 : Mem} (h : Built tf rc g m0 m) : Built tf rc g.align m0 m := by
  have hsz : npages g.align.sz = npages g.sz := npages_mul _
  refine ⟨h.table, ?_, ?_, ?_, ?_⟩
  · rw [hsz]
    exact h.low
  · rw [hsz]
    exact h.high
  · rw [hsz]
    exact h.count
  · rw [hsz]
    exact h.zero

theorem withStack_sz (g : Image) : g.withStack.sz = (npages g.sz + 2) * pgsize := by
  simp only [Image.withStack, Image.guard_sz, Image.grow, Image.align]
  exact max_eq_right (Nat.mul_le_mul_right _ (by omega))

theorem withStack_perm (g : Image) : Stack g.withStack ((npages g.sz + 1) * pgsize) := by
  constructor
  · rw [Nat.add_mul, Nat.one_mul]
    exact Nat.le_add_left _ _
  · rw [withStack_sz]
    exact Nat.mul_le_mul_right _ (by omega)
  · rw [withStack_sz, Nat.mul_mod_left]
  · intro v hv _
    rw [mul_pgsize_div] at hv
    have hne : v ≠ npages g.sz := by omega
    have hle : npages g.align.sz ≤ v := by
      rw [Image.align, npages_mul]
      omega
    simp only [Image.withStack, Image.guard, Image.grow, update_of_ne hne, if_pos hle]
    exact ⟨rfl, rfl⟩

theorem stackbase_eq (g : Image) :
    g.withStack.sz - userstack * pgsize = (npages g.sz + 1) * pgsize := by
  have hone : npages g.sz + 2 - userstack = npages g.sz + 1 := by
    unfold userstack
    omega
  rw [withStack_sz, ← Nat.sub_mul, hone]

theorem mapStack_spec (h : Ready s i r tf) (hb : Built tf rc g s.kernel.mem m) :
    Ensures (mapStack rc g.sz) (closed s m) fun res t => match res with
      | none => Failed s t
      | some sz => sz = g.withStack.sz ∧ ∃ m', t = closed s m' ∧
          Built tf rc g.withStack s.kernel.mem m' := by
  have hpos : 0 < pgsize := by simp [pgsize]
  have hend : pgroundup g.sz + (userstack + 1) * pgsize = (npages g.sz + 2) * pgsize := by
    rw [pgroundup_eq, userstack, ← Nat.add_mul]
  have hgrow := hb.align.uvmalloc h.free ((npages g.sz + 2) * pgsize) pteW
  unfold mapStack
  rw [hend, pgroundup_eq]
  refine ensures_mem_bind hgrow ?_
  rintro sz m1 (⟨hsz, h1⟩ | ⟨rfl, hshell⟩)
  · have hsz' : sz = g.withStack.sz := hsz
    rw [hsz', withStack_sz, if_neg (Nat.mul_pos (by omega) hpos).ne']
    have hguard : (npages g.sz + 2) * pgsize - (userstack + 1) * pgsize = npages g.sz * pgsize := by
      rw [userstack, ← Nat.sub_mul, Nat.add_sub_cancel]
    rw [hguard]
    refine ensures_mem_bind (h1.uvmclear h.free (v := npages g.sz) ?_) ?_
    · have hlarge : (npages g.sz + 2) * pgsize ≤
          (g.align.grow ((npages g.sz + 2) * pgsize) (pteR ||| pteU ||| pteW)).sz :=
        le_max_right _ _
      have := npages_mono hlarge
      rw [npages_mul] at this
      omega
    · intro _ m2 h2
      exact ensures_pure ⟨rfl, m2, rfl, h2⟩
  · rw [if_pos rfl]
    refine (bad_spec h (some rc) false hshell).mono ?_
    rintro res t ⟨rfl, hf⟩
    exact hf

/-! ## The exchange of the images -/

/-- The process in slot `i` runs the image `g` in a page table with root `rc`, built from
free pages, and the pages of its old page table have been freed. -/
structure Installed (i r tf rc entry sp : ℕ) (path : List UInt8) (g : Image) (s t : State) :
    Prop where
  kernel : t.kernel = Kernel.setProc { s.kernel with mem := t.kernel.mem } i
    { s.kernel.proc i with pagetable := some rc, sz := g.sz }
  low : ∀ v < npages g.sz, ∃ pa ∈ s.kernel.mem.freelist,
    (t.kernel.mem.table rc).leaf v = some ⟨pa, g.perm v⟩ ∧
      ∀ o < pgsize, t.kernel.mem.data pa o = g.byte (v * pgsize + o)
  high : ∀ v, npages g.sz ≤ v → (t.kernel.mem.table rc).leaf v = baseLeaf tf v
  regs : t.kernel.mem.data tf =
    poke (poke (poke (s.kernel.mem.data tf) 120 sp) 24 entry) 48 sp
  ledger : t.kernel.mem.free + ((t.kernel.mem.table rc).pages belowTrapframe + {rc}) =
    s.kernel.mem.free + ((s.kernel.mem.table r).pages belowTrapframe + {r})
  data : ∀ x, x ∉ s.kernel.mem.account belowTrapframe r ({r} + {tf}) →
    t.kernel.mem.data x = s.kernel.mem.data x
  table : ∀ r' ≠ r, r' ∉ s.kernel.mem.freelist →
    t.kernel.mem.table r' = s.kernel.mem.table r'
  name : t.name = update s.name i (lastName path)
  ref : t.ref = s.ref
  locked : t.locked = s.locked
  outstanding : t.outstanding = s.outstanding

theorem Ready.not_free (h : Ready s i r tf) {x : ℕ}
    (hx : x ∈ (s.kernel.mem.table r).pages belowTrapframe + ({r} + {tf})) :
    x ∉ s.kernel.mem.freelist := by
  have hnodup := Multiset.nodup_of_le h.frames pool_nodup
  rw [Mem.account, add_assoc] at hnodup
  exact fun hfree => Multiset.disjoint_left.mp (Multiset.nodup_add.mp hnodup).2.2 hfree hx

theorem Ready.tf_not_mem (h : Ready s i r tf) :
    tf ∉ s.kernel.mem.account belowTrapframe r {r} := by
  have hnodup := Multiset.nodup_of_le h.frames pool_nodup
  rw [Mem.account_add] at hnodup
  exact fun hmem => Multiset.disjoint_left.mp (Multiset.nodup_add.mp hnodup).2.2 hmem (by simp)

theorem Ready.above_eq (h : Ready s i r tf) {v : ℕ} (hv : npages (s.kernel.proc i).sz ≤ v) :
    (s.kernel.mem.table r).leaf v = baseLeaf tf v := by
  refine h.above v hv fun key _ hkey => ?_
  rw [h.detached key] at hkey
  cases hkey

theorem commit_free (h : Ready s i r tf) (hb : Built tf rc g s.kernel.mem m) (f : ℕ → ℕ) :
    Ensures (procFreepagetable r (s.kernel.proc i).sz)
      { m with data := update m.data tf f } fun _ m' =>
      (∀ v < npages g.sz, ∃ pa ∈ s.kernel.mem.freelist,
        (m'.table rc).leaf v = some ⟨pa, g.perm v⟩ ∧
          ∀ o < pgsize, m'.data pa o = g.byte (v * pgsize + o)) ∧
      (∀ v, npages g.sz ≤ v → (m'.table rc).leaf v = baseLeaf tf v) ∧ m'.data tf = f ∧
      m'.free + ((m'.table rc).pages belowTrapframe + {rc}) =
        s.kernel.mem.free + ((s.kernel.mem.table r).pages belowTrapframe + {r}) ∧
      (∀ x, x ∉ s.kernel.mem.account belowTrapframe r ({r} + {tf}) →
        m'.data x = s.kernel.mem.data x) ∧
      ∀ r' ≠ r, r' ∉ s.kernel.mem.freelist → m'.table r' = s.kernel.mem.table r' := by
  have hr : r ∉ s.kernel.mem.freelist := h.not_free (by simp)
  have hrc : rc ≠ r := fun heq => hr (heq ▸ hb.table.root)
  have hold : m.table r = s.kernel.mem.table r := hb.table.spends.table r hr
  have hspent : m.free + ((m.table rc).pages belowTrapframe + {rc}) = s.kernel.mem.free := by
    simpa using hb.table.spends.free
  -- the pages of both images and the free pages together
  have hall : m.free + (m.table r).pages belowTrapframe + {r} + ((m.table rc).pages belowTrapframe +
      {rc}) = s.kernel.mem.account belowTrapframe r {r} := by
    rw [Mem.account, ← hspent, hold]
    abel
  have hsub : ∀ x, x ∈ m.free + (m.table r).pages belowTrapframe + {r} →
      x ∈ s.kernel.mem.account belowTrapframe r {r} := by
    intro x hx
    rw [← hall]
    exact Multiset.mem_add.mpr (.inl hx)
  have hnodup : (s.kernel.mem.account belowTrapframe r {r}).Nodup := by
    have := Multiset.nodup_of_le h.frames pool_nodup
    rw [Mem.account_add] at this
    exact (Multiset.nodup_add.mp this).1
  have hfits : Mem.account { m with data := update m.data tf f } belowTrapframe r
      (0 + {r}) ≤ pool := by
    refine le_trans ?_ h.frames
    rw [Mem.account_add {tf}, ← hall, zero_add]
    refine le_trans ?_ (Multiset.le_add_right _ _)
    exact Multiset.le_add_right _ _
  have hwf : (Mem.table { m with data := update m.data tf f } r).Wf := hold ▸ h.wf
  have habove : ∀ v, npages (s.kernel.proc i).sz ≤ v →
      (Mem.table { m with data := update m.data tf f } r).leaf v = baseLeaf tf v :=
    fun v hv => hold ▸ h.above_eq hv
  refine (procFreepagetable_spec (W := ∅) (npages_le_userVpn h.sz) hwf habove hfits).mono ?_
  rintro - m' ⟨he, hpages⟩
  have htab : m'.table rc = m.table rc := he.frame rc hrc
  have hkeep : ∀ x, x ∉ m.free + (m.table r).pages belowTrapframe + {r} → x ≠ tf →
      m'.data x = m.data x := by
    intro x hx hne
    refine (he.data x ?_ (by simp)).trans (update_of_ne hne _ _)
    simpa [Mem.account, Mem.free] using hx
  have htf : tf ∉ m.free + (m.table r).pages belowTrapframe + {r} :=
    fun hmem => h.tf_not_mem (hsub tf hmem)
  refine ⟨fun v hv => ?_, fun v hv => ?_, ?_, ?_, fun x hx => ?_, fun r' hr' hfree => ?_⟩
  · obtain ⟨pa, hl, hd⟩ := hb.low v hv
    have hmem := hb.frame_mem h.free hv hl
    have hpa : pa ∈ (m.table rc).pages belowTrapframe :=
      leaf_mem_pages (hb.lt_vpns h.free hv) (hb.own h.free hv) hl
    refine ⟨pa, hmem, by rw [htab, hl], fun o ho => ?_⟩
    rw [hkeep pa ?_ ?_, hd o ho]
    · rw [← hall] at hnodup
      exact fun hx => Multiset.disjoint_left.mp (Multiset.nodup_add.mp hnodup).2.2 hx
        (Multiset.mem_add.mpr (.inl hpa))
    · rintro rfl
      exact h.not_free (by simp) hmem
  · rw [htab, hb.high v hv]
  · refine (he.data tf ?_ (by simp)).trans (update_self _ _ _)
    simpa [Mem.account, Mem.free] using htf
  · have hledger := he.ledger
    simp only [Mem.account, hpages, add_zero, zero_add] at hledger
    rw [htab, hledger, ← hspent, ← hold]
    simp only [Mem.free]
    abel
  · rw [Mem.account_add, Multiset.mem_add, not_or, Multiset.mem_singleton] at hx
    rw [hkeep x (fun hmem => hx.1 (hsub x hmem)) hx.2]
    refine hb.table.spends.data x fun hfree => hx.1 ?_
    exact Multiset.mem_add.mpr (.inl (Multiset.mem_add.mpr (.inl hfree)))
  · rw [he.frame r' hr']
    exact hb.table.spends.table r' hfree

theorem commit_spec (h : Ready s i r tf) (hb : Built tf rc g s.kernel.mem m)
    (path : List UInt8) (entry sp : ℕ) :
    Ensures (commit i path entry rc g.sz sp) (closed s m) fun _ t =>
      Installed i r tf rc entry sp path g s t := by
  have htf : m.data tf = s.kernel.mem.data tf :=
    hb.table.spends.data tf (h.not_free (by simp))
  refine ensures_get_bind (ensures_deref h.trapframe ?_)
  refine ensures_mem_bind (setWord_spec m tf 120 sp) ?_
  rintro - m1 rfl
  refine ensures_modify_bind (ensures_deref h.pagetable ?_)
  refine ensures_modifyProc_bind (ensures_mem_bind (setWord_spec _ tf 24 entry) ?_)
  rintro - m2 rfl
  refine ensures_mem_bind (setWord_spec _ tf 48 sp) ?_
  rintro - m3 rfl
  simp only [Kernel.setProc, closed, update_self, update_idem]
  refine ensures_mem ((commit_free h hb _).mono ?_)
  rintro - m4 ⟨hlow, hhigh, hregs, hledger, hdata, htable⟩
  exact ⟨rfl, hlow, hhigh, by rw [hregs, htf], hledger, hdata, htable, rfl, rfl, rfl, rfl⟩

/-- The arguments fit on the stack. -/
def Fits (argv : List Str) : Prop :=
  argv.length < maxarg ∧ need argv + round16 ((argv.length + 1) * 8) ≤ userstack * pgsize

instance (argv : List Str) : Decidable (Fits argv) := by unfold Fits; infer_instance

/-- The stack pointer of a new program. -/
def stackPointer (g : Image) (argv : List Str) : ℕ :=
  g.sz - need argv - round16 ((argv.length + 1) * 8)

theorem enter_spec (h : Ready s i r tf) (hb : Built tf rc g s.kernel.mem m)
    (hs : Stack g (g.sz - userstack * pgsize)) (path : List UInt8) (entry : ℕ) (argv : List Str)
    (hne : argv.length ≠ maxarg) :
    Ensures (enter i path argv entry rc g.sz) (closed s m) fun res t =>
      if Fits argv then res = some argv.length ∧
        Installed i r tf rc entry (stackPointer g argv) path (g.stack argv) s t
      else res = none ∧ Failed s t := by
  refine ensures_get_bind (ensures_deref h.pagetable ?_)
  refine ensures_mem_bind
    (copyStack_spec h.free (s.kernel.proc i).sz r argv hb hs hne) ?_
  intro res m1 h1
  have hle := hs.le
  have hiff : (argv.length < maxarg ∧ g.sz - userstack * pgsize +
      (need argv + round16 ((argv.length + 1) * 8)) ≤ g.sz) ↔ Fits argv := by
    have hpos := hs.pos
    have hpage : 0 < pgsize := by simp [pgsize]
    unfold Fits
    omega
  by_cases hfit : Fits argv
  · rw [if_pos (hiff.mpr hfit)] at h1
    simp only [if_pos hfit]
    obtain ⟨rfl, hb1⟩ := h1
    have hsz : (g.stack argv).sz = g.sz := by rw [Image.stack, Image.write_sz, strings_sz]
    have hcommit := commit_spec h hb1 path entry (stackPointer g argv)
    rw [hsz] at hcommit
    exact hcommit.bind fun _ t ht => ensures_pure ⟨rfl, ht⟩
  · rw [if_neg (mt hiff.mp hfit)] at h1
    simp only [if_neg hfit]
    obtain ⟨rfl, g', hb1, hsz⟩ := h1
    exact bad_spec h (some rc) false (hsz ▸ hb1.shell h.free)

/-! ## `kexec` -/

/-- The image that a process runs after `kexec`. -/
def imageOf (data : List UInt8) (argv : List Str) : Image := (program data).withStack.stack argv

/-- The registers `sp` and `a1` after `kexec`. -/
def spOf (data : List UInt8) (argv : List Str) : ℕ := stackPointer (program data).withStack argv

theorem kexec_spec (h : Ready s i r tf) (path : List UInt8) (file : Option (List UInt8))
    (argv : List Str) (hne : argv.length ≠ maxarg) :
    Ensures (kexec i path file argv) s fun res t => match res with
      | none => Failed s t
      | some argc => argc = argv.length ∧ Fits argv ∧ ∃ data rc, file = some data ∧
          (∀ ph ∈ segments data, ph.Valid) ∧ Installed i r tf rc (elfOf data).entry
            (spOf data argv) path (imageOf data argv) s t := by
  refine (openImage_spec h file).bind ?_
  rintro (_ | ⟨entry, rc, sz⟩) t h1
  · exact ensures_pure h1
  obtain ⟨data, m, rfl, hl⟩ := h1
  obtain ⟨rfl, rfl, rfl, hb, -, hvalid⟩ := hl
  refine (mapStack_spec h hb).bind ?_
  rintro (_ | sz) t h2
  · exact ensures_pure h2
  obtain ⟨rfl, m2, rfl, hb2⟩ := h2
  have hstack : Stack (program data).withStack
      ((program data).withStack.sz - userstack * pgsize) := by
    rw [stackbase_eq]
    exact withStack_perm _
  refine (enter_spec h hb2 hstack path _ argv hne).mono ?_
  intro res t h3
  by_cases hfit : Fits argv
  · rw [if_pos hfit] at h3
    obtain ⟨rfl, hi⟩ := h3
    exact ⟨rfl, hfit, data, rc, rfl, hvalid, hi⟩
  · rw [if_neg hfit] at h3
    obtain ⟨rfl, hf⟩ := h3
    exact hf

/-- `kexec` is all or nothing. No byte of the file, no number of arguments but exactly
`MAXARG` and no lack of pages makes it panic. When it fails, the process has its page
table with the contents, its size, its trapframe and its name, and every page that was
taken is free again; when it succeeds, it runs the new image. The inode and the number of
open transactions are as before in both cases. -/
theorem kexec_all_or_nothing (h : Ready s i r tf) (path : List UInt8)
    (file : Option (List UInt8)) (argv : List Str) (hne : argv.length ≠ maxarg) :
    Ensures (kexec i path file argv) s fun res t =>
      t.ref = s.ref ∧ t.locked = s.locked ∧ t.outstanding = s.outstanding ∧ match res with
      | none => t.kernel.proc = s.kernel.proc ∧ t.name = s.name ∧
          t.kernel.mem.table r = s.kernel.mem.table r ∧
          (∀ v < npages (s.kernel.proc i).sz, ∀ pte, (s.kernel.mem.table r).leaf v = some pte →
            t.kernel.mem.data pte.pa = s.kernel.mem.data pte.pa) ∧
          t.kernel.mem.data tf = s.kernel.mem.data tf ∧ t.kernel.mem.free = s.kernel.mem.free
      | some argc => argc = argv.length ∧ ∃ data rc, file = some data ∧
          Installed i r tf rc (elfOf data).entry (spOf data argv) path (imageOf data argv) s t := by
  refine (kexec_spec h path file argv hne).mono ?_
  rintro (_ | argc) t ht
  · have hk := ht.kernel
    refine ⟨ht.ref, ht.locked, ht.outstanding, by rw [hk], ht.name,
      ht.mem.table r (h.not_free (by simp)), fun v hv pte hl => ?_,
      ht.mem.data tf (h.not_free (by simp)), by simpa using ht.mem.free⟩
    have hnp := npages_le_userVpn h.sz
    have hlt := userVpn_lt
    refine ht.mem.data _ (h.not_free (Multiset.mem_add.mpr (.inl ?_)))
    exact leaf_mem_pages (by omega) (by simp only [belowTrapframe, decide_eq_true_eq]; omega) hl
  · obtain ⟨rfl, -, data, rc, hfile, -, hi⟩ := ht
    exact ⟨hi.ref, hi.locked, hi.outstanding, rfl, data, rc, hfile, hi⟩

/-! ## A first process -/

/-- The kernel after `allocproc` has made the first process. -/
def firstKernel : Kernel :=
  match allocproc bootKernel with
  | .ok (_, k) => k
  | .error _ => bootKernel

def firstState : State := ⟨firstKernel, fun _ => [], 0, false, 0⟩

theorem bootKernel_free : bootKernel.mem.free ≤ pool := by
  rw [Mem.free, Multiset.le_iff_subset (Multiset.coe_nodup.mpr (by decide))]
  exact fun x hx => mem_pool (by revert x; decide)

theorem firstState_ready : ∃ r tf, Ready firstState 0 r tf := by
  have hslot : Ensures allocproc bootKernel fun np _ => np = some 0 := by decide +kernel
  obtain ⟨-, k, hrun, hk, rfl⟩ := (allocproc_spec belowTrapframe belowTrapframe_high
    (k := bootKernel) (fun _ _ => rfl) bootKernel_free).and hslot
  have hfirst : firstKernel = k := by rw [firstKernel, hrun]
  obtain ⟨-, r, tf, m, rfl, hn, hleaf⟩ := hk
  have haccount : m.account belowTrapframe r ({r} + {tf}) ≤ pool := hn.fits bootKernel_free
  refine ⟨r, tf, ?_⟩
  constructor
  all_goals simp only [firstState, hfirst, setProc_self]
  case wf => exact hn.wf
  case above => exact fun v _ _ => congrFun hleaf v
  case frames => exact haccount
  all_goals simp [Proc.alloc, bootKernel, Proc.clear]

/-- An ELF file without segments. -/
def tinyElf : List UInt8 := [0x7f, 0x45, 0x4c, 0x46] ++ List.replicate 60 0

def emptyStr : Str := ⟨[], by simp, by simp⟩

/-- The first process executes a file. -/
theorem kexec_all_or_nothing_first : ∃ r tf, Ready firstState 0 r tf ∧
    ([] : List Str).length ≠ maxarg ∧ Ensures (kexec 0 [] (some tinyElf) []) firstState
      fun res t => t.ref = 0 ∧ t.locked = false ∧ t.outstanding = 0 ∧
        (res = none → t.kernel.mem.free = firstState.kernel.mem.free) := by
  obtain ⟨r, tf, h⟩ := firstState_ready
  refine ⟨r, tf, h, by decide,
    (kexec_all_or_nothing h [] (some tinyElf) [] (by decide)).mono ?_⟩
  rintro (_ | argc) t ⟨href, hlocked, hout, hrest⟩
  · exact ⟨href, hlocked, hout, fun _ => hrest.2.2.2.2.2⟩
  · exact ⟨href, hlocked, hout, by simp⟩

/-- With exactly `MAXARG` arguments the element after the last of `ustack` is written. -/
theorem kexec_maxarg : (∃ r tf, Ready firstState 0 r tf) ∧
    (match kexec 0 [] (some tinyElf) (List.replicate maxarg emptyStr) firstState with
      | .ok _ => none
      | .error e => some e) = some "ustack[MAXARG]" :=
  ⟨firstState_ready, by decide +kernel⟩

end

end Xv6.Exec
