import Xv6.Lib.Bag
import Xv6.Fs.Model

/-!
# Block ownership

The blocks of an inode are counted in a multiset, and a ledger compares all blocks in
use with the bitmap. `balloc` and `bfree` move one block in and out of the ledger; what
they, `bmap` and `itrunc` do to one inode is stated against the blocks `R` of all the
others, which stay what they were.
-/

namespace Xv6.Fs

open Eff Bag Function

/-! ## What is logged -/

/-- In a transaction, only blocks with property `P` are passed to `log_write`. -/
structure Log.Adds (P : ℕ → Prop) (l l' : Log) : Prop where
  outstanding : l'.outstanding = l.outstanding
  ended : l'.ended = l.ended
  blocks : ∀ b ∈ l'.blocks, b ∈ l.blocks ∨ P b

/-- A block of the bitmap. -/
def OnBitmap (sb : Superblock) (b : ℕ) : Prop := ∃ a < sb.size, b = bblock sb a

section

variable {P Q : ℕ → Prop} {l l' l'' : Log}

theorem Log.Adds.refl : l.Adds P l := ⟨rfl, rfl, fun _ hb => .inl hb⟩

theorem Log.Adds.trans (h : l.Adds P l') (h' : l'.Adds P l'') : l.Adds P l'' where
  outstanding := h'.outstanding.trans h.outstanding
  ended := h'.ended.trans h.ended
  blocks b hb := (h'.blocks b hb).elim (h.blocks b) .inr

theorem Log.Adds.mono (h : l.Adds P l') (hPQ : ∀ b, P b → Q b) : l.Adds Q l' :=
  ⟨h.outstanding, h.ended, fun b hb => (h.blocks b hb).imp_right (hPQ b)⟩

theorem Log.adds_write {b : ℕ} (hb : P b) : l.Adds P (l.write b) := by
  refine ⟨rfl, rfl, fun x hx => ?_⟩
  rcases List.mem_cons.mp hx with rfl | hx
  · exact .inr hb
  · exact .inl hx

theorem logWrite_spec {s : State} (hout : s.log.outstanding = true) (b : ℕ) :
    Ensures (logWrite b) s fun _ s' => s' = s.logWrite b := by
  unfold logWrite
  apply ensures_get_bind
  rw [if_pos hout]
  exact ensures_modify rfl

end

/-! ## The ledger -/

/-- The block number, if there is one. -/
def nz (a : ℕ) : Multiset ℕ := if a = 0 then 0 else {a}

@[simp] theorem nz_zero : nz 0 = 0 := rfl

theorem nz_of_ne {a : ℕ} (h : a ≠ 0) : nz a = {a} := if_neg h

theorem mem_nz {a b : ℕ} : b ∈ nz a ↔ b = a ∧ a ≠ 0 := by
  unfold nz
  split <;> simp_all

/-- The number of block `bn` of the file; 0 if it has not been allocated. -/
def Dinode.addr (d : Dinode) (blk : ℕ → Block) (bn : ℕ) : ℕ :=
  if bn < ndirect then d.addrs bn
  else if d.addrs ndirect = 0 then 0
  else entry (blk (d.addrs ndirect)) (bn - ndirect)

/-- The block numbers in direct slots, the indirect slot and the indirect block. -/
def Dinode.blocks (d : Dinode) (blk : ℕ → Block) : Multiset ℕ :=
  nz (d.addrs ndirect) + total maxfile fun bn => nz (d.addr blk bn)

/-- The blocks of an inode, if it is allocated. -/
def Dinode.held (d : Dinode) (blk : ℕ → Block) : Multiset ℕ :=
  if d.type = .none then 0 else d.blocks blk

/-- The blocks in use by the first `n` inodes. -/
def used (n : ℕ) (dinode : ℕ → Dinode) (blk : ℕ → Block) : Multiset ℕ :=
  total n fun i => (dinode i).held blk

/-- No block is in use twice, all are data blocks, and the bitmap marks exactly them
and the blocks before the data area. -/
structure Ledger (sb : Superblock) (bitmap : ℕ → Bool) (U : Multiset ℕ) : Prop where
  nodup : U.Nodup
  area : ∀ b ∈ U, sb.dataStart ≤ b ∧ b < sb.size
  bits : ∀ b < sb.size, (bitmap b = true ↔ b < sb.dataStart ∨ b ∈ U)

section

variable {sb : Superblock} {bitmap : ℕ → Bool} {U R : Multiset ℕ} {s : State} {b : ℕ}

theorem Ledger.ne_zero (h : Ledger sb bitmap U) (hb : b ∈ U) : b ≠ 0 := by
  have := (h.area b hb).1
  have := sb.pos
  omega

theorem Ledger.lt (h : Ledger sb bitmap U) (hb : b ∈ U) : b < 2 ^ 32 :=
  lt_of_lt_of_le (h.area b hb).2 sb.size_le

theorem Ledger.alloc (h : Ledger sb bitmap U) (hb : b < sb.size) (hfree : bitmap b = false) :
    Ledger sb (update bitmap b true) (b ::ₘ U) := by
  have hout : ¬ (b < sb.dataStart ∨ b ∈ U) := by
    rw [← h.bits b hb, hfree]
    simp
  rw [not_or] at hout
  constructor
  · exact Multiset.nodup_cons.mpr ⟨hout.2, h.nodup⟩
  · intro x hx
    rcases Multiset.mem_cons.mp hx with rfl | hx
    · exact ⟨by omega, hb⟩
    · exact h.area x hx
  · intro x hx
    by_cases hxb : x = b
    · simp [hxb]
    · simp [hxb, h.bits x hx]

theorem Ledger.free (h : Ledger sb bitmap (b ::ₘ U)) :
    Ledger sb (update bitmap b false) U := by
  obtain ⟨hb, hnodup⟩ := Multiset.nodup_cons.mp h.nodup
  have hstart := (h.area b (by simp)).1
  constructor
  · exact hnodup
  · exact fun x hx => h.area x (by simp [hx])
  · intro x hx
    by_cases hxb : x = b
    · subst hxb
      simp [hb, hstart]
    · simp [hxb, h.bits x hx]

/-- The state after block `a` has been marked and zeroed. -/
@[simps! -fullyApplied disk_dinode disk_bitmap disk_block itable ftable proc log_outstanding]
def State.balloced (sb : Superblock) (s : State) (a : ℕ) : State :=
  (((s.setBit a true).logWrite (bblock sb a)).setBlock a fun _ => 0).logWrite a

theorem balloced_log (sb : Superblock) (s : State) (a : ℕ) (ha : a < sb.size) :
    s.log.Adds (fun b => OnBitmap sb b ∨ b = a) (s.balloced sb a).log :=
  (Log.adds_write (.inl ⟨a, ha, rfl⟩)).trans (Log.adds_write (.inr rfl))

theorem balloc_spec (h : Ledger sb s.disk.bitmap U) (hout : s.log.outstanding = true) :
    Ensures (balloc sb) s fun a s' => (a = 0 ∧ s' = s) ∨
      (a ∉ U ∧ s' = s.balloced sb a ∧ Ledger sb s'.disk.bitmap (a ::ₘ U)) := by
  unfold balloc
  apply ensures_get_bind
  cases hfind : (List.range sb.size).find? fun b => !s.disk.bitmap b with
  | none => exact ensures_pure (.inl ⟨rfl, rfl⟩)
  | some b =>
    have hb : b < sb.size := List.mem_range.mp (List.mem_of_find?_eq_some hfind)
    have hfree : s.disk.bitmap b = false := by simpa using List.find?_some hfind
    have hnew := h.alloc hb hfree
    apply ensures_modify_bind
    refine (logWrite_spec (by exact hout) _).bind fun _ t ht => ?_
    subst ht
    refine Ensures.bind (R := fun _ t => t = s.balloced sb b) ?_ fun _ t ht => ?_
    · exact ensures_modify_bind (logWrite_spec (by exact hout) b)
    · subst ht
      exact ensures_pure (.inr ⟨(Multiset.nodup_cons.mp hnew.nodup).1, rfl, hnew⟩)

theorem bfree_spec (h : Ledger sb s.disk.bitmap (b ::ₘ U)) (hout : s.log.outstanding = true) :
    Ensures (bfree sb b) s fun _ s' => s' = (s.setBit b false).logWrite (bblock sb b) ∧
      Ledger sb s'.disk.bitmap U ∧ s.log.Adds (OnBitmap sb) s'.log := by
  have hlt := (h.area b (by simp)).2
  have hset : s.disk.bitmap b = true := (h.bits b (h.area b (by simp)).2).mpr (by simp)
  unfold bfree
  apply ensures_get_bind
  rw [if_pos hset]
  apply ensures_modify_bind
  refine (logWrite_spec (by exact hout) _).mono fun _ t ht => ?_
  subst ht
  exact ⟨rfl, h.free, Log.adds_write ⟨b, hlt, rfl⟩⟩

end

/-! ## Numbers in an indirect block -/

section

variable {b : Block} {j j' v : ℕ}

theorem entry_setEntry (hv : v < 2 ^ 32) : entry (setEntry b j v) j = v := by
  have h (r : ℕ) (hr : r < 4) : (4 * j + r) / 4 = j ∧ (4 * j + r) % 4 = r := by omega
  have h0 := h 0 (by omega)
  have h1 := h 1 (by omega)
  have h2 := h 2 (by omega)
  have h3 := h 3 (by omega)
  simp only [Nat.add_zero] at h0
  simp only [entry, setEntry, h0, h1, h2, h3, if_true, UInt8.toNat_ofNat']
  omega

theorem entry_setEntry_ne (hj : j' ≠ j) : entry (setEntry b j v) j' = entry b j' := by
  have h (r : ℕ) (hr : r < 4) : ¬ (4 * j' + r) / 4 = j := by omega
  have h0 := h 0 (by omega)
  simp only [Nat.add_zero] at h0
  simp only [entry, setEntry, h0, h 1 (by omega), h 2 (by omega), h 3 (by omega), if_false]

theorem entry_zero : entry (fun _ => 0) j = 0 := rfl

end

/-! ## The block map of an inode -/

section

variable {d d' : Dinode} {blk blk' : ℕ → Block} {bn bn' a : ℕ}

theorem indirect_mem (h : d.addrs ndirect ≠ 0) : d.addrs ndirect ∈ d.blocks blk :=
  Multiset.mem_add.mpr (.inl (mem_nz.mpr ⟨rfl, h⟩))

theorem addr_mem (hbn : bn < maxfile) (h : d.addr blk bn ≠ 0) : d.addr blk bn ∈ d.blocks blk :=
  Multiset.mem_add.mpr (.inr (mem_total.mpr ⟨bn, hbn, mem_nz.mpr ⟨rfl, h⟩⟩))

theorem addr_ne_indirect (hnodup : (d.blocks blk).Nodup) (hbn : bn < maxfile)
    (h : d.addr blk bn ≠ 0) : d.addr blk bn ≠ d.addrs ndirect := by
  intro heq
  have hdisj := (Multiset.nodup_add.mp hnodup).2.2
  refine Multiset.disjoint_left.mp hdisj (mem_nz.mpr ⟨heq, heq ▸ h⟩) ?_
  exact mem_total.mpr ⟨bn, hbn, mem_nz.mpr ⟨rfl, h⟩⟩

theorem addr_inj (hnodup : (d.blocks blk).Nodup) (hbn : bn < maxfile) (hbn' : bn' < maxfile)
    (h : d.addr blk bn ≠ 0) (heq : d.addr blk bn' = d.addr blk bn) : bn' = bn := by
  by_contra hne
  have hle := add_le_total (fun bn => nz (d.addr blk bn)) hbn' hbn hne
  have htwo := Multiset.nodup_of_le hle (Multiset.nodup_add.mp hnodup).2.1
  simp [heq, nz_of_ne h] at htwo

theorem addr_congr (h : d.addrs ndirect ≠ 0 → blk' (d.addrs ndirect) = blk (d.addrs ndirect)) :
    d.addr blk' = d.addr blk := by
  funext bn
  unfold Dinode.addr
  by_cases hind : d.addrs ndirect = 0
  · simp [hind]
  · simp [hind, h hind]

theorem blocks_congr (h : d.addrs ndirect ≠ 0 → blk' (d.addrs ndirect) = blk (d.addrs ndirect)) :
    d.blocks blk' = d.blocks blk := by
  unfold Dinode.blocks
  rw [addr_congr h]

theorem addr_setDirect (d : Dinode) (blk : ℕ → Block) (a : ℕ) (hbn : bn < ndirect) :
    Dinode.addr { d with addrs := update d.addrs bn a } blk =
      update (d.addr blk) bn a := by
  funext bn'
  have hne : ndirect ≠ bn := by omega
  by_cases h : bn' = bn
  · subst h
    simp [Dinode.addr, hbn]
  · simp [Dinode.addr, h, hne]

theorem addr_setIndirect (hind : d.addrs ndirect = 0) (hzero : blk a = fun _ => 0) :
    Dinode.addr { d with addrs := update d.addrs ndirect a } blk = d.addr blk := by
  funext bn
  by_cases h : bn < ndirect
  · simp [Dinode.addr, h, h.ne]
  · simp [Dinode.addr, h, hind, hzero, entry_zero]

theorem addr_setEntry (hind : d.addrs ndirect ≠ 0) (hbn : ndirect ≤ bn) (ha : a < 2 ^ 32) :
    d.addr (update blk (d.addrs ndirect)
      (setEntry (blk (d.addrs ndirect)) (bn - ndirect) a)) =
      update (d.addr blk) bn a := by
  funext bn'
  by_cases h : bn' = bn
  · subst h
    simp [Dinode.addr, hind, hbn.not_gt, entry_setEntry ha]
  · by_cases hdir : bn' < ndirect
    · simp [Dinode.addr, h, hdir]
    · have hj : bn' - ndirect ≠ bn - ndirect := by omega
      simp [Dinode.addr, h, hdir, hind, entry_setEntry_ne hj]

theorem blocks_update (hind : d'.addrs ndirect = d.addrs ndirect)
    (haddr : d'.addr blk' = update (d.addr blk) bn a) (hbn : bn < maxfile) :
    d'.blocks blk' + nz (d.addr blk bn) = d.blocks blk + nz a := by
  unfold Dinode.blocks
  rw [hind, haddr, add_assoc, total_update (d.addr blk) (fun _ => nz) hbn, add_assoc]

end

/-! ## Growing one inode -/

/-- What allocation for the inode of entry `k` and writing to its blocks can change,
when all other blocks in use are `R`. -/
structure Touched (sb : Superblock) (k : ℕ) (R : Multiset ℕ) (s s' : State) : Prop where
  dinode : s'.disk.dinode = s.disk.dinode
  ftable : s'.ftable = s.ftable
  proc : s'.proc = s.proc
  outstanding : s'.log.outstanding = s.log.outstanding
  other : ∀ j, j ≠ k → s'.itable j = s.itable j
  entry : s'.itable k = { s.itable k with copy := { s.copy k with addrs := (s'.copy k).addrs } }
  ledger : Ledger sb s'.disk.bitmap ((s'.copy k).blocks s'.disk.block + R)
  rest : ∀ b ∈ R, s'.disk.block b = s.disk.block b
  keeps : ∀ bn < maxfile, (s.copy k).addr s.disk.block bn ≠ 0 →
    (s'.copy k).addr s'.disk.block bn = (s.copy k).addr s.disk.block bn

/-- Allocation leaves the data alone. -/
structure Grown (sb : Superblock) (k : ℕ) (R : Multiset ℕ) (s s' : State) : Prop
    extends Touched sb k R s s' where
  data : ∀ bn < maxfile, (s.copy k).addr s.disk.block bn ≠ 0 →
    s'.disk.block ((s.copy k).addr s.disk.block bn) =
      s.disk.block ((s.copy k).addr s.disk.block bn)

section

variable {sb : Superblock} {k bn a : ℕ} {R U : Multiset ℕ} {s t u : State}

theorem Touched.refl (h : Ledger sb s.disk.bitmap ((s.copy k).blocks s.disk.block + R)) :
    Touched sb k R s s :=
  ⟨rfl, rfl, rfl, rfl, fun _ _ => rfl, rfl, h, fun _ _ => rfl, fun _ _ _ => rfl⟩

theorem Touched.trans (h : Touched sb k R s t) (h' : Touched sb k R t u) :
    Touched sb k R s u where
  dinode := h'.dinode.trans h.dinode
  ftable := h'.ftable.trans h.ftable
  proc := h'.proc.trans h.proc
  outstanding := h'.outstanding.trans h.outstanding
  other j hj := (h'.other j hj).trans (h.other j hj)
  entry := by
    rw [h'.entry, State.copy, h.entry]
  ledger := h'.ledger
  rest b hb := (h'.rest b hb).trans (h.rest b hb)
  keeps bn hbn hne := by
    have hkeep := h.keeps bn hbn hne
    rw [h'.keeps bn hbn (hkeep ▸ hne), hkeep]

theorem Grown.refl (h : Ledger sb s.disk.bitmap ((s.copy k).blocks s.disk.block + R)) :
    Grown sb k R s s := ⟨Touched.refl h, fun _ _ _ => rfl⟩

theorem Grown.trans (h : Grown sb k R s t) (h' : Grown sb k R t u) : Grown sb k R s u := by
  refine ⟨h.toTouched.trans h'.toTouched, fun bn hbn hne => ?_⟩
  have hkeep := h.keeps bn hbn hne
  have hdata := h'.data bn hbn (hkeep ▸ hne)
  rw [hkeep] at hdata
  rw [hdata, h.data bn hbn hne]

theorem Ledger.nodup_left (h : Ledger sb s.disk.bitmap (U + R)) : U.Nodup :=
  (Multiset.nodup_add.mp h.nodup).1

/-- A block that was not in use is now the inode's, and only it and the indirect block
have changed. -/
theorem grown_of_fresh (h : Ledger sb s.disk.bitmap ((s.copy k).blocks s.disk.block + R))
    (ha : a ∉ (s.copy k).blocks s.disk.block + R)
    (hdinode : t.disk.dinode = s.disk.dinode) (hftable : t.ftable = s.ftable)
    (hproc : t.proc = s.proc) (hout : t.log.outstanding = s.log.outstanding)
    (hother : ∀ j, j ≠ k → t.itable j = s.itable j)
    (hentry : t.itable k = { s.itable k with copy := { s.copy k with addrs := (t.copy k).addrs } })
    (hbit : Ledger sb t.disk.bitmap (a ::ₘ ((s.copy k).blocks s.disk.block + R)))
    (hblocks : (t.copy k).blocks t.disk.block = a ::ₘ (s.copy k).blocks s.disk.block)
    (hsame : ∀ b, b ≠ a → b ≠ (s.copy k).addrs ndirect ∨ (s.copy k).addrs ndirect = 0 →
      t.disk.block b = s.disk.block b)
    (hkeeps : ∀ bn < maxfile, (s.copy k).addr s.disk.block bn ≠ 0 →
      (t.copy k).addr t.disk.block bn = (s.copy k).addr s.disk.block bn) :
    Grown sb k R s t := by
  have hnodup := h.nodup_left
  have hrest : ∀ b ∈ R, t.disk.block b = s.disk.block b := by
    intro b hb
    have hba : b ≠ a := fun heq => ha (Multiset.mem_add.mpr (.inr (heq ▸ hb)))
    refine hsame b hba ?_
    by_contra hind
    push Not at hind
    obtain ⟨heq, hne⟩ := hind
    have hdisj := (Multiset.nodup_add.mp h.nodup).2.2
    exact Multiset.disjoint_left.mp hdisj (indirect_mem hne) (heq ▸ hb)
  refine ⟨⟨hdinode, hftable, hproc, hout, hother, hentry, ?_, hrest, hkeeps⟩, ?_⟩
  · rw [hblocks, Multiset.cons_add]
    exact hbit
  · intro bn hbn hne
    have hmem := addr_mem hbn hne
    refine hsame _ ?_ (.inl (addr_ne_indirect hnodup hbn hne))
    intro heq
    exact ha (Multiset.mem_add.mpr (.inl (heq ▸ hmem)))

/-- The three places in `bmap` that allocate when the number at hand is 0. -/
theorem allocIfZero_spec {cur : ℕ} {store : ℕ → M Unit} {Q : ℕ → State → Prop}
    (h : Ledger sb s.disk.bitmap U) (hout : s.log.outstanding = true)
    (hcur : cur ≠ 0 → Q cur s) (hnone : cur = 0 → Q 0 s)
    (hnew : cur = 0 → ∀ a, a ∉ U → Ledger sb (update s.disk.bitmap a true) (a ::ₘ U) →
      Ensures (store a) (s.balloced sb a) fun _ s' => Q a s') :
    Ensures (allocIfZero sb cur store) s Q := by
  unfold allocIfZero
  by_cases hc : cur = 0
  · rw [if_neg (by simpa using hc)]
    refine (balloc_spec h hout).bind fun a s' hpost => ?_
    rcases hpost with ⟨rfl, rfl⟩ | ⟨ha, rfl, hledger⟩
    · exact ensures_pure (hnone hc)
    · rw [if_neg (hledger.ne_zero (by simp))]
      exact (hnew hc a ha hledger).bind fun _ s' hq => ensures_pure hq
  · rw [if_pos hc]
    exact ensures_pure (hcur hc)

theorem allocIfZero_of_ne {cur : ℕ} {store : ℕ → M Unit} (h : cur ≠ 0) :
    allocIfZero sb cur store = pure cur := if_pos h

theorem bmap_mapped (hbn : bn < maxfile) (h : (s.copy k).addr s.disk.block bn ≠ 0) :
    Ensures (bmap sb k bn) s fun a s' => a = (s.copy k).addr s.disk.block bn ∧ s' = s := by
  unfold bmap
  apply ensures_get_bind
  unfold Dinode.addr at h ⊢
  by_cases hdir : bn < ndirect
  · rw [if_pos hdir] at h ⊢
    rw [if_pos hdir, allocIfZero_of_ne h]
    exact ensures_pure ⟨rfl, rfl⟩
  · have hlt : bn - ndirect < nindirect := by unfold maxfile at hbn; omega
    rw [if_neg hdir] at h ⊢
    by_cases hind : (s.copy k).addrs ndirect = 0
    · simp [hind] at h
    · rw [if_neg hind] at h ⊢
      rw [if_neg hdir, if_pos hlt, allocIfZero_of_ne hind]
      refine (ensures_pure (Q := fun a s' => a = (s.copy k).addrs ndirect ∧ s' = s)
        ⟨rfl, rfl⟩).bind fun a s' hpost => ?_
      obtain ⟨rfl, rfl⟩ := hpost
      rw [if_neg hind]
      apply ensures_get_bind
      rw [allocIfZero_of_ne h]
      exact ensures_pure ⟨rfl, rfl⟩

theorem addr_direct (hbn : bn < ndirect) (ha : a ∉ (s.copy k).blocks s.disk.block + R) :
    (((s.balloced sb a).setAddr k bn a).copy k).addr
        ((s.balloced sb a).setAddr k bn a).disk.block =
      update ((s.copy k).addr s.disk.block) bn a := by
  have hind : (s.copy k).addrs ndirect ≠ 0 → (s.copy k).addrs ndirect ≠ a := by
    rintro hne rfl
    exact ha (Multiset.mem_add.mpr (.inl (indirect_mem hne)))
  have hcongr : (s.copy k).addr (update s.disk.block a fun _ => 0) =
      (s.copy k).addr s.disk.block := addr_congr fun hne => by simp [hind hne]
  rw [← hcongr, ← addr_setDirect _ _ _ hbn]
  simp [State.copy]

theorem grown_direct (h : Ledger sb s.disk.bitmap ((s.copy k).blocks s.disk.block + R))
    (hbn : bn < ndirect) (hz : (s.copy k).addrs bn = 0)
    (ha : a ∉ (s.copy k).blocks s.disk.block + R)
    (hbit : Ledger sb (update s.disk.bitmap a true)
      (a ::ₘ ((s.copy k).blocks s.disk.block + R)))
    (ht : t = (s.balloced sb a).setAddr k bn a) :
    Grown sb k R s t ∧ (t.copy k).addr t.disk.block bn = a := by
  have hmax : bn < maxfile := by unfold maxfile; omega
  have haddr : (t.copy k).addr t.disk.block =
      update ((s.copy k).addr s.disk.block) bn a := ht ▸ addr_direct hbn ha
  have hzero : (s.copy k).addr s.disk.block bn = 0 := by simpa [Dinode.addr, hbn] using hz
  have hblocks := blocks_update
    (show (t.copy k).addrs ndirect = _ by simp [ht, State.copy, hbn.ne']) haddr hmax
  rw [hzero, nz_zero, add_zero, nz_of_ne (hbit.ne_zero (by simp)), add_comm,
    Multiset.singleton_add] at hblocks
  refine ⟨grown_of_fresh h ha ?_ ?_ ?_ ?_ ?_ ?_ ?_ hblocks ?_ ?_, by simp [haddr]⟩
  · simp [ht]
  · simp [ht]
  · simp [ht]
  · simp [ht]
  · intro j hj
    simp [ht, hj]
  · simp [ht, State.copy]
  · simpa [ht] using hbit
  · intro b hb _
    simp [ht, hb]
  · intro bn' hbn' hne
    have : bn' ≠ bn := by rintro rfl; exact hne hzero
    simp [haddr, this]

theorem addr_indirect (hz : (s.copy k).addrs ndirect = 0) :
    (((s.balloced sb a).setAddr k ndirect a).copy k).addr
        ((s.balloced sb a).setAddr k ndirect a).disk.block =
      (s.copy k).addr s.disk.block := by
  have hcongr : (s.copy k).addr (update s.disk.block a fun _ => 0) =
      (s.copy k).addr s.disk.block := addr_congr fun hne => absurd hz hne
  have hfresh : update s.disk.block a (fun _ => 0) a = fun _ => 0 := by simp
  rw [← hcongr]
  simpa [State.copy] using addr_setIndirect hz hfresh

theorem grown_indirect (h : Ledger sb s.disk.bitmap ((s.copy k).blocks s.disk.block + R))
    (hz : (s.copy k).addrs ndirect = 0) (ha : a ∉ (s.copy k).blocks s.disk.block + R)
    (hbit : Ledger sb (update s.disk.bitmap a true)
      (a ::ₘ ((s.copy k).blocks s.disk.block + R)))
    (ht : t = (s.balloced sb a).setAddr k ndirect a) :
    Grown sb k R s t ∧ (t.copy k).addrs ndirect = a := by
  have haddr : (t.copy k).addr t.disk.block = (s.copy k).addr s.disk.block :=
    ht ▸ addr_indirect hz
  have hnew : (t.copy k).addrs ndirect = a := by simp [ht, State.copy]
  have hblocks : (t.copy k).blocks t.disk.block = a ::ₘ (s.copy k).blocks s.disk.block := by
    unfold Dinode.blocks
    rw [haddr, hnew, hz, nz_zero, zero_add, nz_of_ne (hbit.ne_zero (by simp)),
      Multiset.singleton_add]
  refine ⟨grown_of_fresh h ha ?_ ?_ ?_ ?_ ?_ ?_ ?_ hblocks ?_ ?_, hnew⟩
  · simp [ht]
  · simp [ht]
  · simp [ht]
  · simp [ht]
  · intro j hj
    simp [ht, hj]
  · simp [ht, State.copy]
  · simpa [ht] using hbit
  · intro b hb _
    simp [ht, hb]
  · intro bn' _ _
    rw [haddr]

/-- The state after a fresh block has been entered in the indirect block `ind`. -/
def State.entered (sb : Superblock) (s : State) (ind j a : ℕ) : State :=
  ((s.balloced sb a).setBlock ind (setEntry ((s.balloced sb a).disk.block ind) j a)).logWrite ind

theorem addr_entered (hbn : ndirect ≤ bn) (hind : (s.copy k).addrs ndirect ≠ 0)
    (ha : a ∉ (s.copy k).blocks s.disk.block + R) (hlt : a < 2 ^ 32) :
    ((s.entered sb ((s.copy k).addrs ndirect) (bn - ndirect) a).copy k).addr
        (s.entered sb ((s.copy k).addrs ndirect) (bn - ndirect) a).disk.block =
      update ((s.copy k).addr s.disk.block) bn a := by
  have hne : (s.copy k).addrs ndirect ≠ a := by
    rintro rfl
    exact ha (Multiset.mem_add.mpr (.inl (indirect_mem hind)))
  have hcongr : (s.copy k).addr (update s.disk.block a fun _ => 0) =
      (s.copy k).addr s.disk.block := addr_congr fun _ => by simp [hne]
  rw [← hcongr, ← addr_setEntry hind hbn hlt]
  simp [State.copy, State.entered]

theorem grown_entry (h : Ledger sb s.disk.bitmap ((s.copy k).blocks s.disk.block + R))
    (hbn : ndirect ≤ bn) (hmax : bn < maxfile) (hind : (s.copy k).addrs ndirect ≠ 0)
    (hz : entry (s.disk.block ((s.copy k).addrs ndirect)) (bn - ndirect) = 0)
    (ha : a ∉ (s.copy k).blocks s.disk.block + R)
    (hbit : Ledger sb (update s.disk.bitmap a true)
      (a ::ₘ ((s.copy k).blocks s.disk.block + R)))
    (ht : t = s.entered sb ((s.copy k).addrs ndirect) (bn - ndirect) a) :
    Grown sb k R s t ∧ (t.copy k).addr t.disk.block bn = a := by
  have haddr : (t.copy k).addr t.disk.block =
      update ((s.copy k).addr s.disk.block) bn a :=
    ht ▸ addr_entered hbn hind ha (hbit.lt (by simp))
  unfold State.entered at ht
  have hzero : (s.copy k).addr s.disk.block bn = 0 := by
    simpa [Dinode.addr, hbn.not_gt, hind] using hz
  have hblocks := blocks_update
    (show (t.copy k).addrs ndirect = _ by simp [ht, State.copy]) haddr hmax
  rw [hzero, nz_zero, add_zero, nz_of_ne (hbit.ne_zero (by simp)), add_comm,
    Multiset.singleton_add] at hblocks
  refine ⟨grown_of_fresh h ha ?_ ?_ ?_ ?_ ?_ ?_ ?_ hblocks ?_ ?_, by simp [haddr]⟩
  · simp [ht]
  · simp [ht]
  · simp [ht]
  · simp [ht]
  · intro j _
    simp [ht]
  · simp [ht, State.copy]
  · simpa [ht] using hbit
  · intro b hb hb'
    rcases hb' with hb' | hb'
    · simp [ht, hb, hb']
    · exact absurd hb' hind
  · intro bn' hbn' hne
    have : bn' ≠ bn := by rintro rfl; exact hne hzero
    simp [haddr, this]

theorem bmap_spec (h : Ledger sb s.disk.bitmap ((s.copy k).blocks s.disk.block + R))
    (hout : s.log.outstanding = true) (hbn : bn < maxfile) :
    Ensures (bmap sb k bn) s fun a s' =>
      Grown sb k R s s' ∧ (a ≠ 0 → (s'.copy k).addr s'.disk.block bn = a) ∧
      ∃ ind, s.log.Adds (fun b => OnBitmap sb b ∨ b = ind ∨ b = a) s'.log := by
  unfold bmap
  apply ensures_get_bind
  by_cases hdir : bn < ndirect
  · rw [if_pos hdir]
    refine allocIfZero_spec h hout ?_ ?_ ?_
    · intro _
      exact ⟨Grown.refl h, fun _ => by simp [Dinode.addr, hdir, State.copy], 0, .refl⟩
    · intro _
      exact ⟨Grown.refl h, fun hne => absurd rfl hne, 0, .refl⟩
    · intro hz a ha hbit
      apply ensures_modify
      obtain ⟨hgrown, haddr⟩ := grown_direct h hdir hz ha hbit rfl
      have hlog := balloced_log sb s a (hbit.area a (by simp)).2
      exact ⟨hgrown, fun _ => haddr, 0, hlog.mono fun b hb => hb.imp_right .inr⟩
  · have hlt : bn - ndirect < nindirect := by unfold maxfile at hbn; omega
    rw [if_neg hdir, if_pos hlt]
    refine Ensures.bind (R := fun ind t => Grown sb k R s t ∧
      (ind ≠ 0 → (t.copy k).addrs ndirect = ind) ∧
      s.log.Adds (fun b => OnBitmap sb b ∨ b = ind) t.log) (allocIfZero_spec h hout ?_ ?_ ?_) ?_
    · intro _
      exact ⟨Grown.refl h, fun _ => rfl, .refl⟩
    · intro _
      exact ⟨Grown.refl h, fun hne => absurd rfl hne, .refl⟩
    · intro hz a ha hbit
      apply ensures_modify
      obtain ⟨hgrown, hind⟩ := grown_indirect h hz ha hbit rfl
      exact ⟨hgrown, fun _ => hind, balloced_log sb s a (hbit.area a (by simp)).2⟩
    · rintro ind t ⟨hgrown, hind, hlog⟩
      have hlog' (a : ℕ) : s.log.Adds (fun b => OnBitmap sb b ∨ b = ind ∨ b = a) t.log :=
        hlog.mono fun b hb => hb.imp_right .inl
      by_cases hzero : ind = 0
      · rw [if_pos hzero]
        exact ensures_pure ⟨hgrown, fun hne => absurd rfl hne, ind, hlog' _⟩
      · obtain rfl := hind hzero
        rw [if_neg hzero]
        apply ensures_get_bind
        have hout' : t.log.outstanding = true := hlog.outstanding.trans hout
        refine allocIfZero_spec hgrown.ledger hout' ?_ ?_ ?_
        · intro _
          exact ⟨hgrown, fun _ => by simp [Dinode.addr, hdir, hzero], _, hlog' _⟩
        · intro _
          exact ⟨hgrown, fun hne => absurd rfl hne, _, hlog' _⟩
        · intro hz a ha hbit
          apply ensures_modify_bind
          refine (logWrite_spec (by exact hout') _).mono fun _ u hu => ?_
          subst hu
          obtain ⟨hgrown', haddr⟩ := grown_entry hgrown.ledger (Nat.not_lt.mp hdir) hbn hzero hz
            ha hbit rfl
          refine ⟨hgrown.trans hgrown', fun _ => haddr, (t.copy k).addrs ndirect, ?_⟩
          have hfresh := balloced_log sb t a (hbit.area a (by simp)).2
          exact (hlog' a).trans ((hfresh.mono fun b hb => hb.imp_right .inr).trans
            (Log.adds_write (.inr (.inl rfl))))

end

/-! ## Truncating one inode -/

/-- Only the addresses in the copy of entry `k` and the bitmap have changed. -/
structure Freed (sb : Superblock) (k : ℕ) (s s' : State) : Prop where
  dinode : s'.disk.dinode = s.disk.dinode
  block : s'.disk.block = s.disk.block
  ftable : s'.ftable = s.ftable
  proc : s'.proc = s.proc
  other : ∀ j, j ≠ k → s'.itable j = s.itable j
  entry : s'.itable k = { s.itable k with copy := { s.copy k with addrs := (s'.copy k).addrs } }
  log : s.log.Adds (OnBitmap sb) s'.log

section

variable {sb : Superblock} {k bn a i : ℕ} {R U : Multiset ℕ} {s t u : State}

theorem Freed.refl : Freed sb k s s := ⟨rfl, rfl, rfl, rfl, fun _ _ => rfl, rfl, .refl⟩

theorem Freed.trans (h : Freed sb k s t) (h' : Freed sb k t u) : Freed sb k s u where
  dinode := h'.dinode.trans h.dinode
  block := h'.block.trans h.block
  ftable := h'.ftable.trans h.ftable
  proc := h'.proc.trans h.proc
  other j hj := (h'.other j hj).trans (h.other j hj)
  entry := by
    rw [h'.entry, State.copy, h.entry]
  log := h.log.trans h'.log

theorem freed_bfree (h : s.log.Adds (OnBitmap sb)
    ((s.setBit a false).logWrite (bblock sb a)).log) :
    Freed sb k s ((s.setBit a false).logWrite (bblock sb a)) :=
  ⟨rfl, rfl, rfl, rfl, fun _ _ => rfl, rfl, h⟩

theorem freed_setAddr : Freed sb k s (s.setAddr k bn a) :=
  ⟨rfl, rfl, rfl, rfl, fun j hj => by simp [hj], by simp [State.copy], .refl⟩

theorem freeDirect_spec (h : Ledger sb s.disk.bitmap ((s.copy k).blocks s.disk.block + R))
    (hout : s.log.outstanding = true) (hi : i < ndirect) :
    Ensures (freeDirect sb k i) s fun _ s' => Freed sb k s s' ∧
      Ledger sb s'.disk.bitmap ((s'.copy k).blocks s'.disk.block + R) ∧
      (s'.copy k).addrs = update (s.copy k).addrs i 0 := by
  unfold freeDirect
  apply ensures_get_bind
  by_cases hz : (s.copy k).addrs i = 0
  · rw [if_neg (by simpa using hz)]
    exact ensures_pure ⟨Freed.refl, h, by simp [hz]⟩
  · rw [if_pos hz]
    -- the blocks before are the freed one and those that remain
    have hmax : i < maxfile := by unfold maxfile; omega
    have haddr := addr_setDirect (s.copy k) s.disk.block 0 hi
    have hblocks := blocks_update (d := s.copy k) (by simp [hi.ne']) haddr hmax
    have hold : (s.copy k).addr s.disk.block i = (s.copy k).addrs i := by
      simp [Dinode.addr, hi]
    rw [hold, nz_of_ne hz, nz_zero, add_zero, add_comm, Multiset.singleton_add] at hblocks
    rw [← hblocks, Multiset.cons_add] at h
    refine (bfree_spec h hout).bind fun _ t ht => ?_
    obtain ⟨rfl, hledger, hlog⟩ := ht
    apply ensures_modify
    refine ⟨(freed_bfree hlog).trans freed_setAddr, ?_, by simp [State.copy]⟩
    simpa [State.copy] using hledger

theorem freeDirects_spec (h : Ledger sb s.disk.bitmap ((s.copy k).blocks s.disk.block + R))
    (hout : s.log.outstanding = true) :
    Ensures (forUpto (freeDirect sb k) ndirect) s fun _ s' => Freed sb k s s' ∧
      Ledger sb s'.disk.bitmap ((s'.copy k).blocks s'.disk.block + R) ∧
      ∀ j < ndirect, (s'.copy k).addrs j = 0 := by
  refine ensures_forUpto (I := fun i s' => Freed sb k s s' ∧
    Ledger sb s'.disk.bitmap ((s'.copy k).blocks s'.disk.block + R) ∧
    ∀ j < i, (s'.copy k).addrs j = 0) ⟨Freed.refl, h, by simp⟩ ?_
  rintro i hi t ⟨hfreed, hledger, hzero⟩
  refine (freeDirect_spec hledger (hfreed.log.outstanding.trans hout) hi).mono fun _ u hu => ?_
  obtain ⟨hfreed', hledger', haddrs⟩ := hu
  refine ⟨hfreed.trans hfreed', hledger', fun j hj => ?_⟩
  rw [haddrs]
  by_cases hji : j = i
  · simp [hji]
  · simpa [hji] using hzero j (by omega)

/-- The blocks that remain after the first `i` entries of the indirect block. -/
def remaining (d : Dinode) (blk : ℕ → Block) (i : ℕ) : Multiset ℕ :=
  total maxfile fun bn => if bn < ndirect + i then 0 else nz (d.addr blk bn)

theorem remaining_succ {d : Dinode} {blk : ℕ → Block} (hi : i < nindirect) :
    remaining d blk i = remaining d blk (i + 1) + nz (d.addr blk (ndirect + i)) := by
  have hmax : ndirect + i < maxfile := by unfold maxfile; omega
  have h := total_change (f := fun bn => if bn < ndirect + i then 0 else nz (d.addr blk bn))
    (g := fun bn => if bn < ndirect + (i + 1) then 0 else nz (d.addr blk bn)) hmax
    fun j _ hj => by simp only [show j < ndirect + (i + 1) ↔ j < ndirect + i by omega]
  simp only [lt_irrefl, if_false, show ndirect + i < ndirect + (i + 1) by omega, if_true,
    add_zero] at h
  exact h.symm

theorem remaining_end (d : Dinode) (blk : ℕ → Block) : remaining d blk nindirect = 0 :=
  total_zero fun _ hbn => if_pos hbn

theorem freeEntries_spec {ind : ℕ} (hind : (s.copy k).addrs ndirect = ind) (hne : ind ≠ 0)
    (h : Ledger sb s.disk.bitmap (remaining (s.copy k) s.disk.block 0 + U))
    (hout : s.log.outstanding = true) :
    Ensures (forUpto (freeEntry sb ind) nindirect) s fun _ s' => Freed sb k s s' ∧
      s'.itable = s.itable ∧ Ledger sb s'.disk.bitmap U := by
  refine (ensures_forUpto (I := fun i s' => Freed sb k s s' ∧ s'.itable = s.itable ∧
    Ledger sb s'.disk.bitmap (remaining (s.copy k) s.disk.block i + U))
    ⟨Freed.refl, rfl, h⟩ ?_).mono ?_
  · rintro i hi t ⟨hfreed, htable, hledger⟩
    have haddr : (s.copy k).addr s.disk.block (ndirect + i) = entry (t.disk.block ind) i := by
      simp [Dinode.addr, hind, hne, hfreed.block]
    rw [remaining_succ hi, haddr] at hledger
    unfold freeEntry
    apply ensures_get_bind
    by_cases hz : entry (t.disk.block ind) i = 0
    · rw [if_neg (by simpa using hz)]
      rw [hz, nz_zero, add_zero] at hledger
      exact ensures_pure ⟨hfreed, htable, hledger⟩
    · rw [if_pos hz]
      rw [nz_of_ne hz, add_comm (remaining _ _ _), Multiset.singleton_add,
        Multiset.cons_add] at hledger
      refine (bfree_spec hledger (hfreed.log.outstanding.trans hout)).mono fun _ u hu => ?_
      obtain ⟨rfl, hu, hlog⟩ := hu
      exact ⟨hfreed.trans (freed_bfree hlog), htable, hu⟩
  · rintro _ t ⟨hfreed, htable, hledger⟩
    rw [remaining_end, zero_add] at hledger
    exact ⟨hfreed, htable, hledger⟩

theorem freeIndirect_spec (h : Ledger sb s.disk.bitmap ((s.copy k).blocks s.disk.block + R))
    (hout : s.log.outstanding = true) (hzero : ∀ j < ndirect, (s.copy k).addrs j = 0) :
    Ensures (freeIndirect sb k) s fun _ s' => Freed sb k s s' ∧ Ledger sb s'.disk.bitmap R ∧
      ∀ j ≤ ndirect, (s'.copy k).addrs j = 0 := by
  have hsplit : (s.copy k).blocks s.disk.block =
      nz ((s.copy k).addrs ndirect) + remaining (s.copy k) s.disk.block 0 := by
    unfold Dinode.blocks remaining
    congr 1
    refine total_congr fun bn _ => ?_
    by_cases hbn : bn < ndirect
    · simp [hbn, Dinode.addr, hzero bn hbn]
    · simp [hbn]
  unfold freeIndirect
  apply ensures_get_bind
  by_cases hz : (s.copy k).addrs ndirect = 0
  · rw [if_neg (by simpa using hz)]
    have hnone : remaining (s.copy k) s.disk.block 0 = 0 := by
      refine total_zero fun bn _ => ?_
      by_cases hbn : bn < ndirect <;> simp [hbn, Dinode.addr, hz]
    rw [hsplit, hz, nz_zero, hnone, add_zero, zero_add] at h
    refine ensures_pure ⟨Freed.refl, h, fun j hj => ?_⟩
    rcases hj.lt_or_eq with hj | rfl
    · exact hzero j hj
    · exact hz
  · rw [if_pos hz]
    rw [hsplit, nz_of_ne hz, Multiset.singleton_add, Multiset.cons_add,
      ← Multiset.add_cons] at h
    refine (freeEntries_spec rfl hz h hout).bind fun _ t ht => ?_
    obtain ⟨hfreed, htable, hledger⟩ := ht
    refine (bfree_spec hledger (hfreed.log.outstanding.trans hout)).bind fun _ u hu => ?_
    obtain ⟨rfl, hledger, hlog⟩ := hu
    apply ensures_modify
    refine ⟨(hfreed.trans (freed_bfree hlog)).trans freed_setAddr, hledger, fun j hj => ?_⟩
    by_cases hj' : j = ndirect
    · simp [State.copy, hj']
    · simpa [State.copy, hj', htable] using hzero j (by omega)

/-- The state after `iupdate` of a changed copy. -/
def State.changed (sb : Superblock) (s : State) (ip : ℕ) (f : Dinode → Dinode) : State :=
  ((s.setCopy ip f).setDinode (s.itable ip).inum (f (s.copy ip))).logWrite
    (iblock sb (s.itable ip).inum)

section

variable (sb : Superblock) (s : State) (ip : ℕ) (f : Dinode → Dinode)

@[simp] theorem changed_dinode : (s.changed sb ip f).disk.dinode =
    update s.disk.dinode (s.itable ip).inum (f (s.copy ip)) := rfl
@[simp] theorem changed_bitmap : (s.changed sb ip f).disk.bitmap = s.disk.bitmap := rfl
@[simp] theorem changed_block : (s.changed sb ip f).disk.block = s.disk.block := rfl
@[simp] theorem changed_itable : (s.changed sb ip f).itable =
    update s.itable ip { s.itable ip with copy := f (s.copy ip) } := rfl
@[simp] theorem changed_ftable : (s.changed sb ip f).ftable = s.ftable := rfl
@[simp] theorem changed_proc : (s.changed sb ip f).proc = s.proc := rfl

theorem changed_log : s.log.Adds (· = iblock sb (s.itable ip).inum) (s.changed sb ip f).log :=
  Log.adds_write rfl

end

theorem change_spec (hout : s.log.outstanding = true) (ip : ℕ) (f : Dinode → Dinode) :
    Ensures (change sb ip f) s fun _ s' => s' = s.changed sb ip f := by
  unfold change iupdate
  apply ensures_modify_bind
  apply ensures_get_bind
  apply ensures_modify_bind
  refine (logWrite_spec (by exact hout) _).mono fun _ t ht => ?_
  simp [ht, State.changed, State.copy]

theorem itrunc_spec (h : Ledger sb s.disk.bitmap ((s.copy k).blocks s.disk.block + R))
    (hout : s.log.outstanding = true) :
    Ensures (itrunc sb k) s fun _ s' => ∃ t, Freed sb k s t ∧ Ledger sb t.disk.bitmap R ∧
      (∀ j ≤ ndirect, (t.copy k).addrs j = 0) ∧
      s' = t.changed sb k fun d => { d with size := 0 } := by
  unfold itrunc
  refine (freeDirects_spec h hout).bind fun _ t ht => ?_
  obtain ⟨hfreed, hledger, hzero⟩ := ht
  refine (freeIndirect_spec hledger (hfreed.log.outstanding.trans hout) hzero).bind fun _ u hu => ?_
  obtain ⟨hfreed', hledger', hzero'⟩ := hu
  have hall := hfreed.trans hfreed'
  refine (change_spec (hall.log.outstanding.trans hout) k _).mono fun _ s' hs' => ?_
  exact ⟨u, hall, hledger', hzero', hs'⟩

end

end Xv6.Fs
