import Xv6.Fs.Bytes

/-!
# Reclaiming orphaned inodes

`ireclaim` goes over the inodes of the disk and frees those that no directory names. It
frees exactly them: all others keep their inodes and their blocks, and a second run finds
nothing to do.
-/

namespace Xv6.Fs

open Eff Bag Function

/-- An inode that is allocated and has no links. Number 0 is not an inode. -/
def Disk.Orphan (sb : Superblock) (d : Disk) (i : ℕ) : Prop :=
  0 < i ∧ i < sb.ninodes ∧ (d.dinode i).type ≠ .none ∧ (d.dinode i).nlink = 0

/-- From `s` to `t` the inodes in `P` have been freed. -/
structure Swept (sb : Superblock) (P : ℕ → Prop) (s t : State) : Prop where
  block : t.disk.block = s.disk.block
  freed : ∀ i, P i → (t.disk.dinode i).type = .none
  kept : ∀ i, ¬ P i → t.disk.dinode i = s.disk.dinode i
  owned : Ledger sb t.disk.bitmap (used sb.ninodes t.disk.dinode t.disk.block)
  ref : ∀ k, (t.itable k).ref = (s.itable k).ref
  busy : ∀ k, 0 < (s.itable k).ref → t.itable k = s.itable k
  ftable : t.ftable = s.ftable
  proc : t.proc = s.proc
  log : sb.size ≤ bpb → s.log.Fits t.log

section

variable {sb : Superblock} {P P' : ℕ → Prop} {d : Disk} {s t u : State} {i k : ℕ}

theorem Swept.refl (h : Ledger sb s.disk.bitmap (used sb.ninodes s.disk.dinode s.disk.block)) :
    Swept sb (fun _ => False) s s where
  block := rfl
  freed _ hi := hi.elim
  kept _ _ := rfl
  owned := h
  ref _ := rfl
  busy _ _ := rfl
  ftable := rfl
  proc := rfl
  log _ := .refl

theorem Swept.trans (h : Swept sb P s t) (h' : Swept sb P' t u) :
    Swept sb (fun i => P i ∨ P' i) s u where
  block := h'.block.trans h.block
  freed i hi := by
    by_cases hlate : P' i
    · exact h'.freed i hlate
    · rw [h'.kept i hlate]
      exact h.freed i (hi.resolve_right hlate)
  kept i hi := by
    rw [not_or] at hi
    exact (h'.kept i hi.2).trans (h.kept i hi.1)
  owned := h'.owned
  ref k := (h'.ref k).trans (h.ref k)
  busy k hk := (h'.busy k (by rwa [h.ref k])).trans (h.busy k hk)
  ftable := h'.ftable.trans h.ftable
  proc := h'.proc.trans h.proc
  log hsize := (h.log hsize).trans (h'.log hsize)

theorem Swept.congr (h : Swept sb P s t) (hP : ∀ i, P' i ↔ P i) : Swept sb P' s t := by
  rwa [show P' = P from funext fun i => propext (hP i)]

/-! ## One inode -/

theorem iget_fresh (hnone : ∀ k, 0 < (s.itable k).ref → (s.itable k).inum ≠ i)
    (hfree : ∃ k < ninode, (s.itable k).ref = 0) :
    Ensures (iget i) s fun k t => (s.itable k).ref = 0 ∧
      t = s.setInode k fun e => { e with inum := i, ref := 1, valid := false } := by
  unfold iget
  apply ensures_get_bind
  have hmiss : (List.range ninode).find? (fun k =>
      decide (0 < (s.itable k).ref) && (s.itable k).inum == i) = none := by
    rw [List.find?_eq_none]
    intro k _
    simpa using hnone k
  rw [hmiss]
  dsimp only
  cases hempty : (List.range ninode).find? fun k => (s.itable k).ref == 0 with
  | some k =>
    apply ensures_modify_bind
    exact ensures_pure ⟨by simpa using List.find?_some hempty, rfl⟩
  | none =>
    obtain ⟨k, hk, href⟩ := hfree
    have := List.find?_eq_none.mp hempty k (List.mem_range.mpr hk)
    exact absurd href (by simpa using this)

theorem ilock_fresh (htype : (s.disk.dinode i).type ≠ .none) :
    Ensures (ilock k) (s.setInode k fun e => { e with inum := i, ref := 1, valid := false }).begun
      fun _ t => t = (s.setInode k fun e =>
        { e with inum := i, ref := 1, valid := true, copy := s.disk.dinode i }).begun := by
  unfold ilock
  apply ensures_get_bind
  have hentry : (s.setInode k fun e =>
      { e with inum := i, ref := 1, valid := false }).begun.itable k =
        { s.itable k with inum := i, ref := 1, valid := false } := by simp [State.begun]
  rw [hentry]
  dsimp only
  rw [if_neg (by decide), if_neg (by decide)]
  apply ensures_modify_bind
  rw [if_neg (by simpa [State.begun] using htype)]
  apply ensures_pure
  simp [State.begun, State.setInode]

theorem reclaim_orphan
    (howned : Ledger sb s.disk.bitmap (used sb.ninodes s.disk.dinode s.disk.block))
    (hi : s.disk.Orphan sb i) (hnone : ∀ k, 0 < (s.itable k).ref → (s.itable k).inum ≠ i)
    (hfree : ∃ k < ninode, (s.itable k).ref = 0) :
    Ensures (reclaim sb i) s fun _ t => Swept sb (· = i) s t := by
  obtain ⟨-, hlt, htype, hnlink⟩ := hi
  obtain ⟨R, hR⟩ := exists_rest (s := s) hlt
  unfold reclaim
  apply ensures_get_bind
  rw [if_pos ⟨htype, hnlink⟩]
  refine (iget_fresh hnone hfree).bind ?_
  rintro k u ⟨href, rfl⟩
  apply ensures_transaction
  unfold reclaimOp
  refine (ilock_fresh htype).bind ?_
  rintro _ v rfl
  generalize hv : (s.setInode k fun e =>
    { e with inum := i, ref := 1, valid := true, copy := s.disk.dinode i }).begun = v
  have hentry : v.itable k =
      { s.itable k with inum := i, ref := 1, valid := true, copy := s.disk.dinode i } := by
    simp [← hv, State.begun]
  have hother : ∀ l, l ≠ k → v.itable l = s.itable l := fun l hl => by
    simp [← hv, State.begun, hl]
  have hdisk : v.disk = s.disk := by rw [← hv]; rfl
  have hledger : Ledger sb v.disk.bitmap ((v.copy k).blocks v.disk.block + R) := by
    rw [hR, Dinode.held, if_neg htype] at howned
    rwa [State.copy, hentry, hdisk]
  have hout : v.log.outstanding = true := by rw [← hv]; rfl
  unfold iput
  apply ensures_get_bind
  rw [if_pos ⟨by rw [hentry], by rw [hentry], by rw [State.copy, hentry]; exact hnlink⟩]
  refine (ifree_spec hledger hout).bind fun _ w hw => ?_
  obtain ⟨dn, hdn, hrep, hentryw, hblock, hlog⟩ := hw
  have hinum : (v.itable k).inum = i := by rw [hentry]
  rw [hinum] at hrep hlog
  have hdinode : w.disk.dinode = update s.disk.dinode i dn := by
    rw [hrep.dinode, hdisk]
  apply ensures_modify
  exact {
    block := by
      rw [← hdisk]
      exact hblock
    freed := by
      rintro _ rfl
      change (w.disk.dinode _).type = _
      rw [hdinode, update_self]
      exact hdn
    kept := by
      intro j hj
      change w.disk.dinode j = _
      rw [hdinode, update_of_ne hj]
    owned := by
      change Ledger sb w.disk.bitmap (used _ w.disk.dinode w.disk.block)
      rw [hdinode, hR.used_update hlt (fun b _ => by rw [hblock, hdisk])]
      exact hrep.ledger
    ref := by
      intro l
      by_cases hl : l = k
      · subst hl
        simp [State.ended, hentryw, hentry, href]
      · simp [State.ended, hl, hrep.other l hl, hother l hl]
    busy := by
      intro l hpos
      have hl : l ≠ k := by
        rintro rfl
        omega
      simp [State.ended, hl, hrep.other l hl, hother l hl]
    ftable := by
      refine hrep.ftable.trans ?_
      rw [← hv]
      rfl
    proc := by
      refine hrep.proc.trans ?_
      rw [← hv]
      rfl
    log := by
      intro hsize
      have hbegun : v.log = s.log.beginOp := by rw [← hv]; rfl
      rw [hbegun] at hlog
      exact (Log.Few.one hlog.few (by decide)).fits hsize }

/-! ## All inodes -/

theorem reclaim_idle (h : ¬ s.disk.Orphan sb i) (h0 : 0 < i) (hi : i < sb.ninodes) :
    reclaim sb i s = .ok ((), s) := by
  have hcond : ¬ ((s.disk.dinode i).type ≠ .none ∧ (s.disk.dinode i).nlink = 0) :=
    fun hc => h ⟨h0, hi, hc⟩
  simp only [reclaim, bind, StateT.bind, get, getThe, MonadStateOf.get, StateT.get, pure,
    Except.pure, Except.bind, if_neg hcond]
  rfl

theorem ireclaim_idle (h : ∀ i, ¬ s.disk.Orphan sb i) : ireclaim sb s = .ok ((), s) := by
  unfold ireclaim
  have hloop := ensures_forUpto (f := fun i => reclaim sb (i + 1)) (n := sb.ninodes - 1)
    (I := fun _ t => t = s) rfl fun i hi t ht => by
      subst ht
      exact ⟨(), t, reclaim_idle (h _) (by omega) (by omega), rfl⟩
  obtain ⟨_, t, hrun, rfl⟩ := hloop
  exact hrun

/-- The orphans of the disk are freed, if none of them is in use and a table entry is
free. -/
theorem ireclaim_sweeps
    (howned : Ledger sb s.disk.bitmap (used sb.ninodes s.disk.dinode s.disk.block))
    (hnone : ∀ k, 0 < (s.itable k).ref → ¬ s.disk.Orphan sb (s.itable k).inum)
    (hfree : ∃ k < ninode, (s.itable k).ref = 0) :
    Ensures (ireclaim sb) s fun _ t => Swept sb (s.disk.Orphan sb) s t := by
  have hloop := ensures_forUpto (f := fun i => reclaim sb (i + 1)) (n := sb.ninodes - 1)
    (s := s) (I := fun n t => Swept sb (fun i => s.disk.Orphan sb i ∧ i ≤ n) s t)
    ((Swept.refl howned).congr fun i => by
      simp only [iff_false, not_and]
      exact fun hi => by have := hi.1; omega) fun n hn t ht => by
    have hnext : ¬ (s.disk.Orphan sb (n + 1) ∧ n + 1 ≤ n) := by omega
    have horphan : t.disk.Orphan sb (n + 1) ↔ s.disk.Orphan sb (n + 1) := by
      unfold Disk.Orphan
      rw [ht.kept _ hnext]
    by_cases hdead : t.disk.Orphan sb (n + 1)
    · refine (reclaim_orphan ht.owned hdead (fun k hk heq => ?_) ?_).mono fun _ u hu => ?_
      · rw [ht.ref k] at hk
        rw [ht.busy k hk] at heq
        exact hnone k hk (heq ▸ horphan.mp hdead)
      · obtain ⟨k, hk, href⟩ := hfree
        exact ⟨k, hk, (ht.ref k).trans href⟩
      · refine (ht.trans hu).congr fun i => ⟨fun hi => ?_, ?_⟩
        · exact (Nat.le_succ_iff.mp hi.2).imp (fun hle => ⟨hi.1, hle⟩) id
        · rintro (⟨hi, hle⟩ | rfl)
          · exact ⟨hi, by omega⟩
          · exact ⟨horphan.mp hdead, le_rfl⟩
    · refine ⟨(), t, reclaim_idle hdead (by omega) (by omega), ht.congr fun i => ?_⟩
      refine and_congr_right fun hi => ⟨fun hle => ?_, fun hle => by omega⟩
      refine (Nat.le_succ_iff.mp hle).resolve_right ?_
      rintro rfl
      exact hdead (horphan.mpr hi)
  refine Ensures.mono hloop fun _ t ht => ht.congr fun i => ?_
  exact (and_iff_left_of_imp fun hi => by have := hi.2.1; omega).symm

/-! ## The bitmap -/

theorem Disk.Orphan.held (hi : d.Orphan sb i) :
    (d.dinode i).held d.block = (d.dinode i).blocks d.block :=
  if_neg hi.2.2.1

theorem Disk.Orphan.mem_used (hi : d.Orphan sb i) {b : ℕ}
    (hb : b ∈ (d.dinode i).blocks d.block) : b ∈ used sb.ninodes d.dinode d.block :=
  mem_total.mpr ⟨i, hi.2.1, by rwa [hi.held]⟩

theorem Swept.mem_used (h : Swept sb (s.disk.Orphan sb) s t)
    (howned : Ledger sb s.disk.bitmap (used sb.ninodes s.disk.dinode s.disk.block)) {b : ℕ} :
    b ∈ used sb.ninodes t.disk.dinode t.disk.block ↔
      b ∈ used sb.ninodes s.disk.dinode s.disk.block ∧
      ∀ i, s.disk.Orphan sb i → b ∉ (s.disk.dinode i).blocks s.disk.block := by
  have hheld : ∀ i, ¬ s.disk.Orphan sb i →
      (t.disk.dinode i).held t.disk.block = (s.disk.dinode i).held s.disk.block := by
    intro i hi
    rw [h.kept i hi, h.block]
  constructor
  · intro hused
    obtain ⟨i, hi, hmem⟩ := mem_total.mp hused
    have hlive : ¬ s.disk.Orphan sb i := by
      intro hdead
      rw [Dinode.held, if_pos (h.freed i hdead)] at hmem
      exact Multiset.notMem_zero b hmem
    rw [hheld i hlive] at hmem
    refine ⟨mem_total.mpr ⟨i, hi, hmem⟩, fun j hj hdead => ?_⟩
    -- a block of two inodes would be in use twice
    have hne : i ≠ j := by
      rintro rfl
      exact hlive hj
    have htwo := add_le_total (fun i => (s.disk.dinode i).held s.disk.block) hi hj.2.1 hne
    have hnodup := Multiset.nodup_of_le htwo howned.nodup
    rw [Multiset.nodup_add] at hnodup
    exact Multiset.disjoint_left.mp hnodup.2.2 hmem (by rwa [hj.held])
  · rintro ⟨hused, hnot⟩
    obtain ⟨i, hi, hmem⟩ := mem_total.mp hused
    have hlive : ¬ s.disk.Orphan sb i := by
      intro hdead
      rw [hdead.held] at hmem
      exact hnot i hdead hmem
    exact mem_total.mpr ⟨i, hi, by rwa [hheld i hlive]⟩

theorem Swept.bits (h : Swept sb (s.disk.Orphan sb) s t)
    (howned : Ledger sb s.disk.bitmap (used sb.ninodes s.disk.dinode s.disk.block)) {b : ℕ}
    (hb : b < sb.size) : t.disk.bitmap b = true ↔ s.disk.bitmap b = true ∧
      ∀ i, s.disk.Orphan sb i → b ∉ (s.disk.dinode i).blocks s.disk.block := by
  rw [h.owned.bits b hb, howned.bits b hb, h.mem_used howned]
  constructor
  · rintro (harea | ⟨hused, hnot⟩)
    · refine ⟨.inl harea, fun i hi hmem => ?_⟩
      have := (howned.area b (hi.mem_used hmem)).1
      omega
    · exact ⟨.inr hused, hnot⟩
  · rintro ⟨harea | hused, hnot⟩
    · exact .inl harea
    · exact .inr ⟨hused, hnot⟩

theorem mount_free : ∃ k < ninode, ((mount d).itable k).ref = 0 := ⟨1, by decide, rfl⟩

theorem mount_busy (hk : 0 < ((mount d).itable k).ref) : ((mount d).itable k).inum = rootino := by
  unfold mount at hk ⊢
  dsimp only at hk ⊢
  split
  · rfl
  · rename_i hne
    rw [if_neg hne] at hk
    exact absurd hk (by decide)

/-- When a disk is mounted exactly the orphans are freed: they become free inodes and the
bits of their blocks are cleared. No other inode and no contents change, all blocks are
still owned, and the table entries that were used are free again. A second run changes
nothing. -/
theorem ireclaim_exact (hd : Ledger sb d.bitmap (used sb.ninodes d.dinode d.block))
    (hroot : ¬ d.Orphan sb rootino) :
    Ensures (ireclaim sb) (mount d) fun _ t =>
      (∀ i, d.Orphan sb i → (t.disk.dinode i).type = .none ∧
        ∀ b ∈ (d.dinode i).blocks d.block, t.disk.bitmap b = false) ∧
      (∀ i, ¬ d.Orphan sb i → t.disk.dinode i = d.dinode i ∧ (i < sb.ninodes →
        ∀ b ∈ (d.dinode i).held d.block, t.disk.bitmap b = true)) ∧
      (∀ b < sb.size, (∀ i, d.Orphan sb i → b ∉ (d.dinode i).blocks d.block) →
        t.disk.bitmap b = d.bitmap b) ∧
      t.disk.block = d.block ∧
      Ledger sb t.disk.bitmap (used sb.ninodes t.disk.dinode t.disk.block) ∧
      t.itable 0 = (mount d).itable 0 ∧ (∀ k, k ≠ 0 → (t.itable k).ref = 0) ∧
      t.ftable = (mount d).ftable ∧ t.proc = (mount d).proc ∧
      (sb.size ≤ bpb → (mount d).log.Fits t.log) ∧
      ∀ u : State, u.disk = t.disk → ireclaim sb u = .ok ((), u) := by
  have hnone : ∀ k, 0 < ((mount d).itable k).ref →
      ¬ (mount d).disk.Orphan sb ((mount d).itable k).inum := by
    intro k hk
    rw [mount_busy hk]
    exact hroot
  refine (ireclaim_sweeps (s := mount d) hd hnone mount_free).mono fun _ t ht => ?_
  have hbits := fun b hb => ht.bits (b := b) hd hb
  refine ⟨fun i hi => ⟨ht.freed i hi, fun b hb => ?_⟩,
    fun i hi => ⟨ht.kept i hi, fun hlt b hb => ?_⟩, fun b hb hnot => ?_, ht.block, ht.owned, ht.busy 0 (by simp [mount]), fun k hk => ?_,
    ht.ftable, ht.proc, ht.log, fun u hu => ireclaim_idle fun i hi => ?_⟩
  · have hsize := (hd.area b (hi.mem_used hb)).2
    rw [← Bool.not_eq_true, hbits b hsize]
    exact fun hset => hset.2 i hi hb
  · have hused : b ∈ used sb.ninodes t.disk.dinode t.disk.block :=
      mem_total.mpr ⟨i, hlt, by rw [ht.kept i hi, ht.block]; exact hb⟩
    exact (ht.owned.bits b (ht.owned.area b hused).2).mpr (.inr hused)
  · rw [Bool.eq_iff_iff, hbits b hb]
    exact and_iff_left hnot
  · rw [ht.ref k]
    simp [mount, hk]
  · rw [hu] at hi
    by_cases hdead : d.Orphan sb i
    · exact hi.2.2.1 (ht.freed i hdead)
    · have hsame := ht.kept i hdead
      refine hdead ⟨hi.1, hi.2.1, ?_⟩
      rw [show d.dinode i = t.disk.dinode i from hsame.symm]
      exact hi.2.2

end

/-- The empty file system with a file that has been unlinked while it was open. -/
def orphanImage : Disk :=
  let d := rootImage bsize
  { d with
    dinode := update d.dinode 2
      ⟨.file, 0, 0, 0, 1, fun j => if j = 0 then 48 else 0⟩
    bitmap := fun b => b < 49 }

/-- The empty file system with a root directory that has no links. -/
def unlinkedRoot : Disk :=
  let d := rootImage bsize
  { d with dinode := fun i => { d.dinode i with nlink := 0 } }

theorem orphanImage_used :
    used layout.ninodes orphanImage.dinode orphanImage.block = {48, 47} := by
  decide +kernel

theorem orphanImage_ledger : Ledger layout orphanImage.bitmap
    (used layout.ninodes orphanImage.dinode orphanImage.block) := by
  rw [orphanImage_used]
  refine ⟨by decide, by decide, fun b _ => ?_⟩
  simp only [orphanImage, layout, Multiset.insert_eq_cons, Multiset.mem_cons,
    Multiset.mem_singleton, decide_eq_true_eq]
  omega

theorem ireclaim_exact_orphan : ∃ t, ireclaim layout (mount orphanImage) = .ok ((), t) ∧
    (t.disk.dinode 2).type = .none ∧ t.disk.bitmap 48 = false := by
  obtain ⟨_, t, hrun, ht, -⟩ := ireclaim_exact orphanImage_ledger
    fun hroot => absurd hroot.2.2.2 (by decide)
  obtain ⟨htype, hbits⟩ := ht 2 ⟨by decide, by decide, by decide, rfl⟩
  exact ⟨t, hrun, htype, hbits 48 (by decide +kernel)⟩

/-- The first process holds the root directory when `ireclaim` runs. A root directory
without links is therefore not freed. -/
theorem ireclaim_keeps_root :
    Ledger layout unlinkedRoot.bitmap
      (used layout.ninodes unlinkedRoot.dinode unlinkedRoot.block) ∧
    unlinkedRoot.Orphan layout rootino ∧
    ∃ t, ireclaim layout (mount unlinkedRoot) = .ok ((), t) ∧
      (t.disk.dinode rootino).type = .dir ∧ (t.itable 0).ref = 1 := by
  refine ⟨@rootImage_ledger bsize, ⟨by decide, by decide, by decide, rfl⟩, ?_⟩
  obtain ⟨_, hkept⟩ : Ensures (ireclaim layout) (mount unlinkedRoot) fun _ t =>
      (t.disk.dinode rootino).type = .dir ∧ (t.itable 0).ref = 1 := by decide +kernel
  exact hkept

end Xv6.Fs
