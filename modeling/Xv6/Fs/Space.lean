import Xv6.Fs.Contents

/-!
# Room for an entry

A directory entry lies in one block. Writing it fails exactly when it would make the
directory too large, or when its block is not there and there are not enough free blocks
to map it.
-/

namespace Xv6.Fs

open Eff Bag

/-- The number of free blocks. -/
def Disk.free (sb : Superblock) (d : Disk) : ℕ :=
  (List.range sb.size).countP fun b => !d.bitmap b

/-- The blocks to allocate before block `bn` of a file is mapped: for a block behind the
direct ones perhaps also the block with its number. -/
def Dinode.missing (d : Dinode) (blk : ℕ → Block) (bn : ℕ) : ℕ :=
  if d.addr blk bn ≠ 0 then 0 else if bn < ndirect ∨ d.addrs ndirect ≠ 0 then 1 else 2

section

variable {sb : Superblock} {s t : State} {k bn a : ℕ} {R U : Multiset ℕ}

theorem free_balloced (ha : a < sb.size) (hclear : s.disk.bitmap a = false) :
    (s.balloced sb a).disk.free sb + 1 = s.disk.free sb := by
  unfold Disk.free
  rw [State.balloced_disk_bitmap]
  generalize hl : List.range sb.size = l
  have hmem : a ∈ l := hl ▸ List.mem_range.mpr ha
  have hnodup : l.Nodup := hl ▸ List.nodup_range
  clear hl
  induction l with
  | nil => cases hmem
  | cons b l ih =>
    rw [List.nodup_cons] at hnodup
    rw [List.countP_cons, List.countP_cons]
    rcases List.mem_cons.mp hmem with rfl | hin
    · have hrest : l.countP (fun b => !Function.update s.disk.bitmap a true b) =
          l.countP fun b => !s.disk.bitmap b := by
        refine List.countP_congr fun b hb => ?_
        have hne : b ≠ a := by
          rintro rfl
          exact hnodup.1 hb
        simp [hne]
      simp [hrest, hclear]
    · have hne : b ≠ a := by
        rintro rfl
        exact hnodup.1 hin
      have hrest := ih hin hnodup.2
      simp only [Function.update_of_ne hne]
      omega

theorem balloc_free (h : Ledger sb s.disk.bitmap U) (hout : s.log.outstanding = true) :
    Ensures (balloc sb) s fun a t => a = 0 ∧ s.disk.free sb = 0 ∧ t = s ∨
      a ≠ 0 ∧ t = s.balloced sb a ∧ t.disk.free sb + 1 = s.disk.free sb ∧
        Ledger sb t.disk.bitmap (a ::ₘ U) := by
  cases hfind : (List.range sb.size).find? fun b => !s.disk.bitmap b with
  | none =>
    have hzero : s.disk.free sb = 0 := by
      unfold Disk.free
      rw [List.countP_eq_zero]
      exact List.find?_eq_none.mp hfind
    unfold balloc
    apply ensures_get_bind
    rw [hfind]
    exact ensures_pure (.inl ⟨rfl, hzero, rfl⟩)
  | some b =>
    have hb : b < sb.size := List.mem_range.mp (List.mem_of_find?_eq_some hfind)
    have hclear : s.disk.bitmap b = false := by simpa using List.find?_some hfind
    have hfirst : Ensures (balloc sb) s fun a _ => a = b := by
      unfold balloc
      apply ensures_get_bind
      rw [hfind]
      apply ensures_modify_bind
      refine (logWrite_spec (by exact hout) _).bind fun _ t ht => ?_
      subst ht
      refine Ensures.bind (R := fun _ _ => True) ?_ fun _ _ _ => ensures_pure rfl
      exact ensures_modify_bind ((logWrite_spec (by exact hout) b).mono fun _ _ _ => trivial)
    refine ((balloc_spec h hout).and hfirst).mono fun a t ht => ?_
    obtain ⟨ht, rfl⟩ := ht
    rcases ht with ⟨rfl, -⟩ | ⟨-, rfl, hledger⟩
    · have := (h.bits 0 hb).mpr (.inl sb.pos)
      rw [hclear] at this
      cases this
    · exact .inr ⟨hledger.ne_zero (by simp), rfl, free_balloced hb hclear, hledger⟩

theorem allocIfZero_free {store : ℕ → M Unit} {Q : ℕ → State → Prop}
    (h : Ledger sb s.disk.bitmap U) (hout : s.log.outstanding = true)
    (hnone : s.disk.free sb = 0 → Q 0 s)
    (hnew : ∀ a, a ≠ 0 → (s.balloced sb a).disk.free sb + 1 = s.disk.free sb →
      Ledger sb (s.balloced sb a).disk.bitmap (a ::ₘ U) →
      Ensures (store a) (s.balloced sb a) fun _ t => Q a t) :
    Ensures (allocIfZero sb 0 store) s Q := by
  unfold allocIfZero
  rw [if_neg (by simp)]
  refine (balloc_free h hout).bind fun a t ht => ?_
  rcases ht with ⟨rfl, hzero, rfl⟩ | ⟨hne, rfl, hfree, hledger⟩
  · exact ensures_pure (hnone hzero)
  · rw [if_neg hne]
    exact (hnew a hne hfree hledger).bind fun _ _ hq => ensures_pure hq

theorem bmap_free (h : Ledger sb s.disk.bitmap ((s.copy k).blocks s.disk.block + R))
    (hout : s.log.outstanding = true) (hbn : bn < maxfile) :
    Ensures (bmap sb k bn) s fun a _ =>
      a = 0 ↔ s.disk.free sb < (s.copy k).missing s.disk.block bn := by
  by_cases haddr : (s.copy k).addr s.disk.block bn = 0
  · unfold bmap
    apply ensures_get_bind
    by_cases hdir : bn < ndirect
    · have hzero : (s.copy k).addrs bn = 0 := by simpa [Dinode.addr, hdir] using haddr
      rw [if_pos hdir, hzero]
      have hmiss : (s.copy k).missing s.disk.block bn = 1 := by
        simp [Dinode.missing, haddr, hdir]
      rw [hmiss]
      refine allocIfZero_free h hout (fun hfull => by simp [hfull]) fun a hne hfree _ => ?_
      apply ensures_modify
      exact iff_of_false hne (by omega)
    · have hlt : bn - ndirect < nindirect := by unfold maxfile at hbn; omega
      rw [if_neg hdir, if_pos hlt]
      by_cases hind : (s.copy k).addrs ndirect = 0
      · have hmiss : (s.copy k).missing s.disk.block bn = 2 := by
          simp [Dinode.missing, haddr, hdir, hind]
        rw [hmiss, hind]
        refine Ensures.bind (R := fun ind t => ind = 0 ∧ s.disk.free sb = 0 ∨
          ind ≠ 0 ∧ t.disk.free sb + 1 = s.disk.free sb ∧ t.log.outstanding = true ∧
            entry (t.disk.block ind) (bn - ndirect) = 0 ∧ ∃ V, Ledger sb t.disk.bitmap V)
          (allocIfZero_free h hout ?_ ?_) ?_
        · exact fun hfull => .inl ⟨rfl, hfull⟩
        · intro a hne hfree hledger
          apply ensures_modify
          refine .inr ⟨hne, hfree, hout, ?_, _, hledger⟩
          simp [entry]
        · rintro ind t (⟨rfl, hfull⟩ | ⟨hne, hfree, hout', hentry, V, hledger⟩)
          · exact ensures_pure (iff_of_true rfl (by omega))
          · rw [if_neg hne]
            apply ensures_get_bind
            rw [hentry]
            refine allocIfZero_free hledger hout' (fun hfull => iff_of_true rfl (by omega))
              fun a hne' hfree' _ => ?_
            apply ensures_modify_bind
            refine (logWrite_spec (by exact hout') _).mono fun _ _ _ => ?_
            exact iff_of_false hne' (by omega)
      · have hzero : entry (s.disk.block ((s.copy k).addrs ndirect)) (bn - ndirect) = 0 := by
          simpa [Dinode.addr, hdir, hind] using haddr
        have hmiss : (s.copy k).missing s.disk.block bn = 1 := by
          simp [Dinode.missing, haddr, hind]
        rw [hmiss, allocIfZero_of_ne hind]
        refine ensures_eq_bind (show (pure _ : M ℕ) s = .ok (_, s) from rfl) ?_
        rw [if_neg hind]
        apply ensures_get_bind
        rw [hzero]
        refine allocIfZero_free h hout (fun hfull => by simp [hfull]) fun a hne hfree _ => ?_
        apply ensures_modify_bind
        refine (logWrite_spec (by exact hout) _).mono fun _ _ _ => ?_
        exact iff_of_false hne (by omega)
  · refine (bmap_mapped hbn haddr).mono fun a t ht => ?_
    have hmiss : (s.copy k).missing s.disk.block bn = 0 := if_pos haddr
    rw [hmiss, ht.1]
    exact iff_of_false haddr (Nat.not_lt_zero _)

theorem writei_room (h : Ledger sb s.disk.bitmap ((s.copy k).blocks s.disk.block + R))
    (hout : s.log.outstanding = true) {j : ℕ} {l : List UInt8} (hl : l.length = direntSize)
    (hj : j * direntSize ≤ (s.copy k).size) (hsize : (s.copy k).size ≤ maxfile * bsize) :
    Ensures (writei sb k (ofList l) (j * direntSize) direntSize) s fun r _ =>
      r = direntSize ↔ j * direntSize + direntSize ≤ maxfile * bsize ∧
        (s.copy k).missing s.disk.block (j * direntSize / bsize) ≤ s.disk.free sb := by
  have hmod : (j * direntSize + direntSize) % 2 ^ 32 = j * direntSize + direntSize := by
    refine Nat.mod_eq_of_lt ?_
    unfold maxfile ndirect nindirect bsize direntSize at *
    omega
  unfold writei
  apply ensures_get_bind
  rw [hmod, if_neg (by unfold direntSize at *; omega)]
  by_cases hmax : maxfile * bsize < j * direntSize + direntSize
  · rw [if_pos hmax]
    exact ensures_pure (iff_of_false (by decide) fun hroom => by omega)
  · rw [if_neg hmax]
    have hbn : j * direntSize / bsize < maxfile :=
      div_bsize_lt (by unfold direntSize at *; omega)
    refine Ensures.bind (R := fun r t => t.log.outstanding = true ∧ (r.1 = direntSize ↔
      (s.copy k).missing s.disk.block (j * direntSize / bsize) ≤ s.disk.free sb)) ?_ ?_
    · change Ensures (writeLoop sb k (ofList l) (15 + 1) 0 _ _) s _
      unfold writeLoop
      rw [if_pos (by decide)]
      refine ((bmap_spec h hout hbn).and (bmap_free h hout hbn)).bind fun a t ht => ?_
      obtain ⟨⟨hgrown, -, -⟩, hfree⟩ := ht
      have hout' : t.log.outstanding = true := hgrown.outstanding.trans hout
      by_cases hz : a = 0
      · rw [if_pos hz]
        have := hfree.mp hz
        exact ensures_pure ⟨hout', iff_of_false (by simp [direntSize]) (by omega)⟩
      · rw [if_neg hz]
        have hroom := mt hfree.mpr hz
        apply ensures_modify_bind
        have hmin : min (direntSize - 0) (bsize - j * direntSize % bsize) = direntSize := by
          have := dirent_room j
          omega
        have hcopied : copied (ofList l) 0 direntSize = l := by rw [← hl, copied_ofList]
        simp only [hmin, hcopied, hl, lt_irrefl, if_false]
        refine (logWrite_spec (by exact hout') _).bind fun _ v hv => ?_
        subst hv
        have hstop : writeLoop sb k (ofList l) 15 (0 + direntSize) (j * direntSize + direntSize)
            direntSize = pure (direntSize, j * direntSize + direntSize) := by
          unfold writeLoop
          rfl
        rw [hstop]
        exact ensures_pure ⟨hout', iff_of_true rfl (by omega)⟩
    · rintro r t ⟨hout', hr⟩
      refine (change_spec hout' k _).bind fun _ u _ => ensures_pure ?_
      rw [Int.natCast_inj, hr]
      exact (and_iff_right (by omega)).symm

end

end Xv6.Fs
