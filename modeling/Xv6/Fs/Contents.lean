import Xv6.Fs.Blocks

/-!
# Reading and writing inodes

A file without holes is read without a change of state. Writing keeps it free of holes
and stays within the blocks of the inode. A directory entry never crosses the boundary
of a block, so that one iteration of the loops reads or writes it.
-/

namespace Xv6.Fs

open Eff Bag Function

/-- Every block below the size is allocated. -/
structure Dinode.Full (d : Dinode) (blk : ℕ → Block) : Prop where
  size_le : d.size ≤ maxfile * bsize
  mapped : ∀ bn, bn * bsize < d.size → d.addr blk bn ≠ 0

section

variable {sb : Superblock} {k off n : ℕ} {R : Multiset ℕ} {s t : State}

theorem div_bsize_lt {x : ℕ} (h : x < maxfile * bsize) : x / bsize < maxfile :=
  Nat.div_lt_of_lt_mul (by rwa [Nat.mul_comm] at h)

theorem div_mul_bsize_le (x : ℕ) : x / bsize * bsize ≤ x := Nat.div_mul_le_self x bsize

theorem Dinode.Full.at {d : Dinode} {blk : ℕ → Block} (h : d.Full blk) (hoff : off < d.size) :
    off / bsize < maxfile ∧ d.addr blk (off / bsize) ≠ 0 :=
  ⟨div_bsize_lt (lt_of_lt_of_le hoff h.size_le),
    h.mapped _ (lt_of_le_of_lt (div_mul_bsize_le off) hoff)⟩

/-! ## Reading -/

theorem readLoop_spec (h : (s.copy k).Full s.disk.block) (dst : ℕ → Bool) :
    ∀ fuel tot off n acc, off + (n - tot) ≤ (s.copy k).size →
      Ensures (readLoop sb k dst fuel tot off n acc) s fun _ s' => s' = s := by
  intro fuel
  induction fuel with
  | zero =>
    intro tot off n acc _
    exact ensures_pure rfl
  | succ fuel ih =>
    intro tot off n acc hle
    unfold readLoop
    by_cases hlt : tot < n
    · rw [if_pos hlt]
      obtain ⟨hbn, hmap⟩ := h.at (show off < (s.copy k).size by omega)
      refine (bmap_mapped hbn hmap).bind fun a t ht => ?_
      obtain ⟨rfl, rfl⟩ := ht
      rw [if_neg hmap]
      apply ensures_get_bind
      split
      · exact ih _ _ _ _ (by omega)
      · exact ensures_pure rfl
    · rw [if_neg hlt]
      exact ensures_pure rfl

theorem readi_spec (h : (s.copy k).Full s.disk.block) (dst : ℕ → Bool) (off n : ℕ) :
    Ensures (readi sb k dst off n) s fun _ s' => s' = s := by
  unfold readi
  apply ensures_get_bind
  split
  · exact ensures_pure rfl
  · rename_i hoff
    push Not at hoff
    apply readLoop_spec h
    split <;> omega

/-- Where the entries of a directory lie. -/
def direntAt (d : Dinode) (blk : ℕ → Block) (j : ℕ) : Dirent :=
  Dirent.ofBytes
    (getBytes (blk (d.addr blk (j * direntSize / bsize))) (j * direntSize % bsize) direntSize)

theorem dirent_room (j : ℕ) : direntSize ≤ bsize - j * direntSize % bsize := by
  unfold direntSize bsize
  omega

theorem readi_dirent (hsize : (s.copy k).size ≤ maxfile * bsize) {j : ℕ}
    (hj : j * direntSize < (s.copy k).size)
    (hmap : (s.copy k).addr s.disk.block (j * direntSize / bsize) ≠ 0) :
    Ensures (readi sb k (fun _ => true) (j * direntSize) direntSize) s fun r s' => s' = s ∧
      (r.1 = direntSize ↔ j * direntSize + direntSize ≤ (s.copy k).size) ∧
      (r.1 = direntSize → Dirent.ofBytes r.2 = direntAt (s.copy k) s.disk.block j) := by
  have hroom := dirent_room j
  have hbn := div_bsize_lt (lt_of_lt_of_le hj hsize)
  generalize hn : (if (s.copy k).size < j * direntSize + direntSize
    then (s.copy k).size - j * direntSize else direntSize) = n
  have hn0 : 0 < n := by unfold direntSize at *; split at hn <;> omega
  have hn1 : n ≤ direntSize := by unfold direntSize at *; split at hn <;> omega
  have hmin : min (n - 0) (bsize - j * direntSize % bsize) = n := by omega
  unfold readi
  apply ensures_get_bind
  rw [if_neg (by unfold maxfile ndirect nindirect bsize direntSize at *; omega)]
  change Ensures (readLoop sb k (fun _ => true) (if _ then _ else _) 0 _ (if _ then _ else _) [])
    s _
  rw [hn]
  obtain ⟨fuel, rfl⟩ := Nat.exists_eq_add_one.mpr hn0
  unfold readLoop
  rw [if_pos hn0]
  refine (bmap_mapped hbn hmap).bind fun a t ht => ?_
  obtain ⟨rfl, rfl⟩ := ht
  rw [if_neg hmap]
  apply ensures_get_bind
  simp only [hmin, List.all_eq_true, implies_true, if_true]
  have hstop : readLoop sb k (fun _ => true) fuel (0 + (fuel + 1)) (j * direntSize + (fuel + 1))
      (fuel + 1) ([] ++ getBytes (t.disk.block ((t.copy k).addr t.disk.block
        (j * direntSize / bsize))) (j * direntSize % bsize) (fuel + 1)) =
      pure (((fuel + 1 : ℕ) : ℤ), getBytes (t.disk.block ((t.copy k).addr t.disk.block
        (j * direntSize / bsize))) (j * direntSize % bsize) (fuel + 1)) := by
    cases fuel <;> simp [readLoop]
  rw [hstop]
  refine ensures_pure ⟨rfl, ?_, ?_⟩
  · constructor
    · intro heq
      split at hn <;> omega
    · intro hle
      split at hn <;> omega
  · intro heq
    have : fuel + 1 = direntSize := by omega
    rw [this]
    rfl

/-! ## Writing -/

theorem indirect_setBlock (h : Ledger sb s.disk.bitmap ((s.copy k).blocks s.disk.block + R))
    {bn : ℕ} (hbn : bn < maxfile) (hne : (s.copy k).addr s.disk.block bn ≠ 0) (w : Block) :
    (s.setBlock ((s.copy k).addr s.disk.block bn) w).disk.block ((s.copy k).addrs ndirect) =
      s.disk.block ((s.copy k).addrs ndirect) := by
  simp [(addr_ne_indirect h.nodup_left hbn hne).symm]

theorem touched_setBlock (h : Ledger sb s.disk.bitmap ((s.copy k).blocks s.disk.block + R))
    {bn : ℕ} (hbn : bn < maxfile) (hne : (s.copy k).addr s.disk.block bn ≠ 0) (w : Block) :
    Touched sb k R s (s.setBlock ((s.copy k).addr s.disk.block bn) w) := by
  have hcongr := indirect_setBlock h hbn hne w
  refine ⟨rfl, rfl, rfl, rfl, fun _ _ => rfl, rfl, ?_, ?_, ?_⟩
  · rw [State.setBlock_disk_bitmap, State.copy, State.setBlock_itable, blocks_congr fun _ => hcongr]
    exact h
  · intro b hb
    have hdisj := (Multiset.nodup_add.mp h.nodup).2.2
    have hba : b ≠ (s.copy k).addr s.disk.block bn := by
      rintro rfl
      exact Multiset.disjoint_left.mp hdisj (addr_mem hbn hne) hb
    simp [hba]
  · intro bn' _ _
    rw [State.copy, State.setBlock_itable, addr_congr fun _ => hcongr]

theorem Touched.logWrite (h : Touched sb k R s t) (b : ℕ) : Touched sb k R s (t.logWrite b) :=
  ⟨h.dinode, h.ftable, h.proc, h.outstanding, h.other, h.entry, h.ledger, h.rest, h.keeps⟩

/-- Every block below the size and below `o` is allocated. -/
def Covered (s : State) (k o : ℕ) : Prop :=
  o ≤ maxfile * bsize ∧
    ∀ bn, bn * bsize < max (s.copy k).size o → (s.copy k).addr s.disk.block bn ≠ 0

theorem Touched.size (h : Touched sb k R s t) : (t.copy k).size = (s.copy k).size := by
  rw [State.copy, h.entry]

theorem Touched.type (h : Touched sb k R s t) : (t.copy k).type = (s.copy k).type := by
  rw [State.copy, h.entry]

theorem Touched.numbers (h : Touched sb k R s t) :
    (t.copy k).major = (s.copy k).major ∧ (t.copy k).minor = (s.copy k).minor := by
  rw [State.copy, h.entry]
  exact ⟨rfl, rfl⟩

theorem Touched.nlink (h : Touched sb k R s t) : (t.copy k).nlink = (s.copy k).nlink := by
  rw [State.copy, h.entry]

theorem lt_maxfile_of_mul {bn x : ℕ} (h : bn * bsize < x) (hx : x ≤ maxfile * bsize) :
    bn < maxfile := Nat.lt_of_mul_lt_mul_right (lt_of_lt_of_le h hx)

theorem Covered.mono (h : Covered s k off) (hs : (s.copy k).size ≤ maxfile * bsize)
    (ht : Touched sb k R s t) : Covered t k off := by
  refine ⟨h.1, fun bn hbn => ?_⟩
  rw [ht.size] at hbn
  have hne := h.2 bn hbn
  rwa [ht.keeps bn (lt_maxfile_of_mul hbn (max_le hs h.1)) hne]

theorem Covered.extend (h : Covered s k off)
    (hbn : (s.copy k).addr s.disk.block (off / bsize) ≠ 0) {m : ℕ}
    (hm : m ≤ bsize - off % bsize) (hmax : off + m ≤ maxfile * bsize) : Covered s k (off + m) := by
  refine ⟨hmax, fun bn hlt => ?_⟩
  by_cases hold : bn * bsize < max (s.copy k).size off
  · exact h.2 bn hold
  · have heq : bn = off / bsize := by
      have hdiv := Nat.div_add_mod off bsize
      have hmod : off % bsize < bsize := Nat.mod_lt _ (by decide)
      unfold bsize at *
      omega
    rw [heq]
    exact hbn

theorem copied_length_le (src : ℕ → Option UInt8) (tot m : ℕ) :
    (copied src tot m).length ≤ m := by
  unfold copied
  refine (List.length_filterMap_le _ _).trans ?_
  refine (List.takeWhile_sublist _).length_le.trans ?_
  simp

/-- The number of blocks that `m` bytes from offset `off` lie in. -/
def rounds (off m : ℕ) : ℕ := if m = 0 then 0 else (off % bsize + m + (bsize - 1)) / bsize

theorem rounds_next (off : ℕ) {m : ℕ} (hm : 0 < m) :
    rounds (off + min m (bsize - off % bsize)) (m - min m (bsize - off % bsize)) + 1 =
      rounds off m := by
  unfold rounds bsize
  split <;> split <;> omega

/-- At most `r` blocks besides those of the bitmap, and the blocks `F`, are logged. -/
def Log.Few (sb : Superblock) (F : ℕ → Prop) (r : ℕ) (l l' : Log) : Prop :=
  ∃ S : List ℕ, S.length ≤ r ∧ l.Adds (fun b => OnBitmap sb b ∨ F b ∨ b ∈ S) l'

theorem Log.Few.refl {F : ℕ → Prop} {l : Log} (r : ℕ) : l.Few sb F r l := ⟨[], by simp, .refl⟩

theorem Log.Few.trans {F : ℕ → Prop} {l l' l'' : Log} {r r' : ℕ} (h : l.Few sb F r l')
    (h' : l'.Few sb F r' l'') : l.Few sb F (r + r') l'' := by
  obtain ⟨S, hS, hadds⟩ := h
  obtain ⟨S', hS', hadds'⟩ := h'
  refine ⟨S ++ S', by simp; omega, (hadds.mono ?_).trans (hadds'.mono ?_)⟩
  · exact fun b hb => hb.imp_right fun hb => hb.imp_right fun hb => List.mem_append_left _ hb
  · exact fun b hb => hb.imp_right fun hb => hb.imp_right fun hb => List.mem_append_right _ hb

theorem Log.Few.mono {F F' : ℕ → Prop} {l l' : Log} {r r' : ℕ} (h : l.Few sb F r l')
    (hF : ∀ b, F b → F' b) (hr : r ≤ r') : l.Few sb F' r' l' := by
  obtain ⟨S, hS, hadds⟩ := h
  exact ⟨S, hS.trans hr, hadds.mono fun b hb => hb.imp_right fun hb => hb.imp_left (hF b)⟩

theorem Log.Adds.few {F : ℕ → Prop} {l l' : Log} (h : l.Adds (fun b => OnBitmap sb b ∨ F b) l') :
    l.Few sb F 0 l' := ⟨[], by simp, h.mono fun _ hb => hb.imp_right .inl⟩

theorem writeLoop_spec (src : ℕ → Option UInt8) : ∀ fuel tot off n, ∀ s : State,
    Ledger sb s.disk.bitmap ((s.copy k).blocks s.disk.block + R) → s.log.outstanding = true →
    (s.copy k).size ≤ maxfile * bsize → Covered s k off → off + (n - tot) ≤ maxfile * bsize →
      Ensures (writeLoop sb k src fuel tot off n) s fun r s' =>
        Touched sb k R s s' ∧ Covered s' k r.2 ∧
        s.log.Few sb (fun _ => False) (2 * rounds off (n - tot)) s'.log := by
  intro fuel
  induction fuel with
  | zero =>
    intro tot off n s hledger _ _ hcov _
    exact ensures_pure ⟨Touched.refl hledger, hcov, .refl _⟩
  | succ fuel ih =>
    intro tot off n s hledger hout hsize hcov hmax
    unfold writeLoop
    by_cases hlt : tot < n
    · rw [if_pos hlt]
      have hbn : off / bsize < maxfile := div_bsize_lt (by omega)
      refine (bmap_spec hledger hout hbn).bind fun a t ht => ?_
      obtain ⟨hgrown, haddr, ind, hlog⟩ := ht
      have hcov := hcov.mono hsize hgrown.toTouched
      have hnext := rounds_next off (Nat.sub_pos_of_lt hlt)
      -- the indirect block and the data block
      have hfew : s.log.Few sb (fun _ => False) 2 t.log :=
        ⟨[ind, a], by simp, hlog.mono fun b hb => hb.imp_right fun hb => .inr (by simpa using hb)⟩
      by_cases hz : a = 0
      · rw [if_pos hz]
        exact ensures_pure ⟨hgrown.toTouched, hcov, hfew.mono (fun _ h => h) (by omega)⟩
      · rw [if_neg hz]
        have hlogw : s.log.Few sb (fun _ => False) 2 (t.logWrite a).log :=
          ⟨[ind, a], by simp, (hlog.trans (Log.adds_write (.inr (.inr rfl)))).mono
            fun b hb => hb.imp_right fun hb => .inr (by simpa using hb)⟩
        obtain rfl := haddr hz
        apply ensures_modify_bind
        -- the data written so far, and the block map it leaves
        have hwrite := touched_setBlock hgrown.ledger hbn hz
          (putBytes (t.disk.block ((t.copy k).addr t.disk.block (off / bsize))) (off % bsize)
            (copied src tot (min (n - tot) (bsize - off % bsize))))
        have htouched := hgrown.toTouched.trans hwrite
        have hsize' : (t.copy k).size ≤ maxfile * bsize := by rwa [hgrown.size]
        have hcov' := hcov.mono hsize' hwrite
        split
        · exact ensures_pure ⟨htouched, hcov', hfew.mono (fun _ h => h) (by omega)⟩
        · have hext := hcov.extend hz (m := min (n - tot) (bsize - off % bsize)) (by omega)
            (by omega)
          have hout' := htouched.outstanding.trans hout
          refine (logWrite_spec hout' _).bind fun _ v hv => ?_
          subst hv
          have hwrite' := hwrite.logWrite ((t.copy k).addr t.disk.block (off / bsize))
          refine (ih _ _ _ _ hwrite'.ledger (by exact hout') (by rwa [hwrite'.size])
            (hext.mono hsize' hwrite') (by omega)).mono fun r u hu => ?_
          refine ⟨(hgrown.toTouched.trans hwrite').trans hu.1, hu.2.1,
            (hlogw.trans hu.2.2).mono (fun _ h => h) ?_⟩
          rw [← Nat.sub_sub]
          omega
    · rw [if_neg hlt]
      exact ensures_pure ⟨Touched.refl hledger, hcov, .refl _⟩

/-- The new size at the end of `writei`. -/
def Dinode.grow (o : ℕ) (d : Dinode) : Dinode := if d.size < o then { d with size := o } else d

@[simp] theorem grow_addrs (o : ℕ) (d : Dinode) : (d.grow o).addrs = d.addrs := by
  unfold Dinode.grow
  split <;> rfl

@[simp] theorem grow_type (o : ℕ) (d : Dinode) : (d.grow o).type = d.type := by
  unfold Dinode.grow
  split <;> rfl

@[simp] theorem grow_nlink (o : ℕ) (d : Dinode) : (d.grow o).nlink = d.nlink := by
  unfold Dinode.grow
  split <;> rfl

@[simp] theorem grow_numbers (o : ℕ) (d : Dinode) :
    (d.grow o).major = d.major ∧ (d.grow o).minor = d.minor := by
  unfold Dinode.grow
  split <;> exact ⟨rfl, rfl⟩

theorem grow_size (o : ℕ) (d : Dinode) : (d.grow o).size = max d.size o := by
  unfold Dinode.grow
  split <;> simp <;> omega

@[simp] theorem grow_addr (o : ℕ) (d : Dinode) : (d.grow o).addr = d.addr := by
  funext blk bn
  simp [Dinode.addr]

@[simp] theorem grow_blocks (o : ℕ) (d : Dinode) : (d.grow o).blocks = d.blocks := by
  funext blk
  simp [Dinode.blocks]

theorem Covered.full (h : Covered s k off) (hs : (s.copy k).size ≤ maxfile * bsize) :
    ((s.copy k).grow off).Full s.disk.block := by
  constructor
  · rw [grow_size]
    exact max_le hs h.1
  · intro bn hbn
    rw [grow_size] at hbn
    rw [grow_addr]
    exact h.2 bn hbn

theorem Dinode.Full.covered (h : (s.copy k).Full s.disk.block) (hoff : off ≤ (s.copy k).size) :
    Covered s k off := by
  refine ⟨hoff.trans h.size_le, fun bn hbn => ?_⟩
  rw [max_eq_left hoff] at hbn
  exact h.mapped bn hbn

/-- `writei` refuses, or writes within the blocks of the inode and brings the copy to
disk. -/
theorem writei_spec (h : Ledger sb s.disk.bitmap ((s.copy k).blocks s.disk.block + R))
    (hout : s.log.outstanding = true) (hfull : (s.copy k).Full s.disk.block)
    (src : ℕ → Option UInt8) (off : ℕ) (hn : n < 2 ^ 32) :
    Ensures (writei sb k src off n) s fun _ s' =>
      (s' = s ∨ ∃ t o, Touched sb k R s t ∧
        ((t.copy k).grow o).Full t.disk.block ∧ s' = t.changed sb k (Dinode.grow o)) ∧
      s.log.Few sb (· = iblock sb (s.itable k).inum) (2 * rounds off n) s'.log := by
  unfold writei
  apply ensures_get_bind
  split
  · exact ensures_pure ⟨.inl rfl, .refl _⟩
  · rename_i hoff
    push Not at hoff
    split
    · exact ensures_pure ⟨.inl rfl, .refl _⟩
    · rename_i hmax
      have hroom : off + (n - 0) ≤ maxfile * bsize := by
        have := hfull.size_le
        unfold maxfile ndirect nindirect bsize at *
        omega
      refine (writeLoop_spec src n 0 off n s h hout hfull.size_le (hfull.covered hoff.1)
        hroom).bind fun r t ht => ?_
      obtain ⟨htouched, hcov, hlog⟩ := ht
      refine (change_spec (htouched.outstanding.trans hout) k _).bind fun _ u hu => ?_
      refine ensures_pure ⟨.inr ⟨t, r.2, htouched, hcov.full ?_, hu⟩, ?_⟩
      · rw [htouched.size]
        exact hfull.size_le
      · have hinum : (t.itable k).inum = (s.itable k).inum := by rw [htouched.entry]
        have hlast : t.log.Few sb (· = iblock sb (t.itable k).inum) 0 _ :=
          ((changed_log sb t k (Dinode.grow r.2)).mono fun _ hb => Or.inr hb).few
        rw [hinum] at hlast
        rw [hu]
        exact (hlog.mono (fun _ h => h.elim) le_rfl).trans hlast

/-! ## Writing one directory entry -/

theorem getBytes_putBytes (b : Block) (o : ℕ) (l : List UInt8) :
    getBytes (putBytes b o l) o l.length = l := by
  apply List.ext_getElem
  · simp [getBytes]
  · intro i hi hi'
    simp [getBytes, putBytes, hi']

theorem getBytes_putBytes_of_disjoint (b : Block) {o o' n : ℕ} {l : List UInt8}
    (h : o + l.length ≤ o' ∨ o' + n ≤ o) : getBytes (putBytes b o l) o' n = getBytes b o' n := by
  unfold getBytes
  refine List.map_congr_left fun i hi => ?_
  have := List.mem_range.mp hi
  unfold putBytes
  rw [if_neg (by omega)]

/-- The bytes of a file. -/
def Dinode.bytes (d : Dinode) (blk : ℕ → Block) : List UInt8 :=
  (List.range d.size).map fun o => blk (d.addr blk (o / bsize)) (o % bsize)

theorem bytes_congr {d d' : Dinode} {blk blk' : ℕ → Block} (hsize : d'.size = d.size)
    (h : ∀ o < d.size, blk' (d'.addr blk' (o / bsize)) = blk (d.addr blk (o / bsize))) :
    d'.bytes blk' = d.bytes blk := by
  unfold Dinode.bytes
  rw [hsize]
  refine List.map_congr_left fun o ho => ?_
  rw [h o (List.mem_range.mp ho)]

theorem bytes_take (d : Dinode) (blk : ℕ → Block) {o m : ℕ} (hm : m ≤ bsize - o % bsize)
    (hle : o + m ≤ d.size) : (d.bytes blk).take (o + m) =
      (d.bytes blk).take o ++ getBytes (blk (d.addr blk (o / bsize))) (o % bsize) m := by
  unfold Dinode.bytes getBytes
  rw [← List.map_take, ← List.map_take, List.take_range, List.take_range, Nat.min_eq_left hle,
    Nat.min_eq_left (by omega), List.range_add, List.map_append, List.map_map]
  congr 1
  refine List.map_congr_left fun i hi => ?_
  have hi := List.mem_range.mp hi
  have hdiv : (o + i) / bsize = o / bsize := by unfold bsize at *; omega
  have hmod : (o + i) % bsize = o % bsize + i := by unfold bsize at *; omega
  rw [Function.comp_apply, hdiv, hmod]

theorem bytes_size (d : Dinode) (blk : ℕ → Block) : (d.bytes blk).length = d.size := by
  simp [Dinode.bytes]

theorem bytes_slice (d : Dinode) (blk : ℕ → Block) {off tot m : ℕ}
    (hm : m ≤ bsize - (off + tot) % bsize) (hle : off + tot + m ≤ d.size) :
    ((d.bytes blk).drop off).take (tot + m) = ((d.bytes blk).drop off).take tot ++
      getBytes (blk (d.addr blk ((off + tot) / bsize))) ((off + tot) % bsize) m := by
  have htake := congrArg (List.drop off) (bytes_take d blk hm hle)
  rwa [List.drop_append_of_le_length (by rw [List.length_take, bytes_size]; omega),
    List.drop_take, List.drop_take, Nat.add_assoc, Nat.add_sub_cancel_left,
    Nat.add_sub_cancel_left] at htake

/-- The loop has read the first `tot` bytes from offset `off` on, and goes on to `n`. -/
theorem readLoop_slice (sb : Superblock) (h : (s.copy k).Full s.disk.block)
    (hle : off + n ≤ (s.copy k).size) : ∀ fuel tot, n - tot ≤ fuel → tot ≤ n →
      Ensures (readLoop sb k (fun _ => true) fuel tot (off + tot) n
        ((((s.copy k).bytes s.disk.block).drop off).take tot)) s
        fun r s' => r = ((n : ℤ), (((s.copy k).bytes s.disk.block).drop off).take n) ∧
          s' = s := by
  intro fuel
  induction fuel with
  | zero =>
    intro tot hfuel htot
    obtain rfl : tot = n := by omega
    exact ensures_pure ⟨rfl, rfl⟩
  | succ fuel ih =>
    intro tot hfuel htot
    unfold readLoop
    by_cases hlt : tot < n
    · have hmod : (off + tot) % bsize < bsize := Nat.mod_lt _ (by decide)
      obtain ⟨hbn, hmap⟩ := h.at (show off + tot < (s.copy k).size by omega)
      rw [if_pos hlt]
      refine (bmap_mapped hbn hmap).bind fun a t ht => ?_
      obtain ⟨rfl, rfl⟩ := ht
      rw [if_neg hmap]
      apply ensures_get_bind
      simp only [List.all_eq_true, implies_true, if_true]
      rw [← bytes_slice _ _ (Nat.min_le_right _ _) (by omega), Nat.add_assoc]
      exact ih _ (by omega) (by omega)
    · obtain rfl : tot = n := by omega
      rw [if_neg hlt]
      exact ensures_pure ⟨rfl, rfl⟩

theorem readi_slice (sb : Superblock) (h : (s.copy k).Full s.disk.block)
    (hoff : off ≤ (s.copy k).size) (hn : off + n < 2 ^ 32) :
    Ensures (readi sb k (fun _ => true) off n) s fun r s' =>
      r = (((min (off + n) (s.copy k).size - off : ℕ) : ℤ),
        (((s.copy k).bytes s.disk.block).drop off).take n) ∧ s' = s := by
  unfold readi
  apply ensures_get_bind
  rw [if_neg (by omega)]
  by_cases hlt : (s.copy k).size < off + n
  · rw [if_pos hlt, Nat.min_eq_right hlt.le]
    have hread := readLoop_slice sb h (show off + ((s.copy k).size - off) ≤ _ by omega) _ 0
      (Nat.sub_le _ _) (Nat.zero_le _)
    have hall : (((s.copy k).bytes s.disk.block).drop off).take ((s.copy k).size - off) =
        (((s.copy k).bytes s.disk.block).drop off).take n := by
      rw [List.take_of_length_le (by simp [bytes_size]),
        List.take_of_length_le (by simp [bytes_size]; omega)]
    rwa [hall] at hread
  · rw [if_neg hlt, Nat.min_eq_left (by omega), Nat.add_sub_cancel_left]
    exact readLoop_slice sb h (by omega) _ 0 (Nat.sub_le _ _) (Nat.zero_le _)

theorem readi_bytes (sb : Superblock) (h : (s.copy k).Full s.disk.block) :
    Ensures (readi sb k (fun _ => true) 0 (s.copy k).size) s
      fun r s' => r = (((s.copy k).size : ℤ), (s.copy k).bytes s.disk.block) ∧ s' = s := by
  have hsize := h.size_le
  have hread := readi_slice sb h (Nat.zero_le _)
    (show 0 + (s.copy k).size < 2 ^ 32 by unfold maxfile ndirect nindirect bsize at *; omega)
  rwa [Nat.zero_add, Nat.min_self, Nat.sub_zero, List.drop_zero,
    List.take_of_length_le (bytes_size _ _).le] at hread

theorem Dinode.Full.mapped_at {d : Dinode} {blk : ℕ → Block} (h : d.Full blk) {o : ℕ}
    (ho : o < d.size) : o / bsize < maxfile ∧ d.addr blk (o / bsize) ≠ 0 := by
  have hsize := h.size_le
  refine ⟨div_bsize_lt (by omega), h.mapped _ ?_⟩
  exact (Nat.div_mul_le_self o bsize).trans_lt ho

theorem Grown.bytes (h : Grown sb k R s t) (hfull : (s.copy k).Full s.disk.block) :
    (t.copy k).bytes t.disk.block = (s.copy k).bytes s.disk.block := by
  refine bytes_congr h.size fun o ho => ?_
  obtain ⟨hbn, hne⟩ := hfull.mapped_at ho
  rw [h.keeps _ hbn hne, h.data _ hbn hne]

theorem Grown.direntAt (h : Grown sb k R s t) (hfull : (s.copy k).Full s.disk.block) {j : ℕ}
    (hj : j * direntSize < (s.copy k).size) :
    direntAt (t.copy k) t.disk.block j = direntAt (s.copy k) s.disk.block j := by
  obtain ⟨hbn, hne⟩ := hfull.at hj
  unfold Fs.direntAt
  rw [h.keeps _ hbn hne, h.data _ hbn hne]

section

variable (h : Ledger sb s.disk.bitmap ((s.copy k).blocks s.disk.block + R)) {j : ℕ}
  (hbn : j * direntSize / bsize < maxfile)
  (hne : (s.copy k).addr s.disk.block (j * direntSize / bsize) ≠ 0) {l : List UInt8}
  (hl : l.length = direntSize)
  (ht : t = s.setBlock ((s.copy k).addr s.disk.block (j * direntSize / bsize))
    (putBytes (s.disk.block ((s.copy k).addr s.disk.block (j * direntSize / bsize)))
      (j * direntSize % bsize) l))

include h hbn hne hl ht

theorem direntAt_write : direntAt (t.copy k) t.disk.block j = Dirent.ofBytes l := by
  have haddr := addr_congr fun _ => ht ▸ indirect_setBlock h hbn hne _
  have hcopy : t.copy k = s.copy k := by rw [ht, State.copy, State.setBlock_itable]
  unfold direntAt
  rw [hcopy, haddr, ht, State.setBlock_disk_block, update_self, ← hl, getBytes_putBytes]

theorem direntAt_write_ne {j' : ℕ} (hj : j' ≠ j) (hbn' : j' * direntSize / bsize < maxfile) :
    direntAt (t.copy k) t.disk.block j' = direntAt (s.copy k) s.disk.block j' := by
  have haddr := addr_congr fun _ => ht ▸ indirect_setBlock h hbn hne _
  have hcopy : t.copy k = s.copy k := by rw [ht, State.copy, State.setBlock_itable]
  unfold direntAt
  rw [hcopy, haddr, ht, State.setBlock_disk_block]
  by_cases heq : (s.copy k).addr s.disk.block (j' * direntSize / bsize) =
      (s.copy k).addr s.disk.block (j * direntSize / bsize)
  · have hsame := addr_inj h.nodup_left hbn hbn' hne heq
    rw [heq, update_self, getBytes_putBytes_of_disjoint]
    unfold direntSize bsize at *
    omega
  · rw [update_of_ne heq]

end

/-- The entries of a directory. -/
def Dinode.entries (d : Dinode) (blk : ℕ → Block) : List Dirent :=
  (List.range (d.size / direntSize)).map (direntAt d blk)

/-- The entry goes to place `j` of the list or to its end. -/
def put (l : List Dirent) (j : ℕ) (e : Dirent) : List Dirent :=
  if j < l.length then l.set j e else l ++ [e]

theorem put_getElem? {l : List Dirent} {i j : ℕ} {e : Dirent} (hj : j ≤ l.length) :
    (put l j e)[i]? = if i = j then some e else l[i]? := by
  unfold put
  split
  · rename_i hlt
    rw [List.getElem?_set]
    by_cases hij : j = i
    · simp [hij, hij ▸ hlt]
    · simp [hij, Ne.symm hij]
  · obtain rfl : j = l.length := by omega
    rw [List.getElem?_append]
    by_cases hi : i < l.length
    · simp [hi, hi.ne]
    · by_cases heq : i = l.length
      · simp [heq]
      · rw [if_neg hi, if_neg heq, List.getElem?_eq_none (by simp; omega),
          List.getElem?_eq_none (by omega)]

@[simp] theorem entries_length (d : Dinode) (blk : ℕ → Block) :
    (d.entries blk).length = d.size / direntSize := by
  simp [Dinode.entries]

theorem entries_getElem? (d : Dinode) (blk : ℕ → Block) (j : ℕ) :
    (d.entries blk)[j]? = if j < d.size / direntSize then some (direntAt d blk j) else none := by
  unfold Dinode.entries
  split <;> simp_all

theorem entries_congr {d d' : Dinode} {blk blk' : ℕ → Block} (hsize : d'.size = d.size)
    (h : ∀ j, j * direntSize < d.size → direntAt d' blk' j = direntAt d blk j) :
    d'.entries blk' = d.entries blk := by
  unfold Dinode.entries
  rw [hsize]
  refine List.map_congr_left fun j hj => h j ?_
  have := List.mem_range.mp hj
  unfold direntSize at *
  omega

theorem entries_put {d d' : Dinode} {blk blk' : ℕ → Block} {j : ℕ} {e : Dirent}
    (hj : j * direntSize + direntSize ≤ d.size ∨ j * direntSize = d.size)
    (hsize : d'.size = max d.size (j * direntSize + direntSize))
    (hnew : direntAt d' blk' j = e)
    (hold : ∀ j', j' ≠ j → j' * direntSize < d.size → direntAt d' blk' j' = direntAt d blk j') :
    d'.entries blk' = put (d.entries blk) j e := by
  have hlen : d'.size / direntSize = max (d.size / direntSize) (j + 1) := by
    unfold direntSize at *
    omega
  apply List.ext_getElem?
  intro i
  have hle : j ≤ (d.entries blk).length := by
    rw [entries_length]
    unfold direntSize at *
    omega
  rw [put_getElem? hle, entries_getElem?, entries_getElem?, hlen]
  by_cases hij : i = j
  · subst hij
    rw [if_pos rfl, if_pos (by omega), hnew]
  · rw [if_neg hij]
    by_cases hi : i < d.size / direntSize
    · rw [if_pos (by omega), if_pos hi, hold i hij]
      unfold direntSize at *
      omega
    · rw [if_neg hi, if_neg]
      unfold direntSize at *
      omega

theorem copied_ofList (l : List UInt8) : copied (ofList l) 0 l.length = l := by
  have hmap : (List.range l.length).map (fun i => ofList l (0 + i)) = l.map some := by
    apply List.ext_getElem
    · simp
    · intro i hi hi'
      simp only [List.length_map, List.length_range] at hi
      simp [ofList, hi]
  unfold copied
  rw [hmap, List.takeWhile_eq_self_iff.mpr (by simp), List.filterMap_map]
  simp

theorem writeLoop_dirent (h : Ledger sb s.disk.bitmap ((s.copy k).blocks s.disk.block + R))
    (hout : s.log.outstanding = true) (hfull : (s.copy k).Full s.disk.block) {j : ℕ}
    {l : List UInt8} (hl : l.length = direntSize)
    (hj : j * direntSize ≤ (s.copy k).size) (hmax : j * direntSize + direntSize ≤ maxfile * bsize) :
    Ensures (writeLoop sb k (ofList l) direntSize 0 (j * direntSize) direntSize) s fun r t =>
      Touched sb k R s t ∧ Covered t k r.2 ∧
      (r = (0, j * direntSize) ∧ (∀ j', j' * direntSize < (s.copy k).size →
          direntAt (t.copy k) t.disk.block j' = direntAt (s.copy k) s.disk.block j') ∧
          (t.copy k).bytes t.disk.block = (s.copy k).bytes s.disk.block ∨
        r = (direntSize, j * direntSize + direntSize) ∧
        direntAt (t.copy k) t.disk.block j = Dirent.ofBytes l ∧
        ∀ j', j' ≠ j → j' * direntSize < (s.copy k).size →
          direntAt (t.copy k) t.disk.block j' = direntAt (s.copy k) s.disk.block j') := by
  have hbn : j * direntSize / bsize < maxfile := div_bsize_lt (by unfold direntSize at *; omega)
  have hmin : min (direntSize - 0) (bsize - j * direntSize % bsize) = direntSize := by
    have := dirent_room j
    omega
  have hcov := hfull.covered hj
  change Ensures (writeLoop sb k (ofList l) (15 + 1) 0 _ _) s _
  unfold writeLoop
  rw [if_pos (by decide)]
  refine (bmap_spec h hout hbn).bind fun a t ht => ?_
  obtain ⟨hgrown, haddr, -⟩ := ht
  have hcov := hcov.mono hfull.size_le hgrown.toTouched
  by_cases hz : a = 0
  · rw [if_pos hz]
    exact ensures_pure ⟨hgrown.toTouched, hcov,
      .inl ⟨rfl, fun j' hj' => hgrown.direntAt hfull hj', hgrown.bytes hfull⟩⟩
  · rw [if_neg hz]
    obtain rfl := haddr hz
    apply ensures_modify_bind
    have hcopied : copied (ofList l) 0 direntSize = l := by rw [← hl, copied_ofList]
    simp only [hmin, hcopied, hl, lt_irrefl, if_false]
    refine (logWrite_spec (by exact hgrown.outstanding.trans hout) _).bind fun _ v hv => ?_
    subst hv
    have hstop : writeLoop sb k (ofList l) 15 (0 + direntSize) (j * direntSize + direntSize)
        direntSize = pure (direntSize, j * direntSize + direntSize) := by
      unfold writeLoop
      rfl
    rw [hstop]
    have hwrite := touched_setBlock hgrown.ledger hbn hz
      (putBytes (t.disk.block ((t.copy k).addr t.disk.block (j * direntSize / bsize)))
        (j * direntSize % bsize) l)
    have hext := hcov.extend hz (dirent_room j) hmax
    have hwrite' := hwrite.logWrite ((t.copy k).addr t.disk.block (j * direntSize / bsize))
    refine ensures_pure ⟨hgrown.toTouched.trans hwrite',
      hext.mono (by rw [hgrown.size]; exact hfull.size_le) hwrite', .inr ⟨rfl, ?_, ?_⟩⟩
    · have hnew := direntAt_write hgrown.ledger hbn hz hl rfl
      exact hnew
    · intro j' hne hj'
      have hold := direntAt_write_ne hgrown.ledger hbn hz hl rfl hne (hfull.at hj').1
      exact hold.trans (hgrown.direntAt hfull hj')

/-- Writing one entry changes that entry, or nothing in the directory when the disk is
full. -/
theorem writei_dirent (h : Ledger sb s.disk.bitmap ((s.copy k).blocks s.disk.block + R))
    (hout : s.log.outstanding = true) (hfull : (s.copy k).Full s.disk.block) {j : ℕ}
    {l : List UInt8} (hl : l.length = direntSize)
    (hj : j * direntSize + direntSize ≤ (s.copy k).size ∨ j * direntSize = (s.copy k).size) :
    Ensures (writei sb k (ofList l) (j * direntSize) direntSize) s fun r s' =>
      r ≠ direntSize ∧ s' = s ∨ ∃ t o, Touched sb k R s t ∧
        ((t.copy k).grow o).Full t.disk.block ∧ s' = t.changed sb k (Dinode.grow o) ∧
        o % direntSize = 0 ∧
        ((t.copy k).grow o).entries t.disk.block = (if r = direntSize
          then put ((s.copy k).entries s.disk.block) j (Dirent.ofBytes l)
          else (s.copy k).entries s.disk.block) ∧
        (r ≠ direntSize → ((t.copy k).grow o).size = (s.copy k).size ∧
          ((t.copy k).grow o).bytes t.disk.block = (s.copy k).bytes s.disk.block) := by
  have hle : j * direntSize ≤ (s.copy k).size := by omega
  unfold writei
  apply ensures_get_bind
  split
  · exact ensures_pure (.inl ⟨by decide, rfl⟩)
  · split
    · exact ensures_pure (.inl ⟨by decide, rfl⟩)
    · rename_i hmax
      have hroom : j * direntSize + direntSize ≤ maxfile * bsize := by
        have := hfull.size_le
        unfold maxfile ndirect nindirect bsize direntSize at *
        omega
      refine (writeLoop_dirent h hout hfull hl hle hroom).bind fun r t ht => ?_
      obtain ⟨htouched, hcov, hcase⟩ := ht
      have hsize : (t.copy k).size ≤ maxfile * bsize := by
        rw [htouched.size]
        exact hfull.size_le
      refine (change_spec (htouched.outstanding.trans hout) k _).bind fun _ u hu => ?_
      refine ensures_pure (.inr ⟨t, r.2, htouched, hcov.full hsize, hu, ?_⟩)
      rcases hcase with ⟨rfl, hsame, hbytes⟩ | ⟨rfl, hnew, hold⟩
      · have hsize' : ((t.copy k).grow (j * direntSize)).size = (s.copy k).size := by
          rw [grow_size, htouched.size]
          exact max_eq_left hle
        refine ⟨by simp, ?_, fun _ => ⟨hsize', ?_⟩⟩
        · rw [if_neg (by simp [direntSize])]
          refine entries_congr hsize' fun j' hj' => ?_
          rw [← hsame j' hj']
          simp [direntAt]
        · rw [← hbytes]
          exact bytes_congr (hsize'.trans htouched.size.symm) fun o _ => by simp
      · refine ⟨by simp, ?_, fun hr => absurd rfl hr⟩
        rw [if_pos rfl]
        refine entries_put hj ?_ ?_ ?_
        · rw [grow_size, htouched.size]
        · rw [← hnew]
          simp [direntAt]
        · intro j' hne hj'
          rw [← hold j' hne hj']
          simp [direntAt]

end

end Xv6.Fs
