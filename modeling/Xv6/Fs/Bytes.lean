import Xv6.Fs.History

/-!
# Files as arrays of bytes

What `readi`, `writei` and `filewrite` do to the bytes of a file, at every offset and for
every amount of free blocks. The loop of `writei` copies block by block; where the source
ends in the middle of a block, the bytes before the end have been copied into the cached
block, which is then neither logged nor counted.
-/

namespace Xv6.Fs

open Eff Bag Runs Function

/-- Byte `o` of a file. Holes read as zeros. -/
def Dinode.byte (d : Dinode) (blk : ℕ → Block) (o : ℕ) : UInt8 :=
  if d.addr blk (o / bsize) = 0 then 0 else blk (d.addr blk (o / bsize)) (o % bsize)

def State.byte (s : State) (k o : ℕ) : UInt8 := (s.copy k).byte s.disk.block o

/-- The blocks whose contents have changed are in the log. -/
structure Logged (s t : State) : Prop where
  grows : s.log.blocks ⊆ t.log.blocks
  block : ∀ b, t.disk.block b ≠ s.disk.block b → b ∈ t.log.blocks

section

variable {sb : Superblock} {k bn a off n : ℕ} {R U : Multiset ℕ} {s t u : State}

theorem Logged.refl : Logged s s := ⟨fun _ h => h, fun _ h => absurd rfl h⟩

theorem Logged.trans (h : Logged s t) (h' : Logged t u) : Logged s u := by
  refine ⟨fun b hb => h'.grows (h.grows hb), fun b hb => ?_⟩
  by_cases ht : u.disk.block b = t.disk.block b
  · exact h'.grows (h.block b (ht ▸ hb))
  · exact h'.block b ht

theorem Logged.of_write (hlog : t.log.blocks = a :: s.log.blocks)
    (hblock : ∀ b, b ≠ a → t.disk.block b = s.disk.block b) : Logged s t := by
  refine ⟨fun b hb => hlog ▸ List.mem_cons_of_mem a hb, fun b hb => ?_⟩
  rw [hlog, List.mem_cons]
  exact .inl (by_contra fun hne => hb (hblock b hne))

/-! ## Allocation -/

theorem logged_balloced : Logged s (s.balloced sb a) :=
  Logged.trans (t := (s.setBit a true).logWrite (bblock sb a))
    (Logged.of_write rfl fun _ _ => rfl) (Logged.of_write rfl fun b hb => by simp [hb])

theorem logged_entered {ind j : ℕ} : Logged s (s.entered sb ind j a) :=
  logged_balloced.trans (Logged.of_write rfl fun b hb => by simp [State.entered, hb])

/-- A fresh block of zeros in place of a hole cannot be told from the hole. -/
theorem Grown.byte (h : Grown sb k R s t)
    (haddr : (t.copy k).addr t.disk.block = update ((s.copy k).addr s.disk.block) bn a)
    (hzero : (s.copy k).addr s.disk.block bn = 0) (hfresh : t.disk.block a = fun _ => 0) {o : ℕ}
    (ho : o < maxfile * bsize) : t.byte k o = s.byte k o := by
  unfold State.byte Dinode.byte
  rw [haddr]
  by_cases hbn : o / bsize = bn
  · simp [hbn, hzero, hfresh]
  · rw [update_of_ne hbn]
    split
    · rfl
    · rename_i hne
      rw [h.data _ (div_bsize_lt ho) hne]

theorem bmap_bytes (h : Ledger sb s.disk.bitmap ((s.copy k).blocks s.disk.block + R))
    (hout : s.log.outstanding = true) (hbn : bn < maxfile) :
    Ensures (bmap sb k bn) s fun _ t =>
      Logged s t ∧ ∀ o < maxfile * bsize, t.byte k o = s.byte k o := by
  unfold bmap
  apply ensures_get_bind
  by_cases hdir : bn < ndirect
  · rw [if_pos hdir]
    refine allocIfZero_spec h hout ?_ ?_ ?_
    · exact fun _ => ⟨.refl, fun _ _ => rfl⟩
    · exact fun _ => ⟨.refl, fun _ _ => rfl⟩
    · intro hz a ha hbit
      apply ensures_modify
      have hgrown := (grown_direct h hdir hz ha hbit rfl).1
      refine ⟨⟨logged_balloced.grows, logged_balloced.block⟩, fun o ho => ?_⟩
      exact hgrown.byte (addr_direct hdir ha) (by simpa [Dinode.addr, hdir] using hz)
        (by simp) ho
  · have hlt : bn - ndirect < nindirect := by unfold maxfile at hbn; omega
    rw [if_neg hdir, if_pos hlt]
    refine Ensures.bind (R := fun ind t => Grown sb k R s t ∧
      (ind ≠ 0 → (t.copy k).addrs ndirect = ind) ∧ Logged s t ∧
      ∀ o < maxfile * bsize, t.byte k o = s.byte k o) (allocIfZero_spec h hout ?_ ?_ ?_) ?_
    · exact fun _ => ⟨Grown.refl h, fun _ => rfl, .refl, fun _ _ => rfl⟩
    · exact fun _ => ⟨Grown.refl h, fun hne => absurd rfl hne, .refl, fun _ _ => rfl⟩
    · intro hz a ha hbit
      apply ensures_modify
      obtain ⟨hgrown, hind⟩ := grown_indirect h hz ha hbit rfl
      refine ⟨hgrown, fun _ => hind, ⟨logged_balloced.grows, logged_balloced.block⟩,
        fun o ho => ?_⟩
      unfold State.byte Dinode.byte
      rw [addr_indirect hz]
      split
      · rfl
      · rename_i hne
        rw [hgrown.data _ (div_bsize_lt ho) hne]
    · rintro ind t ⟨hgrown, hind, hlog, hbyte⟩
      by_cases hzero : ind = 0
      · rw [if_pos hzero]
        exact ensures_pure ⟨hlog, hbyte⟩
      · obtain rfl := hind hzero
        rw [if_neg hzero]
        apply ensures_get_bind
        have hout' : t.log.outstanding = true := hgrown.outstanding.trans hout
        refine allocIfZero_spec hgrown.ledger hout' ?_ ?_ ?_
        · exact fun _ => ⟨hlog, hbyte⟩
        · exact fun _ => ⟨hlog, hbyte⟩
        · intro hz a ha hbit
          apply ensures_modify_bind
          refine (logWrite_spec (by exact hout') _).mono fun _ u hu => ?_
          have hu : u = t.entered sb ((t.copy k).addrs ndirect) (bn - ndirect) a := hu
          subst hu
          have hgrown' := (grown_entry hgrown.ledger (Nat.not_lt.mp hdir) hbn hzero hz ha hbit
            rfl).1
          have hne : a ≠ (t.copy k).addrs ndirect := by
            rintro rfl
            exact ha (Multiset.mem_add.mpr (.inl (indirect_mem hzero)))
          refine ⟨hlog.trans logged_entered, fun o ho => ?_⟩
          rw [← hbyte o ho]
          exact hgrown'.byte (addr_entered (Nat.not_lt.mp hdir) hzero ha (hbit.lt (by simp)))
            (by simpa [Dinode.addr, hdir, hzero] using hz) (by simp [State.entered, hne]) ho

/-! ## Writing -/

theorem readable_spec : ∀ l : List (Option UInt8),
    (∀ i < ((l.takeWhile Option.isSome).filterMap id).length,
      l[i]? = some (some (((l.takeWhile Option.isSome).filterMap id).getD i 0))) ∧
    (((l.takeWhile Option.isSome).filterMap id).length < l.length →
      l[((l.takeWhile Option.isSome).filterMap id).length]? = some none) := by
  intro l
  induction l with
  | nil => simp
  | cons x l ih =>
    cases x with
    | none => simp
    | some x =>
      rw [show ((some x :: l).takeWhile Option.isSome).filterMap id =
        x :: (l.takeWhile Option.isSome).filterMap id from rfl, List.length_cons,
        List.length_cons, List.getElem?_cons_succ]
      refine ⟨fun i hi => ?_, fun hlt => ih.2 (by omega)⟩
      cases i with
      | zero => simp
      | succ i => simpa using ih.1 i (by omega)

theorem copied_spec (src : ℕ → Option UInt8) (tot m : ℕ) :
    (∀ i < (copied src tot m).length, src (tot + i) = some ((copied src tot m).getD i 0)) ∧
    ((copied src tot m).length < m → src (tot + (copied src tot m).length) = none) := by
  have hle := copied_length_le src tot m
  obtain ⟨hget, hend⟩ := readable_spec ((List.range m).map fun i => src (tot + i))
  constructor
  · intro i hi
    have h := hget i hi
    rw [List.getElem?_map, List.getElem?_range (by omega)] at h
    exact Option.some.inj h
  · intro hlt
    have h := hend (by rw [List.length_map, List.length_range]; exact hlt)
    rw [List.getElem?_map, List.getElem?_range (by exact hlt)] at h
    exact Option.some.inj h

theorem byte_setBlock (h : Ledger sb s.disk.bitmap ((s.copy k).blocks s.disk.block + R))
    (hbn : off / bsize < maxfile) (ha : (s.copy k).addr s.disk.block (off / bsize) = a)
    (hne : a ≠ 0) {l : List UInt8} (hl : l.length ≤ bsize - off % bsize) {o : ℕ}
    (ho : o < maxfile * bsize) :
    (s.setBlock a (putBytes (s.disk.block a) (off % bsize) l)).byte k o =
      if off ≤ o ∧ o < off + l.length then l.getD (o - off) 0 else s.byte k o := by
  subst ha
  have haddr : (s.copy k).addr (s.setBlock ((s.copy k).addr s.disk.block (off / bsize))
      (putBytes (s.disk.block ((s.copy k).addr s.disk.block (off / bsize))) (off % bsize)
        l)).disk.block = (s.copy k).addr s.disk.block :=
    addr_congr fun _ => indirect_setBlock h hbn hne _
  unfold State.byte Dinode.byte
  rw [State.copy, State.setBlock_itable, haddr, State.setBlock_disk_block]
  have hdiv := Nat.div_add_mod off bsize
  have hdiv' := Nat.div_add_mod o bsize
  by_cases hsame : o / bsize = off / bsize
  · rw [hsame, if_neg hne, if_neg hne, update_self]
    rw [hsame] at hdiv'
    unfold putBytes
    by_cases hin : off ≤ o ∧ o < off + l.length
    · rw [if_pos (by omega), if_pos hin]
      congr 1
      omega
    · rw [if_neg (by omega), if_neg hin]
  · have hout : ¬ (off ≤ o ∧ o < off + l.length) := by
      unfold bsize at *
      omega
    rw [if_neg hout]
    split
    · rfl
    · rename_i hne'
      have hdiff : (s.copy k).addr s.disk.block (o / bsize) ≠
          (s.copy k).addr s.disk.block (off / bsize) := fun heq =>
        hsame (addr_inj h.nodup_left hbn (div_bsize_lt ho) hne heq)
      rw [update_of_ne hdiff]

/-- From position `tot` of the source and offset `off` of the file, the loop has written
`m` bytes, and copied `p` bytes into a block that it then gave up. -/
structure Progress (sb : Superblock) (k : ℕ) (R : Multiset ℕ) (src : ℕ → Option UInt8)
    (tot off n m p : ℕ) (s t : State) : Prop where
  touched : Touched sb k R s t
  le : m ≤ n - tot
  mapped : ∀ i < m + p, (src (tot + i)).isSome = true
  byte : ∀ o < maxfile * bsize, t.byte k o =
    if off ≤ o ∧ o < off + (m + p) then (src (tot + (o - off))).getD 0 else s.byte k o
  logged : p = 0 → Logged s t
  stopped : p ≠ 0 → m + p < n - tot ∧ src (tot + (m + p)) = none ∧ (off + (m + p)) % bsize ≠ 0

section

variable {src : ℕ → Option UInt8} {tot m p : ℕ}

theorem Progress.none (ht : Touched sb k R s t) (hlog : Logged s t)
    (hbyte : ∀ o < maxfile * bsize, t.byte k o = s.byte k o) :
    Progress sb k R src tot off n 0 0 s t where
  touched := ht
  le := Nat.zero_le _
  mapped i hi := absurd hi (Nat.not_lt_zero i)
  byte o ho := by
    rw [if_neg (by omega)]
    exact hbyte o ho
  logged _ := hlog
  stopped hp := absurd rfl hp

theorem Progress.trans {m' p' : ℕ} (h : Progress sb k R src tot off n m 0 s t)
    (h' : Progress sb k R src (tot + m) (off + m) n m' p' t u) :
    Progress sb k R src tot off n (m + m') p' s u where
  touched := h.touched.trans h'.touched
  le := by
    have := h.le
    have := h'.le
    omega
  mapped i hi := by
    by_cases hlt : i < m
    · exact h.mapped i hlt
    · have := h'.mapped (i - m) (by omega)
      rwa [show tot + m + (i - m) = tot + i by omega] at this
  byte o ho := by
    rw [h'.byte o ho, h.byte o ho]
    by_cases hold : o < off + m
    · rw [if_neg (by omega)]
      by_cases hin : off ≤ o
      · rw [if_pos (by omega), if_pos (by omega)]
      · rw [if_neg (by omega), if_neg (by omega)]
    · by_cases hin : o < off + m + (m' + p')
      · rw [if_pos (by omega), if_pos (by omega),
          show tot + m + (o - (off + m)) = tot + (o - off) by omega]
      · rw [if_neg (by omega), if_neg (by omega), if_neg (by omega)]
  logged hp := (h.logged rfl).trans (h'.logged hp)
  stopped hp := by
    have hle := h.le
    obtain ⟨hlt, hnone, hmod⟩ := h'.stopped hp
    refine ⟨by omega, ?_, ?_⟩
    · rwa [Nat.add_assoc m, ← Nat.add_assoc tot]
    · rwa [Nat.add_assoc m, ← Nat.add_assoc off]

theorem progress_block (h : Ledger sb s.disk.bitmap ((s.copy k).blocks s.disk.block + R))
    (hbn : off / bsize < maxfile) (ha : (s.copy k).addr s.disk.block (off / bsize) = a)
    (hne : a ≠ 0) {w : State} {c : ℕ} (src : ℕ → Option UInt8) (tot n : ℕ)
    (hc : c = (copied src tot (min (n - tot) (bsize - off % bsize))).length)
    (hw : w = s.setBlock a (putBytes (s.disk.block a) (off % bsize)
      (copied src tot (min (n - tot) (bsize - off % bsize))))) :
    (c < min (n - tot) (bsize - off % bsize) → Progress sb k R src tot off n 0 c s w) ∧
    (c = min (n - tot) (bsize - off % bsize) →
      Progress sb k R src tot off n c 0 s (w.logWrite a)) := by
  have hle : c ≤ min (n - tot) (bsize - off % bsize) := hc ▸ copied_length_le _ _ _
  have htouched : Touched sb k R s w := by
    subst ha hw
    exact touched_setBlock h hbn hne _
  obtain ⟨hget, hend⟩ := copied_spec src tot (min (n - tot) (bsize - off % bsize))
  rw [← hc] at hget hend
  have hmapped : ∀ i < c, (src (tot + i)).isSome = true := fun i hi => by rw [hget i hi]; rfl
  have hbyte : ∀ o < maxfile * bsize, w.byte k o =
      if off ≤ o ∧ o < off + c then (src (tot + (o - off))).getD 0 else s.byte k o := by
    intro o ho
    rw [hw, byte_setBlock h hbn ha hne (by omega) ho, ← hc]
    split
    · rw [hget (o - off) (by omega)]
      rfl
    · rfl
  constructor
  · intro hlt
    refine ⟨htouched, Nat.zero_le _, by simpa using hmapped, by simpa using hbyte, ?_, ?_⟩
    · intro hzero
      rw [hzero, eq_comm, List.length_eq_zero_iff] at hc
      have hput : putBytes (s.disk.block a) (off % bsize) [] = s.disk.block a := by
        funext x
        unfold putBytes
        rw [if_neg (by simp)]
      rw [hw, hc, hput]
      refine ⟨fun _ hb => hb, fun b hb => absurd ?_ hb⟩
      by_cases hba : b = a
      · rw [hba, State.setBlock_disk_block, update_self]
      · rw [State.setBlock_disk_block, update_of_ne hba]
    · intro hpos
      rw [Nat.zero_add]
      refine ⟨by omega, hend hlt, ?_⟩
      have hdiv := Nat.div_add_mod off bsize
      have hmod : off % bsize < bsize := Nat.mod_lt _ (by decide)
      unfold bsize at *
      omega
  · intro heq
    refine ⟨htouched.logWrite a, by omega, by simpa using hmapped, fun o ho => hbyte o ho, ?_,
      fun hp => absurd rfl hp⟩
    intro _
    refine Logged.of_write (a := a) (by rw [hw]; rfl) fun b hb => ?_
    rw [hw, State.logWrite_disk, State.setBlock_disk_block, update_of_ne hb]

theorem writeLoop_bytes (src : ℕ → Option UInt8) : ∀ fuel tot off n, ∀ s : State,
    Ledger sb s.disk.bitmap ((s.copy k).blocks s.disk.block + R) → s.log.outstanding = true →
    off + (n - tot) ≤ maxfile * bsize → n - tot ≤ fuel →
      Ensures (writeLoop sb k src fuel tot off n) s fun r t =>
        ∃ m p, r = (tot + m, off + m) ∧ Progress sb k R src tot off n m p s t := by
  intro fuel
  induction fuel with
  | zero =>
    intro tot off n s hledger _ _ _
    exact ensures_pure ⟨0, 0, rfl, .none (.refl hledger) .refl fun _ _ => rfl⟩
  | succ fuel ih =>
    intro tot off n s hledger hout hmax hfuel
    unfold writeLoop
    by_cases hlt : tot < n
    · rw [if_pos hlt]
      have hbn : off / bsize < maxfile := div_bsize_lt (by omega)
      refine ((bmap_spec hledger hout hbn).and (bmap_bytes hledger hout hbn)).bind
        fun a t ht => ?_
      obtain ⟨⟨hgrown, haddr, -⟩, hlog, hbyte⟩ := ht
      have hnone : Progress sb k R src tot off n 0 0 s t := .none hgrown.toTouched hlog hbyte
      by_cases hz : a = 0
      · rw [if_pos hz]
        exact ensures_pure ⟨0, 0, rfl, hnone⟩
      · rw [if_neg hz]
        apply ensures_modify_bind
        obtain ⟨hpart, hwhole⟩ := progress_block hgrown.ledger hbn (haddr hz) hz src tot n
          rfl rfl
        have hmod : off % bsize < bsize := Nat.mod_lt _ (by decide)
        split
        · rename_i hshort
          have hall := hnone.trans (hpart hshort)
          rw [Nat.zero_add] at hall
          exact ensures_pure ⟨0, _, rfl, hall⟩
        · rename_i hshort
          have hlen := le_antisymm (copied_length_le src tot _) (Nat.not_lt.mp hshort)
          have hblock := hnone.trans (hwhole hlen)
          rw [Nat.zero_add, hlen] at hblock
          refine (logWrite_spec (by exact hgrown.outstanding.trans hout) _).bind
            fun _ v hv => ?_
          subst hv
          refine (ih _ _ _ _ hblock.touched.ledger (by exact hgrown.outstanding.trans hout)
            (by omega) (by omega)).mono fun r u hu => ?_
          obtain ⟨m, p, rfl, hrest⟩ := hu
          exact ⟨_, p, by rw [Nat.add_assoc, Nat.add_assoc], hblock.trans hrest⟩
    · rw [if_neg hlt]
      exact ensures_pure ⟨0, 0, rfl, .none (.refl hledger) .refl fun _ _ => rfl⟩

end

end

/-! ## One locked inode -/

/-- Entry `k` of the table is in use and holds a current copy of an allocated inode, and
no block is in use twice. -/
structure Locked (sb : Superblock) (s : State) (k : ℕ) : Prop where
  ref : 0 < (s.itable k).ref
  inum : (s.itable k).inum < sb.ninodes
  copy : s.copy k = s.disk.dinode (s.itable k).inum
  type : (s.copy k).type ≠ .none
  owned : Ledger sb s.disk.bitmap (used sb.ninodes s.disk.dinode s.disk.block)

/-- Inode `j` and its blocks are as they were. -/
structure Untouched (s t : State) (j : ℕ) : Prop where
  dinode : t.disk.dinode j = s.disk.dinode j
  block : ∀ b ∈ (s.disk.dinode j).held s.disk.block, t.disk.block b = s.disk.block b

/-- The bytes `b` with those from `off` on replaced by `l`. -/
def splice (b : List UInt8) (off : ℕ) (l : List UInt8) : List UInt8 :=
  b.take off ++ l ++ b.drop (off + l.length)

/-- The bytes `l` have been written to the inode of entry `k` at offset `off`, and no other
file has changed. -/
structure Wrote (sb : Superblock) (k off : ℕ) (l : List UInt8) (s t : State) : Prop where
  bytes : (t.copy k).bytes t.disk.block = splice ((s.copy k).bytes s.disk.block) off l
  size : (t.copy k).size = max (s.copy k).size (off + l.length)
  others : ∀ j < sb.ninodes, j ≠ (s.itable k).inum → Untouched s t j
  entries : ∀ j, j ≠ k → t.itable j = s.itable j
  inum : (t.itable k).inum = (s.itable k).inum
  full : (t.copy k).Full t.disk.block
  locked : Locked sb t k

section

variable {sb : Superblock} {k off n j : ℕ} {R c : Multiset ℕ} {s t u : State} {l l' : List UInt8}
  {src : ℕ → Option UInt8}

/-- In the states between calls every entry in use that is valid is such an inode. -/
theorem Inv.locked {strict op : Prop} (h : Inv sb strict op s c) (hk : k ∈ c)
    (hv : (s.itable k).valid = true) : Locked sb s k :=
  ⟨h.ref_pos hk, h.inum k (h.ref_pos hk), h.copy_eq hk hv, h.type_ne hk hv, h.owned⟩

theorem Locked.ledger (h : Locked sb s k) (hR : Rest sb s.disk (s.itable k).inum R) :
    Ledger sb s.disk.bitmap ((s.copy k).blocks s.disk.block + R) := by
  have hheld : (s.copy k).blocks s.disk.block = (s.copy k).held s.disk.block :=
    (if_neg h.type).symm
  rw [hheld, h.copy, ← hR]
  exact h.owned

theorem held_congr {d : Dinode} {blk blk' : ℕ → Block}
    (h : ∀ b ∈ d.held blk, blk' b = blk b) : d.held blk' = d.held blk := by
  unfold Dinode.held at h ⊢
  split
  · rfl
  · rename_i htype
    rw [if_neg htype] at h
    exact blocks_congr fun hne => h _ (indirect_mem hne)

theorem Untouched.trans (h : Untouched s t j) (h' : Untouched t u j) : Untouched s u j := by
  refine ⟨h'.dinode.trans h.dinode, fun b hb => ?_⟩
  rw [h'.block b ?_, h.block b hb]
  rw [h.dinode, held_congr h.block]
  exact hb

theorem splice_nil (b : List UInt8) (off : ℕ) : splice b off [] = b := by simp [splice]

theorem splice_getElem? {b : List UInt8} (hoff : off ≤ b.length) (i : ℕ) :
    (splice b off l)[i]? = if off ≤ i ∧ i < off + l.length then l[i - off]? else b[i]? := by
  unfold splice
  rw [List.append_assoc, List.getElem?_append, List.length_take, Nat.min_eq_left hoff]
  by_cases hlt : i < off
  · rw [if_pos hlt, if_neg (by omega), List.getElem?_take_of_lt hlt]
  · rw [if_neg hlt, List.getElem?_append]
    by_cases hin : i - off < l.length
    · rw [if_pos hin, if_pos (by omega)]
    · rw [if_neg hin, if_neg (by omega), List.getElem?_drop]
      congr 1
      omega

theorem splice_splice {b : List UInt8} (hoff : off ≤ b.length) :
    splice (splice b off l) (off + l.length) l' = splice b off (l ++ l') := by
  have hlen : off + l.length ≤ (splice b off l).length := by
    simp only [splice, List.length_append, List.length_take]
    omega
  apply List.ext_getElem?
  intro i
  rw [splice_getElem? hlen, splice_getElem? hoff, splice_getElem? hoff, List.length_append]
  by_cases hl : off ≤ i ∧ i < off + l.length
  · rw [if_neg (by omega), if_pos hl, if_pos (by omega), List.getElem?_append_left (by omega)]
  · rw [if_neg hl]
    by_cases hl' : off + l.length ≤ i ∧ i < off + l.length + l'.length
    · rw [if_pos hl', if_pos (by omega), List.getElem?_append_right (by omega)]
      congr 1
      omega
    · rw [if_neg hl', if_neg (by omega)]

theorem Wrote.trans (h : Wrote sb k off l s t) (h' : Wrote sb k (off + l.length) l' t u)
    (hoff : off ≤ (s.copy k).size) : Wrote sb k off (l ++ l') s u where
  bytes := by rw [h'.bytes, h.bytes, splice_splice (by rwa [bytes_size])]
  size := by
    rw [h'.size, h.size, List.length_append]
    omega
  others j hj hne := (h.others j hj hne).trans (h'.others j hj (h.inum ▸ hne))
  entries j hj := (h'.entries j hj).trans (h.entries j hj)
  inum := h'.inum.trans h.inum
  full := h'.full
  locked := h'.locked

theorem Wrote.same (h : Locked sb s k) (hfull : (s.copy k).Full s.disk.block)
    (hoff : off ≤ (s.copy k).size) (hdisk : t.disk = s.disk)
    (hentries : ∀ j, j ≠ k → t.itable j = s.itable j)
    (hentry : ∃ v, t.itable k = { s.itable k with valid := v }) :
    Wrote sb k off [] s t := by
  obtain ⟨v, hv⟩ := hentry
  have hcopy : t.copy k = s.copy k := by rw [State.copy, hv]
  refine ⟨?_, ?_, fun j _ _ => ?_, hentries, by rw [hv], ?_, ?_⟩
  · rw [hcopy, hdisk, splice_nil]
  · rw [hcopy, List.length_nil]
    omega
  · exact ⟨by rw [hdisk], fun b _ => by rw [hdisk]⟩
  · rwa [hcopy, hdisk]
  · refine ⟨by rw [hv]; exact h.ref, by rw [hv]; exact h.inum, ?_, hcopy ▸ h.type, ?_⟩
    · rw [hcopy, hdisk, hv]
      exact h.copy
    · rw [hdisk]
      exact h.owned

theorem byte_changed (s : State) (k m o : ℕ) :
    (s.changed sb k (Dinode.grow m)).byte k o = s.byte k o := by
  unfold State.byte Dinode.byte
  simp [State.copy]

theorem writei_progress (h : Locked sb s k) (hout : s.log.outstanding = true)
    (hR : Rest sb s.disk (s.itable k).inum R) (hoff : off < 2 ^ 32) (hn : n < 2 ^ 32)
    (src : ℕ → Option UInt8) :
    Ensures (writei sb k src off n) s fun r s' =>
      r = -1 ∧ s' = s ∨ ∃ (t : State) (m p : ℕ), r = m ∧ Progress sb k R src 0 off n m p s t ∧
        s' = t.changed sb k (Dinode.grow (off + m)) := by
  unfold writei
  apply ensures_get_bind
  split
  · exact ensures_pure (.inl ⟨rfl, rfl⟩)
  · rename_i hoff'
    push Not at hoff'
    split
    · exact ensures_pure (.inl ⟨rfl, rfl⟩)
    · rename_i hmax
      have hroom : off + (n - 0) ≤ maxfile * bsize := by
        unfold maxfile ndirect nindirect bsize at *
        omega
      refine (writeLoop_bytes src n 0 off n s (h.ledger hR) hout hroom le_rfl).bind
        fun r t ht => ?_
      obtain ⟨m, p, rfl, ht⟩ := ht
      refine (change_spec (ht.touched.outstanding.trans hout) k _).bind fun _ u hu => ?_
      refine ensures_pure (.inr ⟨t, m, p, by simp, ht, ?_⟩)
      exact hu

theorem Touched.locked (ht : Touched sb k R s t) (h : Locked sb s k)
    (hR : Rest sb s.disk (s.itable k).inum R) (o : ℕ) :
    Locked sb (t.changed sb k (Dinode.grow o)) k ∧
    ∀ j < sb.ninodes, j ≠ (s.itable k).inum →
      Untouched s (t.changed sb k (Dinode.grow o)) j := by
  have hinum : (t.itable k).inum = (s.itable k).inum := by rw [ht.entry]
  have htype : ((t.copy k).grow o).type ≠ .none := by
    rw [grow_type, ht.type]
    exact h.type
  constructor
  · refine ⟨?_, ?_, ?_, ?_, ?_⟩
    · rw [changed_itable, update_self, ht.entry]
      exact h.ref
    · rw [changed_itable, update_self, hinum]
      exact h.inum
    · simp [State.copy]
    · simpa [State.copy] using htype
    · rw [changed_bitmap, changed_dinode, changed_block, hinum, ht.dinode,
        hR.used_update h.inum ht.rest, Dinode.held, if_neg htype, grow_blocks]
      exact ht.ledger
  · intro j hj hne
    refine ⟨?_, fun b hb => ht.rest b (Multiset.mem_of_le (hR.held_le h.inum hj hne) hb)⟩
    rw [changed_dinode, hinum, update_of_ne hne, ht.dinode]

theorem bytes_eq (h : (s.copy k).Full s.disk.block) :
    (s.copy k).bytes s.disk.block = (List.range (s.copy k).size).map (s.byte k) := by
  unfold Dinode.bytes
  refine List.map_congr_left fun o ho => ?_
  unfold State.byte Dinode.byte
  rw [if_neg (h.mapped_at (List.mem_range.mp ho)).2]

theorem writei_wrote (h : Locked sb s k) (hfull : (s.copy k).Full s.disk.block)
    (hout : s.log.outstanding = true) (hoff : off ≤ (s.copy k).size) (hl : l.length < 2 ^ 32)
    (hsrc : ∀ i < l.length, src i = l[i]?) :
    Ensures (writei sb k src off l.length) s fun r s' =>
      s'.ftable = s.ftable ∧ (r = -1 ∧ s' = s ∨
        ∃ m ≤ l.length, r = (m : ℤ) ∧ Wrote sb k off (l.take m) s s') := by
  obtain ⟨R, hR⟩ := exists_rest (s := s) h.inum
  have hsize := hfull.size_le
  have hoff32 : off < 2 ^ 32 := by
    unfold maxfile ndirect nindirect bsize at *
    omega
  refine ((writei_progress h hout hR hoff32 hl src).and
    (writei_spec (h.ledger hR) hout hfull src off hl)).mono fun r s' hs => ?_
  obtain ⟨⟨hr, rfl⟩ | ⟨t, m, p, hr, ht, rfl⟩, hspec, -⟩ := hs
  · exact ⟨rfl, .inl ⟨hr, rfl⟩⟩
  have hm : m ≤ l.length := ht.le
  have hfull' : ((t.changed sb k (Dinode.grow (off + m))).copy k).Full
      (t.changed sb k (Dinode.grow (off + m))).disk.block := by
    rcases hspec with hsame | ⟨t', o, -, hfull', hsame⟩
    · rw [hsame]
      exact hfull
    · rw [hsame]
      simpa [State.copy] using hfull'
  have hp : p = 0 := by
    by_contra hp
    obtain ⟨hlt, hnone, -⟩ := ht.stopped hp
    rw [Nat.zero_add, hsrc _ (by omega), List.getElem?_eq_none_iff] at hnone
    omega
  subst hp
  have hlen : (l.take m).length = m := by rw [List.length_take, Nat.min_eq_left hm]
  have hsize' : ((t.changed sb k (Dinode.grow (off + m))).copy k).size =
      max (s.copy k).size (off + m) := by
    rw [State.copy, changed_itable, update_self, grow_size, ht.touched.size]
  obtain ⟨hlocked, hothers⟩ := ht.touched.locked h hR (off + m)
  refine ⟨ht.touched.ftable, .inr ⟨m, hm, hr, ?_, by rw [hsize', hlen], hothers, fun j hj => ?_,
    by rw [changed_itable, update_self, ht.touched.entry], hfull', hlocked⟩⟩
  · rw [bytes_eq hfull', bytes_eq hfull, hsize']
    have hle := hfull'.size_le
    rw [hsize'] at hle
    apply List.ext_getElem?
    intro i
    rw [splice_getElem? (by simpa using hoff), hlen, List.getElem?_map, List.getElem?_map]
    by_cases hi : i < max (s.copy k).size (off + m)
    · rw [List.getElem?_range hi, Option.map_some, byte_changed, ht.byte i (by omega)]
      by_cases hin : off ≤ i ∧ i < off + m
      · rw [if_pos (by omega), if_pos hin, Nat.zero_add, hsrc _ (by omega),
          List.getElem?_take_of_lt (by omega), List.getElem?_eq_getElem (by omega)]
        rfl
      · rw [if_neg (by omega), if_neg hin, List.getElem?_range (by omega)]
        rfl
    · rw [if_neg (by omega), List.getElem?_eq_none (by simpa using hi),
        List.getElem?_eq_none (by simp only [List.length_range]; omega)]
      rfl
  · rw [changed_itable, update_of_ne hj, ht.touched.other j hj]

/-! ## Writing an open file -/

theorem ensures_transaction {α : Type} {f : M α} {Q : α → State → Prop}
    (h : Ensures f s.begun fun r t => Q r t.ended) : Ensures (transaction f) s Q := by
  unfold transaction beginOp endOp
  apply ensures_modify_bind
  exact h.bind fun r t ht => ensures_modify_bind (ensures_pure ht)

theorem ilock_locked (h : Locked sb s k) : Ensures (ilock k) s fun _ t =>
    t.disk = s.disk ∧ t.ftable = s.ftable ∧ t.log = s.log ∧
      (∀ j, j ≠ k → t.itable j = s.itable j) ∧
      ∃ v, t.itable k = { s.itable k with valid := v } := by
  have href := h.ref
  unfold ilock
  apply ensures_get_bind
  rw [if_neg (by omega)]
  split
  · exact ensures_pure ⟨rfl, rfl, rfl, fun _ _ => rfl, _, rfl⟩
  · apply ensures_modify_bind
    rw [if_neg (h.copy ▸ h.type)]
    refine ensures_pure ⟨rfl, rfl, rfl, fun j hj => by simp [hj], true, ?_⟩
    rw [State.setInode_itable, update_self, ← h.copy]

theorem writeOp_wrote {f : ℕ} (h : Locked sb s k) (hfull : (s.copy k).Full s.disk.block)
    (hip : (s.ftable f).ip = k) (hoff : (s.ftable f).off ≤ (s.copy k).size)
    (src : ℕ → Option UInt8) (hl : l.length < 2 ^ 32) (hsrc : ∀ i < l.length, src i = l[i]?) :
    Ensures (transaction (writeOp sb f src l.length)) s fun r t =>
      ∃ m ≤ l.length, (r = l.length → m = l.length) ∧
        Wrote sb k (s.ftable f).off (l.take m) s t ∧
        t.ftable f = { s.ftable f with off := (s.ftable f).off + m } := by
  apply ensures_transaction
  unfold writeOp
  apply ensures_get_bind
  have hbegun : Wrote sb k (s.ftable f).off [] s s.begun :=
    .same h hfull hoff rfl (fun _ _ => rfl) ⟨_, rfl⟩
  rw [show (s.begun.ftable f).ip = k from hip, show s.begun.ftable = s.ftable from rfl]
  refine (ilock_locked hbegun.locked).bind fun _ t ht => ?_
  obtain ⟨hdisk, hftable, hlog, hentries, hentry⟩ := ht
  have hlock : Wrote sb k (s.ftable f).off [] s t :=
    hbegun.trans (.same hbegun.locked hbegun.full hoff hdisk hentries hentry) hoff
  have hoff' : (s.ftable f).off ≤ (t.copy k).size := by
    rw [hlock.size]
    exact le_max_of_le_left hoff
  refine (writei_wrote hlock.locked hlock.full (by rw [hlog]; rfl) hoff' hl hsrc).bind
    fun r u hu => ?_
  obtain ⟨huf, hu⟩ := hu
  have hfile : u.ftable f = s.ftable f := by rw [huf, hftable]; rfl
  rcases hu with ⟨rfl, rfl⟩ | ⟨m, hm, rfl, hwrote⟩
  · rw [if_neg (by decide)]
    refine ensures_pure ⟨0, Nat.zero_le _, fun hr => by omega, ?_, ?_⟩
    · exact hlock.trans (.same hlock.locked hlock.full hoff' rfl (fun _ _ => rfl) ⟨_, rfl⟩) hoff
    · exact hfile
  · have hwrote := hlock.trans hwrote hoff
    rw [List.nil_append] at hwrote
    have hlen : (l.take m).length = m := by rw [List.length_take, Nat.min_eq_left hm]
    have hsize := hwrote.size
    have hmax := hwrote.full.size_le
    rw [hlen] at hsize
    -- the offset stays below the largest size of a file
    have hlt : (s.ftable f).off + m < 2 ^ 32 := by
      unfold maxfile ndirect nindirect bsize at *
      omega
    have hend : ∀ v : State, v.disk = u.disk → v.itable = u.itable →
        Wrote sb k (s.ftable f).off (l.take m) s v := by
      intro v hvd hvi
      have hsame : Wrote sb k ((s.ftable f).off + (l.take m).length) [] u v :=
        .same hwrote.locked hwrote.full (by omega) hvd (fun j _ => by rw [hvi])
          ⟨_, by rw [hvi]⟩
      simpa using hwrote.trans hsame hoff
    split
    · apply ensures_modify_bind
      refine ensures_pure ⟨m, hm, fun hr => by exact_mod_cast hr, hend _ rfl rfl, ?_⟩
      change update u.ftable f _ f = _
      rw [update_self, hfile, Int.toNat_natCast, Nat.mod_eq_of_lt hlt]
    · rename_i hpos
      obtain rfl : m = 0 := by omega
      refine ensures_pure ⟨0, hm, fun hr => by exact_mod_cast hr, hend _ rfl rfl, ?_⟩
      exact hfile

theorem filewriteLoop_wrote {f : ℕ} (hsrc : ∀ i < l.length, src i = l[i]?) :
    ∀ fuel i, ∀ s : State, l.length - i ≤ fuel → i ≤ l.length → Locked sb s k →
      (s.copy k).Full s.disk.block → (s.ftable f).ip = k →
      (s.ftable f).off ≤ (s.copy k).size →
      Ensures (filewriteLoop sb f src fuel i l.length) s fun all t => all = true →
        Wrote sb k (s.ftable f).off (l.drop i) s t ∧
        (t.ftable f).off = (s.ftable f).off + (l.length - i) := by
  intro fuel
  have hdone : ∀ s : State, Locked sb s k → (s.copy k).Full s.disk.block →
      (s.ftable f).off ≤ (s.copy k).size → Wrote sb k (s.ftable f).off (l.drop l.length) s s := by
    intro s h hfull hoff
    rw [List.drop_length]
    exact .same h hfull hoff rfl (fun _ _ => rfl) ⟨_, rfl⟩
  induction fuel with
  | zero =>
    intro i s hfuel hi h hfull _ hoff
    obtain rfl : i = l.length := by omega
    exact ensures_pure fun _ => ⟨hdone s h hfull hoff, by omega⟩
  | succ fuel ih =>
    intro i s hfuel hi h hfull hip hoff
    unfold filewriteLoop
    by_cases hlt : i < l.length
    · rw [if_pos hlt]
      obtain ⟨n1, hn1⟩ : ∃ n1, n1 = min (l.length - i) maxwrite := ⟨_, rfl⟩
      have hpos : 0 < n1 := by
        unfold maxwrite bsize at hn1
        omega
      have hlen : ((l.drop i).take n1).length = n1 := by
        rw [List.length_take, List.length_drop]
        omega
      have hop := writeOp_wrote (l := (l.drop i).take n1) h hfull hip hoff
        (fun j => src (i + j)) (by rw [hlen]; unfold maxwrite bsize at hn1; omega) fun j hj => by
          rw [hlen] at hj
          rw [hsrc _ (by omega), List.getElem?_take_of_lt hj, List.getElem?_drop]
      rw [hlen] at hop
      simp only [← hn1]
      refine hop.bind fun r t ht => ?_
      obtain ⟨m, hm, hr, hwrote, hfile⟩ := ht
      split
      · exact ensures_pure fun hall => by cases hall
      · rename_i hrn
        obtain rfl := hr (not_not.mp hrn)
        rw [List.take_take, Nat.min_self] at hwrote
        have hoff' : (s.ftable f).off + m = (t.ftable f).off := by rw [hfile]
        have hsize := hwrote.size
        rw [hlen] at hsize
        refine (ih (i + m) t (by omega) (by omega) hwrote.locked hwrote.full (by rw [hfile, hip])
          (by omega)).mono fun all u hu hall => ?_
        obtain ⟨hrest, hend⟩ := hu hall
        rw [← hoff'] at hrest hend
        refine ⟨?_, by omega⟩
        rw [← List.take_append_drop m (l.drop i), List.drop_drop]
        exact hwrote.trans (by rw [hlen]; exact hrest) hoff
    · obtain rfl : i = l.length := by omega
      rw [if_neg hlt]
      exact ensures_pure fun _ => ⟨hdone s h hfull hoff, by omega⟩

theorem filewrite_wrote {f : ℕ} (h : Locked sb s k) (hfull : (s.copy k).Full s.disk.block)
    (hsrc : ∀ i < l.length, src i = l[i]?) (htype : (s.ftable f).type = .inode)
    (hip : (s.ftable f).ip = k) (hoff : (s.ftable f).off ≤ (s.copy k).size) :
    Ensures (filewrite sb f src l.length) s fun r t => r = -1 ∨
      r = l.length ∧ Wrote sb k (s.ftable f).off l s t ∧
        (t.ftable f).off = (s.ftable f).off + l.length := by
  unfold filewrite
  apply ensures_get_bind
  split
  · exact ensures_pure (.inl rfl)
  · rw [htype]
    change Ensures (if (l.length : ℤ) < 0 then _ else _) s _
    rw [if_neg (by omega)]
    refine (filewriteLoop_wrote hsrc l.length 0 s (by omega) (Nat.zero_le _) h hfull hip
      hoff).bind fun all t ht => ?_
    apply ensures_pure
    cases all with
    | false => exact .inl rfl
    | true => exact .inr ⟨rfl, ht rfl⟩

/-! ## The results -/

theorem readi_wrapped (sb : Superblock) (hn : n < 2 ^ 32) (hoff : off < 2 ^ 32)
    (hwrap : 2 ^ 32 ≤ off + n) :
    Ensures (readi sb k (fun _ => true) off n) s fun r s' => r = (0, []) ∧ s' = s := by
  unfold readi
  apply ensures_get_bind
  rw [if_pos (by omega)]
  exact ensures_pure ⟨rfl, rfl⟩

/-- A file without holes is an array of bytes. A write of bytes that can be read replaces
those at its offset, up to the number it returns; `readi` returns the bytes that lie in the
file, unless the end of the request exceeds 32 bits; and a `filewrite` that returns its
length has written as one `writei` would have. -/
theorem file_bytes (h : Locked sb s k) (hfull : (s.copy k).Full s.disk.block) (l : List UInt8)
    (src : ℕ → Option UInt8) (hsrc : ∀ i < l.length, src i = l[i]?) :
    (s.log.outstanding = true → l.length < 2 ^ 32 → ∀ off ≤ (s.copy k).size,
      Ensures (writei sb k src off l.length) s fun r t => r = -1 ∧ t = s ∨
        ∃ tot ≤ l.length, r = (tot : ℤ) ∧ Wrote sb k off (l.take tot) s t) ∧
    (∀ off ≤ (s.copy k).size, ∀ n, off + n < 2 ^ 32 →
      Ensures (readi sb k (fun _ => true) off n) s fun r t =>
        r = (((min (off + n) (s.copy k).size - off : ℕ) : ℤ),
          (((s.copy k).bytes s.disk.block).drop off).take n) ∧ t = s) ∧
    (∀ off ≤ (s.copy k).size, ∀ n < 2 ^ 32, 2 ^ 32 ≤ off + n →
      Ensures (readi sb k (fun _ => true) off n) s fun r t => r = (0, []) ∧ t = s) ∧
    ∀ f, (s.ftable f).type = .inode → (s.ftable f).ip = k →
      (s.ftable f).off ≤ (s.copy k).size →
      Ensures (filewrite sb f src l.length) s fun r t => r = -1 ∨
        r = l.length ∧ Wrote sb k (s.ftable f).off l s t ∧
          (t.ftable f).off = (s.ftable f).off + l.length := by
  refine ⟨fun hout hl off hoff => ?_, fun off hoff n hn => readi_slice sb hfull hoff hn,
    fun off hoff n hn hwrap => ?_,
    fun f htype hip hoff => filewrite_wrote h hfull hsrc htype hip hoff⟩
  · exact (writei_wrote h hfull hout hoff hl hsrc).mono fun r t ht => ht.2
  · have hsize := hfull.size_le
    refine readi_wrapped sb hn ?_ hwrap
    unfold maxfile ndirect nindirect bsize at *
    omega

theorem Wf.locked {strict : Prop} {f : ℕ} (h : Wf sb strict s 0 0)
    (htype : (s.ftable f).type = .inode) (hw : (s.ftable f).writable = true) :
    Locked sb s (s.ftable f).ip ∧ (s.copy (s.ftable f).ip).Full s.disk.block := by
  have hinv := h.inv_refs
  have hip := h.ip_mem (f := f) (by rw [htype]; decide)
  have hv := (h.plain f htype hw).1
  exact ⟨hinv.locked hip hv, hinv.copy_full hip hv⟩

theorem file_bytes_new : ∃ s t, ireclaim layout (mount (rootImage bsize)) = .ok ((), s) ∧
    exec (step layout) s [⟨0, .open pathX ⟨false, true, true, false, false⟩⟩] = some t ∧
    Ensures (filewrite layout 0 (ofList [97, 98, 99]) 3) t fun r u => r = -1 ∨
      r = 3 ∧ (u.ftable 0).off = 3 := by
  obtain ⟨s, t, hs, ht, htype, hw, hoff⟩ := after_some layout (rootImage bsize)
    [.open pathX ⟨false, true, true, false, false⟩]
    (fun t => (t.ftable 0).type = .inode ∧ (t.ftable 0).writable = true ∧ (t.ftable 0).off = 0)
    (by decide +kernel)
  obtain ⟨hlocked, hfull⟩ := (exec_wf rootImage_formed.toWhole hs ht).locked htype hw
  refine ⟨s, t, hs, ht, ?_⟩
  refine ((file_bytes hlocked hfull [97, 98, 99] (ofList [97, 98, 99]) fun _ _ => rfl).2.2.2 0
    htype rfl (by omega)).mono fun r u hu => hu.imp_right fun hu => ⟨hu.1, ?_⟩
  rw [hu.2.2, hoff]
  rfl

/-- Byte 1 of the root directory exists, and a request for `2 ^ 32 - 1` bytes from it on
gets none. -/
theorem readi_wraps : ∃ s, Locked layout s 0 ∧ (s.copy 0).Full s.disk.block ∧
    Ensures (readi layout 0 (fun _ => true) 1 (2 ^ 32 - 1)) s (fun r t => r = (0, []) ∧ t = s) ∧
    (((s.copy 0).bytes s.disk.block).drop 1).take (2 ^ 32 - 1) ≠ [] := by
  have hfull := rootImage_formed.full rootino layout.root_lt (by decide)
  refine ⟨(mount (rootImage bsize)).setInode 0 fun e =>
    { e with copy := (rootImage bsize).dinode rootino, valid := true }, ?_, hfull,
    readi_wrapped layout (by decide) (by decide) (by decide), ?_⟩
  · exact ⟨by decide, layout.root_lt, rfl, by decide, rootImage_ledger⟩
  · refine List.ne_nil_of_length_pos ?_
    rw [List.length_take, List.length_drop, bytes_size]
    decide

end

end Xv6.Fs
