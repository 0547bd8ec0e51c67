import Xv6.Fs.Contents

/-!
# The inode layer

What a file system means: every inode number is free or holds a typed node with a link
count and, for a directory, a list of entries. `Inv` relates the disk, the inode table
and a multiset of references held to table entries. Each operation of the inode layer
keeps it and does one thing to the nodes. The invariant has a strict form in which no
table entry refers to a free inode.
-/

namespace Xv6.Fs

open Eff Bag Function

structure Node where
  type : FileType
  nlink : ℤ
  ents : List Dirent
  deriving DecidableEq

def Node.free : Node := ⟨.none, 0, []⟩

def Dinode.node (d : Dinode) (blk : ℕ → Block) : Node :=
  if d.type = .none then Node.free
  else ⟨d.type, d.nlink, if d.type = .dir then d.entries blk else []⟩

/-- The file system on a disk. -/
def nodes (sb : Superblock) (disk : Disk) (i : ℕ) : Node :=
  if i < sb.ninodes then (disk.dinode i).node disk.block else Node.free

/-- A file as its readers see it. -/
structure View where
  type : FileType
  major : ℤ
  minor : ℤ
  nlink : ℤ
  size : ℕ
  bytes : List UInt8
  deriving DecidableEq

def Dinode.view (d : Dinode) (blk : ℕ → Block) : Option View :=
  if d.type = .none then none
  else some ⟨d.type, d.major, d.minor, d.nlink, d.size, d.bytes blk⟩

/-- The files on a disk. -/
def files (sb : Superblock) (disk : Disk) (i : ℕ) : Option View :=
  if i < sb.ninodes then (disk.dinode i).view disk.block else none

/-- The panics that remain possible. -/
def Panics (strict : Prop) (msg : String) : Prop :=
  msg ≠ "freeing free block" ∧ msg ≠ "log_write outside of trans" ∧
    (strict → msg ≠ "ilock: no type")

theorem panics {strict : Prop} {msg : String}
    (h : msg ∉ ["freeing free block", "log_write outside of trans", "ilock: no type"]) :
    Panics strict msg := by
  simp only [List.mem_cons, List.not_mem_nil, or_false, not_or] at h
  exact ⟨h.1, h.2.1, fun _ => h.2.2⟩

/-- The invariant between the operations of the inode layer. `c` counts references to
table entries; `op` says that a transaction is open. -/
structure Inv (sb : Superblock) (strict op : Prop) (s : State) (c : Multiset ℕ) : Prop where
  owned : Ledger sb s.disk.bitmap (used sb.ninodes s.disk.dinode s.disk.block)
  full : ∀ i < sb.ninodes, (s.disk.dinode i).type ≠ .none → (s.disk.dinode i).Full s.disk.block
  range : ∀ i, ∀ e ∈ (nodes sb s.disk i).ents, e.inum < sb.ninodes
  bound : ∀ k, 0 < (s.itable k).ref → k < ninode
  inum : ∀ k, 0 < (s.itable k).ref → (s.itable k).inum < sb.ninodes
  valid : ∀ k, 0 < (s.itable k).ref → (s.itable k).valid = true →
    s.copy k = s.disk.dinode (s.itable k).inum ∧ (s.copy k).type ≠ .none
  uniq : ∀ k l, 0 < (s.itable k).ref → 0 < (s.itable l).ref →
    (s.itable k).inum = (s.itable l).inum → k = l
  counted : ∀ k, (s.itable k).ref = c.count k
  live : strict → ∀ k, 0 < (s.itable k).ref → (s.disk.dinode (s.itable k).inum).type ≠ .none
  aligned : strict → ∀ i < sb.ninodes, (s.disk.dinode i).type = .dir →
    (s.disk.dinode i).size % direntSize = 0
  logging : op → s.log.outstanding = true

/-- What the holders of the references in `c` can rely on. -/
structure Kept (c : Multiset ℕ) (s s' : State) : Prop where
  ftable : s'.ftable = s.ftable
  proc : s'.proc = s.proc
  inum : ∀ k ∈ c, (s'.itable k).inum = (s.itable k).inum
  valid : ∀ k ∈ c, (s.itable k).valid = true →
    (s'.itable k).valid = true ∧ (s'.copy k).type = (s.copy k).type

/-- Nothing has been written, in the strict form. -/
structure Quiet (strict : Prop) (c : Multiset ℕ) (s s' : State) : Prop extends Kept c s s' where
  disk : strict → s'.disk = s.disk
  log : strict → s'.log = s.log

section

variable {sb : Superblock} {strict op op' : Prop} {c c' : Multiset ℕ} {s t u : State} {i j k : ℕ}

theorem Kept.refl : Kept c s s :=
  ⟨rfl, rfl, fun _ _ => rfl, fun _ _ h => ⟨h, rfl⟩⟩

theorem Kept.trans (h : Kept c s t) (h' : Kept c t u) : Kept c s u where
  ftable := h'.ftable.trans h.ftable
  proc := h'.proc.trans h.proc
  inum k hk := (h'.inum k hk).trans (h.inum k hk)
  valid k hk hv := by
    obtain ⟨hv', htype⟩ := h.valid k hk hv
    obtain ⟨hv'', htype'⟩ := h'.valid k hk hv'
    exact ⟨hv'', htype'.trans htype⟩

theorem Kept.mono (h : Kept c' s t) (hc : c ⊆ c') : Kept c s t :=
  ⟨h.ftable, h.proc, fun k hk => h.inum k (hc hk), fun k hk => h.valid k (hc hk)⟩

theorem Quiet.refl : Quiet strict c s s := ⟨Kept.refl, fun _ => rfl, fun _ => rfl⟩

theorem Quiet.trans (h : Quiet strict c s t) (h' : Quiet strict c t u) : Quiet strict c s u :=
  ⟨h.toKept.trans h'.toKept, fun hs => (h'.disk hs).trans (h.disk hs),
    fun hs => (h'.log hs).trans (h.log hs)⟩

theorem Quiet.weaken (h : Quiet True c s t) : Quiet strict c s t :=
  ⟨h.toKept, fun _ => h.disk trivial, fun _ => h.log trivial⟩

theorem Quiet.mono (h : Quiet strict c' s t) (hc : c ⊆ c') : Quiet strict c s t :=
  ⟨h.toKept.mono hc, h.disk, h.log⟩

theorem Inv.ref_pos (h : Inv sb strict op s c) (hk : k ∈ c) : 0 < (s.itable k).ref := by
  have := Multiset.one_le_count_iff_mem.mpr hk
  have := h.counted k
  omega

theorem Inv.congr (h : Inv sb strict op s c) (hdisk : t.disk = s.disk)
    (htable : t.itable = s.itable) (hlog : op' → t.log.outstanding = true) :
    Inv sb strict op' t c := by
  obtain ⟨disk, itable, ftable, proc, log⟩ := t
  dsimp only at hdisk htable
  subst hdisk htable
  exact ⟨h.owned, h.full, h.range, h.bound, h.inum, h.valid, h.uniq, h.counted, h.live, h.aligned,
    hlog⟩

/-! ## Changing one inode -/

/-- The blocks of the inodes other than `i`. -/
def Rest (sb : Superblock) (disk : Disk) (i : ℕ) (R : Multiset ℕ) : Prop :=
  used sb.ninodes disk.dinode disk.block = (disk.dinode i).held disk.block + R

theorem exists_rest (hi : i < sb.ninodes) : ∃ R, Rest sb s.disk i R :=
  total_split (fun i => (s.disk.dinode i).held s.disk.block) hi

section

variable {R : Multiset ℕ} {blk' : ℕ → Block}

theorem Rest.held_le (h : Rest sb s.disk i R) (hi : i < sb.ninodes) (hj : j < sb.ninodes)
    (hne : j ≠ i) : (s.disk.dinode j).held s.disk.block ≤ R := by
  have hle := add_le_total (fun i => (s.disk.dinode i).held s.disk.block) hi hj hne.symm
  change _ ≤ used _ _ _ at hle
  rw [h] at hle
  exact (Multiset.add_le_add_iff_left).mp hle

variable (h : Rest sb s.disk i R) (hi : i < sb.ninodes)
  (hb : ∀ b ∈ R, blk' b = s.disk.block b)

include h hi hb

theorem Rest.block_eq (hj : j < sb.ninodes) (hne : j ≠ i)
    (htype : (s.disk.dinode j).type ≠ .none) {b : ℕ}
    (hmem : b ∈ (s.disk.dinode j).blocks s.disk.block) : blk' b = s.disk.block b := by
  have hle := h.held_le hi hj hne
  rw [Dinode.held, if_neg htype] at hle
  exact hb b (Multiset.mem_of_le hle hmem)

theorem Rest.addr_eq (hj : j < sb.ninodes) (hne : j ≠ i)
    (htype : (s.disk.dinode j).type ≠ .none) :
    (s.disk.dinode j).addr blk' = (s.disk.dinode j).addr s.disk.block :=
  addr_congr fun hind => h.block_eq hi hb hj hne htype (indirect_mem hind)

theorem Rest.held_eq (hj : j < sb.ninodes) (hne : j ≠ i) :
    (s.disk.dinode j).held blk' = (s.disk.dinode j).held s.disk.block := by
  unfold Dinode.held
  split
  · rfl
  · rename_i htype
    unfold Dinode.blocks
    rw [h.addr_eq hi hb hj hne htype]

theorem Rest.used_update (d : Dinode) :
    used sb.ninodes (update s.disk.dinode i d) blk' = d.held blk' + R := by
  have hchange := total_change (f := fun j => (s.disk.dinode j).held s.disk.block)
    (g := fun j => (update s.disk.dinode i d j).held blk') hi fun j hj hne => by
      simp only [update_of_ne hne]
      exact h.held_eq hi hb hj hne
  change used _ _ _ + _ = used _ _ _ + _ at hchange
  simp only [update_self] at hchange
  rw [h] at hchange
  exact add_right_cancel (hchange.trans (by ac_rfl))

theorem Rest.full (hj : j < sb.ninodes) (hne : j ≠ i) (htype : (s.disk.dinode j).type ≠ .none)
    (hfull : (s.disk.dinode j).Full s.disk.block) : (s.disk.dinode j).Full blk' := by
  refine ⟨hfull.size_le, fun bn hbn => ?_⟩
  rw [h.addr_eq hi hb hj hne htype]
  exact hfull.mapped bn hbn

theorem Rest.node (hj : j < sb.ninodes) (hne : j ≠ i)
    (hfull : (s.disk.dinode j).type ≠ .none → (s.disk.dinode j).Full s.disk.block) :
    (s.disk.dinode j).node blk' = (s.disk.dinode j).node s.disk.block := by
  unfold Dinode.node
  split
  · rfl
  · rename_i htype
    have hentries : (s.disk.dinode j).entries blk' = (s.disk.dinode j).entries s.disk.block := by
      refine entries_congr rfl fun x hx => ?_
      obtain ⟨hbn, haddr⟩ := (hfull htype).at hx
      unfold direntAt
      rw [h.addr_eq hi hb hj hne htype, h.block_eq hi hb hj hne htype (addr_mem hbn haddr)]
    rw [hentries]

theorem Rest.view (hj : j < sb.ninodes) (hne : j ≠ i)
    (hfull : (s.disk.dinode j).type ≠ .none → (s.disk.dinode j).Full s.disk.block) :
    (s.disk.dinode j).view blk' = (s.disk.dinode j).view s.disk.block := by
  unfold Dinode.view
  split
  · rfl
  · rename_i htype
    rw [bytes_congr rfl fun o ho => ?_]
    obtain ⟨hbn, haddr⟩ := (hfull htype).mapped_at ho
    rw [h.addr_eq hi hb hj hne htype, h.block_eq hi hb hj hne htype (addr_mem hbn haddr)]

end

/-- Inode `i`, of table entry `k`, becomes `d`. -/
structure Replaced (sb : Superblock) (i k : ℕ) (d : Dinode) (R : Multiset ℕ) (s t : State) :
    Prop where
  dinode : t.disk.dinode = update s.disk.dinode i d
  ftable : t.ftable = s.ftable
  proc : t.proc = s.proc
  outstanding : t.log.outstanding = s.log.outstanding
  other : ∀ l, l ≠ k → t.itable l = s.itable l
  ledger : Ledger sb t.disk.bitmap (d.held t.disk.block + R)
  rest : ∀ b ∈ R, t.disk.block b = s.disk.block b
  full : d.type ≠ .none → d.Full t.disk.block
  range : ∀ e ∈ (d.node t.disk.block).ents, e.inum < sb.ninodes

section

variable {d : Dinode} {R : Multiset ℕ}

theorem Replaced.nodes (ht : Replaced sb i k d R s t) (h : Inv sb strict op s c)
    (hi : i < sb.ninodes) (hR : Rest sb s.disk i R) :
    nodes sb t.disk = update (nodes sb s.disk) i (d.node t.disk.block) := by
  funext j
  unfold Fs.nodes
  by_cases hji : j = i
  · subst hji
    simp [hi, ht.dinode]
  · rw [update_of_ne hji, ht.dinode, update_of_ne hji]
    split
    · rename_i hj
      exact hR.node hi ht.rest hj hji fun htype => h.full j hj htype
    · rfl

theorem Replaced.files (ht : Replaced sb i k d R s t) (h : Inv sb strict op s c)
    (hi : i < sb.ninodes) (hR : Rest sb s.disk i R) :
    files sb t.disk = update (files sb s.disk) i (d.view t.disk.block) := by
  funext j
  unfold Fs.files
  by_cases hji : j = i
  · subst hji
    simp [hi, ht.dinode]
  · rw [update_of_ne hji, ht.dinode, update_of_ne hji]
    split
    · rename_i hj
      exact hR.view hi ht.rest hj hji fun htype => h.full j hj htype
    · rfl

theorem Replaced.inv (ht : Replaced sb i k d R s t) (h : Inv sb strict op s c)
    (hR : Rest sb s.disk i R) (href : 0 < (s.itable k).ref) (hk : (s.itable k).inum = i)
    (hinum : 0 < (t.itable k).ref → (t.itable k).inum = i ∧ (strict → d.type ≠ .none))
    (hvalid : 0 < (t.itable k).ref → (t.itable k).valid = true →
      t.copy k = d ∧ d.type ≠ .none)
    (hcounted : ∀ l, (t.itable l).ref = c'.count l)
    (haligned : strict → d.type = .dir → d.size % direntSize = 0) : Inv sb strict op t c' := by
  have hi : i < sb.ninodes := hk ▸ h.inum k href
  -- an active entry other than `k` is for another inode
  have hother : ∀ l, l ≠ k → 0 < (t.itable l).ref →
      0 < (s.itable l).ref ∧ (t.itable l).inum = (s.itable l).inum ∧ (s.itable l).inum ≠ i := by
    intro l hl hpos
    rw [ht.other l hl] at hpos ⊢
    refine ⟨hpos, rfl, fun heq => hl (h.uniq l k hpos href (heq.trans hk.symm))⟩
  constructor
  · rw [ht.dinode, hR.used_update hi ht.rest]
    exact ht.ledger
  · intro j hj htype
    rw [ht.dinode] at htype ⊢
    by_cases hji : j = i
    · subst hji
      simp only [update_self] at htype ⊢
      exact ht.full htype
    · rw [update_of_ne hji] at htype ⊢
      exact hR.full hi ht.rest hj hji htype (h.full j hj htype)
  · intro j e he
    rw [ht.nodes h hi hR] at he
    by_cases hji : j = i
    · subst hji
      rw [update_self] at he
      exact ht.range e he
    · rw [update_of_ne hji] at he
      exact h.range j e he
  · intro l hpos
    by_cases hl : l = k
    · subst hl
      exact h.bound l href
    · exact h.bound l (hother l hl hpos).1
  · intro l hpos
    by_cases hl : l = k
    · subst hl
      rw [(hinum hpos).1]
      exact hi
    · obtain ⟨hpos', heq, -⟩ := hother l hl hpos
      rw [heq]
      exact h.inum l hpos'
  · intro l hpos hv
    by_cases hl : l = k
    · subst hl
      obtain ⟨hcopy, htype⟩ := hvalid hpos hv
      rw [(hinum hpos).1, hcopy, ht.dinode, update_self]
      exact ⟨rfl, htype⟩
    · obtain ⟨hpos', heq, hne⟩ := hother l hl hpos
      rw [State.copy, heq, ht.dinode, update_of_ne hne, ht.other l hl]
      rw [ht.other l hl] at hv
      exact h.valid l hpos' hv
  · intro l m hl hm heq
    by_cases hlk : l = k <;> by_cases hmk : m = k
    · rw [hlk, hmk]
    · subst hlk
      obtain ⟨-, hm', hne⟩ := hother m hmk hm
      rw [(hinum hl).1, hm'] at heq
      exact absurd heq.symm hne
    · subst hmk
      obtain ⟨-, hl', hne⟩ := hother l hlk hl
      rw [(hinum hm).1, hl'] at heq
      exact absurd heq hne
    · rw [ht.other l hlk] at hl heq
      rw [ht.other m hmk] at hm heq
      exact h.uniq l m hl hm heq
  · exact hcounted
  · intro hs l hpos
    by_cases hl : l = k
    · subst hl
      rw [(hinum hpos).1, ht.dinode, update_self]
      exact (hinum hpos).2 hs
    · obtain ⟨hpos', heq, hne⟩ := hother l hl hpos
      rw [heq, ht.dinode, update_of_ne hne]
      exact h.live hs l hpos'
  · intro hs j hj htype
    rw [ht.dinode] at htype ⊢
    by_cases hji : j = i
    · subst hji
      simp only [update_self] at htype ⊢
      exact haligned hs htype
    · rw [update_of_ne hji] at htype ⊢
      exact h.aligned hs j hj htype
  · exact fun hop => ht.outstanding.trans (h.logging hop)

theorem Replaced.keeps (ht : Replaced sb i k d R s t) (h : Inv sb strict op s c)
    (hR : Rest sb s.disk i R) (hk : k ∈ c) (hv : (s.itable k).valid = true)
    (hi : (s.itable k).inum = i) (hentry : t.itable k = { s.itable k with copy := d })
    (htype : d.type = (s.copy k).type)
    (haligned : strict → d.type = .dir → d.size % direntSize = 0) :
    Inv sb strict op t c ∧ Kept c s t := by
  have href := h.ref_pos hk
  have hnone : d.type ≠ .none := htype ▸ (h.valid k href hv).2
  have hcopy : t.copy k = d := by rw [State.copy, hentry]
  constructor
  · refine ht.inv h hR href hi (fun _ => ?_) (fun _ _ => ⟨hcopy, hnone⟩) ?_ haligned
    · rw [hentry]
      exact ⟨hi, fun _ => hnone⟩
    · intro l
      by_cases hl : l = k
      · subst hl
        rw [hentry]
        exact h.counted l
      · rw [ht.other l hl]
        exact h.counted l
  · refine ⟨ht.ftable, ht.proc, fun l _ => ?_, fun l _ hvl => ?_⟩
    · by_cases hl : l = k
      · subst hl
        rw [hentry]
      · rw [ht.other l hl]
    · by_cases hl : l = k
      · subst hl
        rw [hcopy, hentry]
        exact ⟨hv, htype⟩
      · rw [State.copy, ht.other l hl]
        exact ⟨hvl, rfl⟩

end

/-! ## Operations on a locked inode -/

section

variable (h : Inv sb strict op s c) (hk : k ∈ c) (hv : (s.itable k).valid = true)

include h hk hv

theorem Inv.copy_eq : s.copy k = s.disk.dinode (s.itable k).inum :=
  (h.valid k (h.ref_pos hk) hv).1

theorem Inv.type_ne : (s.copy k).type ≠ .none := (h.valid k (h.ref_pos hk) hv).2

theorem Inv.copy_full : (s.copy k).Full s.disk.block := by
  have htype := h.type_ne hk hv
  rw [h.copy_eq hk hv] at htype ⊢
  exact h.full _ (h.inum k (h.ref_pos hk)) htype

theorem Inv.node_copy : nodes sb s.disk (s.itable k).inum = (s.copy k).node s.disk.block := by
  unfold nodes
  rw [if_pos (h.inum k (h.ref_pos hk)), h.copy_eq hk hv]

theorem Inv.file_copy : files sb s.disk (s.itable k).inum = (s.copy k).view s.disk.block := by
  unfold files
  rw [if_pos (h.inum k (h.ref_pos hk)), h.copy_eq hk hv]

theorem Inv.copy_ledger {R : Multiset ℕ} (hR : Rest sb s.disk (s.itable k).inum R) :
    Ledger sb s.disk.bitmap ((s.copy k).blocks s.disk.block + R) := by
  have hheld : (s.copy k).blocks s.disk.block = (s.copy k).held s.disk.block :=
    (if_neg (h.type_ne hk hv)).symm
  rw [hheld, h.copy_eq hk hv, ← hR]
  exact h.owned

theorem Inv.copy_aligned (hs : strict) (hdir : (s.copy k).type = .dir) :
    (s.copy k).size % direntSize = 0 := by
  rw [h.copy_eq hk hv] at hdir ⊢
  exact h.aligned hs _ (h.inum k (h.ref_pos hk)) hdir

end

theorem node_of_ne {d : Dinode} {blk : ℕ → Block} (h : d.type ≠ .none) :
    d.node blk = ⟨d.type, d.nlink, if d.type = .dir then d.entries blk else []⟩ := if_neg h

/-- A write within the blocks of the inode, once the copy is on disk. -/
theorem Touched.replaced {R : Multiset ℕ} (ht : Touched sb k R s t) {f : Dinode → Dinode}
    (hblocks : (f (t.copy k)).blocks t.disk.block = (t.copy k).blocks t.disk.block)
    (htype : (f (t.copy k)).type ≠ .none) (hfull : (f (t.copy k)).Full t.disk.block)
    (hrange : ∀ e ∈ ((f (t.copy k)).node t.disk.block).ents, e.inum < sb.ninodes) :
    Replaced sb (s.itable k).inum k (f (t.copy k)) R s (t.changed sb k f) where
  dinode := by rw [changed_dinode, ht.dinode, ht.entry]
  ftable := ht.ftable
  proc := ht.proc
  outstanding := ht.outstanding
  other l hl := by rw [changed_itable, update_of_ne hl, ht.other l hl]
  ledger := by
    rw [changed_bitmap, changed_block, Dinode.held, if_neg htype, hblocks]
    exact ht.ledger
  rest := ht.rest
  full _ := hfull
  range := hrange

theorem Touched.changed_entry {R : Multiset ℕ} (ht : Touched sb k R s t) (f : Dinode → Dinode) :
    (t.changed sb k f).itable k = { s.itable k with copy := f (t.copy k) } := by
  rw [changed_itable, update_self, ht.entry]

theorem Inv.writei_spec (h : Inv sb strict True s c) (hk : k ∈ c) (hv : (s.itable k).valid = true)
    (hdir : (s.copy k).type ≠ .dir) (src : ℕ → Option UInt8) (off : ℕ) {n : ℕ} (hn : n < 2 ^ 32) :
    Ensures (writei sb k src off n) s fun _ s' =>
      Inv sb strict True s' c ∧ Kept c s s' ∧ nodes sb s'.disk = nodes sb s.disk ∧
      s.log.Few sb (· = iblock sb (s.itable k).inum) (2 * rounds off n) s'.log := by
  have hi := h.inum k (h.ref_pos hk)
  obtain ⟨R, hR⟩ := exists_rest (s := s) hi
  refine (Fs.writei_spec (h.copy_ledger hk hv hR) (h.logging trivial) (h.copy_full hk hv) src off
    hn).mono
    fun r s' hs' => ?_
  obtain ⟨hs', hlog⟩ := hs'
  rcases hs' with rfl | ⟨t, o, ht, hfull, rfl⟩
  · exact ⟨h, Kept.refl, rfl, hlog⟩
  · have htype : ((t.copy k).grow o).type = (s.copy k).type := by rw [grow_type, ht.type]
    have hne : ((t.copy k).grow o).type ≠ .none := htype ▸ h.type_ne hk hv
    have hnode : ((t.copy k).grow o).node t.disk.block = (s.copy k).node s.disk.block := by
      rw [node_of_ne hne, node_of_ne (h.type_ne hk hv), htype, grow_nlink, ht.nlink, if_neg hdir,
        if_neg hdir]
    have hrep := ht.replaced (f := Dinode.grow o) (by simp) hne hfull fun e he => by
      rw [hnode, ← h.node_copy hk hv] at he
      exact h.range _ e he
    obtain ⟨hinv, hkept⟩ := hrep.keeps h hR hk hv rfl (ht.changed_entry _) htype
      fun _ hd => absurd (htype ▸ hd) hdir
    refine ⟨hinv, hkept, ?_, hlog⟩
    rw [hrep.nodes h hi hR, changed_block, hnode, ← h.node_copy hk hv, update_eq_self]

theorem Inv.writei_dirent (h : Inv sb strict True s c) (hk : k ∈ c) (hv : (s.itable k).valid = true)
    (hdir : (s.copy k).type = .dir) {l : List UInt8} (hl : l.length = direntSize)
    (he : (Dirent.ofBytes l).inum < sb.ninodes)
    (hj : j * direntSize + direntSize ≤ (s.copy k).size ∨ j * direntSize = (s.copy k).size) :
    Ensures (writei sb k (ofList l) (j * direntSize) direntSize) s fun r s' =>
      Inv sb strict True s' c ∧ Kept c s s' ∧ (nodes sb s'.disk =
        if r = direntSize then update (nodes sb s.disk) (s.itable k).inum
          ⟨.dir, (s.copy k).nlink, put ((s.copy k).entries s.disk.block) j (Dirent.ofBytes l)⟩
        else nodes sb s.disk) ∧
      (∀ i, i ≠ (s.itable k).inum ∨ r ≠ direntSize → files sb s'.disk i = files sb s.disk i) ∧
      s.log.Few sb (· = iblock sb (s.itable k).inum) 2 s'.log := by
  have hi := h.inum k (h.ref_pos hk)
  obtain ⟨R, hR⟩ := exists_rest (s := s) hi
  have hledger := h.copy_ledger hk hv hR
  have hcopy := h.copy_full hk hv
  have hlog := (Fs.writei_spec hledger (h.logging trivial) hcopy (ofList l) (j * direntSize)
    (show direntSize < 2 ^ 32 by decide)).mono fun _ _ h => h.2
  have hround : rounds (j * direntSize) direntSize = 1 := by
    rw [rounds, if_neg (by decide)]
    unfold direntSize bsize
    omega
  rw [hround] at hlog
  refine ((Fs.writei_dirent hledger (h.logging trivial) hcopy hl hj).and hlog).mono fun r s' hs' => ?_
  obtain ⟨hs', hlog⟩ := hs'
  rcases hs' with ⟨hr, rfl⟩ | ⟨t, o, ht, hfull, rfl, ho, hents, hbytes⟩
  · exact ⟨h, Kept.refl, by rw [if_neg hr], fun _ _ => rfl, hlog⟩
  · have htype : ((t.copy k).grow o).type = (s.copy k).type := by rw [grow_type, ht.type]
    have hne : ((t.copy k).grow o).type ≠ .none := htype ▸ h.type_ne hk hv
    have hold : nodes sb s.disk (s.itable k).inum =
        ⟨.dir, (s.copy k).nlink, (s.copy k).entries s.disk.block⟩ := by
      rw [h.node_copy hk hv, node_of_ne (h.type_ne hk hv), if_pos hdir, hdir]
    have hnode : ((t.copy k).grow o).node t.disk.block =
        ⟨.dir, (s.copy k).nlink, if r = direntSize
          then put ((s.copy k).entries s.disk.block) j (Dirent.ofBytes l)
          else (s.copy k).entries s.disk.block⟩ := by
      rw [node_of_ne hne, htype, grow_nlink, ht.nlink, hdir, if_pos rfl, hents]
    have hrange := h.range (s.itable k).inum
    rw [hold] at hrange
    have hrep := ht.replaced (f := Dinode.grow o) (by simp) hne hfull fun e hmem => by
      rw [hnode] at hmem
      dsimp only at hmem
      split at hmem
      · unfold put at hmem
        split at hmem
        · rcases List.mem_or_eq_of_mem_set hmem with hmem | rfl
          · exact hrange e hmem
          · exact he
        · rcases List.mem_append.mp hmem with hmem | hmem
          · exact hrange e hmem
          · rw [List.mem_singleton.mp hmem]
            exact he
      · exact hrange e hmem
    obtain ⟨hinv, hkept⟩ := hrep.keeps h hR hk hv rfl (ht.changed_entry _) htype fun hs _ => by
      have halign := h.copy_aligned hk hv hs hdir
      rw [grow_size, ht.size]
      rcases max_choice (s.copy k).size o with hmax | hmax <;> rw [hmax] <;> assumption
    refine ⟨hinv, hkept, ?_, fun i hir => ?_, hlog⟩
    · rw [hrep.nodes h hi hR, changed_block, hnode]
      split
      · rfl
      · rw [← hold, update_eq_self]
    · rw [hrep.files h hi hR, changed_block]
      by_cases hik : i = (s.itable k).inum
      · obtain ⟨hsize, hsame⟩ := hbytes (hir.resolve_left fun hne => hne hik)
        subst hik
        rw [update_self, h.file_copy hk hv, Dinode.view, if_neg hne, Dinode.view,
          if_neg (h.type_ne hk hv), htype, hsize, hsame, grow_nlink, ht.nlink,
          (grow_numbers o _).1, (grow_numbers o _).2, ht.numbers.1, ht.numbers.2]
      · rw [update_of_ne hik]

theorem Inv.change_spec (h : Inv sb strict True s c) (hk : k ∈ c) (hv : (s.itable k).valid = true)
    {f : Dinode → Dinode} (htype : (f (s.copy k)).type = (s.copy k).type)
    (hsize : (f (s.copy k)).size = (s.copy k).size)
    (haddrs : (f (s.copy k)).addrs = (s.copy k).addrs) :
    Ensures (change sb k f) s fun _ s' => Inv sb strict True s' c ∧ Kept c s s' ∧
      s'.copy k = f (s.copy k) ∧
      nodes sb s'.disk = update (nodes sb s.disk) (s.itable k).inum
        { nodes sb s.disk (s.itable k).inum with nlink := (f (s.copy k)).nlink } ∧
      files sb s'.disk = update (files sb s.disk) (s.itable k).inum
        ((f (s.copy k)).view s.disk.block) ∧
      s.log.Adds (· = iblock sb (s.itable k).inum) s'.log := by
  have hi := h.inum k (h.ref_pos hk)
  obtain ⟨R, hR⟩ := exists_rest (s := s) hi
  refine (Fs.change_spec (h.logging trivial) k f).mono fun _ s' hs' => ?_
  subst hs'
  have haddr : (f (s.copy k)).addr = (s.copy k).addr := by
    funext blk bn
    simp [Dinode.addr, haddrs]
  have hne : (f (s.copy k)).type ≠ .none := htype ▸ h.type_ne hk hv
  have hents : (f (s.copy k)).entries = (s.copy k).entries := by
    funext blk
    simp [Dinode.entries, hsize, direntAt, haddr]
  have hfull : (f (s.copy k)).Full s.disk.block := by
    have := h.copy_full hk hv
    exact ⟨hsize ▸ this.size_le, fun bn hbn => haddr ▸ this.mapped bn (hsize ▸ hbn)⟩
  have hnode : (f (s.copy k)).node s.disk.block =
      { nodes sb s.disk (s.itable k).inum with nlink := (f (s.copy k)).nlink } := by
    rw [h.node_copy hk hv, node_of_ne hne, node_of_ne (h.type_ne hk hv), htype, hents]
  have ht := Touched.refl (h.copy_ledger hk hv hR)
  have hrep := ht.replaced (f := f) (by simp [Dinode.blocks, haddr, haddrs]) hne hfull
    fun e he => by
      rw [hnode] at he
      exact h.range _ e he
  obtain ⟨hinv, hkept⟩ := hrep.keeps h hR hk hv rfl (ht.changed_entry _) htype fun hs hd => by
    rw [hsize]
    exact h.copy_aligned hk hv hs (htype ▸ hd)
  refine ⟨hinv, hkept, by simp [State.copy], ?_, ?_, changed_log sb s k f⟩
  · rw [hrep.nodes h hi hR, changed_block, hnode]
  · rw [hrep.files h hi hR, changed_block]

theorem blocks_eq_zero {d : Dinode} {blk : ℕ → Block} (h : ∀ j ≤ ndirect, d.addrs j = 0) :
    d.blocks blk = 0 := by
  unfold Dinode.blocks
  rw [h ndirect le_rfl, nz_zero, zero_add]
  refine total_zero fun bn _ => ?_
  by_cases hbn : bn < ndirect
  · simp [Dinode.addr, hbn, h bn hbn.le]
  · simp [Dinode.addr, hbn, h ndirect le_rfl]

theorem Freed.replaced {R : Multiset ℕ} {d : Dinode} (ht : Freed sb k s t)
    (hledger : Ledger sb t.disk.bitmap R) (hzero : ∀ j ≤ ndirect, d.addrs j = 0)
    (hsize : d.size = 0) {u : State} (hbit : u.disk.bitmap = t.disk.bitmap)
    (hdinode : u.disk.dinode = update s.disk.dinode (s.itable k).inum d)
    (hblock : u.disk.block = t.disk.block) (hftable : u.ftable = t.ftable)
    (hproc : u.proc = t.proc) (hout : u.log.outstanding = t.log.outstanding)
    (hother : ∀ l, l ≠ k → u.itable l = t.itable l) :
    Replaced sb (s.itable k).inum k d R s u where
  dinode := hdinode
  ftable := hftable.trans ht.ftable
  proc := hproc.trans ht.proc
  outstanding := hout.trans ht.log.outstanding
  other l hl := (hother l hl).trans (ht.other l hl)
  ledger := by
    have hheld : d.held u.disk.block = 0 := by
      unfold Dinode.held
      split
      · rfl
      · exact blocks_eq_zero hzero
    rw [hheld, zero_add, hbit]
    exact hledger
  rest b _ := by rw [hblock, ht.block]
  full _ := ⟨by rw [hsize]; exact Nat.zero_le _, fun bn hbn => by rw [hsize] at hbn; omega⟩
  range e he := by
    unfold Dinode.node at he
    split at he
    · simp [Node.free] at he
    · split at he <;> simp [Dinode.entries, hsize] at he

theorem Inv.itrunc_spec (h : Inv sb strict True s c) (hk : k ∈ c) (hv : (s.itable k).valid = true)
    (hdir : (s.copy k).type ≠ .dir) :
    Ensures (itrunc sb k) s fun _ s' =>
      Inv sb strict True s' c ∧ Kept c s s' ∧ nodes sb s'.disk = nodes sb s.disk ∧
      s.log.Adds (fun b => OnBitmap sb b ∨ b = iblock sb (s.itable k).inum) s'.log := by
  have hi := h.inum k (h.ref_pos hk)
  obtain ⟨R, hR⟩ := exists_rest (s := s) hi
  refine (Fs.itrunc_spec (h.copy_ledger hk hv hR) (h.logging trivial)).mono fun _ s' hs' => ?_
  obtain ⟨t, ht, hledger, hzero, rfl⟩ := hs'
  have htype : (t.copy k).type = (s.copy k).type := by rw [State.copy, ht.entry]
  have hnlink : (t.copy k).nlink = (s.copy k).nlink := by rw [State.copy, ht.entry]
  have hrep : Replaced sb (s.itable k).inum k { t.copy k with size := 0 } R s
      (t.changed sb k fun d => { d with size := 0 }) :=
    ht.replaced (u := t.changed sb k fun d => { d with size := 0 }) hledger
      (d := { t.copy k with size := 0 }) hzero rfl rfl
      (by rw [changed_dinode, ht.dinode, ht.entry]) rfl rfl rfl rfl
      fun l hl => by rw [changed_itable, update_of_ne hl]
  obtain ⟨hinv, hkept⟩ := hrep.keeps h hR hk hv rfl
    (by rw [changed_itable, update_self, ht.entry]) htype
    fun _ hd => absurd (htype ▸ hd) hdir
  have hlog := (changed_log sb t k fun d => { d with size := 0 }).mono
    fun b hb => (Or.inr hb : OnBitmap sb b ∨ _)
  rw [show (t.itable k).inum = (s.itable k).inum by rw [ht.entry]] at hlog
  refine ⟨hinv, hkept, ?_, (ht.log.mono fun _ hb => .inl hb).trans hlog⟩
  have hnode : Dinode.node { t.copy k with size := 0 } t.disk.block =
      (s.copy k).node s.disk.block := by
    rw [node_of_ne (h.type_ne hk hv), node_of_ne (htype ▸ h.type_ne hk hv), htype, hnlink,
      if_neg hdir, if_neg hdir]
  rw [hrep.nodes h hi hR, changed_block, hnode, ← h.node_copy hk hv, update_eq_self]

/-! ## References -/

theorem Inv.setRef (h : Inv sb strict op s c) {r : ℤ} (hr : 0 < r → 0 < (s.itable k).ref)
    (hc : ∀ l, (if l = k then r else (s.itable l).ref) = c'.count l) :
    Inv sb strict op (s.setInode k fun e => { e with ref := r }) c' := by
  have hpos : ∀ l, 0 < ((s.setInode k fun e => { e with ref := r }).itable l).ref →
      0 < (s.itable l).ref := by
    intro l hl
    by_cases hlk : l = k
    · subst hlk
      exact hr (by simpa using hl)
    · simpa [hlk] using hl
  have hinum : ∀ l, ((s.setInode k fun e => { e with ref := r }).itable l).inum =
      (s.itable l).inum := by
    intro l
    by_cases hlk : l = k
    · subst hlk
      simp
    · simp [hlk]
  constructor
  · exact h.owned
  · exact h.full
  · exact h.range
  · exact fun l hl => h.bound l (hpos l hl)
  · intro l hl
    rw [hinum l]
    exact h.inum l (hpos l hl)
  · intro l hl hv
    have hold := h.valid l (hpos l hl)
    by_cases hlk : l = k
    · subst hlk
      simpa [State.copy] using hold (by simpa using hv)
    · simpa [State.copy, hlk] using hold (by simpa [hlk] using hv)
  · intro l m hl hm heq
    rw [hinum l, hinum m] at heq
    exact h.uniq l m (hpos l hl) (hpos m hm) heq
  · intro l
    refine Eq.trans ?_ (hc l)
    by_cases hlk : l = k
    · subst hlk
      simp
    · simp [hlk]
  · intro hs l hl
    rw [hinum l]
    exact h.live hs l (hpos l hl)
  · exact h.aligned
  · exact h.logging

theorem kept_setInode {f : Inode → Inode} (hinum : (f (s.itable k)).inum = (s.itable k).inum)
    (hvalid : (s.itable k).valid = true →
      (f (s.itable k)).valid = true ∧ (f (s.itable k)).copy.type = (s.copy k).type) :
    Kept c s (s.setInode k f) := by
  refine ⟨rfl, rfl, fun l _ => ?_, fun l _ hv => ?_⟩
  · by_cases hl : l = k
    · subst hl
      simpa using hinum
    · simp [hl]
  · by_cases hl : l = k
    · subst hl
      simpa [State.copy] using hvalid hv
    · simpa [State.copy, hl] using hv

theorem idup_spec (h : Inv sb strict op s c) (hk : k ∈ c) :
    Ensures (idup k) s fun k' s' => k' = k ∧ Inv sb strict op s' (k ::ₘ c) ∧
      Quiet True c s s' := by
  unfold idup
  apply ensures_modify_bind
  refine ensures_pure ⟨rfl, ?_, kept_setInode rfl fun hv => ⟨hv, rfl⟩, fun _ => rfl,
    fun _ => rfl⟩
  refine h.setRef (fun _ => h.ref_pos hk) fun l => ?_
  have := h.counted l
  by_cases hl : l = k
  · subst hl
    simpa using this
  · simpa [hl] using this

theorem Inv.recycle (h : Inv sb strict op s c) (hk : k < ninode) (href : (s.itable k).ref = 0)
    (hi : i < sb.ninodes) (hnone : ∀ l, 0 < (s.itable l).ref → (s.itable l).inum ≠ i)
    (hlive : strict → (s.disk.dinode i).type ≠ .none) :
    Inv sb strict op (s.setInode k fun e => { e with inum := i, ref := 1, valid := false })
      (k ::ₘ c) := by
  constructor
  · exact h.owned
  · exact h.full
  · exact h.range
  · intro l hl
    by_cases hlk : l = k
    · rwa [hlk]
    · exact h.bound l (by simpa [hlk] using hl)
  · intro l hl
    by_cases hlk : l = k
    · subst hlk
      simpa using hi
    · simpa [hlk] using h.inum l (by simpa [hlk] using hl)
  · intro l hl hv
    by_cases hlk : l = k
    · subst hlk
      simp at hv
    · simpa [State.copy, hlk] using
        h.valid l (by simpa [hlk] using hl) (by simpa [hlk] using hv)
  · intro l m hl hm heq
    by_cases hlk : l = k <;> by_cases hmk : m = k
    · rw [hlk, hmk]
    · subst hlk
      simp only [State.setInode_itable, update_self, update_of_ne hmk] at hm heq
      exact absurd heq.symm (hnone m hm)
    · subst hmk
      simp only [State.setInode_itable, update_self, update_of_ne hlk] at hl heq
      exact absurd heq (hnone l hl)
    · simp only [State.setInode_itable, update_of_ne hlk, update_of_ne hmk] at hl hm heq
      exact h.uniq l m hl hm heq
  · intro l
    have := h.counted l
    by_cases hlk : l = k
    · subst hlk
      have hz : c.count l = 0 := by omega
      simp [hz]
    · simpa [hlk] using this
  · intro hs l hl
    by_cases hlk : l = k
    · subst hlk
      simpa using hlive hs
    · simpa [hlk] using h.live hs l (by simpa [hlk] using hl)
  · exact h.aligned
  · exact h.logging

theorem kept_of_not_mem (hftable : t.ftable = s.ftable) (hproc : t.proc = s.proc)
    (hother : ∀ l, l ≠ k → t.itable l = s.itable l) (hk : k ∉ c) : Kept c s t := by
  have heq : ∀ l ∈ c, t.itable l = s.itable l := fun l hl => hother l (by rintro rfl; exact hk hl)
  refine ⟨hftable, hproc, fun l hl => by rw [heq l hl], fun l hl hv => ?_⟩
  rw [State.copy, heq l hl]
  exact ⟨hv, rfl⟩

theorem iget_spec (h : Inv sb strict op s c) (hi : i < sb.ninodes)
    (hlive : strict → (s.disk.dinode i).type ≠ .none) :
    Within (Panics strict) (iget i) s fun k s' => Inv sb strict op s' (k ::ₘ c) ∧
      Quiet True c s s' ∧ (s'.itable k).inum = i := by
  unfold iget
  apply within_get_bind
  cases hfind : (List.range ninode).find? fun k =>
      decide (0 < (s.itable k).ref) && (s.itable k).inum == i with
  | some k =>
    have hk : 0 < (s.itable k).ref ∧ (s.itable k).inum = i := by
      simpa using List.find?_some hfind
    apply within_modify_bind
    refine within_pure ⟨?_, ⟨kept_setInode rfl fun hv => ⟨hv, rfl⟩, fun _ => rfl, fun _ => rfl⟩,
      by simpa using hk.2⟩
    refine h.setRef (fun _ => hk.1) fun l => ?_
    have := h.counted l
    by_cases hl : l = k
    · subst hl
      simpa using this
    · simpa [hl] using this
  | none =>
    have hnone : ∀ k, 0 < (s.itable k).ref → (s.itable k).inum ≠ i := by
      intro k hpos
      have := List.find?_eq_none.mp hfind k (List.mem_range.mpr (h.bound k hpos))
      simpa [hpos] using this
    dsimp only
    cases hempty : (List.range ninode).find? fun k => (s.itable k).ref == 0 with
    | some k =>
      have hk : k < ninode := List.mem_range.mp (List.mem_of_find?_eq_some hempty)
      have href : (s.itable k).ref = 0 := by simpa using List.find?_some hempty
      have hnot : k ∉ c := fun hmem => by
        have := h.ref_pos hmem
        omega
      apply within_modify_bind
      exact within_pure ⟨h.recycle hk href hi hnone hlive,
        ⟨kept_of_not_mem rfl rfl (fun l hl => by simp [hl]) hnot, fun _ => rfl, fun _ => rfl⟩,
        by simp⟩
    | none => exact within_throw (panics (by decide))

theorem ilock_spec (h : Inv sb strict op s c) (hk : k ∈ c) :
    Within (Panics strict) (ilock k) s fun _ s' => Inv sb strict op s' c ∧ Quiet True c s s' ∧
      (s'.itable k).valid = true := by
  have href := h.ref_pos hk
  unfold ilock
  apply within_get_bind
  rw [if_neg (by omega)]
  split
  · rename_i hv
    exact within_pure ⟨h, Quiet.refl, hv⟩
  · rename_i hv
    apply within_modify_bind
    split
    · -- a free inode is locked: not if table entries refer to allocated inodes only
      rename_i htype
      exact within_throw ⟨by decide, by decide, fun hs => absurd htype (h.live hs k href)⟩
    · rename_i htype
      refine within_pure ⟨?_, ⟨kept_setInode rfl fun hv' => absurd hv' hv, fun _ => rfl,
        fun _ => rfl⟩, by simp⟩
      constructor
      · exact h.owned
      · exact h.full
      · exact h.range
      · intro l hl
        by_cases hlk : l = k
        · exact hlk ▸ h.bound k href
        · exact h.bound l (by simpa [hlk] using hl)
      · intro l hl
        by_cases hlk : l = k
        · subst hlk
          simpa using h.inum l href
        · simpa [hlk] using h.inum l (by simpa [hlk] using hl)
      · intro l hl hv'
        by_cases hlk : l = k
        · subst hlk
          simpa [State.copy] using htype
        · simpa [State.copy, hlk] using
            h.valid l (by simpa [hlk] using hl) (by simpa [hlk] using hv')
      · intro l m hl hm heq
        refine h.uniq l m ?_ ?_ ?_
        · by_cases hlk : l = k
          · exact hlk ▸ href
          · simpa [hlk] using hl
        · by_cases hmk : m = k
          · exact hmk ▸ href
          · simpa [hmk] using hm
        · by_cases hlk : l = k <;> by_cases hmk : m = k <;> simp_all
      · intro l
        have := h.counted l
        by_cases hlk : l = k
        · subst hlk
          simpa using this
        · simpa [hlk] using this
      · intro hs l hl
        by_cases hlk : l = k
        · subst hlk
          simpa using h.live hs l href
        · simpa [hlk] using h.live hs l (by simpa [hlk] using hl)
      · exact h.aligned
      · exact h.logging

theorem ifree_spec {R : Multiset ℕ}
    (h : Ledger sb s.disk.bitmap ((s.copy k).blocks s.disk.block + R))
    (hout : s.log.outstanding = true) :
    Ensures (ifree sb k) s fun _ s' => ∃ d, d.type = .none ∧
      Replaced sb (s.itable k).inum k d R s s' ∧
      s'.itable k = { s.itable k with valid := false, copy := d } ∧
      s'.disk.block = s.disk.block ∧
      s.log.Adds (fun b => OnBitmap sb b ∨ b = iblock sb (s.itable k).inum) s'.log := by
  unfold ifree
  refine (Fs.itrunc_spec h hout).bind fun _ u hu => ?_
  obtain ⟨t, ht, hledger, hzero, rfl⟩ := hu
  refine (Fs.change_spec (by exact ht.log.outstanding.trans hout) k _).bind fun _ u hu => ?_
  subst hu
  apply ensures_modify
  have hinum : (t.itable k).inum = (s.itable k).inum := by rw [ht.entry]
  have href : (t.itable k).ref = (s.itable k).ref := by rw [ht.entry]
  refine ⟨{ t.copy k with size := 0, type := .none }, rfl, ?_, ?_, ht.block, ?_⟩
  · refine ht.replaced (d := { t.copy k with size := 0, type := .none }) hledger hzero rfl rfl
      ?_ rfl rfl rfl rfl fun l hl => by simp [hl]
    simp [State.copy, ht.dinode, hinum]
  · simp [State.copy, hinum, href]
  · have hone := (changed_log sb t k fun d => { d with size := 0 }).mono
      fun b hb => (Or.inr hb : OnBitmap sb b ∨ _)
    have htwo := (changed_log sb (t.changed sb k fun d => { d with size := 0 }) k
      fun d => { d with type := .none }).mono fun b hb => (Or.inr hb : OnBitmap sb b ∨ _)
    rw [changed_itable, update_self] at htwo
    rw [hinum] at hone htwo
    exact ((ht.log.mono fun _ hb => .inl hb).trans hone).trans htwo

/-- A reference goes back. If it was the last one to an inode without links, the inode
is freed. -/
theorem iput_spec (h : Inv sb strict True s (k ::ₘ c)) :
    Ensures (iput sb k) s fun _ s' => Inv sb strict True s' c ∧ Kept c s s' ∧
      (s'.disk = s.disk ∧ s'.log = s.log ∨
        k ∉ c ∧ (nodes sb s.disk (s.itable k).inum).nlink = 0 ∧
        nodes sb s'.disk = update (nodes sb s.disk) (s.itable k).inum Node.free ∧
        files sb s'.disk = update (files sb s.disk) (s.itable k).inum none ∧
        s.log.Adds (fun b => OnBitmap sb b ∨ b = iblock sb (s.itable k).inum) s'.log) ∧
      (k ∉ c → (s.itable k).valid = true →
        (nodes sb s.disk (s.itable k).inum).nlink = 0 →
        nodes sb s'.disk = update (nodes sb s.disk) (s.itable k).inum Node.free ∧
        files sb s'.disk = update (files sb s.disk) (s.itable k).inum none) := by
  have hk : k ∈ k ::ₘ c := Multiset.mem_cons_self k c
  have href := h.ref_pos hk
  have hcount := h.counted k
  rw [Multiset.count_cons_self] at hcount
  have hother : ∀ l, l ≠ k → (s.itable l).ref = c.count l := by
    intro l hl
    rw [h.counted l, Multiset.count_cons_of_ne hl]
  unfold iput
  apply ensures_get_bind
  split
  · rename_i hfree
    obtain ⟨hone, hv, hnlink⟩ := hfree
    have hi := h.inum k href
    obtain ⟨R, hR⟩ := exists_rest (s := s) hi
    refine (ifree_spec (h.copy_ledger hk hv hR) (h.logging trivial)).bind fun _ t ht => ?_
    obtain ⟨d, hd, hrep, hentry, -, hlog⟩ := ht
    apply ensures_modify
    have hrep' : Replaced sb (s.itable k).inum k d R s
        (t.setInode k fun e => { e with ref := e.ref - 1 }) :=
      { hrep with other := fun l hl => by simp [hl, hrep.other l hl] }
    have hzero : ((t.setInode k fun e => { e with ref := e.ref - 1 }).itable k).ref = 0 := by
      simp [hentry, hone]
    have hnot : k ∉ c := by
      rw [← Multiset.count_eq_zero]
      omega
    have hnodes : nodes sb (t.setInode k fun e => { e with ref := e.ref - 1 }).disk =
        update (nodes sb s.disk) (s.itable k).inum Node.free := by
      rw [hrep'.nodes h hi hR, Dinode.node, if_pos hd]
    have hfiles : files sb (t.setInode k fun e => { e with ref := e.ref - 1 }).disk =
        update (files sb s.disk) (s.itable k).inum none := by
      rw [hrep'.files h hi hR, Dinode.view, if_pos hd]
    refine ⟨hrep'.inv h hR href rfl ?_ ?_ ?_ ?_, kept_of_not_mem hrep'.ftable hrep'.proc
      hrep'.other hnot, .inr ⟨hnot, ?_, hnodes, hfiles, hlog⟩, fun _ _ _ => ⟨hnodes, hfiles⟩⟩
    · intro hpos
      omega
    · intro hpos
      omega
    · intro l
      by_cases hl : l = k
      · subst hl
        rw [hzero, Multiset.count_eq_zero.mpr hnot]
        simp
      · rw [hrep'.other l hl]
        exact hother l hl
    · intro _ hdir
      rw [hd] at hdir
      cases hdir
    · rw [h.node_copy hk hv, node_of_ne (h.type_ne hk hv)]
      exact hnlink
  · rename_i hkeep
    refine Ensures.bind (ensures_pure (Q := fun _ t => t = s) rfl) fun _ t ht => ?_
    subst ht
    apply ensures_modify
    refine ⟨h.setRef (by omega) fun l => ?_, kept_setInode rfl fun hv => ⟨hv, rfl⟩,
      .inl ⟨rfl, rfl⟩, fun hnot hv hnlink => ?_⟩
    · by_cases hl : l = k
      · subst hl
        rw [if_pos rfl]
        omega
      · rw [if_neg hl]
        exact hother l hl
    · rw [h.node_copy hk hv, node_of_ne (h.type_ne hk hv)] at hnlink
      rw [Multiset.count_eq_zero.mpr hnot] at hcount
      exact absurd ⟨by omega, hv, hnlink⟩ hkeep

/-- The inode `i` is not freed when a reference to it goes back, as it has links or is
referred to from `c`. -/
def Safe (sb : Superblock) (c : Multiset ℕ) (s : State) (i : ℕ) : Prop :=
  (nodes sb s.disk i).nlink ≠ 0 ∨ ∃ k ∈ c, (s.itable k).inum = i

theorem iput_safe (h : Inv sb strict True s (k ::ₘ c))
    (hsafe : strict → Safe sb c s (s.itable k).inum) :
    Ensures (iput sb k) s fun _ s' => Inv sb strict True s' c ∧ Quiet strict c s s' := by
  refine (iput_spec h).mono fun _ t ht => ?_
  have hsame : strict → t.disk = s.disk ∧ t.log = s.log := ?_
  · exact ⟨ht.1, ht.2.1, fun hs => (hsame hs).1, fun hs => (hsame hs).2⟩
  intro hs
  rcases ht.2.2.1 with hsame | ⟨hnot, hzero, -⟩
  · exact hsame
  · rcases hsafe hs with hne | ⟨l, hl, heq⟩
    · exact absurd hzero hne
    · have hlk := h.uniq l k (h.ref_pos (Multiset.mem_cons_of_mem hl))
        (h.ref_pos (Multiset.mem_cons_self k c)) heq
      subst hlk
      exact absurd hl hnot

theorem Inv.allocated (h : Inv sb strict op s c) {type : FileType} (htype : type ≠ .none)
    (hi : i < sb.ninodes) (hfree : (s.disk.dinode i).type = .none) :
    Inv sb strict op (s.setDinode i { Dinode.zero with type := type }) c ∧
      nodes sb (s.setDinode i { Dinode.zero with type := type }).disk =
        update (nodes sb s.disk) i ⟨type, 0, []⟩ := by
  obtain ⟨R, hR⟩ := exists_rest (s := s) hi
  generalize hd : ({ Dinode.zero with type := type } : Dinode) = d
  have hdt : d.type = type := by rw [← hd]
  have hzero : d.size = 0 ∧ d.nlink = 0 := by rw [← hd]; exact ⟨rfl, rfl⟩
  have hheld : d.held s.disk.block = 0 := by
    rw [Dinode.held, hdt, if_neg htype]
    exact blocks_eq_zero fun j _ => by rw [← hd]; rfl
  have hnode : d.node s.disk.block = ⟨type, 0, []⟩ := by
    rw [node_of_ne (hdt ▸ htype), hdt, hzero.2]
    simp [Dinode.entries, hzero.1]
  have hnodes : nodes sb (s.setDinode i d).disk =
      update (nodes sb s.disk) i ⟨type, 0, []⟩ := by
    funext j
    unfold nodes
    by_cases hji : j = i
    · subst hji
      simp [hi, hnode]
    · simp [hji]
  have hother : ∀ j, (s.disk.dinode j).type ≠ .none → j ≠ i := by
    rintro j hj rfl
    exact hj hfree
  refine ⟨?_, hnodes⟩
  constructor
  · have hold : (s.disk.dinode i).held s.disk.block = 0 := if_pos hfree
    have hused := hR.used_update hi (fun _ _ => rfl) d
    rw [hheld, ← hold, ← hR] at hused
    rw [State.setDinode_disk_bitmap, State.setDinode_disk_dinode, State.setDinode_disk_block, hused]
    exact h.owned
  · intro j hj hne
    by_cases hji : j = i
    · subst hji
      rw [State.setDinode_disk_dinode, update_self, State.setDinode_disk_block]
      exact ⟨by rw [hzero.1]; exact Nat.zero_le _, fun bn hbn => by rw [hzero.1] at hbn; omega⟩
    · rw [State.setDinode_disk_dinode, update_of_ne hji] at hne ⊢
      exact h.full j hj hne
  · intro j e he
    rw [hnodes] at he
    by_cases hji : j = i
    · subst hji
      simp at he
    · rw [update_of_ne hji] at he
      exact h.range j e he
  · exact h.bound
  · exact h.inum
  · intro l hl hv
    have hold := h.valid l hl hv
    have hne := hother _ (hold.1 ▸ hold.2)
    rw [State.setDinode_disk_dinode, State.setDinode_itable, update_of_ne hne]
    exact hold
  · exact h.uniq
  · exact h.counted
  · intro hs l hl
    have hold := h.live hs l hl
    rw [State.setDinode_disk_dinode, State.setDinode_itable, update_of_ne (hother _ hold)]
    exact hold
  · intro hs j hj hdir
    by_cases hji : j = i
    · subst hji
      rw [State.setDinode_disk_dinode, update_self, hzero.1, Nat.zero_mod]
    · rw [State.setDinode_disk_dinode, update_of_ne hji] at hdir ⊢
      exact h.aligned hs j hj hdir
  · exact h.logging

theorem ialloc_spec (h : Inv sb strict True s c) {type : FileType} (htype : type ≠ .none) :
    Within (Panics strict) (ialloc sb type) s fun r s' => match r with
      | none => s' = s
      | some k => ∃ i, i ≠ 0 ∧ i < sb.ninodes ∧ nodes sb s.disk i = Node.free ∧
        (strict → k ∉ c) ∧ Inv sb strict True s' (k ::ₘ c) ∧ Kept c s s' ∧ (s'.itable k).inum = i ∧
        nodes sb s'.disk = update (nodes sb s.disk) i ⟨type, 0, []⟩ ∧
        (∀ j, j ≠ i → files sb s'.disk j = files sb s.disk j) ∧
        s.log.Adds (· = iblock sb i) s'.log := by
  unfold ialloc
  apply within_get_bind
  cases hfind : (List.range sb.ninodes).find? fun i =>
      decide (i ≠ 0) && decide ((s.disk.dinode i).type = .none) with
  | none => exact within_pure rfl
  | some i =>
    have hi : i < sb.ninodes := List.mem_range.mp (List.mem_of_find?_eq_some hfind)
    obtain ⟨hi0, hfree⟩ : i ≠ 0 ∧ (s.disk.dinode i).type = .none := by
      simpa using List.find?_some hfind
    apply within_modify_bind
    obtain ⟨hinv, hnodes⟩ := h.allocated htype hi hfree
    refine ((logWrite_spec (hinv.logging trivial) _).within).bind fun _ t ht => ?_
    subst ht
    have hlogged : Inv sb strict True
        ((s.setDinode i { Dinode.zero with type }).logWrite (iblock sb i)) c :=
      hinv.congr rfl rfl hinv.logging
    refine (iget_spec hlogged hi fun _ => by simpa [State.logWrite] using htype).bind
      fun k t ht => ?_
    obtain ⟨hinv', hkept, hinum⟩ := ht
    have hdisk := hkept.disk trivial
    have hlog := hkept.log trivial
    refine within_pure ⟨i, hi0, hi, ?_, fun hs hk => ?_, hinv',
      ⟨hkept.ftable, hkept.proc, hkept.inum, hkept.valid⟩, hinum, ?_, fun j hj => ?_, ?_⟩
    · simp [nodes, hi, Dinode.node, hfree]
    · -- a table entry for the free inode would have been one for an allocated inode
      have hlive := h.live hs k (h.ref_pos hk)
      have hsame := hkept.inum k hk
      rw [hinum] at hsame
      exact hlive (by rw [← show i = (s.itable k).inum from hsame]; exact hfree)
    · rw [hdisk]
      exact hnodes
    · rw [hdisk]
      simp [files, hj]
    · rw [hlog]
      exact Log.adds_write rfl

end

end Xv6.Fs
