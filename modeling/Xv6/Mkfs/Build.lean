import Xv6.Mkfs.Append

/-!
# The image under construction

Between the calls of `iappend` the inodes handed out so far are files without holes,
and their blocks are the data blocks before `freeblock`, each in use once. `ialloc`,
`iappend` and the loop over the input files keep this, and the program ends early only
when there is no room.
-/

namespace Xv6.Mkfs

open Eff Fs Bag Function

/-- An inode that `mkfs` has made: its addresses are those of its data blocks. -/
structure Built (d : Dinode) (B : ℕ → Block) : Prop where
  type : d.type ≠ .none
  numbers : d.major = 0 ∧ d.minor = 0 ∧ d.nlink = 1
  size_le : d.size ≤ maxfile * bsize
  addr : ∀ bn < maxfile, (d.addr B bn ≠ 0 ↔ bn < dataBlocks d.size)
  ind : d.addrs ndirect ≠ 0 ↔ ndirect < dataBlocks d.size
  outside : ∀ i, ndirect < i → d.addrs i = 0

/-- The number of blocks of an inode. -/
def blocksOf (d : Dinode) : ℕ := if d.type = .none then 0 else blockCount (dataBlocks d.size)

/-- The blocks in use are those from the first data block up to `fb`, each in use once. -/
structure InOrder (U : Multiset ℕ) (fb : ℕ) : Prop where
  nodup : U.Nodup
  mem : ∀ b, b ∈ U ↔ nmeta ≤ b ∧ b < fb

structure Inv (m : Image) : Prop where
  len : m.len = fssize
  inode : 0 < m.freeinode ∧ m.freeinode ≤ ninodes
  low : nmeta ≤ m.freeblock
  bound : m.freeblock ≤ fssize
  super : m.sect 1 = superBlock
  order : InOrder (used ninodes m.dinode m.sect) m.freeblock
  clean : ∀ b, m.freeblock ≤ b → m.sect b = fun _ => 0
  free : ∀ i < ninodes, i = 0 ∨ m.freeinode ≤ i → m.dinode i = Dinode.zero
  built : ∀ i, 0 < i → i < m.freeinode → Built (m.dinode i) m.sect
  count : m.freeblock = nmeta + total ninodes fun i => blocksOf (m.dinode i)

/-- The bytes `p` have been appended to inode `i`, and nothing else has changed. -/
structure Wrote (i : ℕ) (p : List UInt8) (m m' : Image) : Prop where
  freeinode : m'.freeinode = m.freeinode
  type : (m'.dinode i).type = (m.dinode i).type
  size : (m'.dinode i).size = (m.dinode i).size + p.length
  bytes : (m'.dinode i).bytes m'.sect = (m.dinode i).bytes m.sect ++ p
  other : ∀ j < ninodes, j ≠ i → m'.dinode j = m.dinode j ∧
    (m'.dinode j).bytes m'.sect = (m.dinode j).bytes m.sect
  count : m'.freeblock + blockCount (dataBlocks (m.dinode i).size) =
    m.freeblock + blockCount (dataBlocks ((m.dinode i).size + p.length))

section

variable {m m' : Image} {d : Dinode} {R : Multiset ℕ} {i j : ℕ} {p : List UInt8}

theorem iblock_lt (hi : i < ninodes) : iblock i < nmeta := by
  have : nmeta = 47 := rfl
  have : inodestart = 33 := rfl
  unfold iblock ipb ninodes bsize at *
  omega

theorem one_lt_iblock (i : ℕ) : 1 < iblock i :=
  lt_of_lt_of_le (show 1 < inodestart by decide) (Nat.le_add_left _ _)

theorem dinode_congr (h : ∀ b < nmeta, m'.sect b = m.sect b) (hi : i < ninodes) :
    m'.dinode i = m.dinode i := by
  unfold Image.dinode
  rw [h _ (iblock_lt hi)]

/-- The kernel's lemmas about the blocks of other inodes apply to the image. -/
abbrev Image.state (m : Image) : State := mount ⟨m.dinode, fun _ => false, m.sect⟩

theorem Inv.growing (h : Inv m) (hi0 : 0 < i) (hi : i < m.freeinode)
    (hR : Rest layout m.state.disk i R) :
    Growing (m.dinode i) m.sect m.freeblock R (dataBlocks (m.dinode i).size)
      (dataBlocks (m.dinode i).size) := by
  have hb := h.built i hi0 hi
  have hheld : (m.dinode i).held m.sect = (m.dinode i).blocks m.sect := if_neg hb.type
  have hused : used ninodes m.dinode m.sect = (m.dinode i).blocks m.sect + R := by
    rw [← hheld]
    exact hR
  refine ⟨?_, fun b => ?_, h.low, h.clean, hb.addr, hb.ind, hb.outside⟩
  · rw [← hused]
    exact h.order.nodup
  · rw [← hused]
    exact h.order.mem b

theorem Growing.congr_low {B B' : ℕ → Block} {fb n q : ℕ} (h : Growing d B fb R n q)
    (hB : ∀ b, nmeta ≤ b → B' b = B b) :
    Growing d B' fb R n q ∧ d.addr B' = d.addr B ∧ ∀ off, off ≤ n * bsize → n ≤ maxfile →
      content d B' off = content d B off := by
  have hind : d.addrs ndirect ≠ 0 → B' (d.addrs ndirect) = B (d.addrs ndirect) := fun hne =>
    hB _ ((h.mem _).mp (Multiset.mem_add.mpr (.inl (indirect_mem hne)))).1
  have haddr := addr_congr hind
  have hlow := h.low
  refine ⟨⟨?_, ?_, h.low, fun b hb => ?_, ?_, h.ind, h.outside⟩, haddr, fun off hoff hn => ?_⟩
  · rw [blocks_congr hind]
    exact h.nodup
  · rw [blocks_congr hind]
    exact h.mem
  · rw [hB b (by omega)]
    exact h.clean b hb
  · rw [haddr]
    exact h.addr
  · unfold content
    refine List.map_congr_left fun o ho => ?_
    have ho := List.mem_range.mp ho
    have hbn : o / bsize < n := by
      unfold bsize at *
      omega
    have hmax : o / bsize < maxfile := by omega
    have hmem := addr_mem hmax ((h.addr _ hmax).mpr hbn)
    rw [haddr, hB _ ((h.mem _).mp (Multiset.mem_add.mpr (.inl hmem))).1]

theorem Rest.bytes_eq (hR : Rest layout m.state.disk i R) (hi : i < ninodes)
    {B : ℕ → Block} (hB : ∀ b ∈ R, B b = m.sect b) (hj : j < ninodes) (hne : j ≠ i)
    (hbuilt : Built (m.dinode j) m.sect) :
    (m.dinode j).bytes B = (m.dinode j).bytes m.sect ∧ Built (m.dinode j) B := by
  have haddr : (m.dinode j).addr B = (m.dinode j).addr m.sect :=
    hR.addr_eq hi hB hj hne hbuilt.type
  constructor
  · refine bytes_congr rfl fun o ho => ?_
    have hlt := lt_dataBlocks ho
    have hmax : o / bsize < maxfile := lt_of_lt_of_le hlt (dataBlocks_le hbuilt.size_le)
    rw [haddr]
    exact hR.block_eq hi hB hj hne hbuilt.type
      (addr_mem hmax ((hbuilt.addr _ hmax).mpr hlt))
  · exact { hbuilt with addr := by rw [haddr]; exact hbuilt.addr }

theorem le_dataBlocks (off : ℕ) : off ≤ dataBlocks off * bsize := by
  unfold dataBlocks bsize
  omega

theorem Inv.replace {u : Image} {w : Dinode} (h : Inv m) (hi0 : 0 < i) (hi : i ≤ m.freeinode)
    (hR : Rest layout m.state.disk i R) (hlen : u.len = fssize)
    (hnext : u.freeinode = max m.freeinode (i + 1)) (hin : u.freeinode ≤ ninodes)
    (hself : u.dinode i = w) (hother : ∀ j < ninodes, j ≠ i → u.dinode j = m.dinode j)
    (hrest : ∀ b ∈ R, u.sect b = m.sect b) (hsuper : u.sect 1 = m.sect 1)
    (hbuilt : Built w u.sect) (hnodup : (w.blocks u.sect + R).Nodup)
    (hmem : ∀ b, b ∈ w.blocks u.sect + R ↔ nmeta ≤ b ∧ b < u.freeblock)
    (hlow : nmeta ≤ u.freeblock) (hbound : u.freeblock ≤ fssize)
    (hclean : ∀ b, u.freeblock ≤ b → u.sect b = fun _ => 0)
    (hcount : u.freeblock + blocksOf (m.dinode i) = m.freeblock + blocksOf w) :
    Inv u ∧ ∀ j < ninodes, j ≠ i → u.dinode j = m.dinode j ∧
      (u.dinode j).bytes u.sect = (m.dinode j).bytes m.sect := by
  have hilt : i < ninodes := by omega
  have hinode := h.inode
  have hused : used ninodes u.dinode u.sect = w.blocks u.sect + R := by
    have hsum := hR.used_update hilt hrest w
    rw [Dinode.held, if_neg hbuilt.type] at hsum
    refine Eq.trans (total_congr fun j hj => ?_) hsum
    by_cases hji : j = i
    · subst hji
      rw [hself, update_self]
    · rw [hother j hj hji, update_of_ne hji]
      rfl
  constructor
  · refine ⟨hlen, by omega, hlow, hbound, hsuper.trans h.super, hused ▸ ⟨hnodup, hmem⟩,
      hclean, fun j hj hfree => ?_, fun j hj0 hj => ?_, ?_⟩
    · rw [hother j hj (by omega)]
      exact h.free j hj (by omega)
    · by_cases hji : j = i
      · rw [hji, hself]
        exact hbuilt
      · have hjn : j < ninodes := by omega
        rw [hother j hjn hji]
        exact (Rest.bytes_eq hR hilt hrest hjn hji (h.built j hj0 (by omega))).2
    · have hchange := total_change (f := fun j => blocksOf (m.dinode j))
        (g := fun j => blocksOf (u.dinode j)) hilt fun j hj hne => by rw [hother j hj hne]
      have htotal := h.count
      simp only [hself] at hchange
      omega
  · intro j hj hne
    rw [hother j hj hne]
    refine ⟨rfl, ?_⟩
    by_cases hfree : j = 0 ∨ m.freeinode ≤ j
    · rw [h.free j hj hfree]
      rfl
    · exact (Rest.bytes_eq hR hilt hrest hj hne (h.built j (by omega) (by omega))).1

theorem addr_of_addrs {w : Dinode} (h : w.addrs = d.addrs) : w.addr = d.addr := by
  funext B bn
  simp [Dinode.addr, h]

theorem blocks_of_addrs {w : Dinode} (h : w.addrs = d.addrs) : w.blocks = d.blocks := by
  funext B
  unfold Dinode.blocks
  rw [addr_of_addrs h, h]

theorem Appended.wrote (h : Inv m) (hi0 : 0 < i) (hi : i < m.freeinode)
    (hR : Rest layout m.state.disk i R) (hmax : (m.dinode i).size + p.length ≤ maxfile * bsize)
    (ha : Appended R (m.dinode i).size p m m' (m.dinode i) d) :
    Inv (m'.withInode i { d with size := (m.dinode i).size + p.length }) ∧
      Wrote i p m (m'.withInode i { d with size := (m.dinode i).size + p.length }) := by
  have hin : i < ninodes := lt_of_lt_of_le hi h.inode.2
  have hold := h.built i hi0 hi
  generalize hw : ({ d with size := (m.dinode i).size + p.length } : Dinode) = w
  have hsize : w.size = (m.dinode i).size + p.length := by rw [← hw]
  have htype : w.type = (m.dinode i).type := by rw [← hw, ha.same]
  have hwtype : w.type ≠ .none := by
    rw [htype]
    exact hold.type
  have hnums : w.major = 0 ∧ w.minor = 0 ∧ w.nlink = 1 := by
    rw [← hw, ha.same]
    exact hold.numbers
  have haddrs : w.addrs = d.addrs := by rw [← hw]
  have haddr := addr_of_addrs haddrs
  have hpacks : Packs w := by
    refine ⟨by rw [hnums.1]; decide, by rw [hnums.2.1]; decide, by rw [hnums.2.2]; decide, ?_, ?_,
      ?_⟩
    · rw [hsize]
      unfold maxfile ndirect nindirect bsize at hmax
      omega
    · rw [haddrs]
      exact ha.growing.packs ha.bound
    · rw [haddrs]
      exact ha.growing.outside
  -- the data area is that of the loop, the other inodes are the old ones
  have hsect : ∀ b, nmeta ≤ b → (m'.withInode i w).sect b = m'.sect b := fun b hb =>
    withInode_sect (by have := iblock_lt hin; omega)
  have hself : (m'.withInode i w).dinode i = w := by
    rw [withInode_dinode hpacks, update_self]
  obtain ⟨hgrow, -, hcontent⟩ := ha.growing.congr_low hsect
  have hbuilt : Built w (m'.withInode i w).sect := by
    refine ⟨hwtype, hnums, by rw [hsize]; exact hmax, ?_, ?_, by rw [haddrs]; exact hgrow.outside⟩
    · rw [haddr, hsize]
      exact hgrow.addr
    · rw [haddrs, hsize]
      exact hgrow.ind
  obtain ⟨hinv, hother⟩ := h.replace hi0 hi.le hR (u := m'.withInode i w) (ha.len.trans h.len)
    (by change m'.freeinode = _; rw [ha.freeinode]; omega)
    (by change m'.freeinode ≤ _; rw [ha.freeinode]; exact h.inode.2) hself
    (fun j hj hne => by
      rw [withInode_dinode hpacks, update_of_ne hne, dinode_congr ha.low hj])
    (fun b hb => by rw [hsect b (ha.growing.rest_lt hb).1, ha.rest b hb])
    (by rw [withInode_sect (one_lt_iblock i).ne, ha.low 1 (by decide)]) hbuilt
    (by rw [blocks_of_addrs haddrs]; exact hgrow.nodup)
    (by rw [blocks_of_addrs haddrs]; exact hgrow.mem) hgrow.low ha.bound hgrow.clean (by
      rw [blocksOf, if_neg hold.type, blocksOf, if_neg hwtype, hsize]
      exact ha.count)
  refine ⟨hinv, ha.freeinode, by rw [hself, htype], by rw [hself, hsize], ?_, hother, ha.count⟩
  have hbytes : w.bytes (m'.withInode i w).sect =
      content d (m'.withInode i w).sect ((m.dinode i).size + p.length) := by
    unfold Dinode.bytes content
    rw [haddr, hsize]
  rw [hself, hbytes, hcontent _ (le_dataBlocks _) (dataBlocks_le hmax), ha.bytes]
  rfl

theorem iappend_spec (h : Inv m) (hi0 : 0 < i) (hi : i < m.freeinode) (p : List UInt8) :
    Within (fun _ => ¬ Room m (m.dinode i).size ((m.dinode i).size + p.length)) (iappend i p) m
      fun _ m' => Inv m' ∧ Wrote i p m m' := by
  have hin : i < ninodes := lt_of_lt_of_le hi h.inode.2
  have hblock : iblock i < fssize := lt_of_lt_of_le (iblock_lt hin) (by decide)
  obtain ⟨R, hR⟩ : ∃ R, Rest layout m.state.disk i R := exists_rest hin
  unfold iappend
  refine ((rinode_spec (by rw [h.len]; exact hblock)).within).bind fun d m' hd => ?_
  obtain ⟨rfl, rfl⟩ := hd
  refine (appendLoop_spec p.length _ _ p m' h.len h.bound (h.built i hi0 hi).size_le
    (h.growing hi0 hi hR) le_rfl).bind fun r m'' hr => ?_
  obtain ⟨hoff, hmax, ha⟩ := hr
  rw [hoff] at hmax ⊢
  refine ((winode_spec (by rw [ha.len, h.len]; exact hblock) _).within).mono fun _ u hu => ?_
  rw [hu]
  exact ha.wrote h hi0 hi hR hmax

/-- A new inode. -/
def newInode (type : FileType) : Dinode := { Dinode.zero with type := type, nlink := 1 }

theorem newInode_built {type : FileType} (h : type ≠ .none) (B : ℕ → Block) :
    Built (newInode type) B := by
  have hnone : ¬ ndirect < dataBlocks 0 := by decide
  have hzero : dataBlocks (newInode type).size = 0 := show dataBlocks 0 = 0 by decide
  refine ⟨h, ⟨rfl, rfl, rfl⟩, Nat.zero_le _, fun bn _ => ?_, ?_, fun _ _ => rfl⟩
  · have haddr : (newInode type).addr B bn = 0 := by
      unfold Dinode.addr
      split
      · rfl
      · rfl
    rw [haddr, hzero]
    exact ⟨fun hne => absurd rfl hne, fun hlt => absurd hlt (Nat.not_lt_zero bn)⟩
  · exact ⟨fun hne => absurd rfl hne, fun hlt => absurd hlt hnone⟩

/-- What `ialloc` has done. -/
structure Alloced (i : ℕ) (type : FileType) (m m' : Image) : Prop where
  freeinode : m'.freeinode = m.freeinode + 1
  freeblock : m'.freeblock = m.freeblock
  self : m'.dinode i = newInode type
  other : ∀ j < ninodes, j ≠ i → m'.dinode j = m.dinode j ∧
    (m'.dinode j).bytes m'.sect = (m.dinode j).bytes m.sect

theorem ialloc_spec (h : Inv m) (hfree : m.freeinode < ninodes) {type : FileType}
    (htype : type ≠ .none) :
    Ensures (ialloc type) m fun i m' => i = m.freeinode ∧ Inv m' ∧ Alloced i type m m' := by
  have hinode := h.inode
  obtain ⟨R, hR⟩ : ∃ R, Rest layout m.state.disk m.freeinode R := exists_rest hfree
  have hblock : iblock m.freeinode < fssize := lt_of_lt_of_le (iblock_lt hfree) (by decide)
  have hzero := h.free m.freeinode hfree (.inr le_rfl)
  have hheld : (m.dinode m.freeinode).held m.sect = 0 := by rw [hzero]; rfl
  have hused : used ninodes m.dinode m.sect = R := by
    have : used ninodes m.dinode m.sect = (m.dinode m.freeinode).held m.sect + R := hR
    rw [this, hheld, zero_add]
  have hpacks : Packs (newInode type) := by
    cases type <;> exact ⟨by decide, by decide, by decide, by decide,
      fun _ _ => show 0 < 2 ^ 32 by decide, fun _ _ => rfl⟩
  have hblocks (B : ℕ → Block) : (newInode type).blocks B = 0 := blocks_eq_zero fun _ _ => rfl
  unfold ialloc
  apply ensures_get_bind
  apply ensures_modify_bind
  refine (winode_spec (by rw [h.len]; exact hblock) _).bind fun _ u hu => ?_
  have hsect : ∀ b, nmeta ≤ b → u.sect b = m.sect b := by
    intro b hb
    rw [hu]
    exact withInode_sect (by have := iblock_lt hfree; omega)
  have hdinode : u.dinode = update m.dinode m.freeinode (newInode type) := by
    rw [hu]
    exact withInode_dinode hpacks
  have hself : u.dinode m.freeinode = newInode type := by rw [hdinode, update_self]
  have hlen : u.len = m.len := by rw [hu]; rfl
  have hfi : u.freeinode = m.freeinode + 1 := by rw [hu]; rfl
  have hfb : u.freeblock = m.freeblock := by rw [hu]; rfl
  have hlow := h.low
  obtain ⟨hinv, hother⟩ := h.replace hinode.1 le_rfl hR (hlen.trans h.len) (by omega) (by omega)
    hself (fun j _ hne => by rw [hdinode, update_of_ne hne])
    (fun b hb => hsect b ((h.order.mem b).mp (hused ▸ hb)).1)
    (by rw [hu]; exact withInode_sect (one_lt_iblock _).ne) (newInode_built htype u.sect)
    (by rw [hblocks, zero_add, ← hused]; exact h.order.nodup)
    (by rw [hblocks, zero_add, ← hused, hfb]; exact h.order.mem) (by omega) (by rw [hfb]; exact h.bound)
    (fun b hb => by rw [hsect b (by omega)]; exact h.clean b (by omega)) (by
      have hnew : blocksOf (newInode type) = blockCount (dataBlocks 0) := if_neg htype
      rw [hfb, hzero, hnew]
      rfl)
  exact ensures_pure ⟨rfl, hinv, hfi, hfb, hself, hother⟩

/-! ## The pieces of a file -/

theorem Wrote.refl : Wrote i [] m m :=
  ⟨rfl, rfl, rfl, by simp, fun _ _ _ => ⟨rfl, rfl⟩, rfl⟩

theorem Wrote.trans {m'' : Image} {c : List UInt8} (h : Wrote i c m m') (h' : Wrote i p m' m'') :
    Wrote i (c ++ p) m m'' where
  freeinode := h'.freeinode.trans h.freeinode
  type := h'.type.trans h.type
  size := by rw [h'.size, h.size, List.length_append, Nat.add_assoc]
  bytes := by rw [h'.bytes, h.bytes, List.append_assoc]
  other j hj hne := by
    obtain ⟨hd, hb⟩ := h.other j hj hne
    obtain ⟨hd', hb'⟩ := h'.other j hj hne
    exact ⟨hd'.trans hd, hb'.trans hb⟩
  count := by
    have hcount := h.count
    have hcount' := h'.count
    rw [h.size] at hcount'
    rw [List.length_append, ← Nat.add_assoc]
    omega

theorem appendAll_spec : ∀ (cs : List (List UInt8)) (m : Image), Inv m → 0 < i →
    i < m.freeinode →
    Within (fun _ => ¬ Room m (m.dinode i).size ((m.dinode i).size + cs.flatten.length))
      (appendAll i cs) m fun _ m' => Inv m' ∧ Wrote i cs.flatten m m' := by
  intro cs
  induction cs with
  | nil =>
    intro m h _ _
    exact within_pure ⟨h, .refl⟩
  | cons c cs ih =>
    intro m h hi0 hi
    unfold appendAll
    rw [List.flatten_cons, List.length_append]
    refine ((iappend_spec h hi0 hi c).weaken fun _ hbad hgood => hbad ?_).bind fun _ m' hm' => ?_
    · -- room for all pieces is room for the first
      have hmono := blockCount_mono (dataBlocks_mono
        (show (m.dinode i).size + c.length ≤ (m.dinode i).size + (c.length + cs.flatten.length)
          by omega))
      exact ⟨by have := hgood.1; omega, by have := hgood.2; omega⟩
    · obtain ⟨hinv, hwrote⟩ := hm'
      refine ((ih m' hinv hi0 (by rw [hwrote.freeinode]; exact hi)).weaken
        fun _ hbad hgood => hbad ?_).mono fun _ m'' hm'' => ⟨hm''.1, hwrote.trans hm''.2⟩
      have hcount := hwrote.count
      have hend : (m'.dinode i).size + cs.flatten.length =
          (m.dinode i).size + (c.length + cs.flatten.length) := by
        rw [hwrote.size]
        omega
      unfold Room at hgood ⊢
      rw [hend, hwrote.size]
      exact ⟨hgood.1, by have := hgood.2; omega⟩

/-! ## The files -/

/-- The entries of the root directory. -/
def rootEntries (fs : List HostFile) : List Dirent :=
  ⟨rootino, dot⟩ :: ⟨rootino, dotdot⟩ :: fs.mapIdx fun k f => ⟨k + 2, f.shortname⟩

/-- The blocks that are in use after the files have been added. -/
def need (fs : List HostFile) : ℕ :=
  nmeta + blockCount (dataBlocks ((fs.length + 2) * direntSize)) +
    (fs.map fun f => blockCount (dataBlocks f.content.length)).sum

/-- The names are short and have no slash, and the files fit in the image. -/
structure Fits (fs : List HostFile) : Prop where
  slash : ∀ f ∈ fs, 47 ∉ f.stripped
  name : ∀ f ∈ fs, f.shortname.length ≤ dirsiz
  size : ∀ f ∈ fs, f.content.length ≤ maxfile * bsize
  total : need fs ≤ fssize

/-- The files are in the image, with their names in the root directory. -/
structure Holds (fs : List HostFile) (m : Image) : Prop where
  inv : Inv m
  next : m.freeinode = fs.length + 2
  blocks : m.freeblock = need fs
  root : (m.dinode rootino).type = .dir
  rootSize : (m.dinode rootino).size = (fs.length + 2) * direntSize
  rootBytes : (m.dinode rootino).bytes m.sect = (rootEntries fs).flatMap Dirent.bytes
  file : ∀ k f, fs[k]? = some f → (m.dinode (k + 2)).type = .file ∧
    (m.dinode (k + 2)).size = f.content.length ∧ (m.dinode (k + 2)).bytes m.sect = f.content

theorem Fits.left {fs gs : List HostFile} (h : Fits (fs ++ gs)) : Fits fs := by
  refine ⟨fun f hf => h.slash f (List.mem_append_left _ hf),
    fun f hf => h.name f (List.mem_append_left _ hf),
    fun f hf => h.size f (List.mem_append_left _ hf), le_trans ?_ h.total⟩
  have hmono := blockCount_mono (dataBlocks_mono
    (show (fs.length + 2) * direntSize ≤ ((fs ++ gs).length + 2) * direntSize by
      rw [List.length_append]
      exact Nat.mul_le_mul_right _ (by omega)))
  unfold need
  rw [List.map_append, List.sum_append]
  omega

theorem need_append (fs : List HostFile) (f : HostFile) :
    need (fs ++ [f]) + blockCount (dataBlocks ((fs.length + 2) * direntSize)) =
      need fs + blockCount (dataBlocks ((fs.length + 3) * direntSize)) +
        blockCount (dataBlocks f.content.length) := by
  unfold need
  rw [List.map_append, List.sum_append, List.length_append]
  simp only [List.length_singleton, List.map_cons, List.map_nil, List.sum_cons, List.sum_nil]
  rw [show fs.length + 1 + 2 = fs.length + 3 by omega]
  omega

theorem addFile_spec {fs : List HostFile} {f : HostFile} (h : Holds fs m)
    (hn : fs.length + 3 ≤ ninodes) :
    Within (fun _ => ¬ Fits (fs ++ [f])) (addFile f) m fun _ m' => Holds (fs ++ [f]) m' := by
  have hmem : f ∈ fs ++ [f] := List.mem_append_right _ (List.mem_singleton_self f)
  unfold addFile
  split
  · rename_i hslash
    exact within_throw fun hgood => hgood.slash f hmem hslash
  split
  · rename_i hlen
    exact within_throw fun hgood => absurd (hgood.name f hmem) (by omega)
  have hnext := h.next
  refine ((ialloc_spec h.inv (by omega) (show FileType.file ≠ .none by decide)).within).bind
    fun i m₁ hm₁ => ?_
  obtain ⟨rfl, hinv₁, halloc⟩ := hm₁
  rw [hnext] at halloc ⊢
  have hfi₁ := halloc.freeinode
  have hroot : rootino < ninodes := by decide
  have hneq : rootino ≠ fs.length + 2 := by
    unfold rootino
    omega
  obtain ⟨hroot₁, hrootb₁⟩ := halloc.other rootino hroot hneq
  have hneed := need_append fs f
  have hblocks := h.blocks
  -- the entry in the root directory
  have hrsize : (m₁.dinode rootino).size = (fs.length + 2) * direntSize := by
    rw [hroot₁, h.rootSize]
  have hrsize' : (fs.length + 2) * direntSize + direntSize = (fs.length + 3) * direntSize := by
    rw [← Nat.succ_mul]
  refine ((iappend_spec hinv₁ (by decide) (by unfold rootino; omega) _).weaken
    fun _ hbad hgood => hbad ?_).bind fun _ m₂ hm₂ => ?_
  · rw [hrsize, bytes_length, hrsize']
    refine ⟨?_, ?_⟩
    · unfold ninodes at hn
      unfold direntSize maxfile ndirect nindirect bsize
      omega
    · have := hgood.total
      have := halloc.freeblock
      omega
  obtain ⟨hinv₂, hwrote⟩ := hm₂
  have hsame₂ := hwrote.other (fs.length + 2) (by omega) hneq.symm
  rw [halloc.self] at hsame₂
  have hcount := hwrote.count
  rw [hrsize, bytes_length, hrsize'] at hcount
  have hfb₁ := halloc.freeblock
  have hsize₂ : (m₂.dinode (fs.length + 2)).size = 0 := by rw [hsame₂.1]; rfl
  -- the contents
  refine ((appendAll_spec f.chunks m₂ hinv₂ (by omega) (by
    rw [hwrote.freeinode]
    omega)).weaken fun _ hbad hgood => hbad ?_).mono fun _ m₃ hm₃ => ?_
  · rw [hsize₂, Nat.zero_add]
    refine ⟨hgood.size f hmem, ?_⟩
    have := hgood.total
    change _ + blockCount (dataBlocks f.content.length) ≤ fssize + blockCount (dataBlocks 0)
    omega
  obtain ⟨hinv₃, hfile⟩ := hm₃
  have hcount₃ := hfile.count
  rw [hsize₂, Nat.zero_add] at hcount₃
  have hrest₃ := hfile.other rootino hroot hneq
  refine ⟨hinv₃, ?_, ?_, ?_, ?_, ?_, fun k g hk => ?_⟩
  · rw [hfile.freeinode, hwrote.freeinode, hfi₁, hnext, List.length_append]
    rfl
  · change m₃.freeblock + blockCount (dataBlocks 0) =
      m₂.freeblock + blockCount (dataBlocks f.content.length) at hcount₃
    have hz : blockCount (dataBlocks 0) = 0 := by decide
    omega
  · rw [hrest₃.1, hwrote.type, hroot₁]
    exact h.root
  · rw [hrest₃.1, hwrote.size, hrsize, bytes_length, hrsize', List.length_append]
    rfl
  · rw [hrest₃.2, hwrote.bytes, hrootb₁, h.rootBytes]
    unfold rootEntries
    simp [List.mapIdx_append]
  · rw [List.getElem?_append] at hk
    split at hk
    · rename_i hlt
      obtain ⟨htype, hsize, hbytes⟩ := h.file k g hk
      have hne : k + 2 ≠ fs.length + 2 := by omega
      have hne' : k + 2 ≠ rootino := by unfold rootino; omega
      obtain ⟨hd₁, hb₁⟩ := halloc.other (k + 2) (by omega) hne
      obtain ⟨hd₂, hb₂⟩ := hwrote.other (k + 2) (by omega) hne'
      obtain ⟨hd₃, hb₃⟩ := hfile.other (k + 2) (by omega) hne
      rw [hb₃, hb₂, hb₁, hd₃, hd₂, hd₁]
      exact ⟨htype, hsize, hbytes⟩
    · rename_i hge
      have hk0 : k - fs.length = 0 := by
        by_contra hne
        obtain ⟨j, hj⟩ := Nat.exists_eq_succ_of_ne_zero hne
        rw [hj] at hk
        cases hk
      rw [hk0] at hk
      obtain rfl : f = g := Option.some.inj hk
      obtain rfl : k = fs.length := by omega
      rw [hfile.bytes, hfile.type, hfile.size, hsame₂.2, hsame₂.1]
      exact ⟨rfl, Nat.zero_add _, rfl⟩

theorem addFiles_spec : ∀ (gs fs : List HostFile) (m : Image), Holds fs m →
    (fs ++ gs).length + 2 ≤ ninodes →
    Within (fun _ => ¬ Fits (fs ++ gs)) (addFiles gs) m fun _ m' => Holds (fs ++ gs) m' := by
  intro gs
  induction gs with
  | nil =>
    intro fs m h _
    rw [List.append_nil]
    exact within_pure h
  | cons g gs ih =>
    intro fs m h hn
    have hcons : fs ++ g :: gs = fs ++ [g] ++ gs := by simp
    unfold addFiles
    rw [hcons] at hn ⊢
    rw [List.length_append, List.length_append, List.length_singleton] at hn
    refine ((addFile_spec h (by omega)).weaken fun _ hbad hgood => hbad hgood.left).bind
      fun _ m' hm' => ?_
    exact ih (fs ++ [g]) m' hm' (by simp only [List.length_append, List.length_singleton]; omega)

end

end Xv6.Mkfs
