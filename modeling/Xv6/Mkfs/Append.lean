import Xv6.Mkfs.Image

/-!
# Appending to a file of the image

`iappend` hands out data blocks in order. While a file grows, the blocks of all inodes
are the data blocks before `freeblock`, each once, and the blocks from `freeblock` on
are zero. A round of the loop maps the next block if the file ends at a block boundary
and writes some bytes at the end of the file.
-/

namespace Xv6.Mkfs

open Eff Fs Bag Function

/-- The number of blocks of an inode with `n` data blocks. -/
def blockCount (n : ℕ) : ℕ := n + if ndirect < n then 1 else 0

/-- The number of data blocks of a file. -/
def dataBlocks (size : ℕ) : ℕ := (size + (bsize - 1)) / bsize

/-- An inode with `n` data blocks. The blocks of the other inodes are `R`, and all
blocks before `fb` are in use. The indirect block is there once `q` is large. -/
structure Growing (d : Dinode) (B : ℕ → Block) (fb : ℕ) (R : Multiset ℕ) (n q : ℕ) : Prop where
  nodup : (d.blocks B + R).Nodup
  mem : ∀ b, b ∈ d.blocks B + R ↔ nmeta ≤ b ∧ b < fb
  low : nmeta ≤ fb
  clean : ∀ b, fb ≤ b → B b = fun _ => 0
  addr : ∀ bn < maxfile, (d.addr B bn ≠ 0 ↔ bn < n)
  ind : d.addrs ndirect ≠ 0 ↔ ndirect < q
  outside : ∀ i, ndirect < i → d.addrs i = 0

section

variable {d : Dinode} {B : ℕ → Block} {fb n q bn : ℕ} {R : Multiset ℕ}

theorem Growing.own_nodup (h : Growing d B fb R n q) : (d.blocks B).Nodup :=
  (Multiset.nodup_add.mp h.nodup).1

theorem Growing.block_lt (h : Growing d B fb R n q) {b : ℕ} (hb : b ∈ d.blocks B) : b < fb :=
  ((h.mem b).mp (Multiset.mem_add.mpr (.inl hb))).2

theorem Growing.rest_lt (h : Growing d B fb R n q) {b : ℕ} (hb : b ∈ R) :
    nmeta ≤ b ∧ b < fb := (h.mem b).mp (Multiset.mem_add.mpr (.inr hb))

theorem Growing.not_rest (h : Growing d B fb R n q) {b : ℕ} (hb : b ∈ d.blocks B) : b ∉ R :=
  Multiset.disjoint_left.mp (Multiset.nodup_add.mp h.nodup).2.2 hb

theorem Growing.take {d' : Dinode} {B' : ℕ → Block} (h : Growing d B fb R n q)
    (hblocks : d'.blocks B' = fb ::ₘ d.blocks B) :
    (d'.blocks B' + R).Nodup ∧ ∀ b, b ∈ d'.blocks B' + R ↔ nmeta ≤ b ∧ b < fb + 1 := by
  have hlow := h.low
  rw [hblocks, Multiset.cons_add]
  constructor
  · refine Multiset.nodup_cons.mpr ⟨fun hmem => ?_, h.nodup⟩
    exact absurd ((h.mem fb).mp hmem).2 (lt_irrefl fb)
  · intro b
    rw [Multiset.mem_cons, h.mem b]
    omega

theorem Growing.zero_of_le (h : Growing d B fb R n q) (hbn : bn < maxfile) (hle : n ≤ bn) :
    d.addr B bn = 0 := by
  by_contra hne
  exact absurd ((h.addr bn hbn).mp hne) (by omega)

theorem Growing.map {d' : Dinode} {B' : ℕ → Block} (h : Growing d B fb R n q)
    (hn : n < maxfile) (hind : d'.addrs ndirect = d.addrs ndirect)
    (haddr : d'.addr B' = update (d.addr B) n fb)
    (hclean : ∀ b, fb + 1 ≤ b → B' b = B b) (hout : ∀ i, ndirect < i → d'.addrs i = 0) :
    Growing d' B' (fb + 1) R (n + 1) q := by
  have hlow := h.low
  have hfb : fb ≠ 0 := by
    have : 0 < nmeta := by decide
    omega
  have hblocks := blocks_update hind haddr hn
  rw [h.zero_of_le hn le_rfl, nz_zero, add_zero, nz_of_ne hfb, add_comm,
    Multiset.singleton_add] at hblocks
  obtain ⟨hnodup, hmem⟩ := h.take hblocks
  refine ⟨hnodup, hmem, by omega, fun b hb => ?_, fun bn hbn => ?_, ?_, hout⟩
  · rw [hclean b hb]
    exact h.clean b (by omega)
  · rw [haddr]
    by_cases heq : bn = n
    · subst heq
      simp [hfb]
    · rw [update_of_ne heq, h.addr bn hbn]
      omega
  · rw [hind]
    exact h.ind

theorem Growing.direct (h : Growing d B fb R n q) (hn : n < ndirect) :
    Growing { d with addrs := update d.addrs n fb } B (fb + 1) R (n + 1) q := by
  have hmax : n < maxfile := by unfold maxfile; omega
  refine h.map hmax (update_of_ne (by omega) _ _) (addr_setDirect d B fb hn)
    (fun _ _ => rfl) fun i hi => ?_
  rw [← h.outside i hi]
  exact update_of_ne (by omega) _ _

theorem Growing.indirect (h : Growing d B fb R ndirect ndirect) :
    Growing { d with addrs := update d.addrs ndirect fb } B (fb + 1) R ndirect
      (ndirect + 1) := by
  have hlow := h.low
  have hfb : fb ≠ 0 := by
    have : 0 < nmeta := by decide
    omega
  have hnone : d.addrs ndirect = 0 := by
    by_contra hne
    exact absurd (h.ind.mp hne) (lt_irrefl _)
  have haddr := addr_setIndirect hnone (h.clean fb le_rfl)
  have hblocks : Dinode.blocks { d with addrs := update d.addrs ndirect fb } B =
      fb ::ₘ d.blocks B := by
    unfold Dinode.blocks
    rw [haddr, hnone, nz_zero, zero_add]
    dsimp only
    rw [update_self, nz_of_ne hfb, Multiset.singleton_add]
  obtain ⟨hnodup, hmem⟩ := h.take hblocks
  refine ⟨hnodup, hmem, by omega, fun b hb => h.clean b (by omega), fun bn hbn => ?_, ?_,
    fun i hi => ?_⟩
  · rw [haddr]
    exact h.addr bn hbn
  · simp [hfb]
  · rw [← h.outside i hi]
    exact update_of_ne (by omega) _ _

theorem Growing.enter (h : Growing d B fb R n (n + 1)) (hlo : ndirect ≤ n) (hn : n < maxfile)
    (hfb : fb < 2 ^ 32) :
    Growing d (update B (d.addrs ndirect)
      (setEntry (B (d.addrs ndirect)) (n - ndirect) fb)) (fb + 1) R (n + 1) (n + 1) := by
  have hind : d.addrs ndirect ≠ 0 := h.ind.mpr (by omega)
  refine h.map hn rfl (addr_setEntry hind hlo hfb) (fun b hb => ?_) h.outside
  have := h.block_lt (indirect_mem hind)
  exact update_of_ne (by omega) _ _

theorem Growing.write (h : Growing d B fb R n q) (hbn : bn < maxfile) (hlt : bn < n) (w : Block) :
    Growing d (update B (d.addr B bn) w) fb R n q ∧
      d.addr (update B (d.addr B bn) w) = d.addr B := by
  have hne := (h.addr bn hbn).mpr hlt
  have hind := addr_ne_indirect h.own_nodup hbn hne
  have hsame : d.addrs ndirect ≠ 0 →
      update B (d.addr B bn) w (d.addrs ndirect) = B (d.addrs ndirect) :=
    fun _ => update_of_ne hind.symm _ _
  have haddr := addr_congr hsame
  refine ⟨⟨?_, ?_, h.low, fun b hb => ?_, ?_, h.ind, h.outside⟩, haddr⟩
  · rw [blocks_congr hsame]
    exact h.nodup
  · rw [blocks_congr hsame]
    exact h.mem
  · have := h.block_lt (addr_mem hbn hne)
    rw [update_of_ne (by omega)]
    exact h.clean b hb
  · rw [haddr]
    exact h.addr

theorem Growing.packs (h : Growing d B fb R n q) (hfb : fb ≤ fssize) :
    (∀ i ≤ ndirect, d.addrs i < 2 ^ 32) := by
  intro i hi
  by_cases hz : d.addrs i = 0
  · rw [hz]
    decide
  · have hmem : d.addrs i ∈ d.blocks B := by
      rcases hi.lt_or_eq with hlt | rfl
      · have hmax : i < maxfile := by unfold maxfile; omega
        have haddr : d.addr B i = d.addrs i := if_pos hlt
        rw [← haddr]
        exact addr_mem hmax (by rwa [haddr])
      · exact indirect_mem hz
    have := h.block_lt hmem
    unfold fssize at hfb
    omega

end

/-! ## One round -/

/-- What appending to an inode leaves alone: the counters of the program, the blocks
before the data area, the blocks of other inodes, and all but the addresses of the
inode itself. -/
structure Apart (R : Multiset ℕ) (m m' : Image) (d d' : Dinode) : Prop where
  len : m'.len = m.len
  freeinode : m'.freeinode = m.freeinode
  low : ∀ b < nmeta, m'.sect b = m.sect b
  rest : ∀ b ∈ R, m'.sect b = m.sect b
  same : d' = { d with addrs := d'.addrs }

section

variable {m m' m'' : Image} {d d' d'' : Dinode} {R : Multiset ℕ} {n bn x off : ℕ}

theorem Apart.refl : Apart R m m d d := ⟨rfl, rfl, fun _ _ => rfl, fun _ _ => rfl, rfl⟩

theorem Apart.trans (h : Apart R m m' d d') (h' : Apart R m' m'' d' d'') :
    Apart R m m'' d d'' where
  len := h'.len.trans h.len
  freeinode := h'.freeinode.trans h.freeinode
  low b hb := (h'.low b hb).trans (h.low b hb)
  rest b hb := (h'.rest b hb).trans (h.rest b hb)
  same := by rw [h'.same, h.same]

/-- The file is mapped up to block `bn`, which is `x`; its data is what it was. -/
structure Mapped (R : Multiset ℕ) (n bn : ℕ) (m m' : Image) (d d' : Dinode) (x : ℕ) : Prop
    extends Apart R m m' d d' where
  growing : Growing d' m'.sect m'.freeblock R (bn + 1) (bn + 1)
  found : d'.addr m'.sect bn = x
  count : m'.freeblock + blockCount n = m.freeblock + blockCount (bn + 1)
  fresh : m'.freeblock = m.freeblock ∨ m'.freeblock = x + 1
  addr : ∀ k < n, d'.addr m'.sect k = d.addr m.sect k
  data : ∀ k < n, k < maxfile → m'.sect (d.addr m.sect k) = m.sect (d.addr m.sect k)

theorem takeBlock_spec (m : Image) :
    Ensures takeBlock m fun x m' => x = m.freeblock ∧
      m' = { m with freeblock := m.freeblock + 1 } := by
  unfold takeBlock
  apply ensures_get_bind
  apply ensures_modify_bind
  exact ensures_pure ⟨rfl, rfl⟩

theorem mapped_already (h : Growing d m.sect m.freeblock R (bn + 1) (bn + 1)) :
    Mapped R (bn + 1) bn m m d d (d.addr m.sect bn) :=
  ⟨.refl, h, rfl, rfl, .inl rfl, fun _ _ => rfl, fun _ _ _ => rfl⟩

theorem blockFor_direct (h : Growing d m.sect m.freeblock R n n) (hbn : bn < ndirect)
    (hn : n = bn ∨ n = bn + 1) :
    Ensures (blockFor d bn) m fun r m' => Mapped R n bn m m' d r.1 r.2 := by
  have hmax : bn < maxfile := by unfold maxfile; omega
  have haddr : d.addr m.sect bn = d.addrs bn := if_pos hbn
  unfold blockFor
  rw [if_pos hbn]
  unfold addrOrTake
  rcases hn with rfl | rfl
  · have hzero := h.zero_of_le hmax le_rfl
    rw [haddr] at hzero
    rw [if_pos hzero]
    refine (takeBlock_spec m).bind fun x m' hx => ?_
    obtain ⟨rfl, rfl⟩ := hx
    have hset := addr_setDirect d m.sect m.freeblock hbn
    have hgrow := h.direct hbn
    refine ensures_pure ⟨⟨rfl, rfl, fun _ _ => rfl, fun _ _ => rfl, rfl⟩, ?_, ?_, ?_, .inr rfl,
      fun k hk => ?_, fun _ _ _ => rfl⟩
    · exact { hgrow with ind := hgrow.ind.trans (by omega) }
    · dsimp only
      rw [hset, update_self]
    · unfold blockCount
      dsimp only
      rw [if_neg (by omega), if_neg (by omega)]
      omega
    · dsimp only
      rw [hset, update_of_ne (by omega)]
  · have hne := (h.addr bn hmax).mpr (by omega)
    rw [haddr] at hne
    rw [if_neg hne]
    refine (ensures_pure (Q := fun x m' => x = d.addrs bn ∧ m' = m) ⟨rfl, rfl⟩).bind
      fun x m' hx => ?_
    obtain ⟨rfl, rfl⟩ := hx
    rw [update_eq_self]
    exact ensures_pure (haddr ▸ mapped_already h)

theorem indirect_spec (h : Growing d m.sect m.freeblock R bn bn) (hbn : ndirect ≤ bn) :
    Ensures (addrOrTake (d.addrs ndirect)) m fun ind m' =>
      Growing { d with addrs := update d.addrs ndirect ind } m'.sect m'.freeblock R bn
        (bn + 1) ∧
      Dinode.addr { d with addrs := update d.addrs ndirect ind } m'.sect =
        d.addr m.sect ∧
      m' = { m with freeblock := m.freeblock + if bn = ndirect then 1 else 0 } := by
  unfold addrOrTake
  rcases hbn.lt_or_eq with hlt | rfl
  · have hind : d.addrs ndirect ≠ 0 := h.ind.mpr hlt
    rw [if_neg hind, if_neg hlt.ne']
    apply ensures_pure
    rw [update_eq_self]
    exact ⟨{ h with ind := h.ind.trans (by omega) }, rfl, rfl⟩
  · have hnone : d.addrs ndirect = 0 := by
      by_contra hne
      exact absurd (h.ind.mp hne) (lt_irrefl _)
    rw [if_pos hnone, if_pos rfl]
    refine (takeBlock_spec m).mono fun x m' hx => ?_
    obtain ⟨rfl, rfl⟩ := hx
    exact ⟨h.indirect, addr_setIndirect hnone (h.clean _ le_rfl), rfl⟩

theorem blockFor_indirect (hlen : m.len = fssize) (hfb : m.freeblock ≤ fssize)
    (h : Growing d m.sect m.freeblock R n n) (hlo : ndirect ≤ bn) (hmax : bn < maxfile)
    (hn : n = bn ∨ n = bn + 1) :
    Within (fun _ => ¬ m.freeblock + blockCount (bn + 1) ≤ fssize + blockCount n)
      (blockFor d bn) m fun r m' => Mapped R n bn m m' d r.1 r.2 := by
  unfold blockFor
  rw [if_neg hlo.not_gt]
  rcases hn with rfl | rfl
  · refine ((indirect_spec h hlo).within).bind fun ind m' hm' => ?_
    obtain ⟨hgrow, haddr, rfl⟩ := hm'
    generalize hd' : ({ d with addrs := update d.addrs ndirect ind } : Dinode) = d' at *
    have hind : d'.addrs ndirect = ind := by rw [← hd']; simp
    have hind0 : d'.addrs ndirect ≠ 0 := hgrow.ind.mpr (by omega)
    have hentry : entry (m.sect ind) (n - ndirect) = 0 := by
      have hz := hgrow.zero_of_le hmax le_rfl
      rw [Dinode.addr, if_neg hlo.not_gt, if_neg hind0, hind] at hz
      exact hz
    have hcount : blockCount (n + 1) = blockCount n + 1 + if n = ndirect then 1 else 0 := by
      unfold blockCount
      split_ifs <;> omega
    have hmem : ind ∈ d'.blocks m.sect := hind ▸ indirect_mem hind0
    have hlt := hgrow.block_lt hmem
    have hrest := hgrow.not_rest hmem
    dsimp only at hlt
    refine (rsect_spec fun hbad => ?_).bind fun b m' hm' => ?_
    · dsimp only at hbad
      split at hlt <;> omega
    obtain ⟨hsec, rfl, rfl⟩ := hm'
    dsimp only at hsec ⊢
    rw [if_pos hentry]
    refine ((takeBlock_spec _).within).bind fun x m' hx => ?_
    obtain ⟨rfl, rfl⟩ := hx
    apply within_modify_bind
    have hlow := ((hgrow.mem ind).mp (Multiset.mem_add.mpr (.inl hmem))).1
    have hxlt : m.freeblock + (if n = ndirect then 1 else 0) < 2 ^ 32 := by
      unfold fssize at hfb
      split <;> omega
    have hentered := hgrow.enter hlo hmax hxlt
    have hmap : d'.addr (update m.sect (d'.addrs ndirect)
        (setEntry (m.sect (d'.addrs ndirect)) (n - ndirect) _)) = _ :=
      addr_setEntry hind0 hlo hxlt
    rw [hind] at hentered hmap
    refine within_pure ⟨⟨?_, rfl, fun b hb => ?_, fun b hb => ?_, ?_⟩, hentered, ?_, ?_, .inr rfl,
      fun k hk => ?_, fun k hk hkmax => ?_⟩
    · dsimp only
      omega
    · exact update_of_ne (by omega) _ _
    · exact update_of_ne (by rintro rfl; exact hrest hb) _ _
    · rw [← hd']
    · dsimp only
      rw [hmap, update_self]
    · dsimp only
      omega
    · dsimp only
      rw [hmap, update_of_ne (by omega), haddr]
    · have hne := (h.addr k hkmax).mpr hk
      rw [← haddr] at hne ⊢
      exact update_of_ne (hind ▸ addr_ne_indirect hgrow.own_nodup hkmax hne) _ _
  · have hind : d.addrs ndirect ≠ 0 := h.ind.mpr (by omega)
    have haddr : d.addr m.sect bn = entry (m.sect (d.addrs ndirect)) (bn - ndirect) := by
      rw [Dinode.addr, if_neg hlo.not_gt, if_neg hind]
    have hne := (h.addr bn hmax).mpr (by omega)
    rw [haddr] at hne
    have hlt := h.block_lt (indirect_mem hind)
    unfold addrOrTake
    rw [if_neg hind]
    refine (within_pure (Q := fun x m' => x = d.addrs ndirect ∧ m' = m) ⟨rfl, rfl⟩).bind
      fun x m' hx => ?_
    obtain ⟨rfl, rfl⟩ := hx
    refine (rsect_spec fun hbad => absurd (by omega) hbad).bind fun b m' hm' => ?_
    obtain ⟨-, rfl, rfl⟩ := hm'
    rw [if_neg hne, update_eq_self]
    exact within_pure (haddr ▸ mapped_already h)

/-- The first `off` bytes of a file. -/
def content (d : Dinode) (B : ℕ → Block) (off : ℕ) : List UInt8 :=
  (List.range off).map fun o => B (d.addr B (o / bsize)) (o % bsize)

theorem dataBlocks_cases (off : ℕ) :
    dataBlocks off = off / bsize ∨ dataBlocks off = off / bsize + 1 := by
  unfold dataBlocks bsize
  omega

theorem lt_dataBlocks {o off : ℕ} (h : o < off) : o / bsize < dataBlocks off := by
  unfold dataBlocks bsize
  omega

theorem dataBlocks_le {off : ℕ} (h : off ≤ maxfile * bsize) : dataBlocks off ≤ maxfile := by
  unfold dataBlocks maxfile ndirect nindirect bsize at *
  omega

/-- The bytes at the end of the file are those written there, the others are the old
ones. -/
theorem content_append {B B' : ℕ → Block} {c : List UInt8} (hmax : off + c.length ≤ maxfile * bsize)
    (hc : 0 < c.length) (hroom : c.length ≤ bsize - off % bsize)
    (hnodup : (d'.blocks B').Nodup) (hx : d'.addr B' (off / bsize) = x) (hne : x ≠ 0)
    (haddr : ∀ k < dataBlocks off, d'.addr B' k = d.addr B k)
    (hdata : ∀ k < dataBlocks off, k < maxfile → B' (d.addr B k) = B (d.addr B k))
    (hmap : d'.addr (update B' x (putBytes (B' x) (off % bsize) c)) = d'.addr B') :
    content d' (update B' x (putBytes (B' x) (off % bsize) c)) (off + c.length) =
      content d B off ++ c := by
  have hbn : off / bsize < maxfile := div_bsize_lt (by omega)
  unfold content
  rw [hmap, List.range_add, List.map_append, List.map_map]
  congr 1
  · refine List.map_congr_left fun o ho => ?_
    have ho := List.mem_range.mp ho
    have hlt := lt_dataBlocks ho
    have hkmax : o / bsize < maxfile := div_bsize_lt (by omega)
    rw [← hdata _ hlt hkmax, ← haddr _ hlt]
    by_cases heq : o / bsize = off / bsize
    · -- the last block of the file, below its end
      rw [heq, hx, update_self]
      unfold putBytes
      rw [if_neg]
      unfold bsize at *
      omega
    · rw [update_of_ne]
      intro hsame
      rw [← hx] at hsame hne
      exact heq (addr_inj hnodup hbn hkmax hne hsame)
  · apply List.ext_getElem
    · simp
    · intro i hi hi'
      have hdiv : (off + i) / bsize = off / bsize := by unfold bsize at *; omega
      have hmod : (off + i) % bsize = off % bsize + i := by unfold bsize at *; omega
      simp only [List.getElem_map, List.getElem_range, Function.comp_apply]
      rw [hdiv, hx, update_self, hmod, putBytes_at _ hi']
      simp [hi']

/-- The bytes `p` have been appended to a file of `off` bytes. -/
structure Appended (R : Multiset ℕ) (off : ℕ) (p : List UInt8) (m m' : Image) (d d' : Dinode) :
    Prop extends Apart R m m' d d' where
  growing : Growing d' m'.sect m'.freeblock R (dataBlocks (off + p.length))
    (dataBlocks (off + p.length))
  bound : m'.freeblock ≤ fssize
  count : m'.freeblock + blockCount (dataBlocks off) =
    m.freeblock + blockCount (dataBlocks (off + p.length))
  bytes : content d' m'.sect (off + p.length) = content d m.sect off ++ p

theorem blockCount_mono {a b : ℕ} (h : a ≤ b) : blockCount a ≤ blockCount b := by
  unfold blockCount
  split <;> split <;> omega

theorem dataBlocks_mono {a b : ℕ} (h : a ≤ b) : dataBlocks a ≤ dataBlocks b :=
  Nat.div_le_div_right (by omega)

theorem Mapped.written {B : Block} (h : Mapped R (dataBlocks off) (off / bsize) m m' d d' x)
    {c : List UInt8} (hx : x < m'.len) (hlen : m'.len = fssize) (hfb : m.freeblock ≤ fssize)
    (hc : 0 < c.length) (hroom : c.length ≤ bsize - off % bsize)
    (hmax : off + c.length ≤ maxfile * bsize)
    (hB : B = putBytes (m'.sect x) (off % bsize) c) :
    Appended R off c m { m' with sect := update m'.sect x B } d d' := by
  have hbn : off / bsize < maxfile := div_bsize_lt (by omega)
  have hnext : dataBlocks (off + c.length) = off / bsize + 1 := by
    unfold dataBlocks bsize at *
    omega
  have hx0 : x ≠ 0 := by
    rw [← h.found]
    exact (h.growing.addr _ hbn).mpr (Nat.lt_succ_self _)
  have hmem : x ∈ d'.blocks m'.sect := by
    have := addr_mem hbn (h.found ▸ hx0)
    rwa [h.found] at this
  obtain ⟨hgrow, haddr⟩ := h.growing.write hbn (Nat.lt_succ_self _) B
  rw [h.found] at hgrow haddr
  have hlow := ((h.growing.mem x).mp (Multiset.mem_add.mpr (.inl hmem))).1
  refine ⟨⟨h.len, h.freeinode, fun b hb => ?_, fun b hb => ?_, h.same⟩, ?_, ?_, ?_, ?_⟩
  · rw [← h.low b hb]
    exact update_of_ne (by omega) _ _
  · rw [← h.rest b hb]
    exact update_of_ne (by rintro rfl; exact h.growing.not_rest hmem hb) _ _
  · rw [hnext]
    exact hgrow
  · have := h.fresh
    dsimp only
    omega
  · rw [hnext]
    exact h.count
  · rw [hB] at haddr ⊢
    exact content_append hmax hc hroom h.growing.own_nodup h.found hx0 h.addr h.data haddr

theorem appendRound_spec (hlen : m.len = fssize) (hfb : m.freeblock ≤ fssize)
    (h : Growing d m.sect m.freeblock R (dataBlocks off) (dataBlocks off)) {c : List UInt8}
    (hc : 0 < c.length) (hroom : c.length ≤ bsize - off % bsize) (hbn : off / bsize < maxfile) :
    Within (fun _ => ¬ m.freeblock + blockCount (dataBlocks (off + c.length)) ≤
        fssize + blockCount (dataBlocks off))
      (appendRound d off c) m fun d' m' => Appended R off c m m' d d' := by
  have hnext : dataBlocks (off + c.length) = off / bsize + 1 := by
    unfold dataBlocks bsize at *
    omega
  have hmax : off + c.length ≤ maxfile * bsize := by
    unfold maxfile ndirect nindirect bsize at *
    omega
  have hrem : off - off / bsize * bsize = off % bsize := by unfold bsize; omega
  have hblock : Within (fun _ => ¬ m.freeblock + blockCount (off / bsize + 1) ≤
      fssize + blockCount (dataBlocks off)) (blockFor d (off / bsize)) m
      fun r m' => Mapped R (dataBlocks off) (off / bsize) m m' d r.1 r.2 := by
    rcases Nat.lt_or_ge (off / bsize) ndirect with hdir | hind
    · exact (blockFor_direct h hdir (dataBlocks_cases off)).within
    · exact blockFor_indirect hlen hfb h hind hbn (dataBlocks_cases off)
  rw [hnext]
  unfold appendRound
  refine hblock.bind fun r m' hr => ?_
  have hlen' := hr.len.trans hlen
  refine (rsect_spec fun hbad => ?_).bind fun buf m'' hm'' => ?_
  · -- only a block that was just taken can lie outside of the image
    have hcount := hr.count
    rcases hr.fresh with hsame | hx
    · have hmem := addr_mem hbn ((hr.growing.addr _ hbn).mpr (Nat.lt_succ_self _))
      have hlt := hr.growing.block_lt hmem
      rw [hr.found] at hlt
      omega
    · omega
  · obtain ⟨hx, rfl, rfl⟩ := hm''
    apply within_modify_bind
    apply within_pure
    have hmaxlen : max m''.len (r.2 + 1) = m''.len := by omega
    rw [hrem, hmaxlen]
    exact hr.written hx hlen' hfb hc hroom hmax rfl

theorem Appended.refl (h : Growing d m.sect m.freeblock R (dataBlocks off) (dataBlocks off))
    (hfb : m.freeblock ≤ fssize) : Appended R off [] m m d d :=
  ⟨.refl, h, hfb, rfl, by simp⟩

theorem Appended.trans {c p : List UInt8} (h : Appended R off c m m' d d')
    (h' : Appended R (off + c.length) p m' m'' d' d'') :
    Appended R off (c ++ p) m m'' d d'' := by
  have hlen : off + (c ++ p).length = off + c.length + p.length := by
    rw [List.length_append, Nat.add_assoc]
  refine ⟨h.toApart.trans h'.toApart, ?_, h'.bound, ?_, ?_⟩
  · rw [hlen]
    exact h'.growing
  · have := h.count
    have := h'.count
    rw [hlen]
    omega
  · rw [hlen, h'.bytes, h.bytes, List.append_assoc]

/-- There is room for a file of `off` bytes to grow to `off'`. -/
def Room (m : Image) (off off' : ℕ) : Prop :=
  off' ≤ maxfile * bsize ∧
    m.freeblock + blockCount (dataBlocks off') ≤ fssize + blockCount (dataBlocks off)

theorem appendLoop_spec : ∀ (fuel : ℕ) (d : Dinode) (off : ℕ) (p : List UInt8) (m : Image),
    m.len = fssize → m.freeblock ≤ fssize → off ≤ maxfile * bsize →
    Growing d m.sect m.freeblock R (dataBlocks off) (dataBlocks off) → p.length ≤ fuel →
    Within (fun _ => ¬ Room m off (off + p.length)) (appendLoop fuel d off p) m fun r m' =>
      r.2 = off + p.length ∧ r.2 ≤ maxfile * bsize ∧ Appended R off p m m' d r.1 := by
  intro fuel
  induction fuel with
  | zero =>
    intro d off p m _ hfb hoff h hp
    obtain rfl := List.eq_nil_of_length_eq_zero (Nat.le_zero.mp hp)
    exact within_pure ⟨rfl, hoff, .refl h hfb⟩
  | succ fuel ih =>
    intro d off p m hlen hfb hoff h hp
    unfold appendLoop
    by_cases hnil : p = []
    · subst hnil
      rw [if_pos rfl]
      exact within_pure ⟨rfl, hoff, .refl h hfb⟩
    rw [if_neg hnil]
    have hpos : 0 < p.length := List.length_pos_of_ne_nil hnil
    split
    · rename_i hbn
      -- what goes to this block, and what is left
      generalize hn : min p.length ((off / bsize + 1) * bsize - off) = n
      have hsplit : p.take n ++ p.drop n = p := List.take_append_drop n p
      have hn0 : 0 < n := by unfold bsize at hn; omega
      have hnle : n ≤ p.length := by omega
      have htake : (p.take n).length = n := by rw [List.length_take]; omega
      have hroom : (p.take n).length ≤ bsize - off % bsize := by
        rw [htake]
        unfold bsize at *
        omega
      have hmono := blockCount_mono (dataBlocks_mono (show off + n ≤ off + p.length by omega))
      refine ((appendRound_spec hlen hfb h (by omega) hroom hbn).weaken fun _ hbad => ?_).bind
        fun d' m' hd' => ?_
      · rw [htake] at hbad
        exact fun hgood => hbad (by have := hgood.2; omega)
      have hoff' : off + n ≤ maxfile * bsize := by
        unfold maxfile ndirect nindirect bsize at *
        omega
      have hgrow := hd'.growing
      have hcount := hd'.count
      rw [htake] at hgrow hcount
      have hdrop : off + n + (p.drop n).length = off + p.length := by
        rw [List.length_drop]
        omega
      refine ((ih d' (off + n) (p.drop n) m' (hd'.len.trans hlen) hd'.bound hoff' hgrow
        (by rw [List.length_drop]; omega)).weaken fun _ hbad => ?_).mono fun r m'' hr => ?_
      · rw [hdrop] at hbad
        refine fun hgood => hbad ⟨hgood.1, ?_⟩
        have := hgood.2
        omega
      · obtain ⟨hr2, hrmax, hrest⟩ := hr
        rw [hdrop] at hr2
        refine ⟨hr2, hrmax, ?_⟩
        rw [← hsplit]
        exact hd'.trans (by rw [htake]; exact hrest)
    · rename_i hbn
      refine within_throw fun hgood => hbn (div_bsize_lt ?_)
      have := hgood.1
      omega

end

end Xv6.Mkfs
