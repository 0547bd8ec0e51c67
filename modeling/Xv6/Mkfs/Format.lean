import Xv6.Mkfs.Build

/-!
# The finished image

At the end `mkfs` rounds the size of the root directory up to whole blocks and writes
the bitmap. The kernel then finds every file under its name and reads back its bytes.
If the entries of the root directory fill whole blocks, the rounding adds a block that
is not there, and the kernel's reads meet a hole.
-/

namespace Xv6.Mkfs

open Eff Fs Bag Function

/-- The root directory at the end. -/
def rounded (d : Dinode) : Dinode := { d with size := (d.size / bsize + 1) * bsize }

theorem rounded_type (d : Dinode) : (rounded d).type = d.type := rfl

theorem rounded_addrs (d : Dinode) : (rounded d).addrs = d.addrs := rfl

/-- The image after `balloc`. -/
def Image.withBitmap (m : Image) : Image where
  sect := update m.sect bmapstart (bitmapBlock m.freeblock)
  len := max m.len (bmapstart + 1)
  freeinode := m.freeinode
  freeblock := m.freeblock

/-- `m` is `u` after the last steps of `main`. -/
structure Finished (u m : Image) : Prop where
  freeinode : m.freeinode = u.freeinode
  freeblock : m.freeblock = u.freeblock
  super : m.sect 1 = superBlock
  bitmap : m.sect bmapstart = bitmapBlock u.freeblock
  data : ∀ b, nmeta ≤ b → m.sect b = u.sect b
  root : m.dinode rootino = rounded (u.dinode rootino)
  other : ∀ i < ninodes, i ≠ rootino → m.dinode i = u.dinode i

section

variable {m u : Image} {files : List HostFile} {i : ℕ}

/-! ## The whole run -/

theorem blank_sect {b : ℕ} (hb : b ≠ 1) : blank.sect b = fun _ => 0 := by
  simp [blank, hb]

theorem blank_dinode (i : ℕ) : blank.dinode i = Dinode.zero := by
  unfold Image.dinode
  rw [blank_sect (one_lt_iblock i).ne']
  have hshort : short 0 0 = 0 := by decide
  have huint : uint 0 0 0 0 = 0 := by decide
  have htype : ofTypeCode 0 = .none := rfl
  simp only [dinodeAt, hshort, huint, htype, ite_self]
  rfl

theorem blank_used : used ninodes blank.dinode blank.sect = 0 :=
  total_zero fun i _ => by rw [blank_dinode]; rfl

theorem blank_inv : Inv blank where
  len := rfl
  inode := by decide
  low := le_rfl
  bound := by decide
  super := by simp [blank]
  order := by
    rw [blank_used]
    refine ⟨Multiset.nodup_zero, fun b => ?_⟩
    have : blank.freeblock = nmeta := rfl
    simp only [Multiset.notMem_zero, false_iff]
    omega
  clean b hb := blank_sect (by
    have : nmeta = 47 := rfl
    have : nmeta ≤ b := hb
    omega)
  free i _ _ := blank_dinode i
  built i hi0 hi := by
    change i < 1 at hi
    omega
  count := by
    rw [total_zero fun i _ => by rw [blank_dinode]; rfl]
    rfl

theorem blockCount_dots : blockCount (dataBlocks 0) = 0 ∧ blockCount (dataBlocks direntSize) = 1 ∧
    blockCount (dataBlocks (direntSize + direntSize)) = 1 := by decide

theorem Holds.start {m₁ m₂ m₃ : Image} (ha : Alloced rootino .dir blank m₁)
    (h₂ : Wrote rootino (Dirent.bytes ⟨rootino, dot⟩) m₁ m₂)
    (h₃ : Wrote rootino (Dirent.bytes ⟨rootino, dotdot⟩) m₂ m₃) (hinv : Inv m₃) : Holds [] m₃ := by
  have hsize₁ : (m₁.dinode rootino).size = 0 := by rw [ha.self]; rfl
  obtain ⟨hnone, hone, htwo⟩ := blockCount_dots
  have hcount := h₂.count
  have hcount' := h₃.count
  rw [h₂.size, hsize₁, Fs.bytes_length, Fs.bytes_length, Nat.zero_add, hone, htwo] at hcount'
  rw [hsize₁, Fs.bytes_length, Nat.zero_add, hnone, hone, ha.freeblock] at hcount
  refine ⟨hinv, ?_, ?_, ?_, ?_, ?_, fun k f hk => ?_⟩
  · rw [h₃.freeinode, h₂.freeinode, ha.freeinode]
    rfl
  · have hneed : need [] = blank.freeblock + 1 := by decide
    omega
  · rw [h₃.type, h₂.type, ha.self]
    rfl
  · rw [h₃.size, h₂.size, hsize₁, Fs.bytes_length, Fs.bytes_length]
    rfl
  · rw [h₃.bytes, h₂.bytes, ha.self]
    rfl
  · cases hk

theorem Holds.root_lt (h : Holds files m) : rootino < m.freeinode := by
  rw [h.next]
  unfold rootino
  omega

theorem Holds.packs (h : Holds files m) (hn : files.length + 2 ≤ ninodes) :
    Packs (rounded (m.dinode rootino)) := by
  have hb := h.inv.built rootino (by decide) h.root_lt
  obtain ⟨hmajor, hminor, hnlink⟩ := hb.numbers
  obtain ⟨R, hR⟩ : ∃ R, Rest layout m.state.disk rootino R := exists_rest (by decide)
  unfold rounded
  refine ⟨by rw [hmajor]; decide, by rw [hminor]; decide, by rw [hnlink]; decide, ?_,
    (h.inv.growing (by decide) h.root_lt hR).packs h.inv.bound, hb.outside⟩
  dsimp only
  rw [h.rootSize]
  unfold direntSize bsize
  unfold ninodes at hn
  omega

theorem withBitmap_sect {b : ℕ} (hb : b ≠ bmapstart) : m.withBitmap.sect b = m.sect b :=
  update_of_ne hb _ _

theorem withBitmap_self : m.withBitmap.sect bmapstart = bitmapBlock m.freeblock := by
  simp [Image.withBitmap]

theorem Holds.finished (h : Holds files m) (hn : files.length + 2 ≤ ninodes) :
    Finished m (m.withInode rootino (rounded (m.dinode rootino))).withBitmap := by
  have hroot : iblock rootino = 33 := rfl
  have hmeta : nmeta = 47 := rfl
  have hbmap : bmapstart = 46 := rfl
  have hsect : ∀ b, b ≠ iblock rootino → b ≠ bmapstart →
      (m.withInode rootino (rounded (m.dinode rootino))).withBitmap.sect b = m.sect b := by
    intro b hb hb'
    rw [withBitmap_sect hb', withInode_sect hb]
  have hdinode : ∀ i < ninodes,
      (m.withInode rootino (rounded (m.dinode rootino))).withBitmap.dinode i =
        update m.dinode rootino (rounded (m.dinode rootino)) i := by
    intro i hi
    have hne : iblock i ≠ bmapstart := by
      rw [hbmap]
      unfold iblock ipb bsize
      unfold ninodes at hi
      have : inodestart = 33 := rfl
      omega
    rw [← withInode_dinode (h.packs hn)]
    unfold Image.dinode
    rw [withBitmap_sect hne]
  refine ⟨rfl, rfl, ?_, withBitmap_self, fun b hb => ?_, ?_, fun i hi hne => ?_⟩
  · rw [hsect 1 (by omega) (by omega)]
    exact h.inv.super
  · exact hsect b (by omega) (by omega)
  · rw [hdinode rootino (by decide), update_self]
  · rw [hdinode i hi, update_of_ne hne]

theorem main_spec (files : List HostFile) (hn : files.length + 2 ≤ ninodes) :
    Within (fun _ => ¬ Fits files) (main files) blank
      fun _ m => ∃ u, Holds files u ∧ Finished u m := by
  unfold main
  refine ((ialloc_spec blank_inv (by decide) (show FileType.dir ≠ .none by decide)).within).bind
    fun root m₁ hm₁ => ?_
  obtain ⟨rfl, hinv₁, halloc⟩ := hm₁
  rw [if_pos (show blank.freeinode = rootino from rfl)]
  rw [show blank.freeinode = rootino from rfl] at halloc ⊢
  have hsize₁ : (m₁.dinode rootino).size = 0 := by rw [halloc.self]; rfl
  refine ((iappend_spec hinv₁ (by decide) (by rw [halloc.freeinode]; decide) _).weaken
    fun _ hbad => absurd ?_ hbad).bind fun _ m₂ hm₂ => ?_
  · rw [hsize₁, Fs.bytes_length, Room, halloc.freeblock]
    decide
  obtain ⟨hinv₂, hwrote₂⟩ := hm₂
  refine ((iappend_spec hinv₂ (by decide) (by
    rw [hwrote₂.freeinode, halloc.freeinode]
    decide) _).weaken fun _ hbad => absurd ?_ hbad).bind fun _ m₃ hm₃ => ?_
  · have hcount := hwrote₂.count
    obtain ⟨hnone, hone, htwo⟩ := blockCount_dots
    rw [hsize₁, Fs.bytes_length, Nat.zero_add, hnone, hone, halloc.freeblock, Nat.add_zero]
      at hcount
    rw [hwrote₂.size, hsize₁, Fs.bytes_length, Fs.bytes_length, Nat.zero_add, Room, hone, htwo,
      hcount]
    decide
  obtain ⟨hinv₃, hwrote₃⟩ := hm₃
  refine (addFiles_spec files [] m₃ (Holds.start halloc hwrote₂ hwrote₃ hinv₃) hn).bind
    fun _ u hu => ?_
  rw [List.nil_append] at hu
  have hblock : iblock rootino < u.len := by
    rw [hu.inv.len]
    decide
  unfold fixRoot
  rw [bind_assoc]
  refine ((rinode_spec hblock).within).bind fun d u' hd => ?_
  obtain ⟨rfl, rfl⟩ := hd
  refine ((winode_spec hblock _).within).bind fun _ v hv => ?_
  subst hv
  apply within_get_bind
  have hbound := hu.inv.bound
  unfold balloc
  rw [if_pos (by change u'.freeblock < bpb; unfold fssize at hbound; unfold bpb bsize; omega)]
  apply within_modify
  exact ⟨u', hu, hu.finished hn⟩

theorem mkfs_ok (hn : files.length + 2 ≤ ninodes) (h : mkfs files = .ok m) :
    ∃ u, Holds files u ∧ Finished u m := by
  unfold mkfs at h
  split at h
  · rename_i v hmain
    cases h
    exact (main_spec files hn).of_ok hmain
  · cases h

theorem mkfs_completes (hn : files.length + 2 ≤ ninodes) (hfits : Fits files) :
    ∃ m, mkfs files = .ok m := by
  unfold mkfs
  split
  · exact ⟨_, rfl⟩
  · rename_i hmain
    exact absurd hfits ((main_spec files hn).of_error hmain)

/-! ## What the kernel finds -/

theorem Finished.type (h : Finished u m) (hi : i < ninodes) :
    (m.dinode i).type = (u.dinode i).type := by
  by_cases hroot : i = rootino
  · rw [hroot, h.root, rounded_type]
  · rw [h.other i hi hroot]

theorem Finished.addrs (h : Finished u m) (hi : i < ninodes) :
    (m.dinode i).addrs = (u.dinode i).addrs := by
  by_cases hroot : i = rootino
  · rw [hroot, h.root, rounded_addrs]
  · rw [h.other i hi hroot]

theorem Holds.indirect (hu : Holds files u) (hi : i < ninodes)
    (htype : (u.dinode i).type ≠ .none) (hne : (u.dinode i).addrs ndirect ≠ 0) :
    nmeta ≤ (u.dinode i).addrs ndirect := by
  have hmem : (u.dinode i).addrs ndirect ∈ used ninodes u.dinode u.sect := by
    unfold used
    rw [mem_total]
    refine ⟨i, hi, ?_⟩
    rw [Dinode.held, if_neg htype]
    exact indirect_mem hne
  exact ((hu.inv.order.mem _).mp hmem).1

theorem Finished.addr (h : Finished u m) (hu : Holds files u) (hi : i < ninodes)
    (htype : (u.dinode i).type ≠ .none) :
    (m.dinode i).addr m.sect = (u.dinode i).addr u.sect := by
  rw [← addr_congr fun hne => h.data _ (hu.indirect hi htype hne)]
  funext bn
  unfold Dinode.addr
  rw [h.addrs hi]

theorem Finished.used (h : Finished u m) (hu : Holds files u) :
    used ninodes m.dinode m.sect = used ninodes u.dinode u.sect := by
  refine total_congr fun i hi => ?_
  unfold Dinode.held
  rw [h.type hi]
  by_cases htype : (u.dinode i).type = .none
  · rw [if_pos htype, if_pos htype]
  · rw [if_neg htype, if_neg htype]
    unfold Dinode.blocks
    rw [h.addr hu hi htype, h.addrs hi]

/-- The kernel's view of an image. -/
abbrev Image.disk (m : Image) : Disk := Disk.ofImage layout m.sect

theorem disk_dinode (i : ℕ) : m.disk.dinode i = m.dinode i := rfl

theorem disk_block : m.disk.block = m.sect := rfl

theorem Finished.bitmap_iff (h : Finished u m) {b : ℕ} (hb : b < bpb) :
    m.disk.bitmap b = true ↔ b < m.freeblock := by
  have hsect : m.sect (bblock layout b) = bitmapBlock u.freeblock := by
    rw [← h.bitmap]
    unfold bblock
    rw [Nat.div_eq_of_lt hb, Nat.zero_add]
    rfl
  rw [h.freeblock, ← bitmapBlock_bit]
  change decide (m.sect (bblock layout b) (b % bpb / 8) &&&
    (1 <<< UInt8.ofNat (b % bpb % 8)) ≠ 0) = true ↔ _
  rw [hsect, Nat.mod_eq_of_lt hb, decide_eq_true_iff]

theorem Finished.ledger (h : Finished u m) (hu : Holds files u) :
    Ledger layout m.disk.bitmap (Fs.used layout.ninodes m.disk.dinode m.disk.block) := by
  have hused : Fs.used layout.ninodes m.disk.dinode m.disk.block =
      Fs.used ninodes u.dinode u.sect := h.used hu
  have hbound := hu.inv.bound
  have hlow := hu.inv.low
  rw [hused]
  refine ⟨hu.inv.order.nodup, fun b hb => ?_, fun b hb => ?_⟩
  · have hmem := (hu.inv.order.mem b).mp hb
    exact ⟨hmem.1, lt_of_lt_of_le hmem.2 hbound⟩
  · rw [h.bitmap_iff (lt_of_lt_of_le hb (by decide)), h.freeblock, hu.inv.order.mem b]
    change b < u.freeblock ↔ b < nmeta ∨ _
    omega

theorem Holds.live (hu : Holds files u) (hi : i < ninodes) (htype : (u.dinode i).type ≠ .none) :
    0 < i ∧ i < u.freeinode := by
  by_contra hout
  have hzero := hu.inv.free i hi (by omega)
  rw [hzero] at htype
  exact htype rfl

theorem Finished.full (h : Finished u m) (hu : Holds files u) (hi : i < ninodes)
    (htype : (m.dinode i).type ≠ .none)
    (hsize : dataBlocks (m.dinode i).size = dataBlocks (u.dinode i).size) :
    (m.dinode i).Full m.sect := by
  rw [h.type hi] at htype
  obtain ⟨hi0, hlt⟩ := hu.live hi htype
  have hb := hu.inv.built i hi0 hlt
  have hmax : dataBlocks (m.dinode i).size ≤ maxfile := by
    rw [hsize]
    exact dataBlocks_le hb.size_le
  refine ⟨?_, fun bn hbn => ?_⟩
  · exact le_trans (le_dataBlocks _) (Nat.mul_le_mul_right _ hmax)
  · have hlt : bn < dataBlocks (m.dinode i).size := by
      unfold dataBlocks bsize at *
      omega
    rw [h.addr hu hi htype]
    rw [hsize] at hlt hmax
    exact (hb.addr bn (by omega)).mpr hlt

theorem Finished.block (h : Finished u m) (hu : Holds files u) (hi : i < ninodes)
    (htype : (u.dinode i).type ≠ .none) {bn : ℕ} (hbn : bn < dataBlocks (u.dinode i).size) :
    (m.dinode i).addr m.sect bn ≠ 0 ∧
      m.sect ((m.dinode i).addr m.sect bn) = u.sect ((u.dinode i).addr u.sect bn) := by
  obtain ⟨hi0, hlt⟩ := hu.live hi htype
  have hb := hu.inv.built i hi0 hlt
  have hmax : bn < maxfile := lt_of_lt_of_le hbn (dataBlocks_le hb.size_le)
  have hne := (hb.addr bn hmax).mpr hbn
  have hmem : (u.dinode i).addr u.sect bn ∈ Fs.used ninodes u.dinode u.sect := by
    unfold Fs.used
    rw [mem_total]
    refine ⟨i, hi, ?_⟩
    rw [Dinode.held, if_neg htype]
    exact addr_mem hmax hne
  rw [h.addr hu hi htype]
  exact ⟨hne, h.data _ ((hu.inv.order.mem _).mp hmem).1⟩

theorem Finished.root_size (h : Finished u m) (hu : Holds files u) :
    (m.dinode rootino).size = ((files.length + 2) * direntSize / bsize + 1) * bsize := by
  rw [h.root, rounded, hu.rootSize]

theorem ilock_load {s : State} {k : ℕ} (href : 0 < (s.itable k).ref)
    (hv : (s.itable k).valid = false) (h : (s.disk.dinode (s.itable k).inum).type ≠ .none) :
    Ensures (ilock k) s fun _ t => t = s.setInode k fun e =>
      { e with copy := s.disk.dinode (s.itable k).inum, valid := true } := by
  unfold ilock
  apply ensures_get_bind
  rw [if_neg (by omega), if_neg (by rw [hv]; decide)]
  apply ensures_modify_bind
  rw [if_neg h]
  exact ensures_pure rfl

theorem ilock_root {s : State} (hs : mount m.disk = s) (h : (m.dinode rootino).type ≠ .none) :
    Ensures (ilock 0) s fun _ t => t.disk = m.disk ∧ t.log.outstanding = false ∧
      t.itable 0 = ⟨rootino, 1, true, m.dinode rootino⟩ ∧ ∀ k ≠ 0, (t.itable k).ref = 0 := by
  rw [← hs]
  refine (ilock_load (s := mount m.disk) (k := 0) (show (0 : ℤ) < 1 by decide) rfl h).mono
    fun _ t ht => ?_
  rw [ht]
  refine ⟨rfl, rfl, rfl, fun k hk => ?_⟩
  simp [mount, hk]

theorem exists_image (files : List HostFile) (P : Image → Prop) [DecidablePred P]
    (h : (mkfs files).toOption.any (P ·) = true) : ∃ m, mkfs files = .ok m ∧ P m := by
  cases hm : mkfs files with
  | error e =>
    rw [hm] at h
    cases h
  | ok m =>
    rw [hm] at h
    exact ⟨m, rfl, of_decide_eq_true h⟩

theorem slice_flatMap {es : List Dirent} {j : ℕ} {e : Dirent} (h : es[j]? = some e) :
    ((es.flatMap Dirent.bytes).drop (j * direntSize)).take direntSize = e.bytes := by
  induction es generalizing j with
  | nil => cases h
  | cons e' es ih =>
    cases j with
    | zero =>
      obtain rfl : e' = e := Option.some.inj h
      rw [List.flatMap_cons, Nat.zero_mul, List.drop_zero,
        List.take_left' (Fs.bytes_length e')]
    | succ j =>
      rw [List.flatMap_cons, Nat.succ_mul, Nat.add_comm, ← List.drop_drop,
        List.drop_left' (Fs.bytes_length e')]
      exact ih h

theorem direntAt_bytes (d : Dinode) (B : ℕ → Block) {j : ℕ}
    (h : j * direntSize + direntSize ≤ d.size) : direntAt d B j =
      Dirent.ofBytes (((d.bytes B).drop (j * direntSize)).take direntSize) := by
  have htake := bytes_take d B (dirent_room j) h
  have hlen : ((d.bytes B).take (j * direntSize)).length = j * direntSize := by
    rw [List.length_take, bytes_size]
    omega
  have hdrop := congrArg (List.drop (j * direntSize)) htake
  rw [List.drop_left' hlen, List.drop_take, Nat.add_sub_cancel_left] at hdrop
  rw [hdrop]
  rfl

theorem shortname_ok {f : HostFile} (h : f.shortname.length ≤ dirsiz) : Name.Ok f.shortname := by
  have hstrip : f.stripped ⊆ f.argv := by
    unfold HostFile.stripped
    split
    · exact List.drop_subset _ _
    · exact List.Subset.refl _
  have hshort : f.shortname ⊆ f.stripped := by
    unfold HostFile.shortname
    split
    · rename_i heq
      rw [heq]
      exact List.subset_cons_self _ _
    · exact List.Subset.refl _
  exact ⟨h, fun hzero => f.argv_ne (hstrip (hshort hzero))⟩

theorem rootEntries_file {k : ℕ} {f : HostFile} (h : files[k]? = some f) :
    (rootEntries files)[k + 2]? = some ⟨k + 2, f.shortname⟩ := by
  unfold rootEntries
  simp [h]

theorem Finished.direntAt (h : Finished u m) (hu : Holds files u) {j : ℕ} {e : Dirent}
    (he : (rootEntries files)[j]? = some e) (hname : Name.Ok e.name) (hinum : e.inum < 2 ^ 16) :
    Fs.direntAt (m.dinode rootino) m.sect j = e := by
  have hj : j < files.length + 2 := by
    have hlen : (rootEntries files).length = files.length + 2 := by simp [rootEntries]
    exact hlen ▸ (List.getElem?_eq_some_iff.mp he).1
  have hsize : j * direntSize + direntSize ≤ (u.dinode rootino).size := by
    rw [hu.rootSize, ← Nat.succ_mul]
    exact Nat.mul_le_mul_right _ hj
  have hpos : 0 < direntSize := by decide
  have hsame : Fs.direntAt (m.dinode rootino) m.sect j =
      Fs.direntAt (u.dinode rootino) u.sect j := by
    unfold Fs.direntAt
    rw [(h.block hu (by decide) (by rw [hu.root]; decide) (lt_dataBlocks (by omega))).2]
  rw [hsame, direntAt_bytes _ _ hsize, hu.rootBytes, slice_flatMap he, ofBytes_bytes hinum hname]

theorem Finished.file (h : Finished u m) (hu : Holds files u) (hn : files.length + 2 ≤ ninodes)
    {k : ℕ} {f : HostFile} (hk : files[k]? = some f) :
    (m.dinode (k + 2)).type ≠ .none ∧ (m.dinode (k + 2)).size = f.content.length ∧
      (m.dinode (k + 2)).Full m.sect ∧ (m.dinode (k + 2)).bytes m.sect = f.content := by
  have hlt := (List.getElem?_eq_some_iff.mp hk).1
  have hi : k + 2 < ninodes := by omega
  have hsame := h.other (k + 2) hi (by unfold rootino; omega)
  obtain ⟨htype, hsize, hbytes⟩ := hu.file k f hk
  have hne : (u.dinode (k + 2)).type ≠ .none := by
    rw [htype]
    decide
  have hne' := hne
  rw [← hsame] at hne'
  refine ⟨hne', by rw [hsame, hsize], h.full hu hi hne' (by rw [hsame]), ?_⟩
  rw [← hbytes]
  exact bytes_congr (by rw [hsame]) fun o ho => (h.block hu hi hne (lt_dataBlocks ho)).2

/-- Look the name up in the root directory and read the file from its start to its end:
what `readi` returns, and the size. -/
def readFile (sb : Superblock) (name : Name) : Fs.M (Option ((ℤ × List UInt8) × ℕ)) := do
  ilock 0
  let r ← dirlookup sb 0 name
  match r with
  | some (ip, _) => do
    ilock ip
    let s ← get
    let r ← readi sb ip (fun _ => true) 0 (s.copy ip).size
    pure (some (r, (s.copy ip).size))
  | none => pure none

theorem iget_new {s : State} (hother : ∀ k, 0 < (s.itable k).ref → (s.itable k).inum ≠ i)
    (hfree : ∃ k < ninode, (s.itable k).ref = 0) :
    Ensures (iget i) s fun k t => (s.itable k).ref = 0 ∧
      t = s.setInode k fun e => { e with inum := i, ref := 1, valid := false } := by
  have hnone : (List.range ninode).find? (fun k => decide (0 < (s.itable k).ref) &&
      (s.itable k).inum == i) = none := by
    rw [List.find?_eq_none]
    intro k _ hk
    simp only [Bool.and_eq_true, decide_eq_true_eq, beq_iff_eq] at hk
    exact hother k hk.1 hk.2
  unfold iget
  apply ensures_get_bind
  rw [hnone]
  dsimp only
  split
  · rename_i k hk
    apply ensures_modify_bind
    exact ensures_pure ⟨by simpa using List.find?_some hk, rfl⟩
  · rename_i hk
    obtain ⟨k, hlt, href⟩ := hfree
    have := List.find?_eq_none.mp hk k (List.mem_range.mpr hlt)
    simp [href] at this

theorem rootEntries_ok (hn : files.length + 2 ≤ ninodes)
    (hnames : ∀ f ∈ files, f.shortname.length ≤ dirsiz) {e : Dirent} (he : e ∈ rootEntries files) :
    Name.Ok e.name ∧ 0 < e.inum ∧ e.inum < 2 ^ 16 := by
  unfold rootEntries at he
  rcases List.mem_cons.mp he with rfl | he
  · exact ⟨by unfold Name.Ok; decide, by decide, by decide⟩
  rcases List.mem_cons.mp he with rfl | he
  · exact ⟨by unfold Name.Ok; decide, by decide, by decide⟩
  · obtain ⟨k, hk, rfl⟩ := List.mem_mapIdx.mp he
    unfold ninodes at hn
    exact ⟨shortname_ok (hnames _ (List.getElem_mem hk)), by dsimp only; omega,
      by dsimp only; omega⟩

theorem scan_root (h : Finished u m) (hu : Holds files u) (hn : files.length + 2 ≤ ninodes)
    (hnames : ∀ f ∈ files, f.shortname.length ≤ dirsiz) {s : State} (hdisk : s.disk = m.disk)
    (hcopy : s.copy 0 = m.dinode rootino) {j : ℕ} {e : Dirent}
    (he : (rootEntries files)[j]? = some e)
    (hfirst : ∀ j' < j, ∀ e', (rootEntries files)[j']? = some e' → e'.name ≠ e.name) :
    Ensures (scan layout 0 "dirlookup read" (fun de => de.inum ≠ 0 && de.name = e.name)
      (s.fuel 0) 0) s fun r t => r = (j * direntSize, some e) ∧ t = s := by
  have hsize := h.root_size hu
  have hlen : (rootEntries files).length = files.length + 2 := by simp [rootEntries]
  have hj : j < files.length + 2 := by
    rw [← hlen]
    exact (List.getElem?_eq_some_iff.mp he).1
  have hent : ∀ j' e', (rootEntries files)[j']? = some e' →
      direntAt (s.copy 0) s.disk.block j' = e' := by
    intro j' e' he'
    obtain ⟨hok, -, hinum⟩ := rootEntries_ok hn hnames (List.mem_of_getElem? he')
    rw [hcopy, hdisk]
    exact h.direntAt hu he' hok hinum
  have hpos := (rootEntries_ok hn hnames (List.mem_of_getElem? he)).2.1
  have hend : j * direntSize + direntSize ≤ (files.length + 2) * direntSize := by
    rw [← Nat.succ_mul]
    exact Nat.mul_le_mul_right _ hj
  have hroom : j * direntSize + direntSize ≤ (s.copy 0).size := by
    rw [hcopy, hsize]
    unfold bsize
    omega
  have hscan := scan_first (k := 0) layout (s := s) ?_ "dirlookup read"
    (fun de => decide (de.inum ≠ 0) && decide (de.name = e.name)) hroom ?_ ?_ ?_ (s.fuel 0) 0
    (Nat.zero_le j) ?_
  · rw [hent j e he, Nat.zero_mul] at hscan
    exact hscan
  · rw [hcopy, hsize]
    unfold maxfile ndirect nindirect direntSize bsize
    unfold ninodes at hn
    omega
  · intro j' hj'
    have hlt : j' * direntSize < (u.dinode rootino).size := by
      rw [hu.rootSize]
      unfold direntSize
      omega
    rw [hcopy, hdisk]
    exact (h.block hu (by decide) (by rw [hu.root]; decide) (lt_dataBlocks hlt)).1
  · rw [hent j e he]
    simp [hpos.ne']
  · intro j' hj'
    obtain ⟨e', he'⟩ : ∃ e', (rootEntries files)[j']? = some e' :=
      ⟨_, List.getElem?_eq_getElem (by omega)⟩
    rw [hent j' e' he']
    simp [hfirst j' hj' e' he']
  · have := fuel_enough s 0 0
    unfold direntSize at *
    omega

theorem rootEntries_before (hdistinct : (files.map HostFile.shortname).Nodup)
    (hdots : ∀ f ∈ files, f.shortname ≠ dot ∧ f.shortname ≠ dotdot) {j k : ℕ} {f : HostFile}
    (hk : files[k]? = some f) (hj : j < k + 2) {e : Dirent}
    (he : (rootEntries files)[j]? = some e) : e.name ≠ f.shortname := by
  have hnames := hdots f (List.mem_of_getElem? hk)
  match j with
  | 0 =>
    obtain rfl : _ = e := Option.some.inj he
    exact hnames.1.symm
  | 1 =>
    obtain rfl : _ = e := Option.some.inj he
    exact hnames.2.symm
  | j + 2 =>
    obtain ⟨hjlt, -⟩ := List.getElem?_eq_some_iff.mp he
    have hjlen : j < files.length := by simpa [rootEntries] using hjlt
    have hg := List.getElem?_eq_getElem hjlen
    rw [rootEntries_file hg] at he
    obtain rfl : _ = e := Option.some.inj he
    have hne := List.nodup_iff_getElem?_ne_getElem?.mp hdistinct j k (by omega) (by
      rw [List.length_map]
      exact (List.getElem?_eq_some_iff.mp hk).1)
    rw [List.getElem?_map, List.getElem?_map, hg, hk] at hne
    intro hsame
    exact hne (congrArg some hsame)

theorem readFile_spec (h : Finished u m) (hu : Holds files u) (hn : files.length + 2 ≤ ninodes)
    (hnames : ∀ f ∈ files, f.shortname.length ≤ dirsiz)
    (hdistinct : (files.map HostFile.shortname).Nodup)
    (hdots : ∀ f ∈ files, f.shortname ≠ dot ∧ f.shortname ≠ dotdot) {f : HostFile}
    (hf : f ∈ files) {s : State} (hs : mount m.disk = s) :
    Ensures (readFile layout f.shortname) s fun r _ =>
      r = some (((f.content.length : ℤ), f.content), f.content.length) := by
  obtain ⟨k, hk⟩ := List.mem_iff_getElem?.mp hf
  have hklt := (List.getElem?_eq_some_iff.mp hk).1
  have hroot : (m.dinode rootino).type ≠ .none := by
    rw [h.type (by decide), hu.root]
    decide
  have hdir : (m.dinode rootino).type = .dir := by
    rw [h.type (by decide), hu.root]
  obtain ⟨htype, hsize, hfull, hbytes⟩ := h.file hu hn hk
  have he := rootEntries_file hk
  unfold readFile
  refine (ilock_root hs hroot).bind fun _ t ht => ?_
  obtain ⟨hdisk, -, hslot, hrefs⟩ := ht
  have hcopy : t.copy 0 = m.dinode rootino := by rw [State.copy, hslot]
  unfold dirlookup
  rw [bind_assoc]
  apply ensures_get_bind
  rw [if_neg (by rw [hcopy, hdir]; decide), bind_assoc]
  refine (scan_root h hu hn hnames hdisk hcopy he fun j hj e he' => ?_).bind fun r t' ht' => ?_
  · exact rootEntries_before hdistinct hdots hk hj he'
  obtain ⟨rfl, rfl⟩ := ht'
  dsimp only
  rw [bind_assoc]
  refine (iget_new (i := k + 2) (fun l hl => ?_) ⟨1, by decide, hrefs 1 (by decide)⟩).bind
    fun ip v hv => ?_
  · by_contra hsame
    by_cases hl0 : l = 0
    · rw [hl0, hslot] at hsame
      dsimp only [rootino] at hsame
      omega
    · rw [hrefs l hl0] at hl
      exact absurd hl (lt_irrefl 0)
  obtain ⟨-, rfl⟩ := hv
  rw [pure_bind]
  dsimp only
  refine (ilock_load (by simp) (by simp) ?_).bind fun _ w hw => ?_
  · simpa [hdisk, disk_dinode] using htype
  apply ensures_get_bind
  have hwcopy : w.copy ip = m.dinode (k + 2) := by
    rw [hw]
    simp [State.copy, hdisk, disk_dinode]
  have hwdisk : w.disk = m.disk := by
    rw [hw]
    exact hdisk
  have hread := readi_bytes layout (s := w) (k := ip) (by rw [hwcopy, hwdisk]; exact hfull)
  refine hread.bind fun r w' hr => ?_
  obtain ⟨rfl, rfl⟩ := hr
  apply ensures_pure
  rw [hwcopy, hwdisk, hsize, disk_block, hbytes]

/-- The superblock on disk is the one the kernel's layout stands for. -/
def Image.Labelled (m : Image) : Prop :=
  entry (m.sect 1) 0 = fsmagic ∧ entry (m.sect 1) 1 = layout.size ∧
    entry (m.sect 1) 3 = layout.ninodes ∧ entry (m.sect 1) 6 = layout.inodestart ∧
    entry (m.sect 1) 7 = layout.bmapstart

theorem Finished.labelled (h : Finished u m) : m.Labelled := by
  unfold Image.Labelled
  rw [h.super]
  decide +kernel

/-- Files with distinct names other than `.` and `..` that fit in the image can be read
back by the kernel under their names. -/
theorem mkfs_readable (files : List HostFile) (hfits : Fits files)
    (hcount : files.length < ninodes - 1) (hdistinct : (files.map HostFile.shortname).Nodup)
    (hdots : ∀ f ∈ files, f.shortname ≠ dot ∧ f.shortname ≠ dotdot) :
    ∃ m, mkfs files = .ok m ∧ m.Labelled ∧ ∀ f ∈ files, ∃ t,
      readFile layout f.shortname (mount m.disk) =
        .ok (some (((f.content.length : ℤ), f.content), f.content.length), t) := by
  have hn : files.length + 2 ≤ ninodes := by
    unfold ninodes at *
    omega
  obtain ⟨m, hm⟩ := mkfs_completes hn hfits
  obtain ⟨u, hu, h⟩ := mkfs_ok hn hm
  refine ⟨m, hm, h.labelled, fun f hf => ?_⟩
  generalize hs : mount m.disk = s
  obtain ⟨r, t, hrun, rfl⟩ := readFile_spec h hu hn hfits.name hdistinct hdots hf hs
  exact ⟨t, hrun⟩

/-- A file with one byte. -/
def small (argv : List UInt8) (h : 0 ∉ argv) : HostFile where
  argv := argv
  chunks := [[7]]
  argv_ne := h
  chunks_len := by decide

theorem mkfs_readable_small : ∃ m, mkfs [small [99, 97, 116] (by decide)] = .ok m ∧
    m.Labelled ∧ ∀ f ∈ [small [99, 97, 116] (by decide)], ∃ t,
      readFile layout f.shortname (mount m.disk) =
        .ok (some (((f.content.length : ℤ), f.content), f.content.length), t) :=
  mkfs_readable _ ⟨by decide, by decide, by decide, by decide⟩ (by decide) (by decide) (by decide)

/-- A file named `.` cannot be read back: the kernel finds the root directory. -/
theorem dot_file_hidden : Fits [small [95, 46] (by decide)] ∧
    (small [95, 46] (by decide)).content.length = 1 ∧
    ∃ m r t, mkfs [small [95, 46] (by decide)] = .ok m ∧
      readFile layout (small [95, 46] (by decide)).shortname (mount m.disk) =
        .ok (some (r, bsize), t) := by
  obtain ⟨m, hm, r, t, hread, hlen⟩ := exists_image [small [95, 46] (by decide)]
    (fun m => Ensures (readFile layout dot) (mount m.disk) fun r _ => r.map Prod.snd = some bsize)
    (by decide +kernel)
  obtain ⟨⟨x, -⟩, rfl, rfl⟩ := Option.map_eq_some_iff.mp hlen
  exact ⟨⟨by decide, by decide, by decide, by decide⟩, rfl, m, x, t, hm, hread⟩

end

end Xv6.Mkfs
