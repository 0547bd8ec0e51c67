import Xv6.Exec.Arguments
import Xv6.Fs.Contents

/-!
# The image of a program

For an ELF file whose headers and segments lie within it, with the segments in increasing
order on different pages, the program that `kexec` starts is the one in the file: the
bytes of the segments, zeros everywhere else below the stack, and the permissions that the
flags of the segments say.
-/

namespace Xv6.Exec

open Eff Bag Vm

/-- Program header `k` of a file. -/
def phdr (data : List UInt8) (k : ℕ) : Proghdr :=
  Proghdr.ofBytes ((data.drop ((elfOf data).phoff + k * Proghdr.size)).take Proghdr.size)

/-- The segments that a file asks to be loaded. -/
def ptLoads (data : List UInt8) : List Proghdr :=
  ((List.range (elfOf data).phnum).map (phdr data)).filter fun ph => ph.type = elfProgLoad

/-- A file that holds what its headers say, with segments in order. -/
structure ElfFile (data : List UInt8) : Prop where
  size : data.length < 2 ^ 32
  headers : ∀ k < (elfOf data).phnum,
    (elfOf data).phoff + k * Proghdr.size + Proghdr.size ≤ data.length
  contents : ∀ ph ∈ ptLoads data, ph.off + ph.filesz ≤ data.length
  ordered : (ptLoads data).Pairwise fun p q => pgroundup (p.vaddr + p.memsz) ≤ q.vaddr

section

variable {data : List UInt8} {n off : ℕ}

theorem readi_within {len : ℕ} (hsize : data.length < 2 ^ 32) (h : off + len ≤ data.length) :
    readi data (off % 2 ^ 32) len = (data.drop off).take len := by
  have hoff : off % 2 ^ 32 = off := Nat.mod_eq_of_lt (by omega)
  rw [readi, hoff, if_neg, if_neg (by omega)]
  rw [Nat.mod_eq_of_lt (by omega)]
  omega

theorem loads_eq (hsize : data.length < 2 ^ 32)
    (h : ∀ k < n, off + k * Proghdr.size + Proghdr.size ≤ data.length) :
    loads data n off = ((List.range n).map fun k => Proghdr.ofBytes
      ((data.drop (off + k * Proghdr.size)).take Proghdr.size)).filter
        fun ph => ph.type = elfProgLoad := by
  induction n generalizing off with
  | zero => rfl
  | succ n ih =>
    have hfirst : headerAt data off =
        Proghdr.ofBytes ((data.drop (off + 0 * Proghdr.size)).take Proghdr.size) := by
      rw [headerAt, readi_within hsize (by have := h 0 (by omega); omega), Nat.zero_mul, add_zero]
    have hrest : ∀ k, off + Proghdr.size + k * Proghdr.size = off + (k + 1) * Proghdr.size := by
      intro k
      ring
    rw [loads, List.range_succ_eq_map, List.map_cons, List.map_map, List.filter_cons, hfirst,
      ih fun k hk => by rw [hrest]; exact h (k + 1) (by omega)]
    simp only [hrest, Function.comp_def, decide_eq_true_eq]

theorem ElfFile.segments_eq (h : ElfFile data) : segments data = ptLoads data :=
  loads_eq h.size h.headers

end

/-- The bytes that `kexec` gets are those of the inode, if all its blocks are allocated. -/
theorem readi_refines (sb : Fs.Superblock) {s : Fs.State} {k off n : ℕ}
    (h : (s.copy k).Full s.disk.block) (hoff : off < 2 ^ 32) (hn : n < 2 ^ 32) :
    Ensures (Fs.readi sb k (fun _ => true) off n) s fun r s' => s' = s ∧
      r.2 = readi ((s.copy k).bytes s.disk.block) off n ∧
      r.1 = (readi ((s.copy k).bytes s.disk.block) off n).length := by
  by_cases hout : (s.copy k).size < off ∨ (off + n) % 2 ^ 32 < off
  · unfold Fs.readi
    refine ensures_get_bind ?_
    rw [if_pos hout, readi, Fs.bytes_size, if_pos hout]
    exact ensures_pure ⟨rfl, rfl, rfl⟩
  · refine (Fs.readi_slice sb h (by omega) (by omega)).mono ?_
    rintro _ s' ⟨rfl, rfl⟩
    have hread : readi ((s'.copy k).bytes s'.disk.block) off n =
        (((s'.copy k).bytes s'.disk.block).drop off).take n := by
      rw [readi, Fs.bytes_size, if_neg hout]
      split_ifs with hlong
      · rw [List.take_of_length_le (by simp [Fs.bytes_size]),
          List.take_of_length_le (by simp [Fs.bytes_size]; omega)]
      · rfl
    refine ⟨rfl, hread.symm, ?_⟩
    rw [hread, List.length_take, List.length_drop, Fs.bytes_size]
    simp only [Nat.cast_inj]
    omega

/-! ## The image of segments in order -/

section

variable {data : List UInt8} {l : List Proghdr} {g : Image} {ph : Proghdr}

/-- The image of the segments `l`. -/
structure Holds (data : List UInt8) (l : List Proghdr) (g : Image) : Prop where
  le : ∀ p ∈ l, p.vaddr + p.memsz ≤ g.sz
  sz : g.sz = 0 ∨ ∃ p ∈ l, g.sz = p.vaddr + p.memsz
  file : ∀ p ∈ l, ∀ j < p.filesz, g.byte (p.vaddr + j) = (data.getD (p.off + j) 0).toNat
  bss : ∀ p ∈ l, ∀ j, p.filesz ≤ j → j < p.memsz → g.byte (p.vaddr + j) = 0
  zero : ∀ a, (∀ p ∈ l, ¬ (p.vaddr ≤ a ∧ a < p.vaddr + p.filesz)) → g.byte a = 0
  perm : ∀ p ∈ l, ∀ v, p.vaddr / pgsize ≤ v → v < npages (p.vaddr + p.memsz) → g.perm v = p.perm
  user : ∀ v < npages g.sz, (g.perm v).u = true

theorem segByte_eq {offset j : ℕ} (h : offset + j < 2 ^ 32) :
    segByte data offset j = (data.getD (offset + j) 0).toNat := by
  have hmod := Nat.div_add_mod' j pgsize
  rw [segByte, Nat.mod_eq_of_lt (by omega), add_assoc, hmod]

theorem Holds.segment (h : Holds data l g) (hsize : data.length < 2 ^ 32) (hv : ph.Valid)
    (hin : ph.off + ph.filesz ≤ data.length)
    (hord : ∀ p ∈ l, pgroundup (p.vaddr + p.memsz) ≤ ph.vaddr)
    (hfile : ∀ p ∈ l, p.filesz ≤ p.memsz) : Holds data (l ++ [ph]) (g.segment data ph) := by
  have hpos : 0 < pgsize := by simp [pgsize]
  have hoff : ph.off % 2 ^ 32 = ph.off := Nat.mod_eq_of_lt (by omega)
  have hfsz : ph.filesz % 2 ^ 32 = ph.filesz := Nat.mod_eq_of_lt (by omega)
  have hend : ∀ p ∈ l, p.vaddr + p.memsz ≤ ph.vaddr := fun p hp =>
    (le_npages_mul _).trans (hord p hp)
  have hlow : npages g.sz * pgsize ≤ ph.vaddr := by
    rcases h.sz with hz | ⟨p, hp, hz⟩
    · simp [hz, npages, pgsize]
    · rw [hz]
      exact hord p hp
  have hbyte : ∀ a, (g.segment data ph).byte a = if ph.vaddr ≤ a ∧ a < ph.vaddr + ph.filesz
      then segByte data ph.off (a - ph.vaddr) else g.byte a := by
    intro a
    simp only [Image.segment, Image.fill, Image.grow, hoff, hfsz]
  have hpermeq : ∀ v, (g.segment data ph).perm v =
      if npages g.sz ≤ v then ph.perm else g.perm v := fun v => rfl
  have hszeq : (g.segment data ph).sz = max g.sz (ph.vaddr + ph.memsz) := rfl
  constructor
  case le =>
    intro p hp
    rw [hszeq]
    rcases List.mem_append.mp hp with hp | hp
    · exact (h.le p hp).trans (le_max_left _ _)
    · obtain rfl := List.mem_singleton.mp hp
      exact le_max_right _ _
  case sz =>
    right
    refine ⟨ph, by simp, ?_⟩
    rw [hszeq]
    have := le_npages_mul g.sz
    omega
  case file =>
    intro p hp j hj
    rw [hbyte]
    rcases List.mem_append.mp hp with hp | hp
    · have := hend p hp
      have := hfile p hp
      rw [if_neg (by omega), h.file p hp j hj]
    · obtain rfl := List.mem_singleton.mp hp
      rw [if_pos (by omega), Nat.add_sub_cancel_left, segByte_eq (by omega)]
  case bss =>
    intro p hp j hlo hhi
    rw [hbyte]
    rcases List.mem_append.mp hp with hp | hp
    · have := hend p hp
      rw [if_neg (by omega), h.bss p hp j hlo hhi]
    · obtain rfl := List.mem_singleton.mp hp
      rw [if_neg (by omega)]
      refine h.zero _ fun q hq => ?_
      have := hend q hq
      have := hfile q hq
      omega
  case zero =>
    intro a ha
    rw [hbyte, if_neg (ha ph (by simp))]
    exact h.zero a fun p hp => ha p (by simp [hp])
  case perm =>
    intro p hp v hlo hhi
    rw [hpermeq]
    rcases List.mem_append.mp hp with hp | hp
    · rw [if_neg (not_le.mpr (hhi.trans_le (npages_mono (h.le p hp)))), h.perm p hp v hlo hhi]
    · obtain rfl := List.mem_singleton.mp hp
      refine if_pos (le_trans ?_ hlo)
      exact (Nat.le_div_iff_mul_le hpos).mpr hlow
  case user =>
    intro v _
    rw [hpermeq]
    split_ifs with hold
    · rfl
    · exact h.user v (not_le.mp hold)

theorem holds_foldl (hsize : data.length < 2 ^ 32) (hv : ∀ p ∈ l, p.Valid)
    (hin : ∀ p ∈ l, p.off + p.filesz ≤ data.length)
    (hord : l.Pairwise fun p q => pgroundup (p.vaddr + p.memsz) ≤ q.vaddr) :
    Holds data l (l.foldl (Image.segment data) .empty) := by
  induction l using List.reverseRecOn with
  | nil =>
    refine ⟨by simp, .inl rfl, by simp, by simp, fun _ _ => rfl, by simp, ?_⟩
    simp [Image.empty, npages, pgsize]
  | append_singleton l ph ih =>
    rw [List.pairwise_append] at hord
    rw [List.foldl_append, List.foldl_cons, List.foldl_nil]
    refine (ih (fun p hp => hv p (by simp [hp])) (fun p hp => hin p (by simp [hp])) hord.1).segment
      hsize (hv ph (by simp)) (hin ph (by simp)) (fun p hp => hord.2.2 p hp ph (by simp)) ?_
    exact fun p hp => (hv p (by simp [hp])).filesz

end

/-! ## The program that runs -/

section

variable {st t : State} {i r tf rc entry a : ℕ} {path data : List UInt8} {g : Image}
  {argv : List Str} {m0 m : Mem}

theorem within_mem_bind {α β : Type} {E : String → Prop} {f : M α} {c : α → EM β}
    {P : α → Mem → Prop} {Q : β → State → Prop} (h : Within E f st.kernel.mem P)
    (hc : ∀ x m, P x m →
      Within E (c x) { st with kernel := { st.kernel with mem := m } } Q) :
    Within E (onKernel (onMem f) >>= c) st Q := by
  have hrun : (onKernel (onMem f) >>= c) st = onKernel (onMem f) st >>= fun x => c x.1 x.2 := rfl
  unfold Within at h ⊢
  rw [hrun, onKernel, onMem]
  split at h
  · rename_i x m hf
    rw [hf]
    exact hc x m h
  · rename_i e hf
    rw [hf]
    exact h

theorem within_deref {β : Type} {E : String → Prop} {p : Option ℕ} {x : ℕ} {c : ℕ → EM β}
    {Q : β → State → Prop} (hp : p = some x) (hc : Within E (c x) st Q) :
    Within E (onKernel (deref p) >>= c) st Q := by
  subst hp
  exact hc

/-- With exactly `MAXARG` arguments `kexec` does not succeed. -/
theorem copyStack_maxarg (hp : m0.free ≤ pool) (oldsz old : ℕ) {stackbase : ℕ}
    (h : Built tf rc g m0 m) (hs : Stack g stackbase) (hm : argv.length = maxarg) :
    Within (fun _ => True) (copyStack oldsz old rc g.sz stackbase argv) m
      fun res m' => res = none ∧ ∃ g', Built tf rc g' m0 m' ∧ g'.sz = g.sz := by
  have hal : g.sz % 16 = 0 := by
    have := hs.sz
    simp only [pgsize] at this
    omega
  refine (copyArgs_spec hp oldsz old argv h hs hal hs.le le_rfl (Nat.zero_le _)).within.bind ?_
  intro res m1 h1
  split_ifs at h1
  · obtain ⟨rfl, -⟩ := h1
    dsimp only
    rw [List.nil_append, length_addrs, if_pos hm.ge]
    exact within_throw trivial
  · obtain ⟨rfl, hex⟩ := h1
    exact within_pure ⟨rfl, hex⟩

theorem kexec_maxarg_none (h : Ready st i r tf) (path : List UInt8)
    (file : Option (List UInt8)) (hm : argv.length = maxarg) :
    Within (fun _ => True) (kexec i path file argv) st fun res _ => res = none := by
  refine (openImage_spec h file).within.bind ?_
  rintro (_ | ⟨entry, rc, sz⟩) t h1
  · exact within_pure rfl
  obtain ⟨data, m, rfl, hl⟩ := h1
  obtain ⟨rfl, rfl, rfl, hb, -, -⟩ := hl
  refine (mapStack_spec h hb).within.bind ?_
  rintro (_ | sz) t h2
  · exact within_pure rfl
  obtain ⟨rfl, m2, rfl, hb2⟩ := h2
  have hstack : Stack (program data).withStack
      ((program data).withStack.sz - userstack * pgsize) := by
    rw [stackbase_eq]
    exact withStack_perm _
  refine within_get_bind (within_deref h.pagetable ?_)
  refine within_mem_bind (copyStack_maxarg h.free (st.kernel.proc i).sz r hb2 hstack hm) ?_
  rintro res m3 ⟨rfl, g', hb3, hsz⟩
  refine (bad_spec h (some rc) false (hsz ▸ hb3.shell h.free)).within.mono ?_
  exact fun res t ht => ht.1

/-- What the process reads below the guard page is the program of the file. -/
theorem Installed.program_reads
    (h : Installed i r tf rc entry (spOf data argv) path (imageOf data argv) st t)
    (hfit : Fits argv) (hu : ∀ v < npages (program data).sz, ((program data).perm v).u = true)
    (ha : a < npages (program data).sz * pgsize) :
    t.kernel.reads i a = some ((program data).byte a) ∧
      ∃ pa, (t.kernel.mem.table rc).leaf (a / pgsize) =
        some ⟨pa, (program data).perm (a / pgsize)⟩ := by
  have hpos : 0 < pgsize := by simp [pgsize]
  have hv : a / pgsize < npages (program data).sz := Nat.div_lt_of_lt_mul (by rwa [mul_comm])
  have hsz : (imageOf data argv).sz = (npages (program data).sz + 2) * pgsize := by
    rw [imageOf, Image.stack, Image.write_sz, strings_sz, withStack_sz]
  have hperm : (imageOf data argv).perm (a / pgsize) = (program data).perm (a / pgsize) := by
    have hne : a / pgsize ≠ npages (program data).sz := by omega
    have hlow : ¬ npages (program data).align.sz ≤ a / pgsize := by
      rw [Image.align, npages_mul]
      omega
    rw [imageOf, Image.stack, Image.write_perm, strings_perm]
    simp only [Image.withStack, Image.guard, Image.grow, Function.update_of_ne hne, if_neg hlow]
    rfl
  have hpage : (npages (program data).sz + 2) * pgsize =
      npages (program data).sz * pgsize + 2 * pgsize := by ring
  have hbyte : (imageOf data argv).byte a = (program data).byte a := by
    have hroom := hfit.2
    rw [userstack, Nat.one_mul] at hroom
    have htop := withStack_sz (program data)
    have hsp : a < stackPointer (program data).withStack argv := by
      unfold stackPointer
      omega
    rw [imageOf, Image.stack, Image.write_byte, ← stackPointer, if_neg (by omega),
      strings_byte_low (by omega) (by omega)]
    rfl
  constructor
  · rw [h.reads (by rw [hsz, npages_mul, hpage]; omega), hperm, hu _ hv, hbyte]
    rfl
  · obtain ⟨pa, -, hl, -⟩ := h.low (a / pgsize) (by rw [hsz, npages_mul]; omega)
    exact ⟨pa, by rw [hl, hperm]⟩

/-- `kexec` loads the program that is in the file. -/
theorem kexec_program (h : Ready st i r tf) (hf : ElfFile data) (path : List UInt8)
    (argv : List Str) {argc : ℕ} (hrun : kexec i path (some data) argv st = .ok (some argc, t)) :
    ∃ rc, (t.kernel.proc i).pagetable = some rc ∧
      (∀ ph ∈ ptLoads data,
        (∀ j < ph.filesz,
          t.kernel.reads i (ph.vaddr + j) = some (data.getD (ph.off + j) 0).toNat) ∧
        (∀ j, ph.filesz ≤ j → j < ph.memsz → t.kernel.reads i (ph.vaddr + j) = some 0) ∧
        ∀ v, ph.vaddr / pgsize ≤ v → v * pgsize < ph.vaddr + ph.memsz →
          ∃ pte, (t.kernel.mem.table rc).leaf v = some pte ∧
            pte.perm = ⟨true, ph.flags.testBit 1, ph.flags.testBit 0, true⟩) ∧
      (∀ a < (t.kernel.proc i).sz - (userstack + 1) * pgsize,
        (∀ ph ∈ ptLoads data, ¬ (ph.vaddr ≤ a ∧ a < ph.vaddr + ph.memsz)) →
          t.kernel.reads i a = some 0) ∧
      ∀ v pte w old, v < userVpn → (t.kernel.mem.table rc).leaf v = some pte → w < userVpn →
        (st.kernel.mem.table r).leaf w = some old → pte.pa ≠ old.pa := by
  have hne : argv.length ≠ maxarg := by
    intro hm
    cases (kexec_maxarg_none h path (some data) hm).of_ok hrun
  obtain ⟨rfl, hfit, data', rc, hdata, hvalid, hi⟩ :=
    (kexec_spec h path (some data) argv hne).of_ok hrun
  cases hdata
  rw [hf.segments_eq] at hvalid
  have hholds : Holds data (ptLoads data) (program data) := by
    rw [program, hf.segments_eq]
    exact holds_foldl hf.size hvalid hf.contents hf.ordered
  have hproc : t.kernel.proc i =
      { st.kernel.proc i with pagetable := some rc, sz := (imageOf data argv).sz } := by
    rw [hi.kernel, setProc_self]
  have hsz : (imageOf data argv).sz = (npages (program data).sz + 2) * pgsize := by
    rw [imageOf, Image.stack, Image.write_sz, strings_sz, withStack_sz]
  have hreads := fun {a} => hi.program_reads (a := a) hfit hholds.user
  have hbound := le_npages_mul (program data).sz
  refine ⟨rc, by rw [hproc], fun ph hph => ⟨fun j hj => ?_, fun j hlo hhi => ?_, fun v hlo hhi => ?_⟩,
    fun a ha hout => ?_, fun v pte w old hv hl hw hold => ?_⟩
  · have := hholds.le ph hph
    have := (hvalid ph hph).filesz
    rw [(hreads (by omega)).1, hholds.file ph hph j hj]
  · have := hholds.le ph hph
    rw [(hreads (by omega)).1, hholds.bss ph hph j hlo hhi]
  · have hv : v < npages (ph.vaddr + ph.memsz) := lt_npages.mpr hhi
    have := hholds.le ph hph
    obtain ⟨pa, hl⟩ := (hreads (a := v * pgsize) (by omega)).2
    rw [mul_pgsize_div] at hl
    refine ⟨_, hl, ?_⟩
    rw [hholds.perm ph hph v hlo hv]
    simp [Proghdr.perm, flags2perm, pteR, pteU, HOr.hOr, OrOp.or]
  · have hguard : (t.kernel.proc i).sz - (userstack + 1) * pgsize =
        npages (program data).sz * pgsize := by
      rw [hproc]
      dsimp only
      rw [hsz, userstack, ← Nat.sub_mul, Nat.add_sub_cancel]
    rw [hguard] at ha
    rw [(hreads ha).1, hholds.zero a fun ph hph => ?_]
    have := (hvalid ph hph).filesz
    have := hout ph hph
    omega
  · have hnew : pte.pa ∈ st.kernel.mem.freelist := by
      by_cases hlow : v < npages (imageOf data argv).sz
      · obtain ⟨pa, hpa, hl', -⟩ := hi.low v hlow
        obtain rfl := Option.some.inj (hl.symm.trans hl')
        exact hpa
      · rw [hi.high v (not_lt.mp hlow), baseLeaf_user hv] at hl
        cases hl
    have hmem : old.pa ∈ (st.kernel.mem.table r).pages belowTrapframe :=
      leaf_mem_pages (hw.trans userVpn_lt) (by simpa [belowTrapframe] using hw) hold
    exact fun heq => h.not_free (Multiset.mem_add.mpr (.inl hmem)) (heq ▸ hnew)

/-- An ELF file with one segment: four bytes of the file at address 0, and four zeros. -/
def smallElf : List UInt8 :=
  [0x7f, 0x45, 0x4c, 0x46] ++ List.replicate 28 0 ++ [64] ++ List.replicate 23 0 ++ [1] ++
    List.replicate 7 0 ++ [1, 0, 0, 0, 5, 0, 0, 0, 120] ++ List.replicate 23 0 ++ [4] ++
    List.replicate 7 0 ++ [8] ++ List.replicate 15 0 ++ [1, 2, 3, 4]

theorem smallElf_elfFile : ElfFile smallElf :=
  ⟨by decide +kernel, by decide +kernel, by decide +kernel, by decide +kernel⟩

/-- The first process executes the file and reads its last byte. -/
theorem kexec_program_small : ∃ r tf t, Ready firstState 0 r tf ∧ ElfFile smallElf ∧
    kexec 0 [] (some smallElf) [] firstState = .ok (some 0, t) ∧ t.kernel.reads 0 3 = some 4 := by
  obtain ⟨r, tf, h⟩ := firstState_ready
  obtain ⟨-, t, hrun, rfl⟩ : Ensures (kexec 0 [] (some smallElf) []) firstState
      fun argc _ => argc = some 0 := by decide +kernel
  obtain ⟨rc, -, hload, -⟩ := kexec_program h smallElf_elfFile [] [] hrun
  have hseg : (⟨1, 5, 120, 0, 4, 8⟩ : Proghdr) ∈ ptLoads smallElf := by decide +kernel
  exact ⟨r, tf, t, h, smallElf_elfFile, hrun, (hload _ hseg).1 3 (by decide)⟩

end

end Xv6.Exec
