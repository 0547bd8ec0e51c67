import Xv6.Mkfs.Model

/-!
# Inodes and bits in the blocks of an image

What `winode` packs into a block of inodes is what `rinode` and the kernel find there,
and the other inodes of the block stay what they were. The block that `balloc` writes
has exactly the bits of the blocks in use.
-/

namespace Xv6.Mkfs

open Eff Fs Function

/-! ## Numbers -/

theorem uint_xint {n : ℕ} (h : n < 2 ^ 32) :
    uint (UInt8.ofNat n) (UInt8.ofNat (n / 2 ^ 8)) (UInt8.ofNat (n / 2 ^ 16))
      (UInt8.ofNat (n / 2 ^ 24)) = n := by
  unfold uint
  simp only [UInt8.toNat_ofNat']
  omega

theorem short_xshort {n : ℤ} (h : -2 ^ 15 ≤ n) (h' : n < 2 ^ 15) :
    short (UInt8.ofNat (n % 2 ^ 16).toNat) (UInt8.ofNat ((n % 2 ^ 16).toNat / 2 ^ 8)) = n := by
  unfold short int16
  simp only [UInt8.toNat_ofNat']
  omega

theorem ofTypeCode_typeCode (t : FileType) :
    ofTypeCode (short (UInt8.ofNat (typeCode t)) (UInt8.ofNat (typeCode t / 2 ^ 8))) = t := by
  cases t <;> decide +kernel

/-! ## Inodes -/

/-- The fields fit in a `struct dinode`. -/
structure Packs (d : Dinode) : Prop where
  major : -2 ^ 15 ≤ d.major ∧ d.major < 2 ^ 15
  minor : -2 ^ 15 ≤ d.minor ∧ d.minor < 2 ^ 15
  nlink : -2 ^ 15 ≤ d.nlink ∧ d.nlink < 2 ^ 15
  size : d.size < 2 ^ 32
  addrs : ∀ i ≤ ndirect, d.addrs i < 2 ^ 32
  outside : ∀ i, ndirect < i → d.addrs i = 0

theorem dinodeBytes_length (d : Dinode) : (dinodeBytes d).length = dinodeSize := rfl

theorem dinodeAt_congr {b b' : Block} {o : ℕ}
    (h : ∀ x, o ≤ x → x < o + dinodeSize → b' x = b x) : dinodeAt b' o = dinodeAt b o := by
  have hb (c : ℕ) (hc : c < 64) : b' (o + c) = b (o + c) :=
    h (o + c) (by omega) (by unfold dinodeSize; omega)
  have ha (i c : ℕ) (hi : i ≤ ndirect) (hc : c < 4) :
      b' (o + 12 + 4 * i + c) = b (o + 12 + 4 * i + c) := by
    unfold ndirect at hi
    exact h _ (by omega) (by unfold dinodeSize; omega)
  have hzero : b' o = b o := hb 0 (by decide)
  unfold dinodeAt
  simp only [hb 1 (by decide), hb 2 (by decide), hb 3 (by decide), hb 4 (by decide),
    hb 5 (by decide), hb 6 (by decide), hb 7 (by decide), hb 8 (by decide), hb 9 (by decide),
    hb 10 (by decide), hb 11 (by decide), hzero, Dinode.mk.injEq, true_and]
  funext i
  split
  · rename_i hi
    have h0 := ha i 0 hi (by decide)
    rw [ha i 1 hi (by decide), ha i 2 hi (by decide), ha i 3 hi (by decide)]
    rw [Nat.add_zero] at h0
    rw [h0]
  · rfl

theorem putBytes_at (b : Block) {o c : ℕ} {l : List UInt8} (hc : c < l.length) :
    putBytes b o l (o + c) = l.getD c 0 := by
  unfold putBytes
  rw [if_pos (by omega), Nat.add_sub_cancel_left]

theorem dinodeAt_putBytes (b : Block) (o : ℕ) {d : Dinode} (h : Packs d) :
    dinodeAt (putBytes b o (dinodeBytes d)) o = d := by
  have hb (c : ℕ) (hc : c < 64) :
      putBytes b o (dinodeBytes d) (o + c) = (dinodeBytes d).getD c 0 :=
    putBytes_at b (by rw [dinodeBytes_length]; exact hc)
  have hzero := hb 0 (by decide)
  rw [Nat.add_zero] at hzero
  obtain ⟨type, major, minor, nlink, size, addrs⟩ := d
  unfold dinodeAt
  rw [hzero, hb 1 (by decide), hb 2 (by decide), hb 3 (by decide), hb 4 (by decide),
    hb 5 (by decide), hb 6 (by decide), hb 7 (by decide), hb 8 (by decide), hb 9 (by decide),
    hb 10 (by decide), hb 11 (by decide)]
  simp only [Dinode.mk.injEq]
  refine ⟨ofTypeCode_typeCode type, short_xshort h.major.1 h.major.2,
    short_xshort h.minor.1 h.minor.2, short_xshort h.nlink.1 h.nlink.2, uint_xint h.size, ?_⟩
  funext i
  split
  · rename_i hi
    have ha (c : ℕ) (hc : c < 4) : putBytes b o
        (dinodeBytes ⟨type, major, minor, nlink, size, addrs⟩) (o + 12 + 4 * i + c) =
        (dinodeBytes ⟨type, major, minor, nlink, size, addrs⟩).getD (12 + 4 * i + c) 0 := by
      unfold ndirect at hi
      rw [show o + 12 + 4 * i + c = o + (12 + 4 * i + c) by omega]
      exact hb _ (by omega)
    have ha0 := ha 0 (by decide)
    rw [Nat.add_zero] at ha0
    rw [ha0, ha 1 (by decide), ha 2 (by decide), ha 3 (by decide)]
    refine Eq.trans ?_ (uint_xint (h.addrs i hi))
    unfold ndirect at hi
    interval_cases i <;> rfl
  · rename_i hi
    exact (h.outside i (Nat.lt_of_not_le hi)).symm

/-- The inode that `rinode` finds. -/
def Image.dinode (m : Image) (i : ℕ) : Dinode :=
  dinodeAt (m.sect (iblock i)) (i % ipb * dinodeSize)

section

variable {m : Image} {i j : ℕ} {d : Dinode}

/-- The image after `winode`. -/
def Image.withInode (m : Image) (i : ℕ) (d : Dinode) : Image where
  sect := update m.sect (iblock i)
    (putBytes (m.sect (iblock i)) (i % ipb * dinodeSize) (dinodeBytes d))
  len := m.len
  freeinode := m.freeinode
  freeblock := m.freeblock

theorem withInode_sect {b : ℕ} (hb : b ≠ iblock i) : (m.withInode i d).sect b = m.sect b :=
  update_of_ne hb _ _

theorem withInode_self : (m.withInode i d).sect (iblock i) =
    putBytes (m.sect (iblock i)) (i % ipb * dinodeSize) (dinodeBytes d) :=
  update_self _ _ _

theorem withInode_dinode (h : Packs d) :
    (m.withInode i d).dinode = update m.dinode i d := by
  funext j
  by_cases hji : j = i
  · subst hji
    rw [update_self, Image.dinode, withInode_self, dinodeAt_putBytes _ _ h]
  · rw [update_of_ne hji]
    unfold Image.dinode
    by_cases hblock : iblock j = iblock i
    · -- another place in the same block
      rw [hblock, withInode_self]
      refine dinodeAt_congr fun x hlo hhi => ?_
      have hplace : j % ipb ≠ i % ipb := by
        intro hmod
        have hdiv : j / ipb = i / ipb := by unfold iblock at hblock; omega
        rw [← Nat.div_add_mod j ipb, ← Nat.div_add_mod i ipb, hmod, hdiv] at hji
        exact hji rfl
      unfold putBytes
      rw [if_neg]
      rw [dinodeBytes_length]
      unfold dinodeSize at *
      omega
    · rw [withInode_sect hblock]

theorem rsect_spec {E : String → Prop} {sec : ℕ} (hE : ¬ sec < m.len → E "read") :
    Within E (rsect sec) m fun b m' => sec < m.len ∧ b = m.sect sec ∧ m' = m := by
  unfold rsect
  apply within_get_bind
  split
  · rename_i hsec
    exact within_pure ⟨hsec, rfl, rfl⟩
  · rename_i hsec
    exact within_throw (hE hsec)

theorem winode_spec (hi : iblock i < m.len) (d : Dinode) :
    Ensures (winode i d) m fun _ m' => m' = m.withInode i d := by
  have hlen : max m.len (iblock i + 1) = m.len := by omega
  unfold winode rsect
  refine Ensures.bind (R := fun b m' => b = m.sect (iblock i) ∧ m' = m) ?_ ?_
  · apply ensures_get_bind
    rw [if_pos hi]
    exact ensures_pure ⟨rfl, rfl⟩
  · rintro b m' ⟨rfl, rfl⟩
    apply ensures_modify
    rw [hlen]
    rfl

theorem rinode_spec (hi : iblock i < m.len) :
    Ensures (rinode i) m fun d m' => d = m.dinode i ∧ m' = m := by
  unfold rinode rsect
  refine Ensures.bind (R := fun b m' => b = m.sect (iblock i) ∧ m' = m) ?_ ?_
  · apply ensures_get_bind
    rw [if_pos hi]
    exact ensures_pure ⟨rfl, rfl⟩
  · rintro b m' ⟨rfl, rfl⟩
    exact ensures_pure ⟨rfl, rfl⟩

end

/-! ## The bitmap -/

theorem mask_toNat {k : ℕ} (hk : k < 8) : (1 <<< UInt8.ofNat k : UInt8).toNat = 2 ^ k := by
  interval_cases k <;> rfl

theorem and_mask_iff (x : UInt8) {k : ℕ} (hk : k < 8) :
    x &&& (1 <<< UInt8.ofNat k) ≠ 0 ↔ x.toNat.testBit k = true := by
  rw [Ne, ← UInt8.toNat_inj, UInt8.toNat_and, mask_toNat hk, Nat.and_two_pow]
  cases x.toNat.testBit k <;> simp

theorem or_mask_iff (x : UInt8) {j k : ℕ} (hj : j < 8) (hk : k < 8) :
    (x ||| (1 <<< UInt8.ofNat j)) &&& (1 <<< UInt8.ofNat k) ≠ 0 ↔
      x &&& (1 <<< UInt8.ofNat k) ≠ 0 ∨ k = j := by
  rw [and_mask_iff _ hk, and_mask_iff _ hk, UInt8.toNat_or, mask_toNat hj, Nat.testBit_or,
    Nat.testBit_two_pow, Bool.or_eq_true, decide_eq_true_eq, eq_comm (a := k)]

theorem bitmapBlock_bit (used b : ℕ) :
    bitmapBlock used (b / 8) &&& (1 <<< UInt8.ofNat (b % 8)) ≠ 0 ↔ b < used := by
  induction used with
  | zero => simp [bitmapBlock]
  | succ i ih =>
    unfold bitmapBlock
    by_cases hbyte : b / 8 = i / 8
    · rw [hbyte, update_self, or_mask_iff _ (Nat.mod_lt _ (by decide))
        (Nat.mod_lt _ (by decide)), ← hbyte, ih]
      omega
    · rw [update_of_ne hbyte, ih]
      have : b ≠ i := by rintro rfl; exact hbyte rfl
      omega

end Xv6.Mkfs
