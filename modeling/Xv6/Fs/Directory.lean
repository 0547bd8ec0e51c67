import Xv6.Fs.Image
import Xv6.Fs.Space

/-!
# Directories as maps

The entries of a directory lie in a file, with unused entries among them, and their names
fill fourteen bytes with or without a zero at the end. To those who enter, look up and
remove names a directory is a map from names to inode numbers, where names with the same
first fourteen bytes are the same.
-/

namespace Xv6.Fs

open Eff Bag Function

/-! ## Names in C -/

/-- A string reads as zeros behind its last byte. -/
def strncmp : List UInt8 → List UInt8 → ℕ → ℤ
  | _, _, 0 => 0
  | p, q, n + 1 =>
    if p.headD 0 ≠ 0 ∧ p.headD 0 = q.headD 0 then strncmp p.tail q.tail n
    else ((p.headD 0).toNat : ℤ) - (q.headD 0).toNat

/-- The `n` bytes that are written. -/
def strncpy : List UInt8 → ℕ → List UInt8
  | _, 0 => []
  | t, n + 1 =>
    t.headD 0 :: if t.headD 0 ≠ 0 then strncpy t.tail n else List.replicate n 0

def namecmp (s t : List UInt8) : ℤ := strncmp s t dirsiz

/-- The part of a string before its end, of at most `n` bytes. -/
def upto (n : ℕ) (t : List UInt8) : List UInt8 := (t.take n).takeWhile (· ≠ 0)

/-- The name that a string stands for. -/
def cut (name : List UInt8) : Name := upto dirsiz name

theorem upto_succ (t : List UInt8) (n : ℕ) :
    upto (n + 1) t = if t.headD 0 = 0 then [] else t.headD 0 :: upto n t.tail := by
  cases t with
  | nil => simp [upto]
  | cons a t =>
    by_cases ha : a = 0 <;> simp [upto, ha]

theorem strncmp_eq_zero (p q : List UInt8) (n : ℕ) : strncmp p q n = 0 ↔ upto n p = upto n q := by
  induction n generalizing p q with
  | zero => simp [strncmp, upto]
  | succ n ih =>
    rw [strncmp, upto_succ, upto_succ]
    by_cases hp : p.headD 0 = 0
    · rw [if_neg fun hc => hc.1 hp, if_pos hp, hp]
      by_cases hq : q.headD 0 = 0
      · rw [if_pos hq, hq]
        simp
      · rw [if_neg hq]
        have hpos : (q.headD 0).toNat ≠ 0 := fun hz => hq (UInt8.toNat_inj.mp hz)
        simp only [UInt8.toNat_zero, reduceCtorEq, iff_false]
        omega
    · by_cases heq : p.headD 0 = q.headD 0
      · rw [if_pos ⟨hp, heq⟩, if_neg hp, if_neg (heq ▸ hp), ih, heq, List.cons_inj_right]
      · rw [if_neg fun hc => heq hc.2, if_neg hp]
        have hdiff : (p.headD 0).toNat ≠ (q.headD 0).toNat := fun hz => heq (UInt8.toNat_inj.mp hz)
        refine iff_of_false (by omega) ?_
        split
        · simp
        · exact fun hcons => heq (List.cons.inj hcons).1

theorem namecmp_eq_zero (s t : List UInt8) : namecmp s t = 0 ↔ cut s = cut t :=
  strncmp_eq_zero s t dirsiz

theorem strncpy_eq (t : List UInt8) (n : ℕ) :
    strncpy t n = (List.range n).map fun i => (upto n t).getD i 0 := by
  induction n generalizing t with
  | zero => rfl
  | succ n ih =>
    rw [strncpy, upto_succ, List.range_succ_eq_map, List.map_cons, List.map_map]
    by_cases ht : t.headD 0 = 0
    · rw [if_neg (by simpa using ht), if_pos ht, ht]
      refine congrArg _ (List.eq_replicate_iff.mpr ⟨by simp, ?_⟩).symm
      simp
    · rw [if_pos ht, if_neg ht, ih]
      rfl

theorem cut_ok (name : List UInt8) : Name.Ok (cut name) := by
  refine ⟨?_, fun hzero => ?_⟩
  · refine (List.takeWhile_prefix _).length_le.trans ?_
    simp
  · have := List.mem_takeWhile_imp hzero
    simp at this

/-! ## The functions on strings -/

namespace Raw

section

variable (sb : Superblock)

/-- The loops over the entries, on their bytes. -/
def scan (dp : ℕ) (msg : String) (found : List UInt8 → Bool) :
    ℕ → ℕ → M (ℕ × Option (List UInt8))
  | 0, off => pure (off, none)
  | fuel + 1, off => do
    let s ← get
    if off < (s.copy dp).size then do
      let r ← readi sb dp (fun _ => true) off direntSize
      if r.1 ≠ direntSize then throw msg
      else if found r.2 then pure (off, some r.2)
      else scan dp msg found fuel (off + direntSize)
    else pure (off, none)

/-- The field `inum` of an entry. -/
def inum (de : List UInt8) : ℕ := (de.getD 0 0).toNat + 2 ^ 8 * (de.getD 1 0).toNat

/-- The field `name` of an entry. -/
def name (de : List UInt8) : List UInt8 := de.drop 2

def dirlookup (dp : ℕ) (name : List UInt8) : M (Option (ℕ × ℕ)) := do
  let s ← get
  if (s.copy dp).type ≠ .dir then throw "dirlookup not DIR" else do
    let r ← scan sb dp "dirlookup read"
      (fun de => inum de ≠ 0 && namecmp name (Raw.name de) = 0) (s.fuel dp) 0
    match r.2 with
    | some de => do
      let ip ← iget (inum de)
      pure (some (ip, r.1))
    | none => pure none

def dirlink (dp : ℕ) (name : List UInt8) (inum : ℕ) : M ℤ := do
  match ← dirlookup sb dp name with
  | some (ip, _) => do
    iput sb ip
    pure (-1)
  | none => do
    let s ← get
    let r ← scan sb dp "dirlink read" (fun de => Raw.inum de = 0) (s.fuel dp) 0
    let de := UInt8.ofNat inum :: UInt8.ofNat (inum / 2 ^ 8) :: strncpy name dirsiz
    let w ← writei sb dp (ofList de) r.1 direntSize
    if w ≠ direntSize then pure (-1) else pure 0

end

theorem scan_eq (sb : Superblock) (dp : ℕ) (msg : String) (found : List UInt8 → Bool)
    (found' : Dirent → Bool) (h : ∀ de, found de = found' (Dirent.ofBytes de)) (fuel off : ℕ) :
    (do let r ← scan sb dp msg found fuel off; pure (r.1, r.2.map Dirent.ofBytes)) =
      Fs.scan sb dp msg found' fuel off := by
  induction fuel generalizing off with
  | zero => rfl
  | succ fuel ih =>
    unfold scan Fs.scan
    simp only [bind_assoc]
    refine congrArg _ (funext fun s => ?_)
    split
    · simp only [bind_assoc]
      refine congrArg _ (funext fun r => ?_)
      split
      · rfl
      · rw [h]
        split
        · rfl
        · exact ih (off + direntSize)
    · rfl

theorem dirlookup_eq (sb : Superblock) (dp : ℕ) (name : List UInt8) :
    dirlookup sb dp name = Fs.dirlookup sb dp (cut name) := by
  unfold dirlookup Fs.dirlookup
  refine congrArg _ (funext fun s => ?_)
  split
  · rfl
  · rw [← scan_eq sb dp "dirlookup read"
      (fun de => inum de ≠ 0 && namecmp name (Raw.name de) = 0)]
    · simp only [bind_assoc, pure_bind]
      refine congrArg _ (funext fun r => ?_)
      obtain ⟨off, de⟩ := r
      cases de <;> rfl
    · intro de
      have hname : (namecmp name (Raw.name de) = 0) = ((Dirent.ofBytes de).name = cut name) :=
        propext ((namecmp_eq_zero name (Raw.name de)).trans eq_comm)
      simp only [hname]
      rfl

theorem dirlink_eq (sb : Superblock) (dp : ℕ) (name : List UInt8) (inum : ℕ) :
    dirlink sb dp name inum = Fs.dirlink sb dp (cut name) inum := by
  unfold dirlink Fs.dirlink
  rw [dirlookup_eq]
  refine congrArg _ (funext fun r => ?_)
  cases r with
  | some r => rfl
  | none =>
    dsimp only
    refine congrArg _ (funext fun s => ?_)
    rw [← scan_eq sb dp "dirlink read" (fun de => Raw.inum de = 0)
      (fun de => de.inum = 0) (fun _ => rfl), strncpy_eq]
    simp only [bind_assoc, pure_bind]
    rfl

end Raw

/-! ## The map in a list of entries -/

/-- An entry in use with this name. -/
def named (name : Name) (e : Dirent) : Bool := e.inum ≠ 0 && e.name = name

/-- The inode number under a name, 0 if there is none. -/
def inumOf (l : List Dirent) (name : Name) : ℕ := ((l.find? (named name)).map Dirent.inum).getD 0

/-- No two entries in use have the same name. -/
def Distinct (l : List Dirent) : Prop :=
  ∀ (i j : ℕ) (e f : Dirent), l[i]? = some e → l[j]? = some f →
    e.inum ≠ 0 → f.inum ≠ 0 → e.name = f.name → i = j

/-- The first unused entry, or the place behind the last one. -/
def vacancy (l : List Dirent) : ℕ := l.findIdx fun e => e.inum = 0

section

variable {l : List Dirent} {name x : Name} {i j v : ℕ} {e : Dirent}

theorem named_iff : named name e = true ↔ e.inum ≠ 0 ∧ e.name = name := by
  simp [named]

theorem inumOf_eq_zero : inumOf l name = 0 ↔ ∀ e ∈ l, e.inum ≠ 0 → e.name ≠ name := by
  unfold inumOf
  cases hfind : l.find? (named name) with
  | none =>
    rw [List.find?_eq_none] at hfind
    refine iff_of_true rfl fun e he hne heq => hfind e he (named_iff.mpr ⟨hne, heq⟩)
  | some e =>
    have hnamed := named_iff.mp (List.find?_some hfind)
    refine iff_of_false hnamed.1 fun hall => ?_
    exact hall e (List.mem_of_find?_eq_some hfind) hnamed.1 hnamed.2

/-- In a directory without double names the number under a name is that of any entry with
the name. -/
theorem inumOf_eq (h : Distinct l) (hv : v ≠ 0) : inumOf l name = v ↔ ⟨v, name⟩ ∈ l := by
  constructor
  · rintro rfl
    unfold inumOf at hv ⊢
    cases hfind : l.find? (named name) with
    | none =>
      rw [hfind] at hv
      exact absurd rfl hv
    | some e =>
      have hname := (named_iff.mp (List.find?_some hfind)).2
      rw [← hname]
      exact List.mem_of_find?_eq_some hfind
  · intro hmem
    have hne : inumOf l name ≠ 0 := fun hz => inumOf_eq_zero.mp hz _ hmem hv rfl
    unfold inumOf at hne ⊢
    cases hfind : l.find? (named name) with
    | none =>
      rw [hfind] at hne
      exact absurd rfl hne
    | some e =>
      have hnamed := named_iff.mp (List.find?_some hfind)
      obtain ⟨i, hi⟩ := List.mem_iff_getElem?.mp hmem
      obtain ⟨j, hj⟩ := List.mem_iff_getElem?.mp (List.mem_of_find?_eq_some hfind)
      obtain rfl := h i j _ _ hi hj hv hnamed.1 hnamed.2.symm
      rw [hi] at hj
      cases hj
      rfl

theorem eq_of_nonzero {m n : ℕ} (h : ∀ v, v ≠ 0 → (m = v ↔ n = v)) : m = n := by
  by_cases hm : m = 0
  · by_contra hne
    have := (h n (by omega)).mpr rfl
    omega
  · exact ((h m hm).mp rfl).symm

theorem vacancy_le : vacancy l ≤ l.length := List.findIdx_le_length

theorem vacancy_unused (h : l[vacancy l]? = some e) : e.inum = 0 := by
  obtain ⟨hlt, rfl⟩ := List.getElem?_eq_some_iff.mp h
  exact of_decide_eq_true (List.findIdx_getElem (w := hlt))

theorem vacancy_lt : vacancy l < l.length ↔ ∃ e ∈ l, e.inum = 0 := by
  unfold vacancy
  rw [List.findIdx_lt_length]
  simp

theorem Distinct.enter (h : Distinct l) (hfresh : inumOf l name = 0) :
    Distinct (put l (vacancy l) ⟨v, name⟩) := by
  rw [inumOf_eq_zero] at hfresh
  have hclash : ∀ {i : ℕ} {e : Dirent}, l[i]? = some e → e.inum ≠ 0 → e.name ≠ name :=
    fun hi hne => hfresh _ (List.mem_of_getElem? hi) hne
  intro i j e f hi hj he hf heq
  rw [put_getElem? vacancy_le] at hi hj
  split_ifs at hi hj with hiv hjv hjv
  · exact hiv.trans hjv.symm
  · cases hi
    exact absurd heq.symm (hclash hj hf)
  · cases hj
    exact absurd heq (hclash hi he)
  · exact h i j e f hi hj he hf heq

theorem mem_enter (hv : v ≠ 0) {w : ℕ} :
    ⟨v, x⟩ ∈ put l (vacancy l) ⟨w, name⟩ ↔ v = w ∧ x = name ∨ ⟨v, x⟩ ∈ l := by
  simp only [List.mem_iff_getElem?, put_getElem? (vacancy_le (l := l))]
  constructor
  · rintro ⟨i, hi⟩
    split_ifs at hi with hiv
    · have := Option.some.inj hi
      simp only [Dirent.mk.injEq] at this
      exact .inl ⟨this.1.symm, this.2.symm⟩
    · exact .inr ⟨i, hi⟩
  · rintro (⟨rfl, rfl⟩ | ⟨i, hi⟩)
    · exact ⟨vacancy l, if_pos rfl⟩
    · refine ⟨i, ?_⟩
      rw [if_neg]
      · exact hi
      · rintro rfl
        exact hv (vacancy_unused hi)

theorem inumOf_enter (h : Distinct l) (hfresh : inumOf l name = 0) :
    inumOf (put l (vacancy l) ⟨v, name⟩) x = if name = x then v else inumOf l x := by
  refine eq_of_nonzero fun w hw => ?_
  rw [inumOf_eq (h.enter hfresh) hw, mem_enter hw]
  split_ifs with hx
  · subst hx
    have hnot : ⟨w, name⟩ ∉ l := fun hmem => inumOf_eq_zero.mp hfresh _ hmem hw rfl
    simp [hnot, eq_comm]
  · rw [inumOf_eq h hw]
    exact or_iff_right fun hc => hx hc.2.symm

theorem Distinct.clear (h : Distinct l) (j : ℕ) : Distinct (l.set j ⟨0, []⟩) := by
  intro i i' e f hi hi' he hf heq
  rw [List.getElem?_set] at hi hi'
  have hkeep : ∀ {i : ℕ} {e : Dirent}, (if j = i then if j < l.length then some (⟨0, []⟩ : Dirent) else none
      else l[i]?) = some e → e.inum ≠ 0 → l[i]? = some e := by
    intro i e hi he
    split_ifs at hi
    · cases hi
      exact absurd rfl he
    · exact hi
  exact h i i' e f (hkeep hi he) (hkeep hi' hf) he hf heq

/-- A name that is removed is gone, and all others have their numbers. -/
theorem inumOf_clear (h : Distinct l) (hj : l[j]? = some e) (he : e.inum ≠ 0) :
    inumOf (l.set j ⟨0, []⟩) x = if e.name = x then 0 else inumOf l x := by
  refine eq_of_nonzero fun w hw => ?_
  rw [inumOf_eq (h.clear j) hw]
  have hmem : ⟨w, x⟩ ∈ l.set j ⟨0, []⟩ ↔ ⟨w, x⟩ ∈ l ∧ e.name ≠ x := by
    simp only [List.mem_iff_getElem?, List.getElem?_set]
    constructor
    · rintro ⟨i, hi⟩
      split_ifs at hi with hij hlt
      · have := Option.some.inj hi
        simp only [Dirent.mk.injEq] at this
        exact absurd this.1.symm hw
      · exact ⟨⟨i, hi⟩, fun heq => hij (h j i e _ hj hi he hw heq)⟩
    · rintro ⟨⟨i, hi⟩, hne⟩
      refine ⟨i, ?_⟩
      rw [if_neg]
      · exact hi
      · rintro rfl
        rw [hi] at hj
        cases hj
        exact hne rfl
  rw [hmem]
  split_ifs with hx
  · simp [hx, hw.symm]
  · rw [inumOf_eq h hw]
    exact and_iff_left hx

end

/-! ## A directory in use -/

/-- Table entry `k` is the locked directory `d` in an open transaction, with the entries
`l`. -/
structure Dir (sb : Superblock) (s : State) (c : Multiset ℕ) (k d : ℕ) (l : List Dirent) :
    Prop where
  inv : Inv sb False True s c
  mem : k ∈ c
  valid : (s.itable k).valid = true
  inum : (s.itable k).inum = d
  dir : (s.copy k).type = .dir
  whole : (s.copy k).size % direntSize = 0
  entries : (s.copy k).entries s.disk.block = l

/-- The panic of `iget`, when no table entry is free. -/
def TableFull (s : State) (msg : String) : Prop :=
  msg = "iget: no inodes" ∧ ∀ k < ninode, (s.itable k).ref ≠ 0

/-- All entries are in use, and there is no room for another one. -/
def NoRoom (sb : Superblock) (s : State) (k : ℕ) (l : List Dirent) : Prop :=
  (∀ e ∈ l, e.inum ≠ 0) ∧ (maxfile * bsize < (s.copy k).size + direntSize ∨
    s.disk.free sb < (s.copy k).missing s.disk.block ((s.copy k).size / bsize))

section

variable {sb : Superblock} {s t : State} {c c' : Multiset ℕ} {k k' d i ip j : ℕ}
  {l : List Dirent} {name : Name}

theorem iget_full (h : Inv sb False True s c) (hi : i < sb.ninodes) :
    Within (TableFull s) (iget i) s fun k t => Inv sb False True t (k ::ₘ c) ∧
      Quiet True c s t ∧ (t.itable k).inum = i := by
  have hspec := iget_spec h hi False.elim
  unfold Within at hspec ⊢
  cases hrun : iget i s with
  | ok r =>
    rw [hrun] at hspec
    exact hspec
  | error msg =>
    have hfail : Within (TableFull s) (iget i) s fun _ _ => True := by
      unfold iget
      apply within_get_bind
      split
      · exact within_modify_bind (within_pure trivial)
      · split
        · exact within_modify_bind (within_pure trivial)
        · rename_i hnone
          refine within_throw ⟨rfl, fun k hk href => ?_⟩
          have := List.find?_eq_none.mp hnone k (List.mem_range.mpr hk)
          simp [href] at this
    exact hfail.of_error hrun

namespace Dir

theorem size (h : Dir sb s c k d l) : (s.copy k).size = l.length * direntSize := by
  have := h.whole
  rw [← h.entries, entries_length]
  unfold direntSize at *
  omega

theorem full (h : Dir sb s c k d l) : (s.copy k).Full s.disk.block :=
  h.inv.copy_full h.mem h.valid

theorem congr (h : Dir sb s c k d l) (hinv : Inv sb False True t c') (hmem : k' ∈ c')
    (hvalid : (t.itable k').valid = true) (hinum : (t.itable k').inum = d)
    (hnode : nodes sb t.disk d = nodes sb s.disk d)
    (hfile : files sb t.disk d = files sb s.disk d) : Dir sb t c' k' d l := by
  have hview : (t.copy k').view t.disk.block = (s.copy k).view s.disk.block := by
    rw [← hinv.file_copy hmem hvalid, ← h.inv.file_copy h.mem h.valid, hinum, h.inum, hfile]
  rw [Dinode.view, Dinode.view, if_neg (hinv.type_ne hmem hvalid),
    if_neg (h.inv.type_ne h.mem h.valid), Option.some.injEq, View.mk.injEq] at hview
  have hdir : (t.copy k').type = .dir := hview.1.trans h.dir
  refine ⟨hinv, hmem, hvalid, hinum, hdir, by rw [hview.2.2.2.2.1]; exact h.whole, ?_⟩
  have hnew := hinv.node_dir hmem hvalid hdir
  have hold := h.inv.node_dir h.mem h.valid h.dir
  rw [hinum, hnode, ← h.inum, hold] at hnew
  rw [← h.entries]
  exact (congrArg Node.ents hnew).symm

theorem quiet (h : Dir sb s c k d l) (hinv : Inv sb False True t c') (hmem : k ∈ c')
    (hq : Quiet True c s t) : Dir sb t c' k d l :=
  h.congr hinv hmem (hq.valid k h.mem h.valid).1 ((hq.inum k h.mem).trans h.inum)
    (by rw [hq.disk trivial]) (by rw [hq.disk trivial])

theorem iput (h : Dir sb s (ip ::ₘ c) k d l) (hk : k ∈ c) :
    Ensures (Fs.iput sb ip) s fun _ t => Dir sb t c k d l := by
  refine (iput_spec h.inv).mono fun _ t ht => ?_
  obtain ⟨hinv, hkept, hcase, -⟩ := ht
  have hvalid := (hkept.valid k hk h.valid).1
  have hinum := (hkept.inum k hk).trans h.inum
  rcases hcase with ⟨hdisk, -⟩ | ⟨hnot, -, hnodes, hfiles, -⟩
  · exact h.congr hinv hk hvalid hinum (by rw [hdisk]) (by rw [hdisk])
  · -- the inode that was freed is not the directory
    have hne : d ≠ (s.itable ip).inum := by
      intro heq
      have huniq := h.inv.uniq k ip (h.inv.ref_pos h.mem)
        (h.inv.ref_pos (Multiset.mem_cons_self ip c)) (h.inum.trans heq)
      exact hnot (huniq ▸ hk)
    refine h.congr hinv hk hvalid hinum ?_ ?_
    · rw [hnodes, update_of_ne hne]
    · rw [hfiles, update_of_ne hne]

theorem scan (h : Dir sb s c k d l) (m : String) (found : Dirent → Bool) :
    ∀ fuel j, j ≤ l.length → l.length < j + fuel →
    Ensures (Fs.scan sb k m found fuel (j * direntSize)) s fun r t => t = s ∧
      r = ((j + (l.drop j).findIdx found) * direntSize, (l.drop j).find? found) := by
  have hpos : 0 < direntSize := by decide
  have hsize := h.size
  intro fuel
  induction fuel with
  | zero =>
    intro j hj hfuel
    omega
  | succ fuel ih =>
    intro j hj hfuel
    unfold Fs.scan
    apply ensures_get_bind
    rcases Nat.lt_or_eq_of_le hj with hlt | rfl
    · have hin : j * direntSize + direntSize ≤ (s.copy k).size := by
        rw [hsize, ← Nat.succ_mul]
        exact Nat.mul_le_mul_right _ hlt
      have hstart : j * direntSize < (s.copy k).size := by omega
      rw [if_pos hstart]
      refine (readi_dirent h.full.size_le hstart (h.full.at hstart).2).bind fun r t ht => ?_
      obtain ⟨rfl, hfits, hread⟩ := ht
      have hr := hfits.mpr hin
      have hentry : direntAt (t.copy k) t.disk.block j = l[j] := by
        have hget := entries_getElem? (t.copy k) t.disk.block j
        rw [h.entries, List.getElem?_eq_getElem hlt, if_pos] at hget
        · exact (Option.some.inj hget).symm
        · rw [hsize]
          simpa [direntSize] using hlt
      rw [if_neg (by simpa using hr), hread hr, hentry]
      rw [List.drop_eq_getElem_cons hlt, List.findIdx_cons, List.find?_cons]
      cases hfound : found l[j] with
      | true => exact ensures_pure ⟨rfl, by simp⟩
      | false =>
        have hnext := ih (j + 1) hlt (by omega)
        rw [Nat.succ_mul] at hnext
        simp only [cond_false]
        refine hnext.mono ?_
        rintro r u ⟨rfl, rfl⟩
        refine ⟨rfl, ?_⟩
        congr 2
        omega
    · rw [if_neg (by omega)]
      exact ensures_pure ⟨rfl, by simp⟩

theorem scan_all (h : Dir sb s c k d l) (m : String) (found : Dirent → Bool) :
    Ensures (Fs.scan sb k m found (s.fuel k) 0) s fun r t => t = s ∧
      r = (l.findIdx found * direntSize, l.find? found) := by
  have hall := h.scan m found (s.fuel k) 0 (Nat.zero_le _) (by
    rw [State.fuel, h.size]
    simp [direntSize])
  simpa using hall

theorem dirlookup (h : Dir sb s c k d l) (name : Name) :
    Within (TableFull s) (Fs.dirlookup sb k name) s fun r t =>
      match l.find? (named name) with
      | some e => ∃ ip, r = some (ip, l.findIdx (named name) * direntSize) ∧
          (t.itable ip).inum = e.inum ∧ Dir sb t (ip ::ₘ c) k d l
      | none => r = none ∧ t = s := by
  unfold Fs.dirlookup
  apply within_get_bind
  rw [if_neg (by simpa using h.dir)]
  refine (h.scan_all "dirlookup read" (named name)).within.bind ?_
  rintro _ t ⟨rfl, rfl⟩
  cases hfind : l.find? (named name) with
  | none => exact within_pure ⟨rfl, rfl⟩
  | some e =>
    have hmem : e ∈ (nodes sb t.disk d).ents := by
      rw [← h.inum, h.inv.node_dir h.mem h.valid h.dir, h.entries]
      exact List.mem_of_find?_eq_some hfind
    refine (iget_full h.inv (h.inv.range d e hmem)).bind fun ip u hu => ?_
    obtain ⟨hinv, hquiet, hinum⟩ := hu
    refine within_pure ⟨ip, rfl, hinum, h.quiet hinv ?_ hquiet⟩
    exact Multiset.mem_cons_of_mem h.mem

theorem writei (h : Dir sb s c k d l) {bytes : List UInt8} (hl : bytes.length = direntSize)
    (he : (Dirent.ofBytes bytes).inum < sb.ninodes) (hj : j ≤ l.length) :
    Ensures (Fs.writei sb k (ofList bytes) (j * direntSize) direntSize) s fun r t =>
      (r = direntSize ↔ j * direntSize + direntSize ≤ maxfile * bsize ∧
        (s.copy k).missing s.disk.block (j * direntSize / bsize) ≤ s.disk.free sb) ∧
      Dir sb t c k d (if r = direntSize then put l j (Dirent.ofBytes bytes) else l) := by
  have hsize := h.size
  have hplace : j * direntSize + direntSize ≤ (s.copy k).size ∨
      j * direntSize = (s.copy k).size := by
    rw [hsize]
    rcases Nat.lt_or_eq_of_le hj with hlt | rfl
    · left
      rw [← Nat.succ_mul]
      exact Nat.mul_le_mul_right _ hlt
    · exact .inr rfl
  obtain ⟨R, hR⟩ := exists_rest (s := s) (h.inv.inum k (h.inv.ref_pos h.mem))
  have hledger := h.inv.copy_ledger h.mem h.valid hR
  have hout := h.inv.logging trivial
  have haligned : Ensures (Fs.writei sb k (ofList bytes) (j * direntSize) direntSize) s
      fun _ t => (t.copy k).size % direntSize = 0 := by
    refine (Fs.writei_dirent hledger hout h.full hl hplace).mono fun r t ht => ?_
    rcases ht with ⟨-, rfl⟩ | ⟨u, o, hu, -, rfl, ho, -⟩
    · exact h.whole
    · have hgrow : ((u.changed sb k (Dinode.grow o)).copy k).size = max (s.copy k).size o := by
        simp [State.copy, grow_size, hu.size]
      rw [hgrow]
      rcases max_choice (s.copy k).size o with hmax | hmax <;> rw [hmax]
      · exact h.whole
      · exact ho
  refine (((h.inv.writei_dirent h.mem h.valid h.dir hl he hplace).and
    (writei_room hledger hout hl (by omega) h.full.size_le)).and haligned).mono fun r t ht => ?_
  obtain ⟨⟨⟨hinv, hkept, hnodes, -⟩, hroom⟩, halign⟩ := ht
  obtain ⟨hvalid, htype⟩ := hkept.valid k h.mem h.valid
  have hinum := (hkept.inum k h.mem).trans h.inum
  have hdir := htype.trans h.dir
  refine ⟨hroom, hinv, h.mem, hvalid, hinum, hdir, halign, ?_⟩
  have hnew := congrArg Node.ents (hinv.node_dir h.mem hvalid hdir)
  rw [hnodes, hinum] at hnew
  refine hnew.symm.trans ?_
  split
  · rw [h.inum, update_self, h.entries]
  · rw [← h.inum, h.inv.node_dir h.mem h.valid h.dir, h.entries]

theorem overwrite (h : Dir sb s c k d l) {bytes : List UInt8} (hl : bytes.length = direntSize)
    (he : (Dirent.ofBytes bytes).inum < sb.ninodes) (hj : j < l.length) :
    Ensures (Fs.writei sb k (ofList bytes) (j * direntSize) direntSize) s fun r t =>
      r = direntSize ∧ Dir sb t c k d (l.set j (Dirent.ofBytes bytes)) := by
  have hin : j * direntSize + direntSize ≤ (s.copy k).size := by
    rw [h.size, ← Nat.succ_mul]
    exact Nat.mul_le_mul_right _ hj
  have hpos : 0 < direntSize := by decide
  refine (h.writei hl he hj.le).mono fun r t ht => ?_
  have hmiss : (s.copy k).missing s.disk.block (j * direntSize / bsize) = 0 :=
    if_pos (h.full.at (show j * direntSize < (s.copy k).size by omega)).2
  have hr : r = direntSize :=
    ht.1.mpr ⟨hin.trans h.full.size_le, by rw [hmiss]; exact Nat.zero_le _⟩
  refine ⟨hr, ?_⟩
  have hdir := ht.2
  rwa [if_pos hr, put, if_pos hj] at hdir

/-- A name is entered, unless it is there or there is no room for it. -/
theorem dirlink (h : Dir sb s c k d l) (hname : Name.Ok name) (hi : i < sb.ninodes) :
    Within (TableFull s) (Fs.dirlink sb k name i) s fun r t =>
      r = 0 ∧ inumOf l name = 0 ∧ ¬ NoRoom sb s k l ∧
          Dir sb t c k d (put l (vacancy l) ⟨i, name⟩) ∨
        r = -1 ∧ (inumOf l name ≠ 0 ∨ NoRoom sb s k l) ∧ Dir sb t c k d l := by
  unfold Fs.dirlink
  refine (h.dirlookup name).bind fun r t ht => ?_
  cases hfind : l.find? (named name) with
  | some e =>
    rw [hfind] at ht
    obtain ⟨ip, rfl, -, hdir⟩ := ht
    refine (hdir.iput h.mem).within.bind fun _ u hu => ?_
    refine within_pure (.inr ⟨rfl, .inl ?_, hu⟩)
    rw [inumOf, hfind]
    exact (named_iff.mp (List.find?_some hfind)).1
  | none =>
    rw [hfind] at ht
    obtain ⟨rfl, rfl⟩ := ht
    have hfresh : inumOf l name = 0 := by rw [inumOf, hfind]; rfl
    apply within_get_bind
    refine (h.scan_all "dirlink read" fun de => de.inum = 0).within.bind ?_
    rintro _ u ⟨rfl, rfl⟩
    have hofBytes := ofBytes_bytes (show i < 2 ^ 16 from lt_of_lt_of_le hi sb.ninodes_le) hname
    change Within _ (Fs.writei sb k _ (vacancy l * direntSize) direntSize >>= _) u _
    by_cases hvacant : vacancy l < l.length
    · have hnot : ¬ NoRoom sb u k l := fun hno => by
        obtain ⟨e, he, hzero⟩ := vacancy_lt.mp hvacant
        exact hno.1 e he hzero
      refine (h.overwrite (bytes_length _) (by rwa [hofBytes]) hvacant).within.bind ?_
      rintro r v ⟨rfl, hdir⟩
      rw [hofBytes] at hdir
      rw [if_neg (by simp)]
      refine within_pure (.inl ⟨rfl, hfresh, hnot, ?_⟩)
      rwa [put, if_pos hvacant]
    · have hend : vacancy l = l.length := le_antisymm vacancy_le (Nat.not_lt.mp hvacant)
      have hused : ∀ e ∈ l, e.inum ≠ 0 := fun e he hzero => hvacant (vacancy_lt.mpr ⟨e, he, hzero⟩)
      refine (h.writei (bytes_length _) (by rwa [hofBytes]) vacancy_le).within.bind ?_
      rintro r v ⟨hroom, hdir⟩
      rw [hofBytes] at hdir
      have hiff : r = direntSize ↔ ¬ NoRoom sb u k l := by
        rw [hroom, hend, ← h.size, NoRoom, not_and, not_or, Nat.not_lt, Nat.not_lt]
        exact ⟨fun hr _ => hr, fun hr => hr hused⟩
      by_cases hr : r = direntSize
      · rw [if_pos hr] at hdir
        rw [if_neg (by simpa using hr)]
        exact within_pure (.inl ⟨rfl, hfresh, hiff.mp hr, hdir⟩)
      · rw [if_neg hr] at hdir
        rw [if_pos hr]
        exact within_pure (.inr ⟨rfl, .inr (not_not.mp (mt hiff.mpr hr)), hdir⟩)

end Dir

end

/-! ## Histories of a directory -/

/-- What has happened to the names of a directory. -/
inductive Op where
  | link (name : List UInt8) (inum : ℕ)
  | remove (name : List UInt8)

/-- The inode number of the last link of the name, if the name has not been removed since,
and 0 otherwise. The last operation comes first. -/
def latest : List Op → List UInt8 → ℕ
  | [], _ => 0
  | .link n i :: ops, name => if cut n = cut name then i else latest ops name
  | .remove n :: ops, name => if cut n = cut name then 0 else latest ops name

/-- The entries of directory `d` after operations on it. Between them, and while the inode
of a name that is removed is looked at, anything else may happen in the file system. -/
inductive Built (sb : Superblock) (d : ℕ) : List Dirent → List Op → Prop where
  | new : Built sb d [] []
  | link {l : List Dirent} {ops : List Op} {s t : State} {c : Multiset ℕ} {k inum : ℕ}
      {name : List UInt8} (h : Built sb d l ops) (hs : Dir sb s c k d l)
      (hi : inum < sb.ninodes) (hrun : Raw.dirlink sb k name inum s = .ok (0, t)) :
      Built sb d ((t.copy k).entries t.disk.block) (.link name inum :: ops)
  | fail {l : List Dirent} {ops : List Op} {s t : State} {c : Multiset ℕ} {k inum : ℕ}
      {name : List UInt8} (h : Built sb d l ops) (hs : Dir sb s c k d l)
      (hi : inum < sb.ninodes) (hrun : Raw.dirlink sb k name inum s = .ok (-1, t)) :
      Built sb d ((t.copy k).entries t.disk.block) ops
  | remove {l : List Dirent} {ops : List Op} {s t u v : State} {c c' : Multiset ℕ}
      {k k' ip off : ℕ} {w : ℤ} {name : List UInt8} (h : Built sb d l ops)
      (hs : Dir sb s c k d l) (hlook : Raw.dirlookup sb k name s = .ok (some (ip, off), t))
      (hu : Dir sb u c' k' d l)
      (hrun : writei sb k' (ofList (List.replicate direntSize 0)) off direntSize u = .ok (w, v)) :
      Built sb d ((v.copy k').entries v.disk.block) (.remove name :: ops)

section

variable {sb : Superblock} {s t u : State} {c c' : Multiset ℕ} {k k' d i ip off : ℕ}
  {l : List Dirent} {ops : List Op} {name : List UInt8}

theorem Dir.found (h : Dir sb s c k d l)
    (hrun : Raw.dirlookup sb k name s = .ok (some (ip, off), t)) :
    ∃ j e, off = j * direntSize ∧ l[j]? = some e ∧ e.inum ≠ 0 ∧ e.name = cut name := by
  rw [Raw.dirlookup_eq] at hrun
  have hpost := (h.dirlookup (cut name)).of_ok hrun
  cases hfind : l.find? (named (cut name)) with
  | none =>
    rw [hfind] at hpost
    exact absurd hpost.1 (by simp)
  | some e =>
    rw [hfind] at hpost
    obtain ⟨ip', heq, -⟩ := hpost
    have hoff : off = l.findIdx (named (cut name)) * direntSize :=
      (Prod.mk.inj (Option.some.inj heq)).2
    have hlt : l.findIdx (named (cut name)) < l.length :=
      List.findIdx_lt_length_of_exists ⟨e, List.mem_of_find?_eq_some hfind, List.find?_some hfind⟩
    have hnamed := named_iff.mp (List.findIdx_getElem (w := hlt))
    exact ⟨_, _, hoff, List.getElem?_eq_getElem hlt, hnamed⟩

theorem Dir.remove (h : Dir sb s c k d l)
    (hrun : Raw.dirlookup sb k name s = .ok (some (ip, off), t)) (hu : Dir sb u c' k' d l)
    (hl : Distinct l) :
    Ensures (Fs.writei sb k' (ofList (List.replicate direntSize 0)) off direntSize) u
      fun w v => w = direntSize ∧ ∃ l', Dir sb v c' k' d l' ∧ Distinct l' ∧
        l'.length = l.length ∧
        ∀ x, inumOf l' (cut x) = if cut name = cut x then 0 else inumOf l (cut x) := by
  obtain ⟨j, e, rfl, hj, he, hname⟩ := h.found hrun
  have hlt := (List.getElem?_eq_some_iff.mp hj).1
  have hzero : (Dirent.ofBytes (List.replicate direntSize 0)).inum < sb.ninodes := by
    rw [ofBytes_zero]
    exact (Nat.zero_lt_one).trans sb.root_lt
  refine (hu.overwrite (by simp) hzero hlt).mono fun w v hv => ?_
  obtain ⟨hw, hdir⟩ := hv
  rw [ofBytes_zero] at hdir
  refine ⟨hw, _, hdir, hl.clear j, List.length_set, fun x => ?_⟩
  rw [inumOf_clear hl hj he, hname]

theorem Dir.link (h : Dir sb s c k d l) (hl : Distinct l) (hi : i < sb.ninodes) :
    Within (TableFull s) (Raw.dirlink sb k name i) s fun r t =>
      (r = 0 ∨ r = -1) ∧ (r = -1 ↔ inumOf l (cut name) ≠ 0 ∨ NoRoom sb s k l) ∧
      ∃ l', Dir sb t c k d l' ∧ Distinct l' ∧ (r = -1 → l' = l) ∧
        (r = 0 → l' = put l (vacancy l) ⟨i, cut name⟩ ∧
          ∀ x, inumOf l' (cut x) = if cut name = cut x then i else inumOf l (cut x)) := by
  rw [Raw.dirlink_eq]
  refine (h.dirlink (cut_ok name) hi).mono fun r t ht => ?_
  rcases ht with ⟨rfl, hfresh, hroom, hdir⟩ | ⟨rfl, hwhy, hdir⟩
  · refine ⟨.inl rfl, iff_of_false (by decide) ?_, _, hdir, hl.enter hfresh, by simp,
      fun _ => ⟨rfl, fun x => inumOf_enter hl hfresh⟩⟩
    exact fun hwhy => hwhy.elim (fun hne => hne hfresh) hroom
  · exact ⟨.inr rfl, iff_of_true rfl hwhy, l, hdir, hl, fun _ => rfl, by simp⟩

/-- The entries are a map, and it is the one that the operations have made. -/
theorem Built.map (h : Built sb d l ops) :
    Distinct l ∧ ∀ name, inumOf l (cut name) = latest ops name := by
  induction h with
  | new => exact ⟨fun i j e f hi => by simp at hi, fun name => rfl⟩
  | link h hs hi hrun ih =>
    obtain ⟨-, -, l', hdir, hl, -, hput⟩ := (hs.link ih.1 hi).of_ok hrun
    rw [hdir.entries]
    refine ⟨hl, fun x => ?_⟩
    rw [(hput rfl).2 x, ih.2 x]
    rfl
  | fail h hs hi hrun ih =>
    obtain ⟨-, -, l', hdir, hl, hsame, -⟩ := (hs.link ih.1 hi).of_ok hrun
    rw [hdir.entries, hsame rfl]
    exact ih
  | remove h hs hlook hu hrun ih =>
    obtain ⟨-, l', hdir, hl, -, hmap⟩ := (hs.remove hlook hu ih.1).of_ok hrun
    rw [hdir.entries]
    refine ⟨hl, fun x => ?_⟩
    rw [hmap x, ih.2 x]
    rfl

/-- A directory is a map from names of fourteen bytes. A lookup gives the number of the
last link of the name that has not been removed. A link fails exactly when the name is
there or there is no room; it takes the first unused entry and makes the directory longer
only if there is none. Links and removals leave all other names alone, and no name has two
entries. -/
theorem directory_map (h : Built sb d l ops) (hs : Dir sb s c k d l) :
    Distinct l ∧
    (∀ name, Within (TableFull s) (Raw.dirlookup sb k name) s fun r t =>
      (match r with
        | some (ip, _) => (t.itable ip).inum = latest ops name ∧ latest ops name ≠ 0 ∧
            Dir sb t (ip ::ₘ c) k d l
        | none => latest ops name = 0 ∧ t = s)) ∧
    (∀ name i, i < sb.ninodes → Within (TableFull s) (Raw.dirlink sb k name i) s fun r t =>
      (r = 0 ∨ r = -1) ∧ (r = -1 ↔ latest ops name ≠ 0 ∨ NoRoom sb s k l) ∧
      ∃ l', Dir sb t c k d l' ∧ Distinct l' ∧ (r = -1 → l' = l) ∧
        (r = 0 → l' = put l (vacancy l) ⟨i, cut name⟩ ∧
          ((∃ e ∈ l, e.inum = 0) → l'.length = l.length) ∧
          ∀ x, inumOf l' (cut x) = if cut name = cut x then i else inumOf l (cut x))) ∧
    (∀ name ip off t, Raw.dirlookup sb k name s = .ok (some (ip, off), t) →
      ∀ u c' k', Dir sb u c' k' d l →
      Ensures (writei sb k' (ofList (List.replicate direntSize 0)) off direntSize) u fun w v =>
        w = direntSize ∧ ∃ l', Dir sb v c' k' d l' ∧ Distinct l' ∧ l'.length = l.length ∧
          ∀ x, inumOf l' (cut x) = if cut name = cut x then 0 else inumOf l (cut x)) := by
  obtain ⟨hl, hmap⟩ := h.map
  refine ⟨hl, fun name => ?_, fun name i hi => ?_, fun name ip off t hrun u c' k' hu =>
    hs.remove hrun hu hl⟩
  · rw [Raw.dirlookup_eq]
    refine (hs.dirlookup (cut name)).mono fun r t ht => ?_
    have hlatest := hmap name
    unfold inumOf at hlatest
    cases hfind : l.find? (named (cut name)) with
    | none =>
      rw [hfind] at ht hlatest
      obtain ⟨rfl, rfl⟩ := ht
      exact ⟨hlatest.symm, rfl⟩
    | some e =>
      rw [hfind] at ht hlatest
      obtain ⟨ip, rfl, hinum, hdir⟩ := ht
      have hne := (named_iff.mp (List.find?_some hfind)).1
      have heq : e.inum = latest ops name := hlatest
      exact ⟨hinum.trans heq, heq ▸ hne, hdir⟩
  · refine (hs.link hl hi).mono fun r t ht => ?_
    obtain ⟨hr, hfail, l', hdir, hl', hsame, hput⟩ := ht
    rw [hmap name] at hfail
    refine ⟨hr, hfail, l', hdir, hl', hsame, fun hzero => ?_⟩
    obtain ⟨rfl, hother⟩ := hput hzero
    refine ⟨rfl, fun hfree => ?_, hother⟩
    rw [put, if_pos (vacancy_lt.mpr hfree), List.length_set]

end

/-- The file system with an empty root directory, locked in a transaction. -/
def emptyDir : State :=
  ((mount (rootImage 0)).setInode 0 fun e =>
    { e with valid := true, copy := (rootImage 0).dinode rootino }).begun

theorem rootImage_whole : (rootImage 0).Whole layout where
  owned := rootImage_ledger
  full i _ hi := by
    by_cases hroot : i = rootino
    · subst hroot
      exact ⟨by decide, fun bn hbn => absurd hbn (Nat.not_lt_zero _)⟩
    · rw [rootImage_free hroot] at hi
      exact absurd rfl hi
  range i e he := by
    by_cases hroot : i = rootino
    · subst hroot
      have hnone : (nodes layout (rootImage 0) rootino).ents = [] := by decide +kernel
      rw [hnone] at he
      cases he
    · rw [rootImage_nodes_free hroot] at he
      cases he

theorem emptyDir_dir : Dir layout emptyDir {0} 0 rootino [] := by
  have hmount := (rootImage_whole.mount (fun hs : False => hs.elim) fun hs => hs.elim).inv_refs
  rw [refs_mount] at hmount
  have hlock := (ilock_spec hmount.begun (Multiset.mem_singleton_self 0)).of_ok
    (show ilock 0 (mount (rootImage 0)).begun = .ok ((), emptyDir) from rfl)
  exact ⟨hlock.1, Multiset.mem_singleton_self 0, rfl, rfl, rfl, rfl, rfl⟩

/-- A name of fifteen bytes is found under its first fourteen. -/
theorem directory_map_long : ∃ t,
    Raw.dirlink layout 0 (List.replicate 15 97) 5 emptyDir = .ok (0, t) ∧
    Within (TableFull t) (Raw.dirlookup layout 0 (List.replicate 14 97)) t fun r u =>
      ∃ ip off, r = some (ip, off) ∧ (u.itable ip).inum = 5 := by
  obtain ⟨-, t, hrun, rfl⟩ : Ensures (Raw.dirlink layout 0 (List.replicate 15 97) 5) emptyDir
      fun r _ => r = 0 := by decide +kernel
  have hi : 5 < layout.ninodes := by decide
  have hbuilt := Built.new.link emptyDir_dir hi hrun
  obtain ⟨-, -, l', hdir, -⟩ := ((directory_map Built.new emptyDir_dir).2.2.1 _ 5 hi).of_ok hrun
  rw [hdir.entries] at hbuilt
  refine ⟨t, hrun, ((directory_map hbuilt hdir).2.1 _).mono fun r u hr => ?_⟩
  have hlatest : latest [.link (List.replicate 15 97) 5] (List.replicate 14 97) = 5 := by decide
  rw [hlatest] at hr
  cases r with
  | none => exact absurd hr.1 (by decide)
  | some r => exact ⟨r.1, r.2, rfl, hr.1⟩

end Xv6.Fs
