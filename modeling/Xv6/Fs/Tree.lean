import Xv6.Fs.Dirs

/-!
# The directory tree

The file system as a graph of nodes. In a consistent one every link count is exact,
every linked directory has its `.` and `..`, and every linked directory but the root
has one name, in the directory that its `..` names. The operations on nodes keep a
file system consistent.
-/

namespace Xv6.Fs

open Bag Function

/-- An allocated node with links. -/
def Node.live (m : Node) : Prop := m.type ≠ .none ∧ 0 < m.nlink

def Node.liveDir (m : Node) : Prop := m.type = .dir ∧ 0 < m.nlink

instance (m : Node) : Decidable m.liveDir := inferInstanceAs (Decidable (_ ∧ _))

theorem Node.liveDir.live {m : Node} (h : m.liveDir) : m.live :=
  ⟨by rw [h.1]; decide, h.2⟩

/-- The number of entries of a linked directory that name `x`, `.` not counted. -/
def Node.names (m : Node) (x : ℕ) : ℕ :=
  if m.liveDir then m.ents.countP fun e => e.inum = x ∧ e.name ≠ dot else 0

/-- The number of names of inode `x` in linked directories. -/
def links (n : ℕ) (N : ℕ → Node) (x : ℕ) : ℕ := total n fun i => (N i).names x

/-- What `..` names. -/
def Node.up (m : Node) : ℕ := (m.ents.getD 1 ⟨0, []⟩).inum

/-- The number of entries after `.` and `..` that name `x`. -/
def Node.kids (m : Node) (x : ℕ) : ℕ := (m.ents.drop 2).countP fun e => e.inum = x

/-- The directory `i` starts with `.` and `..`, and has no other entries of these names. -/
def Node.Dots (m : Node) (i : ℕ) : Prop :=
  ∃ rest, m.ents = ⟨i, dot⟩ :: ⟨m.up, dotdot⟩ :: rest ∧
    ∀ e ∈ rest, e.inum ≠ 0 → e.name ≠ dot ∧ e.name ≠ dotdot

/-- A consistent file system with inode numbers below `n`. -/
structure Tree (n : ℕ) (N : ℕ → Node) : Prop where
  free : ∀ i, (N i).type = .none → N i = Node.free
  outside : ∀ i, n ≤ i → N i = Node.free
  zero : N 0 = Node.free
  plain : ∀ i, (N i).type ≠ .dir → (N i).ents = []
  short : ∀ i, (N i).nlink < 2 ^ 15
  root : (N rootino).liveDir
  count : ∀ i, i ≠ 0 → (N i).nlink = links n N i
  dots : ∀ i, (N i).liveDir → (N i).Dots i
  up : ∀ i, (N i).liveDir → (N (N i).up).liveDir
  top : (N rootino).up = rootino
  home : ∀ d x, (N d).liveDir → (N x).liveDir → 0 < (N d).kids x → x ≠ rootino ∧ (N x).up = d
  once : ∀ x, (N x).liveDir → x ≠ rootino → (N (N x).up).kids x = 1

/-! ## Changing an entry -/

section

variable {l : List Dirent} {p : Dirent → Bool} {e z : Dirent} {j : ℕ}

theorem countP_put_vacant (hz : ∀ e, e.inum = 0 → p e = false) (hj : Vacant l j) :
    (put l j e).countP p = l.countP p + if p e then 1 else 0 := by
  unfold put
  split
  · rename_i hlt
    rcases hj with rfl | ⟨e', he', hzero⟩
    · omega
    · have hold : p l[j] = false := by
        have := List.getElem?_eq_some_iff.mp he'
        obtain ⟨_, rfl⟩ := this
        exact hz _ hzero
      rw [List.countP_set hlt, hold]
      simp
  · simp [List.countP_append, List.countP_singleton]

theorem countP_put_entry (hl : l[j]? = some e) (hz : p z = false) :
    (put l j z).countP p + (if p e then 1 else 0) = l.countP p := by
  obtain ⟨hlt, rfl⟩ := List.getElem?_eq_some_iff.mp hl
  unfold put
  rw [if_pos hlt, List.countP_set hlt, hz]
  have hpos : p l[j] = true → 0 < l.countP p := fun hp =>
    List.countP_pos_iff.mpr ⟨l[j], List.getElem_mem hlt, hp⟩
  split
  · rename_i hp
    have := hpos hp
    simp
    omega
  · simp

theorem drop_put (hlen : 2 ≤ l.length) (hj : 2 ≤ j) :
    (put l j e).drop 2 = put (l.drop 2) (j - 2) e := by
  unfold put
  by_cases h : j < l.length
  · rw [if_pos h, if_pos (by simp; omega), List.drop_set, if_neg (by omega)]
  · rw [if_neg h, if_neg (by simp; omega), List.drop_append_of_le_length hlen]

theorem vacant_drop (hj : 2 ≤ j) (h : Vacant l j) :
    Vacant (l.drop 2) (j - 2) := by
  rcases h with rfl | ⟨e', he', hzero⟩
  · exact .inl (by simp)
  · refine .inr ⟨e', ?_, hzero⟩
    rw [List.getElem?_drop, Nat.add_sub_cancel' hj]
    exact he'

theorem mem_put (h : z ∈ put l j e) : z = e ∨ z ∈ l := by
  unfold put at h
  split at h
  · exact (List.mem_or_eq_of_mem_set h).symm
  · rcases List.mem_append.mp h with h | h
    · exact .inr h
    · exact .inl (List.mem_singleton.mp h)

end

section

variable {m w : Node} {d j x : ℕ} {e : Dirent}

theorem Node.Dots.length (h : m.Dots d) : 2 ≤ m.ents.length := by
  obtain ⟨rest, hents, -⟩ := h
  simp [hents]

theorem Node.Dots.two_le (h : m.Dots d) (hd : d ≠ 0) (hup : m.up ≠ 0) (hj : Vacant m.ents j) :
    2 ≤ j := by
  obtain ⟨rest, hents, -⟩ := h
  rcases hj with rfl | ⟨e, he, hzero⟩
  · simp [hents]
  · rw [hents] at he
    match j, he with
    | 0, he =>
      simp only [List.getElem?_cons_zero, Option.some.injEq] at he
      subst he
      exact absurd hzero hd
    | 1, he =>
      simp only [List.getElem?_cons_succ, List.getElem?_cons_zero, Option.some.injEq] at he
      subst he
      exact absurd hzero hup
    | j + 2, _ => omega

theorem Node.Dots.put (h : m.Dots d) (hj : 2 ≤ j) (hents : w.ents = Fs.put m.ents j e)
    (he : e.inum ≠ 0 → e.name ≠ dot ∧ e.name ≠ dotdot) : w.Dots d ∧ w.up = m.up := by
  have hlen := h.length
  obtain ⟨rest, hold, hnames⟩ := h
  obtain ⟨j, rfl⟩ := Nat.exists_eq_add_of_le' hj
  have hnew : w.ents = ⟨d, dot⟩ :: ⟨m.up, dotdot⟩ :: Fs.put rest j e := by
    rw [hents, hold]
    unfold Fs.put
    by_cases hlt : j < rest.length
    · rw [if_pos (by simpa using hlt), if_pos hlt]
      rfl
    · rw [if_neg (by simpa using hlt), if_neg hlt]
      rfl
  have hup : w.up = m.up := by simp [Node.up, hnew]
  refine ⟨⟨Fs.put rest j e, by rw [hnew, hup], fun e' he' hne => ?_⟩, hup⟩
  rcases mem_put he' with rfl | he'
  · exact he hne
  · exact hnames e' he' hne

theorem kids_put_vacant (h : m.Dots d) (hj : 2 ≤ j) (hv : Vacant m.ents j)
    (hents : w.ents = put m.ents j e) (hx : x ≠ 0) :
    w.kids x = m.kids x + if e.inum = x then 1 else 0 := by
  unfold Node.kids
  rw [hents, drop_put h.length hj,
    countP_put_vacant (fun e he => by simpa [he] using Ne.symm hx) (vacant_drop hj hv)]
  simp

theorem kids_put_entry (h : m.Dots d) (hj : 2 ≤ j) (he : m.ents[j]? = some e)
    (hents : w.ents = put m.ents j ⟨0, []⟩) (hx : x ≠ 0) :
    w.kids x + (if e.inum = x then 1 else 0) = m.kids x := by
  have he' : (m.ents.drop 2)[j - 2]? = some e := by
    rw [List.getElem?_drop, Nat.add_sub_cancel' hj]
    exact he
  unfold Node.kids
  rw [hents, drop_put h.length hj]
  simpa using countP_put_entry (p := fun e => decide (e.inum = x)) (z := ⟨0, []⟩) he'
    (by simpa using Ne.symm hx)

theorem names_liveDir (hm : m.liveDir) (h : m.Dots d) (hx : x ≠ 0) :
    m.names x = (if m.up = x then 1 else 0) + m.kids x := by
  obtain ⟨rest, hents, hnames⟩ := h
  have hrest : rest.countP (fun e => decide (e.inum = x ∧ e.name ≠ dot)) =
      rest.countP fun e => decide (e.inum = x) := by
    refine List.countP_congr fun e he => ?_
    simp only [decide_eq_true_eq, and_iff_left_iff_imp]
    rintro rfl
    exact (hnames e he hx).1
  have hkids : m.kids x = rest.countP fun e => decide (e.inum = x) := by
    unfold Node.kids
    rw [hents]
    rfl
  unfold Node.names
  rw [if_pos hm, hkids, ← hrest]
  nth_rewrite 1 [hents]
  rw [List.countP_cons, List.countP_cons]
  simp [dot, dotdot]
  omega

theorem names_of_not (hm : ¬ m.liveDir) : m.names x = 0 := if_neg hm

end

/-! ## Facts about a consistent file system -/

section

variable {n : ℕ} {N : ℕ → Node} {i d j x : ℕ} {m X Y : Node} {e : Dirent}

theorem free_not_liveDir : ¬ Node.free.liveDir := by decide

theorem Tree.lt (h : Tree n N) (hd : (N d).liveDir) : d < n := by
  by_contra hle
  rw [h.outside d (Nat.not_lt.mp hle)] at hd
  exact free_not_liveDir hd

theorem Tree.ne_zero (h : Tree n N) (hd : (N d).liveDir) : d ≠ 0 := by
  rintro rfl
  rw [h.zero] at hd
  exact free_not_liveDir hd

theorem Tree.live_of_linked (h : Tree n N) (hi : 0 < (N i).nlink) : (N i).live := by
  refine ⟨fun htype => ?_, hi⟩
  rw [h.free i htype] at hi
  exact absurd hi (by decide)

theorem Tree.names_le (h : Tree n N) (hd : (N d).liveDir) (hx : x ≠ 0) :
    ((N d).names x : ℤ) ≤ (N x).nlink := by
  obtain ⟨rest, hrest⟩ := total_split (fun i => (N i).names x) (h.lt hd)
  rw [h.count x hx, links, hrest]
  omega

theorem Tree.next (h : Tree n N) (hi : (N i).live) (he : e ∈ (N i).ents) (hne : e.inum ≠ 0) :
    (N e.inum).live := by
  by_cases hdir : (N i).type = .dir
  · have hlive : (N i).liveDir := ⟨hdir, hi.2⟩
    obtain ⟨rest, hents, hnames⟩ := h.dots i hlive
    by_cases hname : e.name = dot
    · -- only the first entry has the name `.`
      rw [hents] at he
      rcases List.mem_cons.mp he with rfl | he
      · exact hi
      · rcases List.mem_cons.mp he with rfl | he
        · exact absurd hname (by simp [dot, dotdot])
        · exact absurd hname (hnames e he hne).1
    · have hpos : 0 < (N i).names e.inum := by
        unfold Node.names
        rw [if_pos hlive]
        exact List.countP_pos_iff.mpr ⟨e, he, by simpa using hname⟩
      have := h.names_le hlive hne
      exact h.live_of_linked (by omega)
  · rw [h.plain i hdir] at he
    cases he

theorem links_update (hi : i < n) (X : Node) (x : ℕ) :
    links n (update N i X) x + (N i).names x = links n N x + X.names x :=
  total_update N (fun _ m => m.names x) hi X

theorem links_update_two (hi : i < n) (hd : d < n) (hne : d ≠ i) (x : ℕ) :
    links n (update (update N i X) d Y) x + ((N i).names x + (N d).names x) =
      links n N x + (X.names x + Y.names x) := by
  have hone := links_update (N := N) hi X x
  have htwo := links_update (N := update N i X) hd Y x
  rw [update_of_ne hne] at htwo
  omega

/-! ## Operations on nodes -/

/-- A node as the disk can represent it. -/
def Node.Proper (m : Node) : Prop :=
  (m.type = .none → m = Node.free) ∧ (m.type ≠ .dir → m.ents = []) ∧ m.nlink < 2 ^ 15

theorem Tree.drop (h : Tree n N) (hi : i < n) (hi0 : i ≠ 0) (hold : (N i).nlink = 0)
    (hnew : X.nlink = 0) (hX : X.Proper) : Tree n (update N i X) := by
  have hdead : ¬ (N i).liveDir := fun hl => by have := hl.2; omega
  have hdead' : ¬ X.liveDir := fun hl => by have := hl.2; omega
  have hlive : ∀ x, (update N i X x).liveDir → x ≠ i ∧ (N x).liveDir := by
    intro x hx
    by_cases hxi : x = i
    · subst hxi
      rw [update_self] at hx
      exact absurd hx hdead'
    · rw [update_of_ne hxi] at hx
      exact ⟨hxi, hx⟩
  have hne : ∀ x, (N x).liveDir → x ≠ i := by
    rintro x hx rfl
    exact hdead hx
  have hlinks : ∀ x, links n (update N i X) x = links n N x := by
    intro x
    have := links_update (N := N) hi X x
    rw [names_of_not hdead, names_of_not hdead'] at this
    omega
  have hcases : ∀ {P : ℕ → Node → Prop}, P i X → (∀ x, P x (N x)) →
      ∀ x, P x (update N i X x) := by
    intro P hPi hP x
    by_cases hxi : x = i
    · subst hxi
      rwa [update_self]
    · rw [update_of_ne hxi]
      exact hP x
  constructor
  · exact hcases (P := fun _ m => m.type = .none → m = Node.free) hX.1 h.free
  · intro x hx
    rw [update_of_ne (by omega)]
    exact h.outside x hx
  · rw [update_of_ne hi0.symm]
    exact h.zero
  · exact hcases (P := fun _ m => m.type ≠ .dir → m.ents = []) hX.2.1 h.plain
  · exact hcases (P := fun _ m => m.nlink < 2 ^ 15) hX.2.2 h.short
  · rw [update_of_ne (hne _ h.root)]
    exact h.root
  · intro x hx
    rw [hlinks, ← h.count x hx]
    by_cases hxi : x = i
    · subst hxi
      rw [update_self, hnew, hold]
    · rw [update_of_ne hxi]
  · intro x hx
    obtain ⟨hxi, hx⟩ := hlive x hx
    rw [update_of_ne hxi]
    exact h.dots x hx
  · intro x hx
    obtain ⟨hxi, hx⟩ := hlive x hx
    have hup := h.up x hx
    rwa [update_of_ne hxi, update_of_ne (hne _ hup)]
  · rw [update_of_ne (hne _ h.root)]
    exact h.top
  · intro a x ha hx hkid
    obtain ⟨hai, ha⟩ := hlive a ha
    obtain ⟨hxi, hx⟩ := hlive x hx
    rw [update_of_ne hai] at hkid
    rw [update_of_ne hxi]
    exact h.home a x ha hx hkid
  · intro x hx hroot
    obtain ⟨hxi, hx⟩ := hlive x hx
    rw [update_of_ne hxi, update_of_ne (hne _ (h.up x hx))]
    exact h.once x hx hroot

/-- The nodes `i` and `d` change: a name of `i` is entered in or removed from the
directory `d`, and `i` may become a linked directory without entries of its own, or
cease to be one. -/
structure Renamed (N : ℕ → Node) (i d : ℕ) (X Y : Node) : Prop where
  ne : d ≠ i
  dir : (N d).liveDir
  live : Y.liveDir
  dots : Y.Dots d
  up : Y.up = (N d).up
  kids : ∀ x, x ≠ 0 → x ≠ i → Y.kids x = (N d).kids x
  nlink : Y.nlink + (if (N i).liveDir then 1 else 0) =
    (N d).nlink + if X.liveDir then 1 else 0
  count : X.nlink + (N d).kids i = (N i).nlink + Y.kids i
  old : (N i).liveDir → (N i).up = d ∧ ∀ x, x ≠ 0 → (N i).kids x = 0
  new : X.liveDir → X.Dots i ∧ X.up = d ∧ (∀ x, x ≠ 0 → X.kids x = 0) ∧ Y.kids i = 1 ∧
    (N i).nlink = 0

theorem Tree.kids_le (h : Tree n N) (hd : (N d).liveDir) (hx : x ≠ 0) :
    ((N d).kids x : ℤ) ≤ (N x).nlink := by
  have hle := h.names_le hd hx
  rw [names_liveDir hd (h.dots d hd) hx] at hle
  omega

theorem Tree.up_ne (h : Tree n N) (hi : i ≠ rootino) (hempty : ∀ x, x ≠ 0 → (N i).kids x = 0)
    (hx : (N x).liveDir) : (N x).up ≠ i := by
  intro hup
  by_cases hroot : x = rootino
  · rw [hroot, h.top] at hup
    exact hi hup.symm
  · have := h.once x hx hroot
    rw [hup, hempty x (h.ne_zero hx)] at this
    omega

theorem Tree.renamed (h : Tree n N) (hi : i < n) (hi0 : i ≠ 0) (hr : Renamed N i d X Y)
    (hX : X.Proper) (hshort : Y.nlink < 2 ^ 15) :
    Tree n (update (update N i X) d Y) := by
  have hdi := hr.ne
  have hd := hr.dir
  generalize hN' : update (update N i X) d Y = N'
  have hNd : N' d = Y := by rw [← hN', update_self]
  have hNi : N' i = X := by rw [← hN', update_of_ne hdi.symm, update_self]
  have hNx : ∀ x, x ≠ d → x ≠ i → N' x = N x := by
    intro x hxd hxi
    rw [← hN', update_of_ne hxd, update_of_ne hxi]
  have hiroot : i ≠ rootino := by
    rintro rfl
    have hup := (hr.old h.root).1
    rw [h.top] at hup
    exact hdi hup.symm
  -- the linked directories other than `i`, and what their `..` names, are the same
  have hlive : ∀ x, x ≠ i → ((N' x).liveDir ↔ (N x).liveDir) ∧ (N' x).up = (N x).up := by
    intro x hxi
    by_cases hxd : x = d
    · rw [hxd, hNd]
      exact ⟨⟨fun _ => hd, fun _ => hr.live⟩, hr.up⟩
    · rw [hNx x hxd hxi]
      exact ⟨Iff.rfl, rfl⟩
  have hkids : ∀ a x, a ≠ i → x ≠ 0 → x ≠ i → (N' a).kids x = (N a).kids x := by
    intro a x hai hx hxi
    by_cases had : a = d
    · rw [had, hNd, hr.kids x hx hxi]
    · rw [hNx a had hai]
  have hbelow : ∀ x, x ≠ i → (N x).liveDir → (N x).up ≠ i := by
    intro x _ hx
    by_cases hold : (N i).liveDir
    · exact h.up_ne hiroot (hr.old hold).2 hx
    · intro hup
      exact hold (hup ▸ h.up x hx)
  constructor
  · intro x hx
    by_cases hxi : x = i
    · rw [hxi, hNi] at hx ⊢
      exact hX.1 hx
    · by_cases hxd : x = d
      · rw [hxd, hNd, hr.live.1] at hx
        cases hx
      · rw [hNx x hxd hxi] at hx ⊢
        exact h.free x hx
  · intro x hx
    have := h.lt hd
    rw [hNx x (by omega) (by omega)]
    exact h.outside x hx
  · rw [hNx 0 (h.ne_zero hd).symm hi0.symm]
    exact h.zero
  · intro x hx
    by_cases hxi : x = i
    · rw [hxi, hNi] at hx ⊢
      exact hX.2.1 hx
    · by_cases hxd : x = d
      · rw [hxd, hNd] at hx
        exact absurd hr.live.1 hx
      · rw [hNx x hxd hxi] at hx ⊢
        exact h.plain x hx
  · intro x
    by_cases hxi : x = i
    · rw [hxi, hNi]
      exact hX.2.2
    · by_cases hxd : x = d
      · rw [hxd, hNd]
        exact hshort
      · rw [hNx x hxd hxi]
        exact h.short x
  · exact (hlive _ hiroot.symm).1.mpr h.root
  · intro x hx
    have hlinks := links_update_two (N := N) (X := X) (Y := Y) hi (h.lt hd) hdi x
    have hnamesX : X.names x = if X.liveDir ∧ d = x then 1 else 0 := by
      by_cases hlX : X.liveDir
      · obtain ⟨hdots, hup, hzero, -⟩ := hr.new hlX
        rw [names_liveDir hlX hdots hx, hup, hzero x hx]
        simp [hlX]
      · rw [names_of_not hlX, if_neg fun hc => hlX hc.1]
    have hnamesI : (N i).names x = if (N i).liveDir ∧ d = x then 1 else 0 := by
      by_cases hlI : (N i).liveDir
      · obtain ⟨hup, hzero⟩ := hr.old hlI
        rw [names_liveDir hlI (h.dots i hlI) hx, hup, hzero x hx]
        simp [hlI]
      · rw [names_of_not hlI, if_neg fun hc => hlI hc.1]
    rw [hN', names_liveDir hd (h.dots d hd) hx, names_liveDir hr.live hr.dots hx,
      hr.up] at hlinks
    have hcountx := h.count x hx
    by_cases hxi : x = i
    · subst hxi
      have hcount := hr.count
      rw [if_neg fun hc => hdi hc.2] at hnamesX hnamesI
      rw [hNi]
      omega
    · rw [hr.kids x hx hxi] at hlinks
      by_cases hxd : x = d
      · subst hxd
        have hnlink := hr.nlink
        rw [hNd]
        simp only [and_true] at hnamesX hnamesI
        split at hnlink <;> split at hnlink <;> simp only [*, if_true, if_false] at * <;> omega
      · rw [if_neg fun hc => hxd hc.2.symm] at hnamesX hnamesI
        rw [hNx x hxd hxi]
        omega
  · intro x hx
    by_cases hxi : x = i
    · rw [hxi, hNi] at hx ⊢
      exact (hr.new hx).1
    · have hx' := (hlive x hxi).1.mp hx
      by_cases hxd : x = d
      · rw [hxd, hNd]
        exact hr.dots
      · rw [hNx x hxd hxi]
        exact h.dots x hx'
  · intro x hx
    by_cases hxi : x = i
    · rw [hxi, hNi] at hx ⊢
      rw [(hr.new hx).2.1, hNd]
      exact hr.live
    · have hx' := (hlive x hxi).1.mp hx
      rw [(hlive x hxi).2]
      exact (hlive _ (hbelow x hxi hx')).1.mpr (h.up x hx')
  · rw [(hlive _ hiroot.symm).2]
    exact h.top
  · intro a x ha hx hkid
    by_cases hai : a = i
    · rw [hai, hNi] at ha hkid
      have hx0 : x ≠ 0 := by
        rintro rfl
        rw [hNx 0 (h.ne_zero hd).symm hi0.symm, h.zero] at hx
        exact free_not_liveDir hx
      rw [(hr.new ha).2.2.1 x hx0] at hkid
      omega
    · have ha' := (hlive a hai).1.mp ha
      by_cases hxi : x = i
      · rw [hxi, hNi] at hx
        rw [hxi] at hkid ⊢
        refine ⟨hiroot, ?_⟩
        rw [hNi, (hr.new hx).2.1]
        by_contra had
        -- another directory has no name of the inode, which had no links
        rw [hNx a (Ne.symm had) hai] at hkid
        have hle := h.kids_le ha' hi0
        rw [(hr.new hx).2.2.2.2] at hle
        omega
      · have hx' := (hlive x hxi).1.mp hx
        rw [hkids a x hai (h.ne_zero hx') hxi] at hkid
        rw [(hlive x hxi).2]
        exact h.home a x ha' hx' hkid
  · intro x hx hroot
    by_cases hxi : x = i
    · rw [hxi, hNi] at hx ⊢
      rw [(hr.new hx).2.1, hNd]
      exact (hr.new hx).2.2.2.1
    · have hx' := (hlive x hxi).1.mp hx
      rw [(hlive x hxi).2, hkids _ x (hbelow x hxi hx') (h.ne_zero hx') hxi]
      exact h.once x hx' hroot

/-! ## What the calls do to the nodes -/

def Node.enter (m : Node) (j : ℕ) (e : Dirent) : Node := { m with ents := put m.ents j e }

def Node.link (m : Node) (k : ℤ) : Node := { m with nlink := int16 (m.nlink + k) }

/-- A place for a new name in a directory of the set `P`. -/
structure Slot (P : ℕ → Prop) (N : ℕ → Node) (d j : ℕ) (name : Name) : Prop where
  mem : P d
  dir : (N d).type = .dir
  fresh : ∀ e ∈ (N d).ents, e.inum ≠ 0 → e.name ≠ name
  vacant : Vacant (N d).ents j

/-- A new inode `i` below the directory `d`. -/
def Node.born (type : FileType) (i d : ℕ) : Node :=
  ⟨type, 1, if type = .dir then [⟨i, dot⟩, ⟨d, dotdot⟩] else []⟩

def Created (n : ℕ) (P : ℕ → Prop) (type : FileType) (N N' : ℕ → Node) : Prop :=
  ∃ d i j name, Slot P N d j name ∧ i ≠ 0 ∧ i < n ∧ N i = Node.free ∧
    N' = update (update N i (Node.born type i d)) d
      (if type = .dir then ((N d).enter j ⟨i, name⟩).link 1 else (N d).enter j ⟨i, name⟩)

def Linked (P : ℕ → Prop) (N N' : ℕ → Node) : Prop :=
  ∃ d i j name, Slot P N d j name ∧ P i ∧ (N i).type ≠ .dir ∧
    N' = update (update N i ((N i).link 1)) d ((N d).enter j ⟨i, name⟩)

/-- The node may be freed if it has no links. -/
def MayFree (i : ℕ) (N N' : ℕ → Node) : Prop :=
  N' = N ∨ (N i).nlink = 0 ∧ N' = update N i Node.free

def Unlinked (P : ℕ → Prop) (N N' : ℕ → Node) : Prop :=
  ∃ d j e M, P d ∧ (N d).type = .dir ∧ (N d).ents[j]? = some e ∧ e.inum ≠ 0 ∧ e.name ≠ dot ∧
    e.name ≠ dotdot ∧ 1 ≤ (N e.inum).nlink ∧
    ((N e.inum).type = .dir → ∀ e' ∈ (N e.inum).ents.drop 2, e'.inum = 0) ∧
    MayFree d (update N d (if (N e.inum).type = .dir
      then ((N d).enter j ⟨0, []⟩).link (-1) else (N d).enter j ⟨0, []⟩)) M ∧
    MayFree e.inum (update M e.inum ((M e.inum).link (-1))) N'

theorem int16_eq {k : ℤ} (h : 0 ≤ k) (h' : k < 2 ^ 15) : int16 k = k := by
  unfold int16
  omega

theorem Tree.up_ne_zero (h : Tree n N) (hd : (N d).liveDir) : (N d).up ≠ 0 :=
  h.ne_zero (h.up d hd)

theorem Tree.mayFree (h : Tree n N) (hi : i < n) {N' : ℕ → Node} (hfree : MayFree i N N') :
    Tree n N' := by
  rcases hfree with rfl | ⟨hzero, rfl⟩
  · exact h
  · by_cases hi0 : i = 0
    · rwa [hi0, ← h.zero, update_eq_self]
    · exact h.drop hi hi0 hzero rfl ⟨fun _ => rfl, fun _ => rfl, by decide⟩

/-- A fresh name of a linked directory is neither `.` nor `..`, and goes after them. -/
theorem Tree.slot (h : Tree n N) {P : ℕ → Prop} (hP : ∀ d, P d → (N d).live) {name : Name}
    (hs : Slot P N d j name) :
    (N d).liveDir ∧ 2 ≤ j ∧ name ≠ dot ∧ name ≠ dotdot := by
  have hd : (N d).liveDir := ⟨hs.dir, (hP d hs.mem).2⟩
  have hdots := h.dots d hd
  refine ⟨hd, hdots.two_le (h.ne_zero hd) (h.up_ne_zero hd) hs.vacant, ?_, ?_⟩
  · rintro rfl
    obtain ⟨rest, hents, -⟩ := hdots
    exact hs.fresh ⟨d, dot⟩ (by simp [hents]) (h.ne_zero hd) rfl
  · rintro rfl
    obtain ⟨rest, hents, -⟩ := hdots
    exact hs.fresh ⟨(N d).up, dotdot⟩ (by rw [hents]; simp) (h.up_ne_zero hd) rfl

theorem born_dots (i d : ℕ) : (Node.born .dir i d).Dots i :=
  ⟨[], rfl, fun _ h => by cases h⟩

theorem Tree.created (h : Tree n N) {P : ℕ → Prop} (hP : ∀ d, P d → (N d).live)
    {type : FileType} (htype : type ≠ .none) (hroom : type = .dir → ∀ i, (N i).nlink + 1 < 2 ^ 15)
    {N' : ℕ → Node} (hc : Created n P type N N') : Tree n N' := by
  obtain ⟨d, i, j, name, hs, hi0, hi, hfree, rfl⟩ := hc
  obtain ⟨hd, hj, hdot, hdotdot⟩ := h.slot hP hs
  have hdi : d ≠ i := by
    rintro rfl
    rw [hfree] at hd
    exact free_not_liveDir hd
  have hdead : ¬ (N i).liveDir := by
    rw [hfree]
    exact free_not_liveDir
  have hzero : (N i).nlink = 0 := by
    rw [hfree]
    rfl
  have hnokid : (N d).kids i = 0 := by
    have := h.kids_le hd hi0
    omega
  have hproper : (Node.born type i d).Proper :=
    ⟨fun ht => absurd ht htype, fun ht => if_neg ht, show (1 : ℤ) < 2 ^ 15 by decide⟩
  have hnlink := hd.2
  by_cases hdir : type = .dir
  · subst hdir
    rw [if_pos rfl]
    have hup := int16_eq (k := (N d).nlink + 1) (by omega) (hroom rfl d)
    have hlive : (((N d).enter j ⟨i, name⟩).link 1).liveDir := by
      refine ⟨hs.dir, ?_⟩
      change 0 < int16 ((N d).nlink + 1)
      omega
    have hborn : (Node.born .dir i d).liveDir := ⟨rfl, Int.one_pos⟩
    obtain ⟨hdots, hup'⟩ := (h.dots d hd).put (w := ((N d).enter j ⟨i, name⟩).link 1)
      (e := ⟨i, name⟩) hj rfl fun _ => ⟨hdot, hdotdot⟩
    have hkids := fun x => kids_put_vacant (w := ((N d).enter j ⟨i, name⟩).link 1)
      (e := ⟨i, name⟩) (x := x) (h.dots d hd) hj hs.vacant rfl
    refine h.renamed hi hi0 ⟨hdi, hd, hlive, hdots, hup', fun x hx hxi => ?_, ?_, ?_,
      fun hold => absurd hold hdead, fun _ => ⟨born_dots i d, rfl, fun _ _ => rfl, ?_, hzero⟩⟩
      hproper ?_
    · rw [hkids x hx, if_neg hxi.symm, Nat.add_zero]
    · rw [if_neg hdead, if_pos hborn]
      change int16 ((N d).nlink + 1) + 0 = _
      omega
    · rw [hkids i hi0, if_pos rfl, hzero]
      change (1 : ℤ) + _ = _
      omega
    · rw [hkids i hi0, if_pos rfl, hnokid]
    · change int16 ((N d).nlink + 1) < 2 ^ 15
      have := hroom rfl d
      omega
  · rw [if_neg hdir]
    have hborn : ¬ (Node.born type i d).liveDir := fun hl => hdir hl.1
    obtain ⟨hdots, hup'⟩ := (h.dots d hd).put (w := (N d).enter j ⟨i, name⟩)
      (e := ⟨i, name⟩) hj rfl fun _ => ⟨hdot, hdotdot⟩
    have hkids := fun x => kids_put_vacant (w := (N d).enter j ⟨i, name⟩)
      (e := ⟨i, name⟩) (x := x) (h.dots d hd) hj hs.vacant rfl
    refine h.renamed hi hi0 ⟨hdi, hd, hd, hdots, hup', fun x hx hxi => ?_, ?_, ?_,
      fun hold => absurd hold hdead, fun hnew => absurd hnew hborn⟩ hproper (h.short d)
    · rw [hkids x hx, if_neg hxi.symm, Nat.add_zero]
    · rw [if_neg hdead, if_neg hborn]
      rfl
    · rw [hkids i hi0, if_pos rfl, hzero]
      change (1 : ℤ) + _ = _
      omega

theorem Tree.linked (h : Tree n N) {P : ℕ → Prop} (hP : ∀ d, P d → (N d).live)
    (hroom : ∀ i, (N i).nlink + 1 < 2 ^ 15) {N' : ℕ → Node} (hl : Linked P N N') :
    Tree n N' := by
  obtain ⟨d, i, j, name, hs, hPi, htype, rfl⟩ := hl
  obtain ⟨hd, hj, hdot, hdotdot⟩ := h.slot hP hs
  have hlive := hP i hPi
  have hi0 : i ≠ 0 := by
    rintro rfl
    rw [h.zero] at hlive
    exact hlive.1 rfl
  have hi : i < n := by
    by_contra hle
    rw [h.outside i (Nat.not_lt.mp hle)] at hlive
    exact hlive.1 rfl
  have hdi : d ≠ i := by
    rintro rfl
    exact htype hd.1
  have hnlink := int16_eq (k := (N i).nlink + 1) (by have := hlive.2; omega) (hroom i)
  have hdead : ¬ (N i).liveDir := fun hl => htype hl.1
  have hdead' : ¬ ((N i).link 1).liveDir := fun hl => htype hl.1
  obtain ⟨hdots, hup'⟩ := (h.dots d hd).put (w := (N d).enter j ⟨i, name⟩)
    (e := ⟨i, name⟩) hj rfl fun _ => ⟨hdot, hdotdot⟩
  have hkids := fun x => kids_put_vacant (w := (N d).enter j ⟨i, name⟩)
    (e := ⟨i, name⟩) (x := x) (h.dots d hd) hj hs.vacant rfl
  refine h.renamed hi hi0 ⟨hdi, hd, hd, hdots, hup', fun x hx hxi => ?_, ?_, ?_,
    fun hold => absurd hold hdead, fun hnew => absurd hnew hdead'⟩
    ⟨fun ht => absurd ht hlive.1, h.plain i, ?_⟩ (h.short d)
  · rw [hkids x hx, if_neg hxi.symm, Nat.add_zero]
  · rw [if_neg hdead, if_neg hdead']
    rfl
  · rw [hkids i hi0, if_pos rfl]
    change int16 ((N i).nlink + 1) + _ = _
    omega
  · change int16 ((N i).nlink + 1) < 2 ^ 15
    have := hroom i
    omega

theorem Node.Dots.entry (h : m.Dots d) (he : m.ents[j]? = some e) (hdot : e.name ≠ dot)
    (hdotdot : e.name ≠ dotdot) : 2 ≤ j := by
  obtain ⟨rest, hents, -⟩ := h
  rw [hents] at he
  match j, he with
  | 0, he =>
    simp only [List.getElem?_cons_zero, Option.some.injEq] at he
    subst he
    exact absurd rfl hdot
  | 1, he =>
    simp only [List.getElem?_cons_succ, List.getElem?_cons_zero, Option.some.injEq] at he
    subst he
    exact absurd rfl hdotdot
  | j + 2, _ => omega

theorem kids_pos (he : m.ents[j]? = some e) (hj : 2 ≤ j) : 0 < m.kids e.inum := by
  refine List.countP_pos_iff.mpr ⟨e, ?_, by simp⟩
  refine List.mem_of_getElem? (i := j - 2) ?_
  rw [List.getElem?_drop, Nat.add_sub_cancel' hj]
  exact he

theorem kids_eq_zero (h : ∀ e ∈ m.ents.drop 2, e.inum = 0) (hx : x ≠ 0) : m.kids x = 0 := by
  refine List.countP_eq_zero.mpr fun e he => ?_
  rw [h e he]
  simpa using hx.symm

theorem Tree.empty_links (h : Tree n N) (hi : (N i).liveDir) (hroot : i ≠ rootino)
    (hempty : ∀ x, x ≠ 0 → (N i).kids x = 0) :
    (N i).nlink = 1 ∧ 2 ≤ (N (N i).up).nlink := by
  have hi0 := h.ne_zero hi
  have hd := h.up i hi
  have hd0 := h.ne_zero hd
  have hne : (N i).up ≠ i := h.up_ne hroot hempty hi
  constructor
  · -- only the parent names it
    have hother : ∀ a < n, a ≠ (N i).up → (N a).names i = 0 := by
      intro a _ ha
      by_cases hlive : (N a).liveDir
      · rw [names_liveDir hlive (h.dots a hlive) hi0, if_neg (h.up_ne hroot hempty hlive)]
        by_contra hkid
        exact ha (h.home a i hlive hi (by omega)).2.symm
      · exact names_of_not hlive
    have hsum := total_change (f := fun _ => 0) (g := fun a => (N a).names i) (h.lt hd) hother
    rw [total_zero fun _ _ => rfl] at hsum
    have hone : (N (N i).up).names i = 1 := by
      rw [names_liveDir hd (h.dots _ hd) hi0, if_neg (h.up_ne hroot hempty hd),
        h.once i hi hroot]
    rw [h.count i hi0, links]
    omega
  · -- the directory and the parent's own place name the parent
    obtain ⟨a, ha, hai, hname⟩ : ∃ a, a < n ∧ a ≠ i ∧ 1 ≤ (N a).names (N i).up := by
      by_cases htop : (N i).up = rootino
      · refine ⟨rootino, h.lt h.root, hroot.symm, ?_⟩
        rw [htop, names_liveDir h.root (h.dots _ h.root) (htop ▸ hd0), if_pos h.top]
        omega
      · have hup := h.up _ hd
        refine ⟨(N (N i).up).up, h.lt hup, h.up_ne hroot hempty hd, ?_⟩
        rw [names_liveDir hup (h.dots _ hup) hd0, h.once _ hd htop]
        omega
    have hown : 1 ≤ (N i).names (N i).up := by
      rw [names_liveDir hi (h.dots i hi) hd0, if_pos rfl]
      omega
    obtain ⟨rest, hsum⟩ := total_split_two (fun a => (N a).names (N i).up) ha (h.lt hi) hai
    rw [h.count _ hd0, links, hsum]
    omega

theorem Tree.unlinked (h : Tree n N) {P : ℕ → Prop} (hP : ∀ d, P d → (N d).live)
    {N' : ℕ → Node} (hu : Unlinked P N N') : Tree n N' := by
  obtain ⟨d, j, e, M, hPd, hdir, he, hi0, hdot, hdotdot, hlinked, hempty, hM, hN'⟩ := hu
  have hd : (N d).liveDir := ⟨hdir, (hP d hPd).2⟩
  have hdots := h.dots d hd
  have hj := hdots.entry he hdot hdotdot
  have hi := h.live_of_linked (i := e.inum) (by omega)
  have hlt : e.inum < n := by
    by_contra hle
    rw [h.outside _ (Nat.not_lt.mp hle)] at hi
    exact hi.1 rfl
  have hkid : 0 < (N d).kids e.inum := kids_pos he hj
  have hshort := h.short e.inum
  have hless := int16_eq (k := (N e.inum).nlink + -1) (by omega) (by omega)
  have hproper : ((N e.inum).link (-1)).Proper := by
    refine ⟨fun ht => absurd ht hi.1, h.plain _, ?_⟩
    change int16 ((N e.inum).nlink + -1) < 2 ^ 15
    omega
  by_cases htype : (N e.inum).type = .dir
  · rw [if_pos htype] at hM
    have hlive : (N e.inum).liveDir := ⟨htype, hi.2⟩
    obtain ⟨hroot, hup⟩ := h.home d e.inum hd hlive hkid
    have hzero := fun x hx => kids_eq_zero (m := N e.inum) (x := x) (hempty htype) hx
    obtain ⟨hone, htwo⟩ := h.empty_links hlive hroot hzero
    rw [hup] at htwo
    have hde : d ≠ e.inum := by
      intro heq
      rw [heq, hzero e.inum hi0] at hkid
      omega
    have hshortd := h.short d
    have hlessd := int16_eq (k := (N d).nlink + -1) (by omega) (by omega)
    have hMeq : M = _ := hM.resolve_right fun hz => by
      rw [update_self] at hz
      have hz' : int16 ((N d).nlink + -1) = 0 := hz.1
      omega
    rw [hMeq, update_of_ne hde.symm, update_comm hde] at hN'
    refine (h.renamed hlt hi0 ?_ hproper ?_).mayFree hlt hN'
    · have hlive' : (((N d).enter j ⟨0, []⟩).link (-1)).liveDir := by
        refine ⟨hdir, ?_⟩
        change 0 < int16 ((N d).nlink + -1)
        omega
      have hdead : ¬ ((N e.inum).link (-1)).liveDir := fun hl => by
        have hpos : 0 < int16 ((N e.inum).nlink + -1) := hl.2
        omega
      obtain ⟨hdots', hup'⟩ := hdots.put (w := ((N d).enter j ⟨0, []⟩).link (-1))
        (e := ⟨0, []⟩) hj rfl fun hc => absurd rfl hc
      have hkids := fun x => kids_put_entry (w := ((N d).enter j ⟨0, []⟩).link (-1))
        (x := x) hdots hj he rfl
      refine ⟨hde, hd, hlive', hdots', hup', fun x hx hxi => ?_, ?_, ?_, fun _ => ⟨hup, hzero⟩,
        fun hnew => absurd hnew hdead⟩
      · have := hkids x hx
        rwa [if_neg hxi.symm, Nat.add_zero] at this
      · rw [if_pos hlive, if_neg hdead]
        change int16 ((N d).nlink + -1) + 1 = _
        omega
      · have := hkids e.inum hi0
        rw [if_pos rfl] at this
        change int16 ((N e.inum).nlink + -1) + _ = _
        omega
    · change int16 ((N d).nlink + -1) < 2 ^ 15
      omega
  · rw [if_neg htype] at hM
    have hde : d ≠ e.inum := by
      intro heq
      rw [heq] at hdir
      exact htype hdir
    have hMeq : M = _ := hM.resolve_right fun hz => by
      rw [update_self] at hz
      have hz' : (N d).nlink = 0 := hz.1
      have := hd.2
      omega
    rw [hMeq, update_of_ne hde.symm, update_comm hde] at hN'
    refine (h.renamed (Y := (N d).enter j ⟨0, []⟩) hlt hi0 ?_ hproper (h.short d)).mayFree hlt hN'
    have hdead : ¬ (N e.inum).liveDir := fun hl => htype hl.1
    have hdead' : ¬ ((N e.inum).link (-1)).liveDir := fun hl => htype hl.1
    obtain ⟨hdots', hup'⟩ := hdots.put (w := (N d).enter j ⟨0, []⟩)
      (e := ⟨0, []⟩) hj rfl fun hc => absurd rfl hc
    have hkids := fun x => kids_put_entry (w := (N d).enter j ⟨0, []⟩) (x := x) hdots hj he rfl
    refine ⟨hde, hd, hd, hdots', hup', fun x hx hxi => ?_, ?_, ?_,
      fun hold => absurd hold hdead, fun hnew => absurd hnew hdead'⟩
    · have := hkids x hx
      rwa [if_neg hxi.symm, Nat.add_zero] at this
    · rw [if_neg hdead, if_neg hdead']
      rfl
    · have := hkids e.inum hi0
      rw [if_pos rfl] at this
      change int16 ((N e.inum).nlink + -1) + _ = _
      omega

end

end Xv6.Fs
