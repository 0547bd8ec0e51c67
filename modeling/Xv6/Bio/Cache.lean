import Mathlib.Tactic
import Xv6.Bio.Invariant

/-!
# What the cache stands for

The history of a run says which blocks were read, modified and given up. It decides what
`bread` returns, the bytes last left in the cache for the block or else those of the
disk, and which buffer a miss takes.
-/

namespace Xv6.Bio

open Chain Bag Function

variable {D : Type}

/-- What a step does to the blocks in the cache. -/
inductive Obs (D : Type) where
  /-- `bget` takes a buffer for another block than `old`. -/
  | assigned (old : Option (ℕ × ℕ))
  /-- `bread` has read a block from the disk. -/
  | filled (k : ℕ × ℕ) (d : D)
  | modified (k : ℕ × ℕ) (d : D)
  /-- `brelse` has given a buffer back, and its `refcnt` is 0 if `last`. -/
  | released (b : ℕ) (last : Bool)

namespace State

/-- The block a buffer is for. -/
def key (s : State D) (b : ℕ) : ℕ × ℕ := ((s.buf b).dev, (s.buf b).blockno)

def block (s : State D) (k : ℕ × ℕ) : D := s.disk k.1 k.2

end State

def observe (s : State D) : Event D → List (Obs D)
  | .get _ dev blockno =>
    match s.cached dev blockno, s.unused with
    | none, some b => [.assigned (if s.used b then some (s.key b) else none)]
    | _, _ => []
  | .fill p =>
    match s.pc p with
    | .locked b => [.filled (s.key b) (s.block (s.key b))]
    | _ => []
  | .modify _ b d => [.modified (s.key b) d]
  | .put p =>
    match s.pc p with
    | .releasing b => [.released b ((s.buf b).refcnt - 1 = 0)]
    | _ => []
  | _ => []

/-- What was seen in a run, the newest observation first. -/
def history (n : ℕ) : State D → List (Event D) → List (Obs D)
  | _, [] => []
  | s, e :: es =>
    match step n s e with
    | some t => history n t es ++ observe s e
    | none => []

/-- The bytes last left in the cache for a block, if no buffer was taken from it since. -/
def left : List (Obs D) → ℕ × ℕ → Option D
  | [], _ => none
  | .assigned old :: h, k => if old = some k then none else left h k
  | .filled k' d :: h, k | .modified k' d :: h, k => if k' = k then some d else left h k
  | .released _ _ :: h, k => left h k

/-- When something was last seen, counted from 1, or 0 if never. -/
def lastTime (P : Obs D → Bool) : List (Obs D) → ℕ
  | [] => 0
  | o :: h => if P o then h.length + 1 else lastTime P h

/-- A `brelse` of the buffer. -/
def Obs.releases (b : ℕ) : Obs D → Bool
  | .released b' _ => b' = b
  | _ => false

/-- A `brelse` of the buffer that leaves it without a reference. -/
def Obs.frees (b : ℕ) : Obs D → Bool
  | .released b' last => b' = b ∧ last
  | _ => false

/-- The buffer that `bread` returns in a step. -/
def returns (s : State D) : Event D → Option ℕ
  | .lock p =>
    match s.pc p with
    | .waiting b => if (s.buf b).valid then some b else none
    | _ => none
  | .fill p =>
    match s.pc p with
    | .locked b => some b
    | _ => none
  | _ => none

/-- The contents of the buffers, which `l` lists in the order of the ring. -/
structure Contents (s : State D) (l : List ℕ) (h : List (Obs D)) : Prop where
  uniq : l.Pairwise fun b b' => s.key b = s.key b' → s.used b' = false
  fresh : ∀ b ∈ l, s.used b = false → (s.buf b).valid = false ∧ (s.buf b).refcnt = 0
  left : ∀ b ∈ l, s.used b = true →
    Bio.left h (s.key b) = if (s.buf b).valid then some (s.buf b).data else none
  absent : ∀ k, (∀ b ∈ l, s.used b = true → s.key b ≠ k) → Bio.left h k = none
  reading : ∀ p b, s.pc p = .locked b → s.owner b = some p ∧ (s.buf b).valid = false
  ready : ∀ p b, s.owner b = some p → s.pc p ≠ .locked b → (s.buf b).valid = true
  recent : l.Pairwise fun b b' => lastTime (Obs.frees b') h ≤ lastTime (Obs.frees b) h
  pinned : ∀ b, 0 < s.pins b → b ∈ l ∧ (s.buf b).valid = true

theorem history_snoc {n : ℕ} {s t u : State D} {e : Event D} {es : List (Event D)}
    (hs : Runs.exec (step n) s es = some t) (he : step n t e = some u) :
    history n s (es ++ [e]) = observe t e ++ history n s es := by
  induction es generalizing s with
  | nil =>
    cases hs
    simp [history, he]
  | cons e' es ih =>
    obtain ⟨v, hv, ht⟩ := Runs.exec_cons.mp hs
    simp [history, hv, ih ht]

theorem lastTime_le (P : Obs D → Bool) (h : List (Obs D)) : lastTime P h ≤ h.length := by
  induction h with
  | nil => exact le_rfl
  | cons o h ih =>
    rw [lastTime, List.length_cons]
    split
    · exact le_rfl
    · exact ih.trans (Nat.le_succ _)

theorem pairwise_find {α : Type} {P : α → Bool} {l : List α} {a : α} (hf : l.find? P = some a)
    (hl : l.Nodup) : l.Pairwise fun x y => y = a → P x = false := by
  obtain ⟨-, l1, l2, rfl, hl1⟩ := List.find?_eq_some_iff_append.mp hf
  obtain ⟨-, hnodup, hdis⟩ := List.nodup_append.mp hl
  have ha2 : a ∉ l2 := (List.nodup_cons.mp hnodup).1
  rw [List.pairwise_append, List.pairwise_cons]
  refine ⟨?_, ⟨?_, ?_⟩, ?_⟩
  · have ha1 : a ∉ l1 := fun hm => hdis a hm a (by simp) rfl
    exact List.pairwise_of_forall_mem_list fun x _ y hy h => absurd (h ▸ hy) ha1
  · exact fun y hy h => absurd (h ▸ hy) ha2
  · exact List.pairwise_of_forall_mem_list fun x _ y hy h => absurd (h ▸ hy) ha2
  · exact fun x hx _ _ _ => by simpa using hl1 x hx

theorem find_first {α : Type} {P : α → Bool} {R : α → α → Prop} {l : List α} {a b : α}
    (hf : l.find? P = some a) (hl : l.Pairwise R) (hb : b ∈ l) (hP : P b = true) :
    b = a ∨ R a b := by
  obtain ⟨-, l1, l2, rfl, hl1⟩ := List.find?_eq_some_iff_append.mp hf
  rw [List.pairwise_append, List.pairwise_cons] at hl
  rcases List.mem_append.mp hb with hb | hb
  · have := hl1 b hb
    simp [hP] at this
  · rcases List.mem_cons.mp hb with rfl | hb
    · exact .inl rfl
    · exact .inr (hl.2.1.1 b hb)

section

variable {n : ℕ} {s t : State D} {l : List ℕ} {p b : ℕ} {h : List (Obs D)}

theorem Contents.inj (hc : Contents s l h) {c : ℕ} (hb : b ∈ l) (hc' : c ∈ l)
    (hub : s.used b = true) (huc : s.used c = true) (hkey : s.key b = s.key c) : b = c := by
  by_contra hne
  let R : ℕ → ℕ → Prop := fun b c => s.used b = true → s.used c = true → s.key b ≠ s.key c
  have hpair : l.Pairwise R := hc.uniq.imp fun hbc _ hu heq => by simp [hbc heq] at hu
  have : Std.Symm R := ⟨fun b c hbc hu hu' heq => hbc hu' hu heq.symm⟩
  exact hpair.forall hb hc' hne hub huc hkey

theorem Contents.used (hc : Contents s l h) (hb : b ∈ l) (href : (s.buf b).refcnt ≠ 0) :
    s.used b = true := by
  by_contra hu
  exact href (hc.fresh b hb (by simpa using hu)).2

theorem buf_setRefcnt (s : State D) (b k c : ℕ) : (s.setRefcnt b k).buf c =
    { s.buf c with refcnt := if c = b then k else (s.buf c).refcnt } := by
  by_cases hcb : c = b
  · subst hcb
    simp [State.setRefcnt, State.setBuf]
  · simp [State.setRefcnt, State.setBuf, hcb]

theorem key_setRefcnt (s : State D) (b k c : ℕ) : (s.setRefcnt b k).key c = s.key c := by
  rw [State.key, buf_setRefcnt, State.key]

theorem valid_setRefcnt (s : State D) (b k c : ℕ) :
    ((s.setRefcnt b k).buf c).valid = (s.buf c).valid := by rw [buf_setRefcnt]

theorem data_setRefcnt (s : State D) (b k c : ℕ) :
    ((s.setRefcnt b k).buf c).data = (s.buf c).data := by rw [buf_setRefcnt]

/-- A step that changes neither what the buffers hold nor the order of the ring. -/
theorem Contents.frame (hc : Contents s l h) (hkey : ∀ b, t.key b = s.key b)
    (hvalid : ∀ b, (t.buf b).valid = (s.buf b).valid)
    (hdata : ∀ b, (t.buf b).data = (s.buf b).data) (hused : t.used = s.used)
    (hfresh : ∀ b ∈ l, s.used b = false → (t.buf b).refcnt = (s.buf b).refcnt)
    (hreading : ∀ p b, t.pc p = .locked b → t.owner b = some p ∧ (s.buf b).valid = false)
    (hready : ∀ p b, t.owner b = some p → t.pc p ≠ .locked b → (s.buf b).valid = true)
    (hpinned : ∀ b, 0 < t.pins b → b ∈ l ∧ (s.buf b).valid = true) : Contents t l h where
  uniq := by simpa only [hkey, hused] using hc.uniq
  fresh b hb hu := by
    rw [hused] at hu
    rw [hvalid, hfresh b hb hu]
    exact hc.fresh b hb hu
  left b hb hu := by
    rw [hkey, hvalid, hdata]
    exact hc.left b hb (hused ▸ hu)
  absent k hk := hc.absent k fun b hb hu => hkey b ▸ hk b hb (hused ▸ hu)
  reading p b hp := by
    rw [hvalid]
    exact hreading p b hp
  ready p b hp hne := by
    rw [hvalid]
    exact hready p b hp hne
  recent := hc.recent
  pinned b hb := by
    rw [hvalid]
    exact hpinned b hb

/-! ## `bget` -/

theorem cached_key (hinv : Inv n s l) (dev blockno : ℕ) :
    s.cached dev blockno = l.find? fun b => s.key b = (dev, blockno) := by
  rw [hinv.cached_eq]
  congr 1
  funext b
  simp [State.key]

theorem Inv.nodup (hinv : Inv n s l) : l.Nodup := (List.nodup_cons.mp hinv.ring.nodup).2

theorem Inv.refcnt_pinned (hinv : Inv n s l) (hpin : 0 < s.pins b) : (s.buf b).refcnt ≠ 0 := by
  rw [hinv.refs, State.refs]
  omega

theorem Inv.owner_none (hinv : Inv n s l) (hzero : (s.buf b).refcnt = 0) : s.owner b = none := by
  have hrefs := hinv.refs b
  rw [hzero, State.refs] at hrefs
  cases hown : s.owner b with
  | none => rfl
  | some q =>
    rw [hown, held] at hrefs
    omega

theorem Contents.hit (hinv : Inv n s l) (hc : Contents s l h) (hidle : s.pc p = .idle)
    {k : ℕ × ℕ} (hb : l.find? (fun b => s.key b = k) = some b) (hkey : ∀ c, t.key c = s.key c)
    (hvalid : ∀ c, (t.buf c).valid = (s.buf c).valid)
    (hdata : ∀ c, (t.buf c).data = (s.buf c).data)
    (href : ∀ c ≠ b, (t.buf c).refcnt = (s.buf c).refcnt)
    (hused : t.used = update s.used b true) (howner : t.owner = s.owner)
    (hpc : t.pc = update s.pc p (.waiting b)) (hpins : t.pins = s.pins) :
    Contents t l h := by
  have hbk : s.key b = k := by simpa using List.find?_some hb
  have hbl : b ∈ l := List.mem_of_find?_eq_some hb
  have hu : ∀ c ≠ b, t.used c = s.used c := fun c hne => by rw [hused, update_of_ne hne]
  have hfirst : l.Pairwise fun c c' => c' = b → s.key c ≠ k := by
    simpa using pairwise_find hb hinv.nodup
  refine ⟨?_, ?_, ?_, ?_, ?_, ?_, hc.recent, ?_⟩
  · refine (hc.uniq.and hfirst).imp fun {c c'} ⟨hcc, hbefore⟩ heq => ?_
    rw [hkey, hkey] at heq
    by_cases hne : c' = b
    · exact absurd (heq.trans (hne ▸ hbk)) (hbefore hne)
    · rw [hu c' hne]
      exact hcc heq
  · intro c hcl hcu
    have hne : c ≠ b := by
      rintro rfl
      simp [hused] at hcu
    rw [hvalid, href c hne]
    exact hc.fresh c hcl (hu c hne ▸ hcu)
  · intro c hcl hcu
    rw [hkey, hvalid, hdata]
    by_cases hold : s.used c = true
    · exact hc.left c hcl hold
    -- the buffer is used for the first time, so its block was not in the cache
    obtain rfl : c = b := by
      by_contra hne
      exact hold (hu c hne ▸ hcu)
    rw [(hc.fresh c hcl (by simpa using hold)).1]
    refine hc.absent _ fun c' hcl' hcu' heq => ?_
    have hne : c' ≠ c := by
      rintro rfl
      exact hold hcu'
    rcases find_first hb hc.uniq hcl' (by simp [heq, hbk]) with rfl | hR
    · exact hne rfl
    · simp [hR heq.symm] at hcu'
  · intro k' hk'
    refine hc.absent k' fun c hcl hcu => hkey c ▸ hk' c hcl ?_
    by_cases hne : c = b
    · simp [hused, hne]
    · rw [hu c hne, hcu]
  · intro q c hq
    have hne : q ≠ p := by
      rintro rfl
      simp [hpc] at hq
    rw [hpc, update_of_ne hne] at hq
    rw [howner, hvalid]
    exact hc.reading q c hq
  · intro q c hq hnl
    rw [howner] at hq
    rw [hvalid]
    apply hc.ready q c hq
    by_cases hne : q = p
    · simp [hne, hidle]
    · rwa [hpc, update_of_ne hne] at hnl
  · intro c hpin
    rw [hvalid]
    exact hc.pinned c (hpins ▸ hpin)

theorem Contents.miss (hinv : Inv n s l) (hc : Contents s l h) (hidle : s.pc p = .idle)
    {dev blockno : ℕ} (hmiss : ∀ c ∈ l, s.key c ≠ (dev, blockno)) (hbl : b ∈ l)
    (hzero : (s.buf b).refcnt = 0) :
    Contents { (s.setBuf b ⟨dev, blockno, 1, false, (s.buf b).data⟩).setPc p (.waiting b) with
      used := update s.used b true } l
      (.assigned (if s.used b then some (s.key b) else none) :: h) := by
  have hown : s.owner b = none := hinv.owner_none hzero
  have hleft : ∀ k, Bio.left (.assigned (if s.used b then some (s.key b) else none) :: h) k =
      if s.used b = true ∧ s.key b = k then none else Bio.left h k := by
    intro k
    by_cases hu : s.used b = true <;> simp [Bio.left, hu]
  generalize ht : ({ (s.setBuf b ⟨dev, blockno, 1, false, (s.buf b).data⟩).setPc p (.waiting b) with
    used := update s.used b true } : State D) = t
  have hbuf : ∀ c ≠ b, t.buf c = s.buf c := fun c hne => by
    rw [← ht]
    exact update_of_ne hne _ _
  have hbb : t.buf b = ⟨dev, blockno, 1, false, (s.buf b).data⟩ := by
    rw [← ht]
    exact update_self ..
  have hkey : ∀ c ≠ b, t.key c = s.key c := fun c hne => by rw [State.key, hbuf c hne, State.key]
  have hkb : t.key b = (dev, blockno) := by rw [State.key, hbb]
  have hu : ∀ c ≠ b, t.used c = s.used c := fun c hne => by
    rw [← ht]
    exact update_of_ne hne _ _
  have hub : t.used b = true := by
    rw [← ht]
    exact update_self ..
  have hpc : t.pc = update s.pc p (.waiting b) := by
    rw [← ht]
    rfl
  have howner : t.owner = s.owner := by
    rw [← ht]
    rfl
  have hpins : t.pins = s.pins := by
    rw [← ht]
    rfl
  clear ht
  refine ⟨?_, ?_, ?_, ?_, ?_, ?_, hc.recent, ?_⟩
  · refine (hc.uniq.and hinv.nodup).imp_of_mem fun {c c'} hcl hcl' ⟨hcc, hdiff⟩ heq => ?_
    by_cases hb : c = b
    · subst hb
      rw [hkb, hkey c' hdiff.symm] at heq
      exact absurd heq.symm (hmiss c' hcl')
    · by_cases hb' : c' = b
      · subst hb'
        rw [hkb, hkey c hb] at heq
        exact absurd heq (hmiss c hcl)
      · rw [hkey c hb, hkey c' hb'] at heq
        rw [hu c' hb']
        exact hcc heq
  · intro c hcl hcu
    have hne : c ≠ b := by
      rintro rfl
      simp [hub] at hcu
    rw [hbuf c hne]
    exact hc.fresh c hcl (hu c hne ▸ hcu)
  · intro c hcl hcu
    rw [hleft]
    by_cases hne : c = b
    · subst hne
      rw [hkb, hbb, if_neg fun hk => hmiss c hcl hk.2]
      exact hc.absent _ fun c' hcl' _ => hmiss c' hcl'
    · rw [hkey c hne, hbuf c hne, if_neg fun hk =>
        hne (hc.inj hbl hcl hk.1 (hu c hne ▸ hcu) hk.2).symm]
      exact hc.left c hcl (hu c hne ▸ hcu)
  · intro k hk
    rw [hleft]
    split
    · rfl
    · rename_i hold
      refine hc.absent k fun c hcl hcu heq => ?_
      by_cases hne : c = b
      · subst hne
        exact hold ⟨hcu, heq⟩
      · exact hk c hcl (hu c hne ▸ hcu) (hkey c hne ▸ heq)
  · intro q c hq
    have hqp : q ≠ p := by
      rintro rfl
      simp [hpc] at hq
    rw [hpc, update_of_ne hqp] at hq
    have hread := hc.reading q c hq
    have hne : c ≠ b := by
      rintro rfl
      simp [hown] at hread
    rw [howner, hbuf c hne]
    exact hread
  · intro q c hq hnl
    rw [howner] at hq
    have hne : c ≠ b := by
      rintro rfl
      simp [hown] at hq
    rw [hbuf c hne]
    apply hc.ready q c hq
    by_cases hqp : q = p
    · simp [hqp, hidle]
    · rwa [hpc, update_of_ne hqp] at hnl
  · intro c hpin
    rw [hpins] at hpin
    have hne : c ≠ b := by
      rintro rfl
      exact hinv.refcnt_pinned hpin hzero
    rw [hbuf c hne]
    exact hc.pinned c hpin

/-! ## The other steps -/

theorem Contents.store (hc : Contents s l h) (hbl : b ∈ l) (hub : s.used b = true) {u : Buf D}
    (hbuf : t.buf = update s.buf b u) (hk : (u.dev, u.blockno) = s.key b)
    (hv : u.valid = true) {o : Obs D}
    (ho : o = .filled (s.key b) u.data ∨ o = .modified (s.key b) u.data)
    (hused : t.used = s.used) (hpins : t.pins = s.pins)
    (hreading : ∀ q c, t.pc q = .locked c → c ≠ b ∧ t.owner c = some q ∧ (s.buf c).valid = false)
    (hready : ∀ q c, c ≠ b → t.owner c = some q → t.pc q ≠ .locked c → (s.buf c).valid = true) :
    Contents t l (o :: h) := by
  have hne : ∀ c ≠ b, t.buf c = s.buf c := fun c hne => by rw [hbuf, update_of_ne hne]
  have hbb : t.buf b = u := by rw [hbuf, update_self]
  have hkey : ∀ c, t.key c = s.key c := by
    intro c
    by_cases hcb : c = b
    · rw [hcb, State.key, hbb, hk]
    · rw [State.key, hne c hcb, State.key]
  have hleft : ∀ k, Bio.left (o :: h) k = if s.key b = k then some u.data else Bio.left h k := by
    intro k
    rcases ho with rfl | rfl <;> rw [Bio.left]
  have hlast : ∀ c, lastTime (Obs.frees c) (o :: h) = lastTime (Obs.frees c) h := by
    intro c
    rcases ho with rfl | rfl <;> simp [lastTime, Obs.frees]
  refine ⟨?_, ?_, ?_, ?_, ?_, ?_, ?_, ?_⟩
  · simpa only [hkey, hused] using hc.uniq
  · intro c hcl hcu
    rw [hused] at hcu
    have hcb : c ≠ b := by
      rintro rfl
      simp [hub] at hcu
    rw [hne c hcb]
    exact hc.fresh c hcl hcu
  · intro c hcl hcu
    rw [hused] at hcu
    rw [hkey, hleft]
    by_cases hcb : c = b
    · rw [hcb, if_pos rfl, hbb, hv, if_pos rfl]
    · rw [if_neg fun heq => hcb (hc.inj hbl hcl hub hcu heq).symm, hne c hcb]
      exact hc.left c hcl hcu
  · intro k hkk
    have hkb : s.key b ≠ k := hkey b ▸ hkk b hbl (hused ▸ hub)
    rw [hleft, if_neg hkb]
    exact hc.absent k fun c hcl hcu => hkey c ▸ hkk c hcl (hused ▸ hcu)
  · intro q c hq
    obtain ⟨hcb, hown, hval⟩ := hreading q c hq
    rw [hne c hcb]
    exact ⟨hown, hval⟩
  · intro q c hq hnl
    by_cases hcb : c = b
    · rw [hcb, hbb, hv]
    · rw [hne c hcb]
      exact hready q c hcb hq hnl
  · simpa only [hlast] using hc.recent
  · intro c hpin
    obtain ⟨hcl, hval⟩ := hc.pinned c (hpins ▸ hpin)
    by_cases hcb : c = b
    · rw [hcb, hbb, hv]
      exact ⟨hbl, rfl⟩
    · rw [hne c hcb]
      exact ⟨hcl, hval⟩

theorem Contents.toFront (hc : Contents s l h) (hnodup : l.Nodup) (hbl : b ∈ l)
    (hub : s.used b = true) : Contents s (b :: l.erase b) (.released b true :: h) := by
  have hmem : ∀ {c}, c ∈ b :: l.erase b ↔ c ∈ l := (List.perm_cons_erase hbl).mem_iff.symm
  have hsub : (l.erase b).Sublist l := List.erase_sublist
  have hlast : ∀ c ≠ b, lastTime (Obs.frees c) (.released b true :: h) =
      lastTime (Obs.frees c) h := fun c hne => by simp [lastTime, Obs.frees, hne.symm]
  have hne : ∀ {c}, c ∈ l.erase b → c ≠ b := fun hcl => (hnodup.mem_erase_iff.mp hcl).1
  refine ⟨?_, ?_, ?_, ?_, hc.reading, hc.ready, ?_, fun c hpin => ?_⟩
  · rw [List.pairwise_cons]
    refine ⟨fun c hcl heq => ?_, hc.uniq.sublist hsub⟩
    by_contra hcu
    exact hne hcl (hc.inj hbl (hsub.mem hcl) hub (by simpa using hcu) heq).symm
  · exact fun c hcl => hc.fresh c (hmem.mp hcl)
  · exact fun c hcl => hc.left c (hmem.mp hcl)
  · exact fun k hk => hc.absent k fun c hcl => hk c (hmem.mpr hcl)
  · rw [List.pairwise_cons]
    refine ⟨fun c hcl => ?_, (hc.recent.sublist hsub).imp_of_mem fun {c c'} hcl hcl' hcc => ?_⟩
    · rw [hlast c (hne hcl)]
      exact (lastTime_le _ h).trans (by simp [lastTime, Obs.frees])
    · rwa [hlast c (hne hcl), hlast c' (hne hcl')]
  · exact ⟨hmem.mpr (hc.pinned c hpin).1, (hc.pinned c hpin).2⟩

theorem Contents.stays (hc : Contents s l h) : Contents s l (.released b false :: h) := by
  have hlast : ∀ c, lastTime (Obs.frees c) (.released b false :: h) = lastTime (Obs.frees c) h :=
    fun c => by simp [lastTime, Obs.frees]
  exact ⟨hc.uniq, hc.fresh, hc.left, hc.absent, hc.reading, hc.ready,
    by simpa only [hlast] using hc.recent, hc.pinned⟩

theorem Inv.refcnt_at (hinv : Inv n s l) (hp : s.pc p = .releasing b) :
    (s.buf b).refcnt ≠ 0 := by
  have hsplit := refs_setPc s (hinv.proc p (by simp [hp])) .idle b
  rw [hp, wants_idle, wants_releasing, if_pos rfl, ← hinv.refs] at hsplit
  omega

theorem Inv.refcnt_owner (hinv : Inv n s l) (hown : s.owner b = some p) :
    (s.buf b).refcnt ≠ 0 := fun hzero => by simp [hinv.owner_none hzero] at hown

theorem Contents.get (hinv : Inv n s l) (hc : Contents s l h) (hidle : s.pc p = .idle)
    (dev blockno : ℕ) :
    Contents (s.bget p dev blockno) l (observe s (.get p dev blockno) ++ h) := by
  cases hcached : s.cached dev blockno with
  | some b =>
    simp only [State.bget, observe, hcached, List.nil_append]
    rw [cached_key hinv] at hcached
    exact Contents.hit hinv hc hidle hcached (key_setRefcnt s b _) (valid_setRefcnt s b _)
      (data_setRefcnt s b _) (fun c hcb => (refcnt_setRefcnt s b _ c).trans (if_neg hcb)) rfl rfl rfl
      rfl
  | none =>
    have hmiss : ∀ c ∈ l, s.key c ≠ (dev, blockno) := by
      rw [cached_key hinv] at hcached
      simpa using hcached
    simp only [State.bget, observe, hcached]
    cases hun : s.unused with
    | some b =>
      rw [hinv.unused_eq] at hun
      have hbl : b ∈ l := List.mem_reverse.mp (List.mem_of_find?_eq_some hun)
      exact Contents.miss hinv hc hidle hmiss hbl (by simpa using List.find?_some hun)
    | none => exact ⟨hc.uniq, hc.fresh, hc.left, hc.absent, hc.reading, hc.ready, hc.recent,
      hc.pinned⟩

theorem Contents.recount (hc : Contents s l h) (hub : b ∈ l → s.used b = true) (k : ℕ)
    (hbuf : t.buf = (s.setRefcnt b k).buf) (hused : t.used = s.used)
    (hreading : ∀ q c, t.pc q = .locked c → t.owner c = some q ∧ (s.buf c).valid = false)
    (hready : ∀ q c, t.owner c = some q → t.pc q ≠ .locked c → (s.buf c).valid = true)
    (hpinned : ∀ c, 0 < t.pins c → c ∈ l ∧ (s.buf c).valid = true) : Contents t l h := by
  refine hc.frame (fun c => ?_) (fun c => ?_) (fun c => ?_) hused (fun c hcl hcu => ?_)
    hreading hready hpinned
  · rw [State.key, hbuf]
    exact key_setRefcnt s b k c
  · rw [hbuf, valid_setRefcnt]
  · rw [hbuf, data_setRefcnt]
  · rw [hbuf, refcnt_setRefcnt, if_neg]
    rintro rfl
    simp [hub hcl] at hcu

theorem Contents.walk (hc : Contents s l h) (hfrom : ∀ c, s.pc p ≠ .locked c) {v : Pc}
    (hto : ∀ c, v ≠ .locked c) : Contents (s.setPc p v) l h := by
  refine hc.frame (fun _ => rfl) (fun _ => rfl) (fun _ => rfl) rfl (fun _ _ _ => rfl)
    (fun q c hq => ?_) (fun q c hq hnl => ?_) hc.pinned
  · have hqp : q ≠ p := by
      rintro rfl
      exact hto c ((update_self ..).symm.trans hq)
    exact hc.reading q c ((update_of_ne hqp _ _).symm.trans hq)
  · apply hc.ready q c hq
    by_cases hqp : q = p
    · rw [hqp]
      exact hfrom c
    · exact fun heq => hnl ((update_of_ne hqp _ _).trans heq)

theorem Contents.lock (hc : Contents s l h) (hw : s.pc p = .waiting b)
    (hfree : s.owner b = none) :
    Contents ((s.setOwner b (some p)).setPc p (if (s.buf b).valid then .idle else .locked b))
      l h := by
  refine hc.frame (fun _ => rfl) (fun _ => rfl) (fun _ => rfl) rfl (fun _ _ _ => rfl)
    (fun q c hq => ?_) (fun q c hq hnl => ?_) hc.pinned
  · by_cases hqp : q = p
    · subst hqp
      have hq : (if (s.buf b).valid then Pc.idle else .locked b) = .locked c :=
        (update_self ..).symm.trans hq
      split at hq
      · cases hq
      · rename_i hval
        cases hq
        exact ⟨update_self .., by simpa using hval⟩
    · have hread := hc.reading q c ((update_of_ne hqp _ _).symm.trans hq)
      have hcb : c ≠ b := by
        rintro rfl
        simp [hfree] at hread
      exact ⟨(update_of_ne hcb _ _).trans hread.1, hread.2⟩
  · by_cases hcb : c = b
    · subst hcb
      obtain rfl : p = q := by simpa [State.setOwner, State.setPc] using hq
      by_contra hval
      exact hnl (by simp [State.setPc, hval])
    · have hown : s.owner c = some q := (update_of_ne hcb _ _).symm.trans hq
      apply hc.ready q c hown
      by_cases hqp : q = p
      · simp [hqp, hw]
      · exact fun heq => hnl ((update_of_ne hqp _ _).trans heq)

theorem Contents.unlock (hc : Contents s l h) (hold : s.Holds p b) :
    Contents ((s.setOwner b none).setPc p (.releasing b)) l h := by
  obtain ⟨hown, hidle⟩ := hold
  have hfree : Contents (s.setOwner b none) l h := by
    refine hc.frame (fun _ => rfl) (fun _ => rfl) (fun _ => rfl) rfl (fun _ _ _ => rfl)
      (fun q c hq => ?_) (fun q c hq hnl => ?_) hc.pinned
    · have hread := hc.reading q c hq
      have hcb : c ≠ b := by
        rintro rfl
        obtain rfl : p = q := Option.some.inj (hown.symm.trans hread.1)
        exact absurd (hidle.symm.trans hq) (by simp)
      exact ⟨(update_of_ne hcb _ _).trans hread.1, hread.2⟩
    · have hcb : c ≠ b := by
        rintro rfl
        simp [State.setOwner] at hq
      exact hc.ready q c ((update_of_ne hcb _ _).symm.trans hq) hnl
  exact hfree.walk (fun c => by simp [State.setOwner, hidle]) fun c => by simp

theorem Contents.fill (hinv : Inv n s l) (hc : Contents s l h) (hl : s.pc p = .locked b) :
    Contents ((s.setBuf b (s.filled b)).setPc p .idle) l
      (.filled (s.key b) (s.block (s.key b)) :: h) := by
  obtain ⟨hown, -⟩ := hc.reading p b hl
  have hbl : b ∈ l := hinv.mem_iff.mpr (hinv.bound p b (.inr (.inl hl)))
  refine hc.store (u := s.filled b) hbl (hc.used hbl (hinv.refcnt_owner hown)) rfl rfl rfl
    (.inl rfl) rfl rfl
    (fun q c hq => ?_) fun q c hcb hq hnl => ?_
  · have hqp : q ≠ p := by
      rintro rfl
      simp [State.setPc] at hq
    have hread := hc.reading q c ((update_of_ne hqp _ _).symm.trans hq)
    refine ⟨?_, hread⟩
    rintro rfl
    exact hqp (Option.some.inj (hread.1.symm.trans hown))
  · apply hc.ready q c hq
    by_cases hqp : q = p
    · rw [hqp, hl]
      simpa using hcb.symm
    · exact fun heq => hnl ((update_of_ne hqp _ _).trans heq)

theorem Contents.modify (hinv : Inv n s l) (hc : Contents s l h) (hold : s.Holds p b) (d : D) :
    Contents (s.setBuf b { s.buf b with data := d }) l (.modified (s.key b) d :: h) := by
  obtain ⟨hown, hidle⟩ := hold
  have hbl : b ∈ l := hinv.mem_iff.mpr (hinv.owner b p hown).1
  have hval := hc.ready p b hown (by simp [hidle])
  refine hc.store (u := { s.buf b with data := d }) hbl
    (hc.used hbl (hinv.refcnt_owner hown)) rfl rfl hval (.inr rfl) rfl rfl
    (fun q c hq => ?_) fun q c _ => hc.ready q c
  have hread := hc.reading q c hq
  refine ⟨?_, hread⟩
  rintro rfl
  simp [hval] at hread

theorem Contents.put (hinv : Inv n s l) (hc : Contents s l h) (hrel : s.pc p = .releasing b) :
    Contents ((s.release b).setPc p .idle) (order s l (.put p)) (observe s (.put p) ++ h) := by
  have hbl : b ∈ l := hinv.mem_iff.mpr (hinv.bound p b (.inr (.inr hrel)))
  have hub := hc.used hbl (hinv.refcnt_at hrel)
  have hcount : ∀ {l h}, Contents s l h → Contents (s.release b) l h := by
    intro l h hc
    unfold State.release
    split
    · exact hc.recount (fun _ => hub) _ rfl rfl hc.reading hc.ready hc.pinned
    · exact hc.recount (fun _ => hub) _ rfl rfl hc.reading hc.ready hc.pinned
  have hpc : (s.release b).pc p = .releasing b := by
    rw [← hrel, State.release]
    split <;> rfl
  refine Contents.walk ?_ (fun c => by simp [hpc]) fun c => by simp
  simp only [order, observe, hrel, List.singleton_append]
  apply hcount
  by_cases hlast : (s.buf b).refcnt - 1 = 0
  · simp only [hlast, if_true, decide_true]
    exact hc.toFront hinv.nodup hbl hub
  · simp only [hlast, if_false, decide_false]
    exact hc.stays

theorem Contents.step (hinv : Inv n s l) (hc : Contents s l h) {e : Event D}
    (hs : step n s e = some t) : Contents t (order s l e) (observe s e ++ h) := by
  cases step_moves hs with
  | get hp hidle => exact Contents.get hinv hc hidle _ _
  | lock hw hfree => exact hc.lock hw hfree
  | fill hl =>
    simp only [observe, hl]
    exact Contents.fill hinv hc hl
  | modify hold => exact Contents.modify hinv hc hold _
  | bwrite hold => exact ⟨hc.uniq, hc.fresh, hc.left, hc.absent, hc.reading, hc.ready, hc.recent,
      hc.pinned⟩
  | unlock hold => exact hc.unlock hold
  | put hrel => exact Contents.put hinv hc hrel
  | @bpin p b hold =>
    refine hc.recount (fun hbl => hc.used hbl (hinv.refcnt_owner hold.1)) _ rfl rfl hc.reading
      hc.ready fun c hpin => ?_
    by_cases hcb : c = b
    · rw [hcb]
      exact ⟨hinv.mem_iff.mpr (hinv.owner b p hold.1).1, hc.ready p b hold.1 (by simp [hold.2])⟩
    · exact hc.pinned c (by simpa [hcb] using hpin)
  | @bunpin b hpos =>
    refine hc.recount (fun hbl => hc.used hbl (hinv.refcnt_pinned hpos)) _ rfl rfl hc.reading
      hc.ready fun c hpin => ?_
    by_cases hcb : c = b
    · rw [hcb]
      exact hc.pinned b hpos
    · exact hc.pinned c (by simpa [hcb] using hpin)

theorem contents_init (zero : D) (disk : ℕ → ℕ → D) (l : List ℕ) :
    Contents (init zero disk) l [] where
  uniq := List.pairwise_of_forall_mem_list fun _ _ _ _ _ => rfl
  fresh _ _ _ := ⟨rfl, rfl⟩
  left b _ hu := by cases hu
  absent _ _ := rfl
  reading p b hp := by cases hp
  ready p b hp := by cases hp
  recent := List.pairwise_of_forall_mem_list fun _ _ _ _ => le_rfl
  pinned b hb := by cases hb

theorem contents_exec (zero : D) (disk : ℕ → ℕ → D) {es : List (Event D)}
    (hs : Runs.exec (step n) (init zero disk) es = some t) :
    ∃ l, Inv n t l ∧ Contents t l (history n (init zero disk) es) := by
  refine Runs.exec_history (I := fun es s =>
    ∃ l, Inv n s l ∧ Contents s l (history n (init zero disk) es)) ?_ ?_ es hs
  · exact ⟨_, inv_init n zero disk, contents_init zero disk _⟩
  · rintro es s e u hs ⟨l, hinv, hc⟩ he
    rw [history_snoc hs he]
    exact ⟨_, hinv.step he, Contents.step hinv hc he⟩

/-! ## What the steps of a run do -/

theorem Inv.keeps (hinv : Inv n s l) {e : Event D} (hs : Bio.step n s e = some t)
    (href : (s.buf b).refcnt ≠ 0) : t.key b = s.key b := by
  cases step_moves hs with
  | get hp hidle =>
    unfold State.bget
    split
    · exact key_setRefcnt s _ _ b
    · split
      · rename_i c hun
        rw [hinv.unused_eq] at hun
        have hne : b ≠ c := by
          rintro rfl
          exact href (by simpa using List.find?_some hun)
        exact congrArg (fun u : Buf D => (u.dev, u.blockno)) (update_of_ne hne _ s.buf)
      · rfl
  | @fill p c hl =>
    by_cases hne : b = c
    · subst hne
      simp [State.key, State.setPc, State.setBuf, State.filled]
    · simp [State.key, State.setPc, State.setBuf, hne]
  | @modify p c d hold =>
    by_cases hne : b = c
    · subst hne
      simp [State.key, State.setBuf]
    · simp [State.key, State.setBuf, hne]
  | put hrel =>
    change (s.release _).key b = s.key b
    unfold State.release
    split
    · exact key_setRefcnt s _ _ b
    · exact key_setRefcnt s _ _ b
  | bpin hold => exact key_setRefcnt s _ _ b
  | bunpin hpin => exact key_setRefcnt s _ _ b
  | lock | bwrite | unlock => rfl

theorem Contents.takes (hinv : Inv n s l) (hc : Contents s l h) (p dev blockno : ℕ)
    (hp : (s.bget p dev blockno).panicked = false) : ∃ b < nbuf,
      (s.bget p dev blockno).pc p = .waiting b ∧
      (s.bget p dev blockno).key b = (dev, blockno) ∧
      ((∀ c < nbuf, s.key c ≠ (dev, blockno)) → (s.buf b).refcnt = 0 ∧
        ∀ c < nbuf, (s.buf c).refcnt = 0 →
          lastTime (Obs.frees b) h ≤ lastTime (Obs.frees c) h) := by
  unfold State.bget at hp ⊢
  cases hcached : s.cached dev blockno with
  | some b =>
    rw [cached_key hinv] at hcached
    have hlt := hinv.mem_iff.mp (List.mem_of_find?_eq_some hcached)
    have hk : s.key b = (dev, blockno) := by simpa using List.find?_some hcached
    exact ⟨b, hlt, update_self .., (key_setRefcnt s b _ b).trans hk,
      fun hmiss => absurd hk (hmiss b hlt)⟩
  | none =>
    cases hun : s.unused with
    | none => simp [hcached, hun] at hp
    | some b =>
      rw [hinv.unused_eq] at hun
      have hlt := hinv.mem_iff.mp (List.mem_reverse.mp (List.mem_of_find?_eq_some hun))
      refine ⟨b, hlt, update_self .., ?_, fun _ =>
        ⟨by simpa using List.find?_some hun, fun c hcl hzero => ?_⟩⟩
      · simp [State.key, State.setPc, State.setBuf]
      · have hrev := List.pairwise_reverse.mpr hc.recent
        have hmem := List.mem_reverse.mpr (hinv.mem_iff.mpr hcl)
        rcases find_first hun hrev hmem (by simpa using hzero) with rfl | hle
        · exact le_rfl
        · exact hle

theorem Contents.returns (hinv : Inv n s l) (hc : Contents s l h) {e : Event D}
    (hs : Bio.step n s e = some t) (hr : Bio.returns s e = some b) :
    (t.buf b).data = (Bio.left h (s.key b)).getD (s.block (s.key b)) := by
  cases step_moves hs with
  | @lock p c hw hfree =>
    simp only [Bio.returns, hw] at hr
    split at hr
    · rename_i hval
      obtain rfl := Option.some.inj hr
      have hcl := hinv.mem_iff.mpr (hinv.bound p c (.inl hw))
      have hu : s.used c = true := by
        by_contra hu
        simp [hc.fresh c hcl (by simpa using hu)] at hval
      rw [hc.left c hcl hu, hval]
      rfl
    · cases hr
  | @fill p c hl =>
    simp only [Bio.returns, hl] at hr
    obtain rfl := Option.some.inj hr
    obtain ⟨hown, hval⟩ := hc.reading p c hl
    have hcl := hinv.mem_iff.mpr (hinv.owner c p hown).1
    rw [hc.left c hcl (hc.used hcl (hinv.refcnt_owner hown)), hval]
    simp [State.setPc, State.setBuf, State.filled, State.block, State.key]
  | get | modify | bwrite | unlock | put | bpin | bunpin => cases hr

/-- The buffers always form one ring in which each stands once, and no two of them are for
one block. A buffer with references keeps its block, and a miss takes the buffer without
references that `brelse` left so least recently. `bread` returns the bytes last left in
the cache for the block, or those of the disk if its buffer was taken since; for a pinned
buffer they are in the cache. -/
theorem cache_refines_disk (n : ℕ) (zero : D) (disk : ℕ → ℕ → D) {es : List (Event D)}
    {t : State D} (hs : Runs.exec (step n) (init zero disk) es = some t) :
    (∃ l, Ring t.next t.prev nbuf l ∧ l.Perm (List.range nbuf)) ∧
    (∀ b < nbuf, ∀ b' < nbuf, t.used b = true → t.used b' = true → t.key b = t.key b' →
      b = b') ∧
    (∀ e u, step n t e = some u →
      (∀ b, (t.buf b).refcnt ≠ 0 → u.key b = t.key b) ∧
      (∀ p dev blockno, e = .get p dev blockno → u.panicked = false → ∃ b < nbuf,
        u.pc p = .waiting b ∧ u.key b = (dev, blockno) ∧
        ((∀ c < nbuf, t.key c ≠ (dev, blockno)) → (t.buf b).refcnt = 0 ∧
          ∀ c < nbuf, (t.buf c).refcnt = 0 →
            lastTime (Obs.frees b) (history n (init zero disk) es) ≤
              lastTime (Obs.frees c) (history n (init zero disk) es))) ∧
      ∀ b, returns t e = some b → (u.buf b).data =
        (left (history n (init zero disk) es) (t.key b)).getD (t.block (t.key b))) ∧
    ∀ b, 0 < t.pins b → (t.buf b).refcnt ≠ 0 ∧
      left (history n (init zero disk) es) (t.key b) = some (t.buf b).data := by
  obtain ⟨l, hinv, hc⟩ := contents_exec zero disk hs
  refine ⟨⟨l, hinv.ring, hinv.perm⟩, ?_, ?_, ?_⟩
  · exact fun b hb b' hb' => hc.inj (hinv.mem_iff.mpr hb) (hinv.mem_iff.mpr hb')
  · refine fun e u he => ⟨fun b => hinv.keeps he, ?_, fun b => hc.returns hinv he⟩
    rintro p dev blockno rfl hp
    cases step_moves he with
    | get => exact hc.takes hinv p dev blockno hp
  · intro b hpin
    obtain ⟨hbl, hval⟩ := hc.pinned b hpin
    have href := hinv.refcnt_pinned hpin
    rw [hc.left b hbl (hc.used hbl href), hval]
    exact ⟨href, rfl⟩

end

/-- A modified block that is pinned and given back. -/
theorem cache_refines_disk_pinned : ∃ t : State ℕ,
    Runs.exec (step 2) (init 0 fun _ b => b) [.get 0 1 7, .lock 0, .fill 0, .modify 0 0 42,
      .bpin 0 0, .unlock 0 0, .put 0] = some t ∧ 0 < t.pins 0 ∧
    left (history 2 (init 0 fun _ b => b) [.get 0 1 7, .lock 0, .fill 0, .modify 0 0 42,
      .bpin 0 0, .unlock 0 0, .put 0]) (t.key 0) = some (t.buf 0).data := by
  obtain ⟨t, ht, hpin⟩ : ∃ t : State ℕ, Runs.exec (step 2) (init 0 fun _ b => b)
      [.get 0 1 7, .lock 0, .fill 0, .modify 0 0 42, .bpin 0 0, .unlock 0 0, .put 0] = some t ∧
      t.pins 0 = 1 := Option.map_eq_some_iff.mp (by decide +kernel)
  have hpos : 0 < t.pins 0 := by omega
  exact ⟨t, ht, hpos, ((cache_refines_disk 2 0 (fun _ b => b) ht).2.2.2 0 hpos).2⟩

/-- One process reads `NBUF` blocks, one after the other. Then it reads the first of them
again, pins it, gives it back and takes the pin away. -/
def aging : List (Event ℕ) :=
  (List.range nbuf).flatMap (fun b => [.get 0 1 b, .lock 0, .fill 0, .unlock 0 b, .put 0]) ++
    [.get 0 1 0, .lock 0, .bpin 0 0, .unlock 0 0, .put 0, .bunpin 0]

/-- `bunpin` does not move the buffer: the next miss takes it, although it was given back
after the others. -/
theorem bget_takes_newest :
    (Runs.exec (step 1) (init 0 fun _ b => b) aging).map
      (fun t => ((t.buf 0).refcnt, (t.buf 1).refcnt)) = some (0, 0) ∧
    lastTime (Obs.releases 1) (history 1 (init 0 fun _ b => b) aging) <
      lastTime (Obs.releases 0) (history 1 (init 0 fun _ b => b) aging) ∧
    (Runs.exec (step 1) (init 0 fun _ b => b) (aging ++ [.get 0 1 nbuf])).map
      (fun u => u.key 0) = some (1, nbuf) := by
  decide +kernel

end Xv6.Bio
