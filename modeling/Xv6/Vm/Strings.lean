import Xv6.Vm.View

/-!
# Strings from user memory

`copyinstr` with its two loops, one over pages and one over the bytes of a page. It copies
a string with its NUL if the string is mapped for the user and shorter than `max`, and
fails otherwise. A page counts as mapped by `PTE_V` and `PTE_U`; `PTE_R` is not tested.
-/

namespace Xv6.Vm

open Eff Function

/-- The variables of both loops. The pointer `dst` is the buffer with a position. -/
structure Cursor where
  dst : ℕ → ℕ
  pos : ℕ
  max : ℕ
  gotNull : Bool

/-- `*dst = '\0'; got_null = 1;` -/
def Cursor.putNull (c : Cursor) : Cursor :=
  { c with dst := update c.dst c.pos 0, gotNull := true }

/-- `*dst = b; --max; dst++;` -/
def Cursor.put (c : Cursor) (b : ℕ) : Cursor :=
  { c with dst := update c.dst c.pos b, max := c.max - 1, pos := c.pos + 1 }

/-- The loop over `n` bytes of a page from `p` on. -/
def bytesLoop (page : ℕ → ℕ) : ℕ → ℕ → Cursor → Cursor
  | 0, _, c => c
  | n + 1, p, c => if page p = 0 then c.putNull else bytesLoop page n (p + 1) (c.put (page p))

theorem bytesLoop_max (page : ℕ → ℕ) : ∀ n p c, (bytesLoop page n p c).gotNull = true ∨
    (bytesLoop page n p c).max = c.max - n := by
  intro n
  induction n with
  | zero => exact fun _ _ => .inr rfl
  | succ n ih =>
    intro p c
    unfold bytesLoop
    split
    · exact .inl rfl
    · refine (ih (p + 1) _).imp_right fun h => h.trans ?_
      rw [Nat.add_comm n]
      exact Nat.sub_sub c.max 1 n

/-- What is left of the loop over pages. -/
def Cursor.left (c : Cursor) : ℕ := if c.gotNull then 0 else c.max + 1

theorem bytesLoop_left (page : ℕ → ℕ) {n : ℕ} (p : ℕ) {c : Cursor} (hn : 0 < n)
    (hc : c.gotNull = false ∧ 0 < c.max) : (bytesLoop page n p c).left < c.left := by
  unfold Cursor.left
  rcases bytesLoop_max page n p c with h | h
  · simp [h, hc.1]
  · rw [h, hc.1]
    split
    · exact Nat.succ_pos _
    · exact Nat.succ_lt_succ (Nat.sub_lt hc.2 hn)

theorem offset_eq (a : ℕ) : a - pgrounddown a = a % pgsize := by
  have := Nat.div_add_mod' a pgsize
  unfold pgrounddown
  omega

theorem room_pos (a : ℕ) {max : ℕ} (h : 0 < max) :
    0 < min (pgsize - (a - pgrounddown a)) max := by
  have hlt : a % pgsize < pgsize := Nat.mod_lt a (by decide)
  rw [offset_eq]
  omega

/-- The loop over pages. It returns the result and the buffer. -/
def pagesLoop (pagetable srcva : ℕ) (c : Cursor) : M (ℤ × (ℕ → ℕ)) :=
  if h : c.gotNull = false ∧ 0 < c.max then do
    let va0 := pgrounddown srcva
    -- `walkaddr` returns 0 if there is no page
    let pa0 := (← walkaddr pagetable va0).getD 0
    if pa0 = 0 then return (-1, c.dst)
    let page := (← get).data pa0
    let n := min (pgsize - (srcva - va0)) c.max
    pagesLoop pagetable ((va0 + pgsize) % 2 ^ 64) (bytesLoop page n (srcva - va0) c)
  else pure (if c.gotNull then 0 else -1, c.dst)
termination_by c.left
decreasing_by exact bytesLoop_left _ _ (room_pos srcva h.2) h

/-- `copyinstr` as the source has it. -/
def copyinstrPages (pagetable : ℕ) (dst : ℕ → ℕ) (srcva max : UInt64) : M (ℤ × (ℕ → ℕ)) :=
  pagesLoop pagetable srcva.toNat ⟨dst, 0, max.toNat, false⟩

/-! ## What is copied -/

/-- The byte that `copyinstr` finds at an address. -/
def userByte (m : Mem) (r a : ℕ) : Option ℕ :=
  (((m.table r).leaf (a / pgsize)).filter fun pte => pte.perm.u && pte.pa ≠ 0).map
    fun pte => m.data pte.pa (a % pgsize)

/-- There is a string of `k` bytes and a NUL at an address. -/
def StringAt (m : Mem) (r a k : ℕ) : Prop :=
  (∀ j < k, ∃ b, userByte m r (a + j) = some b ∧ b ≠ 0) ∧ userByte m r (a + k) = some 0

/-- The bytes before the position are those of `f`. A NUL may have been copied to the
position, and the rest of the buffer is as it was. -/
structure Copied (f : ℕ → Option ℕ) (dst : ℕ → ℕ) (c : Cursor) : Prop where
  bytes : ∀ j < c.pos, f j = some (c.dst j) ∧ c.dst j ≠ 0
  rest : ∀ j > c.pos, c.dst j = dst j
  next : c.gotNull = true ∧ 0 < c.max ∧ f c.pos = some 0 ∧ c.dst c.pos = 0 ∨
    c.gotNull = false ∧ c.dst c.pos = dst c.pos

/-- The loop over pages ends at a NUL, at the limit or at a page that is not mapped. -/
structure Ended (f : ℕ → Option ℕ) (dst : ℕ → ℕ) (max : ℕ) (c : Cursor) : Prop
    extends Copied f dst c where
  sum : c.pos + c.max = max
  stop : c.gotNull = false → c.max = 0 ∨ f c.pos = none

section

variable {f : ℕ → Option ℕ} {page dst : ℕ → ℕ} {c : Cursor} {m : Mem} {r : ℕ}

theorem Copied.putNull (h : Copied f dst c) (hc : 0 < c.max) (hf : f c.pos = some 0) :
    Copied f dst c.putNull where
  bytes j hj := by
    have hj : j < c.pos := hj
    simpa [Cursor.putNull, hj.ne] using h.bytes j hj
  rest j hj := by
    have hj : c.pos < j := hj
    simpa [Cursor.putNull, hj.ne'] using h.rest j hj
  next := .inl ⟨rfl, hc, hf, update_self c.pos 0 c.dst⟩

theorem Copied.put (h : Copied f dst c) (hc : c.gotNull = false) {b : ℕ} (hf : f c.pos = some b)
    (hb : b ≠ 0) : Copied f dst (c.put b) where
  bytes j hj := by
    rcases Nat.lt_succ_iff_lt_or_eq.mp hj with hj | rfl
    · simpa [Cursor.put, hj.ne] using h.bytes j hj
    · simpa [Cursor.put] using ⟨hf, hb⟩
  rest j hj := by
    have hj : c.pos < j := Nat.lt_of_succ_lt hj
    simpa [Cursor.put, hj.ne'] using h.rest j hj
  next := .inr ⟨hc, by simpa [Cursor.put] using h.rest (c.pos + 1) (Nat.lt_succ_self _)⟩

theorem bytesLoop_spec : ∀ (n p : ℕ) (c : Cursor), Copied f dst c → c.gotNull = false →
    n ≤ c.max → (∀ j < n, f (c.pos + j) = some (page (p + j))) →
    Copied f dst (bytesLoop page n p c) ∧
      (bytesLoop page n p c).pos + (bytesLoop page n p c).max = c.pos + c.max := by
  intro n
  induction n with
  | zero => exact fun p c h _ _ _ => ⟨h, rfl⟩
  | succ n ih =>
    intro p c h hc hn hpage
    have hbyte : f c.pos = some (page p) := hpage 0 (Nat.zero_lt_succ n)
    unfold bytesLoop
    split
    · rename_i hzero
      exact ⟨h.putNull (Nat.zero_lt_of_lt hn) (hbyte.trans (congrArg some hzero)), rfl⟩
    · rename_i hne
      have hsum : c.pos + 1 + (c.max - 1) = c.pos + c.max := by omega
      rw [← hsum]
      refine ih (p + 1) (c.put (page p)) (h.put hc hbyte hne) hc (Nat.le_sub_one_of_lt hn)
        fun j hj => ?_
      have hnext := hpage (j + 1) (Nat.succ_lt_succ hj)
      rwa [Nat.add_comm j 1, ← Nat.add_assoc, ← Nat.add_assoc] at hnext

/-- The address that `walkaddr` returns, with 0 for a failure. -/
def walked (m : Mem) (r a : ℕ) : ℕ :=
  ((((m.table r).leaf (a / pgsize)).filter fun pte => pte.perm.u).map Pte.pa).getD 0

theorem userByte_walked (m : Mem) (r : ℕ) {a j : ℕ} (hj : j < pgsize - a % pgsize) :
    userByte m r (a + j) = if walked m r a = 0 then none
      else some (m.data (walked m r a) (a % pgsize + j)) := by
  have hdiv : (a + j) / pgsize = a / pgsize := by
    unfold pgsize at *
    omega
  have hmod : (a + j) % pgsize = a % pgsize + j := by
    unfold pgsize at *
    omega
  rw [userByte, walked, hdiv, hmod]
  cases (m.table r).leaf (a / pgsize) with
  | none => rfl
  | some pte =>
    cases hu : pte.perm.u <;> by_cases hpa : pte.pa = 0 <;> simp [hu, hpa, Option.filter]

theorem walked_lt (hwf : (m.table r).Wf) {a : ℕ} (h : walked m r a ≠ 0) : a < maxva := by
  have hleaf : (m.table r).leaf (a / pgsize) ≠ none := by
    intro hnone
    simp [walked, hnone] at h
  have := hwf.leaf_lt hleaf
  unfold maxva pgsize at *
  omega

theorem pagesLoop_spec (hwf : (m.table r).Wf) (a max srcva : ℕ) (c : Cursor) :
    Copied (fun j => userByte m r (a + j)) dst c → c.pos + c.max = max →
    (c.gotNull = false → 0 < c.max → srcva = a + c.pos) →
    Ensures (pagesLoop r srcva c) m fun res m' => m' = m ∧
      ∃ c', Ended (fun j => userByte m r (a + j)) dst max c' ∧
        res = (if c'.gotNull then 0 else -1, c'.dst) := by
  induction srcva, c using pagesLoop.induct with
  | case1 srcva c hc va0 ih =>
    intro h hsum hsrc
    have hlt : srcva % pgsize < pgsize := Nat.mod_lt srcva (by decide)
    obtain ⟨w, hw, hwalk⟩ : ∃ w, w.getD 0 = walked m r srcva ∧
        walkaddr r va0 m = .ok (w, m) := by
      refine ⟨_, ?_, walkaddr_eq va0 hwf⟩
      rw [walked, ← mul_pgsize_div (srcva / pgsize)]
      rfl
    have hbyte := fun j => userByte_walked m r (a := srcva) (j := j)
    replace ih := ih w m
    rw [pagesLoop, dif_pos hc]
    refine ensures_eq_bind hwalk ?_
    simp only [hw] at ih ⊢
    split
    · rename_i hzero
      have hnone := hbyte 0 (by omega)
      rw [if_pos hzero, add_zero, hsrc hc.1 hc.2] at hnone
      exact ensures_pure ⟨rfl, c, ⟨h, hsum, fun _ => .inr hnone⟩, by rw [hc.1]; rfl⟩
    · rename_i hne
      apply ensures_get_bind
      have hsrcva := hsrc hc.1 hc.2
      have hoff : srcva - va0 = srcva % pgsize := offset_eq srcva
      obtain ⟨hcopied, hsum'⟩ := bytesLoop_spec
        (min (pgsize - (srcva - va0)) c.max) (srcva - va0) c h hc.1 (min_le_right _ _)
        fun j hj => by
          have hat := hbyte j (by omega)
          rwa [if_neg hne, ← hoff, hsrcva, add_assoc, ← hsrcva] at hat
      refine ih hcopied (hsum'.trans hsum) fun hgot hmax => ?_
      -- not at the end yet: the bytes went to the end of the page
      have hleft := (bytesLoop_max (m.data (walked m r srcva)) (min (pgsize - (srcva - va0)) c.max)
        (srcva - va0) c).resolve_left (by rw [hgot]; decide)
      have hva := walked_lt hwf hne
      have hround : va0 + srcva % pgsize = srcva := Nat.div_add_mod' srcva pgsize
      rw [Nat.mod_eq_of_lt (by unfold maxva pgsize at *; omega)]
      omega
  | case2 srcva c hc =>
    intro h hsum _
    rw [pagesLoop, dif_neg hc]
    refine ensures_pure ⟨rfl, c, ⟨h, hsum, fun hgot => .inl ?_⟩, rfl⟩
    exact Nat.eq_zero_of_not_pos fun hpos => hc ⟨hgot, hpos⟩

/-- A string within the limit has been copied up to its NUL. -/
theorem Ended.found {max k : ℕ} (h : Ended f dst max c) (hk : k < max) (hzero : f k = some 0)
    (hbytes : ∀ j < k, ∃ b, f j = some b ∧ b ≠ 0) : c.gotNull = true ∧ c.pos = k := by
  have hsum := h.sum
  rcases lt_trichotomy k c.pos with hlt | rfl | hlt
  · obtain ⟨hbyte, hne⟩ := h.bytes k hlt
    rw [hzero] at hbyte
    exact absurd (Option.some.inj hbyte).symm hne
  · rcases h.next with ⟨hgot, -⟩ | ⟨hgot, -⟩
    · exact ⟨hgot, rfl⟩
    · have hmax := (h.stop hgot).resolve_right (by simp [hzero])
      omega
  · obtain ⟨b, hb, hne⟩ := hbytes c.pos hlt
    rcases h.next with ⟨-, -, hnul, -⟩ | ⟨hgot, -⟩
    · rw [hb] at hnul
      exact absurd (Option.some.inj hnul) hne
    · have hmax := (h.stop hgot).resolve_right (by simp [hb])
      omega

theorem copyinstrPages_ended (hwf : (m.table r).Wf) (dst : ℕ → ℕ) (srcva max : UInt64) :
    Ensures (copyinstrPages r dst srcva max) m fun res m' => m' = m ∧
      ∃ c, Ended (fun j => userByte m r (srcva.toNat + j)) dst max.toNat c ∧
        res = (if c.gotNull then 0 else -1, c.dst) :=
  pagesLoop_spec hwf srcva.toNat max.toNat srcva.toNat _
    ⟨fun _ hj => absurd hj (Nat.not_lt_zero _), fun _ _ => rfl, .inr ⟨rfl, rfl⟩⟩
    (Nat.zero_add _) fun _ _ => rfl

/-- `copyinstr` returns 0 exactly for a string shorter than `max` on pages of the user. It
has then copied the string and its NUL, and in no case it writes more than `max` bytes. -/
theorem copyinstr_string (hwf : (m.table r).Wf) (dst : ℕ → ℕ) (srcva max : UInt64) :
    Ensures (copyinstrPages r dst srcva max) m fun res m' => m' = m ∧
      (res.1 = 0 ∨ res.1 = -1) ∧
      (res.1 = 0 ↔ ∃ k < max.toNat, StringAt m r srcva.toNat k) ∧
      (∀ k < max.toNat, StringAt m r srcva.toNat k →
        (∀ j ≤ k, userByte m r (srcva.toNat + j) = some (res.2 j)) ∧
        ∀ j > k, res.2 j = dst j) ∧
      ∀ j ≥ max.toNat, res.2 j = dst j := by
  refine (copyinstrPages_ended hwf dst srcva max).mono ?_
  rintro _ m' ⟨rfl, c, h, rfl⟩
  have hsum := h.sum
  refine ⟨rfl, ?_, ⟨fun hres => ?_, fun ⟨k, hk, hstr⟩ => ?_⟩, fun k hk hstr => ?_, fun j hj => ?_⟩
  · cases c.gotNull <;> simp
  · rcases h.next with ⟨-, hmax, hnul, -⟩ | ⟨hgot, -⟩
    · exact ⟨c.pos, by omega, fun j hj => ⟨c.dst j, h.bytes j hj⟩, hnul⟩
    · simp [hgot] at hres
  · simp [(h.found hk hstr.2 hstr.1).1]
  · obtain ⟨hgot, rfl⟩ := h.found hk hstr.2 hstr.1
    refine ⟨fun j hj => ?_, h.rest⟩
    rcases Nat.lt_or_eq_of_le hj with hlt | rfl
    · exact (h.bytes j hlt).1
    · rcases h.next with ⟨-, -, hnul, hdst⟩ | ⟨hgot', -⟩
      · exact hnul.trans (congrArg some hdst.symm)
      · simp [hgot] at hgot'
  · rcases h.next with ⟨-, hmax, -⟩ | ⟨-, hsame⟩
    · exact h.rest j (by omega)
    · rcases Nat.lt_or_eq_of_le (show c.pos ≤ j by omega) with hlt | rfl
      · exact h.rest j hlt
      · exact hsame

end

/-- A page table with one page, which holds the string `a`. -/
def onePage (perm : Perm) : Mem where
  freelist := []
  twice := false
  data := fun _ o => if o = 0 then 97 else 0
  table := fun _ => ⟨fun _ i => if i = 0 then some 0x80201000 else none,
    fun v => if v = 0 then some ⟨0x80202000, perm⟩ else none⟩

theorem onePage_wf (perm : Perm) : ((onePage perm).table 0x80200000).Wf where
  leaf v hv := by
    have hv : v = 0 := by simpa [onePage] using hv
    simp [onePage, hv]
  next i hi := by
    have hi : i = 0 := by simpa [onePage] using hi
    simp [onePage, hi]
  bound i hi := by
    have hi : i = 0 := by simpa [onePage] using hi
    omega

theorem onePage_string (perm : Perm) (hu : perm.u = true) :
    StringAt (onePage perm) 0x80200000 0 1 := by
  refine ⟨fun j hj => ⟨97, ?_, by decide⟩, ?_⟩
  · obtain rfl : j = 0 := by omega
    simp [userByte, onePage, hu]
  · simp [userByte, onePage, hu, pgsize]

theorem copyinstr_string_onePage :
    Ensures (copyinstrPages 0x80200000 (fun _ => 7) 0 2) (onePage (pteR ||| pteU)) fun res _ =>
      res.1 = 0 ∧ res.2 2 = 7 := by
  refine (copyinstr_string (onePage_wf _) (fun _ => 7) 0 2).mono fun res m' h => ?_
  exact ⟨h.2.2.1.mpr ⟨1, by decide, onePage_string _ rfl⟩, h.2.2.2.2 2 (by decide)⟩

/-- A string on a page that the user may execute and not read is copied. -/
theorem copyinstr_execute_only :
    ((onePage (pteX ||| pteU)).table 0x80200000).Wf ∧
    (∀ v pte, ((onePage (pteX ||| pteU)).table 0x80200000).leaf v = some pte →
      pte.perm.r = false) ∧
    Ensures (copyinstrPages 0x80200000 (fun _ => 7) 0 2) (onePage (pteX ||| pteU)) fun res _ =>
      res.1 = 0 := by
  refine ⟨onePage_wf _, fun v pte hl => ?_, ?_⟩
  · obtain ⟨-, rfl⟩ : v = 0 ∧ ⟨0x80202000, pteX ||| pteU⟩ = pte := by
      simpa [onePage] using hl
    rfl
  · refine (copyinstrPages_ended (onePage_wf _) (fun _ => 7) 0 2).mono ?_
    rintro _ m' ⟨-, c, h, rfl⟩
    have hstr := onePage_string (pteX ||| pteU) rfl
    simp [(h.found (by decide) hstr.2 hstr.1).1]

end Xv6.Vm
