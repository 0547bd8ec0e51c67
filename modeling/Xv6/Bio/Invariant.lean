import Mathlib.Tactic
import Xv6.Lib.Bag
import Xv6.Bio.Model

/-!
# The ring and the reference counts

In every reachable state the links form one ring through all buffers, and `refcnt` of a
buffer counts the processes that wait for it, hold it or are about to give it back, and
its pins.
-/

namespace Xv6.Bio

open Chain Bag Function

variable {D : Type}

/-- What a step can be. -/
inductive Moves (n : ℕ) (s : State D) : Event D → State D → Prop
  | get {p dev blockno : ℕ} (hp : p < n) (hidle : s.pc p = .idle) :
    Moves n s (.get p dev blockno) (s.bget p dev blockno)
  | lock {p b : ℕ} (hw : s.pc p = .waiting b) (hfree : s.owner b = none) :
    Moves n s (.lock p)
      ((s.setOwner b (some p)).setPc p (if (s.buf b).valid then .idle else .locked b))
  | fill {p b : ℕ} (hl : s.pc p = .locked b) :
    Moves n s (.fill p) ((s.setBuf b (s.filled b)).setPc p .idle)
  | modify {p b : ℕ} {d : D} (hold : s.Holds p b) :
    Moves n s (.modify p b d) (s.setBuf b { s.buf b with data := d })
  | bwrite {p b : ℕ} (hold : s.Holds p b) :
    Moves n s (.bwrite p b) (s.setDisk (s.buf b).dev (s.buf b).blockno (s.buf b).data)
  | unlock {p b : ℕ} (hold : s.Holds p b) :
    Moves n s (.unlock p b) ((s.setOwner b none).setPc p (.releasing b))
  | put {p b : ℕ} (hrel : s.pc p = .releasing b) :
    Moves n s (.put p) ((s.release b).setPc p .idle)
  | bpin {p b : ℕ} (hold : s.Holds p b) :
    Moves n s (.bpin p b) { s.setRefcnt b ((s.buf b).refcnt + 1) with
      pins := update s.pins b (s.pins b + 1) }
  | bunpin {b : ℕ} (hpin : 0 < s.pins b) :
    Moves n s (.bunpin b) { s.setRefcnt b ((s.buf b).refcnt - 1) with
      pins := update s.pins b (s.pins b - 1) }

theorem step_moves {n : ℕ} {s t : State D} {e : Event D} (hs : step n s e = some t) :
    Moves n s e t := by
  unfold step at hs
  split at hs
  · cases hs
  cases e with
  | get p dev blockno =>
    simp only [Option.ite_none_right_eq_some, Option.some.injEq] at hs
    obtain ⟨⟨hp, hidle⟩, rfl⟩ := hs
    exact .get hp hidle
  | lock p =>
    dsimp only at hs
    split at hs
    · rename_i b hw
      simp only [Option.ite_none_right_eq_some, Option.some.injEq] at hs
      obtain ⟨hfree, rfl⟩ := hs
      exact .lock hw hfree
    · cases hs
  | fill p =>
    dsimp only at hs
    split at hs
    · rename_i b hl
      cases hs
      exact .fill hl
    · cases hs
  | put p =>
    dsimp only at hs
    split at hs
    · rename_i b hrel
      cases hs
      exact .put hrel
    · cases hs
  | modify p b d =>
    simp only [Option.ite_none_right_eq_some, Option.some.injEq] at hs
    obtain ⟨hold, rfl⟩ := hs
    exact .modify hold
  | bwrite p b =>
    simp only [Option.ite_none_right_eq_some, Option.some.injEq] at hs
    obtain ⟨hold, rfl⟩ := hs
    exact .bwrite hold
  | unlock p b =>
    simp only [Option.ite_none_right_eq_some, Option.some.injEq] at hs
    obtain ⟨hold, rfl⟩ := hs
    exact .unlock hold
  | bpin p b =>
    simp only [Option.ite_none_right_eq_some, Option.some.injEq] at hs
    obtain ⟨hold, rfl⟩ := hs
    exact .bpin hold
  | bunpin b =>
    simp only [Option.ite_none_right_eq_some, Option.some.injEq] at hs
    obtain ⟨hpin, rfl⟩ := hs
    exact .bunpin hpin

/-- A process outside the sleep-lock that `refcnt` counts for the buffer. -/
def Pc.wants (pc : Pc) (b : ℕ) : ℕ := if pc = .waiting b ∨ pc = .releasing b then 1 else 0

/-- The reference of the holder of a sleep-lock. -/
def held : Option ℕ → ℕ
  | none => 0
  | some _ => 1

/-- The references to a buffer. -/
def State.refs (n : ℕ) (s : State D) (b : ℕ) : ℕ :=
  total n (fun p => (s.pc p).wants b) + held (s.owner b) + s.pins b

/-- A process is concerned with a buffer. -/
def Pc.At (pc : Pc) (b : ℕ) : Prop := pc = .waiting b ∨ pc = .locked b ∨ pc = .releasing b

/-- The invariant, with the buffers in the order of the ring. -/
structure Inv (n : ℕ) (s : State D) (l : List ℕ) : Prop where
  ring : Ring s.next s.prev nbuf l
  perm : l.Perm (List.range nbuf)
  refs : ∀ b, (s.buf b).refcnt = s.refs n b
  proc : ∀ p, s.pc p ≠ .idle → p < n
  bound : ∀ p b, (s.pc p).At b → b < nbuf
  owner : ∀ b p, s.owner b = some p → b < nbuf ∧ p < n

/-- The order of the ring after a step: a buffer that `brelse` leaves without a reference
comes first. -/
def order (s : State D) (l : List ℕ) : Event D → List ℕ
  | .put p =>
    match s.pc p with
    | .releasing b => if (s.buf b).refcnt - 1 = 0 then b :: l.erase b else l
    | _ => l
  | _ => l

section

variable {n : ℕ} {s t : State D} {l : List ℕ} {p b : ℕ}

theorem Inv.mem_iff (h : Inv n s l) {b : ℕ} : b ∈ l ↔ b < nbuf := by
  rw [h.perm.mem_iff, List.mem_range]

theorem Inv.length (h : Inv n s l) : l.length < nbuf + 1 := by
  rw [h.perm.length_eq, List.length_range]
  omega

theorem Inv.head_not_mem (h : Inv n s l) : nbuf ∉ l := (List.nodup_cons.mp h.ring.nodup).1

theorem Inv.cached_eq (h : Inv n s l) (dev blockno : ℕ) : s.cached dev blockno =
    l.find? fun b => (s.buf b).dev = dev ∧ (s.buf b).blockno = blockno :=
  h.ring.linked.scan_next _ h.head_not_mem h.length

theorem Inv.unused_eq (h : Inv n s l) :
    s.unused = l.reverse.find? fun b => (s.buf b).refcnt = 0 :=
  h.ring.linked.scan_prev _ h.head_not_mem h.length

/-! ## Counting -/

theorem wants_idle (b : ℕ) : Pc.idle.wants b = 0 := by simp [Pc.wants]

theorem wants_locked (a b : ℕ) : (Pc.locked a).wants b = 0 := by simp [Pc.wants]

theorem wants_waiting (a b : ℕ) : (Pc.waiting a).wants b = if a = b then 1 else 0 := by
  simp [Pc.wants]

theorem wants_releasing (a b : ℕ) : (Pc.releasing a).wants b = if a = b then 1 else 0 := by
  simp [Pc.wants]

theorem refcnt_setRefcnt (s : State D) (b k c : ℕ) :
    ((s.setRefcnt b k).buf c).refcnt = if c = b then k else (s.buf c).refcnt := by
  by_cases hc : c = b
  · subst hc
    simp [State.setRefcnt, State.setBuf]
  · simp [State.setRefcnt, State.setBuf, hc]

theorem refs_setPc (s : State D) (hp : p < n) (v : Pc) (c : ℕ) :
    (s.setPc p v).refs n c + (s.pc p).wants c = s.refs n c + v.wants c := by
  have h : total n (fun q => (update s.pc p v q).wants c) + (s.pc p).wants c =
      total n (fun q => (s.pc q).wants c) + v.wants c :=
    total_update s.pc (fun _ pc => pc.wants c) hp v
  simp only [State.refs, State.setPc]
  omega

theorem refs_setOwner (s : State D) (n b : ℕ) (o : Option ℕ) (c : ℕ) :
    (s.setOwner b o).refs n c + (if c = b then held (s.owner b) else 0) =
      s.refs n c + if c = b then held o else 0 := by
  by_cases hc : c = b
  · subst hc
    simp only [State.refs, State.setOwner, update_self, if_true]
    omega
  · simp [State.refs, State.setOwner, hc]

/-! ## Steps -/

theorem Inv.move (h : Inv n s l) {l' : List ℕ} (hring : Ring t.next t.prev nbuf l')
    (hperm : l'.Perm l) (hrefs : ∀ b, (t.buf b).refcnt = t.refs n b)
    (hpc : ∀ q, t.pc q = s.pc q ∨ q < n ∧ ∀ b, (t.pc q).At b → b < nbuf)
    (howner : ∀ b q, t.owner b = some q → s.owner b = some q ∨ b < nbuf ∧ q < n) :
    Inv n t l' where
  ring := hring
  perm := hperm.trans h.perm
  refs := hrefs
  proc q hq := by
    rcases hpc q with heq | ⟨hlt, -⟩
    · exact h.proc q (heq ▸ hq)
    · exact hlt
  bound q b hb := by
    rcases hpc q with heq | ⟨-, hlt⟩
    · exact h.bound q b (heq ▸ hb)
    · exact hlt b hb
  owner b q hq := (howner b q hq).elim (h.owner b q) id

theorem Inv.keep (h : Inv n s l) (hnext : t.next = s.next) (hprev : t.prev = s.prev)
    (hrefs : ∀ b, (t.buf b).refcnt = t.refs n b)
    (hpc : ∀ q, t.pc q = s.pc q ∨ q < n ∧ ∀ b, (t.pc q).At b → b < nbuf)
    (howner : ∀ b q, t.owner b = some q → s.owner b = some q ∨ b < nbuf ∧ q < n) : Inv n t l :=
  h.move (by rw [hnext, hprev]; exact h.ring) (.refl l) hrefs hpc howner

theorem pc_update (hp : p < n) {v : Pc} (hv : ∀ b, v.At b → b < nbuf) (q : ℕ) :
    update s.pc p v q = s.pc q ∨
      q < n ∧ ∀ b, (update s.pc p v q).At b → b < nbuf := by
  by_cases hq : q = p
  · subst hq
    rw [update_self]
    exact .inr ⟨hp, hv⟩
  · exact .inl (update_of_ne hq _ _)

theorem at_idle {c : ℕ} (h : Pc.idle.At c) : c < nbuf := by simp [Pc.At] at h

theorem Inv.get (h : Inv n s l) (hp : p < n) (hidle : s.pc p = .idle) (dev blockno : ℕ) :
    Inv n (s.bget p dev blockno) l := by
  have hmem : ∀ {b}, b ∈ l → ∀ c, (Pc.waiting b).At c → c < nbuf := by
    intro b hb c hc
    obtain rfl : b = c := by simpa [Pc.At] using hc
    exact h.mem_iff.mp hb
  have hcount : ∀ b c, (s.setPc p (.waiting b)).refs n c = s.refs n c + if b = c then 1 else 0 := by
    intro b c
    have := refs_setPc s hp (.waiting b) c
    rwa [hidle, wants_idle, wants_waiting, Nat.add_zero] at this
  unfold State.bget
  split
  · rename_i b hb
    rw [h.cached_eq] at hb
    refine h.keep rfl rfl (fun c => ?_) (pc_update hp (hmem (List.mem_of_find?_eq_some hb)))
      fun _ _ => .inl
    have hc := h.refs c
    change ((s.setRefcnt b ((s.buf b).refcnt + 1)).buf c).refcnt = (s.setPc p (.waiting b)).refs n c
    rw [refcnt_setRefcnt, hcount]
    by_cases hcb : c = b
    · subst hcb
      simp [hc]
    · simp [hcb, Ne.symm hcb, hc]
  · split
    · rename_i b hb
      rw [h.unused_eq] at hb
      have hzero : (s.buf b).refcnt = 0 := by simpa using List.find?_some hb
      refine h.keep rfl rfl (fun c => ?_)
        (pc_update hp (hmem (List.mem_reverse.mp (List.mem_of_find?_eq_some hb)))) fun _ _ => .inl
      have hc := h.refs c
      change (update s.buf b ⟨dev, blockno, 1, false, (s.buf b).data⟩ c).refcnt =
        (s.setPc p (.waiting b)).refs n c
      rw [hcount]
      by_cases hcb : c = b
      · subst hcb
        simp [← hc, hzero]
      · simp [hcb, Ne.symm hcb, hc]
    · exact h.keep rfl rfl h.refs (fun _ => .inl rfl) fun _ _ => .inl

theorem Inv.lock (h : Inv n s l) (hw : s.pc p = .waiting b) (hfree : s.owner b = none) {v : Pc}
    (hv : v = .idle ∨ v = .locked b) : Inv n ((s.setOwner b (some p)).setPc p v) l := by
  have hp := h.proc p (by simp [hw])
  have hb := h.bound p b (.inl hw)
  have hvat : ∀ c, v.At c → c < nbuf := by
    intro c hc
    rcases hv with rfl | rfl
    · exact at_idle hc
    · obtain rfl : b = c := by simpa [Pc.At] using hc
      exact hb
  have hv0 : ∀ c, v.wants c = 0 := by
    intro c
    rcases hv with rfl | rfl
    · exact wants_idle c
    · exact wants_locked b c
  refine h.keep rfl rfl (fun c => ?_) (pc_update hp hvat) fun c q hq => ?_
  · have hc := h.refs c
    have h1 := refs_setPc (s.setOwner b (some p)) hp v c
    have h2 := refs_setOwner s n b (some p) c
    rw [show (s.setOwner b (some p)).pc p = .waiting b from hw, wants_waiting, hv0 c] at h1
    rw [hfree] at h2
    simp only [held] at h2
    change (s.buf c).refcnt = _
    split_ifs at h1 h2 <;> omega
  · by_cases hcb : c = b
    · subst hcb
      obtain rfl : p = q := by simpa [State.setOwner, State.setPc] using hq
      exact .inr ⟨hb, hp⟩
    · exact .inl (by simpa [State.setOwner, State.setPc, hcb] using hq)

theorem Inv.same (h : Inv n s l) (hnext : t.next = s.next) (hprev : t.prev = s.prev)
    (hbuf : ∀ b, (t.buf b).refcnt = (s.buf b).refcnt) (howner : t.owner = s.owner)
    (hpins : t.pins = s.pins)
    (hpc : ∀ q, t.pc q = s.pc q ∨ (∃ b, s.pc q = .locked b) ∧ t.pc q = .idle) : Inv n t l := by
  have hwants : ∀ q c, (t.pc q).wants c = (s.pc q).wants c := by
    intro q c
    rcases hpc q with heq | ⟨⟨b, hb⟩, hi⟩
    · rw [heq]
    · rw [hb, hi, wants_idle, wants_locked]
  refine h.keep hnext hprev (fun b => ?_) (fun q => ?_) fun b q hq => .inl (howner ▸ hq)
  · rw [hbuf, h.refs, State.refs, State.refs, howner, hpins]
    simp only [hwants]
  · rcases hpc q with heq | ⟨⟨b, hb⟩, hi⟩
    · exact .inl heq
    · refine .inr ⟨h.proc q (by simp [hb]), fun c hc => at_idle (hi ▸ hc)⟩

theorem Inv.unlock (h : Inv n s l) (hold : s.Holds p b) :
    Inv n ((s.setOwner b none).setPc p (.releasing b)) l := by
  obtain ⟨hown, hidle⟩ := hold
  obtain ⟨hb, hp⟩ := h.owner b p hown
  have hat : ∀ c, (Pc.releasing b).At c → c < nbuf := by
    intro c hc
    obtain rfl : b = c := by simpa [Pc.At] using hc
    exact hb
  refine h.keep rfl rfl (fun c => ?_) (pc_update hp hat) fun c q hq => ?_
  · have hc := h.refs c
    have h1 := refs_setPc (s.setOwner b none) hp (.releasing b) c
    have h2 := refs_setOwner s n b none c
    rw [show (s.setOwner b none).pc p = .idle from hidle, wants_idle, wants_releasing] at h1
    rw [hown] at h2
    simp only [held] at h2
    change (s.buf c).refcnt = _
    split_ifs at h1 h2 <;> omega
  · by_cases hcb : c = b
    · subst hcb
      simp [State.setOwner, State.setPc] at hq
    · exact .inl (by simpa [State.setOwner, State.setPc, hcb] using hq)

theorem Inv.pin (h : Inv n s l) (b : ℕ) :
    Inv n { s.setRefcnt b ((s.buf b).refcnt + 1) with
      pins := update s.pins b (s.pins b + 1) } l := by
  refine h.keep rfl rfl (fun c => ?_) (fun _ => .inl rfl) fun _ _ => .inl
  have hc := h.refs c
  change ((s.setRefcnt b ((s.buf b).refcnt + 1)).buf c).refcnt = _
  rw [refcnt_setRefcnt]
  by_cases hcb : c = b
  · subst hcb
    simp [hc, State.refs, State.setRefcnt, State.setBuf]
    omega
  · simp [hc, hcb, State.refs, State.setRefcnt, State.setBuf]

theorem Inv.unpin (h : Inv n s l) (hpin : 0 < s.pins b) :
    Inv n { s.setRefcnt b ((s.buf b).refcnt - 1) with
      pins := update s.pins b (s.pins b - 1) } l := by
  refine h.keep rfl rfl (fun c => ?_) (fun _ => .inl rfl) fun _ _ => .inl
  have hc := h.refs c
  change ((s.setRefcnt b ((s.buf b).refcnt - 1)).buf c).refcnt = _
  rw [refcnt_setRefcnt]
  by_cases hcb : c = b
  · subst hcb
    simp [hc, State.refs, State.setRefcnt, State.setBuf]
    omega
  · simp [hc, hcb, State.refs, State.setRefcnt, State.setBuf]

theorem Inv.put (h : Inv n s l) (hrel : s.pc p = .releasing b) :
    Inv n ((s.release b).setPc p .idle) (order s l (.put p)) := by
  have hp := h.proc p (by simp [hrel])
  have hb := h.bound p b (.inr (.inr hrel))
  have hmem : b ∈ l := h.mem_iff.mpr hb
  have hpc := pc_update (s := s) (v := .idle) hp fun c hc => at_idle hc
  -- the reference that is given back
  have hrefs : ∀ c, (if c = b then (s.buf b).refcnt - 1 else (s.buf c).refcnt) =
      (s.setPc p .idle).refs n c := by
    intro c
    have hc := h.refs c
    have h1 := refs_setPc s hp .idle c
    rw [hrel, wants_idle, wants_releasing] at h1
    split_ifs at h1 ⊢ <;> first | omega | (subst_vars; omega)
  simp only [order, hrel]
  unfold State.release
  by_cases hlast : (s.buf b).refcnt - 1 = 0
  · rw [if_pos hlast, if_pos hlast]
    have hnodup := (List.nodup_cons.mp h.ring.nodup).2
    obtain ⟨l1, l2, rfl⟩ := List.append_of_mem hmem
    have hb1 : b ∉ l1 := fun hm => (List.nodup_append.mp hnodup).2.2 b hm b (by simp) rfl
    have hb2 : b ∉ l2 := (List.nodup_cons.mp (List.nodup_append.mp hnodup).2.1).1
    have herase : (l1 ++ b :: l2).erase b = l1 ++ l2 := by
      rw [List.erase_append_right _ hb1, List.erase_cons_head]
    have hne : b ≠ nbuf := hb.ne
    refine h.move ?_ (List.perm_cons_erase hmem).symm (fun c => ?_) hpc fun _ _ => .inl
    · rw [herase]
      exact h.ring.unlink.push (by simp [hne, hb1, hb2])
    · exact (refcnt_setRefcnt s b _ c).trans (hrefs c)
  · rw [if_neg hlast, if_neg hlast]
    exact h.keep rfl rfl (fun c => (refcnt_setRefcnt s b _ c).trans (hrefs c)) hpc fun _ _ => .inl

theorem Inv.setBuf (h : Inv n s l) {u : Buf D} (hu : u.refcnt = (s.buf b).refcnt) :
    Inv n (s.setBuf b u) l := by
  refine h.same rfl rfl (fun c => ?_) rfl rfl fun _ => .inl rfl
  by_cases hc : c = b
  · subst hc
    simp [State.setBuf, hu]
  · simp [State.setBuf, hc]

theorem Inv.step (h : Inv n s l) {e : Event D} (hs : step n s e = some t) :
    Inv n t (order s l e) := by
  cases step_moves hs with
  | get hp hidle => exact h.get hp hidle _ _
  | lock hw hfree => exact h.lock hw hfree (by split <;> simp)
  | @fill p b hl =>
    have hset : Inv n (s.setBuf b (s.filled b)) l := h.setBuf rfl
    refine hset.same rfl rfl (fun _ => rfl) rfl rfl fun q => ?_
    by_cases hq : q = p
    · subst hq
      exact .inr ⟨⟨b, hl⟩, update_self ..⟩
    · exact .inl (update_of_ne hq _ _)
  | modify hold => exact h.setBuf rfl
  | bwrite hold => exact h.same rfl rfl (fun _ => rfl) rfl rfl fun _ => .inl rfl
  | unlock hold => exact h.unlock hold
  | put hrel => exact h.put hrel
  | bpin hold => exact h.pin _
  | bunpin hpin => exact h.unpin hpin

/-! ## Runs -/

theorem ring_binit (i : ℕ) (hi : i ≤ nbuf) :
    Ring (binit i).1 (binit i).2 nbuf (List.range i).reverse := by
  induction i with
  | zero => exact ⟨⟨rfl, rfl⟩, by simp⟩
  | succ i ih =>
    rw [List.range_succ, List.reverse_append, List.reverse_singleton, List.singleton_append]
    have hlt : i < nbuf := hi
    exact (ih hlt.le).push (by simp [hlt.ne])

theorem inv_init (n : ℕ) (zero : D) (disk : ℕ → ℕ → D) :
    Inv n (init zero disk) (List.range nbuf).reverse where
  ring := ring_binit nbuf le_rfl
  perm := List.reverse_perm _
  refs b := by
    have h0 : total n (fun p => ((init zero disk).pc p).wants b) = 0 :=
      total_zero fun p _ => wants_idle b
    rw [State.refs, h0]
    rfl
  proc p hp := absurd rfl hp
  bound p b hb := at_idle hb
  owner b p h := by cases h

end

end Xv6.Bio
