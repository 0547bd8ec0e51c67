import Xv6.Virtio.Invariant

/-!
# Steps of the disk driver

Every step of a process, of the handler and of the device keeps the invariant.
-/

namespace Xv6.Virtio

open Runs Function

variable {s t : State} {p q : ℕ} {pc old : Pc} {d : Driver} {o : Op} {c : Chain}

/-! ## Locks -/

/-- A step that does nothing but move, and perhaps take or give back the lock. -/
theorem Inv.relock (h : Inv s) {l : Option Owner} (hp : s.proc p = old)
    (hc : pc.critical = true ↔ l = some (.proc p))
    (hl : ∀ w, w ≠ .proc p → (l = some w ↔ s.driver.lock = some w))
    (hheld : pc.held = old.held) (hop : pc.op = old.op) (hflight : pc.flight = old.flight)
    (hf : Facts s p pc) : Inv ((s.setLock l).goto p pc) := by
  subst hp
  have e : Effect s p { s.driver with lock := l } s.busy s.holder pc := by
    refine { critical := hc, lock := hl, op := ?_, holder := fun _ _ _ hb => hb, owned := ?_,
             desc := fun _ _ => ⟨rfl, rfl, rfl⟩, busy := fun _ _ => rfl, avail := .inr rfl,
             availIdx := rfl, ring := h.queues.avail, used := rfl, seen := rfl, usedIdx := rfl,
             flight := ?_ }
    · rw [hop]
      exact h.locks.buf p
    · rw [hheld, show (s.proc p).held = s.held p from rfl, update_eq_self]
      exact h.owned
    · exact fun o c n hs hb => ⟨hflight.trans hs, hb, rfl⟩
  apply e.inv h
  have k : Keeps s (s.moved p { s.driver with lock := l } s.busy s.holder pc) pc :=
    ⟨.refl _ _, fun _ _ => rfl, fun _ => ⟨rfl, rfl⟩, fun _ _ hn => hn, List.Subset.refl _,
      fun _ he _ => he⟩
  exact k.facts hf

theorem Inv.go (h : Inv s) (hp : s.proc p = old) (hc : pc.critical = old.critical)
    (hheld : pc.held = old.held) (hop : pc.op = old.op) (hflight : pc.flight = old.flight)
    (hf : Facts s p pc) : Inv (s.goto p pc) := by
  refine h.relock (l := s.driver.lock) hp ?_ (fun _ _ => Iff.rfl) hheld hop hflight hf
  rw [hc, ← hp]
  exact h.locks.proc p

theorem Inv.leave (h : Inv s) (hp : s.proc p = old) (hold : old.critical = true)
    (hc : pc.critical = false) (hheld : pc.held = old.held) (hop : pc.op = old.op)
    (hflight : pc.flight = old.flight) (hf : Facts s p pc) :
    Inv ((s.setLock none).goto p pc) := by
  refine h.relock hp (by simp [hc]) (fun w hw => ?_) hheld hop hflight hf
  rw [(h.locks.proc p).mp (by rw [hp, hold])]
  simp [hw.symm]

theorem Inv.acquire {e : Entry} (h : Inv s) (hp : s.proc p = .acquire e)
    (hlock : s.driver.lock = none) : Inv ((s.setLock (some (.proc p))).goto p e.start) := by
  have hf := h.facts p
  rw [hp] at hf
  have hl : ∀ w, w ≠ .proc p → (some (Owner.proc p) = some w ↔ s.driver.lock = some w) :=
    fun w hw => by simp [hlock, hw.symm]
  cases e with
  | alloc o => exact h.relock hp (by simp [Entry.start, Pc.critical]) hl rfl rfl rfl trivial
  | wait o c n => exact h.relock hp (by simp [Entry.start, Pc.critical]) hl rfl rfl rfl hf

theorem Inv.call (h : Inv s) (hp : s.proc p = .user) (hb : s.holder o.buf = none) :
    Inv { s.goto p (.acquire (.alloc o)) with
      holder := update s.holder o.buf (some p) } := by
  have e : Effect s p s.driver s.busy (update s.holder o.buf (some p))
      (.acquire (.alloc o)) := by
    refine { critical := ?_, lock := fun _ _ => Iff.rfl, op := ?_, holder := ?_, owned := ?_,
             desc := fun _ _ => ⟨rfl, rfl, rfl⟩, busy := fun _ _ => rfl, avail := .inr rfl,
             availIdx := rfl, ring := h.queues.avail, used := rfl, seen := rfl, usedIdx := rfl,
             flight := ?_ }
    · rw [← h.locks.proc p, hp]
      rfl
    · intro o' ho'
      cases ho'
      exact update_self ..
    · intro b q _ hq
      rw [update_of_ne]
      · exact hq
      · rintro rfl
        rw [hb] at hq
        cases hq
    · have hheld : s.held p = Pc.held (.acquire (.alloc o)) := by simp [State.held, hp]; rfl
      rw [← hheld, update_eq_self]
      exact h.owned
    · rw [hp]
      exact fun _ _ _ hf => by cases hf
  exact e.inv h trivial

theorem Inv.release {n : ℕ} (h : Inv s) (hp : s.proc p = .release o n) :
    Inv { (s.setLock none).goto p .user with
      holder := update s.holder o.buf none } := by
  have hlock : s.driver.lock = some (.proc p) := (h.locks.proc p).mp (by rw [hp]; rfl)
  have hbuf : s.holder o.buf = some p := h.locks.buf p o (by rw [hp]; rfl)
  have e : Effect s p { s.driver with lock := none } s.busy
      (update s.holder o.buf none) .user := by
    refine { critical := ⟨nofun, nofun⟩, lock := ?_, op := nofun, holder := ?_, owned := ?_,
             desc := fun _ _ => ⟨rfl, rfl, rfl⟩, busy := fun _ _ => rfl, avail := .inr rfl,
             availIdx := rfl, ring := h.queues.avail, used := rfl, seen := rfl, usedIdx := rfl,
             flight := ?_ }
    · intro w hw
      rw [hlock]
      simp [hw.symm]
    · intro b q hqp hq
      rw [update_of_ne]
      · exact hq
      · rintro rfl
        rw [hbuf] at hq
        exact hqp (Option.some.inj hq).symm
    · have hheld : s.held p = Pc.held .user := by simp [State.held, hp, Pc.held]
      rw [← hheld, update_eq_self]
      exact h.owned
    · rw [hp]
      exact fun _ _ _ hf => by cases hf
  exact e.inv h trivial

/-! ## Descriptors -/

/-- A critical step on the free map and the process's own descriptors. -/
theorem Inv.own (h : Inv s) (hp : s.proc p = old) (hcrit : old.critical = true)
    (hpc : pc.critical = true) (hop : pc.op = old.op) (hflight : old.flight = none)
    (hlock : d.lock = s.driver.lock)
    (howned : Owned d.free (update s.held p pc.held))
    (hdesc : ∀ i, i ∉ old.held →
      d.desc i = s.driver.desc i ∧ d.ops i = s.driver.ops i ∧ d.info i = s.driver.info i)
    (hrings : (d.avail, d.availIdx, d.used, d.usedIdx, d.seen) =
      (s.driver.avail, s.driver.availIdx, s.driver.used, s.driver.usedIdx, s.driver.seen))
    (hf : Facts { s.goto p pc with driver := d } p pc) :
    Inv { s.goto p pc with driver := d } := by
  subst hp
  simp only [Prod.mk.injEq] at hrings
  obtain ⟨havail, havailIdx, hused, husedIdx, hseen⟩ := hrings
  have e : Effect s p d s.busy s.holder pc := by
    refine { critical := ?_, lock := ?_, op := ?_, holder := fun _ _ _ hb => hb, owned := howned,
             desc := hdesc, busy := fun _ _ => rfl, avail := .inl hcrit,
             availIdx := havailIdx, ring := ?_, used := hused, seen := hseen,
             usedIdx := husedIdx, flight := ?_ }
    · rw [hlock, ← h.locks.proc p, hcrit, hpc]
    · exact fun w _ => by rw [hlock]
    · rw [hop]
      exact h.locks.buf p
    · rw [havail, havailIdx]
      exact h.queues.avail
    · rw [hflight]
      exact fun _ _ _ hfl => by cases hfl
  exact e.inv h hf

theorem firstFree_free {i : ℕ} (h : d.firstFree = some i) : d.free i = true :=
  List.find?_some h

theorem Inv.alloc {ids : List ℕ} (h : Inv s) (hp : s.proc p = .alloc o ids) :
    Inv (s.alloc p o ids) := by
  unfold State.alloc
  cases hfree : s.driver.firstFree with
  | none => exact h.go hp rfl rfl rfl rfl trivial
  | some i =>
    have howned := h.owned.alloc (p := p) (firstFree_free hfree)
    have hids : s.held p = ids := by rw [State.held, hp]; rfl
    rw [hids] at howned
    have key : ∀ pc : Pc, pc.held = ids ++ [i] → pc.critical = true → pc.op = some o →
        (∀ t, Facts t p pc) → Inv ((s.setDriver fun d => d.setFree i false).goto p pc) := by
      intro pc hheld hcrit hop hf
      refine h.own hp rfl hcrit hop rfl rfl ?_ (fun _ _ => ⟨rfl, rfl, rfl⟩) rfl (hf _)
      rw [hheld]
      exact howned
    dsimp only
    split
    · exact key _ rfl rfl rfl fun _ => trivial
    · exact key _ rfl rfl rfl fun _ => trivial

theorem Inv.freeDesc_ok {i : ℕ} (h : Inv s) (hi : i ∈ s.held p) :
    freeDesc s.driver i = .ok ((s.driver.setDesc i Desc.zero).setFree i true) := by
  have hlt := h.owned.lt p i hi
  have hfree := h.owned.unfree hi
  rw [freeDesc, if_neg (Nat.not_le.mpr hlt), hfree]
  rfl

theorem Inv.freeThen {i : ℕ} {rest : List ℕ} (h : Inv s) (hp : s.proc p = old)
    (hheld : old.held = i :: rest) (hcrit : old.critical = true) (hflight : old.flight = none)
    (hpc : pc.held = rest) (hpcrit : pc.critical = true) (hop : pc.op = old.op)
    (hf : Facts { s.goto p pc with
      driver := (s.driver.setDesc i Desc.zero).setFree i true } p pc) :
    Inv (s.freeThen p i pc) := by
  unfold State.freeThen
  have howned : s.held p = i :: rest := by rw [State.held, hp, hheld]
  rw [h.freeDesc_ok (p := p) (by rw [howned]; exact List.mem_cons_self ..)]
  refine h.own hp hcrit hpcrit hop hflight rfl ?_ ?_ rfl hf
  · rw [hpc]
    exact h.owned.release howned
  · intro j hj
    refine ⟨update_of_ne ?_ _ _, rfl, rfl⟩
    rintro rfl
    exact hj (by rw [hheld]; exact List.mem_cons_self ..)

theorem Inv.rollback {ids : List ℕ} (h : Inv s) (hp : s.proc p = .rollback o ids) :
    Inv (s.rollback p o ids) := by
  cases ids with
  | nil => exact h.leave hp rfl rfl rfl rfl rfl trivial
  | cons i rest => exact h.freeThen hp rfl rfl rfl rfl rfl rfl trivial

theorem Inv.freeChain {n i : ℕ} {rest : List ℕ} (h : Inv s)
    (hp : s.proc p = .freeChain o n i rest) : Inv (s.freeChain p o n i rest) := by
  have hf := h.facts p
  rw [hp] at hf
  obtain ⟨hpath, hlen, hserved⟩ := hf
  have hnodup := h.owned.nodup p
  rw [State.held, hp, Pc.held, List.nodup_cons] at hnodup
  unfold State.freeChain
  cases rest with
  | nil =>
    rw [show (s.driver.desc i).hasNext = false from hpath]
    exact h.freeThen hp rfl rfl rfl rfl rfl rfl ⟨hserved.made, hserved.done⟩
  | cons j rest =>
    obtain ⟨hhas, hj, hpath⟩ := hpath
    rw [hhas, hj]
    refine h.freeThen hp rfl rfl rfl rfl rfl rfl
      ⟨hpath.frame fun k hk => ⟨?_, rfl, rfl⟩, ?_, ?_⟩
    · refine update_of_ne ?_ _ _
      rintro rfl
      exact hnodup.1 hk
    · exact Nat.le_of_succ_le hlen
    · exact ⟨hserved.made, hserved.done⟩

/-! ## Making a request -/

theorem format_linked (d : Driver) (o : Op) (hnodup : c.list.Nodup) :
    Linked (d.format o c) o c := by
  simp only [Chain.list, List.nodup_cons, List.mem_cons, List.not_mem_nil, or_false,
    not_or] at hnodup
  obtain ⟨⟨hhm, hhl⟩, hml, -⟩ := hnodup
  constructor <;>
    simp [Driver.format, Driver.setDesc, Driver.setInfo, hhm, hhl, hml]

theorem format_frame (d : Driver) (o : Op) {i : ℕ} (hi : i ∉ c.list) :
    (d.format o c).desc i = d.desc i ∧ (d.format o c).ops i = d.ops i ∧
      (d.format o c).info i = d.info i := by
  simp only [Chain.list, List.mem_cons, List.not_mem_nil, or_false, not_or] at hi
  obtain ⟨hh, hm, hl⟩ := hi
  simp [Driver.format, Driver.setDesc, Driver.setInfo, hh, hm, hl]

theorem Inv.format (h : Inv s) (hp : s.proc p = .format o c) : Inv (s.format p o c) := by
  have hlock := h.locks.proc p
  have hbuf := h.locks.buf p
  have hheld : s.held p = Pc.held (.publish o c) := by rw [State.held, hp]; rfl
  rw [hp] at hlock hbuf
  have e : Effect s p (s.driver.format o c) (update s.busy o.buf true) s.holder
      (.publish o c) := by
    refine { critical := hlock, lock := fun _ _ => Iff.rfl, op := hbuf,
             holder := fun _ _ _ hb => hb, owned := ?_, desc := ?_, busy := ?_, avail := .inr rfl,
             availIdx := rfl, ring := h.queues.avail, used := rfl, seen := rfl, usedIdx := rfl,
             flight := ?_ }
    · rw [← hheld, update_eq_self]
      exact h.owned
    · intro i hi
      rw [hp] at hi
      exact format_frame s.driver o hi
    · intro b hb
      refine update_of_ne ?_ _ _
      rintro rfl
      exact hb (hbuf o rfl)
    · rw [hp]
      exact fun _ _ _ hf => by cases hf
  apply e.inv h
  have hnodup := h.owned.nodup p
  rw [hheld] at hnodup
  exact ⟨format_linked s.driver o hnodup, update_self ..⟩

theorem heads_le {hs : List ℕ} (hnodup : hs.Nodup) (hlt : ∀ i ∈ hs, i < num) :
    hs.length ≤ num := by
  have hsub : hs ⊆ List.range num := fun i hi => List.mem_range.mpr (hlt i hi)
  have hlen := (List.subperm_of_subset hnodup hsub).length_le
  rwa [List.length_range] at hlen

theorem Inv.head_lt {e : ℕ × ℕ} (h : Inv s) (he : e ∈ s.outstanding) : e.1 < num := by
  obtain ⟨q, o, c, hflight, hhead, -⟩ := h.queues.flight e he
  apply h.owned.lt q
  rw [State.held, Pc.flight_held hflight, ← hhead]
  exact List.mem_cons_self ..

theorem Inv.heads_lt (h : Inv s) : ∀ i ∈ s.outstanding.map Prod.fst, i < num := by
  intro i hi
  obtain ⟨e, he, rfl⟩ := List.mem_map.mp hi
  exact h.head_lt he

theorem Inv.head_new {i : ℕ} (h : Inv s) (hflight : (s.proc p).flight = none)
    (hi : i ∈ s.held p) : i ∉ s.outstanding.map Prod.fst := by
  intro hmem
  obtain ⟨e, he, rfl⟩ := List.mem_map.mp hmem
  obtain ⟨q, o, c, hq, hhead, -⟩ := h.queues.flight e he
  have heq : q = p := by
    apply h.owned.disjoint q p e.1 _ hi
    rw [State.held, Pc.flight_held hq, ← hhead]
    exact List.mem_cons_self ..
  rw [heq, hflight] at hq
  cases hq

theorem Inv.room {i : ℕ} (h : Inv s) (hflight : (s.proc p).flight = none) (hi : i ∈ s.held p) :
    (s.pending.map Prod.fst).length < num := by
  have hnodup : (i :: s.outstanding.map Prod.fst).Nodup :=
    List.nodup_cons.mpr ⟨h.head_new hflight hi, h.queues.heads⟩
  have hlen := heads_le hnodup fun j hj => by
    rcases List.mem_cons.mp hj with rfl | hj
    · exact h.owned.lt p j hi
    · exact h.heads_lt j hj
  simp only [List.length_cons, List.length_map, State.outstanding, List.length_append] at hlen ⊢
  omega

theorem num_dvd : num ∣ 2 ^ 16 := by decide

theorem Inv.publish (h : Inv s) (hp : s.proc p = .publish o c) : Inv (s.publish p o c) := by
  have hlock := h.locks.proc p
  have hbuf := h.locks.buf p
  have hf := h.facts p
  have hheld : s.held p = Pc.held (.notify o c) := by rw [State.held, hp]; rfl
  rw [hp] at hlock hbuf hf
  have hroom := h.room (p := p) (by rw [hp]; rfl) (by rw [hheld]; exact List.mem_cons_self ..)
  have e : Effect s p { s.driver with
      avail := update s.driver.avail (s.driver.availIdx.toNat % num) c.head }
      s.busy s.holder (.notify o c) := by
    refine { critical := hlock, lock := fun _ _ => Iff.rfl, op := hbuf,
             holder := fun _ _ _ hb => hb, owned := ?_, desc := fun _ _ => ⟨rfl, rfl, rfl⟩,
             busy := fun _ _ => rfl, avail := .inl (by rw [hp]; rfl), availIdx := rfl,
             ring := h.queues.avail.write num_dvd hroom c.head, used := rfl, seen := rfl,
             usedIdx := rfl, flight := ?_ }
    · rw [← hheld, update_eq_self]
      exact h.owned
    · rw [hp]
      exact fun _ _ _ hfl => by cases hfl
  exact e.inv h ⟨hf.1.frame (.refl _ _), hf.2, update_self ..⟩

theorem notify_perm : (s.notify p o c).outstanding.Perm
    ((c.head, s.requests.length) :: s.outstanding) := by
  have hassoc : (s.notify p o c).outstanding =
      s.pending ++ (c.head, s.requests.length) :: (s.working ++ s.finished) := by
    simp [State.outstanding, State.notify, State.setDriver, State.goto]
  rw [hassoc, State.outstanding, List.append_assoc]
  exact List.perm_middle

theorem Inv.notify (h : Inv s) (hp : s.proc p = .notify o c) : Inv (s.notify p o c) := by
  have hlock := h.locks.proc p
  have hf := h.facts p
  have hheld : s.held p = c.list := by rw [State.held, hp]; rfl
  have hflight : (s.proc p).flight = none := by rw [hp]; rfl
  have hhead : c.head ∈ s.held p := by rw [hheld]; exact List.mem_cons_self ..
  rw [hp] at hlock hf
  obtain ⟨hlinked, hbusy, hcell⟩ := hf
  have hperm := notify_perm (s := s) (p := p) (o := o) (c := c)
  have hself : (s.notify p o c).proc p = .wait o c s.requests.length := update_self ..
  have hother : ∀ q, q ≠ p → (s.notify p o c).proc q = s.proc q := fun q hq =>
    update_of_ne hq ..
  have hreq : ∀ (n : ℕ) x, s.requests[n]? = some x → (s.notify p o c).requests[n]? = some x := by
    intro n x hn
    show (s.requests ++ [(p, o)])[n]? = some x
    rw [List.getElem?_append_left (List.getElem?_eq_some_iff.mp hn).1, hn]
  have hold : ∀ e ∈ s.outstanding, e ∈ (s.notify p o c).outstanding := fun e he =>
    hperm.symm.subset (List.mem_cons_of_mem _ he)
  constructor
  · exact h.calm
  · constructor
    · intro q
      by_cases hq : q = p
      · subst hq
        rw [hself]
        exact hlock
      · rw [hother q hq]
        exact h.locks.proc q
    · exact h.locks.intr
    · intro q o' ho'
      by_cases hq : q = p
      · subst hq
        rw [hself] at ho'
        exact h.locks.buf q o' (by rw [hp]; exact ho')
      · rw [hother q hq] at ho'
        exact h.locks.buf q o' ho'
  · have hsame : (s.notify p o c).held = s.held := by
      rw [show (s.notify p o c).held = (s.goto p (.wait o c s.requests.length)).held from rfl,
        held_update, show Pc.held (.wait o c s.requests.length) = s.held p from hheld.symm,
        update_eq_self]
    rw [hsame]
    exact h.owned
  · intro q
    by_cases hq : q = p
    · subst hq
      rw [hself]
      refine ⟨hlinked.frame (.refl _ _), ?_, fun _ => ?_, fun hidle => ?_⟩
      · exact List.getElem?_concat_length ..
      · exact hperm.symm.subset (List.mem_cons_self ..)
      · exact Bool.noConfusion (hbusy.symm.trans hidle)
    · rw [hother q hq]
      have k : Keeps s (s.notify p o c) (s.proc q) :=
        ⟨.refl _ _, fun _ _ => rfl,
          fun hc => absurd (h.locks.critical_unique (p := p) (by rw [hp]; rfl) hc) hq,
          hreq, List.Subset.refl _, fun e he _ => hold e he⟩
      exact k.facts (h.facts q)
  · constructor
    · intro e he
      rcases List.mem_cons.mp (hperm.subset he) with rfl | he
      · exact ⟨p, o, c, by rw [hself]; rfl, rfl, hbusy⟩
      · obtain ⟨q, o', c', hq, hc', hb⟩ := h.queues.flight e he
        refine ⟨q, o', c', ?_, hc', hb⟩
        rw [hother q, hq]
        rintro rfl
        rw [hflight] at hq
        cases hq
    · rw [(hperm.map Prod.fst).nodup_iff]
      exact List.nodup_cons.mpr ⟨h.head_new hflight hhead, h.queues.heads⟩
    · have hadv := h.queues.avail.advance num_dvd (h.room hflight hhead) hcell
      have hidx : (s.driver.availIdx + 1).toNat = (s.driver.availIdx.toNat + 1) % 2 ^ 16 :=
        UInt16.toNat_add ..
      show Ring.Queue num (2 ^ 16) s.driver.avail s.taken.toNat (s.driver.availIdx + 1).toNat
        ((s.pending ++ [(c.head, s.requests.length)]).map Prod.fst)
      rw [hidx, List.map_append]
      exact hadv
    · exact h.queues.used
    · exact h.queues.finished
    · exact h.queues.entry
    · intro n b r hn
      obtain ⟨q, o', ho', hb, hr⟩ := h.queues.completed n b r hn
      exact ⟨q, o', hreq n _ ho', hb, hr⟩

/-! ## Waiting for it -/

theorem Inv.wait {n : ℕ} (h : Inv s) (hp : s.proc p = .wait o c n) : Inv (s.wait p o c n) := by
  have hf := h.facts p
  rw [hp] at hf
  obtain ⟨hlinked, hawaits⟩ := hf
  unfold State.wait
  split
  · exact h.leave hp rfl rfl rfl rfl rfl ⟨hlinked, hawaits⟩
  · rename_i hidle
    rw [Bool.not_eq_true] at hidle
    have hlock := h.locks.proc p
    have hbuf := h.locks.buf p
    have hheld : s.held p = Pc.held (.freeChain o n c.head [c.mid, c.last]) := by
      rw [State.held, hp]; rfl
    rw [hp] at hlock hbuf
    have e : Effect s p (s.driver.setInfo c.head { s.driver.info c.head with b := none })
        s.busy s.holder (.freeChain o n c.head [c.mid, c.last]) := by
      refine { critical := hlock, lock := fun _ _ => Iff.rfl, op := hbuf,
               holder := fun _ _ _ hb => hb, owned := ?_, desc := ?_,
               busy := fun _ _ => rfl, avail := .inr rfl, availIdx := rfl,
               ring := h.queues.avail, used := rfl, seen := rfl, usedIdx := rfl, flight := ?_ }
      · rw [← hheld, update_eq_self]
        exact h.owned
      · intro i hi
        refine ⟨rfl, rfl, update_of_ne ?_ _ _⟩
        rintro rfl
        exact hi (by rw [hp]; exact List.mem_cons_self ..)
      · rw [hp]
        intro o' c' n' hfl hb
        cases hfl
        exact Bool.noConfusion (hidle.symm.trans hb)
    exact e.inv h ⟨hlinked.path, Nat.le_refl 2, hawaits.made, hawaits.done hidle⟩

theorem Inv.run (h : Inv s) (hrun : s.run p = some t) : Inv t := by
  unfold State.run at hrun
  split at hrun
  case h_1 => cases hrun
  case h_2 e hp =>
    split at hrun
    · rename_i hlock
      cases hrun
      exact h.acquire hp hlock
    · cases hrun
  case h_3 e hp =>
    cases hrun
    have hf := h.facts p
    rw [hp] at hf
    cases e with
    | alloc o => exact h.go hp rfl rfl rfl rfl trivial
    | wait o c n => exact h.go hp rfl rfl rfl rfl hf
  case h_4 o ids hp => cases hrun; exact h.alloc hp
  case h_5 o ids hp => cases hrun; exact h.rollback hp
  case h_6 o c hp => cases hrun; exact h.format hp
  case h_7 o c hp => cases hrun; exact h.publish hp
  case h_8 o c hp => cases hrun; exact h.notify hp
  case h_9 o c n hp => cases hrun; exact h.wait hp
  case h_10 o n i rest hp => cases hrun; exact h.freeChain hp
  case h_11 o n hp => cases hrun; exact h.release hp

/-! ## The handler -/

theorem Inv.look (h : Inv s) {l : Option Owner} {i : Intr}
    (hl : ∀ p, l = some (.proc p) ↔ s.driver.lock = some (.proc p))
    (hi : i ≠ .idle ↔ l = some .intr)
    (hentry : ∀ id, i = .entry id → ∃ n, s.finished.head? = some (id, n)) :
    Inv { s.setLock l with intr := i } where
  calm := h.calm
  locks := ⟨fun p => (h.locks.proc p).trans (hl p).symm, hi, h.locks.buf⟩
  owned := h.owned
  facts q := by
    have k : Keeps s { s.setLock l with intr := i } (s.proc q) :=
      ⟨.refl _ _, fun _ _ => rfl, fun _ => ⟨rfl, rfl⟩, fun _ _ hn => hn, List.Subset.refl _,
        fun _ he _ => he⟩
    exact k.facts (h.facts q)
  queues := ⟨h.queues.flight, h.queues.heads, h.queues.avail, h.queues.used, h.queues.finished,
    hentry, h.queues.completed⟩

theorem Inv.entry_info {id : ℕ} (h : Inv s) (hi : s.intr = .entry id) :
    ∃ n rest q o c, s.finished = (id, n) :: rest ∧ (s.proc q).flight = some (o, c, n) ∧
      c.head = id ∧ s.busy o.buf = true ∧ s.driver.info id = ⟨some o.buf, 0⟩ := by
  obtain ⟨n, hn⟩ := h.queues.entry id hi
  obtain ⟨rest, hrest⟩ := List.head?_eq_some_iff.mp hn
  have hmem : (id, n) ∈ s.finished := by rw [hrest]; exact List.mem_cons_self ..
  obtain ⟨q, o, c, hq, hc, hb⟩ := h.queues.flight _ (List.mem_append_right _ hmem)
  refine ⟨n, rest, q, o, c, hrest, hq, hc, hb, ?_⟩
  have hinfo := (Pc.flight_facts hq (h.facts q)).1.info
  rw [show c.head = id from hc] at hinfo
  have hstatus := (h.queues.finished _ hmem).1
  cases hid : s.driver.info id with
  | mk b status =>
    rw [hid] at hinfo hstatus
    cases hinfo
    cases hstatus
    rfl

/-- The handler has seen that a request is completed. -/
def State.seen (s : State) (b : ℕ) : State :=
  { s.setDriver fun d => { d with seen := d.seen + 1 } with
    intr := .loop
    busy := update s.busy b false
    finished := s.finished.tail }

theorem Inv.seen {id n : ℕ} {rest : List (ℕ × ℕ)} (h : Inv s) (hi : s.intr = .entry id)
    (hfin : s.finished = (id, n) :: rest) (hq : (s.proc q).flight = some (o, c, n))
    (hc : c.head = id) : Inv (s.seen o.buf) := by
  have hperm : s.outstanding.Perm ((id, n) :: (s.seen o.buf).outstanding) := by
    simp only [State.outstanding, State.seen, hfin, List.tail_cons]
    exact List.perm_middle
  have hheads := h.queues.heads
  rw [(hperm.map Prod.fst).nodup_iff, List.map_cons, List.nodup_cons] at hheads
  have hout : ∀ e ∈ s.outstanding, e.1 ≠ id → e ∈ (s.seen o.buf).outstanding := by
    intro e he hne
    rcases List.mem_cons.mp (hperm.subset he) with rfl | he
    · exact absurd rfl hne
    · exact he
  have hother : ∀ r o', r ≠ q → (s.proc r).op = some o' →
      (s.seen o.buf).busy o'.buf = s.busy o'.buf := by
    intro r o' hr ho'
    refine update_of_ne (fun hb => hr ?_) _ _
    exact h.locks.unique ho' (Pc.flight_op hq) hb
  have hidq : id ∈ s.held q := by
    rw [State.held, Pc.flight_held hq, ← hc]
    exact List.mem_cons_self ..
  have hcrit : ∀ r, (s.proc r).critical = false := by
    intro r
    simp [← Bool.not_eq_true, h.locks.proc r, h.locks.intr.mp (by simp [hi])]
  constructor
  · exact h.calm
  · exact ⟨h.locks.proc, ⟨fun _ => h.locks.intr.mp (by simp [hi]), fun _ => Intr.noConfusion⟩,
      h.locks.buf⟩
  · exact h.owned
  · intro r
    by_cases hr : r = q
    · subst hr
      obtain ⟨hlinked, hawaits⟩ := Pc.flight_facts hq (h.facts r)
      have hdone : (n, o.buf, o.req) ∈ s.completed := by
        obtain ⟨-, x, hx⟩ := h.queues.finished (id, n) (by rw [hfin]; exact List.mem_cons_self ..)
        obtain ⟨p', o', hmade, hb, hreq⟩ := h.queues.completed n x.1 x.2 hx
        rw [hawaits.made] at hmade
        cases hmade
        rw [← hb, ← hreq]
        exact hx
      have hnew : Linked (s.seen o.buf).driver o c ∧ Awaits (s.seen o.buf) r o c.head n := by
        refine ⟨hlinked.frame (.refl _ _), hawaits.made, fun hb => ?_, fun _ => hdone⟩
        simp [State.seen] at hb
      exact Pc.facts_flight hq hnew
    · have k : Keeps s (s.seen o.buf) (s.proc r) := by
        refine ⟨.refl _ _, fun o' ho' => hother r o' hr ho', fun hcr => ?_, fun _ _ hn => hn,
          List.Subset.refl _, fun e he hmem => hout e he ?_⟩
        · rw [hcrit r] at hcr
          cases hcr
        · rintro rfl
          exact hr (h.owned.disjoint r q _ hmem hidq)
      exact k.facts (h.facts r)
  · constructor
    · intro e he
      have hne : e.1 ≠ id := fun heq => hheads.1 (List.mem_map.mpr ⟨e, he, heq⟩)
      obtain ⟨r, o', c', hr, hc', hb⟩ :=
        h.queues.flight e (hperm.symm.subset (List.mem_cons_of_mem _ he))
      refine ⟨r, o', c', hr, hc', ?_⟩
      rw [hother r o' _ (Pc.flight_op hr), hb]
      rintro rfl
      rw [hq] at hr
      cases hr
      exact hne (hc'.symm.trans hc)
    · exact hheads.2
    · exact h.queues.avail
    · have hused := h.queues.used
      rw [hfin, List.map_cons] at hused
      have hidx : (s.driver.seen + 1).toNat = (s.driver.seen.toNat + 1) % 2 ^ 16 :=
        UInt16.toNat_add ..
      show Ring.Queue num (2 ^ 16) s.driver.used (s.driver.seen + 1).toNat
        s.driver.usedIdx.toNat (s.finished.tail.map Prod.fst)
      rw [hidx, hfin]
      exact hused.pop
    · exact fun e he => h.queues.finished e (List.mem_of_mem_tail he)
    · exact fun _ => Intr.noConfusion
    · exact h.queues.completed

theorem Inv.handle (h : Inv s) (ht : s.handle = some t) : Inv t := by
  unfold State.handle at ht
  split at ht
  case h_1 hi =>
    split at ht
    · rename_i hlock
      cases ht
      exact h.look (by simp [hlock]) (by simp) nofun
    · cases ht
  case h_2 hi =>
    have hlock : s.driver.lock = some .intr := h.locks.intr.mp (by rw [hi]; nofun)
    split at ht
    · rename_i hmore
      cases ht
      refine h.look (fun _ => Iff.rfl) (by simp [hlock]) fun id hid => ?_
      cases hid
      cases hfin : s.finished with
      | nil =>
        have hempty := (h.queues.used.empty_iff (by decide)).mpr (by rw [hfin]; rfl)
        exact absurd (UInt16.toNat_inj.mp hempty) hmore
      | cons e rest =>
        have hused := h.queues.used
        rw [hfin, List.map_cons] at hused
        rw [hused.front num_dvd]
        exact ⟨e.2, rfl⟩
    · cases ht
      exact h.look (by simp [hlock]) (by simp) nofun
  case h_3 id hi =>
    obtain ⟨n, rest, q, o, c, hfin, hq, hc, -, hinfo⟩ := h.entry_info hi
    rw [hinfo] at ht
    cases ht
    exact h.seen hi hfin hq hc

/-! ## The device -/

/-- The device may move requests on and write a status; it leaves the rest alone. -/
theorem Inv.device (h : Inv s) {d : Driver} {taken : UInt16} {w pd f : List (ℕ × ℕ)}
    {done : List (ℕ × ℕ × Req)}
    (hd : (d.desc, d.free, d.ops, d.lock, d.avail, d.availIdx, d.seen) =
      (s.driver.desc, s.driver.free, s.driver.ops, s.driver.lock, s.driver.avail,
        s.driver.availIdx, s.driver.seen))
    (hinfo : ∀ i, (d.info i).b = (s.driver.info i).b)
    (hperm : (pd ++ w ++ f).Perm s.outstanding) (hdone : s.completed ⊆ done)
    (havail : Ring.Queue num (2 ^ 16) d.avail taken.toNat d.availIdx.toNat (pd.map Prod.fst))
    (hused : Ring.Queue num (2 ^ 16) d.used d.seen.toNat d.usedIdx.toNat (f.map Prod.fst))
    (hfin : ∀ e ∈ f, (d.info e.1).status = 0 ∧ ∃ x, (e.2, x) ∈ done)
    (hhead : s.finished <+: f)
    (hcomp : ∀ n b r, (n, b, r) ∈ done →
      ∃ p o, s.requests[n]? = some (p, o) ∧ b = o.buf ∧ r = o.req) :
    Inv { s with driver := d, taken := taken, working := w, pending := pd, finished := f,
                 completed := done } := by
  simp only [Prod.mk.injEq] at hd
  obtain ⟨hdesc, hfree, hops, hlock, hav, hidx, hseen⟩ := hd
  constructor
  · exact h.calm
  · exact ⟨fun p => by rw [hlock]; exact h.locks.proc p, by rw [hlock]; exact h.locks.intr,
      h.locks.buf⟩
  · show Owned d.free s.held
    rw [hfree]
    exact h.owned
  · intro q
    have k : Keeps s { s with driver := d, taken := taken, working := w, pending := pd,
                              finished := f, completed := done } (s.proc q) :=
      ⟨fun i _ => ⟨by rw [hdesc], by rw [hops], hinfo i⟩, fun _ _ => rfl, fun _ => ⟨hav, hidx⟩,
        fun _ _ hn => hn, hdone, fun e he _ => hperm.symm.subset he⟩
    exact k.facts (h.facts q)
  · refine ⟨fun e he => h.queues.flight e (hperm.subset he), ?_, havail, hused, hfin, ?_, hcomp⟩
    · exact (hperm.map Prod.fst).nodup_iff.mpr h.queues.heads
    · intro id hid
      obtain ⟨n, hn⟩ := h.queues.entry id hid
      obtain ⟨rest, hrest⟩ := List.head?_eq_some_iff.mp hn
      obtain ⟨more, hmore⟩ := hhead
      refine ⟨n, ?_⟩
      rw [← hmore, hrest]
      rfl

theorem Inv.take (h : Inv s) (ht : s.take = some t) : Inv t := by
  unfold State.take at ht
  split at ht
  swap
  · cases ht
  rename_i hmore
  cases ht
  cases hpd : s.pending with
  | nil =>
    have hempty := (h.queues.avail.empty_iff (by decide)).mpr (by rw [hpd]; rfl)
    exact absurd (UInt16.toNat_inj.mp hempty) hmore
  | cons e rest =>
    have havail := h.queues.avail
    rw [hpd, List.map_cons] at havail
    have hcell : s.driver.avail (s.taken.toNat % num) = e.1 := havail.front num_dvd
    have hidx : (s.taken + 1).toNat = (s.taken.toNat + 1) % 2 ^ 16 := UInt16.toNat_add ..
    refine h.device rfl (fun _ => rfl) ?_ (List.Subset.refl _) ?_ h.queues.used
      h.queues.finished (List.prefix_refl _) h.queues.completed
    · rw [hcell, State.outstanding, hpd]
      refine List.Perm.append_right _ ?_
      show (rest ++ (s.working ++ [e])).Perm (e :: rest ++ s.working)
      rw [← List.append_assoc]
      exact List.perm_append_singleton ..
    · rw [hidx]
      exact havail.pop

theorem Linked.follow (h : Linked d o c) : d.follow c.head = some (o.req, o.buf, c.head) := by
  simp [Driver.follow, h.head, h.mid, h.last, h.req]

theorem Inv.complete {head n : ℕ} (h : Inv s) (ht : s.complete head n = some t) : Inv t := by
  unfold State.complete at ht
  split at ht
  swap
  · cases ht
  rename_i hmem
  have hout : (head, n) ∈ s.outstanding :=
    List.mem_append_left _ (List.mem_append_right _ hmem)
  obtain ⟨q, o, c, hq, rfl, hb⟩ := h.queues.flight _ hout
  obtain ⟨hlinked, hawaits⟩ := Pc.flight_facts hq (h.facts q)
  rw [hlinked.follow] at ht
  cases ht
  have hlen : (s.finished.map Prod.fst).length < num := by
    have hle := heads_le h.queues.heads h.heads_lt
    have hpos := List.length_pos_of_mem hmem
    simp only [List.length_map, State.outstanding, List.length_append] at hle ⊢
    omega
  have hidx : (s.driver.usedIdx + 1).toNat = (s.driver.usedIdx.toNat + 1) % 2 ^ 16 :=
    UInt16.toNat_add ..
  refine h.device rfl ?_ ?_ (List.subset_append_left _ _) h.queues.avail ?_ ?_
    (List.prefix_append _ _) ?_
  · intro i
    by_cases hi : i = c.head
    · subst hi
      simp [State.setDriver, Driver.setInfo]
    · simp [State.setDriver, Driver.setInfo, hi]
  · rw [State.outstanding, List.append_assoc, List.append_assoc]
    refine List.Perm.append_left _ ?_
    rw [← List.append_assoc]
    refine (List.perm_append_singleton ..).trans ?_
    rw [← List.cons_append]
    exact List.Perm.append_right _ (List.perm_cons_erase hmem).symm
  · show Ring.Queue num (2 ^ 16) (update s.driver.used _ c.head) s.driver.seen.toNat
      (s.driver.usedIdx + 1).toNat ((s.finished ++ [(c.head, n)]).map Prod.fst)
    rw [hidx, List.map_append]
    exact h.queues.used.push num_dvd hlen c.head
  · intro e he
    rcases List.mem_append.mp he with he | he
    · obtain ⟨hstatus, x, hx⟩ := h.queues.finished e he
      refine ⟨?_, x, List.mem_append_left _ hx⟩
      by_cases hi : e.1 = c.head
      · simp [State.setDriver, Driver.setInfo, hi]
      · simp [State.setDriver, Driver.setInfo, hi, hstatus]
    · rw [List.mem_singleton.mp he]
      refine ⟨?_, (o.buf, o.req), List.mem_append_right _ (List.mem_singleton_self _)⟩
      simp [State.setDriver, Driver.setInfo]
  · intro m b r hm
    rcases List.mem_append.mp hm with hm | hm
    · exact h.queues.completed m b r hm
    · cases List.mem_singleton.mp hm
      exact ⟨q, o, hawaits.made, rfl, rfl⟩

/-! ## Runs -/

theorem init_inv : Inv init where
  calm := rfl
  locks := ⟨fun _ => ⟨nofun, nofun⟩, ⟨fun h => absurd rfl h, nofun⟩, nofun⟩
  owned := by
    refine ⟨fun _ => List.nodup_nil, fun _ _ _ hi => ?_, fun _ _ hi => ?_, fun i => ?_⟩
    · cases hi
    · cases hi
    · refine ⟨fun hi => ⟨of_decide_eq_true hi, fun _ => List.not_mem_nil⟩, fun hi => ?_⟩
      exact decide_eq_true hi.1
  facts _ := trivial
  queues := by
    refine ⟨nofun, List.nodup_nil, .nil _ _ _, .nil _ _ _, nofun, nofun, nofun⟩

theorem Inv.next {l : Label} (h : Inv s) (ht : step s l = some t) : Inv t := by
  unfold step at ht
  split at ht
  · cases ht
  · cases l with
    | call p o =>
      simp only at ht
      split at ht
      · rename_i hcall
        cases ht
        exact h.call hcall.1 hcall.2
      · cases ht
    | run p => exact h.run ht
    | intr => exact h.handle ht
    | take => exact h.take ht
    | complete head n => exact h.complete ht

theorem run_inv {ls : List Label} (h : exec step init ls = some s) : Inv s :=
  exec_invariant (fun _ _ _ hs ht => hs.next ht) init_inv h

end Xv6.Virtio
