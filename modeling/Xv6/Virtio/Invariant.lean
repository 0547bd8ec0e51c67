import Xv6.Lib.Ring
import Xv6.Virtio.Model

/-!
# The invariant of the disk driver

A descriptor is free or belongs to exactly one process. A process whose request is in
flight owns a formatted chain, and while its buffer is busy the head of the chain is in
the available ring, with the device, or in the used ring. Each head is there only once.
-/

namespace Xv6.Virtio

open Runs Function

/-! ## What a process owns -/

def Chain.list (c : Chain) : List ℕ := [c.head, c.mid, c.last]

def Entry.held : Entry → List ℕ
  | .alloc _ => []
  | .wait _ c _ => c.list

/-- The descriptors that a process has allocated. -/
def Pc.held : Pc → List ℕ
  | .user | .release _ _ => []
  | .acquire e | .asleep e => e.held
  | .alloc _ ids | .rollback _ ids => ids
  | .format _ c | .publish _ c | .notify _ c | .wait _ c _ => c.list
  | .freeChain _ _ i rest => i :: rest

def Entry.op : Entry → Op
  | .alloc o => o
  | .wait o _ _ => o

/-- What the call in progress asks for. -/
def Pc.op : Pc → Option Op
  | .user => none
  | .acquire e | .asleep e => some e.op
  | .alloc o _ | .rollback o _ | .format o _ | .publish o _ | .notify o _ | .wait o _ _
  | .freeChain o _ _ _ | .release o _ => some o

/-- The process holds `vdisk_lock`. -/
def Pc.critical : Pc → Bool
  | .user | .acquire _ | .asleep _ => false
  | _ => true

/-- The request that a process waits for. -/
def Pc.flight : Pc → Option (Op × Chain × ℕ)
  | .acquire (.wait o c n) | .asleep (.wait o c n) | .wait o c n => some (o, c, n)
  | _ => none

/-- The chain describes the request. -/
structure Linked (d : Driver) (o : Op) (c : Chain) : Prop where
  head : d.desc c.head = ⟨.header c.head, 16, true, false, c.mid⟩
  mid : d.desc c.mid = ⟨.data o.buf, bsize, true, !o.write, c.last⟩
  last : d.desc c.last = ⟨.status c.head, 1, false, true, 0⟩
  req : d.ops c.head = o.req
  info : (d.info c.head).b = some o.buf

/-- The descriptors are linked in this order, and the last one ends the chain. -/
def Path (d : Driver) : List ℕ → Prop
  | [] => True
  | [i] => (d.desc i).hasNext = false
  | i :: j :: rest => (d.desc i).hasNext = true ∧ (d.desc i).next = j ∧ Path d (j :: rest)

/-- The requests that the driver has made and not yet seen completed. -/
def State.outstanding (s : State) : List (ℕ × ℕ) := s.pending ++ s.working ++ s.finished

/-- Request `n` was made by this call, and the device has carried it out. -/
structure Served (s : State) (p : ℕ) (o : Op) (n : ℕ) : Prop where
  made : s.requests[n]? = some (p, o)
  done : (n, o.buf, o.req) ∈ s.completed

/-- Request `n` was made by this call, and `b->disk` tells whether it is outstanding. -/
structure Awaits (s : State) (p : ℕ) (o : Op) (h n : ℕ) : Prop where
  made : s.requests[n]? = some (p, o)
  busy : s.busy o.buf = true → (h, n) ∈ s.outstanding
  done : s.busy o.buf = false → (n, o.buf, o.req) ∈ s.completed

/-- What holds where a process is. -/
def Facts (s : State) (p : ℕ) : Pc → Prop
  | .acquire (.wait o c n) | .asleep (.wait o c n) | .wait o c n =>
    Linked s.driver o c ∧ Awaits s p o c.head n
  | .publish o c => Linked s.driver o c ∧ s.busy o.buf = true
  | .notify o c => Linked s.driver o c ∧ s.busy o.buf = true ∧
    s.driver.avail (s.driver.availIdx.toNat % num) = c.head
  | .freeChain o n i rest => Path s.driver (i :: rest) ∧ rest.length ≤ 2 ∧ Served s p o n
  | .release o n => Served s p o n
  | _ => True

/-! ## The invariant -/

def State.held (s : State) : ℕ → List ℕ := fun p => (s.proc p).held

/-- Every descriptor is free or owned by one process. -/
structure Owned (free : ℕ → Bool) (held : ℕ → List ℕ) : Prop where
  nodup : ∀ p, (held p).Nodup
  disjoint : ∀ p q i, i ∈ held p → i ∈ held q → p = q
  lt : ∀ p, ∀ i ∈ held p, i < num
  free : ∀ i, free i = true ↔ i < num ∧ ∀ p, i ∉ held p

/-- Who holds which lock. -/
structure Locks (s : State) : Prop where
  proc : ∀ p, (s.proc p).critical = true ↔ s.driver.lock = some (.proc p)
  intr : s.intr ≠ .idle ↔ s.driver.lock = some .intr
  buf : ∀ p o, (s.proc p).op = some o → s.holder o.buf = some p

/-- The rings hold the outstanding requests. -/
structure Queues (s : State) : Prop where
  flight : ∀ e ∈ s.outstanding, ∃ p o c,
    (s.proc p).flight = some (o, c, e.2) ∧ c.head = e.1 ∧ s.busy o.buf = true
  heads : (s.outstanding.map Prod.fst).Nodup
  avail : Ring.Queue num (2 ^ 16) s.driver.avail s.taken.toNat s.driver.availIdx.toNat
    (s.pending.map Prod.fst)
  used : Ring.Queue num (2 ^ 16) s.driver.used s.driver.seen.toNat s.driver.usedIdx.toNat
    (s.finished.map Prod.fst)
  finished : ∀ e ∈ s.finished, (s.driver.info e.1).status = 0 ∧ ∃ x, (e.2, x) ∈ s.completed
  entry : ∀ id, s.intr = .entry id → ∃ n, s.finished.head? = some (id, n)
  completed : ∀ n b r, (n, b, r) ∈ s.completed →
    ∃ p o, s.requests[n]? = some (p, o) ∧ b = o.buf ∧ r = o.req

structure Inv (s : State) : Prop where
  calm : s.panic = none
  locks : Locks s
  owned : Owned s.driver.free s.held
  facts : ∀ p, Facts s p (s.proc p)
  queues : Queues s

/-! ## Descriptors -/

section

variable {free : ℕ → Bool} {held : ℕ → List ℕ} {p i : ℕ}

theorem Owned.unfree (h : Owned free held) (hi : i ∈ held p) : free i = false := by
  rw [← Bool.not_eq_true, h.free]
  exact fun hfree => hfree.2 p hi

theorem Owned.alloc (h : Owned free held) (hfree : free i = true) :
    Owned (update free i false) (update held p (held p ++ [i])) := by
  have hi := (h.free i).mp hfree
  have hmem : ∀ q j, j ∈ update held p (held p ++ [i]) q ↔
      j ∈ held q ∨ q = p ∧ j = i := by
    intro q j
    by_cases hq : q = p
    · subst hq
      simp
    · simp [hq]
  constructor
  · intro q
    by_cases hq : q = p
    · subst hq
      rw [update_self, List.nodup_append]
      refine ⟨h.nodup q, List.nodup_singleton i, fun a ha b hb => ?_⟩
      rw [List.mem_singleton.mp hb]
      exact fun hab => hi.2 q (hab ▸ ha)
    · rw [update_of_ne hq]
      exact h.nodup q
  · intro q r j hq hr
    rw [hmem] at hq hr
    rcases hq with hq | ⟨rfl, hji⟩ <;> rcases hr with hr | ⟨rfl, hji'⟩
    · exact h.disjoint q r j hq hr
    · exact absurd (hji' ▸ hq) (hi.2 q)
    · exact absurd (hji ▸ hr) (hi.2 r)
    · rfl
  · intro q j hj
    rcases (hmem q j).mp hj with hj | ⟨-, rfl⟩
    · exact h.lt q j hj
    · exact hi.1
  · intro j
    by_cases hj : j = i
    · subst hj
      simp only [update_self, Bool.false_eq_true, false_iff, not_and, not_forall]
      exact fun _ => ⟨p, fun hn => hn ((hmem p j).mpr (.inr ⟨rfl, rfl⟩))⟩
    · rw [update_of_ne hj, h.free]
      simp [hmem, hj]

theorem Owned.release {rest : List ℕ} (h : Owned free held) (hp : held p = i :: rest) :
    Owned (update free i true) (update held p rest) := by
  have hnodup := h.nodup p
  rw [hp, List.nodup_cons] at hnodup
  have hmem : ∀ q j, j ∈ update held p rest q ↔ j ∈ held q ∧ j ≠ i := by
    intro q j
    by_cases hq : q = p
    · subst hq
      rw [update_self, hp, List.mem_cons]
      constructor
      · exact fun hj => ⟨.inr hj, fun hji => hnodup.1 (hji ▸ hj)⟩
      · exact fun hj => hj.1.resolve_left hj.2
    · rw [update_of_ne hq]
      refine ⟨fun hj => ⟨hj, ?_⟩, fun hj => hj.1⟩
      rintro rfl
      exact hq (h.disjoint q p j hj (by simp [hp]))
  constructor
  · intro q
    by_cases hq : q = p
    · subst hq
      rw [update_self]
      exact hnodup.2
    · rw [update_of_ne hq]
      exact h.nodup q
  · intro q r j hq hr
    exact h.disjoint q r j ((hmem q j).mp hq).1 ((hmem r j).mp hr).1
  · intro q j hj
    exact h.lt q j ((hmem q j).mp hj).1
  · intro j
    by_cases hj : j = i
    · subst hj
      simp only [update_self, true_iff]
      exact ⟨h.lt p j (by simp [hp]), fun q hq => ((hmem q j).mp hq).2 rfl⟩
    · rw [update_of_ne hj, h.free]
      simp [hmem, hj]

end

/-! ## Frames -/

section

variable {s t : State} {p q : ℕ} {pc : Pc} {d d' : Driver} {o : Op} {c : Chain}

/-- What a chain says lies in its own descriptors. -/
def Agree (d d' : Driver) (ids : List ℕ) : Prop :=
  ∀ i ∈ ids, d'.desc i = d.desc i ∧ d'.ops i = d.ops i ∧ (d'.info i).b = (d.info i).b

theorem Agree.refl (d : Driver) (ids : List ℕ) : Agree d d ids := fun _ _ => ⟨rfl, rfl, rfl⟩

theorem Linked.frame (h : Linked d o c) (hd : Agree d d' c.list) : Linked d' o c := by
  obtain ⟨hdesc, hops, hinfo⟩ := hd c.head (by simp [Chain.list])
  constructor
  · rw [hdesc, h.head]
  · rw [(hd c.mid (by simp [Chain.list])).1, h.mid]
  · rw [(hd c.last (by simp [Chain.list])).1, h.last]
  · rw [hops, h.req]
  · rw [hinfo, h.info]

theorem Path.frame : ∀ {ids : List ℕ}, Path d ids → Agree d d' ids → Path d' ids
  | [], _, _ => trivial
  | [i], h, hd => by
    have hi := (hd i (List.mem_singleton_self i)).1
    rwa [Path, hi]
  | i :: j :: rest, h, hd => by
    have hi := (hd i (List.mem_cons_self ..)).1
    rw [Path, hi]
    exact ⟨h.1, h.2.1, Path.frame h.2.2 fun k hk => hd k (List.mem_cons_of_mem i hk)⟩

theorem Linked.path (h : Linked d o c) : Path d c.list := by
  simp [Chain.list, Path, h.head, h.mid, h.last]

/-- What a process relies on is kept. -/
structure Keeps (s t : State) (pc : Pc) : Prop where
  driver : Agree s.driver t.driver pc.held
  busy : ∀ o, pc.op = some o → t.busy o.buf = s.busy o.buf
  avail : pc.critical = true →
    t.driver.avail = s.driver.avail ∧ t.driver.availIdx = s.driver.availIdx
  requests : ∀ (n : ℕ) x, s.requests[n]? = some x → t.requests[n]? = some x
  completed : s.completed ⊆ t.completed
  outstanding : ∀ e ∈ s.outstanding, e.1 ∈ pc.held → e ∈ t.outstanding

theorem Keeps.served {n : ℕ} (k : Keeps s t pc) (h : Served s p o n) : Served t p o n :=
  ⟨k.requests n _ h.made, k.completed h.done⟩

theorem Keeps.awaits {h n : ℕ} (k : Keeps s t pc) (ha : Awaits s p o h n) (ho : pc.op = some o)
    (hh : h ∈ pc.held) : Awaits t p o h n := by
  constructor
  · exact k.requests n _ ha.made
  · rw [k.busy o ho]
    exact fun hb => k.outstanding _ (ha.busy hb) hh
  · rw [k.busy o ho]
    exact fun hb => k.completed (ha.done hb)

theorem Keeps.facts (k : Keeps s t pc) (h : Facts s p pc) : Facts t p pc := by
  cases pc with
  | user | alloc _ _ | rollback _ _ | format _ _ => trivial
  | acquire e =>
    cases e with
    | alloc _ => trivial
    | wait o c n => exact ⟨h.1.frame k.driver, k.awaits h.2 rfl (List.mem_cons_self ..)⟩
  | asleep e =>
    cases e with
    | alloc _ => trivial
    | wait o c n => exact ⟨h.1.frame k.driver, k.awaits h.2 rfl (List.mem_cons_self ..)⟩
  | publish o c =>
    refine ⟨h.1.frame k.driver, ?_⟩
    rw [k.busy o rfl]
    exact h.2
  | notify o c =>
    refine ⟨h.1.frame k.driver, ?_, ?_⟩
    · rw [k.busy o rfl]
      exact h.2.1
    · rw [(k.avail rfl).1, (k.avail rfl).2]
      exact h.2.2
  | wait o c n => exact ⟨h.1.frame k.driver, k.awaits h.2 rfl (List.mem_cons_self ..)⟩
  | freeChain o n i rest => exact ⟨h.1.frame k.driver, h.2.1, k.served h.2.2⟩
  | release o n => exact k.served h

theorem held_update (s : State) (p : ℕ) (pc : Pc) :
    (s.goto p pc).held = update s.held p pc.held := by
  funext q
  by_cases hq : q = p
  · subst hq
    simp [State.held, State.goto]
  · simp [State.held, State.goto, hq]

theorem Pc.flight_held {n : ℕ} (h : pc.flight = some (o, c, n)) : pc.held = c.list := by
  unfold Pc.flight at h
  split at h <;> cases h <;> rfl

theorem Pc.flight_op {n : ℕ} (h : pc.flight = some (o, c, n)) : pc.op = some o := by
  unfold Pc.flight at h
  split at h <;> cases h <;> rfl

theorem Pc.flight_facts {n : ℕ} (h : pc.flight = some (o, c, n)) (hf : Facts s p pc) :
    Linked s.driver o c ∧ Awaits s p o c.head n := by
  unfold Pc.flight at h
  split at h <;> cases h <;> exact hf

theorem Pc.facts_flight {n : ℕ} (h : pc.flight = some (o, c, n))
    (hf : Linked s.driver o c ∧ Awaits s p o c.head n) : Facts s p pc := by
  unfold Pc.flight at h
  split at h <;> cases h <;> exact hf

theorem Locks.unique (h : Locks s) {o' : Op} (ho : (s.proc p).op = some o)
    (ho' : (s.proc q).op = some o') (hb : o.buf = o'.buf) : p = q := by
  have hp := h.buf p o ho
  rw [hb, h.buf q o' ho'] at hp
  exact (Option.some.inj hp).symm

/-! ## Steps of a process that leave the queues alone -/

/-- The process goes on, having changed only what is its own. -/
structure Effect (s : State) (p : ℕ) (d : Driver) (disk : ℕ → Bool) (owner : ℕ → Option ℕ)
    (pc : Pc) : Prop where
  critical : pc.critical = true ↔ d.lock = some (.proc p)
  lock : ∀ w, w ≠ .proc p → (d.lock = some w ↔ s.driver.lock = some w)
  op : ∀ o, pc.op = some o → owner o.buf = some p
  holder : ∀ b q, q ≠ p → s.holder b = some q → owner b = some q
  owned : Owned d.free (update s.held p pc.held)
  desc : ∀ i, i ∉ (s.proc p).held →
    d.desc i = s.driver.desc i ∧ d.ops i = s.driver.ops i ∧ d.info i = s.driver.info i
  busy : ∀ b, s.holder b ≠ some p → disk b = s.busy b
  avail : (s.proc p).critical = true ∨ d.avail = s.driver.avail
  availIdx : d.availIdx = s.driver.availIdx
  ring : Ring.Queue num (2 ^ 16) d.avail s.taken.toNat d.availIdx.toNat (s.pending.map Prod.fst)
  used : d.used = s.driver.used
  seen : d.seen = s.driver.seen
  usedIdx : d.usedIdx = s.driver.usedIdx
  flight : ∀ o c n, (s.proc p).flight = some (o, c, n) → s.busy o.buf = true →
    pc.flight = some (o, c, n) ∧ disk o.buf = true ∧ d.info c.head = s.driver.info c.head

def State.moved (s : State) (p : ℕ) (d : Driver) (disk : ℕ → Bool) (owner : ℕ → Option ℕ)
    (pc : Pc) : State :=
  { s.goto p pc with driver := d, busy := disk, holder := owner }

variable {disk : ℕ → Bool} {owner : ℕ → Option ℕ}

@[simp] theorem moved_self : (s.moved p d disk owner pc).proc p = pc := update_self ..

theorem moved_ne (h : q ≠ p) : (s.moved p d disk owner pc).proc q = s.proc q :=
  update_of_ne h ..

theorem Locks.critical_unique (h : Locks s) (hp : (s.proc p).critical = true)
    (hq : (s.proc q).critical = true) : q = p := by
  have hlock := (h.proc p).mp hp
  rw [(h.proc q).mp hq] at hlock
  cases hlock
  rfl

theorem Effect.keeps (e : Effect s p d disk owner pc) (h : Inv s) (hq : q ≠ p) :
    Keeps s (s.moved p d disk owner pc) (s.proc q) where
  driver i hi := by
    have hnot : i ∉ (s.proc p).held := fun hp => hq (h.owned.disjoint q p i hi hp)
    obtain ⟨hdesc, hops, hinfo⟩ := e.desc i hnot
    exact ⟨hdesc, hops, congrArg Info.b hinfo⟩
  busy o ho := by
    apply e.busy
    rw [h.locks.buf q o ho]
    exact fun hqp => hq (Option.some.inj hqp)
  avail hc := by
    refine ⟨e.avail.resolve_left fun hp => ?_, e.availIdx⟩
    exact hq (h.locks.critical_unique hp hc)
  requests _ _ hn := hn
  completed := List.Subset.refl _
  outstanding _ he _ := he

theorem Effect.locks (e : Effect s p d disk owner pc) (h : Locks s) :
    Locks (s.moved p d disk owner pc) where
  proc q := by
    by_cases hq : q = p
    · subst hq
      rw [moved_self]
      exact e.critical
    · rw [moved_ne hq, h.proc q]
      exact (e.lock _ fun hqp => hq (Owner.proc.inj hqp)).symm
  intr := h.intr.trans (e.lock .intr nofun).symm
  buf q o ho := by
    by_cases hq : q = p
    · subst hq
      rw [moved_self] at ho
      exact e.op o ho
    · rw [moved_ne hq] at ho
      exact e.holder _ q hq (h.buf q o ho)

theorem Effect.queues (e : Effect s p d disk owner pc) (h : Inv s) :
    Queues (s.moved p d disk owner pc) where
  flight x hx := by
    obtain ⟨q, o, c, hflight, hhead, hbusy⟩ := h.queues.flight x hx
    by_cases hq : q = p
    · subst hq
      obtain ⟨hpc, hb, -⟩ := e.flight o c x.2 hflight hbusy
      exact ⟨q, o, c, by rw [moved_self, hpc], hhead, hb⟩
    · refine ⟨q, o, c, by rw [moved_ne hq, hflight], hhead, ?_⟩
      rw [← hbusy]
      exact (e.keeps h hq).busy o (Pc.flight_op hflight)
  heads := h.queues.heads
  avail := e.ring
  used := by
    have hused := h.queues.used
    rwa [← e.used, ← e.seen, ← e.usedIdx] at hused
  finished x hx := by
    obtain ⟨hstatus, hdone⟩ := h.queues.finished x hx
    refine ⟨?_, hdone⟩
    obtain ⟨q, o, c, hflight, hhead, hbusy⟩ :=
      h.queues.flight x (List.mem_append_right _ hx)
    have hinfo : d.info x.1 = s.driver.info x.1 := by
      by_cases hq : q = p
      · subst hq
        rw [← hhead]
        exact (e.flight o c x.2 hflight hbusy).2.2
      · refine (e.desc x.1 fun hp => hq (h.owned.disjoint q p x.1 ?_ hp)).2.2
        rw [State.held, Pc.flight_held hflight, ← hhead]
        exact List.mem_cons_self ..
    show (d.info x.1).status = 0
    rw [hinfo, hstatus]
  entry := h.queues.entry
  completed := h.queues.completed

theorem Effect.inv (e : Effect s p d disk owner pc) (h : Inv s)
    (hfacts : Facts (s.moved p d disk owner pc) p pc) : Inv (s.moved p d disk owner pc) where
  calm := h.calm
  locks := e.locks h.locks
  owned := by
    have howned := e.owned
    rwa [← held_update] at howned
  facts q := by
    by_cases hq : q = p
    · subst hq
      rw [moved_self]
      exact hfacts
    · rw [moved_ne hq]
      exact (e.keeps h hq).facts (h.facts q)
  queues := e.queues h

end

end Xv6.Virtio
