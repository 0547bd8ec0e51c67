import Xv6.Virtio.Steps

/-!
# Requests and completions

What the invariant of the disk driver says about every state of every run: chains are
disjoint, nothing panics, no entry of the available ring is overwritten too early, and a
call returns only when the device has carried out its own request.
-/

namespace Xv6.Virtio

open Runs Function

variable {s t : State} {p : ℕ} {o : Op} {n i : ℕ} {rest : List ℕ}

/-! ## `free_chain` -/

/-- The place of a process that still has to free these descriptors. -/
def freeing (o : Op) (n : ℕ) : List ℕ → Pc
  | [] => .release o n
  | i :: rest => .freeChain o n i rest

theorem run_other {q : ℕ} (h : s.run q = some t) (hq : p ≠ q) : t.proc p = s.proc p := by
  have hgoto : ∀ (s : State) pc, (s.goto q pc).proc p = s.proc p := fun s pc =>
    update_of_ne hq ..
  have hfree : ∀ i pc, (s.freeThen q i pc).proc p = s.proc p := by
    intro i pc
    unfold State.freeThen
    split
    · exact hgoto s pc
    · rfl
  unfold State.run at h
  split at h
  case h_1 => cases h
  case h_2 =>
    split at h
    · cases h; exact hgoto _ _
    · cases h
  case h_4 =>
    cases h
    unfold State.alloc
    split <;> exact hgoto _ _
  case h_5 o ids hpc =>
    cases h
    cases ids with
    | nil => exact hgoto _ _
    | cons i rest => exact hfree _ _
  case h_9 =>
    cases h
    unfold State.wait
    split <;> exact hgoto _ _
  case h_10 => cases h; exact hfree _ _
  all_goals
    cases h
    exact hgoto _ _

theorem step_other {l : Label} (h : step s l = some t) (hp : s.proc p ≠ .user) (hl : l ≠ .run p) :
    t.proc p = s.proc p := by
  unfold step at h
  split at h
  · cases h
  · cases l with
    | call q o =>
      simp only at h
      split at h
      · rename_i hcall
        cases h
        refine update_of_ne ?_ _ _
        rintro rfl
        exact hp hcall.1
      · cases h
    | run q => exact run_other h fun hpq => hl (by rw [hpq])
    | intr =>
      simp only [State.handle] at h
      split at h <;> split at h <;> (try split at h) <;> cases h <;> rfl
    | take =>
      simp only [State.take] at h
      split at h <;> cases h
      rfl
    | complete head n =>
      simp only [State.complete] at h
      split at h
      · obtain ⟨x, -, rfl⟩ := Option.map_eq_some_iff.mp h
        rfl
      · cases h

theorem Inv.free_round (h : Inv s) (hp : s.proc p = .freeChain o n i rest) :
    ∃ t, step s (.run p) = some t ∧ t.proc p = freeing o n rest := by
  have hf := h.facts p
  rw [hp] at hf
  obtain ⟨hpath, -, -⟩ := hf
  have hok := h.freeDesc_ok (p := p) (i := i) (by rw [State.held, hp]; exact List.mem_cons_self ..)
  have hstep : step s (.run p) = some (s.freeChain p o n i rest) := by
    simp [step, h.calm, State.run, hp]
  refine ⟨_, hstep, ?_⟩
  rw [State.freeChain, State.freeThen, hok]
  show update s.proc p _ p = _
  rw [update_self]
  cases rest with
  | nil => rw [show (s.driver.desc i).hasNext = false from hpath]; rfl
  | cons j rest =>
    rw [hpath.1, hpath.2.1]
    rfl

/-- After as many own steps as there are descriptors left, the chain is free. -/
theorem Inv.free_rounds {ls : List Label} (ids : List ℕ) :
    ∀ {s : State}, Inv s → s.proc p = freeing o n ids → exec step s ls = some t →
      ls.count (.run p) ≤ ids.length →
      t.proc p = freeing o n (ids.drop (ls.count (.run p))) := by
  induction ls generalizing ids with
  | nil =>
    intro s _ hp ht _
    cases ht
    exact hp
  | cons l ls ih =>
    intro s h hp ht hcount
    obtain ⟨u, hu, hrest⟩ := exec_cons.mp ht
    have hne : s.proc p ≠ .user := by
      rw [hp]
      cases ids <;> nofun
    by_cases hl : l = .run p
    · subst hl
      rw [List.count_cons_self] at hcount ⊢
      cases ids with
      | nil => exact absurd hcount (Nat.not_succ_le_zero _)
      | cons i ids =>
        obtain ⟨u', hu', hpu⟩ := h.free_round hp
        rw [hu] at hu'
        cases hu'
        exact ih ids (h.next hu) hpu hrest (Nat.le_of_succ_le_succ hcount)
    · rw [List.count_cons_of_ne hl] at hcount ⊢
      exact ih ids (h.next hu) ((step_other hu hne hl).trans hp) hrest hcount

/-! ## The driver -/

/-- What holds between the calls, the rings and the device. -/
structure Matched (s : State) : Prop where
  /-- Requests in flight have formatted chains of three descriptors. -/
  chain : ∀ p o c n, (s.proc p).flight = some (o, c, n) → c.list.Nodup ∧ Linked s.driver o c
  /-- No descriptor belongs to two processes. -/
  disjoint : ∀ p q, p ≠ q → (s.proc p).held.Disjoint (s.proc q).held
  free : ∀ i, i < num → (s.driver.free i = false ↔ ∃ p, i ∈ (s.proc p).held)
  calm : s.panic = none
  /-- `free_chain` ends after at most three rounds, whatever happens in between. -/
  ends : ∀ p o n i rest, s.proc p = .freeChain o n i rest →
    rest.length ≤ 2 ∧ (step s (.run p)).isSome ∧
      ∀ ls t, exec step s ls = some t → ls.count (.run p) = rest.length + 1 →
        t.proc p = .release o n
  /-- What the device has not taken yet is still in the available ring. -/
  ring : ∀ j h n, s.pending[j]? = some (h, n) →
    s.driver.avail ((s.taken.toNat + j) % 2 ^ 16 % num) = h
  pending : (s.driver.availIdx - s.taken).toNat = s.pending.length
  /-- A request in a ring or with the device belongs to a call that waits for it. -/
  flight : ∀ h n, (h, n) ∈ s.outstanding → ∃ p o c, (s.proc p).flight = some (o, c, n) ∧
    c.head = h ∧ s.busy o.buf = true
  /-- The device has done what was asked for. -/
  completed : ∀ n b r, (n, b, r) ∈ s.completed →
    ∃ p o, s.requests[n]? = some (p, o) ∧ b = o.buf ∧ r = o.req
  /-- A call that returns has made request `n`, and the device has carried it out. -/
  returns : ∀ p o n, s.proc p = .release o n →
    s.requests[n]? = some (p, o) ∧ (n, o.buf, o.req) ∈ s.completed
  /-- The handler finds the buffer of a request that the device has carried out. -/
  handler : ∀ id, s.intr = .entry id → ∃ n p o, (s.driver.info id).b = some o.buf ∧
    s.requests[n]? = some (p, o) ∧ (n, o.buf, o.req) ∈ s.completed

theorem Inv.ends (h : Inv s) (hp : s.proc p = .freeChain o n i rest) :
    rest.length ≤ 2 ∧ (step s (.run p)).isSome ∧
      ∀ ls t, exec step s ls = some t → ls.count (.run p) = rest.length + 1 →
        t.proc p = .release o n := by
  have hf := h.facts p
  rw [hp] at hf
  obtain ⟨u, hu, -⟩ := h.free_round hp
  refine ⟨hf.2.1, by rw [hu]; rfl, fun ls t ht hcount => ?_⟩
  have hend := Inv.free_rounds (i :: rest) h hp ht (by rw [hcount]; rfl)
  rw [hcount] at hend
  rw [hend, List.drop_eq_nil_of_le (by simp)]
  rfl

theorem Inv.handler (h : Inv s) {id : ℕ} (hid : s.intr = .entry id) :
    ∃ n p o, (s.driver.info id).b = some o.buf ∧ s.requests[n]? = some (p, o) ∧
      (n, o.buf, o.req) ∈ s.completed := by
  obtain ⟨n, rest, q, o, c, hfin, hq, -, -, hinfo⟩ := h.entry_info hid
  have hmade := (Pc.flight_facts hq (h.facts q)).2.made
  refine ⟨n, q, o, by rw [hinfo], hmade, ?_⟩
  obtain ⟨-, x, hx⟩ := h.queues.finished (id, n) (by rw [hfin]; exact List.mem_cons_self ..)
  obtain ⟨p', o', hmade', hb, hr⟩ := h.queues.completed n x.1 x.2 hx
  rw [hmade] at hmade'
  cases hmade'
  rw [← hb, ← hr]
  exact hx

/-- Every run of callers, handler and device keeps requests and completions matched. -/
theorem driver_matched (ls : List Label) (s : State) (h : exec step init ls = some s) :
    Matched s := by
  have hinv := run_inv h
  refine ⟨?_, ?_, ?_, hinv.calm, ?_, ?_, ?_, ?_, hinv.queues.completed, ?_, ?_⟩
  · intro p o c n hf
    have hnodup := hinv.owned.nodup p
    rw [State.held, Pc.flight_held hf] at hnodup
    exact ⟨hnodup, (Pc.flight_facts hf (hinv.facts p)).1⟩
  · exact fun p q hpq i hp hq => hpq (hinv.owned.disjoint p q i hp hq)
  · intro i hi
    rw [← Bool.not_eq_true, hinv.owned.free i, not_and, not_forall]
    simp [hi, State.held]
  · exact fun p o n i rest hp => hinv.ends hp
  · intro j h n hj
    have hmap : (s.pending.map Prod.fst)[j]? = some h := by rw [List.getElem?_map, hj]; rfl
    exact hinv.queues.avail.get num_dvd hmap
  · rw [UInt16.toNat_sub, Nat.add_comm, ← List.length_map (f := Prod.fst)]
    exact hinv.queues.avail.length (by decide)
  · exact fun h n he => hinv.queues.flight (h, n) he
  · intro p o n hp
    have hf := hinv.facts p
    rw [hp] at hf
    exact ⟨hf.made, hf.done⟩
  · exact fun id hid => hinv.handler hid

/-- Two calls are completed in the other order, and the second one is about to return. -/
def sampleRun : List Label :=
  .call 0 ⟨5, 40, true⟩ :: List.replicate 9 (.run 0) ++
  .call 1 ⟨6, 41, false⟩ :: List.replicate 9 (.run 1) ++
  [.take, .take, .complete 3 1, .intr, .intr, .intr, .complete 0 0, .intr, .intr, .intr] ++
  List.replicate 5 (.run 1)

theorem driver_matched_sample : ∃ s, exec step init sampleRun = some s ∧
    s.proc 1 = .release ⟨6, 41, false⟩ 1 ∧ (1, 6, ⟨false, 82⟩) ∈ s.completed := by
  have hrun : (exec step init sampleRun).map (fun s => s.proc 1) =
      some (.release ⟨6, 41, false⟩ 1) := by
    decide +kernel
  obtain ⟨s, hs, hp⟩ := Option.map_eq_some_iff.mp hrun
  exact ⟨s, hs, hp, ((driver_matched _ s hs).returns 1 _ 1 hp).2⟩

end Xv6.Virtio
