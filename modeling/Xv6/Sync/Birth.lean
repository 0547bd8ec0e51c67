import Xv6.Sync.Invariant

/-!
# Process numbers

Slots are reused, so a process is known by its number, which is given out when its
slot is taken. Processes that exist at the same time have different numbers, and
the list of pids given out so far has the pid of each at its number.
-/

namespace Xv6.Sync

open LockCode Sched Function

variable {C : Type} [DecidableEq C]

structure Births (s : State C) : Prop where
  pid : ∀ p, (s.sched.proc p).state ≠ .unused → s.pids[s.born p]? = some (s.sched.proc p).pid
  inj : ∀ p q, (s.sched.proc p).state ≠ .unused → (s.sched.proc q).state ≠ .unused →
    s.born p = s.born q → p = q

omit [DecidableEq C] in
theorem Births.bound {s : State C} (h : Births s) {p : ℕ}
    (hp : (s.sched.proc p).state ≠ .unused) : s.born p < s.pids.length := by
  have := h.pid p hp
  exact (List.getElem?_eq_some_iff.mp this).1

section

variable {s s' : Sched.State C} {c : C} {ch : Sched.Choice} {p : ℕ}

theorem step_pid (hinv : Inv s) (hstep : Sched.step s ⟨c, ch⟩ = some s')
    (hp : (s.proc p).state ≠ .unused) (hp' : (s'.proc p).state ≠ .unused) :
    (s'.proc p).pid = (s.proc p).pid := by
  rcases step_act_or (step_inv hstep : Stepped s c ch s') with
    ⟨a, k, s1, push, hk, hact, rfl⟩ | ⟨he, -, -⟩
  · rw [setCode_proc] at hp' ⊢
    have hkin := hinv.act_kin hk hact p
    generalize hq : s.proc p = q at hkin hp ⊢
    generalize hq' : s1.proc p = q' at hkin hp' ⊢
    cases hkin with
    | same h => exact h.2.1
    | unused h => exact absurd h hp
    | reparent _ _ h => exact h
    | setParent =>
      cases hact
      simp [← hq', ← hq]
    | reap _ h => exact absurd h hp'
  · rw [he]

theorem step_alloc (hinv : Inv s) (hstep : Sched.step s ⟨c, ch⟩ = some s')
    (hp : (s.proc p).state = .unused) (hp' : (s'.proc p).state ≠ .unused) :
    (∃ q kind, next s c = some (.act (.allocprocFound q kind p))) ∧ ch = .go ∧
      (s'.proc p).pid = (s.proc p).pid := by
  rcases step_act_or (step_inv hstep : Stepped s c ch s') with
    ⟨a, k, s1, push, hk, hact, rfl⟩ | ⟨he, -, -⟩
  · rw [setCode_proc] at hp' ⊢
    rcases (hp ▸ hinv.act_change hk hact p).of_unused with he | ⟨q, kind, rfl, he⟩
    · exact absurd he hp'
    · have hnext : next s c = some (.act (.allocprocFound q kind p)) := by
        rw [next, codeOf_eq_codeAt]
        exact congrArg List.head? hk
      cases ch <;> simp only [State.act, reduceCtorEq] at hact <;>
        cases hact
      · exact ⟨⟨q, kind, hnext⟩, rfl, by simp⟩
      · simp [freeproc] at he
      · simp [hp] at he
  · exact absurd (he ▸ hp) hp'

omit [DecidableEq C] in
theorem next_alloc (hinv : Inv s) {q : ℕ} {kind : Spawn}
    (hnext : next s c = some (.act (.allocprocFound q kind p))) : (s.proc p).state = .unused := by
  obtain ⟨k, hk, -, -⟩ := next_act hinv hnext
  exact hinv.kept _ p .unused (hinv.live_cur c) (by rw [hk]; simp [Act.promise])

end

variable {s t : State C} {c : C} {ch : Sched.Choice}

omit [DecidableEq C] in
theorem birth_alloc {q i : ℕ} {kind : Spawn}
    (h : next s.sched c = some (.act (.allocprocFound q kind i))) :
    s.birth c .go = { s with
      born := update s.born i s.pids.length
      pids := s.pids ++ [(s.sched.proc i).pid] } := by
  simp only [State.birth, h]

omit [DecidableEq C] in
theorem birth_cases (s : State C) (c : C) (ch : Sched.Choice) :
    ((s.birth c ch).born = s.born ∧ (s.birth c ch).pids = s.pids) ∨
      ∃ q kind i, next s.sched c = some (.act (.allocprocFound q kind i)) ∧ ch = .go ∧
        (s.birth c ch).born = update s.born i s.pids.length ∧
        (s.birth c ch).pids = s.pids ++ [(s.sched.proc i).pid] := by
  unfold State.birth
  split
  · rename_i q kind i hnext
    exact .inr ⟨q, kind, i, hnext, rfl, rfl, rfl⟩
  · exact .inl ⟨rfl, rfl⟩

omit [DecidableEq C] in
theorem birth_born (hinv : Inv s.sched) {p : ℕ} (hp : (s.sched.proc p).state ≠ .unused) :
    (s.birth c ch).born p = s.born p := by
  rcases birth_cases s c ch with ⟨h, -⟩ | ⟨q, kind, i, hnext, -, h, -⟩
  · rw [h]
  · have hne : p ≠ i := by
      rintro rfl
      exact hp (next_alloc hinv hnext)
    rw [h, update_of_ne hne]

omit [DecidableEq C] in
theorem birth_pids {k : ℕ} (hk : k < s.pids.length) : (s.birth c ch).pids[k]? = s.pids[k]? := by
  rcases birth_cases s c ch with ⟨-, h⟩ | ⟨q, kind, i, -, -, -, h⟩
  · rw [h]
  · rw [h, List.getElem?_append_left hk]

theorem Lifted.born_cases (h : Lifted s c ch t) (hinv : Inv s.sched) {p : ℕ}
    (hp : (t.sched.proc p).state ≠ .unused) :
    (s.sched.proc p).state ≠ .unused ∧ t.born p = s.born p ∨
      (s.sched.proc p).state = .unused ∧ t.born p = s.pids.length ∧
        t.pids = s.pids ++ [(t.sched.proc p).pid] := by
  by_cases hu : (s.sched.proc p).state = .unused
  · obtain ⟨⟨q, kind, hnext⟩, rfl, hpid⟩ := step_alloc hinv h.step hu hp
    refine .inr ⟨hu, ?_, ?_⟩
    · rw [h.born, birth_alloc hnext]
      exact update_self ..
    · rw [h.pids, birth_alloc hnext, hpid]
  · exact .inl ⟨hu, by rw [h.born, birth_born hinv hu]⟩

theorem Births.lifted (hb : Births s) (hinv : Inv s.sched) (h : Lifted s c ch t) : Births t := by
  constructor
  · intro p hp
    rcases h.born_cases hinv hp with ⟨hu, hborn⟩ | ⟨-, hborn, hpids⟩
    · rw [hborn, h.pids, birth_pids (hb.bound hu), hb.pid p hu, step_pid hinv h.step hu hp]
    · rw [hborn, hpids, List.getElem?_concat_length]
  · intro p q hp hq he
    rcases h.born_cases hinv hp with ⟨hu, hborn⟩ | ⟨hu, hborn, -⟩ <;>
      rcases h.born_cases hinv hq with ⟨hu', hborn'⟩ | ⟨hu', hborn', -⟩
    · exact hb.inj p q hu hu' (hborn.symm.trans (he.trans hborn'))
    · have := hb.bound hu
      omega
    · have := hb.bound hu'
      omega
    · obtain ⟨⟨r, kind, hnext⟩, -, -⟩ := step_alloc hinv h.step hu hp
      obtain ⟨⟨r', kind', hnext'⟩, -, -⟩ := step_alloc hinv h.step hu' hq
      rw [hnext] at hnext'
      simp only [Option.some.injEq, Cmd.act.injEq, Act.allocprocFound.injEq] at hnext'
      exact hnext'.2.2

/-- Processes keep their numbers, and numbers their pids. -/
structure Grown (s t : State C) : Prop where
  born : ∀ p, (s.sched.proc p).state ≠ .unused → t.born p = s.born p
  pids : s.pids <+: t.pids

omit [DecidableEq C] in
theorem Grown.pid (h : Grown s t) {k : ℕ} {pid : ℤ} (hk : s.pids[k]? = some pid) :
    t.pids[k]? = some pid := by
  obtain ⟨e, he⟩ := h.pids
  rw [← he, List.getElem?_append_left (List.getElem?_eq_some_iff.mp hk).1, hk]

theorem Lifted.grown (h : Lifted s c ch t) (hinv : Inv s.sched) : Grown s t where
  born p hp := by rw [h.born, birth_born hinv hp]
  pids := by
    rw [h.pids]
    rcases birth_cases s c ch with ⟨-, he⟩ | ⟨q, kind, i, -, -, -, he⟩
    · rw [he]
    · rw [he]
      exact List.prefix_append _ _

omit [DecidableEq C] in
theorem Births.of_eq (hb : Births s) (hsched : t.sched = s.sched) (hborn : t.born = s.born)
    (hpids : t.pids = s.pids) : Births t := by
  constructor
  · rw [hsched, hborn, hpids]; exact hb.pid
  · rw [hsched, hborn]; exact hb.inj

/-- A step of the system is a step of the scheduler model as far as numbers go. -/
theorem Moved.lifted {l : Label C} (hlock : s.LockFree l.cpu) (h : Moved s l t) :
    (t.sched = s.sched ∧ t.born = s.born ∧ t.pids = s.pids) ∨ ∃ s' t' ch,
      (s'.sched = s.sched ∧ s'.born = s.born ∧ s'.pids = s.pids) ∧ Lifted s' l.cpu ch t' ∧
      t.sched = t'.sched ∧ t.born = t'.born ∧ t.pids = t'.pids := by
  cases h with
  | sched ch t hl hfree hlift => exact .inr ⟨s, t, ch, ⟨rfl, rfl, rfl⟩, hlift, rfl, rfl, rfl⟩
  | reject => exact .inl ⟨rfl, rfl, rfl⟩
  | fresh => exact .inl ⟨rfl, rfl, rfl⟩
  | enter p call x t hl hnext hop hcheck hf hlift =>
    refine .inr ⟨s.log (.begin (s.born p) x), t, _, ⟨rfl, rfl, rfl⟩, hlift, rfl, rfl, rfl⟩
  | initlock p x t hl hnext hop hlift =>
    obtain ⟨h1, -⟩ := initlock_sched (hlock p x hnext hop)
    refine .inr ⟨_, t, _, ⟨h1, ?_, ?_⟩, hlift, rfl, rfl, rfl⟩
    · cases x <;> rfl
    · cases x <;> rfl
  | body p n x ph s1 r t hl hnext hop hrun hlift =>
    have hran := run_ran hrun
    exact .inr ⟨s1, t, _, ⟨hran.sched, hran.born, hran.pids⟩, hlift, rfl, rfl, rfl⟩
  | killed p n x t hl hnext hop hlift =>
    exact .inr ⟨s, t, _, ⟨rfl, rfl, rfl⟩, hlift, rfl, rfl, rfl⟩

theorem Births.moved (hb : Births s) (hinv : Inv s.sched) {l : Label C} (hlock : s.LockFree l.cpu)
    (h : Moved s l t) : Births t := by
  rcases h.lifted hlock with ⟨h1, h2, h3⟩ | ⟨s', t', ch, ⟨h1, h2, h3⟩, hlift, h4, h5, h6⟩
  · exact hb.of_eq h1 h2 h3
  · exact ((hb.of_eq h1 h2 h3).lifted (h1.symm ▸ hinv) hlift).of_eq h4 h5 h6

theorem Moved.grown (hinv : Inv s.sched) {l : Label C} (hlock : s.LockFree l.cpu)
    (h : Moved s l t) : Grown s t := by
  rcases h.lifted hlock with ⟨-, h2, h3⟩ | ⟨s', t', ch, ⟨h1, h2, h3⟩, hlift, -, h5, h6⟩
  · exact ⟨fun p _ => by rw [h2], by rw [h3]⟩
  · have hg := hlift.grown (h1.symm ▸ hinv)
    exact ⟨fun p hp => by rw [h5, hg.born p (h1.symm ▸ hp), h2], by rw [h6, ← h3]; exact hg.pids⟩

end Xv6.Sync
