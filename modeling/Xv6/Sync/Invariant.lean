import Xv6.Sync.Stage

/-!
# Steps of the calls

A step of the system is a step of the scheduler model with a change of the call of
the stepping process and, at a decision of a body, of one object. The invariant
`Staged` says that every process has code of the right shape for its call.
-/

namespace Xv6.Sync

open LockCode Sched Function

variable {C : Type} [DecidableEq C]

/-! ## The parts of a step -/

section

variable {s : Sched.State C} {c : C} {p n : ℕ}

omit [DecidableEq C] in
theorem next_act (hinv : Inv s) {a : Act} (h : next s c = some (.act a)) :
    ∃ k, s.codeAt (s.cur c) = .act a :: k ∧ a.After k ∧ ∃ R, a.Side (s.thread c) R := by
  rw [next, codeOf_eq_codeAt] at h
  obtain ⟨k, hk⟩ := List.head?_eq_some_iff.mp h
  obtain ⟨R, -, -, hty⟩ := hinv.typed c
  rw [State.cur, hk] at hty
  exact ⟨k, hk, hty.1.2.2, R, hty.1.1⟩

omit [DecidableEq C] in
theorem next_user (hinv : Inv s) (h : next s c = some (.act (.user p))) :
    s.thread c = some p ∧ s.code p = [.act (.user p)] := by
  obtain ⟨k, hk, rfl, R, hside⟩ := next_act hinv h
  rw [cur_of_thread hside.1] at hk
  exact ⟨hside.1, hk⟩

omit [DecidableEq C] in
theorem next_critical (hinv : Inv s) (h : next s c = some (.act (.critical p n))) :
    s.thread c = some p ∧ s.code p = body p n := by
  obtain ⟨k, hk, rfl, R, hside⟩ := next_act hinv h
  rw [cur_of_thread hside.1] at hk
  exact ⟨hside.1, hk⟩

omit [DecidableEq C] in
theorem next_killed (hinv : Inv s) (h : next s c = some (.act (.killed p n))) :
    s.thread c = some p ∧ s.code p = [.act (.killed p n), .act (.user p)] := by
  obtain ⟨k, hk, rfl, R, hside⟩ := next_act hinv h
  rw [cur_of_thread hside.1] at hk
  exact ⟨hside.1, hk⟩

end

variable {s s1 t : State C} {c : C} {ch : Sched.Choice} {p : ℕ} {o : Op} {ph : Phase} {r : Reply}

/-- What a step of the scheduler model leaves alone. -/
structure Lifted (s : State C) (c : C) (ch : Sched.Choice) (t : State C) : Prop where
  step : Sched.step s.sched ⟨c, ch⟩ = some t.sched
  kmutexes : t.kmutexes = s.kmutexes
  ksems : t.ksems = s.ksems
  sleeplocks : t.sleeplocks = s.sleeplocks
  op : t.op = s.op
  hist : t.hist = s.hist
  born : t.born = (s.birth c ch).born
  pids : t.pids = (s.birth c ch).pids

omit [DecidableEq C] in
theorem birth_frame (s : State C) (c : C) (ch : Sched.Choice) :
    (s.birth c ch).kmutexes = s.kmutexes ∧ (s.birth c ch).ksems = s.ksems ∧
      (s.birth c ch).sleeplocks = s.sleeplocks ∧ (s.birth c ch).op = s.op ∧
      (s.birth c ch).hist = s.hist := by
  unfold State.birth
  split <;> exact ⟨rfl, rfl, rfl, rfl, rfl⟩

theorem lift_inv (h : s.lift c ch = some t) : Lifted s c ch t := by
  obtain ⟨u, hu, rfl⟩ := Option.map_eq_some_iff.mp h
  obtain ⟨h1, h2, h3, h4, h5⟩ := birth_frame s c ch
  exact ⟨hu, h1, h2, h3, h4, h5, rfl, rfl⟩

/-- What the body of a call leaves alone. -/
structure Ran (s s1 : State C) : Prop where
  sched : s1.sched = s.sched
  op : s1.op = s.op
  born : s1.born = s.born
  pids : s1.pids = s.pids
  hist : s1.hist = s.hist

omit [DecidableEq C] in
theorem run_ran (h : s.run p o ph = some (s1, r)) : Ran s s1 := by
  cases o <;> cases ph <;> simp only [State.run, reduceCtorEq] at h <;>
    (try split_ifs at h) <;> cases h <;>
    exact ⟨rfl, rfl, rfl, rfl, rfl⟩

/-- The scheduler's choice for a decision of a body. -/
def Reply.choice (n : ℕ) : Reply → Sched.Choice
  | .killed => .killed
  | .sleep => .sleep n
  | .wakeup => .wakeup n
  | .ret _ => .go

/-- The call after a decision of its body. -/
def Reply.op (o : Op) : Reply → Option (Op × Phase)
  | .killed | .sleep => some (o, .loop)
  | .wakeup => some (o, .woken)
  | .ret _ => none

/-- What the decision adds to the history. -/
def Reply.events (k : ℕ) (o : Op) : Reply → List Event
  | .ret value => [.ret k o value]
  | _ => []

theorem reply_inv (h : s.reply c p o r = some t) :
    ∃ u, Lifted s c (r.choice o.obj.num) u ∧
      t = { u.setOp p (r.op o) with hist := u.hist ++ r.events (u.born p) o } := by
  cases r <;> simp only [State.reply, Option.map_eq_some_iff] at h <;> obtain ⟨u, hu, rfl⟩ := h <;>
    refine ⟨u, lift_inv hu, ?_⟩ <;> simp [State.setOp, Reply.op, Reply.events, State.log]

/-- Everything that a step of the system can be. -/
inductive Moved (s : State C) (l : Label C) : State C → Prop
  | sched (ch : Sched.Choice) (t : State C) : l.choice = .sched ch → s.free l.cpu ch = true →
      Lifted s l.cpu ch t → Moved s l t
  | reject (p : ℕ) (call : Call) : l.choice = .call call →
      next s.sched l.cpu = some (.act (.user p)) → s.op p = none → call.check s = none →
      Moved s l (s.log (.reject (s.born p) call))
  | fresh (p : ℕ) (call : Call) (o : Op) : l.choice = .call call →
      next s.sched l.cpu = some (.act (.user p)) → s.op p = none → call.check s = some o →
      s.fresh o = true →
      Moved s l ((s.log (.begin (s.born p) o)).setOp p (some (o, .initlock)))
  | enter (p : ℕ) (call : Call) (o : Op) (t : State C) : l.choice = .call call →
      next s.sched l.cpu = some (.act (.user p)) → s.op p = none → call.check s = some o →
      s.fresh o = false →
      Lifted (s.log (.begin (s.born p) o)) l.cpu (.call (.critical o.obj.num)) t →
      Moved s l (t.setOp p (some (o, .loop)))
  | initlock (p : ℕ) (o : Op) (t : State C) : l.choice = .op →
      next s.sched l.cpu = some (.act (.user p)) → s.op p = some (o, .initlock) →
      Lifted (s.initlock o) l.cpu (.call (.critical o.obj.num)) t →
      Moved s l (t.setOp p (some (o, .loop)))
  | body (p n : ℕ) (o : Op) (ph : Phase) (s1 : State C) (r : Reply) (t : State C) :
      l.choice = .op → next s.sched l.cpu = some (.act (.critical p n)) →
      s.op p = some (o, ph) → s.run p o ph = some (s1, r) →
      Lifted s1 l.cpu (r.choice o.obj.num) t →
      Moved s l { t.setOp p (r.op o) with hist := t.hist ++ r.events (t.born p) o }
  | killed (p n : ℕ) (o : Op) (t : State C) : l.choice = .op →
      next s.sched l.cpu = some (.act (.killed p n)) → s.op p = some (o, .loop) →
      Lifted s l.cpu .go t →
      Moved s l (t.setOp p (some (o, .checked (s.sched.proc p).killed)))

theorem step_moved {l : Label C} (h : step s l = some t) : Moved s l t := by
  unfold step at h
  split at h
  · rename_i call hl
    split at h
    · rename_i p hnext
      split_ifs at h with hop
      unfold State.start at h
      split at h
      · rename_i hcheck
        cases h
        exact .reject p call hl hnext hop hcheck
      · rename_i o hcheck
        simp only at h
        split_ifs at h with hf
        · cases h
          exact .fresh p call o hl hnext hop hcheck hf
        · obtain ⟨u, hu, rfl⟩ := Option.map_eq_some_iff.mp h
          exact .enter p call o u hl hnext hop hcheck (eq_false_of_ne_true hf) (lift_inv hu)
    · simp at h
  · rename_i hl
    split at h
    · rename_i p hnext
      split at h
      · rename_i o hop
        obtain ⟨u, hu, rfl⟩ := Option.map_eq_some_iff.mp h
        exact .initlock p o u hl hnext hop (lift_inv hu)
      · simp at h
    · rename_i p n hnext
      split at h
      · rename_i o ph hop
        obtain ⟨⟨s1, r⟩, hrun, hr⟩ := Option.bind_eq_some_iff.mp h
        obtain ⟨u, hu, rfl⟩ := reply_inv hr
        exact .body p n o ph s1 r u hl hnext hop hrun hu
      · simp at h
    · rename_i p n hnext
      split at h
      · rename_i o hop
        obtain ⟨u, hu, rfl⟩ := Option.map_eq_some_iff.mp h
        exact .killed p n o u hl hnext hop (lift_inv hu)
      · simp at h
    · simp at h
  · rename_i ch hl
    split_ifs at h with hfree
    exact .sched ch t hl hfree (lift_inv h)

/-! ## The invariant -/

/-- Every process has code of the right shape for its call. -/
structure Staged (s : State C) : Prop where
  inv : Inv s.sched
  family : Family s.sched
  idle : ∀ p, (s.sched.proc p).state = .unused ∨ (s.sched.proc p).state = .zombie → s.op p = none
  shape : ∀ p, (s.sched.proc p).state ≠ .unused → Shape p (s.op p) (s.sched.code p)
  plain : ∀ c, Plain (s.sched.cpu c).sched

omit [DecidableEq C] in
theorem free_guard (hinv : Inv s.sched) (hfree : s.free c ch = true) {p : ℕ}
    (ht : s.sched.thread c = some p) : Guard ch (s.op p) (s.sched.code p) := by
  have hact : ∀ a k, s.sched.code p = .act a :: k → ch.isInterrupt = false →
      allowed ch a = true ∧ (decides a = true → s.op p = none) := by
    intro a k hk hch
    have hnext : next s.sched c = some (.act a) := by
      rw [next, ht]
      simp [State.codeOf, hk]
    cases a with
    | user q =>
      obtain rfl : p = q := Option.some.inj (ht.symm.trans (next_user hinv hnext).1)
      cases ch <;> simp only [State.free, hnext, Bool.and_eq_true, Option.isNone_iff_eq_none,
        Choice.isInterrupt, reduceCtorEq] at hfree hch <;>
        first | exact ⟨rfl, fun _ => hfree.1⟩ | exact ⟨hfree.2, fun _ => hfree.1⟩
    | critical q n =>
      obtain rfl : p = q := Option.some.inj (ht.symm.trans (next_critical hinv hnext).1)
      cases ch <;> simp only [State.free, hnext, Bool.and_eq_true, Option.isNone_iff_eq_none,
        Choice.isInterrupt, reduceCtorEq] at hfree hch <;>
        first | exact ⟨rfl, fun _ => hfree.1⟩ | exact ⟨hfree.2, fun _ => hfree.1⟩
    | killed q n =>
      obtain rfl : p = q := Option.some.inj (ht.symm.trans (next_killed hinv hnext).1)
      cases ch <;> simp only [State.free, hnext, Option.isNone_iff_eq_none,
        Choice.isInterrupt, reduceCtorEq] at hfree hch <;> exact ⟨rfl, fun _ => hfree⟩
    | _ => exact ⟨rfl, fun h => by simp [decides] at h⟩
  refine ⟨fun a k hk hch => (hact a k hk hch).1, fun a k hk hch => (hact a k hk hch).2, ?_⟩
  rintro n chan rfl
  simpa [State.free] using hfree

theorem Lifted.ended (h : Lifted s c ch t) (hs : Staged s) {q : ℕ}
    (hq : (t.sched.proc q).state = .unused ∨ (t.sched.proc q).state = .zombie) :
    s.op q = none := by
  rcases ended_of_step hs.inv h.step hq with hold | ⟨hlive, k, hcode, hlast⟩
  · exact hs.idle q hold
  · by_contra hne
    obtain ⟨x, hx⟩ := Option.ne_none_iff_exists'.mp hne
    have hl := (hx ▸ hs.shape q hlive : Shape q (some x) _).last
    rw [hcode, hlast] at hl
    simp at hl

/-- What is left to show for a step: the code of the stepping process. -/
theorem Staged.lifted (hs : Staged s) (h : Lifted s c ch t) {u : State C}
    (hdev : ∀ n chan, ch = .device n chan → foreign n = true ∧ foreign chan = true)
    (hsched : u.sched = t.sched) (hop : ∀ q, s.sched.thread c ≠ some q → u.op q = s.op q)
    (hown : ∀ p, s.sched.thread c = some p → Shape p (u.op p) (t.sched.code p) ∧
      (u.op p ≠ s.op p → (t.sched.proc p).state = .running)) : Staged u := by
  have hinv := hs.inv.step h.step
  refine ⟨hsched ▸ hinv, hsched ▸ hs.family.step hs.inv h.step, ?_, ?_, ?_⟩
  · intro q hq
    rw [hsched] at hq
    have hnone := h.ended hs hq
    by_cases ht : s.sched.thread c = some q
    · by_contra hne
      have hrun := (hown q ht).2 (by rw [hnone]; exact hne)
      simp [hrun] at hq
    · rw [hop q ht, hnone]
  · intro q hq
    rw [hsched] at hq ⊢
    by_cases ht : s.sched.thread c = some q
    · exact (hown q ht).1
    · rw [hop q ht]
      rcases other_code hs.inv h.step ht hq with ⟨hlive, hcode⟩ | ⟨hu, hcode⟩
      · rw [hcode]
        exact hs.shape q hlive
      · rw [hcode, hs.idle q (.inl hu)]
        exact .plain rfl
  · intro c'
    rw [hsched]
    exact sched_plain hs.inv hs.plain hdev h.step c'

theorem Lifted.decision (h : Lifted s c ch t) (hinv : Inv s.sched) {p : ℕ} {a : Act} {k : Code}
    (hch : ch.isInterrupt = false) (ht : s.sched.thread c = some p)
    (hcode : s.sched.code p = .act a :: k) (ha : decides a = true) :
    ∃ s1 push, s.sched.act c ch a = some (s1, push) ∧ t.sched.code p = push ++ k ∧
      (∀ q, q ≠ p → t.sched.code q = s.sched.code q) ∧ t.sched.proc = s.sched.proc ∧
      (t.sched.proc p).state = .running := by
  obtain ⟨s1, push, hact, he, hnew⟩ := act_of_step hch ht hcode h.step
  have hother : ∀ q, q ≠ p → t.sched.code q = s.sched.code q := by
    intro q hq
    rw [he, setCode_code, ht, if_neg (by simpa using hq.symm),
      (act_local (by cases a <;> simp_all [decides, Act.local]) hact).2.1]
  have hproc : t.sched.proc = s.sched.proc := by
    rw [he, setCode_proc]
    funext j
    exact act_slot hact (by cases a <;> simp_all [decides, Act.slot])
  have hcur : s.sched.codeAt (s.sched.cur c) = .act a :: k := by
    rw [cur_of_thread ht]; exact hcode
  refine ⟨s1, push, hact, hnew, hother, hproc, ?_⟩
  rw [hproc]
  exact hinv.running_of_act ht hcur (by cases a <;> simp_all [decides])

omit [DecidableEq C] in
theorem Staged.of_eq (hs : Staged s) {u : State C} (hsched : u.sched = s.sched)
    (hop : u.op = s.op) : Staged u := by
  refine ⟨hsched ▸ hs.inv, hsched ▸ hs.family, ?_, ?_, ?_⟩
  · rw [hsched, hop]; exact hs.idle
  · rw [hsched, hop]; exact hs.shape
  · rw [hsched]; exact hs.plain

theorem Staged.entered (hs : Staged s) (hnext : next s.sched c = some (.act (.user p)))
    (h : Lifted s c (.call (.critical o.obj.num)) t) : Staged (t.setOp p (some (o, .loop))) := by
  obtain ⟨ht, hcode⟩ := next_user hs.inv hnext
  obtain ⟨s1, push, hact, hnew, -, -, hrun⟩ := h.decision hs.inv rfl ht hcode rfl
  refine hs.lifted h (by simp) rfl (fun q hq => ?_) fun q hq => ?_
  · have hne : q ≠ p := fun he => hq (he ▸ ht)
    simp [State.setOp, hne, h.op]
  · obtain rfl : p = q := Option.some.inj (ht.symm.trans hq)
    refine ⟨?_, fun _ => hrun⟩
    cases hact
    rw [hnew]
    simp only [State.setOp, update_self]
    exact @Shape.enter p o [] rfl

omit [DecidableEq C] in
theorem body_of_shape {n : ℕ} (h : Shape p (some (o, ph)) (body p n)) (hph : ph ≠ .initlock) :
    n = o.obj.num := by
  generalize hk : body p n = k at h
  cases h with
  | initlock hpre => exact absurd rfl hph
  | @enter o pre hpre =>
    have := congrArg List.length hk
    simp [body] at this
  | stage st hfit =>
    cases st <;> simp [Stage.code, body, sleep] at hk
    exact hk

omit [DecidableEq C] in
theorem look_of_shape {n : ℕ}
    (h : Shape p (some (o, .loop)) [.act (.killed p n), .act (.user p)]) : n = o.obj.num := by
  generalize hk : [Cmd.act (Act.killed p n), Cmd.act (Act.user p)] = k at h
  cases h with
  | @enter o pre hpre =>
    have := congrArg List.length hk
    simp [body] at this
  | stage st hfit =>
    cases st <;> simp [Stage.code, body, sleep] at hk
    exact hk

omit [DecidableEq C] in
theorem run_phase (h : s.run p o ph = some (s1, r)) : ph ≠ .initlock := by
  rintro rfl
  cases o <;> simp [State.run] at h

theorem reply_shape {s s1 : Sched.State C} {push : Code}
    (hact : s.act c (r.choice o.obj.num) (.critical p o.obj.num) = some (s1, push)) :
    Shape p (r.op o) (push ++ [.act (.user p)]) := by
  cases r <;> cases hact
  · exact .stage .ask rfl
  · exact .stage .drowsy rfl
  · exact .stage (.wake 0) rfl
  · exact .leave o.obj

/-- The spinlock is free where `initlock` clears it. -/
def State.LockFree (s : State C) (c : C) : Prop :=
  ∀ p o, next s.sched c = some (.act (.user p)) → s.op p = some (o, .initlock) →
    s.sched.holder (.cond o.obj.num) = none

omit [DecidableEq C] in
theorem initlock_sched (h : s.sched.holder (.cond o.obj.num) = none) :
    (s.initlock o).sched = s.sched ∧ (s.initlock o).op = s.op := by
  have hsched : { s.sched with
      holder := update s.sched.holder (.cond o.obj.num) none } = s.sched := by
    rw [← h, update_eq_self]
  cases o <;> exact ⟨hsched, rfl⟩

theorem Staged.moved (hs : Staged s) {l : Label C} (hlock : s.LockFree l.cpu)
    (h : Moved s l t) : Staged t := by
  cases h with
  | sched ch t hl hfree hlift =>
    refine hs.lifted hlift ?_ rfl (fun q _ => by rw [hlift.op]) fun p ht => ?_
    · rintro n chan rfl
      simpa [State.free] using hfree
    · rw [hlift.op]
      refine ⟨?_, fun hne => absurd rfl hne⟩
      exact ((hs.shape p (hs.inv.live_cur l.cpu p (cur_of_thread ht))).own hs.inv ht
        (free_guard hs.inv hfree ht) hlift.step).shape
  | reject p call hl hnext hop hcheck => exact hs.of_eq rfl rfl
  | fresh p call o hl hnext hop hcheck hf =>
    obtain ⟨ht, hcode⟩ := next_user hs.inv hnext
    have hcur : s.sched.codeAt (s.sched.cur l.cpu) = [.act (.user p)] := by
      rw [cur_of_thread ht]; exact hcode
    have hrun := hs.inv.running_of_act ht hcur (by simp)
    refine ⟨hs.inv, hs.family, fun q hq => ?_, fun q hq => ?_, hs.plain⟩
    · have hne : q ≠ p := by
        rintro rfl
        change (s.sched.proc q).state = _ ∨ (s.sched.proc q).state = _ at hq
        simp [hrun] at hq
      simp only [State.setOp, update_of_ne hne]
      exact hs.idle q hq
    · by_cases hne : q = p
      · subst hne
        change Shape q _ (s.sched.code q)
        rw [hcode]
        simpa [State.setOp] using @Shape.initlock q o [] rfl
      · simp only [State.setOp, update_of_ne hne]
        exact hs.shape q hq
  | enter p call o t hl hnext hop hcheck hf hlift =>
    exact (hs.of_eq (u := s.log (.begin (s.born p) o)) rfl rfl).entered hnext hlift
  | initlock p o t hl hnext hop hlift =>
    obtain ⟨h1, h2⟩ := initlock_sched (hlock p o hnext hop)
    exact (hs.of_eq h1 h2).entered (by rwa [h1]) hlift
  | body p n o ph s1 r t hl hnext hop hrun hlift =>
    have hran := run_ran hrun
    obtain ⟨ht, hcode⟩ := next_critical hs.inv hnext
    have hshape := hs.shape p (hs.inv.live_cur l.cpu p (cur_of_thread ht))
    rw [hop, hcode] at hshape
    obtain rfl := body_of_shape hshape (run_phase hrun)
    have hs1 := hs.of_eq hran.sched hran.op
    obtain ⟨s2, push, hact, hnew, -, -, hrunning⟩ := hlift.decision hs1.inv
      (by cases r <;> rfl) (hran.sched ▸ ht) (hran.sched ▸ hcode) rfl
    refine hs1.lifted hlift (by cases r <;> simp [Reply.choice]) rfl (fun q hq => ?_) fun q hq => ?_
    · rw [hran.sched] at hq
      have hne : q ≠ p := fun he => hq (he ▸ ht)
      simp [State.setOp, hne, hlift.op]
    · rw [hran.sched] at hq
      obtain rfl : p = q := Option.some.inj (ht.symm.trans hq)
      refine ⟨?_, fun _ => hrunning⟩
      rw [hnew]
      simp only [State.setOp, update_self]
      exact reply_shape hact
  | killed p n o t hl hnext hop hlift =>
    obtain ⟨ht, hcode⟩ := next_killed hs.inv hnext
    have hshape := hs.shape p (hs.inv.live_cur l.cpu p (cur_of_thread ht))
    rw [hop, hcode] at hshape
    obtain rfl := look_of_shape hshape
    obtain ⟨s2, push, hact, hnew, -, -, hrunning⟩ := hlift.decision hs.inv rfl ht hcode rfl
    refine hs.lifted hlift (by simp) rfl (fun q hq => ?_) fun q hq => ?_
    · have hne : q ≠ p := fun he => hq (he ▸ ht)
      simp [State.setOp, hne, hlift.op]
    · obtain rfl : p = q := Option.some.inj (ht.symm.trans hq)
      refine ⟨?_, fun _ => hrunning⟩
      cases hact
      rw [hnew]
      simp only [State.setOp, update_self]
      exact .stage .answer rfl

end Xv6.Sync
