import Xv6.Sync.Mutex

/-!
# Kernel semaphores

A semaphore that is initialised once before use conserves its tokens: its count is
the initial value plus the posts that have returned minus the waits that took a token,
and one more while a post is in its `wakeup`.
-/

namespace Xv6.Sync

open LockCode Runs Sched Function

variable {C : Type} [DecidableEq C]

/-- The call returns 0. -/
def Event.succeeds (x : Op) : Event → Bool
  | .ret _ y v => decide (y = x ∧ v = 0)
  | _ => false

/-- How often a call has returned 0. -/
def returned (hist : List Event) (x : Op) : ℕ := hist.countP (·.succeeds x)

/-- What the count would be with every token accounted for. -/
def tokens (hist : List Event) (id : Fin nksem) (v : ℤ) : ℤ :=
  v + returned hist (.semPost id) - returned hist (.semWait id)

section

variable {s s1 t : State C} {l : Label C} {p q : ℕ} {x y : Op} {ph : Phase} {r : Reply}
  {id : Fin nksem}

theorem returned_append (hist : List Event) (e : Event) (x : Op) :
    returned (hist ++ [e]) x = returned hist x + if e.succeeds x then 1 else 0 := by
  simp [returned, List.countP_append, List.countP_singleton]

/-- A return of another call, or of a call that fails, counts nothing. -/
theorem returned_reply (hist : List Event) {k : ℕ} (h : ¬ (y = x ∧ r = .ret 0)) :
    returned (hist ++ r.events k y) x = returned hist x := by
  cases r with
  | ret v =>
    have hne : ¬ (y = x ∧ v = 0) := fun he => h ⟨he.1, by rw [he.2]⟩
    simp [Reply.events, returned_append, Event.succeeds, hne]
  | _ => simp [Reply.events]

theorem returned_zero {hist : List Event} (h : ∀ k v, .ret k x v ∉ hist) : returned hist x = 0 := by
  rw [returned, List.countP_eq_zero]
  intro e he hs
  cases e with
  | ret k y v =>
    obtain ⟨rfl, -⟩ := of_decide_eq_true hs
    exact h k v he
  | _ => cases hs

theorem int32_of_lt {n : ℤ} (h0 : 0 ≤ n) (h : n < 2 ^ 31) : int32 n = n := by
  unfold int32
  omega

omit [DecidableEq C] in
theorem run_sem (h : s.run p x ph = some (s1, r)) (ho : x.obj ≠ .sem id) :
    s1.ksems id = s.ksems id := by
  have hset : ∀ id' f, id' ≠ id → (s.setSem id' f).ksems id = s.ksems id :=
    fun id' f hne => update_of_ne (Ne.symm hne) ..
  cases x <;> cases ph <;> simp only [State.run, reduceCtorEq] at h <;>
    (try split_ifs at h) <;> cases h <;>
    first | rfl | exact hset _ _ fun he => ho (congrArg Obj.sem he)

/-! ## The tokens -/

/-- The tokens of a semaphore that has been initialised with `v`, as long as its count
does not overflow. -/
structure Conserved (s : State C) (id : Fin nksem) : Prop where
  value : ∀ p v ph, s.op p = some (.semInit id v, ph) → 0 ≤ v
  nonneg : ∀ k v, .ret k (.semInit id v) 0 ∈ s.hist →
    v + returned s.hist (.semPost id) < 2 ^ 31 → 0 ≤ tokens s.hist id v
  still : ∀ k v, .ret k (.semInit id v) 0 ∈ s.hist →
    v + returned s.hist (.semPost id) < 2 ^ 31 → (∀ q, s.op q ≠ some (.semPost id, .woken)) →
    (s.ksems id).count = tokens s.hist id v
  posting : ∀ k v, .ret k (.semInit id v) 0 ∈ s.hist →
    v + returned s.hist (.semPost id) < 2 ^ 31 → ∀ q, s.op q = some (.semPost id, .woken) →
    (s.ksems id).count = int32 (tokens s.hist id v + 1)

omit [DecidableEq C] in
theorem check_value {call : Call} {v : ℤ} (h : call.check s = some (.semInit id v)) :
    0 ≤ v ∧ v < 2 ^ 31 := by
  cases call <;> simp only [Call.check, Option.map_eq_some_iff, Option.bind_eq_some_iff,
    Option.some.injEq, reduceCtorEq, and_false, exists_false] at h
  case semInit =>
    obtain ⟨id', -, hv⟩ := h
    split_ifs at hv with hneg
    cases hv
    unfold int32 at hneg ⊢
    omega
  all_goals
    obtain ⟨id', -, hv⟩ := h
    split_ifs at hv
    cases hv

omit [DecidableEq C] in
theorem calls_value {v : ℤ} (h : s.calls l = some (p, .semInit id v)) : 0 ≤ v := by
  unfold State.calls at h
  split at h
  · obtain ⟨y, hy, he⟩ := Option.map_eq_some_iff.mp h
    cases he
    exact (check_value hy).1
  · cases h

omit [DecidableEq C] in
theorem Conserved.value_did (hc : Conserved s id) (hd : Did s l t) {v : ℤ}
    (hp : t.op p = some (.semInit id v, ph)) : 0 ≤ v := by
  rcases hd.op_cases hp with ⟨ph', hp'⟩ | ⟨hcalls, -⟩
  · exact hc.value p v ph' hp'
  · exact calls_value hcalls

omit [DecidableEq C] in
theorem Conserved.frame (hc : Conserved s id) (hd : Did s l t)
    (hinit : ∀ k v, .ret k (.semInit id v) 0 ∈ t.hist → .ret k (.semInit id v) 0 ∈ s.hist)
    (hpost : returned t.hist (.semPost id) = returned s.hist (.semPost id))
    (hwait : returned t.hist (.semWait id) = returned s.hist (.semWait id))
    (hcount : (t.ksems id).count = (s.ksems id).count)
    (hwoken : ∀ q, t.op q = some (.semPost id, .woken) ↔ s.op q = some (.semPost id, .woken)) :
    Conserved t id := by
  refine ⟨fun p v ph hp => hc.value_did hd hp, ?_, ?_, ?_⟩ <;>
    simp only [tokens, hpost, hwait, hcount, hwoken, ne_eq]
  · exact fun k v hk => hc.nonneg k v (hinit k v hk)
  · exact fun k v hk => hc.still k v (hinit k v hk)
  · exact fun k v hk => hc.posting k v (hinit k v hk)

omit [DecidableEq C] in
/-- The init call sets the count: no other call on the semaphore has started. -/
theorem Conserved.init (hc : Conserved s id) (h : SoundOnce (.sem id) s) (hd : Did s l t) {v : ℤ}
    (hp : s.op p = some (.semInit id v, ph)) (hat : s.At p (.sem id) ph .body)
    (hop : t.op = update s.op p none)
    (hhist : t.hist = s.hist ++ [.ret (s.born p) (.semInit id v) 0])
    (hcount : (t.ksems id).count = v) : Conserved t id := by
  have hfirst : ∀ e ∈ s.hist, e.inits (.sem id) = false := by
    intro e he
    by_contra hi
    simpa [Op.isInit] using h.once.init e he (by simpa using hi) p _ ph hp rfl
  have hnone : ∀ {x : Op}, x.obj = .sem id → x.isInit = false → returned t.hist x = 0 := by
    intro x hx hi
    refine returned_zero fun k w hm => ?_
    rw [hhist, List.mem_append, List.mem_singleton] at hm
    rcases hm with hm | hm
    · obtain ⟨e, he, hie⟩ := h.once.use k x (h.logged.ret k x w hm) hx hi
      simp [hfirst e he] at hie
    · cases hm
      simp [Op.isInit] at hi
  have hvalue : ∀ {k w}, .ret k (.semInit id w) 0 ∈ t.hist → w = v := by
    intro k w hm
    rw [hhist, List.mem_append, List.mem_singleton] at hm
    rcases hm with hm | hm
    · simpa [Event.inits, Op.isInit, Op.obj] using hfirst _ hm
    · cases hm
      rfl
  have htokens : ∀ {k w}, .ret k (.semInit id w) 0 ∈ t.hist → tokens t.hist id w = v := by
    intro k w hm
    simp [tokens, hvalue hm, hnone (x := .semPost id) rfl rfl, hnone (x := .semWait id) rfl rfl]
  refine ⟨fun q w ph' hq => hc.value_did hd hq, fun k w hk _ => ?_, fun k w hk _ _ => ?_,
    fun k w hk _ q hq => ?_⟩
  · rw [htokens hk]
    exact hc.value p v ph hp
  · rw [htokens hk, hcount]
  · rw [hop, update_apply] at hq
    split_ifs at hq with hqp
    exact absurd (woken_self (x := .semInit id v) h.sound hat hq rfl) hqp

omit [DecidableEq C] in
theorem no_posting (h : SoundOnce (.sem id) s) (hp : s.op p = some (x, .loop))
    (hx : x.obj = .sem id) (hat : s.At p x.obj .loop .body) (q : ℕ) :
    s.op q ≠ some (.semPost id, .woken) := by
  intro hq
  obtain rfl := woken_self h.sound hat hq hx.symm
  rw [hp] at hq
  cases hq

omit [DecidableEq C] in
theorem Conserved.wait (hc : Conserved s id) (h : SoundOnce (.sem id) s) (hd : Did s l t)
    (hp : s.op p = some (.semWait id, .loop)) (hat : s.At p (.sem id) .loop .body)
    (hop : t.op = update s.op p none)
    (hhist : t.hist = s.hist ++ [.ret (s.born p) (.semWait id) 0])
    (hpos : (s.ksems id).count ≠ 0)
    (hcount : (t.ksems id).count = int32 ((s.ksems id).count - 1)) : Conserved t id := by
  have hno := no_posting h hp rfl hat
  have hinit : ∀ {k v}, .ret k (.semInit id v) 0 ∈ t.hist → .ret k (.semInit id v) 0 ∈ s.hist := by
    intro k v hm
    simpa [hhist] using hm
  have hpost : returned t.hist (.semPost id) = returned s.hist (.semPost id) := by
    simp [hhist, returned_append, Event.succeeds]
  have htokens : ∀ v, tokens t.hist id v = tokens s.hist id v - 1 := by
    intro v
    simp only [tokens, hhist, returned_append, Event.succeeds]
    push_cast
    simp
    ring
  refine ⟨fun q w ph' hq => hc.value_did hd hq, fun k v hk hlt => ?_, fun k v hk hlt _ => ?_,
    fun k v hk hlt q hq => ?_⟩
  · rw [hpost] at hlt
    have h0 := hc.nonneg k v (hinit hk) hlt
    have h1 := hc.still k v (hinit hk) hlt hno
    rw [htokens]
    omega
  · rw [hpost] at hlt
    have h0 := hc.nonneg k v (hinit hk) hlt
    have h1 := hc.still k v (hinit hk) hlt hno
    have hbound : tokens s.hist id v ≤ v + returned s.hist (.semPost id) := by
      simp only [tokens]
      omega
    rw [hcount, htokens, h1, int32_of_lt (by omega) (by omega)]
  · rw [hop, update_apply] at hq
    split_ifs at hq
    exact absurd hq (hno q)

omit [DecidableEq C] in
theorem Conserved.post (hc : Conserved s id) (h : SoundOnce (.sem id) s) (hd : Did s l t)
    (hp : s.op p = some (.semPost id, .loop)) (hat : s.At p (.sem id) .loop .body)
    (hop : t.op = update s.op p (some (.semPost id, .woken))) (hhist : t.hist = s.hist)
    (hcount : (t.ksems id).count = int32 ((s.ksems id).count + 1)) : Conserved t id := by
  have hno := no_posting h hp rfl hat
  refine ⟨fun q w ph' hq => hc.value_did hd hq, ?_, fun k v hk hlt hnot => ?_,
    fun k v hk hlt q _ => ?_⟩
  · rw [hhist]
    exact hc.nonneg
  · exact absurd (by simp [hop]) (hnot p)
  · rw [hhist] at hk hlt ⊢
    rw [hcount, hc.still k v hk hlt hno]

omit [DecidableEq C] in
theorem Conserved.posted (hc : Conserved s id) (h : SoundOnce (.sem id) s) (hd : Did s l t)
    (hp : s.op p = some (.semPost id, .woken)) (hat : s.At p (.sem id) .woken .body)
    (hop : t.op = update s.op p none)
    (hhist : t.hist = s.hist ++ [.ret (s.born p) (.semPost id) 0])
    (hcount : (t.ksems id).count = (s.ksems id).count) : Conserved t id := by
  have hinit : ∀ {k v}, .ret k (.semInit id v) 0 ∈ t.hist → .ret k (.semInit id v) 0 ∈ s.hist := by
    intro k v hm
    simpa [hhist] using hm
  have hpost : returned t.hist (.semPost id) = returned s.hist (.semPost id) + 1 := by
    simp [hhist, returned_append, Event.succeeds]
  have htokens : ∀ v, tokens t.hist id v = tokens s.hist id v + 1 := by
    intro v
    simp only [tokens, hhist, returned_append, Event.succeeds]
    push_cast
    simp
    ring
  refine ⟨fun q w ph' hq => hc.value_did hd hq, fun k v hk hlt => ?_, fun k v hk hlt _ => ?_,
    fun k v hk hlt q hq => ?_⟩
  · rw [hpost] at hlt
    have h0 := hc.nonneg k v (hinit hk) (by omega)
    rw [htokens]
    omega
  · rw [hpost] at hlt
    have h0 := hc.nonneg k v (hinit hk) (by omega)
    have hbound : tokens s.hist id v ≤ v + returned s.hist (.semPost id) := by
      simp only [tokens]
      omega
    rw [hcount, hc.posting k v (hinit hk) (by omega) p hp, htokens,
      int32_of_lt (by omega) (by omega)]
  · rw [hop, update_apply] at hq
    split_ifs at hq with hqp
    exact absurd (woken_self (x := .semPost id) h.sound hat hq rfl) hqp

omit [DecidableEq C] in
theorem Conserved.did (hc : Conserved s id) (h : SoundOnce (.sem id) s) (hd : Did s l t) :
    Conserved t id := by
  have hd' := hd
  cases hd with
  | idle hop hhist hsame =>
    rcases hhist with hh | ⟨k', call, hh⟩
    · exact hc.frame hd' (by simp [hh]) (by rw [hh]) (by rw [hh]) (hsame.count id)
        fun q => by rw [hop]
    · exact hc.frame hd' (by simp [hh]) (by simp [hh, returned_append, Event.succeeds])
        (by simp [hh, returned_append, Event.succeeds]) (hsame.count id) fun q => by rw [hop]
  | begin p x ph hcalls hnone hph hop hh hsame =>
    refine hc.frame hd' (by simp [hh]) (by simp [hh, returned_append, Event.succeeds])
      (by simp [hh, returned_append, Event.succeeds]) (hsame.count id) fun q => ?_
    rw [hop, update_apply]
    split_ifs with hqp
    · subst hqp; simp [hnone, hph]
    · rfl
  | phase p x ph ph' hp hph hph' hop hh hsame =>
    refine hc.frame hd' (by simp [hh]) (by rw [hh]) (by rw [hh]) (hsame.count id) fun q => ?_
    rw [hop, update_apply]
    split_ifs with hqp
    · subst hqp; simp [hp, hph, hph']
    · rfl
  | body p x ph s1 r hp hat hrun hop hh hsame =>
    have hcount := hsame.count id
    -- the decisions that leave the count and the counted returns alone
    have hframe : (t.ksems id).count = (s.ksems id).count →
        (∀ v, ¬ (x = .semInit id v ∧ r = .ret 0)) → ¬ (x = .semPost id ∧ r = .ret 0) →
        ¬ (x = .semWait id ∧ r = .ret 0) → (x = .semPost id → ph ≠ .woken ∧ r ≠ .wakeup) →
        Conserved t id := by
      intro h1 h2 h3 h4 h5
      refine hc.frame hd' (fun k v hm => ?_) (hh ▸ returned_reply _ h3)
        (hh ▸ returned_reply _ h4) h1 fun q => ?_
      · rw [hh, List.mem_append] at hm
        refine hm.resolve_right fun hm => ?_
        cases r <;> simp only [Reply.events, List.not_mem_nil, List.mem_singleton,
          Event.ret.injEq] at hm
        exact h2 v ⟨hm.2.1.symm, by rw [hm.2.2]⟩
      · rw [hop, update_apply]
        split_ifs with hqp
        · subst hqp
          rw [hp]
          constructor
          · intro hr
            cases r <;> simp only [Reply.op, Option.some.injEq, Prod.mk.injEq, reduceCtorEq,
              and_false] at hr
            exact absurd rfl (h5 hr.1).2
          · intro hr
            cases hr
            exact absurd rfl (h5 rfl).1
        · rfl
    by_cases ho : x.obj = .sem id
    · cases x <;> simp only [Op.obj, Obj.sem.injEq, reduceCtorEq] at ho <;> subst ho <;>
        cases ph <;> simp only [State.run, reduceCtorEq] at hrun
      case semInit.loop id v =>
        cases hrun
        exact hc.init h hd' hp hat hop hh (hcount.trans (by simp [State.setSem]))
      case semWait.loop id =>
        split_ifs at hrun with hzero <;> cases hrun
        · exact hframe hcount (by simp) (by simp) (by simp) (by simp)
        · exact hc.wait h hd' hp hat hop hh hzero (hcount.trans (by simp [State.setSem]))
      case semWait.checked id b =>
        cases hrun
        exact hframe hcount (by simp) (by simp) (by cases b <;> simp) (by simp)
      case semPost.loop id =>
        cases hrun
        exact hc.post h hd' hp hat hop (by simpa [Reply.events] using hh)
          (hcount.trans (by simp [State.setSem]))
      case semPost.woken id =>
        cases hrun
        exact hc.posted h hd' hp hat hop hh hcount
    · rw [run_sem hrun ho] at hcount
      have hne : ∀ {y : Op}, y.obj = .sem id → x ≠ y := by
        rintro y hy rfl
        exact ho hy
      exact hframe hcount (fun v hx => hne rfl hx.1) (fun hx => hne rfl hx.1)
        (fun hx => hne rfl hx.1) fun hx => absurd hx (hne rfl)

omit [DecidableEq C] in
/-- The count changes by one in a wait that returns 0 and in a post, and is set in an
init call. -/
theorem Did.counts (hd : Did s l t) (hne : (t.ksems id).count ≠ (s.ksems id).count) :
    (∃ k, t.hist = s.hist ++ [.ret k (.semWait id) 0] ∧
      (t.ksems id).count = int32 ((s.ksems id).count - 1)) ∨
    (∃ p, t.op p = some (.semPost id, .woken) ∧
      (t.ksems id).count = int32 ((s.ksems id).count + 1)) ∨
    ∃ k v, t.hist = s.hist ++ [.ret k (.semInit id v) 0] ∧ (t.ksems id).count = v := by
  cases hd with
  | idle _ _ hsame => exact absurd (hsame.count id) hne
  | begin _ _ _ _ _ _ _ _ hsame => exact absurd (hsame.count id) hne
  | phase _ _ _ _ _ _ _ _ _ hsame => exact absurd (hsame.count id) hne
  | body p x ph s1 r hp hat hrun hop hh hsame =>
    have hcount := hsame.count id
    by_cases ho : x.obj = .sem id
    · cases x <;> simp only [Op.obj, Obj.sem.injEq, reduceCtorEq] at ho <;> subst ho <;>
        cases ph <;> simp only [State.run, reduceCtorEq] at hrun <;>
        (try split_ifs at hrun) <;> cases hrun <;>
        (try exact absurd hcount hne)
      · exact .inr (.inr ⟨_, _, hh, hcount.trans (by simp [State.setSem])⟩)
      · exact .inl ⟨_, hh, hcount.trans (by simp [State.setSem])⟩
      · exact .inr (.inl ⟨p, by simp [hop, Reply.op], hcount.trans (by simp [State.setSem])⟩)
    · rw [run_sem hrun ho] at hcount
      exact absurd hcount hne

theorem conserved_run {ls : List (Label C)}
    (hcond : Along step (fun s l => s.orderly l ∧ s.once (.sem id) l) boot ls)
    (hrun : exec step boot ls = some s) : SoundOnce (.sem id) s ∧ Conserved s id := by
  refine exec_along (I := fun _ s => SoundOnce (.sem id) s ∧ Conserved s id)
    ⟨soundOnce_boot _, ?_⟩ (fun _ _ _ _ _ h hP hstep => ⟨h.1.step hP.1 hP.2 hstep, ?_⟩)
    ls hcond hrun
  · refine ⟨fun p v ph h => ?_, fun k v h => ?_, fun k v h => ?_, fun k v h => ?_⟩ <;> cases h
  · exact h.2.did h.1 ((step_moved hstep).did h.1.sound.staged h.1.sound.first)

end

/-- While the spinlock is free, the count of a semaphore initialised once with `v` is
`v` plus completed posts minus successful waits; a wait that returns -1 leaves it as it
is; no process is left sleeping on a positive count. -/
theorem semaphore_conserves (id : Fin nksem) (ls : List (Label C)) (s : State C)
    (hcond : Along step (fun s l => s.orderly l ∧ s.once (.sem id) l) boot ls)
    (hrun : exec step boot ls = some s) :
    (∀ k v, .ret k (.semInit id v) 0 ∈ s.hist → v + returned s.hist (.semPost id) < 2 ^ 31 →
      s.sched.holder (.cond (Obj.sem id).num) = none →
      (s.ksems id).count = v + returned s.hist (.semPost id) - returned s.hist (.semWait id) ∧
        0 ≤ (s.ksems id).count) ∧
    (∀ l t, step s l = some t →
      (∀ k, t.hist = s.hist ++ [.ret k (.semWait id) (-1)] →
        (t.ksems id).count = (s.ksems id).count) ∧
      ((t.ksems id).count ≠ (s.ksems id).count →
        (∃ k, t.hist = s.hist ++ [.ret k (.semWait id) 0] ∧
          (t.ksems id).count = int32 ((s.ksems id).count - 1)) ∨
        (∃ p, t.op p = some (.semPost id, .woken) ∧
          (t.ksems id).count = int32 ((s.ksems id).count + 1)) ∨
        ∃ k v, t.hist = s.hist ++ [.ret k (.semInit id v) 0] ∧ (t.ksems id).count = v)) ∧
    (s.sched.holder (.cond (Obj.sem id).num) = none → 0 < (s.ksems id).count →
      ∀ p, ¬ Asleep s p (.sem id)) := by
  obtain ⟨h, hc⟩ := conserved_run hcond hrun
  refine ⟨fun k v hk hlt hfree => ?_, fun l t hstep => ?_, fun hfree hpos p => ?_⟩
  · have hno : ∀ q, s.op q ≠ some (.semPost id, .woken) := by
      intro q hq
      obtain ⟨st, hat, hin⟩ := woken_at h.sound.staged hq
      obtain ⟨c, -, hown⟩ := h.sound.staged.holder hat hin
      rw [Op.obj, hfree] at hown
      cases hown
    have hcount := hc.still k v hk hlt hno
    exact ⟨hcount, hcount ▸ hc.nonneg k v hk hlt⟩
  · have hd := (step_moved hstep).did h.sound.staged h.sound.first
    exact ⟨fun k hk => (hd.fails hk).count id, hd.counts⟩
  · exact h.sound.not_asleep rfl hfree (ne_of_gt hpos)

instance : NeZero nksem := ⟨by decide⟩

/-- The first process initialises semaphore 0 with 2 and takes a token. -/
def takeToken : List (Label (Fin 1)) :=
  go 258 ++ [cpu0 (.call (.semInit 0 2)), cpu0 .op] ++ go 1 ++ [cpu0 .op] ++ go 1 ++
    [cpu0 (.call (.semWait 0))] ++ go 1 ++ [cpu0 .op] ++ go 1

theorem semaphore_conserves_takeToken : ∃ s : State (Fin 1), exec step boot takeToken = some s ∧
    Along step (fun s l => s.orderly l ∧ s.once (.sem 0) l) boot takeToken ∧
    Event.ret 0 (.semInit 0 2) 0 ∈ s.hist ∧ returned s.hist (.semPost 0) = 0 ∧
    returned s.hist (.semWait 0) = 1 ∧ (s.ksems 0).count = 1 := by
  have hrun : (exec step (boot : State (Fin 1)) takeToken).map (fun s =>
      decide (Event.ret 0 (.semInit 0 2) 0 ∈ s.hist ∧ returned s.hist (.semPost 0) = 0 ∧
        returned s.hist (.semWait 0) = 1 ∧ s.sched.holder (.cond (Obj.sem 0).num) = none)) =
      some true := by
    decide +kernel
  have hcond : Along step (fun s l => s.orderly l ∧ s.once (.sem 0) l)
      (boot : State (Fin 1)) takeToken := by decide +kernel
  obtain ⟨s, hs, h⟩ := Option.map_eq_some_iff.mp hrun
  obtain ⟨hinit, hpost, hwait, hfree⟩ := of_decide_eq_true h
  have hcount := ((semaphore_conserves 0 takeToken s hcond hs).1 0 2 hinit
    (by rw [hpost]; norm_num) hfree).1
  exact ⟨s, hs, hcond, hinit, hpost, hwait, by rw [hcount, hpost, hwait]; norm_num⟩

end Xv6.Sync
