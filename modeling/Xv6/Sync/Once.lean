import Xv6.Sync.Exclusion

/-!
# Objects that are initialised once before use

If the first call on an object is an init call, no other init call follows, and
every other call starts after its return, then the conditions of the callers hold:
the history of calls shows that no init call overlaps another call on the object.
-/

namespace Xv6.Sync

open LockCode Sched

variable {C : Type} [DecidableEq C]

/-- A call on the object starts. -/
def Event.begins (o : Obj) : Event → Bool
  | .begin _ x => x.obj = o
  | _ => false

/-- An init call on the object returns. -/
def Event.inits (o : Obj) : Event → Bool
  | .ret _ x _ => x.isInit && decide (x.obj = o)
  | _ => false

/-- The object is initialised once, before any other call on it starts, and given
back by the process that holds it. -/
def State.once (s : State C) (o : Obj) (l : Label C) : Prop :=
  ∀ y ∈ s.calls l, y.2.obj = o →
    (if y.2.isInit then ∀ e ∈ s.hist, e.begins o = false else ∃ e ∈ s.hist, e.inits o = true) ∧
      s.owned y

instance (s : State C) (o : Obj) (l : Label C) : Decidable (s.once o l) :=
  inferInstanceAs (Decidable (∀ y ∈ s.calls l, y.2.obj = o →
    (if y.2.isInit then ∀ e ∈ s.hist, e.begins o = false else ∃ e ∈ s.hist, e.inits o = true) ∧
      s.owned y))

section

variable {s t : State C} {l : Label C} {o : Obj}

omit [DecidableEq C] in
theorem Did.hist_subset (h : Did s l t) {e : Event} (he : e ∈ s.hist) : e ∈ t.hist := by
  cases h with
  | idle _ hh =>
    rcases hh with hh | ⟨k, call, hh⟩
    · rwa [hh]
    · rw [hh]; exact List.mem_append_left _ he
  | begin _ _ _ _ _ _ _ hh => rw [hh]; exact List.mem_append_left _ he
  | phase _ _ _ _ _ _ _ _ hh => rwa [hh]
  | body _ _ _ _ _ _ _ _ _ hh => rw [hh]; exact List.mem_append_left _ he

omit [DecidableEq C] in
theorem Did.begin_cases (h : Did s l t) {k : ℕ} {x : Op} (he : .begin k x ∈ t.hist) :
    .begin k x ∈ s.hist ∨ ∃ p, s.calls l = some (p, x) := by
  cases h with
  | idle _ hh =>
    rcases hh with hh | ⟨k', call, hh⟩
    · exact .inl (hh ▸ he)
    · rw [hh, List.mem_append] at he
      exact .inl (he.resolve_right (by simp))
  | begin p y ph hcalls _ _ _ hh =>
    rw [hh, List.mem_append, List.mem_singleton] at he
    refine he.imp id fun he => ?_
    cases he
    exact ⟨p, hcalls⟩
  | phase _ _ _ _ _ _ _ _ hh => exact .inl (hh ▸ he)
  | body p y ph s1 r hp hat hrun hop hh =>
    rw [hh, List.mem_append] at he
    exact .inl (he.resolve_right (by cases r <;> simp [Reply.events]))

omit [DecidableEq C] in
theorem Did.ret_cases (h : Did s l t) {k : ℕ} {x : Op} {v : ℤ} (he : .ret k x v ∈ t.hist) :
    .ret k x v ∈ s.hist ∨ ∃ p ph, s.op p = some (x, ph) ∧ t.op = Function.update s.op p none ∧
      k = s.born p ∧ t.hist = s.hist ++ [.ret k x v] := by
  cases h with
  | idle _ hh =>
    rcases hh with hh | ⟨k', call, hh⟩
    · exact .inl (hh ▸ he)
    · rw [hh, List.mem_append] at he
      exact .inl (he.resolve_right (by simp))
  | begin p y ph hcalls _ _ _ hh =>
    rw [hh, List.mem_append] at he
    exact .inl (he.resolve_right (by simp))
  | phase _ _ _ _ _ _ _ _ hh => exact .inl (hh ▸ he)
  | body p y ph s1 r hp hat hrun hop hh =>
    rw [hh, List.mem_append] at he
    refine he.imp id fun he => ?_
    cases r <;> simp only [Reply.events, List.not_mem_nil, List.mem_singleton,
      Event.ret.injEq] at he
    obtain ⟨rfl, rfl, rfl⟩ := he
    exact ⟨p, ph, hp, hop, rfl, hh⟩

omit [DecidableEq C] in
theorem Did.returns (h : Did s l t) {k : ℕ} {x : Op} {v : ℤ}
    (hhist : t.hist = s.hist ++ [.ret k x v]) : ∃ p ph s1, s.op p = some (x, ph) ∧
      k = s.born p ∧ s.At p x.obj ph .body ∧ s.run p x ph = some (s1, .ret v) ∧ Same s1 t := by
  cases h with
  | idle _ hh =>
    rcases hh with hh | ⟨k', call, hh⟩
    · simp [hh] at hhist
    · simp [hh] at hhist
  | begin _ _ _ _ _ _ _ hh => simp [hh] at hhist
  | phase _ _ _ _ _ _ _ _ hh => simp [hh] at hhist
  | body p y ph s1 r hp hat hrun hop hh hsame =>
    rw [hh] at hhist
    have he := List.append_cancel_left hhist
    cases r <;> simp only [Reply.events, List.cons.injEq, Event.ret.injEq, and_true,
      reduceCtorEq] at he
    obtain ⟨rfl, rfl, rfl⟩ := he
    exact ⟨p, ph, s1, hp, rfl, hat, hrun, hsame⟩

/-- A call in progress, and one that has returned, is in the history. -/
structure Logged (s : State C) : Prop where
  op : ∀ p x ph, s.op p = some (x, ph) → .begin (s.born p) x ∈ s.hist
  ret : ∀ k x v, .ret k x v ∈ s.hist → .begin k x ∈ s.hist

omit [DecidableEq C] in
theorem Logged.did (hl : Logged s) (hs : Staged s) (hg : Grown s t) (h : Did s l t) :
    Logged t := by
  constructor
  · intro q x ph hq
    rcases h.op_cases hq with ⟨ph', hq'⟩ | ⟨hcalls, hnone⟩
    · rw [hg.born q (hs.live (by simp [hq']))]
      exact h.hist_subset (hl.op q x ph' hq')
    · rw [hg.born q (calls_live hs hcalls)]
      cases h with
      | idle hop => simp [hop, hnone] at hq
      | begin p y ph' hc _ _ _ hh =>
        cases hcalls.symm.trans hc
        simp [hh]
      | phase p y ph1 ph2 hp _ _ hop =>
        have hqp : q ≠ p := by
          rintro rfl
          simp [hnone] at hp
        simp [hop, hqp, hnone] at hq
      | body p y ph1 s1 r hp _ _ hop =>
        have hqp : q ≠ p := by
          rintro rfl
          simp [hnone] at hp
        simp [hop, hqp, hnone] at hq
  · intro k x v he
    rcases h.ret_cases he with hold | ⟨p, ph, hp, -, rfl, -⟩
    · exact h.hist_subset (hl.ret k x v hold)
    · exact h.hist_subset (hl.op p x ph hp)

theorem held_ret {hist : List Event} {k : ℕ} (h : held hist k o = true) :
    ∃ x v, .ret k x v ∈ hist ∧ x.obj = o := by
  induction hist using List.reverseRecOn with
  | nil => cases h
  | append_singleton hist e ih =>
    have hold : held hist k o = true → ∃ x v, .ret k x v ∈ hist ++ [e] ∧ x.obj = o := by
      intro hh
      obtain ⟨x, v, hm, hx⟩ := ih hh
      exact ⟨x, v, List.mem_append_left _ hm, hx⟩
    rw [held_append] at h
    split at h
    · rename_i k' x
      split_ifs at h with hk
      · obtain ⟨rfl, hx⟩ := hk
        exact ⟨x, 0, by simp, hx⟩
      · exact hold h
    · exact hold h

/-- The history of an object that is initialised once before use. -/
structure Once (s : State C) (o : Obj) : Prop where
  init : ∀ e ∈ s.hist, e.inits o = true → ∀ p y ph, s.op p = some (y, ph) → y.obj = o →
    y.isInit = false
  use : ∀ k x, .begin k x ∈ s.hist → x.obj = o → x.isInit = false →
    ∃ e ∈ s.hist, e.inits o = true

omit [DecidableEq C] in
theorem begins_of_inits (hl : Logged s) {e : Event} (he : e ∈ s.hist) (hi : e.inits o = true) :
    ∃ e' ∈ s.hist, e'.begins o = true := by
  cases e with
  | ret k x v =>
    simp only [Event.inits, Bool.and_eq_true, decide_eq_true_eq] at hi
    exact ⟨_, hl.ret k x v he, by simp [Event.begins, hi.2]⟩
  | _ => simp [Event.inits] at hi

omit [DecidableEq C] in
theorem Once.did (ho : Once s o) (hl : Logged s) (ha : Apart (· = o) s) (hc : s.once o l)
    (h : Did s l t) : Once t o := by
  have hnew : ∀ {p x}, s.calls l = some (p, x) → x.obj = o → x.isInit = true →
      ∀ e ∈ s.hist, e.inits o = false := by
    intro p x hcalls hx hi e he
    obtain ⟨hcond, -⟩ := hc _ hcalls hx
    simp only [hi, if_true] at hcond
    by_contra hne
    obtain ⟨e', he', hb⟩ := begins_of_inits hl he (by simpa using hne)
    simp [hcond e' he'] at hb
  constructor
  · intro e he hi q y ph hq hy
    by_contra hinit
    have hinit : y.isInit = true := by simpa using hinit
    cases e with
    | ret k x v =>
      simp only [Event.inits, Bool.and_eq_true, decide_eq_true_eq] at hi
      rcases h.ret_cases he with hold | ⟨p, ph', hp, hop, -, -⟩
      · have hi' : (Event.ret k x v).inits o = true := by simp [Event.inits, hi]
        rcases h.op_cases hq with ⟨ph', hq'⟩ | ⟨hcalls, -⟩
        · simp [ho.init _ hold hi' q y ph' hq' hy] at hinit
        · simp [hnew hcalls hy hinit _ hold] at hi'
      · have hqp : q ≠ p := by
          rintro rfl
          simp [hop] at hq
        rw [hop, Function.update_of_ne hqp] at hq
        exact hqp (ha q p y x ph ph' hq hp (hy.trans hi.2.symm) hy hinit)
    | _ => simp [Event.inits] at hi
  · intro k x he hx hi
    have hkeep : (∃ e ∈ s.hist, e.inits o = true) → ∃ e ∈ t.hist, e.inits o = true :=
      fun ⟨e, he, hie⟩ => ⟨e, h.hist_subset he, hie⟩
    rcases h.begin_cases he with hold | ⟨p, hcalls⟩
    · exact hkeep (ho.use k x hold hx hi)
    · obtain ⟨hcond, -⟩ := hc _ hcalls hx
      simp only [hi] at hcond
      exact hkeep hcond

omit [DecidableEq C] in
/-- An object that is initialised once before use is initialised when nobody uses it,
and used when nobody initialises it. -/
theorem quiet_of_once (hl : Logged s) (ho : Once s o) (hc : s.once o l) :
    s.quiet (· = o) l := by
  intro y hy hobj
  obtain ⟨hcond, howned⟩ := hc y hy hobj
  refine ⟨?_, howned⟩
  by_cases hi : y.2.isInit = true
  · simp only [hi, if_true] at hcond ⊢
    have hno : ∀ {k x}, .begin k x ∈ s.hist → x.obj ≠ y.2.obj := by
      intro k x hx he
      have := hcond _ hx
      simp [Event.begins, he, hobj] at this
    refine ⟨fun q _ z hz => hno (hl.op q z.1 z.2 hz), fun k _ => ?_⟩
    by_contra hk
    obtain ⟨x, v, hx, he⟩ := held_ret (by simpa using hk : held s.hist k y.2.obj = true)
    exact hno (hl.ret k x v hx) he
  · simp only [hi] at hcond ⊢
    obtain ⟨e, he, hie⟩ := hcond
    exact fun q _ z hz hzo => ho.init e he hie q z.1 z.2 hz (hzo.trans hobj)

/-- The invariant of runs in which the object is initialised once before use. -/
structure SoundOnce (o : Obj) (s : State C) : Prop where
  sound : Sound (· = o) s
  excl : Excl s o
  logged : Logged s
  once : Once s o

theorem SoundOnce.step (h : SoundOnce o s) (ho : s.orderly l) (hc : s.once o l)
    (hstep : step s l = some t) : SoundOnce o t := by
  have hq := quiet_of_once h.logged h.once hc
  have hm := step_moved hstep
  have hg := hm.grown h.sound.staged.inv (h.sound.first.lockFree l.cpu)
  have hd := hm.did h.sound.staged h.sound.first
  exact ⟨h.sound.moved ho hq hm, h.excl.did h.sound rfl hg hq hd,
    h.logged.did h.sound.staged hg hd, h.once.did h.logged h.sound.apart hc hd⟩

omit [DecidableEq C] in
theorem soundOnce_boot (o : Obj) : SoundOnce o (boot : State C) := by
  refine ⟨sound_boot, excl_boot o, ⟨fun p x ph h => ?_, fun k x v h => ?_⟩,
    ⟨fun e h => ?_, fun k x h => ?_⟩⟩ <;> cases h

end

end Xv6.Sync
