import Xv6.Sync.Invariant

/-!
# No lost wakeup

While the condition that a call waits for holds, every process that sleeps on the
object, or is past the point of no return in `sleep`, is still ahead of a `wakeup`
that the holder of the spinlock executes. The check of the condition and the release
of the spinlock in `sleep` are separated only by steps under the spinlock, and
`sleep` takes `p->lock` first, so a `wakeup` cannot pass a process in between.
-/

namespace Xv6.Sync

open LockCode Sched Function

variable {C : Type} [DecidableEq C]

/-! ## Channels and states -/

section

variable {s s' : Sched.State C} {c : C} {ch : Sched.Choice} {p : ℕ}

theorem step_chan (hinv : Inv s) (hstep : Sched.step s ⟨c, ch⟩ = some s') (p : ℕ) :
    (s'.proc p).chan = (s.proc p).chan ∨ (s'.proc p).chan = none ∨
      ∃ chan k, s.thread c = some p ∧ s.code p = .act (.setChan p (some chan)) :: k ∧
        (s'.proc p).chan = some chan := by
  rcases step_act_or (step_inv hstep : Stepped s c ch s') with
    ⟨a, k, s1, push, hk, hact, rfl⟩ | ⟨hp, -, -⟩
  · rw [setCode_proc]
    rcases act_chan_cases hact p with h | ⟨-, h⟩ | ⟨chan, rfl, h⟩
    · exact .inl h
    · exact .inr (.inl h)
    · obtain ⟨R, -, hside, -⟩ := hinv.side hk
      rw [cur_of_thread hside.1] at hk
      cases chan with
      | none => exact .inr (.inl h)
      | some chan => exact .inr (.inr ⟨chan, k, hside.1, hk, h⟩)
  · rw [hp]
    exact .inl rfl

theorem step_running (hinv : Inv s) (hstep : Sched.step s ⟨c, ch⟩ = some s')
    (hrun : (s.proc p).state = .running) (hne : (s'.proc p).state ≠ .running) :
    s.thread c = some p ∧ ∃ a k, s.code p = .act a :: k ∧ a.marks = true := by
  rcases step_act_or (step_inv hstep : Stepped s c ch s') with
    ⟨a, k, s1, push, hk, hact, rfl⟩ | ⟨hp, -, -⟩
  · rw [setCode_proc] at hne
    obtain ⟨R, -, hside, -⟩ := hinv.side hk
    have hchange := hinv.act_change hk hact p
    rw [hrun] at hchange
    generalize (s1.proc p).state = st at hchange hne
    cases hchange with
    | same => exact absurd rfl hne
    | leave st h =>
      rw [cur_of_thread hside.1] at hk
      exact ⟨hside.1, _, k, hk, rfl⟩
    | exit status =>
      rw [cur_of_thread hside.1] at hk
      exact ⟨hside.1, _, k, hk, rfl⟩
  · rw [hp] at hne
    exact absurd hrun hne

theorem step_sleeping (hinv : Inv s) (hstep : Sched.step s ⟨c, ch⟩ = some s')
    (hsleep : (s'.proc p).state = .sleeping) :
    (s.proc p).state = .sleeping ∨
      s.thread c = some p ∧ ∃ k, s.code p = .act (.setState p .sleeping) :: k := by
  rcases step_act_or (step_inv hstep : Stepped s c ch s') with
    ⟨a, k, s1, push, hk, hact, rfl⟩ | ⟨hp, -, -⟩
  · rw [setCode_proc] at hsleep
    rcases (hsleep ▸ hinv.act_change hk hact p).to_sleeping with h | ⟨rfl, -⟩
    · exact .inl h
    · obtain ⟨R, -, hside, -⟩ := hinv.side hk
      rw [cur_of_thread hside.1] at hk
      exact .inr ⟨hside.1, k, hk⟩
  · rw [hp] at hsleep
    exact .inl hsleep

end

/-! ## Who sleeps and who wakes -/

/-- The condition that a call on the object waits for. -/
def State.ready (s : State C) : Obj → Prop
  | .mutex id => (s.kmutexes id).locked = false
  | .sem id => (s.ksems id).count ≠ 0
  | .sleeplock lk => (s.sleeplocks lk).locked = false

/-- The process in slot `p` is in a call on `o`, at this stage. -/
structure State.At (s : State C) (p : ℕ) (o : Obj) (ph : Phase) (st : Stage) : Prop where
  op : ∃ x : Op, s.op p = some (x, ph) ∧ x.obj = o
  code : s.sched.code p = st.code p o.num
  fits : st.fits ph = true

/-- The process has released the spinlock in `sleep` and not yet stored its state. -/
def Falls (s : State C) (p : ℕ) (o : Obj) : Prop :=
  s.At p o .loop .setChan ∨ s.At p o .loop .setState

/-- The process sleeps on the object. -/
def Asleep (s : State C) (p : ℕ) (o : Obj) : Prop :=
  (s.sched.proc p).state = .sleeping ∧ (s.sched.proc p).chan = some (.addr o.num)

def Dozing (s : State C) (p : ℕ) (o : Obj) : Prop := Falls s p o ∨ Asleep s p o

/-- The process in slot `q` is in `wakeup` on the object, before slot `i`. -/
def Waking (s : State C) (q : ℕ) (o : Obj) (i : ℕ) : Prop :=
  s.At q o .woken (.wake i) ∨ s.At q o .woken (.wakeAcquire i) ∨ s.At q o .woken (.wakeLook i) ∨
    ∃ j, i = j + 1 ∧ s.At q o .woken (.wakeRelease j)

/-- The call has found the condition false, and still holds the spinlock. -/
def Stage.waits : Stage → Phase → Bool
  | .ask, _ | .look, _ | .answer, _ | .drowsy, _ | .release, _ => true
  | .body, .checked _ => true
  | _, _ => false

/-- `X` are the objects on which no init call meets a sleeper. -/
structure Alert (X : Obj → Prop) (s : State C) : Prop where
  chan : ∀ p (o : Obj), (s.sched.proc p).chan = some (.addr o.num) →
    s.At p o .loop .setState ∨ s.At p o .loop .swtch ∨ s.At p o .loop .clear
  awake : ∀ p o, Falls s p o → (s.sched.proc p).state = .running
  unready : ∀ p o ph st, s.At p o ph st → st.waits ph = true → ¬ s.ready o
  covered : ∀ p o, X o → s.ready o → Dozing s p o → ∃ q i, i ≤ p ∧ Waking s q o i

theorem stage_code_injective {p n : ℕ} {st st' : Stage} (h : st.code p n = st'.code p n) :
    st = st' := by
  cases st <;> cases st' <;> simp_all [Stage.code, body, sleep]

theorem enter_code {p n : ℕ} {pre : Code} {st : Stage} (hpre : pre.all handler = true)
    (h : pre ++ .acquire (.cond n) :: body p n = st.code p n) : st = .unlock := by
  have hmem : .acquire (.cond n) ∈ st.code p n := by rw [← h]; simp
  have hclear : .act (.setChan p none) ∉ st.code p n := by
    rw [← h, List.mem_append]
    rintro (hm | hm)
    · simpa [handler] using List.all_eq_true.mp hpre _ hm
    · simp [body] at hm
  cases st <;> simp [Stage.code, body, sleep] at hmem hclear ⊢

section

variable {X : Obj → Prop} {s t : State C} {c : C} {ch : Sched.Choice} {p q : ℕ} {o o' : Obj}
  {ph ph' : Phase} {st st' : Stage}

omit [DecidableEq C] in
theorem State.At.inj (h : s.At p o ph st) (h' : s.At p o' ph' st') :
    o = o' ∧ ph = ph' ∧ st = st' := by
  obtain ⟨⟨x, hx, rfl⟩, hcode, -⟩ := h
  obtain ⟨⟨y, hy, rfl⟩, hcode', -⟩ := h'
  obtain ⟨rfl, rfl⟩ := Prod.mk.inj (Option.some.inj (hx.symm.trans hy))
  exact ⟨rfl, rfl, stage_code_injective (hcode.symm.trans hcode')⟩

omit [DecidableEq C] in
theorem State.At.op_ne (h : s.At p o ph st) : s.op p ≠ none := by
  obtain ⟨⟨x, hx, -⟩, -, -⟩ := h
  simp [hx]

omit [DecidableEq C] in
theorem Staged.live (hs : Staged s) (h : s.op p ≠ none) :
    (s.sched.proc p).state ≠ .unused := fun hu => h (hs.idle p (.inl hu))

omit [DecidableEq C] in
theorem Staged.holder (hs : Staged s) (h : s.At p o ph st) (hin : st.inside = true) :
    ∃ c, s.sched.thread c = some p ∧ s.sched.holder (.cond o.num) = some c := by
  have howes : Owes (disc (some p)) (.cond o.num) (s.sched.code p) :=
    h.code ▸ Stage.owes_cond hin
  by_cases hon : ∃ c, s.sched.thread c = some p
  · obtain ⟨c, hc⟩ := hon
    obtain ⟨R, hR, -, hty⟩ := hs.inv.typed c
    rw [hc, cur_of_thread hc] at hty
    exact ⟨c, hc, (hR _).mpr (hty.mem_of_owes howes)⟩
  · have hty := (hs.inv.parked p (hs.live h.op_ne) fun c hc => hon ⟨c, hc⟩).1
    simpa using hty.mem_of_owes howes

omit [DecidableEq C] in
theorem Staged.alone (hs : Staged s) (h : s.At p o ph st) (hin : st.inside = true)
    (h' : s.At q o ph' st') (hin' : st'.inside = true) : p = q := by
  obtain ⟨c, hc, hown⟩ := hs.holder h hin
  obtain ⟨c', hc', hown'⟩ := hs.holder h' hin'
  obtain rfl := Option.some.inj (hown.symm.trans hown')
  exact Option.some.inj (hc.symm.trans hc')

theorem at_other (hs : Staged s) (h : Lifted s c ch t) (hp : s.sched.thread c ≠ some p) :
    t.At p o ph st ↔ s.At p o ph st := by
  have hcode : s.op p ≠ none → t.sched.code p = s.sched.code p := by
    intro hop
    have hlive : (t.sched.proc p).state ≠ .unused := fun hu => hop (h.ended hs (.inl hu))
    rcases other_code hs.inv h.step hp hlive with ⟨-, hc⟩ | ⟨hu, -⟩
    · exact hc
    · exact absurd (hs.idle p (.inl hu)) hop
  constructor
  · rintro ⟨⟨x, hx, ho⟩, hc, hf⟩
    rw [h.op] at hx
    exact ⟨⟨x, hx, ho⟩, (hcode (by simp [hx])).symm.trans hc, hf⟩
  · rintro ⟨⟨x, hx, ho⟩, hc, hf⟩
    exact ⟨⟨x, by rw [h.op]; exact hx, ho⟩, (hcode (by simp [hx])).trans hc, hf⟩

theorem at_prev (hs : Staged s) (hfree : s.free c ch = true) (h : Lifted s c ch t)
    (hp : s.sched.thread c = some p) (hat : t.At p o ph st') :
    st' = .unlock ∨ st' = .body ∧ ph = .loop ∨ ∃ st, st.Next p st' ∧ s.At p o ph st := by
  obtain ⟨⟨x, hx, rfl⟩, hcode, hfit⟩ := hat
  have hlive := hs.inv.live_cur c p (cur_of_thread hp)
  have hown := (hs.shape p hlive).own hs.inv hp (free_guard hs.inv hfree hp) h.step
  rw [h.op] at hx
  rw [hx, hcode] at hown
  generalize hk : s.sched.code p = k at hown
  generalize hk' : st'.code p x.obj.num = k' at hown
  cases hown with
  | initlock hpre => cases st' <;> simp [Stage.fits] at hfit
  | enter hpre => exact .inl (enter_code hpre hk'.symm)
  | acquire => exact .inr (.inl ⟨stage_code_injective (hk' : _ = Stage.body.code p x.obj.num), rfl⟩)
  | @next _ _ st st'' hf hnext =>
    obtain rfl := stage_code_injective hk'
    exact .inr (.inr ⟨st, hnext, ⟨⟨x, hx, rfl⟩, hk, hf⟩⟩)

theorem at_next (hs : Staged s) (h : Lifted s c ch t) (hp : s.sched.thread c = some p)
    (hat : s.At p o ph st) (hbody : st ≠ .body) (hlook : st ≠ .look) (hunlock : st ≠ .unlock) :
    ∃ st', st.Next p st' ∧ t.At p o ph st' := by
  rcases stage_next hs.inv hp hat.code hbody hlook h.step with ⟨rfl, -⟩ | ⟨st', hnext, hcode⟩
  · exact absurd rfl hunlock
  · exact ⟨st', hnext, ⟨by rw [h.op]; exact hat.op, hcode, hnext.fits hat.fits⟩⟩

omit [DecidableEq C] in
theorem at_setChan (hs : Staged s) {k : Code}
    (hlive : (s.sched.proc p).state ≠ .unused)
    (hcode : s.sched.code p = .act (.setChan p (some (.addr o.num))) :: k) :
    s.At p o .loop .setChan := by
  have hshape := hs.shape p hlive
  have hnot : ∀ {pre rest : Code} {x : Cmd Lock Act}, pre.all handler = true →
      pre ++ x :: rest = .act (.setChan p (some (.addr o.num))) :: k →
      x = .act (.setChan p (some (.addr o.num))) := by
    intro pre rest x hpre he
    cases pre with
    | nil => exact (List.cons.inj he).1
    | cons y pre =>
      obtain rfl := (List.cons.inj he).1
      simp [handler] at hpre
  rw [hcode] at hshape
  generalize hk : Cmd.act (Act.setChan p (some (Chan.addr o.num))) :: k = k' at hshape
  generalize hop : s.op p = op at hshape
  cases hshape with
  | plain hpl =>
    subst hk
    simp [tame, tameChan, foreign_num] at hpl
  | leave o' => simp at hk
  | initlock hpre => simpa using hnot hpre hk.symm
  | enter hpre => simpa using hnot hpre hk.symm
  | @stage x ph st hfit =>
    cases st <;> simp only [Stage.code, body, sleep, List.drop, List.cons_append, List.nil_append,
      List.cons.injEq, reduceCtorEq, false_and, Cmd.act.injEq, Act.setChan.injEq,
      Option.some.injEq, Chan.addr.injEq, true_and] at hk
    obtain rfl := num_injective hk.1
    cases ph <;> simp only [Stage.fits, reduceCtorEq] at hfit
    exact ⟨⟨x, hop, rfl⟩, by rw [hcode, hk.2]; rfl, rfl⟩

theorem at_busy (hs : Staged s) (hfree : s.free c ch = true) (h : Lifted s c ch t)
    (hp : s.sched.thread c = some p) (hat : s.At p o ph st) : ch.isInterrupt = false := by
  by_contra hi
  obtain ⟨-, -, -, hn⟩ := interrupt_front (by simpa using hi) (free_guard hs.inv hfree hp) hp h.step
  exact Stage.locks_ne (hat.code ▸ typed_of_noff hs.inv hp hn) rfl

theorem Stage.Next.waits (h : Next p st st') (hw : st'.waits ph = true) (hf : st.fits ph = true) :
    st.waits ph = true := by
  cases h <;> cases ph <;> simp_all [Stage.waits, Stage.fits]

omit [DecidableEq C] in
theorem Waking.inside {i : ℕ} (h : Waking s q o i) :
    ∃ st, s.At q o .woken st ∧ st.inside = true := by
  rcases h with h | h | h | ⟨j, -, h⟩ <;> exact ⟨_, h, rfl⟩

theorem Lifted.ready (h : Lifted s c ch t) : t.ready o ↔ s.ready o := by
  cases o <;> simp [State.ready, h.kmutexes, h.ksems, h.sleeplocks]

/-! ## Steps of the scheduler model -/

section

variable (hs : Staged s) (ha : Alert X s) (hfree : s.free c ch = true) (h : Lifted s c ch t)
include hs ha hfree h

theorem chan_sched {p : ℕ} {o : Obj} (hchan : (t.sched.proc p).chan = some (.addr o.num)) :
    t.At p o .loop .setState ∨ t.At p o .loop .swtch ∨ t.At p o .loop .clear := by
  rcases step_chan hs.inv h.step p with hsame | hnone | ⟨chan, k, hp, hcode, hnew⟩
  · have hold := ha.chan p o (hsame ▸ hchan)
    by_cases hp : s.sched.thread c = some p
    · rcases hold with hat | hat | hat
      · obtain ⟨st', hnext, hat'⟩ := at_next hs h hp hat (by simp) (by simp) (by simp)
        cases hnext
        exact .inr (.inl hat')
      · obtain ⟨st', hnext, hat'⟩ := at_next hs h hp hat (by simp) (by simp) (by simp)
        cases hnext
        exact .inr (.inr hat')
      · obtain ⟨s1, push, hact, he, -⟩ :=
          act_of_step (at_busy hs hfree h hp hat) hp hat.code h.step
        cases hact
        rw [he, setCode_proc] at hchan
        simp [State.setProc] at hchan
    · simpa only [at_other hs h hp] using hold
  · simp [hnone] at hchan
  · obtain rfl := Option.some.inj (hnew.symm.trans hchan)
    have hat := at_setChan hs (hs.inv.live_cur c p (cur_of_thread hp)) hcode
    obtain ⟨st', hnext, hat'⟩ := at_next hs h hp hat (by simp) (by simp) (by simp)
    cases hnext
    exact .inl hat'

omit ha in
theorem falls_sched {p : ℕ} {o : Obj} (hf : Falls t p o) :
    Falls s p o ∨ s.sched.thread c = some p ∧ s.At p o .loop .release := by
  by_cases hp : s.sched.thread c = some p
  · rcases hf with hat | hat <;>
      obtain hn | ⟨hn, -⟩ | ⟨st, hnext, hat'⟩ := at_prev hs hfree h hp hat <;>
      first | exact absurd hn (by simp) | cases hnext
    · exact .inr ⟨hp, hat'⟩
    · exact .inl (.inl hat')
  · left
    simpa only [Falls, at_other hs h hp] using hf

theorem awake_sched {p : ℕ} {o : Obj} (hf : Falls t p o) :
    (t.sched.proc p).state = .running := by
  have hrun : (s.sched.proc p).state = .running := by
    rcases falls_sched hs hfree h hf with hold | ⟨hp, hat⟩
    · exact ha.awake p o hold
    · exact hs.inv.running_of_thread hp (by rw [hat.code]; rfl)
  by_contra hne
  obtain ⟨hp, a, k, hcode, hm⟩ := step_running hs.inv h.step hrun hne
  -- the process would store its state, and go on to switch
  rcases hf with hat | hat <;>
    obtain hn | ⟨hn, -⟩ | ⟨st, hnext, hat'⟩ := at_prev hs hfree h hp hat <;>
    first | exact absurd hn (by simp) | cases hnext
  · rw [hat'.code] at hcode
    simp [Stage.code, sleep] at hcode
  · rw [hat'.code] at hcode
    simp only [Stage.code, sleep, List.drop, List.cons_append, List.cons.injEq,
      Cmd.act.injEq] at hcode
    simp [← hcode.1, Act.marks] at hm

theorem unready_sched {p : ℕ} {o : Obj} {ph : Phase} {st : Stage} (hat : t.At p o ph st)
    (hw : st.waits ph = true) : ¬ t.ready o := by
  rw [h.ready]
  by_cases hp : s.sched.thread c = some p
  · rcases at_prev hs hfree h hp hat with rfl | ⟨rfl, rfl⟩ | ⟨st', hnext, hat'⟩
    · simp [Stage.waits] at hw
    · simp [Stage.waits] at hw
    · exact ha.unready p o ph st' hat' (hnext.waits hw hat'.fits)
  · exact ha.unready p o ph st ((at_other hs h hp).mp hat) hw

theorem dozing_sched {p : ℕ} {o : Obj} (hd : Dozing t p o) :
    Dozing s p o ∨ s.sched.thread c = some p ∧ s.At p o .loop .release := by
  rcases hd with hf | ⟨hsleep, hchan⟩
  · exact (falls_sched hs hfree h hf).imp .inl id
  left
  by_cases hp : s.sched.thread c = some p
  · rcases chan_sched hs ha hfree h hchan with hat | hat | hat <;>
      obtain hn | ⟨hn, -⟩ | ⟨st, hnext, hat'⟩ := at_prev hs hfree h hp hat <;>
      first | exact absurd hn (by simp) | cases hnext
    · exact .inl (.inl hat')
    · exact .inl (.inr hat')
    · refine .inr ⟨?_, ?_⟩
      · rcases step_sleeping hs.inv h.step hsleep with hold | ⟨-, k, hk⟩
        · exact hold
        · rw [hat'.code] at hk
          simp [Stage.code, sleep] at hk
      · rcases step_chan hs.inv h.step p with hsame | hnone | ⟨chan, k, -, hk, -⟩
        · exact hsame ▸ hchan
        · simp [hnone] at hchan
        · rw [hat'.code] at hk
          simp [Stage.code, sleep] at hk
  · refine .inr ⟨?_, ?_⟩
    · exact (step_sleeping hs.inv h.step hsleep).resolve_right fun hn => hp hn.1
    · rcases step_chan hs.inv h.step p with hsame | hnone | ⟨chan, k, hp', -⟩
      · exact hsame ▸ hchan
      · simp [hnone] at hchan
      · exact absurd hp' hp

omit [DecidableEq C] hs hfree h in
theorem dozing_at {p : ℕ} {o : Obj} (hd : Dozing s p o) :
    ∃ st, s.At p o .loop st ∧ st.inside = false := by
  rcases hd with (h | h) | ⟨-, hchan⟩
  · exact ⟨_, h, rfl⟩
  · exact ⟨_, h, rfl⟩
  · rcases ha.chan p o hchan with h | h | h <;> exact ⟨_, h, rfl⟩

omit [DecidableEq C] hfree h in
/-- A process that falls asleep holds its lock, so `wakeup` waits for it. -/
theorem falls_holder {p : ℕ} {o : Obj} (hf : Falls s p o) :
    ∃ c, s.sched.thread c = some p ∧ s.sched.holder (.proc p) = some c := by
  have hrun := ha.awake p o hf
  have howes : Owes (disc (some p)) (.proc p) (s.sched.code p) := by
    rcases hf with hat | hat <;> exact hat.code ▸ Stage.owes_proc rfl
  obtain ⟨c, hc⟩ := hs.inv.running p hrun
  have hthread : s.sched.thread c = some p := by
    have hst := hs.inv.state c p hc
    cases hon : (s.sched.cpu c).onProc with
    | true => simp [State.thread, hon, hc]
    | false =>
      rw [hrun, hon] at hst
      simp [OnCpu, ProcState.Off] at hst
  obtain ⟨R, hR, -, hty⟩ := hs.inv.typed c
  rw [hthread, cur_of_thread hthread] at hty
  exact ⟨c, hthread, (hR _).mpr (hty.mem_of_owes howes)⟩

theorem covered_sched {p : ℕ} {o : Obj} (hX : X o) (hready : t.ready o) (hd : Dozing t p o) :
    ∃ q i, i ≤ p ∧ Waking t q o i := by
  rw [h.ready] at hready
  rcases dozing_sched hs ha hfree h hd with hold | ⟨-, hat⟩
  case inr => exact absurd hready (ha.unready p o _ _ hat rfl)
  obtain ⟨q, i, hi, hwake⟩ := ha.covered p o hX hready hold
  by_cases hq : s.sched.thread c = some q
  case neg =>
    refine ⟨q, i, hi, ?_⟩
    simpa only [Waking, at_other hs h hq] using hwake
  obtain ⟨st0, hat0, -⟩ := dozing_at ha hold
  have hpq : p ≠ q := by
    rintro rfl
    obtain ⟨st1, hat1, -⟩ := hwake.inside
    simpa using (hat0.inj hat1).2.1
  have hbound : p < nproc := hs.family.bound p (hs.live hat0.op_ne)
  rcases hwake with hat | hat | hat | ⟨j, rfl, hat⟩
  · obtain ⟨st', hnext, hat'⟩ := at_next hs h hq hat (by simp) (by simp) (by simp)
    cases hnext with
    | wake => exact ⟨q, i, hi, .inr (.inl hat')⟩
    | wakeSelf => exact ⟨q, q + 1, by omega, .inl hat'⟩
    | wakeDone => omega
  · obtain ⟨st', hnext, hat'⟩ := at_next hs h hq hat (by simp) (by simp) (by simp)
    cases hnext
    exact ⟨q, i, hi, .inr (.inr (.inl hat'))⟩
  · obtain ⟨st', hnext, hat'⟩ := at_next hs h hq hat (by simp) (by simp) (by simp)
    cases hnext
    refine ⟨q, i + 1, ?_, .inr (.inr (.inr ⟨i, rfl, hat'⟩))⟩
    by_contra hlt
    obtain rfl : i = p := by omega
    -- `wakeup` looks at the sleeper itself, with its lock held
    have hown : s.sched.holder (.proc i) = some c := by
      obtain ⟨R, hR, -, hty⟩ := hs.inv.typed c
      rw [hq, cur_of_thread hq, State.codeAt, hat.code] at hty
      exact (hR _).mpr hty.1.1.1
    have hawake : ¬ Falls s i o := by
      intro hf
      obtain ⟨c', hc', hown'⟩ := falls_holder hs ha hf
      obtain rfl := Option.some.inj (hown.symm.trans hown')
      exact hpq (Option.some.inj (hc'.symm.trans hq))
    obtain ⟨hsleep, hchan⟩ := hold.resolve_left hawake
    obtain ⟨s1, push, hact, he, -⟩ := act_of_step (at_busy hs hfree h hq hat) hq hat.code h.step
    rcases hd with hf | ⟨hsleep', -⟩
    · rcases falls_sched hs hfree h hf with hf | ⟨hp, -⟩
      · exact hawake hf
      · exact hpq (Option.some.inj (hp.symm.trans hq))
    · rw [he, setCode_proc] at hsleep'
      cases hact
      simp [hsleep, hchan, State.setProc] at hsleep'
  · obtain ⟨st', hnext, hat'⟩ := at_next hs h hq hat (by simp) (by simp) (by simp)
    cases hnext
    exact ⟨q, j + 1, hi, .inl hat'⟩

theorem Alert.sched : Alert X t where
  chan _ _ := chan_sched hs ha hfree h
  awake _ _ := awake_sched hs ha hfree h
  unready _ _ _ _ := unready_sched hs ha hfree h
  covered _ _ := covered_sched hs ha hfree h

end

/-! ## Decisions of the stepping process -/

/-- A decision of the process in slot `p`: only its own code, its call and the
objects change. -/
structure Decided (s t : State C) (p : ℕ) : Prop where
  proc : t.sched.proc = s.sched.proc
  code : ∀ q, q ≠ p → t.sched.code q = s.sched.code q
  op : ∀ q, q ≠ p → t.op q = s.op q
  mine : ∀ o ph st, s.At p o ph st → st = .body ∨ st = .look

omit [DecidableEq C] in
theorem Decided.at_iff (h : Decided s t p) (hq : q ≠ p) : t.At q o ph st ↔ s.At q o ph st := by
  constructor
  · rintro ⟨hop, hcode, hfit⟩
    exact ⟨h.op q hq ▸ hop, h.code q hq ▸ hcode, hfit⟩
  · rintro ⟨hop, hcode, hfit⟩
    exact ⟨(h.op q hq).symm ▸ hop, (h.code q hq).symm ▸ hcode, hfit⟩

omit [DecidableEq C] in
/-- What is left to show for a decision: the new place of the process fits the object,
and a condition that becomes true is announced. -/
theorem Alert.decided (ha : Alert X s) (h : Decided s t p)
    (hfalls : ∀ o, ¬ Falls t p o)
    (hwaits : ∀ o ph st, t.At p o ph st → st.waits ph = true → ¬ t.ready o)
    (hkeep : ∀ q o ph st, q ≠ p → s.At q o ph st → st.waits ph = true → t.ready o → s.ready o)
    (hready : ∀ o, X o → t.ready o → s.ready o ∨ t.At p o .woken (.wake 0) ∨ ∀ q, ¬ Dozing s q o) :
    Alert X t := by
  have hother : ∀ {q o ph st}, s.At q o ph st → st ≠ .body → st ≠ .look →
      q ≠ p ∧ t.At q o ph st := by
    intro q o ph st hat h1 h2
    have hq : q ≠ p := by
      rintro rfl
      rcases h.mine o ph st hat with he | he
      · exact h1 he
      · exact h2 he
    exact ⟨hq, (h.at_iff hq).mpr hat⟩
  have hdoze : ∀ {q o}, Falls t q o → Falls s q o := by
    intro q o hf
    have hq : q ≠ p := by
      rintro rfl
      exact hfalls o hf
    simpa only [Falls, h.at_iff hq] using hf
  constructor
  · intro q o hchan
    rw [h.proc] at hchan
    exact (ha.chan q o hchan).imp (fun hat => (hother hat (by simp) (by simp)).2)
      (Or.imp (fun hat => (hother hat (by simp) (by simp)).2)
        fun hat => (hother hat (by simp) (by simp)).2)
  · intro q o hf
    rw [h.proc]
    exact ha.awake q o (hdoze hf)
  · intro q o ph st hat hw hr
    by_cases hq : q = p
    · subst hq
      exact hwaits o ph st hat hw hr
    · have hat' := (h.at_iff hq).mp hat
      exact ha.unready q o ph st hat' hw (hkeep q o ph st hq hat' hw hr)
  · intro q o hX hr hd
    have hold : Dozing s q o := by
      refine hd.imp hdoze fun ha => ?_
      rw [Asleep, h.proc] at ha
      exact ha
    rcases hready o hX hr with hr' | hat | hno
    · obtain ⟨q', i, hi, hwake⟩ := ha.covered q o hX hr' hold
      refine ⟨q', i, hi, ?_⟩
      exact hwake.imp (fun hat => (hother hat (by simp) (by simp)).2)
        (Or.imp (fun hat => (hother hat (by simp) (by simp)).2)
          (Or.imp (fun hat => (hother hat (by simp) (by simp)).2)
            fun ⟨j, hj, hat⟩ => ⟨j, hj, (hother hat (by simp) (by simp)).2⟩))
    · exact ⟨p, 0, Nat.zero_le q, .inl hat⟩
    · exact absurd hold (hno q)

/-! ## What the bodies do to the conditions -/

def Op.isInit : Op → Bool
  | .mutexInit _ | .semInit _ _ => true
  | _ => false

variable {s1 : State C} {x : Op} {r : Reply}

omit [DecidableEq C] in
theorem run_other (h : s.run p x ph = some (s1, r)) (ho : o ≠ x.obj) : s1.ready o ↔ s.ready o := by
  have hm : ∀ id f, o ≠ .mutex id → ((s.setMutex id f).ready o ↔ s.ready o) := by
    intro id f hne
    cases o with
    | mutex id' => simp [State.ready, State.setMutex, show id' ≠ id from fun he => hne (he ▸ rfl)]
    | _ => exact Iff.rfl
  have hsem : ∀ id f, o ≠ .sem id → ((s.setSem id f).ready o ↔ s.ready o) := by
    intro id f hne
    cases o with
    | sem id' => simp [State.ready, State.setSem, show id' ≠ id from fun he => hne (he ▸ rfl)]
    | _ => exact Iff.rfl
  have hl : ∀ lk v, o ≠ .sleeplock lk → ((s.setSleepLock lk v).ready o ↔ s.ready o) := by
    intro lk v hne
    cases o with
    | sleeplock lk' =>
      simp [State.ready, State.setSleepLock, show lk' ≠ lk from fun he => hne (he ▸ rfl)]
    | _ => exact Iff.rfl
  cases x <;> cases ph <;> simp only [State.run, reduceCtorEq] at h <;>
    (try split_ifs at h) <;> cases h <;>
    first | exact Iff.rfl | exact hm _ _ ho | exact hsem _ _ ho | exact hl _ _ ho

omit [DecidableEq C] in
/-- A body makes its condition true only together with a wakeup, or in an init call. -/
theorem run_announced (h : s.run p x ph = some (s1, r)) (hr : s1.ready x.obj) :
    s.ready x.obj ∨ r = .wakeup ∨ x.isInit = true := by
  cases x <;> cases ph <;> simp only [State.run, reduceCtorEq] at h <;>
    (try split_ifs at h) <;> cases h <;>
    simp_all [State.ready, Op.obj, Op.isInit, State.setMutex, State.setSem, State.setSleepLock]

omit [DecidableEq C] in
theorem run_waits (h : s.run p x ph = some (s1, r)) (hr : r = .killed ∨ r = .sleep) :
    s1 = s ∧ (¬ s.ready x.obj ∨ ∃ b, ph = .checked b) := by
  cases x <;> cases ph <;> simp only [State.run, reduceCtorEq] at h <;>
    (try split_ifs at h) <;> cases h <;>
    simp_all [State.ready, Op.obj]

/-! ## The invariant along runs -/

omit [DecidableEq C] in
theorem Alert.of_eq (ha : Alert X s) (hsched : t.sched = s.sched) (hop : t.op = s.op)
    (hready : ∀ o, t.ready o ↔ s.ready o) : Alert X t := by
  have hat : ∀ {q o ph st}, t.At q o ph st ↔ s.At q o ph st := by
    intro q o ph st
    constructor
    · rintro ⟨h1, h2, h3⟩; exact ⟨hop ▸ h1, hsched ▸ h2, h3⟩
    · rintro ⟨h1, h2, h3⟩; exact ⟨hop.symm ▸ h1, hsched.symm ▸ h2, h3⟩
  constructor
  · simpa only [hsched, hat] using ha.chan
  · simpa only [hsched, Falls, hat] using ha.awake
  · simpa only [hready, hat] using ha.unready
  · simpa only [hready, Dozing, Falls, Asleep, Waking, hsched, hat] using ha.covered

theorem Alert.entered (hs : Staged s) (ha : Alert X s)
    (hnext : next s.sched c = some (.act (.user p)))
    (h : Lifted s c (.call (.critical x.obj.num)) t) :
    Alert X (t.setOp p (some (x, .loop))) := by
  obtain ⟨ht, hcode⟩ := next_user hs.inv hnext
  obtain ⟨s1, push, hact, hnew, hother, hproc, -⟩ := h.decision hs.inv rfl ht hcode rfl
  cases hact
  have hready : ∀ o, (t.setOp p (some (x, .loop))).ready o ↔ s.ready o := fun o => by
    rw [← h.ready]; rfl
  have hno : ∀ o ph st, ¬ (t.setOp p (some (x, .loop))).At p o ph st := by
    rintro o ph st ⟨⟨y, hy, rfl⟩, hk, -⟩
    simp only [State.setOp, update_self, Option.some.injEq, Prod.mk.injEq] at hy
    obtain ⟨rfl, -⟩ := hy
    replace hk := hnew.symm.trans hk
    obtain rfl := @enter_code p x.obj.num [] _ rfl hk
    simp [critical, Stage.code, sleep] at hk
  refine ha.decided (p := p) ⟨hproc, hother, fun q hq => ?_, fun o ph st hat => ?_⟩
    (fun o hf => hf.elim (hno _ _ _) (hno _ _ _)) (fun o ph st hat => absurd hat (hno _ _ _))
    (fun q o ph st _ _ _ hr => (hready o).mp hr) fun o _ hr => .inl ((hready o).mp hr)
  · simp [State.setOp, hq, h.op]
  · have hk := hcode.symm.trans hat.code
    cases st <;> simp [Stage.code, body, sleep] at hk

omit [DecidableEq C] in
theorem initlock_ready : (s.initlock x).ready o ↔ s.ready o := by
  cases x with
  | mutexInit id =>
    cases o with
    | mutex id' =>
      by_cases he : id' = id
      · subst he; simp [State.initlock, State.setMutex, State.ready]
      · simp [State.initlock, State.setMutex, State.ready, he]
    | _ => exact Iff.rfl
  | semInit id value =>
    cases o with
    | sem id' =>
      by_cases he : id' = id
      · subst he; simp [State.initlock, State.setSem, State.ready]
      · simp [State.initlock, State.setSem, State.ready, he]
    | _ => exact Iff.rfl
  | _ => cases o <;> exact Iff.rfl

theorem Stage.inside_of_waits (h : st.waits ph = true) : st.inside = true := by
  cases st <;> first | rfl | simp [Stage.waits] at h

omit [DecidableEq C] in
theorem at_body (hs : Staged s) {n : ℕ} (hnext : next s.sched c = some (.act (.critical p n)))
    (hop : s.op p = some (x, ph)) (hph : ph ≠ .initlock) : s.At p x.obj ph .body := by
  obtain ⟨-, hcode⟩ := next_critical hs.inv hnext
  have hshape := hs.shape p (hs.live (by simp [hop]))
  rw [hop, hcode] at hshape
  obtain rfl := body_of_shape hshape hph
  exact ⟨⟨x, hop, rfl⟩, hcode, by cases ph <;> simp_all [Stage.fits]⟩

theorem Alert.body (hs : Staged s) (ha : Alert X s) {n : ℕ}
    (hnext : next s.sched c = some (.act (.critical p n))) (hop : s.op p = some (x, ph))
    (hinit : X x.obj → x.isInit = true → ∀ q, ¬ Dozing s q x.obj)
    (hrun : s.run p x ph = some (s1, r)) (hlift : Lifted s1 c (r.choice x.obj.num) t)
    {e : List Event} : Alert X { t.setOp p (r.op x) with hist := e } := by
  have hran := run_ran hrun
  obtain ⟨ht, hcode⟩ := next_critical hs.inv hnext
  have hat := at_body hs hnext hop (run_phase hrun)
  obtain rfl : n = x.obj.num := by
    have hk := hcode.symm.trans hat.code
    simpa [Sync.body, Stage.code] using hk
  obtain ⟨s2, push, hact, hnew, hother, hproc, -⟩ :=
    hlift.decision (hran.sched ▸ hs.inv) (by cases r <;> rfl) (hran.sched ▸ ht)
      (hran.sched ▸ hcode) rfl
  set u : State C := { t.setOp p (r.op x) with hist := e } with hu
  have hready : ∀ o, u.ready o ↔ s1.ready o := fun o => by rw [← hlift.ready]; rfl
  have hmine : u.op p = r.op x := by simp [hu, State.setOp]
  have hplace : ∀ {o ph' st}, u.At p o ph' st → o = x.obj ∧
      (st = .ask ∧ r = .killed ∨ st = .drowsy ∧ r = .sleep ∨ st = .wake 0 ∧ r = .wakeup) := by
    rintro o ph' st ⟨⟨y, hy, rfl⟩, hk, -⟩
    rw [hmine] at hy
    replace hk := hnew.symm.trans hk
    cases r <;> simp only [Reply.op, Option.some.injEq, Prod.mk.injEq, reduceCtorEq] at hy <;>
      obtain ⟨rfl, -⟩ := hy <;> cases hact
    · exact ⟨rfl, .inl ⟨stage_code_injective (hk.symm : _ = Stage.ask.code p _), rfl⟩⟩
    · exact ⟨rfl, .inr (.inl ⟨stage_code_injective (hk.symm : _ = Stage.drowsy.code p _), rfl⟩)⟩
    · exact ⟨rfl, .inr (.inr ⟨stage_code_injective (hk.symm : _ = (Stage.wake 0).code p _), rfl⟩)⟩
  refine ha.decided (p := p) ⟨?_, fun q hq => ?_, fun q hq => ?_, fun o ph' st hat' => ?_⟩
    (fun o hf => ?_) (fun o ph' st hat' hw => ?_) (fun q o ph' st hq hat' hw hr => ?_)
    fun o hX hr => ?_
  · exact hproc.trans (congrArg Sched.State.proc hran.sched)
  · exact (hother q hq).trans (congrFun (congrArg Sched.State.code hran.sched) q)
  · simp [hu, State.setOp, hq, hlift.op, hran.op]
  · exact .inl (hat'.inj hat).2.2
  · rcases hf with hat' | hat' <;> simpa using hplace hat'
  · obtain ⟨rfl, hp⟩ := hplace hat'
    have hr : r = .killed ∨ r = .sleep := by
      rcases hp with ⟨-, h⟩ | ⟨-, h⟩ | ⟨rfl, -⟩
      · exact .inl h
      · exact .inr h
      · simp [Stage.waits] at hw
    obtain ⟨rfl, hno | ⟨b, rfl⟩⟩ := run_waits hrun hr
    · rwa [hready]
    · rw [hready]
      exact ha.unready p _ _ _ hat rfl
  · rw [hready] at hr
    by_cases ho : o = x.obj
    · subst ho
      exact absurd (hs.alone hat' (Stage.inside_of_waits hw) hat rfl) hq
    · exact (run_other hrun ho).mp hr
  · rw [hready] at hr
    by_cases ho : o = x.obj
    · subst ho
      rcases run_announced hrun hr with h | rfl | h
      · exact .inl h
      · refine .inr (.inl ⟨⟨x, hmine, rfl⟩, ?_, rfl⟩)
        cases hact
        exact hnew
      · exact .inr (.inr (hinit hX h))
    · exact .inl ((run_other hrun ho).mp hr)

theorem Alert.moved (hs : Staged s) (ha : Alert X s) {l : Label C} (hlock : s.LockFree l.cpu)
    (hinit : ∀ p n x ph, next s.sched l.cpu = some (.act (.critical p n)) →
      s.op p = some (x, ph) → X x.obj → x.isInit = true → ∀ q, ¬ Dozing s q x.obj)
    (h : Moved s l t) : Alert X t := by
  cases h with
  | sched ch t hl hfree hlift => exact ha.sched hs hfree hlift
  | reject p call hl hnext hop hcheck => exact ha.of_eq rfl rfl fun _ => Iff.rfl
  | fresh p call x hl hnext hop hcheck hf =>
    have hno : ∀ o ph st, ¬ ((s.log (.begin (s.born p) x)).setOp p (some (x, .initlock))).At
        p o ph st := by
      rintro o ph st ⟨⟨y, hy, rfl⟩, -, hfit⟩
      simp only [State.setOp, update_self, Option.some.injEq, Prod.mk.injEq] at hy
      obtain ⟨-, rfl⟩ := hy
      cases st <;> simp [Stage.fits] at hfit
    refine ha.decided (p := p) ⟨rfl, fun _ _ => rfl, fun q hq => ?_, fun o ph st hat => ?_⟩
      (fun o hf => hf.elim (hno _ _ _) (hno _ _ _)) (fun o ph st hat => absurd hat (hno _ _ _))
      (fun q o ph st _ _ _ hr => hr) fun o _ hr => .inl hr
    · simp [State.setOp, State.log, hq]
    · exact absurd hop hat.op_ne
  | enter p call x t hl hnext hop hcheck hf hlift =>
    refine Alert.entered (hs.of_eq (u := s.log (.begin (s.born p) x)) rfl rfl) ?_ hnext hlift
    exact ha.of_eq rfl rfl fun _ => Iff.rfl
  | initlock p x t hl hnext hop hlift =>
    obtain ⟨h1, h2⟩ := initlock_sched (hlock p x hnext hop)
    exact Alert.entered (hs.of_eq h1 h2) (ha.of_eq h1 h2 fun _ => initlock_ready) (by rwa [h1])
      hlift
  | body p n x ph s1 r t hl hnext hop hrun hlift =>
    exact Alert.body hs ha hnext hop (hinit p n x ph hnext hop) hrun hlift
  | killed p n x t hl hnext hop hlift =>
    obtain ⟨ht, hcode⟩ := next_killed hs.inv hnext
    have hshape := hs.shape p (hs.live (by simp [hop]))
    rw [hop, hcode] at hshape
    obtain rfl := look_of_shape hshape
    have hat : s.At p x.obj .loop .look := ⟨⟨x, hop, rfl⟩, hcode, rfl⟩
    obtain ⟨s2, push, hact, hnew, hother, hproc, -⟩ := hlift.decision hs.inv rfl ht hcode rfl
    cases hact
    have hplace : ∀ {o ph st}, (t.setOp p (some (x, .checked (s.sched.proc p).killed))).At
        p o ph st → o = x.obj ∧ st = .answer := by
      rintro o ph st ⟨⟨y, hy, rfl⟩, hk, -⟩
      simp only [State.setOp, update_self, Option.some.injEq, Prod.mk.injEq] at hy
      obtain ⟨rfl, -⟩ := hy
      exact ⟨rfl, stage_code_injective (hk.symm.trans hnew : _ = Stage.answer.code p _)⟩
    have hready : ∀ o, (t.setOp p (some (x, .checked (s.sched.proc p).killed))).ready o ↔
        s.ready o := fun o => by rw [← hlift.ready]; rfl
    refine ha.decided (p := p) ⟨hproc, hother, fun q hq => ?_, fun o ph st hat' => ?_⟩
      (fun o hf => ?_) (fun o ph st hat' _ => ?_) (fun q o ph st _ _ _ hr => (hready o).mp hr)
      fun o _ hr => .inl ((hready o).mp hr)
    · simp [State.setOp, hq, hlift.op]
    · exact .inr (hat'.inj hat).2.2
    · rcases hf with hat' | hat' <;> simpa using hplace hat'
    · obtain ⟨rfl, -⟩ := hplace hat'
      rw [hready]
      exact ha.unready p _ _ _ hat rfl

end

end Xv6.Sync
