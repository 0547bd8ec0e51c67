import Xv6.Sched.Invariant

/-!
# Every step keeps the scheduler's invariant

Most steps change only the code of their own thread, or wake a sleeping process.
The others change the state of one slot: the stepping process leaves its CPU, a
slot is allocated, published or reaped, a scheduler switches. For those the locks
held show that no other thread has a stake in the slot.
-/

namespace Xv6.Sched

open LockCode Function

variable {C : Type} {s s' s1 : State C} {c : C} {k : Code}

/-! ## Consequences of the invariant -/

/-- A CPU whose scheduler has not just been switched back to has no process. -/
theorem Inv.noBack (h : Inv s) {x : Cmd Lock Act} (hcode : s.codeAt (s.cur c) = x :: k)
    (hx : ∀ p, x ≠ .act (.schedBack p)) (hoff : (s.cpu c).onProc = false) :
    (s.cpu c).proc = none := by
  by_contra hne
  obtain ⟨p, hp⟩ := Option.ne_none_iff_exists'.mp hne
  obtain ⟨⟨k', hk'⟩, -⟩ := h.back c p hp
  have hcur : s.codeAt (s.cur c) = (s.cpu c).sched := by
    simp [State.cur, State.thread, hoff, tid, State.codeAt]
  rw [hcur, hk'] at hcode
  exact hx p (List.cons.inj hcode).1.symm

theorem promise_state {i : ℕ} {st : ProcState} (h : (i, st) ∈ promises k) :
    st = .unused ∨ st = .used ∨ st = .runnable := by
  obtain ⟨a, -, hp⟩ := mem_promises h
  cases a <;> simp_all [Act.promise]

theorem Inv.onProc_of_none (h : Inv s) (ht : s.thread c = none) : (s.cpu c).onProc = false := by
  by_contra ho
  obtain ⟨p, hp⟩ := h.onProc c (by simpa using ho)
  simp [State.thread, hp] at ht
  simp [ht] at ho

theorem Inv.running_of_thread (h : Inv s) {p : ℕ} (ht : s.thread c = some p)
    (hl : leaving (s.code p) = false) : (s.proc p).state = .running := by
  have hs := h.state c p (thread_eq_some ht).2
  simpa [OnCpu, (thread_eq_some ht).1, hl] using hs

/-- Until the scheduler has noticed, a process off the CPU stays locked by it. -/
theorem Inv.holder_of_off (h : Inv s) {p : ℕ} (hp : (s.cpu c).proc = some p)
    (hst : (s.proc p).state ≠ .running) : s.holder (.proc p) = some c := by
  have hs := h.state c p hp
  obtain ⟨R, hR, -, hty⟩ := h.typed c
  rw [hR]
  by_cases hon : (s.cpu c).onProc = true
  · have ht : s.thread c = some p := by simp [State.thread, hon, hp]
    rw [cur_of_thread ht, ht] at hty
    refine mem_of_leaving hty ?_
    by_contra hl
    simp only [hon, OnCpu, State.codeAt] at hs hl
    simp_all
  · obtain ⟨⟨k, hk⟩, -⟩ := h.back c p hp
    have ht : s.thread c = none := by simp [State.thread, hon]
    rw [State.cur, ht] at hty
    rw [show s.codeAt (tid c none) = .act (.schedBack p) :: k from hk] at hty
    obtain ⟨-, rfl⟩ := hty.1.1
    simp

/-- What a thread relies on is locked by its CPU, unless the slot is being set up. -/
theorem Inv.promise_held (h : Inv s) {t : ℕ ⊕ C} (hlv : s.Live t) {i : ℕ} {st : ProcState}
    (hm : (i, st) ∈ promises (s.codeAt t)) (hst : st ≠ .used) :
    ∃ c, s.holder (.proc i) = some c ∧ (t = s.cur c ∨ st = .runnable ∧ t = .inr c) := by
  cases t with
  | inl q =>
    by_cases hon : ∃ c, s.thread c = some q
    · obtain ⟨c, hc⟩ := hon
      obtain ⟨R, hR, -, hty⟩ := h.typed c
      rw [cur_of_thread hc] at hty
      exact ⟨c, (hR _).mpr (mem_of_promise hty hm hst), .inl (cur_of_thread hc).symm⟩
    · have hty := (h.parked q (hlv q rfl) fun c hc => hon ⟨c, hc⟩).1
      obtain rfl : i = q := by simpa using mem_of_promise hty hm hst
      have hu := h.kept _ i st hlv hm
      rcases promise_of_proc hty hm with rfl | rfl
      · exact absurd hu (hlv i rfl)
      · exact absurd rfl hst
  | inr c =>
    by_cases hon : (s.cpu c).onProc = true
    · obtain ⟨p, hp⟩ := h.onProc c hon
      have hty := (h.back c p hp).2
      obtain rfl := promise_of_sched hty hm
      obtain rfl : i = p := by simpa using mem_of_promise hty hm hst
      have hr := h.kept _ i _ hlv hm
      exact ⟨c, h.holder_of_off hp (by simp [hr]), .inr ⟨rfl, rfl⟩⟩
    · have ht : s.cur c = .inr c := by simp [State.cur, State.thread, hon, tid]
      obtain ⟨R, hR, -, hty⟩ := h.typed c
      rw [ht] at hty
      exact ⟨c, (hR _).mpr (mem_of_promise hty hm hst), .inl ht.symm⟩

theorem Inv.side {a : Act} (h : Inv s) (hcode : s.codeAt (s.cur c) = .act a :: k) :
    ∃ R, Holds s.holder c R ∧ a.Side (s.thread c) R ∧
      Typed (disc (s.thread c)) (R \ a.frees) k := by
  obtain ⟨R, hR, -, hty⟩ := h.typed c
  rw [hcode] at hty
  exact ⟨R, hR, hty.1.1, hty.2⟩

theorem Inv.running_of_act {a : Act} (h : Inv s) {p : ℕ} (ht : s.thread c = some p)
    (hcode : s.codeAt (s.cur c) = .act a :: k) (hns : ∀ p, a ≠ .swtch p) :
    (s.proc p).state = .running := by
  refine h.running_of_thread ht ?_
  rw [cur_of_thread ht] at hcode
  rw [show s.code p = .act a :: k from hcode, leaving_act hns]

/-! ## Steps that change no state, or wake a sleeper -/

theorem setProc_of_ne {i j : ℕ} (f : Proc → Proc) (h : j ≠ i) :
    (s.setProc i f).proc j = s.proc j := update_of_ne h _ _

@[simp] theorem setProc_self (i : ℕ) (f : Proc → Proc) :
    (s.setProc i f).proc i = f (s.proc i) := update_self _ _ _

@[simp] theorem log_proc (e : Event) : (s.log e).proc = s.proc := rfl

def Wakes (st st' : ProcState) : Prop := st' = st ∨ st = .sleeping ∧ st' = .runnable

theorem OnCpu.wakes {st st' : ProcState} {left : Bool} (h : OnCpu st left) (hw : Wakes st st') :
    OnCpu st' left := by
  rcases hw with rfl | ⟨rfl, rfl⟩
  · exact h
  · cases left
    · simp [OnCpu] at h
    · exact .inl rfl

theorem Inv.stateOk_wakes (h : Inv s) (hst : ∀ i, Wakes (s.proc i).state (s1.proc i).state)
    (hleave : leaving k = leaving (s.codeAt (s.cur c))) : StateOk c s s1 k where
  mine p hp := by
    have hs := h.state c p (thread_eq_some hp).2
    rw [hleave, cur_of_thread hp]
    refine OnCpu.wakes ?_ (hst p)
    simpa [(thread_eq_some hp).1, State.codeAt] using hs
  others c' _ p left _ ho := ho.wakes (hst p)
  running p hp := by
    rcases hst p with he | ⟨-, he⟩
    · rw [← he, hp]
    · simp [he] at hp
  parked p hp hu := by
    rcases hst p with he | ⟨he, -⟩
    · exact absurd (he.trans hu) hp
    · simp [he] at hu

theorem Inv.kept_wakes (h : Inv s) (hst : ∀ i, Wakes (s.proc i).state (s1.proc i).state)
    {t : ℕ ⊕ C} (hlv : s.Live t) {i : ℕ} {st : ProcState}
    (hm : (i, st) ∈ promises (s.codeAt t)) : (s1.proc i).state = st := by
  have hk := h.kept t i st hlv hm
  rcases hst i with he | ⟨he, -⟩
  · rw [he, hk]
  · rcases promise_state hm with rfl | rfl | rfl <;> simp [hk] at he

theorem Inv.promisesOk_wakes (h : Inv s) (hst : ∀ i, Wakes (s.proc i).state (s1.proc i).state)
    (hpr : (promises k).Sublist (promises (s.codeAt (s.cur c)))) : PromisesOk c s s1 k where
  kept _ _ hlv _ _ hm := h.kept_wakes hst hlv hm
  mine _ _ hm := h.kept_wakes hst (h.live_cur c) (hpr.subset hm)
  fresh i st hm t ht hlv st' hm' :=
    ht (h.once t _ i st' st hlv (h.live_cur c) hm' (hpr.subset hm))
  nodup := (h.nodup _ (h.live_cur c)).sublist (hpr.map _)

/-! ## Steps that change one slot -/

theorem Inv.stateOk_slot (h : Inv s) {i : ℕ}
    (hother : ∀ j, j ≠ i → (s1.proc j).state = (s.proc j).state)
    (hnone : ∀ c, (s.cpu c).proc ≠ some i) (hnr : (s1.proc i).state ≠ .running)
    (hparked : (s1.proc i).state ≠ .unused → (s.proc i).state = .unused → s.code i = forkret i)
    (hleave : leaving k = leaving (s.codeAt (s.cur c))) : StateOk c s s1 k where
  mine p hp := by
    have hpi : p ≠ i := fun he => hnone c (he ▸ (thread_eq_some hp).2)
    have hs := h.state c p (thread_eq_some hp).2
    rw [hleave, cur_of_thread hp, hother p hpi]
    simpa [(thread_eq_some hp).1, State.codeAt] using hs
  others c' _ p left hp ho := by
    rwa [hother p fun he => hnone c' (he ▸ hp)]
  running p hp := by
    have hpi : p ≠ i := fun he => hnr (he ▸ hp)
    rwa [← hother p hpi]
  parked p hp hu := by
    by_cases hpi : p = i
    · subst hpi
      exact hparked hp hu
    · exact absurd (hother p hpi ▸ hu) hp

theorem Inv.stateOk_leave (h : Inv s) {p : ℕ} (ht : s.thread c = some p)
    (hother : ∀ j, j ≠ p → (s1.proc j).state = (s.proc j).state) (hoff : (s1.proc p).state.Off)
    (hrun : (s.proc p).state = .running) (hleave : leaving k = true) : StateOk c s s1 k where
  mine q hq := by
    obtain rfl : p = q := Option.some.inj (ht.symm.trans hq)
    simpa [OnCpu, hleave] using hoff
  others c' hc q left hq ho := by
    rwa [hother q fun he => hc (h.unique c' c p (he ▸ hq) (thread_eq_some ht).2)]
  running q hq := by
    have hqp : q ≠ p := fun he => hoff.not_running (he ▸ hq)
    rwa [← hother q hqp]
  parked q hq hu := by
    have hqp : q ≠ p := fun he => by simp [he, hrun] at hu
    exact absurd (hother q hqp ▸ hu) hq

/-- No other thread relies on slot `i`; the stepping thread may go on relying on
its new state. -/
theorem Inv.promisesOk_slot (h : Inv s) {i : ℕ}
    (hother : ∀ j, j ≠ i → (s1.proc j).state = (s.proc j).state)
    (hfree : ∀ t, t ≠ s.cur c → s.Live t → ∀ st, (i, st) ∉ promises (s.codeAt t))
    (rest : List (ℕ × ProcState)) (hrest : rest.Sublist (promises (s.codeAt (s.cur c))))
    (hi : ∀ st, (i, st) ∉ rest)
    (hk : promises k = rest ∨ promises k = (i, (s1.proc i).state) :: rest) :
    PromisesOk c s s1 k := by
  have hold : ∀ j st, (j, st) ∈ rest → j ≠ i ∧ (s1.proc j).state = st := by
    intro j st hm
    have hji : j ≠ i := fun he => hi st (he ▸ hm)
    rw [hother j hji]
    exact ⟨hji, h.kept _ j st (h.live_cur c) (hrest.subset hm)⟩
  have hmem : ∀ j st, (j, st) ∈ promises k →
      (j, st) ∈ rest ∨ j = i ∧ st = (s1.proc i).state := by
    intro j st hm
    rcases hk with he | he <;> rw [he] at hm
    · exact .inl hm
    · rcases List.mem_cons.mp hm with he' | hm'
      · exact .inr (Prod.mk.inj he')
      · exact .inl hm'
  constructor
  case kept =>
    intro t ht hlv j st hm
    have hji : j ≠ i := fun he => hfree t ht hlv st (he ▸ hm)
    rw [hother j hji]
    exact h.kept t j st hlv hm
  case mine =>
    intro j st hm
    rcases hmem j st hm with hr | ⟨rfl, rfl⟩
    · exact (hold j st hr).2
    · rfl
  case fresh =>
    intro j st hm t ht hlv st' hm'
    rcases hmem j st hm with hr | ⟨rfl, rfl⟩
    · exact ht (h.once t _ j st' st hlv (h.live_cur c) hm' (hrest.subset hr))
    · exact hfree t ht hlv st' hm'
  case nodup =>
    have hnd := (h.nodup _ (h.live_cur c)).sublist (hrest.map Prod.fst)
    rcases hk with he | he <;> rw [he]
    · exact hnd
    · refine List.nodup_cons.mpr ⟨fun hm => ?_, hnd⟩
      obtain ⟨⟨j, st⟩, hm', rfl⟩ := List.mem_map.mp hm
      exact hi st hm'

theorem Inv.free_of_state (h : Inv s) {i : ℕ} (hu : (s.proc i).state ≠ .unused)
    (hud : (s.proc i).state ≠ .used) (hr : (s.proc i).state ≠ .runnable) (t : ℕ ⊕ C)
    (hlv : s.Live t) (st : ProcState) : (i, st) ∉ promises (s.codeAt t) := by
  intro hm
  have hk := h.kept t i st hlv hm
  rcases promise_state hm with rfl | rfl | rfl
  · exact hu hk
  · exact hud hk
  · exact hr hk

theorem Inv.free_of_mine (h : Inv s) {i : ℕ} {st : ProcState}
    (hm : (i, st) ∈ promises (s.codeAt (s.cur c))) (t : ℕ ⊕ C) (ht : t ≠ s.cur c)
    (hlv : s.Live t) (st' : ProcState) : (i, st') ∉ promises (s.codeAt t) :=
  fun hm' => ht (h.once t _ i st' st hlv (h.live_cur c) hm' hm)

/-- A slot that `c` has locked is nobody else's business, if its state is not
`used`. -/
theorem Inv.free_of_lock (h : Inv s) {i : ℕ} (hown : s.holder (.proc i) = some c)
    (hst : (s.proc i).state ≠ .used) (hr : (s.proc i).state = .runnable → s.thread c = none)
    (t : ℕ ⊕ C) (ht : t ≠ s.cur c) (hlv : s.Live t) (st : ProcState) :
    (i, st) ∉ promises (s.codeAt t) := by
  intro hm
  obtain rfl := h.kept t i st hlv hm
  obtain ⟨c', hc', hcur⟩ := h.promise_held hlv hm hst
  obtain rfl : c = c' := Option.some.inj (hown.symm.trans hc')
  rcases hcur with rfl | ⟨hrun, rfl⟩
  · exact ht rfl
  · exact ht (by simp [State.cur, hr hrun, tid])

theorem Inv.noCpu (h : Inv s) {i : ℕ}
    (hst : (s.proc i).state = .unused ∨ (s.proc i).state = .used) (c : C) :
    (s.cpu c).proc ≠ some i := by
  intro hp
  have hs := h.state c i hp
  rcases hst with he | he <;> simp [OnCpu, he, ProcState.Off] at hs

/-! ## What actions do -/

theorem Inv.promised_once (h : Inv s) {i : ℕ} {st : ProcState} {l : List (ℕ × ProcState)}
    (hold : promises (s.codeAt (s.cur c)) = (i, st) :: l) (st' : ProcState) : (i, st') ∉ l := by
  intro hm
  have hnd := h.nodup _ (h.live_cur c)
  rw [hold, List.map_cons, List.nodup_cons] at hnd
  exact hnd.1 (List.mem_map.mpr ⟨_, hm, rfl⟩)

theorem promises_of_sched (h : Typed (disc (none : Option ℕ)) ∅ k) : promises k = [] := by
  rw [List.eq_nil_iff_forall_not_mem]
  rintro ⟨j, st⟩ hm
  have hr := promise_of_sched h hm
  simp [used_of_typed_empty h hm] at hr

variable [DecidableEq C]

/-- Actions that touch neither the CPUs nor the code of other threads. -/
def Act.local : Act → Bool
  | .swtch _ | .schedSwtch _ | .schedBack _ | .allocprocFound _ _ _ => false
  | _ => true

theorem act_local {a : Act} {ch : Choice} {push : Code} (ha : a.local = true)
    (hact : s.act c ch a = some (s1, push)) :
    s1.cpu = s.cpu ∧ s1.code = s.code ∧ s1.holder = s.holder := by
  cases a with
  | user p =>
    cases ch <;> simp only [State.act, Option.map_eq_some_iff, reduceCtorEq] at hact
    obtain ⟨code, -, he⟩ := hact
    split at he <;> cases he <;> exact ⟨rfl, rfl, rfl⟩
  | swtch p | schedSwtch b | schedBack b | allocprocFound p kind i => simp [Act.local] at ha
  | zombieExit p => simp [State.act] at hact
  | critical p n =>
    cases ch <;> simp only [State.act, reduceCtorEq] at hact <;>
      cases hact <;> exact ⟨rfl, rfl, rfl⟩
  | schedScan i best | schedLook i best =>
    cases best <;> simp only [State.act] at hact <;> split_ifs at hact <;>
      cases hact <;> exact ⟨rfl, rfl, rfl⟩
  | ret | setState | setZombie | setChan | killed | wakeupParent | allocpid | setParent
  | setRunnable =>
    cases hact
    exact ⟨rfl, rfl, rfl⟩
  | wakeupLook chan i =>
    simp only [State.act] at hact
    cases hact
    split_ifs <;> exact ⟨rfl, rfl, rfl⟩
  | _ =>
    simp only [State.act] at hact
    split_ifs at hact <;> cases hact <;>
      exact ⟨rfl, rfl, rfl⟩


/-- Actions whose only effect on slot states is to wake sleepers, and which rely
on nothing new. -/
def Act.calm : Act → Bool
  | .setState _ _ | .setZombie _ _ | .allocprocLook _ _ _ | .setRunnable _ | .look _ _ _
  | .schedLook _ _ => false
  | a => a.local

omit [DecidableEq C] in
theorem setProc_state_self {i : ℕ} {f : Proc → Proc} (j : ℕ)
    (h : Wakes (s.proc i).state (f (s.proc i)).state) :
    Wakes (s.proc j).state ((s.setProc i f).proc j).state := by
  by_cases hj : j = i
  · subst hj; simpa [State.setProc] using h
  · simp [State.setProc, hj, Wakes]

theorem act_calm {a : Act} {ch : Choice} {push : Code} (ha : a.calm = true)
    (hact : s.act c ch a = some (s1, push)) :
    (∀ i, Wakes (s.proc i).state (s1.proc i).state) ∧
      (promises push).Sublist a.promise.toList := by
  have hrefl : ∀ i, Wakes (s.proc i).state (s.proc i).state := fun _ => .inl rfl
  cases a with
  | user p =>
    cases ch <;> simp only [State.act, Option.map_eq_some_iff, reduceCtorEq] at hact
    obtain ⟨code, hcode, he⟩ := hact
    have hp : promises code = [] := by
      rename_i call
      cases call <;> simp only [Call.code] at hcode <;> try split_ifs at hcode
      all_goals
        cases hcode
        rfl
    split at he <;> cases he
    · exact ⟨hrefl, by simp [hp]⟩
    · exact ⟨hrefl, by simp [hp]⟩
  | critical p n =>
    cases ch <;> simp only [State.act, reduceCtorEq] at hact <;>
      cases hact <;> exact ⟨hrefl, by rfl⟩
  | schedScan i best =>
    cases best <;> simp only [State.act] at hact <;> split_ifs at hact <;>
      cases hact <;> exact ⟨hrefl, by rfl⟩
  | zombieExit p => simp [State.act] at hact
  | ret | killed | wakeupParent =>
    cases hact
    exact ⟨hrefl, by rfl⟩
  | allocpid i =>
    cases hact
    exact ⟨fun j => setProc_state_self (f := fun q => { q with pid := s.nextpid }) j (.inl rfl),
      by rfl⟩
  | setChan | setParent =>
    cases hact
    exact ⟨fun j => setProc_state_self j (.inl rfl), by rfl⟩
  | wakeupLook chan i =>
    simp only [State.act] at hact
    cases hact
    split_ifs with hs
    · exact ⟨fun j => setProc_state_self j (.inr ⟨hs.1, rfl⟩), by rfl⟩
    · exact ⟨hrefl, by rfl⟩
  | kkillLook pid i =>
    simp only [State.act] at hact
    split_ifs at hact <;> cases hact
    · refine ⟨fun j => setProc_state_self j ?_, by rfl⟩
      dsimp only
      split_ifs with hs
      · exact .inr ⟨hs, rfl⟩
      · exact .inl rfl
    · exact ⟨hrefl, by rfl⟩
  | setpriorityLook pid priority i | reparent p i =>
    simp only [State.act] at hact
    split_ifs at hact <;> cases hact
    · exact ⟨fun j => setProc_state_self j (.inl rfl), by rfl⟩
    all_goals exact ⟨hrefl, by rfl⟩
  | wakeup | kkill | setpriority | allocproc | scan | readKilled =>
    simp only [State.act] at hact
    split_ifs at hact <;> cases hact <;>
      exact ⟨hrefl, by rfl⟩
  | _ => simp [Act.calm, Act.local] at ha


/-! ## The steps -/

section

variable {a : Act} {ch : Choice} {push : Code}

omit [DecidableEq C] in
theorem Quiet.of_eq (hcpu : s1.cpu = s.cpu) (hcode : s1.code = s.code)
    (hh : s1.holder = s.holder) : Quiet c s s1 where
  cpu c' _ := by rw [hcpu]
  proc := by rw [hcpu]
  onProc := by rw [hcpu]
  code := by funext t; cases t <;> simp [State.codeAt, hcpu, hcode]
  holds c' _ R hR := by rwa [hh]

theorem Inv.act_typed (h : Inv s) (hcode : s.codeAt (s.cur c) = .act a :: k)
    (hact : s.act c ch a = some (s1, push)) (hs : ∀ p, a ≠ .swtch p)
    (hs' : ∀ b, a ≠ .schedSwtch b) :
    (∃ R, Holds s.holder c R ∧ (s.cpu c).noff = R.card ∧
      Typed (disc (s.thread c)) R (push ++ k)) ∧ leaving (push ++ k) = a.marks := by
  obtain ⟨R, hR, hn, hty⟩ := h.typed c
  rw [hcode] at hty
  obtain ⟨hty', hl⟩ := Sched.act_typed hty hact hs hs'
  exact ⟨⟨R, hR, hn, hty'⟩, hl⟩

theorem Act.local_ne (ha : a.local = true) :
    (∀ p, a ≠ .swtch p) ∧ ∀ b, a ≠ .schedSwtch b := by
  constructor <;> rintro x rfl <;> simp [Act.local] at ha

theorem Inv.act_next (h : Inv s) (hcode : s.codeAt (s.cur c) = .act a :: k)
    (hact : s.act c ch a = some (s1, push)) (ha : a.local = true)
    (hst : StateOk c s s1 (push ++ k)) (hpr : PromisesOk c s s1 (push ++ k)) :
    Inv (s1.setCode c (push ++ k) (s.thread c)) := by
  obtain ⟨hcpu, hc, hh⟩ := act_local ha hact
  refine h.next (.of_eq hcpu hc hh) ?_ (h.noBack hcode ?_) hst hpr
  · rw [hh, hcpu]
    exact (h.act_typed hcode hact (Act.local_ne ha).1 (Act.local_ne ha).2).1
  · rintro p he
    obtain rfl := Cmd.act.inj he
    simp [Act.local] at ha

theorem Inv.act_leaving (h : Inv s) (hcode : s.codeAt (s.cur c) = .act a :: k)
    (hact : s.act c ch a = some (s1, push)) (ha : a.local = true) (hm : a.marks = false) :
    leaving (push ++ k) = leaving (s.codeAt (s.cur c)) := by
  obtain ⟨hns, hns'⟩ := Act.local_ne ha
  rw [hcode, leaving_act hns, (h.act_typed hcode hact hns hns').2, hm]

theorem Inv.act_wakes (h : Inv s) (hcode : s.codeAt (s.cur c) = .act a :: k)
    (hact : s.act c ch a = some (s1, push)) (ha : a.local = true) (hm : a.marks = false)
    (hw : ∀ i, Wakes (s.proc i).state (s1.proc i).state)
    (hsub : (promises (push ++ k)).Sublist (promises (s.codeAt (s.cur c)))) :
    Inv (s1.setCode c (push ++ k) (s.thread c)) :=
  h.act_next hcode hact ha (h.stateOk_wakes hw (h.act_leaving hcode hact ha hm))
    (h.promisesOk_wakes hw hsub)

theorem Inv.act_calm (h : Inv s) (hcode : s.codeAt (s.cur c) = .act a :: k)
    (hact : s.act c ch a = some (s1, push)) (ha : a.calm = true) :
    Inv (s1.setCode c (push ++ k) (s.thread c)) := by
  have hloc : a.local = true := by cases a <;> simp_all [Act.calm]
  have hmarks : a.marks = false := by cases a <;> simp_all [Act.calm, Act.marks]
  obtain ⟨hw, hpr⟩ := Sched.act_calm ha hact
  refine h.act_wakes hcode hact hloc hmarks hw ?_
  rw [hcode, promises_act, promises_append]
  exact hpr.append_right _

theorem Inv.act_marks (h : Inv s) (hcode : s.codeAt (s.cur c) = .act a :: k)
    (hact : s.act c ch a = some (s1, push)) (ha : a.marks = true) :
    Inv (s1.setCode c (push ++ k) (s.thread c)) := by
  have hloc : a.local = true := by cases a <;> simp_all [Act.marks, Act.local]
  obtain ⟨hns, hns'⟩ := Act.local_ne hloc
  have hleave := (h.act_typed hcode hact hns hns').2
  obtain ⟨R, hR, hside, -⟩ := h.side hcode
  have hp : ∃ p, s.thread c = some p ∧ (s1.proc p).state.Off ∧ push = [] ∧
      ∀ j, j ≠ p → (s1.proc j).state = (s.proc j).state := by
    cases a <;> simp only [Act.marks, Bool.false_eq_true] at ha
    case setState p st =>
      obtain ⟨ht, -, hst⟩ := hside
      cases hact
      refine ⟨p, ht, ?_, rfl, fun j hj => by rw [setProc_of_ne _ hj]⟩
      rcases hst with rfl | rfl
      · exact .inl (by simp)
      · exact .inr (.inl (by simp))
    case setZombie p status =>
      obtain ⟨ht, -⟩ := hside
      cases hact
      exact ⟨p, ht, .inr (.inr (by simp)), rfl,
        fun j hj => by rw [log_proc, setProc_of_ne _ hj]⟩
  obtain ⟨p, ht, hoff, rfl, hother⟩ := hp
  have hrun := h.running_of_act ht hcode hns
  have hfree := h.free_of_state (i := p) (by simp [hrun]) (by simp [hrun]) (by simp [hrun])
  refine h.act_next hcode hact hloc (h.stateOk_leave ht hother hoff hrun (hleave.trans ha)) ?_
  refine h.promisesOk_slot hother (fun t _ hlv => hfree t hlv) (promises k) ?_ ?_ (.inl rfl)
  · rw [hcode, promises_act]
    exact List.sublist_append_right _ _
  · intro st hm
    refine hfree _ (h.live_cur c) st ?_
    rw [hcode, promises_act]
    exact List.mem_append_right _ hm

theorem Inv.act_allocprocLook (h : Inv s) {p i : ℕ} {kind : Spawn}
    (hcode : s.codeAt (s.cur c) = .act (.allocprocLook p kind i) :: k)
    (hact : s.act c ch (.allocprocLook p kind i) = some (s1, push)) :
    Inv (s1.setCode c (push ++ k) (s.thread c)) := by
  have hnext := h.act_next hcode hact rfl
  have hl := h.act_leaving hcode hact rfl rfl
  have hstill := h.act_wakes hcode hact rfl rfl
  have hold : promises (s.codeAt (s.cur c)) = promises k := by rw [hcode]; rfl
  obtain ⟨R, hR, ⟨ht, rfl, -⟩, hk⟩ := h.side hcode
  have hown : s.holder (.proc i) = some c := (hR _).mpr (by simp)
  simp only [State.act] at hact
  split_ifs at hact with hu <;> cases hact
  · refine hnext (h.stateOk_wakes (fun _ => .inl rfl) hl) ?_
    refine h.promisesOk_slot (i := i) (fun _ _ => rfl)
      (h.free_of_lock hown (by simp [hu]) (by simp [hu])) (promises k) (by rw [hold]) ?_
      (.inr (by rw [hu]; rfl))
    intro st hm
    have hty : Typed (disc (s.thread c)) ∅ k := by simpa [Act.frees] using hk
    obtain rfl := used_of_typed_empty hty hm
    have hk := h.kept _ i _ (h.live_cur c) (hold ▸ hm)
    simp [hu] at hk
  · exact hstill (fun _ => .inl rfl) (by rw [hold]; rfl)

theorem Inv.act_schedLook (h : Inv s) {i : ℕ} {best : Option ℕ}
    (hcode : s.codeAt (s.cur c) = .act (.schedLook i best) :: k)
    (hact : s.act c ch (.schedLook i best) = some (s1, push)) :
    Inv (s1.setCode c (push ++ k) (s.thread c)) := by
  have hnext := h.act_next hcode hact rfl
  have hl := h.act_leaving hcode hact rfl rfl
  have hstill := h.act_wakes hcode hact rfl rfl
  obtain ⟨R, hR, ⟨ht, rfl, hbest⟩, hk⟩ := h.side hcode
  replace hk : Typed (disc none) ∅ k := by simpa [Act.frees, ht] using hk
  have hown : s.holder (.proc i) = some c := (hR _).mpr (by simp)
  have hnone := promises_of_sched hk
  have hold : promises (s.codeAt (s.cur c)) = (best.map fun b => (b, .runnable)).toList := by
    simp [hcode, hnone, Act.promise]
  have hsame : ∀ i, Wakes (s.proc i).state (s.proc i).state := fun _ => .inl rfl
  -- the new best replaces the old one
  have hnew : (s.proc i).state = .runnable → promises (push ++ k) = [(i, .runnable)] →
      PromisesOk c s s (push ++ k) := fun hr hpr =>
    h.promisesOk_slot (i := i) (fun _ _ => rfl)
      (h.free_of_lock hown (by simp [hr]) (fun _ => ht)) [] (List.nil_sublist _)
      (by simp) (.inr (by rw [hpr, hr]))
  simp only [State.act] at hact
  split_ifs at hact with hr
  · cases best with
    | none =>
      cases hact
      exact hnext (h.stateOk_wakes hsame hl) (hnew hr (by simp [Act.promise, hnone]))
    | some b =>
      simp only at hact
      split_ifs at hact <;> cases hact
      · exact hnext (h.stateOk_wakes hsame hl) (hnew hr (by simp [Act.promise, hnone]))
      · exact hstill hsame (by simp [hold, Act.promise, hnone])
  · cases hact
    exact hstill hsame (by simp [hold, Act.promise, hnone])

theorem Inv.act_setRunnable (h : Inv s) {i : ℕ}
    (hcode : s.codeAt (s.cur c) = .act (.setRunnable i) :: k)
    (hact : s.act c ch (.setRunnable i) = some (s1, push)) :
    Inv (s1.setCode c (push ++ k) (s.thread c)) := by
  have hnext := h.act_next hcode hact rfl
  have hl := h.act_leaving hcode hact rfl rfl
  have hold : promises (s.codeAt (s.cur c)) = (i, .used) :: promises k := by rw [hcode]; rfl
  have hmem : (i, .used) ∈ promises (s.codeAt (s.cur c)) := by simp [hold]
  have hu := h.kept _ i _ (h.live_cur c) hmem
  cases hact
  have hother : ∀ j, j ≠ i →
      ((s.setProc i fun q => { q with state := .runnable }).proc j).state = (s.proc j).state :=
    fun j hj => by rw [setProc_of_ne _ hj]
  refine hnext (h.stateOk_slot hother (h.noCpu (.inr hu)) (by simp) (by simp [hu]) hl) ?_
  refine h.promisesOk_slot hother (h.free_of_mine hmem) (promises k) ?_ (h.promised_once hold)
    (.inl rfl)
  rw [hold]
  exact List.sublist_cons_self _ _

theorem Inv.act_look (h : Inv s) {p i : ℕ} {w : WaitCall}
    (hcode : s.codeAt (s.cur c) = .act (.look p w i) :: k)
    (hact : s.act c ch (.look p w i) = some (s1, push)) :
    Inv (s1.setCode c (push ++ k) (s.thread c)) := by
  have hnext := h.act_next hcode hact rfl
  have hl := h.act_leaving hcode hact rfl rfl
  have hstill := h.act_wakes hcode hact rfl rfl
  have hold : promises (s.codeAt (s.cur c)) = promises k := by rw [hcode]; rfl
  obtain ⟨R, hR, ⟨ht, rfl⟩, -⟩ := h.side hcode
  have hown : s.holder (.proc i) = some c := (hR _).mpr (by simp)
  have hrun := h.running_of_act ht hcode (by simp)
  simp only [State.act] at hact
  split_ifs at hact with hz hf hs <;> cases hact
  · exact hstill (fun _ => .inl rfl) (by rw [hold]; rfl)
  · exact hstill (fun _ => .inl rfl) (by rw [hold]; rfl)
  · have hother : ∀ j, j ≠ i →
        (((s.setProc i freeproc).log (.reap p i w (s.proc i).pid (s.proc i).xstate)).proc j).state =
          (s.proc j).state := fun j hj => by rw [log_proc, setProc_of_ne _ hj]
    have hfree := h.free_of_state (i := i) (by simp [hz]) (by simp [hz]) (by simp [hz])
    -- a CPU that still had the zombie as its process would hold its lock
    have hnone : ∀ c', (s.cpu c').proc ≠ some i := by
      intro c' hc'
      have hown' := h.holder_of_off hc' (by simp [hz])
      obtain rfl : c = c' := Option.some.inj (hown.symm.trans hown')
      obtain rfl : p = i := Option.some.inj ((thread_eq_some ht).2.symm.trans hc')
      simp [hrun] at hz
    refine hnext (h.stateOk_slot hother hnone (by simp [freeproc]) (by simp [freeproc]) hl) ?_
    exact h.promisesOk_slot hother (fun t _ hlv => hfree t hlv) (promises k)
      (by rw [hold]) (fun st hm => hfree _ (h.live_cur c) st (hold ▸ hm)) (.inl rfl)
  · exact hstill (fun _ => .inl rfl) (by rw [hold]; rfl)

omit [DecidableEq C] in
theorem Inv.reuse (h : Inv s) {i : ℕ} (hu : (s.proc i).state = .unused) (k : Code) :
    Inv { s with code := update s.code i k } := by
  have hne : ∀ p, (s.proc p).state ≠ .unused → p ≠ i := fun p hp he => hp (he ▸ hu)
  have hcode : ∀ p, p ≠ i → update s.code i k p = s.code p :=
    fun p hp => update_of_ne hp _ _
  have hat : ∀ t, s.Live t → State.codeAt { s with code := update s.code i k } t =
      s.codeAt t := by
    intro t hlv
    cases t with
    | inl p => exact hcode p (hne p (hlv p rfl))
    | inr c => rfl
  constructor
  case typed =>
    intro c
    obtain ⟨R, hR, hn, hty⟩ := h.typed c
    refine ⟨R, hR, hn, ?_⟩
    rw [show State.cur { s with code := update s.code i k } c = s.cur c from rfl,
      hat _ (h.live_cur c)]
    exact hty
  case parked =>
    intro p hp hoff
    have hpk := h.parked p hp hoff
    rwa [← hcode p (hne p hp)] at hpk
  case back => exact h.back
  case onProc => exact h.onProc
  case unique => exact h.unique
  case state =>
    intro c p hp
    have hs := h.state c p hp
    rwa [← hcode p fun he => h.noCpu (.inl hu) c (he ▸ hp)] at hs
  case running => exact h.running
  case kept =>
    intro t j st hlv hm
    exact h.kept t j st hlv (hat t hlv ▸ hm)
  case once =>
    intro t t' j st st' hlv hlv' hm hm'
    exact h.once t t' j st st' hlv hlv' (hat t hlv ▸ hm) (hat t' hlv' ▸ hm')
  case nodup =>
    intro t hlv
    exact hat t hlv ▸ h.nodup t hlv

theorem Inv.act_allocprocFound (h : Inv s) {p i : ℕ} {kind : Spawn}
    (hcode : s.codeAt (s.cur c) = .act (.allocprocFound p kind i) :: k)
    (hact : s.act c ch (.allocprocFound p kind i) = some (s1, push)) :
    Inv (s1.setCode c (push ++ k) (s.thread c)) := by
  obtain ⟨hty, hleave⟩ := h.act_typed hcode hact (by simp) (by simp)
  have hl : leaving (push ++ k) = leaving (s.codeAt (s.cur c)) := by rw [hleave, hcode]; rfl
  have hold : promises (s.codeAt (s.cur c)) = (i, .unused) :: promises k := by rw [hcode]; rfl
  have hmem : (i, .unused) ∈ promises (s.codeAt (s.cur c)) := by simp [hold]
  have hu := h.kept _ i _ (h.live_cur c) hmem
  have hback := h.noBack hcode (by simp)
  have hsub : (promises k).Sublist (promises (s.codeAt (s.cur c))) := by
    rw [hold]; exact List.sublist_cons_self _ _
  cases ch <;> simp only [State.act, reduceCtorEq] at hact <;>
    cases hact
  case fail =>
    have hw : ∀ j, Wakes (s.proc j).state ((s.setProc i freeproc).proc j).state :=
      fun j => setProc_state_self j (.inl hu.symm)
    exact h.next (.of_eq rfl rfl rfl) hty hback (h.stateOk_wakes hw hl)
      (h.promisesOk_wakes hw hsub)
  case shm key =>
    have hw : ∀ j, Wakes (s.proc j).state (s.proc j).state := fun _ => .inl rfl
    exact h.next (.of_eq rfl rfl rfl) hty hback (h.stateOk_wakes hw hl)
      (h.promisesOk_wakes hw (by rw [hold]; exact List.Sublist.refl _))
  case go =>
    have h0 := h.reuse hu (forkret i)
    have hcur : State.codeAt { s with code := update s.code i (forkret i) } (s.cur c) =
        s.codeAt (s.cur c) := by
      rcases ht : s.cur c with q | c'
      · have hqi : q ≠ i := by
          rintro rfl
          exact h.live_cur c q ht hu
        exact update_of_ne hqi _ _
      · rfl
    refine h0.next (.of_eq rfl rfl rfl) hty hback ?_ ?_
    · refine h0.stateOk_slot (fun j hj => congrArg Proc.state (update_of_ne hj _ _))
        (h.noCpu (.inl hu)) (by simp) ?_ (hl.trans (congrArg leaving hcur.symm))
      intro _ _
      exact update_self _ _ _
    · refine h0.promisesOk_slot (fun j hj => congrArg Proc.state (update_of_ne hj _ _))
        (h0.free_of_mine (hcur ▸ hmem)) (promises k) (hcur ▸ hsub) ?_ (.inr ?_)
      · exact h.promised_once hold
      · simp [publish, Act.promise]

/-! ## Context switches -/

/-- What a context switch of `c` leaves alone. -/
structure Switched (c : C) (s s2 : State C) : Prop where
  cpu : ∀ c', c' ≠ c → s2.cpu c' = s.cpu c'
  holder : s2.holder = s.holder
  noff : (s2.cpu c).noff = (s.cpu c).noff
  code : ∀ p, s.thread c ≠ some p → s2.code p = s.code p
  promises : ∀ t, (promises (s2.codeAt t)).Sublist (promises (s.codeAt t))
  kept : ∀ t i st, s.Live t → (i, st) ∈ Sched.promises (s2.codeAt t) →
    (s2.proc i).state = (s.proc i).state
  unused : ∀ p, (s2.proc p).state = .unused ↔ (s.proc p).state = .unused

omit [DecidableEq C] in
theorem Inv.switch (h : Inv s) {s2 : State C} (hw : Switched c s s2)
    (htyped : ∃ R, Holds s.holder c R ∧ (s.cpu c).noff = R.card ∧
      Typed (disc (s2.thread c)) R (s2.codeAt (s2.cur c)))
    (hparked : ∀ p, s.thread c = some p → (s2.proc p).state ≠ .unused →
      (∀ c', s2.thread c' ≠ some p) →
      Typed (disc (some p)) {.proc p} (s2.code p) ∧ leaving (s2.code p) = false ∧
        SleepOk p (s2.code p))
    (hmine : ∀ p, (s2.cpu c).proc = some p →
      ((∃ k, (s2.cpu c).sched = .act (.schedBack p) :: k) ∧
        Typed (disc none) {.proc p} (s2.cpu c).sched) ∧
      (∀ c', c' ≠ c → (s.cpu c').proc ≠ some p) ∧
      OnCpu (s2.proc p).state (!(s2.cpu c).onProc || leaving (s2.code p)))
    (hon : (s2.cpu c).onProc = true → ∃ p, (s2.cpu c).proc = some p)
    (hothers : ∀ c' p, c' ≠ c → (s.cpu c').proc = some p →
      (s2.proc p).state = (s.proc p).state)
    (hrun : ∀ p, (s2.proc p).state = .running → (s2.cpu c).proc = some p ∨
      (s.proc p).state = .running ∧ (s.cpu c).proc ≠ some p) : Inv s2 := by
  have hth : ∀ c', c' ≠ c → s2.thread c' = s.thread c' := fun c' hc => by
    simp [State.thread, hw.cpu c' hc]
  have hnot : ∀ c' p, c' ≠ c → s.thread c' = some p → s.thread c ≠ some p := fun c' p hc h1 h2 =>
    hc (h.unique c' c p (thread_eq_some h1).2 (thread_eq_some h2).2)
  have hlive : ∀ t, s2.Live t → s.Live t := fun t ht p hp hu => ht p hp ((hw.unused p).mpr hu)
  constructor
  case typed =>
    intro c'
    rw [hw.holder]
    by_cases hc : c' = c
    · subst hc
      rw [hw.noff]
      exact htyped
    · obtain ⟨R, hR, hn, hty⟩ := h.typed c'
      have hcode : s2.codeAt (s2.cur c') = s.codeAt (s.cur c') := by
        rw [State.cur, hth c' hc, State.cur]
        rcases ht : s.thread c' with _ | p
        · simp [tid, State.codeAt, hw.cpu c' hc]
        · exact hw.code p (hnot c' p hc ht)
      exact ⟨R, hR, by rw [hw.cpu c' hc, hn], by rw [hcode, hth c' hc]; exact hty⟩
  case parked =>
    intro p hp hoff
    by_cases ht : s.thread c = some p
    · exact hparked p ht hp hoff
    · rw [hw.code p ht]
      refine h.parked p (fun hu => hp ((hw.unused p).mpr hu)) fun c' hc' => ?_
      by_cases hc : c' = c
      · exact ht (hc ▸ hc')
      · exact hoff c' (hth c' hc ▸ hc')
  case back =>
    intro c' p hp
    by_cases hc : c' = c
    · subst hc
      exact (hmine p hp).1
    · rw [hw.cpu c' hc] at hp ⊢
      exact h.back c' p hp
  case onProc =>
    intro c' ho
    by_cases hc : c' = c
    · subst hc
      exact hon ho
    · rw [hw.cpu c' hc] at ho ⊢
      exact h.onProc c' ho
  case unique =>
    intro c1 c2 p h1 h2
    by_cases hc1 : c1 = c <;> by_cases hc2 : c2 = c
    · rw [hc1, hc2]
    · subst hc1
      exact absurd (hw.cpu c2 hc2 ▸ h2) ((hmine p h1).2.1 c2 hc2)
    · subst hc2
      exact absurd (hw.cpu c1 hc1 ▸ h1) ((hmine p h2).2.1 c1 hc1)
    · rw [hw.cpu c1 hc1] at h1
      rw [hw.cpu c2 hc2] at h2
      exact h.unique c1 c2 p h1 h2
  case state =>
    intro c' p hp
    by_cases hc : c' = c
    · subst hc
      exact (hmine p hp).2.2
    · rw [hw.cpu c' hc] at hp ⊢
      have hs := h.state c' p hp
      rw [hothers c' p hc hp]
      by_cases ho : (s.cpu c').onProc = true
      · have ht : s.thread c' = some p := by simp [State.thread, ho, hp]
        rwa [hw.code p (hnot c' p hc ht)]
      · simpa [ho] using hs
  case running =>
    intro p hp
    rcases hrun p hp with hc | ⟨hr, hne⟩
    · exact ⟨c, hc⟩
    · obtain ⟨c', hc'⟩ := h.running p hr
      exact ⟨c', by rwa [hw.cpu c' fun he => hne (he ▸ hc')]⟩
  case kept =>
    intro t i st hlv hm
    rw [hw.kept t i st (hlive t hlv) hm]
    exact h.kept t i st (hlive t hlv) ((hw.promises t).subset hm)
  case once =>
    intro t t' i st st' hlv hlv' hm hm'
    exact h.once t t' i st st' (hlive t hlv) (hlive t' hlv') ((hw.promises t).subset hm)
      ((hw.promises t').subset hm')
  case nodup =>
    intro t hlv
    exact (h.nodup t (hlive t hlv)).sublist ((hw.promises t).map _)

theorem Inv.act_swtch (h : Inv s) {p : ℕ} (hcode : s.codeAt (s.cur c) = .act (.swtch p) :: k)
    (hact : s.act c ch (.swtch p) = some (s1, push)) :
    Inv (s1.setCode c (push ++ k) (s.thread c)) := by
  obtain ⟨R, hR, hn, hty⟩ := h.typed c
  rw [hcode] at hty
  obtain ⟨⟨⟨ht, rfl⟩, hleave, hsleep⟩, hk⟩ := typed_disc_act.mp hty
  obtain ⟨hon, hproc⟩ := thread_eq_some ht
  have hold : s.code p = .act (.swtch p) :: k := by rw [← hcode, cur_of_thread ht]; rfl
  simp only [State.act] at hact
  split_ifs at hact
  cases hact
  rw [ht] at hk ⊢
  -- the state after the switch
  obtain ⟨s2, hs2⟩ : ∃ s2, s2 = (s.setCpu c fun u => { u with onProc := false }).setCode c
    ([] ++ k) (some p) := ⟨_, rfl⟩
  have hcpu : s2.cpu = update s.cpu c { s.cpu c with onProc := false } := by rw [hs2]; rfl
  have hco : s2.code = update s.code p k := by rw [hs2]; rfl
  have hpr : s2.proc = s.proc := by rw [hs2]; rfl
  have hh : s2.holder = s.holder := by rw [hs2]; rfl
  rw [← hs2]
  have hw : Switched c s s2 := by
    constructor
    case cpu => intro c' hc; rw [hcpu, update_of_ne hc]
    case holder => exact hh
    case noff => simp [hcpu]
    case code =>
      intro q hq
      have hqp : q ≠ p := fun he => hq (he ▸ ht)
      rw [hco, update_of_ne hqp]
    case promises =>
      intro t
      cases t with
      | inl q =>
        by_cases hq : q = p
        · subst hq; simp [State.codeAt, hco, hold]
        · simp [State.codeAt, hco, hq]
      | inr c' => by_cases hc : c' = c <;> simp [State.codeAt, hcpu, hc]
    case kept => intro t i st _ _; rw [hpr]
    case unused => intro p; rw [hpr]
  obtain ⟨hb, hbt⟩ := h.back c p hproc
  have hth : s2.thread c = none := by simp [State.thread, hcpu]
  have hoff := h.state c p hproc
  refine h.switch hw ⟨{.proc p}, hR, hn, ?_⟩ ?_ ?_ (by simp [hcpu]) ?_ ?_
  · rw [State.cur, hth]
    simpa [tid, State.codeAt, hcpu] using hbt
  · intro q hq _ _
    obtain rfl : p = q := Option.some.inj (ht.symm.trans hq)
    rw [hco, update_self]
    exact ⟨by simpa [Act.frees] using hk, hleave, hsleep⟩
  · intro q hq
    obtain rfl : p = q := by simpa [hcpu, hproc] using hq
    refine ⟨by simpa [hcpu] using ⟨hb, hbt⟩, fun c' hc hp => hc (h.unique c' c p hp hproc), ?_⟩
    simpa [hcpu, hpr, hold, OnCpu] using hoff
  · intro c' q _ _; rw [hpr]
  · intro q hq
    rw [hpr] at hq
    refine .inr ⟨hq, fun he => ?_⟩
    obtain rfl : p = q := Option.some.inj (hproc.symm.trans he)
    simp only [hold, leaving_swtch, Bool.or_true, OnCpu, if_true] at hoff
    exact hoff.not_running hq

theorem Inv.act_schedBack (h : Inv s) {b : ℕ}
    (hcode : s.codeAt (s.cur c) = .act (.schedBack b) :: k)
    (hact : s.act c ch (.schedBack b) = some (s1, push)) :
    Inv (s1.setCode c (push ++ k) (s.thread c)) := by
  obtain ⟨R, hR, hn, hty⟩ := h.typed c
  rw [hcode] at hty
  obtain ⟨⟨⟨ht, rfl⟩, -⟩, hk⟩ := typed_disc_act.mp hty
  have hoff := h.onProc_of_none ht
  have hold : (s.cpu c).sched = .act (.schedBack b) :: k := by
    rw [← hcode, State.cur, ht]; rfl
  cases hact
  rw [ht] at hk ⊢
  obtain ⟨s2, hs2⟩ : ∃ s2, s2 = (s.setCpu c fun u => { u with proc := none }).setCode c
    ([] ++ k) none := ⟨_, rfl⟩
  have hcpu : s2.cpu = update s.cpu c { s.cpu c with proc := none, sched := k } := by
    rw [hs2]; simp [State.setCode, State.setCpu]
  have hco : s2.code = s.code := by rw [hs2]; rfl
  have hpr : s2.proc = s.proc := by rw [hs2]; rfl
  have hh : s2.holder = s.holder := by rw [hs2]; rfl
  rw [← hs2]
  have hw : Switched c s s2 := by
    constructor
    case cpu => intro c' hc; rw [hcpu, update_of_ne hc]
    case holder => exact hh
    case noff => simp [hcpu]
    case code => intro q _; rw [hco]
    case promises =>
      intro t
      cases t with
      | inl q => simp [State.codeAt, hco]
      | inr c' =>
        by_cases hc : c' = c
        · subst hc; simp [State.codeAt, hcpu, hold]
        · simp [State.codeAt, hcpu, hc]
    case kept => intro t i st _ _; rw [hpr]
    case unused => intro p; rw [hpr]
  have hth : s2.thread c = none := by simp [State.thread, hcpu]
  refine h.switch hw ⟨{.proc b}, hR, hn, ?_⟩ ?_ ?_ (by simp [hcpu, hoff]) ?_ ?_
  · rw [State.cur, hth]
    simpa [tid, State.codeAt, hcpu, Act.frees] using hk
  · intro q hq
    simp [ht] at hq
  · intro q hq
    simp [hcpu] at hq
  · intro c' q _ _; rw [hpr]
  · intro q hq
    rw [hpr] at hq
    refine .inr ⟨hq, fun he => ?_⟩
    have hs := h.state c q he
    simp only [hoff, Bool.not_false, Bool.true_or, OnCpu, if_true] at hs
    exact hs.not_running hq

theorem Inv.act_schedSwtch (h : Inv s) {b : ℕ}
    (hcode : s.codeAt (s.cur c) = .act (.schedSwtch b) :: k)
    (hact : s.act c ch (.schedSwtch b) = some (s1, push)) :
    Inv (s1.setCode c (push ++ k) (s.thread c)) := by
  have hproc : (s.cpu c).onProc = false → (s.cpu c).proc = none := h.noBack hcode (by simp)
  obtain ⟨R, hR, hn, hty⟩ := h.typed c
  rw [hcode] at hty
  obtain ⟨⟨⟨ht, rfl⟩, -⟩, hk⟩ := typed_disc_act.mp hty
  have hcur : s.cur c = .inr c := by rw [State.cur, ht]; rfl
  have hoff := h.onProc_of_none ht
  have hown : s.holder (.proc b) = some c := (hR _).mpr (by simp)
  have hold : (s.cpu c).sched = .act (.schedSwtch b) :: k := by rw [← hcode, hcur]; rfl
  have hmem : (b, .runnable) ∈ promises (s.codeAt (s.cur c)) := by
    rw [hcode]; simp [Act.promise]
  have hrb := h.kept _ b _ (h.live_cur c) hmem
  -- no CPU has `b`: it would hold its lock
  have hnone : ∀ c', (s.cpu c').proc ≠ some b := by
    intro c' hc'
    obtain rfl : c = c' :=
      Option.some.inj (hown.symm.trans (h.holder_of_off hc' (by simp [hrb])))
    simp [hproc hoff] at hc'
  have hpk := h.parked b (by simp [hrb]) fun c' hc' => hnone c' (thread_eq_some hc').2
  cases hact
  rw [ht] at hk ⊢
  replace hk : Typed (disc none) ∅ k := by simpa [Act.frees] using hk
  have hkp := promises_of_sched hk
  obtain ⟨s2, hs2⟩ : ∃ s2, s2 = ((s.setProc b fun q => { q with state := .running }).setCpu c
    fun u => { u with proc := some b, onProc := true }).setCode c
      (([.act (.schedBack b), .release (.proc b)] ++ scheduler) ++ k) none := ⟨_, rfl⟩
  have hcpu : s2.cpu = update s.cpu c { s.cpu c with
      proc := some b, onProc := true
      sched := .act (.schedBack b) :: .release (.proc b) :: (scheduler ++ k) } := by
    rw [hs2]; simp [State.setCode, State.setCpu, State.setProc]
  have hco : s2.code = s.code := by rw [hs2]; rfl
  have hpr : s2.proc = update s.proc b { s.proc b with state := .running } := by
    rw [hs2]; rfl
  have hh : s2.holder = s.holder := by rw [hs2]; rfl
  rw [← hs2]
  have hst : ∀ q, q ≠ b → (s2.proc q).state = (s.proc q).state := fun q hq => by
    rw [hpr, update_of_ne hq]
  have hprom : promises (s2.codeAt (.inr c)) = [] := by
    simp [State.codeAt, hcpu, Act.promise, scheduler, hkp]
  have hw : Switched c s s2 := by
    constructor
    case cpu => intro c' hc; rw [hcpu, update_of_ne hc]
    case holder => exact hh
    case noff => simp [hcpu]
    case code => intro q _; rw [hco]
    case promises =>
      intro t
      cases t with
      | inl q => simp [State.codeAt, hco]
      | inr c' =>
        by_cases hc : c' = c
        · subst hc; simp [hprom]
        · simp [State.codeAt, hcpu, hc]
    case kept =>
      intro t i st hlv hm
      refine hst i ?_
      rintro rfl
      by_cases htc : t = .inr c
      · simp [htc, hprom] at hm
      · have hm' : (i, st) ∈ promises (s.codeAt t) := by
          cases t with
          | inl q => simpa [State.codeAt, hco] using hm
          | inr c' =>
            have hc : c' ≠ c := fun he => htc (he ▸ rfl)
            simpa [State.codeAt, hcpu, hc] using hm
        exact h.free_of_mine hmem t (hcur ▸ htc) hlv st hm'
    case unused =>
      intro p
      by_cases hp : p = b
      · subst hp; simp [hpr, hrb]
      · rw [hst p hp]
  have hth : s2.thread c = some b := by simp [State.thread, hcpu]
  refine h.switch hw ⟨{.proc b}, hR, hn, ?_⟩ ?_ ?_ (by simp [hcpu]) ?_ ?_
  · rw [State.cur, hth]
    simpa [tid, State.codeAt, hco] using hpk.1
  · intro q hq
    simp [ht] at hq
  · intro q hq
    obtain rfl : b = q := by simpa [hcpu] using hq
    refine ⟨?_, fun c' _ => hnone c', by simp [hcpu, hpr, hco, hpk.2, OnCpu]⟩
    simp only [hcpu, update_self]
    exact ⟨⟨_, rfl⟩, schedBack_typed hk⟩
  · intro c' q _ hq
    exact hst q fun he => hnone c' (he ▸ hq)
  · intro q hq
    by_cases hqb : q = b
    · exact .inl (by simp [hcpu, hqb])
    · rw [hst q hqb] at hq
      exact .inr ⟨hq, by simp [hproc hoff]⟩

/-! ## All steps -/

theorem Inv.act (h : Inv s) (hcode : s.codeAt (s.cur c) = .act a :: k)
    (hact : s.act c ch a = some (s1, push)) : Inv (s1.setCode c (push ++ k) (s.thread c)) := by
  cases a with
  | setState | setZombie => exact h.act_marks hcode hact rfl
  | allocprocLook => exact h.act_allocprocLook hcode hact
  | allocprocFound => exact h.act_allocprocFound hcode hact
  | setRunnable => exact h.act_setRunnable hcode hact
  | look => exact h.act_look hcode hact
  | schedLook => exact h.act_schedLook hcode hact
  | swtch => exact h.act_swtch hcode hact
  | schedSwtch => exact h.act_schedSwtch hcode hact
  | schedBack => exact h.act_schedBack hcode hact
  | _ => exact h.act_calm hcode hact rfl

end

theorem Quiet.acquire {lk : Lock} (hfree : s.holder lk = none) : Quiet c s (s.acquire c lk) where
  cpu c' hc := update_of_ne hc _ _
  proc := by simp [State.acquire, State.setCpu]
  onProc := by simp [State.acquire, State.setCpu]
  code := by
    funext t
    cases t with
    | inl p => rfl
    | inr c' => by_cases hc : c' = c <;> simp [State.codeAt, State.acquire, State.setCpu, hc]
  holds c' hc R hR := hR.acquire_other hc hfree

theorem Quiet.release {lk : Lock} (hown : s.holder lk = some c) :
    Quiet c s (s.release c lk) where
  cpu c' hc := update_of_ne hc _ _
  proc := by simp [State.release, State.setCpu]
  onProc := by simp [State.release, State.setCpu]
  code := by
    funext t
    cases t with
    | inl p => rfl
    | inr c' => by_cases hc : c' = c <;> simp [State.codeAt, State.release, State.setCpu, hc]
  holds c' hc R hR := hR.release_other hc hown

omit [DecidableEq C] in
theorem Inv.typed_empty (h : Inv s) (hn : (s.cpu c).noff = 0) :
    Holds s.holder c ∅ ∧ Typed (disc (s.thread c)) ∅ (s.codeAt (s.cur c)) := by
  obtain ⟨R, hR, hcard, hty⟩ := h.typed c
  obtain rfl : R = ∅ := Finset.card_eq_zero.mp (hcard.symm.trans hn)
  exact ⟨hR, hty⟩

theorem Inv.interrupted (h : Inv s) (hn : (s.cpu c).noff = 0) {k : Code}
    (hty : Typed (disc (s.thread c)) ∅ k)
    (hpr : promises k = promises (s.codeAt (s.cur c))) :
    Inv (s.setCode c k (s.thread c)) := by
  obtain ⟨hR, hold⟩ := h.typed_empty hn
  have hsame : ∀ i, Wakes (s.proc i).state (s.proc i).state := fun _ => .inl rfl
  refine h.next (.refl c s) ⟨∅, hR, by simpa using hn, hty⟩ ?_ (h.stateOk_wakes hsame ?_)
    (h.promisesOk_wakes hsame (by rw [hpr]))
  · intro hoff
    by_contra hne
    obtain ⟨p, hp⟩ := Option.ne_none_iff_exists'.mp hne
    have hrun := h.state c p hp
    have hown := h.holder_of_off hp (by
      simp only [hoff, Bool.not_false, Bool.true_or, OnCpu, if_true] at hrun
      exact hrun.not_running)
    simpa using (hR _).mp hown
  · rw [leaving_of_typed_empty hty, leaving_of_typed_empty hold]

theorem Inv.step (h : Inv s) {l : Label C} (hstep : step s l = some s') : Inv s' := by
  have hsame : ∀ i, Wakes (s.proc i).state (s.proc i).state := fun _ => .inl rfl
  cases step_inv hstep with
  | timer p hch ht hn =>
    obtain ⟨-, hty⟩ := h.typed_empty hn
    refine h.interrupted hn ?_ (by simp [yield, Act.promise])
    rw [ht] at hty ⊢
    exact yield_typed hty
  | device n chan hch hn =>
    exact h.interrupted hn (interrupt_typed (h.typed_empty hn).2) (by simp [interrupt, Act.promise])
  | acquire lk k hcode hfree =>
    obtain ⟨R, hR, hn, hty⟩ := h.typed l.cpu
    rw [hcode] at hty
    have hnot : lk ∉ R := fun hm => Lock.Before.irrefl lk (hty.1.1 lk hm)
    refine h.next (.acquire hfree) ⟨insert lk R, hR.acquire, ?_, hty.2⟩
      (h.noBack hcode (by simp)) (h.stateOk_wakes hsame ?_) (h.promisesOk_wakes hsame ?_)
    · simp [State.acquire, State.setCpu, hn, Finset.card_insert_of_notMem hnot]
    · rw [hcode, leaving_acquire, hty.1.2.1]
    · rw [hcode, promises_acquire]
  | release lk k hcode hown =>
    obtain ⟨R, hR, hn, hty⟩ := h.typed l.cpu
    rw [hcode] at hty
    refine h.next (.release hown) ⟨R.erase lk, hR.release, ?_, hty.2.2⟩
      (h.noBack hcode (by simp)) (h.stateOk_wakes hsame ?_) (h.promisesOk_wakes hsame ?_)
    · simp [State.release, State.setCpu, hn, Finset.card_erase_of_mem hty.2.1]
    · rw [hcode, leaving_release]
    · rw [hcode, promises_release]
  | act a k s1 push hch hcode hact => exact h.act hcode hact

omit [DecidableEq C] in
theorem inv_boot : Inv (boot : State C) := by
  have hst : ∀ p, ((boot : State C).proc p).state ≠ .unused → p = initproc := by
    intro p hp
    by_contra hne
    simp [boot, hne, unusedProc, freeproc] at hp
  have hpr : ∀ t, promises ((boot : State C).codeAt t) = [] := by
    intro t
    cases t with
    | inl p =>
      by_cases hp : p = initproc <;> simp [State.codeAt, boot, hp, forkret, Act.promise]
    | inr c => simp [State.codeAt, boot, scheduler, Act.promise]
  constructor
  case typed =>
    intro c
    exact ⟨∅, by simp [Holds, boot], rfl, scheduler_typed⟩
  case parked =>
    intro p hp _
    obtain rfl := hst p hp
    simp only [boot, update_self]
    exact ⟨forkret_typed, rfl, forkret_sleepOk⟩
  case back => simp [boot]
  case onProc => simp [boot]
  case unique => simp [boot]
  case state => simp [boot]
  case running =>
    intro p hp
    obtain rfl := hst p (by simp [hp])
    simp [boot] at hp
  case kept => simp [hpr]
  case once => simp [hpr]
  case nodup => simp [hpr]

theorem inv_run {ls : List (Label C)} (h : Runs.exec step boot ls = some s) : Inv s :=
  Runs.exec_invariant (fun _ _ _ hi hs => hi.step hs) inv_boot h

end Xv6.Sched
