import Xv6.Sched.History

/-!
# No lost wakeup in the wait calls

The wait protocol sees of the state only the process table, the process that holds
`wait_lock` and, of the code of each process, the actions of the protocol. On this
view: a call that scans the table has passed no zombie it would accept; a call that
has gone to sleep after its scan has no such child unless the holder of `wait_lock`
is about to wake it; and a process that is about to become a zombie has woken its
parent. A step of a process that does not hold `wait_lock` cannot disturb this.
-/

namespace Xv6.Sched

open LockCode

/-! ## The view of the wait protocol -/

/-- Commands that matter for the wait protocol. -/
def relevant : Cmd Lock Act → Bool
  | .act b => b.protocol
  | .release .wait => true
  | _ => false

@[ext]
structure View where
  proc : ℕ → Proc
  waiter : Option ℕ
  code : ℕ → Code

variable {C : Type}

/-- The process that holds `wait_lock`. -/
def State.waiter (s : State C) : Option ℕ := (s.holder .wait).bind s.thread

def State.view (s : State C) : View where
  proc := s.proc
  waiter := s.waiter
  code p := (s.code p).filter relevant

/-- No slot below `n` is a zombie that the call of `p` accepts. -/
def Clear (v : View) (p : ℕ) (w : WaitCall) (n : ℕ) : Prop :=
  ∀ j < n, w.accepts p (v.proc j) = true → (v.proc j).state ≠ .zombie

/-- What a call of `p` has seen while it holds `wait_lock`. -/
structure Seen (v : View) (p : ℕ) : Prop where
  scan : ∀ w i havekids, .act (.scan p w i havekids) ∈ v.code p → Clear v p w i
  look : ∀ w i, .act (.look p w i) ∈ v.code p → Clear v p w i
  killed : ∀ w, .act (.readKilled p w) ∈ v.code p → Clear v p w nproc
  sleep : ∀ w i havekids, .act (.scan p w i havekids) ∈ v.code p → .release .wait ∈ v.code p →
    Clear v p w nproc

/-- Process `p` sleeps in the call `w`, or will without looking at the table again. -/
structure Dozing (v : View) (p : ℕ) (w : WaitCall) : Prop where
  live : (v.proc p).state ≠ .unused
  scan : ∃ i havekids, .act (.scan p w i havekids) ∈ v.code p
  released : .release .wait ∉ v.code p
  sleeps : .act (.setState p .sleeping) ∈ v.code p ∨ (v.proc p).state = .sleeping

/-- The code is going to wake the sleepers on the channel of `p`, from slot `i` on. -/
def Waking (k : Code) (p i : ℕ) : Prop :=
  .act (.wakeup (some (.proc p)) i) ∈ k ∨ .act (.wakeupLook (some (.proc p)) i) ∈ k

/-- A call of `p` sleeps on the channel of `p`. -/
structure SleepsWell (v : View) (p : ℕ) : Prop where
  asleep : (v.proc p).state = .sleeping → (v.proc p).chan = some (.proc p)
  falling : .act (.setState p .sleeping) ∈ v.code p →
    (∃ chan, .act (.setChan p (some chan)) ∈ v.code p) ∨ (v.proc p).chan = some (.proc p)
  chan : ∀ chan, .act (.setChan p (some chan)) ∈ v.code p → chan = .proc p

structure Wakeful (v : View) : Prop where
  seen : ∀ p, v.waiter = some p → Seen v p
  wake : ∀ p w q, Dozing v p w → w.accepts p (v.proc q) = true → (v.proc q).state = .zombie →
    ∃ r i, v.waiter = some r ∧ Waking (v.code r) p i ∧ i ≤ p
  exiting : ∀ r p w status, v.waiter = some r → .act (.setZombie r status) ∈ v.code r →
    .act (.wakeupParent r) ∉ v.code r → (v.proc r).parent = some p → Dozing v p w →
    ∃ i, Waking (v.code r) p i ∧ i ≤ p
  sleeps : ∀ p w i havekids, (v.proc p).state ≠ .unused →
    .act (.scan p w i havekids) ∈ v.code p → SleepsWell v p

theorem mem_view {s : State C} {p : ℕ} {x : Cmd Lock Act} :
    x ∈ s.view.code p ↔ x ∈ s.code p ∧ relevant x = true := List.mem_filter

theorem scan_view {s : State C} {p q : ℕ} {w : WaitCall} {i : ℕ} {havekids : Bool} :
    .act (.scan q w i havekids) ∈ s.view.code p ↔ .act (.scan q w i havekids) ∈ s.code p := by
  simp [mem_view, relevant, Act.protocol]

/-! ## Steps of other processes -/

/-- What a step of the thread `me` does to the view when it does not hold `wait_lock`. -/
structure Outsider (me : Option ℕ) (v v' : View) : Prop where
  waiter : v'.waiter = v.waiter
  holder : ∀ p, v.waiter = some p →
    (v'.proc p).parent = (v.proc p).parent ∧ v'.code p = v.code p
  shrink : ∀ p (w : WaitCall) q, w.accepts p (v'.proc q) = true → (v'.proc q).state = .zombie →
    w.accepts p (v.proc q) = true ∧ (v.proc q).state = .zombie
  other : ∀ p, me ≠ some p → (v'.proc p).state ≠ .unused → v'.code p = [] ∨
    v'.code p = v.code p ∧ (v.proc p).state ≠ .unused ∧ (v'.proc p).chan = (v.proc p).chan ∧
      ((v'.proc p).state = .sleeping → (v.proc p).state = .sleeping)
  mine : ∀ p w i havekids, me = some p → .act (.scan p w i havekids) ∈ v'.code p →
    (∀ w, Dozing v' p w → Dozing v p w) ∧ SleepsWell v' p

theorem Outsider.dozing {me : Option ℕ} {v v' : View} (h : Outsider me v v') {p : ℕ}
    {w : WaitCall} (hd : Dozing v' p w) : Dozing v p w := by
  obtain ⟨i, havekids, hscan⟩ := hd.scan
  by_cases hme : me = some p
  · exact (h.mine p w i havekids hme hscan).1 w hd
  · rcases h.other p hme hd.live with he | ⟨hc, hlive, -, hsl⟩
    · simp [he] at hscan
    · exact ⟨hlive, ⟨i, havekids, hc ▸ hscan⟩, hc ▸ hd.released,
        hd.sleeps.imp (fun hm => hc ▸ hm) hsl⟩

theorem Wakeful.outsider {me : Option ℕ} {v v' : View} (h : Wakeful v)
    (ho : Outsider me v v') : Wakeful v' where
  seen p hp := by
    rw [ho.waiter] at hp
    obtain ⟨hs, hl, hk, hz⟩ := h.seen p hp
    have hc := (ho.holder p hp).2
    have hclear : ∀ w n, Clear v p w n → Clear v' p w n := fun w n hcl j hj hacc hz =>
      hcl j hj (ho.shrink p w j hacc hz).1 (ho.shrink p w j hacc hz).2
    refine ⟨fun w i b hm => ?_, fun w i hm => ?_, fun w hm => ?_, fun w i b hm hm' => ?_⟩ <;>
      rw [hc] at hm
    · exact hclear w i (hs w i b hm)
    · exact hclear w i (hl w i hm)
    · exact hclear w nproc (hk w hm)
    · exact hclear w nproc (hz w i b hm (hc ▸ hm'))
  wake p w q hd hacc hz := by
    obtain ⟨r, i, hr, hwk, hi⟩ := h.wake p w q (ho.dozing hd) (ho.shrink p w q hacc hz).1
      (ho.shrink p w q hacc hz).2
    exact ⟨r, i, ho.waiter.trans hr, (ho.holder r hr).2 ▸ hwk, hi⟩
  exiting r p w status hr hz hw hpar hd := by
    rw [ho.waiter] at hr
    obtain ⟨hp, hc⟩ := ho.holder r hr
    rw [hc] at hz hw ⊢
    exact h.exiting r p w status hr hz hw (hp ▸ hpar) (ho.dozing hd)
  sleeps p w i havekids hlive hscan := by
    by_cases hme : me = some p
    · exact (ho.mine p w i havekids hme hscan).2
    · rcases ho.other p hme hlive with he | ⟨hc, hlive', hch, hsl⟩
      · simp [he] at hscan
      · rw [hc] at hscan
        obtain ⟨h1, h2, h3⟩ := h.sleeps p w i havekids hlive' hscan
        exact ⟨fun hs => hch ▸ h1 (hsl hs), fun hm => by rw [hc] at hm ⊢; rw [hch]; exact h2 hm,
          fun chan hm => h3 chan (hc ▸ hm)⟩

variable [DecidableEq C] {s s1 s' : State C} {c : C} {ch : Choice} {a : Act} {push k : Code}

theorem act_frame (hact : s.act c ch a = some (s1, push)) :
    s1.holder = s.holder ∧ ∀ c', c' ≠ c → s1.cpu c' = s.cpu c' := by
  by_cases hloc : a.local = true
  · obtain ⟨hcpu, -, hh⟩ := act_local hloc hact
    exact ⟨hh, fun c' _ => by rw [hcpu]⟩
  · cases a <;> simp only [Act.local, not_true_eq_false] at hloc
    case swtch q =>
      simp only [State.act] at hact
      split_ifs at hact
      cases hact
      exact ⟨rfl, fun c' hc => Function.update_of_ne hc _ _⟩
    case schedSwtch | schedBack =>
      cases hact
      exact ⟨rfl, fun c' hc => Function.update_of_ne hc _ _⟩
    case allocprocFound q kind i =>
      cases ch <;> simp only [State.act, reduceCtorEq] at hact <;>
        cases hact <;> exact ⟨rfl, fun _ _ => rfl⟩

/-- Acts that run under `wait_lock`. -/
def Act.underWait : Act → Bool
  | .setZombie _ _ | .reparent _ _ | .wakeupParent _ | .setParent _ _ => true
  | .scan _ _ _ _ | .look _ _ _ | .readKilled _ _ => true
  | .wakeup chan _ | .wakeupLook chan _ => wakesProc chan
  | _ => false

theorem underWait_side {t : Option ℕ} {R : Finset Lock} (hside : a.Side t R)
    (ha : a.underWait = true) : .wait ∈ R := by
  cases a <;> simp_all [Act.underWait, Act.Side]

omit [DecidableEq C] in
theorem Inv.not_underWait (h : Inv s) (hcode : s.codeAt (s.cur c) = .act a :: k)
    (hno : s.holder .wait ≠ some c) : a.underWait = false := by
  by_contra ha
  exact hno (h.holder_of_side hcode fun R hR => underWait_side hR (by simpa using ha))

/-- What a process not under `wait_lock` puts in front, unless it starts a call, sleeps
on another condition or publishes a child, does not matter for the wait protocol. -/
theorem push_irrelevant (hact : s.act c ch a = some (s1, push)) (hw : a.underWait = false)
    (hu : ∀ p, a ≠ .user p) (hc : ∀ p n, a ≠ .critical p n)
    (hf : ∀ p kind i, a ≠ .allocprocFound p kind i) : push.filter relevant = [] := by
  cases a with
  | user p => exact absurd rfl (hu p)
  | critical p n => exact absurd rfl (hc p n)
  | allocprocFound p kind i => exact absurd rfl (hf p kind i)
  | setZombie | reparent | wakeupParent | setParent | scan | look | readKilled =>
    simp [Act.underWait] at hw
  | zombieExit p => simp [State.act] at hact
  | wakeup chan i =>
    replace hw : wakesProc chan = false := hw
    simp only [State.act] at hact
    split_ifs at hact <;> cases hact <;>
      simp [relevant, Act.protocol, hw]
  | wakeupLook chan i =>
    replace hw : wakesProc chan = false := hw
    cases hact
    simp [relevant, Act.protocol, hw]
  | ret | setState | setChan | killed | allocpid | setRunnable | schedSwtch | schedBack =>
    cases hact
    rfl
  | schedScan i best | schedLook i best =>
    cases best <;> simp only [State.act] at hact <;> split_ifs at hact <;>
      cases hact <;> rfl
  | _ =>
    simp only [State.act] at hact
    split_ifs at hact <;> cases hact <;> rfl

theorem view_code_self (s1 : State C) (k : Code) {p : ℕ} (ht : s.thread c = some p) :
    (s1.setCode c k (s.thread c)).view.code p = k.filter relevant := by
  simp [State.view, setCode_code, ht]

theorem view_code_other {p : ℕ} (ht : s.thread c ≠ some p) :
    (s1.setCode c k (s.thread c)).view.code p = s1.view.code p := by
  simp [State.view, setCode_code, ht]

theorem view_proc : (s1.setCode c k (s.thread c)).view.proc = s1.proc := setCode_proc _ _ _ _

omit [DecidableEq C] in
theorem view_old {p : ℕ} (ht : s.thread c = some p) (hcode : s.codeAt (s.cur c) = k) :
    s.view.code p = k.filter relevant := by
  rw [← hcode, cur_of_thread ht]; rfl

omit [DecidableEq C] in
theorem Inv.after (h : Inv s) (hcode : s.codeAt (s.cur c) = .act a :: k) : a.After k := by
  obtain ⟨R, -, -, hty⟩ := h.typed c
  rw [hcode] at hty
  exact hty.1.2.2

omit [DecidableEq C] in
theorem Inv.live_thread (h : Inv s) {p : ℕ} (ht : s.thread c = some p) :
    (s.proc p).state ≠ .unused := h.live_cur c p (cur_of_thread ht)

theorem Inv.act_live (h : Inv s) (hcode : s.codeAt (s.cur c) = .act a :: k)
    (hact : s.act c ch a = some (s1, push)) {p : ℕ} (ht : s.thread c = some p) :
    (s1.proc p).state ≠ .unused := by
  intro hu
  rcases (hu ▸ h.act_change hcode hact p).to_unused with he | ⟨q, w, rfl, he⟩
  · exact h.live_thread ht he
  · simp [h.running_of_act ht hcode (by simp)] at he

theorem user_sleeps {p : ℕ} {v : View} (hrun : (v.proc p).state = .running)
    {call : Call} (hcall : call.code p = some push) (hv : v.code p = push.filter relevant)
    (hscan : ∃ w i havekids, .act (.scan p w i havekids) ∈ v.code p) :
    (∀ w, ¬ Dozing v p w) ∧ SleepsWell v p := by
  obtain ⟨w, rfl⟩ : ∃ w, call = .wait w := by
    obtain ⟨w, i, b, hm⟩ := hscan
    have hm' := (List.mem_filter.mp (hv ▸ hm)).1
    cases call with
    | wait w => exact ⟨w, rfl⟩
    | setpriority pid priority =>
      simp only [Call.code] at hcall
      split_ifs at hcall <;> cases hcall <;> simp at hm'
    | kexit | kthreadExit =>
      simp only [Call.code, kthreadExit] at hcall
      split_ifs at hcall
      cases hcall
      simp [kexit] at hm'
    | _ =>
      cases hcall
      simp [yield, critical, shmSection] at hm'
  cases hcall
  have hst : .act (.setState p .sleeping) ∉ v.code p := by
    rw [hv]; simp [waitCall]
  have hch : ∀ chan, .act (.setChan p (some chan)) ∉ v.code p := by
    rw [hv]; simp [waitCall]
  exact ⟨fun w hd => by simpa [hst, hrun] using hd.sleeps,
    ⟨fun hs => by simp [hrun] at hs, fun hm => absurd hm hst, fun chan hm => absurd hm (hch chan)⟩⟩

/-- The calls of the stepping process when it does not hold `wait_lock`. -/
theorem outsider_mine (hinv : Inv s) (hwake : Wakeful s.view)
    (hcode : s.codeAt (s.cur c) = .act a :: k) (hact : s.act c ch a = some (s1, push))
    (hw : a.underWait = false) {p : ℕ} (ht : s.thread c = some p) {w : WaitCall} {i : ℕ}
    {havekids : Bool} (hscan : .act (.scan p w i havekids) ∈
      (s1.setCode c (push ++ k) (s.thread c)).view.code p) :
    (∀ w, Dozing (s1.setCode c (push ++ k) (s.thread c)).view p w → Dozing s.view p w) ∧
      SleepsWell (s1.setCode c (push ++ k) (s.thread c)).view p := by
  obtain ⟨R, -, hside, -⟩ := hinv.side hcode
  have hafter := hinv.after hcode
  have hnew := view_code_self s1 (push ++ k) ht
  have hold := view_old ht hcode
  rw [List.filter_append] at hnew
  have hlive := hinv.live_thread ht
  by_cases hu : ∃ q, a = .user q
  · obtain ⟨q, rfl⟩ := hu
    obtain rfl : k = [] := hafter
    obtain rfl : p = q := Option.some.inj (ht.symm.trans hside.1)
    have hrun := hinv.running_of_act ht hcode (by simp)
    obtain ⟨call, hcall, hs1⟩ := user_push hact
    have hrun' : (s1.proc p).state = .running := by
      rcases hs1 with ⟨w, -, rfl⟩ | ⟨-, rfl⟩ <;> exact hrun
    obtain ⟨h1, h2⟩ := user_sleeps (by rw [view_proc]; exact hrun') hcall
      (hnew.trans (by simp)) ⟨w, i, _, hscan⟩
    exact ⟨fun w hd => absurd hd (h1 w), h2⟩
  by_cases hc : ∃ q n, a = .critical q n
  · obtain ⟨q, n, rfl⟩ := hc
    obtain rfl : k = [.act (.user q)] := hafter
    rw [hnew] at hscan
    cases ch <;> simp only [State.act, reduceCtorEq] at hact <;>
      cases hact <;> simp [sleep, wakeup] at hscan
  by_cases hf : ∃ q kind j, a = .allocprocFound q kind j
  · obtain ⟨q, kind, j, rfl⟩ := hf
    obtain rfl : k = [.act (.user q)] := hafter
    rw [hnew] at hscan
    cases ch <;> simp only [State.act, reduceCtorEq] at hact <;>
      cases hact <;> simp [publish, shmSection] at hscan
  rw [push_irrelevant hact hw (by simpa using hu) (by simpa using hc) (by simpa using hf),
    List.nil_append] at hnew
  -- nothing new stands in the code, so what is left of the call was there before
  have hsub : ∀ x, x ∈ k.filter relevant → x ∈ s.view.code p := by
    intro x hx
    rw [hold, List.mem_filter]
    exact ⟨List.mem_cons_of_mem _ (List.mem_filter.mp hx).1, (List.mem_filter.mp hx).2⟩
  have hback : ∀ x, x ∈ s.view.code p → x = .act a ∨ x ∈ k.filter relevant := by
    intro x hx
    rw [hold] at hx
    rcases List.mem_cons.mp (List.mem_filter.mp hx).1 with he | hk
    · exact .inl he
    · exact .inr (List.mem_filter.mpr ⟨hk, (List.mem_filter.mp hx).2⟩)
  have hsleep : (s1.proc p).state = .sleeping →
      (s.proc p).state = .sleeping ∨ a = .setState p .sleeping := fun hs =>
    (hs ▸ hinv.act_change hcode hact p).to_sleeping.imp id And.left
  have hmem : a = .setState p .sleeping → .act (.setState p .sleeping) ∈ s.view.code p := by
    rintro rfl
    rw [hold]
    exact List.mem_filter.mpr ⟨List.mem_cons_self, rfl⟩
  obtain ⟨hasleep, hfall, hchan⟩ := hwake.sleeps p w i havekids hlive (hsub _ (hnew ▸ hscan))
  have hkeep := act_chan hact (hinv.act_live hcode hact ht)
  refine ⟨fun w hd => ⟨hlive, ?_, ?_, ?_⟩, ⟨fun hs => ?_, fun hm => ?_, fun chan hm => ?_⟩⟩
  · obtain ⟨i, b, hm⟩ := hd.scan
    exact ⟨i, b, hsub _ (hnew ▸ hm)⟩
  · intro hm
    rcases hback _ hm with he | hk
    · simp at he
    · exact hd.released (hnew ▸ hk)
  · rcases hd.sleeps with hm | hs
    · exact .inl (hsub _ (hnew ▸ hm))
    · rw [view_proc] at hs
      exact (hsleep hs).symm.imp hmem id
  · rw [view_proc] at hs ⊢
    rcases hsleep hs with hs0 | rfl
    · rcases hkeep with he | ⟨chan, rfl, -⟩
      · exact he.trans (hasleep hs0)
      · simp [hinv.running_of_act ht hcode (by simp)] at hs0
    · rcases hfall (hmem rfl) with ⟨chan, hm⟩ | he
      · rcases hback _ hm with he | hk
        · simp at he
        · exact absurd (List.mem_filter.mp hk).1 (hafter chan)
      · rcases hkeep with hk | ⟨chan, hk, -⟩
        · exact hk.trans he
        · simp at hk
  · rw [hnew] at hm ⊢
    rw [view_proc]
    by_cases hset : ∃ chan, a = .setChan p chan
    · obtain ⟨chan, rfl⟩ := hset
      cases chan with
      | none => exact absurd (List.mem_filter.mp hm).1 hafter
      | some chan =>
        have hin : .act (.setChan p (some chan)) ∈ s.view.code p := by
          rw [hold]; exact List.mem_filter.mpr ⟨List.mem_cons_self, rfl⟩
        cases hact
        exact .inr (by simp [hchan chan hin])
    · have hk : (s1.proc p).chan = (s.proc p).chan := hkeep.resolve_right fun h =>
        hset (h.imp fun _ => And.left)
      rcases hfall (hsub _ hm) with ⟨chan, hc⟩ | he
      · rcases hback _ hc with he | hc
        · exact absurd ⟨_, (Cmd.act.inj he).symm⟩ hset
        · exact .inl ⟨chan, hc⟩
      · exact .inr (hk.trans he)
  · exact hchan chan (hsub _ (hnew ▸ hm))

omit [DecidableEq C] in
theorem waiter_eq_some {p : ℕ} :
    s.waiter = some p ↔ ∃ c, s.holder .wait = some c ∧ s.thread c = some p := by
  simp [State.waiter, Option.bind_eq_some_iff]

theorem waiter_of_other (hh : s1.holder = s.holder) (hcpu : ∀ c', c' ≠ c → s1.cpu c' = s.cpu c')
    (hno : s.holder .wait ≠ some c) :
    (s1.setCode c k (s.thread c)).waiter = s.waiter := by
  unfold State.waiter
  rw [setCode_holder, hh]
  rcases hc : s.holder .wait with _ | c'
  · rfl
  · have hne : c' ≠ c := fun he => hno (he ▸ hc)
    simp [State.thread, setCode_cpu_of_ne, hne, hcpu c' hne]

theorem Inv.code_of_live (h : Inv s) (hcode : s.codeAt (s.cur c) = .act a :: k)
    (hact : s.act c ch a = some (s1, push)) {p : ℕ} (hp : (s.proc p).state ≠ .unused) :
    s1.code p = s.code p := by
  rcases act_code hact p with he | ⟨⟨q, kind, rfl⟩, -⟩
  · exact he
  · exact absurd (h.kept _ p .unused (h.live_cur c) (by simp [hcode, Act.promise])) hp

omit [DecidableEq C] in
theorem Inv.waiter_ne (h : Inv s) (hno : s.holder .wait ≠ some c) {p : ℕ}
    (hp : s.waiter = some p) : s.thread c ≠ some p := by
  intro ht
  obtain ⟨c', hc', ht'⟩ := waiter_eq_some.mp hp
  by_cases he : c' = c
  · exact hno (he ▸ hc')
  · exact h.cur_ne he ((cur_of_thread ht').trans (cur_of_thread ht).symm)

omit [DecidableEq C] in
theorem Inv.waiter_live (h : Inv s) {p : ℕ} (hp : s.waiter = some p) :
    (s.proc p).state ≠ .unused := by
  obtain ⟨c', -, ht'⟩ := waiter_eq_some.mp hp
  exact h.live_thread ht'

theorem Inv.act_shrink (h : Inv s) (hcode : s.codeAt (s.cur c) = .act a :: k)
    (hact : s.act c ch a = some (s1, push)) (hexit : ∀ p status, a ≠ .setZombie p status)
    (hpar : ∀ p i, a ≠ .reparent p i) {p q : ℕ} {w : WaitCall}
    (hacc : w.accepts p (s1.proc q) = true) (hz : (s1.proc q).state = .zombie) :
    w.accepts p (s.proc q) = true ∧ (s.proc q).state = .zombie := by
  have hz0 : (s.proc q).state = .zombie := by
    rcases (hz ▸ h.act_change hcode hact q).to_zombie with h | ⟨status, he, -⟩
    · exact h
    · exact absurd he (hexit q status)
  refine ⟨?_, hz0⟩
  cases h.act_kin hcode hact q with
  | same h _ => exact accepts_sameKin h ▸ hacc
  | unused h _ => simp [hz0] at h
  | reparent => exact absurd rfl (hpar _ _)
  | setParent h _ => simp [hz0] at h
  | reap _ h _ => simp [hz] at h

theorem Inv.act_other (h : Inv s) (hcode : s.codeAt (s.cur c) = .act a :: k)
    (hact : s.act c ch a = some (s1, push)) {p : ℕ} (hme : s.thread c ≠ some p)
    (hp : (s1.proc p).state ≠ .unused) : (s1.proc p).chan = (s.proc p).chan ∧
      ((s1.proc p).state = .sleeping → (s.proc p).state = .sleeping) := by
  obtain ⟨R, -, hside, -⟩ := h.side hcode
  constructor
  · rcases act_chan hact hp with h | ⟨chan, rfl, -⟩
    · exact h
    · exact absurd hside.1 hme
  · intro hs
    rcases (hs ▸ h.act_change hcode hact p).to_sleeping with h | ⟨rfl, -⟩
    · exact h
    · exact absurd hside.1 hme

theorem outsider_act (hinv : Inv s) (hwake : Wakeful s.view)
    (hcode : s.codeAt (s.cur c) = .act a :: k) (hact : s.act c ch a = some (s1, push))
    (hno : s.holder .wait ≠ some c) :
    Outsider (s.thread c) s.view (s1.setCode c (push ++ k) (s.thread c)).view := by
  have hw := hinv.not_underWait hcode hno
  obtain ⟨hh, hcpu⟩ := act_frame hact
  constructor
  case waiter => exact waiter_of_other hh hcpu hno
  case holder =>
    intro p hp
    have hlive := hinv.waiter_live hp
    rw [view_proc, view_code_other (hinv.waiter_ne hno hp)]
    refine ⟨?_, congrArg _ (hinv.code_of_live hcode hact hlive)⟩
    cases hinv.act_kin hcode hact p with
    | same h _ => exact h.1
    | unused h _ => exact absurd h hlive
    | reparent | setParent | reap => simp [Act.underWait] at hw
  case shrink =>
    intro p w q hacc hz
    rw [view_proc] at hacc hz
    exact hinv.act_shrink hcode hact (by rintro p st rfl; simp [Act.underWait] at hw)
      (by rintro p i rfl; simp [Act.underWait] at hw) hacc hz
  case other =>
    intro p hme hp
    rw [view_proc] at hp
    rw [view_proc, view_code_other hme]
    rcases hinv.other_code hcode hact hp with ⟨hlive, hc⟩ | hc
    · exact .inr ⟨congrArg _ hc, hlive, hinv.act_other hcode hact hme hp⟩
    · exact .inl (by simp [State.view, hc, forkret, relevant, Act.protocol])
  case mine =>
    intro p w i b ht hscan
    exact outsider_mine hinv hwake hcode hact hw ht hscan

end Xv6.Sched
