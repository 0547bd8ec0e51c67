import Xv6.Sched.Wakeup

/-!
# Steps under `wait_lock`

The holder of `wait_lock` scans the table for a wait call, gives its children to
`initproc` and wakes its parent when it exits, or publishes a child. Each of these
acts keeps every sleeping call without a child to reap, or about to be woken.
-/

namespace Xv6.Sched

open LockCode

/-- No call gets new zombies to accept. -/
def Shrinks (v v' : View) : Prop :=
  ∀ p (w : WaitCall) q, w.accepts p (v'.proc q) = true → (v'.proc q).state = .zombie →
    w.accepts p (v.proc q) = true ∧ (v.proc q).state = .zombie

section

variable {v v' : View} {p m n : ℕ} {w : WaitCall}

theorem Clear.shrinks (h : Clear v p w n) (hs : Shrinks v v') : Clear v' p w n :=
  fun j hj hacc hz => h j hj (hs p w j hacc hz).1 (hs p w j hacc hz).2

theorem Clear.mono (h : Clear v p w n) (hmn : m ≤ n) : Clear v p w m :=
  fun j hj => h j (by omega)

theorem Clear.succ (h : Clear v p w n)
    (hn : w.accepts p (v.proc n) = true → (v.proc n).state ≠ .zombie) : Clear v p w (n + 1) := by
  intro j hj
  by_cases he : j = n
  · exact he ▸ hn
  · exact h j (by omega)

end

/-- The acts of the wait calls. -/
def Act.inCall : Act → Bool
  | .scan _ _ _ _ | .look _ _ _ | .readKilled _ _ => true
  | _ => false

/-- A step of the process `r` that holds `wait_lock`. -/
structure HolderStep (r : ℕ) (v v' : View) : Prop where
  waiter : v.waiter = some r
  waiter' : v'.waiter = some r
  other : ∀ p ≠ r, v'.code p = v.code p ∧ ((v'.proc p).state ≠ .unused →
    (v.proc p).state ≠ .unused ∧ (v'.proc p).chan = (v.proc p).chan ∧
      ((v'.proc p).state = .sleeping → (v.proc p).state = .sleeping))
  awake : (v'.proc r).state ≠ .sleeping
  falls : .act (.setState r .sleeping) ∈ v'.code r → .release .wait ∈ v'.code r

/-- The code of a wait call under `wait_lock`, as far as the protocol sees it, with what
the call knows at each point. -/
inductive CallCode (v : View) (r : ℕ) : Code → Prop
  | scan (w : WaitCall) (i : ℕ) (havekids : Bool) : Clear v r w i →
      CallCode v r [.act (.scan r w i havekids)]
  | look (w : WaitCall) (i : ℕ) : Clear v r w i → CallCode v r [.act (.look r w i)]
  | killed (w : WaitCall) : Clear v r w nproc → CallCode v r [.act (.readKilled r w)]
  | sleep (w : WaitCall) : Clear v r w nproc →
      CallCode v r [.release .wait, .act (.setChan r (some (.proc r))),
        .act (.setState r .sleeping), .act (.scan r w 0 false)]
  | done (w : WaitCall) (value : ℤ) (why : Outcome) :
      CallCode v r [.release .wait, .act (.ret r w value why)]
  | publish : CallCode v r [.release .wait]

theorem CallCode.seen {v : View} {r : ℕ} {k : Code} (hc : CallCode v r k) (hk : v.code r = k) :
    Seen v r := by
  cases hc with
  | scan w i b hcl =>
    constructor <;> simp only [hk, List.mem_singleton, reduceCtorEq, Cmd.act.injEq, Act.scan.injEq,
      false_implies, implies_true, true_and, and_imp]
    rintro w' i' b' rfl rfl rfl
    exact hcl
  | look w i hcl =>
    constructor <;> simp only [hk, List.mem_singleton, reduceCtorEq, Cmd.act.injEq, Act.look.injEq,
      false_implies, implies_true, true_and, and_imp]
    rintro w' i' rfl rfl
    exact hcl
  | killed w hcl =>
    constructor <;> simp only [hk, List.mem_singleton, reduceCtorEq, Cmd.act.injEq,
      Act.readKilled.injEq, false_implies, implies_true, true_and]
    rintro w' rfl
    exact hcl
  | sleep w hcl =>
    constructor <;> simp only [hk, List.mem_cons, List.not_mem_nil, reduceCtorEq, Cmd.act.injEq,
      Act.scan.injEq, false_implies, implies_true, true_and, and_imp, false_or, or_false]
    · rintro w' i' b' rfl rfl rfl j hj
      simp at hj
    · rintro w' i' b' rfl rfl rfl -
      exact hcl
  | done | publish => constructor <;> simp [hk]

theorem CallCode.sleeps {v : View} {r : ℕ} {k : Code} (hc : CallCode v r k) (hk : v.code r = k)
    (hr : (v.proc r).state ≠ .sleeping) : SleepsWell v r where
  asleep hs := absurd hs hr
  falling hm := by cases hc <;> simp [hk] at hm ⊢
  chan chan hm := by cases hc <;> simp [hk] at hm; exact hm

theorem CallCode.not_exit {v : View} {r : ℕ} {k : Code} (hc : CallCode v r k) (status : ℤ) :
    .act (.setZombie r status) ∉ k := by
  cases hc <;> simp

section

variable {r : ℕ} {v v' : View} (h : HolderStep r v v')

include h

theorem HolderStep.not_dozing (w : WaitCall) : ¬ Dozing v' r w := fun hd =>
  hd.sleeps.elim (fun hm => hd.released (h.falls hm)) h.awake

theorem HolderStep.dozing {p : ℕ} {w : WaitCall} (hd : Dozing v' p w) : p ≠ r ∧ Dozing v p w := by
  have hp : p ≠ r := fun he => h.not_dozing w (he ▸ hd)
  obtain ⟨hc, hproc⟩ := h.other p hp
  obtain ⟨hlive, -, hs⟩ := hproc hd.live
  exact ⟨hp, hlive, hc ▸ hd.scan, hc ▸ hd.released, hd.sleeps.imp (fun hm => hc ▸ hm) hs⟩

/-- What the holder has to show: that its scan is right, that calls which sleep
while it has a zombie for them are about to be woken, and that a call it starts to
sleep in sleeps on its own channel. -/
theorem Wakeful.holder (hv : Wakeful v) (hseen : Seen v' r)
    (hwake : ∀ p w q, Dozing v' p w → w.accepts p (v'.proc q) = true →
      (v'.proc q).state = .zombie → ∃ i, Waking (v'.code r) p i ∧ i ≤ p)
    (hexit : ∀ p w status, .act (.setZombie r status) ∈ v'.code r →
      .act (.wakeupParent r) ∉ v'.code r → (v'.proc r).parent = some p → Dozing v' p w →
      ∃ i, Waking (v'.code r) p i ∧ i ≤ p)
    (hsleep : ∀ w i havekids, .act (.scan r w i havekids) ∈ v'.code r → SleepsWell v' r) :
    Wakeful v' where
  seen p hp := by
    obtain rfl : r = p := Option.some.inj (h.waiter'.symm.trans hp)
    exact hseen
  wake p w q hd hacc hz := by
    obtain ⟨i, hi⟩ := hwake p w q hd hacc hz
    exact ⟨r, i, h.waiter', hi⟩
  exiting r' p w status hr hz hw hpar hd := by
    obtain rfl : r = r' := Option.some.inj (h.waiter'.symm.trans hr)
    exact hexit p w status hz hw hpar hd
  sleeps p w i havekids hlive hscan := by
    by_cases hp : p = r
    · subst hp
      exact hsleep w i havekids hscan
    · obtain ⟨hc, hproc⟩ := h.other p hp
      obtain ⟨hl, hch, hs⟩ := hproc hlive
      obtain ⟨h1, h2, h3⟩ := hv.sleeps p w i havekids hl (hc ▸ hscan)
      exact ⟨fun hst => hch ▸ h1 (hs hst), fun hm => by rw [hc] at hm ⊢; rw [hch]; exact h2 hm,
        fun chan hm => h3 chan (hc ▸ hm)⟩

/-- While the holder is not about to wake anyone, no sleeping call has a child to reap. -/
theorem HolderStep.settled (hv : Wakeful v) (hno : ∀ p i, ¬ Waking (v.code r) p i) {p q : ℕ}
    {w : WaitCall} (hd : Dozing v' p w) (hacc : w.accepts p (v.proc q) = true) :
    (v.proc q).state ≠ .zombie := by
  intro hz
  obtain ⟨r', i, hr, hw, -⟩ := hv.wake p w q (h.dozing hd).2 hacc hz
  obtain rfl : r = r' := Option.some.inj (h.waiter.symm.trans hr)
  exact hno p i hw

theorem Wakeful.holder_call (hv : Wakeful v) (hno : ∀ p i, ¬ Waking (v.code r) p i)
    (hshrink : Shrinks v v')
    (hc : CallCode v' r (v'.code r)) : Wakeful v' := by
  refine hv.holder h (hc.seen rfl) (fun p w q hd hacc hz => ?_) ?_ ?_
  · obtain ⟨hacc0, hz0⟩ := hshrink p w q hacc hz
    exact absurd hz0 (h.settled hv hno hd hacc0)
  · exact fun p w status hz => absurd hz (hc.not_exit status)
  · exact fun w i b _ => hc.sleeps rfl h.awake

theorem Wakeful.holder_exit (hv : Wakeful v)
    (hcall : ∀ b, .act b ∈ v'.code r → b.inCall = false)
    (hwake : ∀ p w q, Dozing v' p w → w.accepts p (v'.proc q) = true →
      (v'.proc q).state = .zombie → ∃ i, Waking (v'.code r) p i ∧ i ≤ p)
    (hexit : ∀ p w status, .act (.setZombie r status) ∈ v'.code r →
      .act (.wakeupParent r) ∉ v'.code r → (v'.proc r).parent = some p → Dozing v' p w →
      ∃ i, Waking (v'.code r) p i ∧ i ≤ p) : Wakeful v' := by
  refine hv.holder h ?_ hwake hexit fun w i b hm => by simpa [Act.inCall] using hcall _ hm
  constructor
  · exact fun w i b hm => by simpa [Act.inCall] using hcall _ hm
  · exact fun w i hm => by simpa [Act.inCall] using hcall _ hm
  · exact fun w hm => by simpa [Act.inCall] using hcall _ hm
  · exact fun w i b hm => by simpa [Act.inCall] using hcall _ hm

end

variable {C : Type} [DecidableEq C] {s s1 s' : State C} {c : C} {ch : Choice} {a : Act}
  {push k : Code} {r : ℕ}

theorem Inv.act_shrinks (h : Inv s) (hcode : s.codeAt (s.cur c) = .act a :: k)
    (hact : s.act c ch a = some (s1, push)) (hexit : ∀ p status, a ≠ .setZombie p status)
    (hpar : ∀ p i, a ≠ .reparent p i) :
    Shrinks s.view (s1.setCode c (push ++ k) (s.thread c)).view := by
  intro p w q hacc hz
  rw [view_proc] at hacc hz
  exact h.act_shrink hcode hact hexit hpar hacc hz

/-- Code that holds `wait_lock` gives it back before it puts its process to sleep. -/
theorem release_of_falls {who : Option ℕ} {R : Finset Lock} {p : ℕ} (h : Typed (disc who) R k)
    (hR : .wait ∈ R) (hm : .act (.setState p .sleeping) ∈ k) : .release .wait ∈ k := by
  induction k generalizing R with
  | nil => simp at hm
  | cons x k ih =>
    cases x with
    | acquire l => simpa using ih h.2 (Finset.mem_insert_of_mem hR) (by simpa using hm)
    | release l =>
      by_cases hl : l = .wait
      · simp [hl]
      · simpa using .inr (ih h.2.2 (Finset.mem_erase.mpr ⟨Ne.symm hl, hR⟩) (by simpa using hm))
    | act a =>
      have hside := h.1.1
      have hafter : a.After k := h.1.2.2
      have hne : a ≠ .setState p .sleeping := by
        rintro rfl
        simp [hside.2.1] at hR
      have hk : .act (.setState p .sleeping) ∈ k := by
        simpa [hne.symm] using hm
      by_cases hf : .wait ∈ a.frees
      · cases a with
        | scan | look | readKilled =>
          obtain rfl : k = _ := hafter
          simp at hk
        | schedScan i best | schedLook i best | schedSwtch best =>
          cases best <;> simp [Act.frees] at hf
        | _ => simp [Act.frees] at hf
      · simpa using ih h.2 (Finset.mem_sdiff.mpr ⟨hR, hf⟩) hk

/-- An action under `wait_lock` that stays on its CPU and does not put its process to
sleep. -/
theorem holder_act (hinv : Inv s) (hinv' : Inv (s1.setCode c (push ++ k) (s.thread c)))
    (hcode : s.codeAt (s.cur c) = .act a :: k) (hact : s.act c ch a = some (s1, push))
    (hhold : s.holder .wait = some c) (ht : s.thread c = some r) (hloc : a.local = true)
    (hs : a ≠ .setState r .sleeping) :
    HolderStep r s.view (s1.setCode c (push ++ k) (s.thread c)).view := by
  obtain ⟨hcpu, hco, hh⟩ := act_local hloc hact
  have hth : (s1.setCode c (push ++ k) (s.thread c)).thread c = some r := by
    rw [← ht]; simp [State.thread, hcpu]
  have hhold' : (s1.setCode c (push ++ k) (s.thread c)).holder .wait = some c := by
    rw [setCode_holder, hh, hhold]
  constructor
  case waiter => exact waiter_eq_some.mpr ⟨c, hhold, ht⟩
  case waiter' => exact waiter_eq_some.mpr ⟨c, hhold', hth⟩
  case other =>
    intro p hp
    have hme : s.thread c ≠ some p := fun he => hp (Option.some.inj (he.symm.trans ht))
    rw [view_code_other hme, view_proc]
    refine ⟨congrArg _ (congrFun hco p), fun hlive => ⟨fun hu => ?_, hinv.act_other hcode hact hme
      hlive⟩⟩
    rcases (hu ▸ hinv.act_change hcode hact p).of_unused with he | ⟨q, kind, rfl, -⟩
    · exact hlive he
    · simp [Act.local] at hloc
  case awake =>
    rw [view_proc]
    intro hsl
    rcases (hsl ▸ hinv.act_change hcode hact r).to_sleeping with h | ⟨he, -⟩
    · have hrun := hinv.running_of_act ht hcode (by rintro p rfl; simp [Act.local] at hloc)
      simp [hrun] at h
    · exact hs he
  case falls =>
    intro hm
    obtain ⟨R, hR, -, hty⟩ := hinv'.typed c
    rw [cur_of_thread hth] at hty
    exact mem_view.mpr ⟨release_of_falls hty ((hR _).mp hhold') (mem_view.mp hm).1, rfl⟩

/-- The acts of the loop of `wakeup`. -/
def Act.isWakeup : Act → Bool
  | .wakeup _ _ | .wakeupLook _ _ => true
  | _ => false

@[simp] theorem waking_filter {p i : ℕ} : Waking (k.filter relevant) p i ↔ Waking k p i := by
  simp [Waking, relevant, Act.protocol, wakesProc]

theorem waking_cons {x : Cmd Lock Act} {p i : ℕ} : Waking (x :: k) p i ↔
    (x = .act (.wakeup (some (.proc p)) i) ∨ x = .act (.wakeupLook (some (.proc p)) i)) ∨
      Waking k p i := by
  simp only [Waking, List.mem_cons, eq_comm (b := x)]
  tauto

theorem waking_append {p i : ℕ} : Waking (push ++ k) p i ↔ Waking push p i ∨ Waking k p i := by
  simp only [Waking, List.mem_append]
  tauto

omit [DecidableEq C] in
/-- A wait call whose slot is locked by another CPU has not started to sleep. -/
theorem Inv.sleepOk_of_locked (h : Inv s) {p : ℕ} (hp : (s.proc p).state ≠ .unused)
    (hlock : s.holder (.proc p) = some c) (hne : s.thread c ≠ some p) : SleepOk p (s.code p) := by
  by_cases hon : ∃ c', s.thread c' = some p
  · obtain ⟨c', hc'⟩ := hon
    obtain ⟨R, hR, -, hty⟩ := h.typed c'
    rw [cur_of_thread hc'] at hty
    refine sleepOk_of_typed hty fun hm => hne ?_
    obtain rfl : c = c' := Option.some.inj (hlock.symm.trans ((hR _).mpr hm))
    exact hc'
  · exact (h.parked p hp fun c' hc' => hon ⟨c', hc'⟩).2.2

theorem waking_push (ha : a.isWakeup = true) (hact : s.act c ch a = some (s1, push)) :
    .release .wait ∉ push ∧ ∀ b, .act b ∈ push → b.isWakeup = true := by
  cases a <;> simp only [Act.isWakeup, Bool.false_eq_true] at ha
  case wakeup chan i =>
    simp only [State.act] at hact
    split_ifs at hact <;> cases hact <;>
      simp [Act.isWakeup]
  case wakeupLook chan i =>
    cases hact
    simp [Act.isWakeup]

section

variable (hwake : Wakeful s.view) (hinv : Inv s)
  (hinv' : Inv (s1.setCode c (push ++ k) (s.thread c)))

include hwake hinv hinv'

theorem wakeful_scan {w : WaitCall} {i : ℕ} {havekids : Bool}
    (hcode : s.codeAt (s.cur c) = .act (.scan r w i havekids) :: k)
    (hact : s.act c ch (.scan r w i havekids) = some (s1, push)) :
    Wakeful (s1.setCode c (push ++ k) (s.thread c)).view := by
  obtain ⟨R, hR, ⟨ht, rfl⟩, -⟩ := hinv.side hcode
  obtain rfl : k = _ := hinv.after hcode
  have hstep := holder_act hinv hinv' hcode hact ((hR .wait).mpr (by simp)) ht rfl (by simp)
  have hold := view_old ht hcode
  have hnew := view_code_self s1 (push ++ [.act (.user r)]) ht
  have hclear : Clear s.view r w i := (hwake.seen r hstep.waiter).scan w i havekids
    (by simp [hold, relevant, Act.protocol])
  have hshrink := hinv.act_shrinks hcode hact (by simp) (by simp)
  replace hclear := hclear.shrinks hshrink
  refine hwake.holder_call hstep (by simp [hold, Waking]) hshrink ?_
  rw [hnew]
  simp only [State.act] at hact
  split_ifs at hact with hi hacc hkids <;>
    cases hact
  · exact .look w i hclear
  · refine .scan w (i + 1) havekids (hclear.succ fun h => ?_)
    rw [view_proc] at h
    exact absurd h hacc
  · exact .killed w (hclear.mono (by omega))
  · exact .done w (-1) .noChild

theorem wakeful_look {w : WaitCall} {i : ℕ}
    (hcode : s.codeAt (s.cur c) = .act (.look r w i) :: k)
    (hact : s.act c ch (.look r w i) = some (s1, push)) :
    Wakeful (s1.setCode c (push ++ k) (s.thread c)).view := by
  obtain ⟨R, hR, ⟨ht, rfl⟩, -⟩ := hinv.side hcode
  obtain rfl : k = _ := hinv.after hcode
  have hstep := holder_act hinv hinv' hcode hact ((hR .wait).mpr (by simp)) ht rfl (by simp)
  have hold := view_old ht hcode
  have hnew := view_code_self s1 (push ++ [.act (.user r)]) ht
  have hclear : Clear s.view r w i := (hwake.seen r hstep.waiter).look w i
    (by simp [hold, relevant, Act.protocol])
  have hshrink := hinv.act_shrinks hcode hact (by simp) (by simp)
  replace hclear := hclear.shrinks hshrink
  refine hwake.holder_call hstep (by simp [hold, Waking]) hshrink ?_
  rw [hnew]
  simp only [State.act] at hact
  split_ifs at hact with hz hf <;>
    cases hact
  · exact .done w (-1) .copyout
  · exact .look w i hclear
  · exact .done w _ (.reaped i)
  · refine .scan w (i + 1) true (hclear.succ fun _ h => ?_)
    rw [view_proc] at h
    exact hz h

theorem wakeful_readKilled {w : WaitCall}
    (hcode : s.codeAt (s.cur c) = .act (.readKilled r w) :: k)
    (hact : s.act c ch (.readKilled r w) = some (s1, push)) :
    Wakeful (s1.setCode c (push ++ k) (s.thread c)).view := by
  obtain ⟨R, hR, ⟨ht, rfl⟩, -⟩ := hinv.side hcode
  obtain rfl : k = _ := hinv.after hcode
  have hstep := holder_act hinv hinv' hcode hact ((hR .wait).mpr (by simp)) ht rfl (by simp)
  have hold := view_old ht hcode
  have hnew := view_code_self s1 (push ++ [.act (.user r)]) ht
  have hclear : Clear s.view r w nproc := (hwake.seen r hstep.waiter).killed w
    (by simp [hold, relevant, Act.protocol])
  have hshrink := hinv.act_shrinks hcode hact (by simp) (by simp)
  replace hclear := hclear.shrinks hshrink
  refine hwake.holder_call hstep (by simp [hold, Waking]) hshrink ?_
  rw [hnew]
  simp only [State.act] at hact
  split_ifs at hact with hk <;> cases hact
  · exact .done w (-1) .killed
  · exact .sleep w hclear

theorem wakeful_setParent {i : ℕ} (hcode : s.codeAt (s.cur c) = .act (.setParent r i) :: k)
    (hact : s.act c ch (.setParent r i) = some (s1, push)) :
    Wakeful (s1.setCode c (push ++ k) (s.thread c)).view := by
  obtain ⟨R, hR, ⟨ht, rfl⟩, -⟩ := hinv.side hcode
  obtain rfl : k = _ := hinv.after hcode
  have hstep := holder_act hinv hinv' hcode hact ((hR .wait).mpr (by simp)) ht rfl (by simp)
  have hold := view_old ht hcode
  refine hwake.holder_call hstep (by simp [hold, Waking])
    (hinv.act_shrinks hcode hact (by simp) (by simp)) ?_
  rw [view_code_self _ _ ht]
  cases hact
  exact .publish

theorem wakeful_reparent {i : ℕ} (hcode : s.codeAt (s.cur c) = .act (.reparent r i) :: k)
    (hact : s.act c ch (.reparent r i) = some (s1, push)) :
    Wakeful (s1.setCode c (push ++ k) (s.thread c)).view := by
  obtain ⟨R, hR, ⟨ht, rfl⟩, -⟩ := hinv.side hcode
  obtain ⟨status, rfl⟩ := hinv.after hcode
  have hstep := holder_act hinv hinv' hcode hact ((hR .wait).mpr (by simp)) ht rfl (by simp)
  have hold := view_old ht hcode
  have hnew := view_code_self s1 (push ++ .act (.wakeupParent r) :: exitTail r status) ht
  have hno : ∀ p i, ¬ Waking (s.view.code r) p i := by simp [hold, Waking, exitTail]
  refine hwake.holder_exit hstep (fun b hb => ?_) (fun p w q hd hacc hz => ?_)
    fun p w status _ hw => absurd (by simp [hnew, relevant, Act.protocol]) hw
  · replace hb := (List.mem_filter.mp (hnew ▸ hb)).1
    simp only [State.act] at hact
    split_ifs at hact <;> cases hact <;>
      cases b <;> simp [wakeup, exitTail, Act.inCall] at hb ⊢
  · rw [view_proc] at hacc hz
    simp only [State.act] at hact
    split_ifs at hact with hi hpar <;> cases hact
    · by_cases hq : q = i
      · subst hq
        obtain rfl : initproc = p := by simpa using parent_of_accepts hacc
        exact ⟨0, .inl (hnew ▸ List.mem_filter.mpr ⟨List.mem_cons_self, rfl⟩), Nat.zero_le _⟩
      · rw [setProc_of_ne _ hq] at hacc hz
        exact absurd hz (hstep.settled hwake hno hd hacc)
    all_goals exact absurd hz (hstep.settled hwake hno hd hacc)

theorem wakeful_wakeupParent (hcode : s.codeAt (s.cur c) = .act (.wakeupParent r) :: k)
    (hact : s.act c ch (.wakeupParent r) = some (s1, push)) :
    Wakeful (s1.setCode c (push ++ k) (s.thread c)).view := by
  obtain ⟨R, hR, ⟨ht, rfl⟩, -⟩ := hinv.side hcode
  obtain ⟨status, rfl⟩ := hinv.after hcode
  have hstep := holder_act hinv hinv' hcode hact ((hR .wait).mpr (by simp)) ht rfl (by simp)
  have hold := view_old ht hcode
  have hnew := view_code_self s1 (push ++ exitTail r status) ht
  have hno : ∀ p i, ¬ Waking (s.view.code r) p i := by simp [hold, Waking, exitTail]
  have hshrink := hinv.act_shrinks hcode hact (by simp) (by simp)
  cases hact
  refine hwake.holder_exit hstep (fun b hb => ?_) (fun p w q hd hacc hz => ?_)
    fun p w status _ _ hpar _ => ?_
  · replace hb := (List.mem_filter.mp (hnew ▸ hb)).1
    cases b <;> simp [wakeup, exitTail, Act.inCall] at hb ⊢
  · exact absurd (hshrink p w q hacc hz).2
      (hstep.settled hwake hno hd (hshrink p w q hacc hz).1)
  · rw [view_proc] at hpar
    refine ⟨0, .inl ?_, Nat.zero_le p⟩
    rw [hnew, wakeup, hpar]
    exact List.mem_filter.mpr ⟨List.mem_cons_self, rfl⟩

theorem wakeful_setZombie {status : ℤ} (hcode : s.codeAt (s.cur c) = .act (.setZombie r status) :: k)
    (hact : s.act c ch (.setZombie r status) = some (s1, push)) :
    Wakeful (s1.setCode c (push ++ k) (s.thread c)).view := by
  obtain ⟨R, hR, ⟨ht, rfl⟩, -⟩ := hinv.side hcode
  obtain rfl : k = _ := hinv.after hcode
  have hstep := holder_act hinv hinv' hcode hact ((hR .wait).mpr (by simp)) ht rfl (by simp)
  have hold := view_old ht hcode
  have hno : ∀ p i, ¬ Waking (s.view.code r) p i := by simp [hold, Waking]
  have hnew : (s1.setCode c (push ++ [.release .wait, .act (.swtch r), .act (.zombieExit r)])
      (s.thread c)).view.code r = [.release .wait] := by
    rw [view_code_self _ _ ht]
    cases hact
    rfl
  refine hwake.holder_exit hstep (by simp [hnew]) (fun p w q hd hacc hz => ?_)
    (by simp [hnew])
  rw [view_proc] at hacc hz
  by_cases hq : q = r
  · subst hq
    have hpar : (s.proc q).parent = some p := by
      cases hact
      simpa using parent_of_accepts hacc
    obtain ⟨i, hi, -⟩ := hwake.exiting q p w status hstep.waiter
      (by simp [hold, relevant, Act.protocol]) (by simp [hold]) hpar (hstep.dozing hd).2
    exact absurd hi (hno p i)
  · rw [act_slot hact (by simpa [Act.slot] using Ne.symm hq)] at hacc hz
    exact absurd hz (hstep.settled hwake hno hd hacc)

/-- The loop of `wakeup`. A sleeper on the channel that the loop has still to reach
before the step is still to be reached after it, or has been woken. -/
theorem wakeful_waking (ha : a.isWakeup = true)
    (hcode : s.codeAt (s.cur c) = .act a :: k) (hact : s.act c ch a = some (s1, push))
    (hhold : s.holder .wait = some c) (ht : s.thread c = some r)
    (hreach : ∀ p w i, p ≠ r → Dozing (s1.setCode c (push ++ k) (s.thread c)).view p w →
      Waking (s.view.code r) p i → i ≤ p → ∃ i, Waking ((push ++ k).filter relevant) p i ∧ i ≤ p) :
    Wakeful (s1.setCode c (push ++ k) (s.thread c)).view := by
  have hloc : a.local = true := by cases a <;> simp_all [Act.isWakeup, Act.local]
  have hne : ∀ b : Act, b.isWakeup = false → b ≠ a := by rintro b hb rfl; simp [ha] at hb
  have hstep := holder_act hinv hinv' hcode hact hhold ht hloc (hne _ rfl).symm
  have hshrink := hinv.act_shrinks hcode hact (fun p st => (hne _ rfl).symm)
    fun p i => (hne _ rfl).symm
  have hold := view_old ht hcode
  have hnew := view_code_self s1 (push ++ k) ht
  obtain ⟨hrel, hpush⟩ := waking_push ha hact
  -- apart from the acts of `wakeup` the code is the same
  have hmem : ∀ b : Act, b.isWakeup = false →
      (.act b ∈ (s1.setCode c (push ++ k) (s.thread c)).view.code r ↔ .act b ∈ s.view.code r) := by
    intro b hb
    have hbp : .act b ∉ push := fun hm => by simp [hpush b hm] at hb
    simp [hnew, hold, hne b hb, hbp]
  have hwait : .release .wait ∈ (s1.setCode c (push ++ k) (s.thread c)).view.code r ↔
      .release .wait ∈ s.view.code r := by
    simp [hnew, hold, hrel]
  have hlive : (s1.proc r).state ≠ .unused := hinv.act_live hcode hact ht
  rw [hnew] at hmem hwait
  refine hwake.holder hstep ?_ ?_ ?_ ?_
  · obtain ⟨h1, h2, h3, h4⟩ := hwake.seen r hstep.waiter
    constructor <;> rw [hnew]
    · exact fun w i b hm => (h1 w i b ((hmem _ rfl).mp hm)).shrinks hshrink
    · exact fun w i hm => (h2 w i ((hmem _ rfl).mp hm)).shrinks hshrink
    · exact fun w hm => (h3 w ((hmem _ rfl).mp hm)).shrinks hshrink
    · exact fun w i b hm hw => (h4 w i b ((hmem _ rfl).mp hm) (hwait.mp hw)).shrinks hshrink
  · intro p w q hd hacc hz
    obtain ⟨hp, hd0⟩ := hstep.dozing hd
    obtain ⟨r', i, hr, hw, hi⟩ := hwake.wake p w q hd0 (hshrink p w q hacc hz).1
      (hshrink p w q hacc hz).2
    obtain rfl : r = r' := Option.some.inj (hstep.waiter.symm.trans hr)
    exact hnew ▸ hreach p w i hp hd hw hi
  · intro p w status hz hw hpar hd
    obtain ⟨hp, hd0⟩ := hstep.dozing hd
    rw [hnew] at hz hw
    have hpar0 : (s.proc r).parent = some p := by
      rw [view_proc] at hpar
      cases hinv.act_kin hcode hact r with
      | same h _ => exact h.1 ▸ hpar
      | unused h _ => exact absurd h (hinv.live_thread ht)
      | reparent | setParent | reap => simp [Act.isWakeup] at ha
    obtain ⟨i, hw, hi⟩ := hwake.exiting r p w status hstep.waiter ((hmem _ rfl).mp hz)
      (fun hm => hw ((hmem _ rfl).mpr hm)) hpar0 hd0
    exact hnew ▸ hreach p w i hp hd hw hi
  · intro w i b hm
    rw [hnew] at hm
    obtain ⟨-, h2, h3⟩ := hwake.sleeps r w i b (hinv.live_thread ht) ((hmem _ rfl).mp hm)
    have hchan : (s1.proc r).chan = (s.proc r).chan := by
      rcases act_chan hact hlive with h | ⟨chan, rfl, -⟩
      · exact h
      · simp [Act.isWakeup] at ha
    constructor
    · exact fun hs => absurd hs hstep.awake
    · rw [view_proc, hnew, hchan]
      exact fun hf => (h2 ((hmem _ rfl).mp hf)).imp
        (Exists.imp fun _ hc => (hmem _ rfl).mpr hc) id
    · rw [hnew]
      exact fun chan hc => h3 chan ((hmem _ rfl).mp hc)

/-- The loop goes to the next slot. It may skip the slot of its own process, which is
awake, and ends after the last slot. -/
theorem wakeful_wakeup (hfam : Family s) {chan : Option Chan} {j : ℕ}
    (hcode : s.codeAt (s.cur c) = .act (.wakeup chan j) :: k)
    (hact : s.act c ch (.wakeup chan j) = some (s1, push)) (hhold : s.holder .wait = some c)
    (ht : s.thread c = some r) : Wakeful (s1.setCode c (push ++ k) (s.thread c)).view := by
  refine wakeful_waking hwake hinv hinv' rfl hcode hact hhold ht fun p w i hp hd hw hi => ?_
  rw [view_old ht hcode, waking_filter, waking_cons] at hw
  simp only [waking_filter, waking_append]
  rcases hw with he | hw
  case inr => exact ⟨i, .inr hw, hi⟩
  obtain ⟨rfl, rfl⟩ : chan = some (.proc p) ∧ j = i := by simpa using he
  have hlive := hd.live
  simp only [State.act] at hact
  split_ifs at hact with hj hme <;> cases hact
  · have hjr : r = j := Option.some.inj ((thread_eq_some ht).2.symm.trans hme)
    exact ⟨j + 1, .inl (by simp [Waking]), by omega⟩
  · exact ⟨j, .inl (by simp [Waking]), hi⟩
  · rw [view_proc] at hlive
    have := hfam.bound p hlive
    omega

/-- A call that sleeps on the channel is woken. A call still on its way to sleep has
the lock of its slot, so the loop cannot pass it. -/
theorem wakeful_wakeupLook {chan : Option Chan} {j : ℕ}
    (hcode : s.codeAt (s.cur c) = .act (.wakeupLook chan j) :: k)
    (hact : s.act c ch (.wakeupLook chan j) = some (s1, push)) (hhold : s.holder .wait = some c)
    (ht : s.thread c = some r) : Wakeful (s1.setCode c (push ++ k) (s.thread c)).view := by
  obtain ⟨R, hR, ⟨hj, -⟩, -⟩ := hinv.side hcode
  have hstep := holder_act hinv hinv' hcode hact hhold ht rfl (by simp)
  refine wakeful_waking hwake hinv hinv' rfl hcode hact hhold ht fun p w i hp hd hw hi => ?_
  rw [view_old ht hcode, waking_filter, waking_cons] at hw
  simp only [waking_filter, waking_append]
  rcases hw with he | hw
  case inr => exact ⟨i, .inr hw, hi⟩
  obtain ⟨rfl, rfl⟩ : chan = some (.proc p) ∧ j = i := by simpa using he
  obtain ⟨-, hd0⟩ := hstep.dozing hd
  obtain ⟨n, havekids, hscan⟩ := hd0.scan
  have hjp : j ≠ p := by
    rintro rfl
    have hme : s.thread c ≠ some j := fun he => hp (Option.some.inj (he.symm.trans ht))
    rcases hd.sleeps with hm | hs
    · have hok := hinv.sleepOk_of_locked hd0.live ((hR _).mpr hj) hme
      rw [(hstep.other j hp).1] at hm
      exact hd0.released (mem_view.mpr
        ⟨hok (mem_view.mp hm).1 ⟨w, n, havekids, scan_view.mp hscan⟩, rfl⟩)
    · rw [view_proc] at hs
      have hsl := (hinv.act_other hcode hact hme (by simp [hs])).2 hs
      have hchan := (hwake.sleeps j w n havekids hd0.live hscan).asleep hsl
      cases hact
      rw [if_pos ⟨hsl, hchan⟩, setProc_self] at hs
      simp at hs
  cases hact
  exact ⟨j + 1, .inl (by simp [Waking]), by omega⟩

end

/-- A scheduler that would run the loop of `wakeup` under `wait_lock` disturbs no call. -/
theorem outsider_sched (hinv : Inv s) (ha : a.isWakeup = true)
    (hcode : s.codeAt (s.cur c) = .act a :: k) (hact : s.act c ch a = some (s1, push))
    (hhold : s.holder .wait = some c) (ht : s.thread c = none) :
    Outsider none s.view (s1.setCode c (push ++ k) (s.thread c)).view := by
  have hloc : a.local = true := by cases a <;> simp_all [Act.isWakeup, Act.local]
  obtain ⟨hcpu, hco, hh⟩ := act_local hloc hact
  have hnone : s.waiter = none := by simp [State.waiter, hhold, ht]
  have hnone' : (s1.setCode c (push ++ k) (s.thread c)).waiter = none := by
    rw [State.waiter, setCode_holder, hh, hhold, ← ht]
    simp [State.thread, hcpu]
  constructor
  case waiter => exact hnone'.trans hnone.symm
  case holder => exact fun p hp => by simp [State.view, hnone] at hp
  case shrink =>
    exact hinv.act_shrinks hcode hact (by rintro p st rfl; simp [Act.isWakeup] at ha)
      (by rintro p i rfl; simp [Act.isWakeup] at ha)
  case other =>
    intro p _ hp
    have hme : s.thread c ≠ some p := by simp [ht]
    rw [view_proc] at hp
    rw [view_proc, view_code_other hme]
    rcases hinv.other_code hcode hact hp with ⟨hlive, hc⟩ | hc
    · exact .inr ⟨congrArg _ hc, hlive, hinv.act_other hcode hact hme hp⟩
    · exact .inl (by simp [State.view, hc, forkret, relevant, Act.protocol])
  case mine => simp

theorem Wakeful.act (h : Wakeful s.view) (hinv : Inv s) (hfam : Family s)
    (hinv' : Inv (s1.setCode c (push ++ k) (s.thread c)))
    (hcode : s.codeAt (s.cur c) = .act a :: k) (hact : s.act c ch a = some (s1, push)) :
    Wakeful (s1.setCode c (push ++ k) (s.thread c)).view := by
  by_cases hhold : s.holder .wait = some c
  case neg => exact h.outsider (outsider_act hinv h hcode hact hhold)
  by_cases ha : a.isWakeup = true
  · cases ht : s.thread c with
    | none => exact ht ▸ h.outsider (outsider_sched hinv ha hcode hact hhold ht)
    | some r =>
      cases a <;> simp only [Act.isWakeup, Bool.false_eq_true] at ha
      · exact ht ▸ wakeful_wakeup h hinv hinv' hfam hcode hact hhold ht
      · exact ht ▸ wakeful_wakeupLook h hinv hinv' hcode hact hhold ht
  · obtain ⟨R, hR, hside, -⟩ := hinv.side hcode
    have hwait := (hR _).mp hhold
    cases a with
    | scan => exact wakeful_scan h hinv hinv' hcode hact
    | look => exact wakeful_look h hinv hinv' hcode hact
    | readKilled => exact wakeful_readKilled h hinv hinv' hcode hact
    | setParent => exact wakeful_setParent h hinv hinv' hcode hact
    | reparent => exact wakeful_reparent h hinv hinv' hcode hact
    | wakeupParent => exact wakeful_wakeupParent h hinv hinv' hcode hact
    | setZombie => exact wakeful_setZombie h hinv hinv' hcode hact
    | wakeup | wakeupLook => simp [Act.isWakeup] at ha
    | schedScan i best | schedLook i best =>
      cases best <;> simp_all [Act.Side]
    | _ => simp_all [Act.Side]

/-! ## Steps that are not actions -/

theorem setCode_thread (t : Option ℕ) (c' : C) : (s.setCode c k t).thread c' = s.thread c' := by
  by_cases hc : c' = c
  · subst hc; simp [State.thread]
  · simp [State.thread, setCode_cpu_of_ne _ _ _ _ hc]

theorem view_quiet (s s1 : State C) (hproc : s1.proc = s.proc) (hcodes : s1.code = s.code)
    (hth : ∀ c', s1.thread c' = s.thread c') (hh : s1.holder .wait = s.holder .wait)
    (hk : k.filter relevant = (s.codeAt (s.cur c)).filter relevant) :
    (s1.setCode c k (s.thread c)).view = s.view := by
  have hcode : ∀ p, (s1.setCode c k (s.thread c)).view.code p = s.view.code p := by
    intro p
    by_cases ht : s.thread c = some p
    · rw [view_code_self _ _ ht, hk, view_old ht rfl]
    · rw [view_code_other ht]
      exact congrArg _ (congrFun hcodes p)
  have hwait : (s1.setCode c k (s.thread c)).waiter = s.waiter := by
    simp only [State.waiter, setCode_holder, hh]
    congr 1
    funext c'
    rw [setCode_thread, hth]
  exact View.ext ((setCode_proc _ _ _ _).trans hproc) hwait (funext hcode)

theorem Wakeful.acquire_wait {v v' : View} (h : Wakeful v) (hproc : v'.proc = v.proc)
    (hcode : v'.code = v.code) (hfree : v.waiter = none)
    (hout : ∀ p, v'.waiter = some p → Outside (v.code p)) : Wakeful v' := by
  obtain ⟨proc, waiter, code⟩ := v'
  obtain rfl : proc = v.proc := hproc
  obtain rfl : code = v.code := hcode
  constructor
  case seen =>
    intro p hp
    obtain ⟨hmid, -, hscan⟩ := hout p hp
    constructor
    · intro w i b hm j hj
      have := hmid _ hm
      simp only [Act.midWait, bne_eq_false_iff_eq] at this
      omega
    · exact fun w i hm => by simpa [Act.midWait] using hmid _ hm
    · exact fun w hm => by simpa [Act.midWait] using hmid _ hm
    · exact fun w i b hm hw => absurd hw (hscan _ _ _ _ hm)
  case wake =>
    intro p w q hd hacc hz
    obtain ⟨r, i, hr, -⟩ := h.wake p w q ⟨hd.live, hd.scan, hd.released, hd.sleeps⟩ hacc hz
    simp [hfree] at hr
  case exiting => exact fun r p w status hr hz hw => absurd ((hout r hr).exit _ _ hz) hw
  case sleeps =>
    intro p w i b hlive hscan
    obtain ⟨h1, h2, h3⟩ := h.sleeps p w i b hlive hscan
    exact ⟨h1, h2, h3⟩

/-- A process that gives `wait_lock` back has woken everyone it has to, and if it goes
to sleep it has found no child to reap. -/
theorem Wakeful.release_wait {v v' : View} {r : ℕ} (h : Wakeful v) (hproc : v'.proc = v.proc)
    (hother : ∀ p ≠ r, v'.code p = v.code p) (hmine : v.code r = .release .wait :: v'.code r)
    (hr : v.waiter = some r) (hfree : v'.waiter = none) (hout : Outside (v'.code r))
    (hbound : ∀ q, (v.proc q).state ≠ .unused → q < nproc) : Wakeful v' := by
  have hmem : ∀ p (b : Act), .act b ∈ v'.code p ↔ .act b ∈ v.code p := by
    intro p b
    by_cases hp : p = r
    · subst hp; simp [hmine]
    · rw [hother p hp]
  constructor
  case seen => simp [hfree]
  case exiting => simp [hfree]
  case wake =>
    intro p w q hd hacc hz
    rw [hproc] at hacc hz
    obtain ⟨i, havekids, hscan⟩ := hd.scan
    by_cases hp : p = r
    · subst hp
      have hclear := (h.seen p hr).sleep w i havekids ((hmem _ _).mp hscan) (by simp [hmine])
      exact absurd hz (hclear q (hbound q (by simp [hz])) hacc)
    · obtain ⟨r', j, hr', hw, -⟩ := h.wake p w q ⟨hproc ▸ hd.live, ⟨i, havekids, (hmem _ _).mp hscan⟩,
        hother p hp ▸ hd.released, hproc ▸ hd.sleeps.imp (hmem _ _).mp id⟩ hacc hz
      obtain rfl : r = r' := Option.some.inj (hr.symm.trans hr')
      rcases hw with hm | hm <;>
        simpa [Act.midWait, wakesProc] using hout.mid _ ((hmem _ _).mpr hm)
  case sleeps =>
    intro p w i b hlive hscan
    rw [hproc] at hlive
    obtain ⟨h1, h2, h3⟩ := h.sleeps p w i b hlive ((hmem _ _).mp hscan)
    constructor
    · rw [hproc]; exact h1
    · simpa only [hproc, hmem] using h2
    · simpa only [hmem] using h3

theorem Outside.filter (h : Outside k) : Outside (k.filter relevant) where
  mid a ha := h.mid a (List.mem_filter.mp ha).1
  exit p status hz :=
    List.mem_filter.mpr ⟨h.exit p status (List.mem_filter.mp hz).1, rfl⟩
  scan p w i havekids hm hw :=
    h.scan p w i havekids (List.mem_filter.mp hm).1 (List.mem_filter.mp hw).1

theorem acquire_thread (lk : Lock) (c' : C) : (s.acquire c lk).thread c' = s.thread c' := by
  by_cases hc : c' = c <;> simp [State.thread, State.acquire, State.setCpu, hc]

theorem release_thread (lk : Lock) (c' : C) : (s.release c lk).thread c' = s.thread c' := by
  by_cases hc : c' = c <;> simp [State.thread, State.release, State.setCpu, hc]

theorem Wakeful.acquire (h : Wakeful s.view) (hinv : Inv s) {lk : Lock}
    (hcode : s.codeAt (s.cur c) = .acquire lk :: k) (hfree : s.holder lk = none) :
    Wakeful ((s.acquire c lk).setCode c k (s.thread c)).view := by
  have hk : k.filter relevant = (s.codeAt (s.cur c)).filter relevant := by rw [hcode]; rfl
  by_cases hlk : lk = .wait
  case neg =>
    have hh : (s.acquire c lk).holder .wait = s.holder .wait :=
      Function.update_of_ne (Ne.symm hlk) _ _
    rwa [view_quiet s (s.acquire c lk) rfl rfl (acquire_thread lk) hh hk]
  subst hlk
  refine h.acquire_wait (setCode_proc _ _ _ _) (funext fun p => ?_) ?_ fun p hp => ?_
  · by_cases ht : s.thread c = some p
    · rw [view_code_self _ _ ht, hk, view_old ht rfl]
    · rw [view_code_other ht]; rfl
  · simp [State.view, State.waiter, hfree]
  · have ht : s.thread c = some p := by
      obtain ⟨c', hc', ht'⟩ := waiter_eq_some.mp hp
      rw [setCode_thread, acquire_thread] at ht'
      obtain rfl : c = c' := by simpa [State.acquire, State.setCpu] using hc'
      exact ht'
    obtain ⟨R, -, -, hty⟩ := hinv.typed c
    rw [hcode] at hty
    rw [view_old ht rfl, ← hk]
    exact (hty.1.2.2.2 rfl).filter

theorem Wakeful.release (h : Wakeful s.view) (hinv : Inv s) (hfam : Family s) {lk : Lock}
    (hcode : s.codeAt (s.cur c) = .release lk :: k) (hown : s.holder lk = some c) :
    Wakeful ((s.release c lk).setCode c k (s.thread c)).view := by
  by_cases hlk : lk = .wait
  case neg =>
    have hh : (s.release c lk).holder .wait = s.holder .wait :=
      Function.update_of_ne (Ne.symm hlk) _ _
    have hk : k.filter relevant = (s.codeAt (s.cur c)).filter relevant := by
      rw [hcode]
      cases lk with
      | wait => exact absurd rfl hlk
      | _ => rfl
    rwa [view_quiet s (s.release c lk) rfl rfl (release_thread lk) hh hk]
  subst hlk
  have hfree : ((s.release c .wait).setCode c k (s.thread c)).waiter = none := by
    simp [State.waiter, State.release, State.setCpu]
  have hother : ∀ p, s.thread c ≠ some p →
      ((s.release c .wait).setCode c k (s.thread c)).view.code p = s.view.code p :=
    fun p hp => view_code_other hp
  cases ht : s.thread c with
  | none =>
    -- no process has `wait_lock`, before or after
    have hnone : s.waiter = none := by simp [State.waiter, hown, ht]
    have hview : ((s.release c .wait).setCode c k (s.thread c)).view = s.view :=
      View.ext (setCode_proc _ _ _ _) (hfree.trans hnone.symm)
        (funext fun p => hother p (by simp [ht]))
    rwa [← ht, hview]
  | some r =>
    rw [← ht]
    refine h.release_wait (r := r) (setCode_proc _ _ _ _)
      (fun p hp => hother p fun he => hp (Option.some.inj (he.symm.trans ht))) ?_
      (waiter_eq_some.mpr ⟨c, hown, ht⟩) hfree ?_ hfam.bound
    · rw [view_code_self _ _ ht, view_old ht hcode]; rfl
    · obtain ⟨R, -, -, hty⟩ := hinv.typed c
      rw [hcode] at hty
      rw [view_code_self _ _ ht]
      exact (outside_of_typed hty.2.2 (by simp)).filter

theorem Wakeful.step (h : Wakeful s.view) (hinv : Inv s) (hfam : Family s) {l : Label C}
    (hstep : Sched.step s l = some s') : Wakeful s'.view := by
  have hinv' := hinv.step hstep
  cases step_inv hstep with
  | timer p hch ht hn =>
    rwa [view_quiet s s rfl rfl (fun _ => rfl) rfl (by rw [List.filter_append]; rfl)]
  | device n chan hch hn =>
    rwa [view_quiet s s rfl rfl (fun _ => rfl) rfl (by rw [List.filter_append]; rfl)]
  | acquire lk k hcode hfree => exact h.acquire hinv hcode hfree
  | release lk k hcode hown => exact h.release hinv hfam hcode hown
  | act a k s1 push hch hcode hact => exact h.act hinv hfam hinv' hcode hact

omit [DecidableEq C] in
theorem wakeful_boot : Wakeful (boot : State C).view := by
  have hcode : ∀ p, (boot : State C).view.code p = [] := by
    intro p
    by_cases h : p = initproc <;> simp [State.view, boot, h, forkret, relevant, Act.protocol]
  constructor
  · simp [State.view, State.waiter, boot]
  · rintro p w q ⟨-, ⟨i, b, hm⟩, -, -⟩
    simp [hcode] at hm
  · simp [State.view, State.waiter, boot]
  · intro p w i b _ hm
    simp [hcode] at hm

end Xv6.Sched
