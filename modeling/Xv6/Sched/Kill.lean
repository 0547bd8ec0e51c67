import Xv6.Sched.Pids

/-!
# `kkill`

`kkill` compares the id of every slot, also of those not in use, whose id is 0. As long as
nobody calls it with 0 it finds only processes: a slot that is not in use and has an id
already is locked by the process that allocates it.
-/

namespace Xv6.Sched

open LockCode Runs Function

/-- What `kkill` does to the slot that it has found. -/
def Proc.kill (q : Proc) : Proc :=
  { q with
    killed := true
    state := if q.state = .sleeping then .runnable else q.state }

/-- The loop of `kkill` over these slots, when nobody interferes. -/
def kkillLoop (proc : ℕ → Proc) (pid : ℤ) : List ℕ → ℤ × (ℕ → Proc)
  | [] => (-1, proc)
  | i :: rest =>
    if (proc i).pid = pid then (0, update proc i (proc i).kill)
    else kkillLoop proc pid rest

/-- The result of `kkill` and the new process table. -/
def kkill (proc : ℕ → Proc) (pid : ℤ) : ℤ × (ℕ → Proc) :=
  kkillLoop proc pid (List.range nproc)

section

variable {proc : ℕ → Proc} {pid : ℤ}

theorem kkillLoop_cases (proc : ℕ → Proc) (pid : ℤ) (is : List ℕ) :
    (∃ i ∈ is, (proc i).pid = pid ∧
      kkillLoop proc pid is = (0, update proc i (proc i).kill)) ∨
    (∀ i ∈ is, (proc i).pid ≠ pid) ∧ kkillLoop proc pid is = (-1, proc) := by
  induction is with
  | nil => exact .inr ⟨nofun, rfl⟩
  | cons i is ih =>
    rw [kkillLoop]
    by_cases hi : (proc i).pid = pid
    · rw [if_pos hi]
      exact .inl ⟨i, List.mem_cons_self .., hi, rfl⟩
    · rw [if_neg hi]
      rcases ih with ⟨j, hj, hpid, he⟩ | ⟨hnone, he⟩
      · exact .inl ⟨j, List.mem_cons_of_mem _ hj, hpid, he⟩
      · refine .inr ⟨fun j hj => ?_, he⟩
        rcases List.mem_cons.mp hj with rfl | hj
        · exact hi
        · exact hnone j hj

end

variable {C : Type} [DecidableEq C] {s s1 s' : State C} {c : C} {ch : Choice} {a b : Act}
  {push k : Code}

/-! ## The call computes the loop -/

section

variable {p : ℕ} {P : ℕ → Proc} {H : Lock → Option C} {n : ℤ}

theorem kkill_leads (pid : ℤ) (m i : ℕ) (hm : i + m = nproc) (hfree : ∀ j, H (.proc j) = none) :
    Leads c p P H n (.act (.kkill pid i) :: k) (kkillLoop P pid (List.range' i m)).2 H n k := by
  induction m generalizing i with
  | zero =>
    refine leads_still .go [] rfl fun s _ => ?_
    simp [State.act, show ¬ i < nproc by omega]
  | succ m ih =>
    have hscan : Leads c p P H n (.act (.kkill pid i) :: k) P H n
        (.acquire (.proc i) :: .act (.kkillLook pid i) :: k) :=
      leads_still .go [.acquire (.proc i), .act (.kkillLook pid i)] rfl fun s _ => by
        simp [State.act, show i < nproc by omega]
    refine hscan.trans ?_
    rw [List.range'_succ, kkillLoop]
    split
    · rename_i hpid
      refine leads_locked (hfree i) (leads_act .go [.release (.proc i)] rfl fun s hs => ?_)
      refine ⟨_, if_pos (by rw [hs.proc]; exact hpid), rfl, ?_, hs.holder, hs.nextpid⟩
      rw [State.setProc, hs.proc]
      rfl
    · rename_i hpid
      refine Leads.trans (leads_locked (hfree i) (leads_still .go
        [.release (.proc i), .act (.kkill pid (i + 1))] rfl fun s hs => ?_)) (ih (i + 1) (by omega))
      exact if_neg (by rw [hs.proc]; exact hpid)

/-- A process in user space that calls `kkill` while the locks of all slots are free, and is
not interfered with, does what the function says. -/
theorem kkill_alone (pid : ℤ) (hs : At c p s P H n [.act (.user p)])
    (hfree : ∀ j, H (.proc j) = none) :
    ∃ t, Solo c s t ∧ At c p t (kkill P pid).2 H n [.act (.user p)] := by
  have hcall : Leads c p P H n [.act (.user p)] P H n [.act (.kkill pid 0), .act (.user p)] :=
    leads_still (.call (.kkill pid)) [.act (.kkill pid 0), .act (.user p)] rfl fun s _ => rfl
  have hloop := kkill_leads (c := c) (p := p) (P := P) (n := n) (k := [.act (.user p)]) pid
    nproc 0 (Nat.zero_add _) hfree
  rw [← List.range_eq_range'] at hloop
  exact hcall.trans hloop s hs

end

/-! ## Slots that are not in use -/

theorem act_killed (hact : s.act c ch a = some (s1, push)) (j : ℕ) :
    (s1.proc j).killed = (s.proc j).killed ∨ (s1.proc j).killed = false ∨
      ∃ pid, a = .kkillLook pid j ∧ (s.proc j).pid = pid := by
  by_cases hj : a.slot = some j
  case neg => rw [act_slot hact hj]; exact .inl rfl
  cases a <;> simp only [Act.slot, Option.some.injEq, reduceCtorEq] at hj <;> subst hj
  case wakeupLook chan i =>
    simp only [State.act] at hact
    cases hact
    refine .inl ?_
    split_ifs <;> simp
  case kkillLook pid i =>
    simp only [State.act] at hact
    split_ifs at hact with hpid <;> cases hact
    · exact .inr (.inr ⟨pid, rfl, hpid⟩)
    · exact .inl rfl
  case allocprocFound p kind i =>
    cases ch <;> simp only [State.act, reduceCtorEq] at hact <;>
      cases hact
    · exact .inl (by simp [State.setProc])
    · exact .inr (.inl (by simp [freeproc]))
    · exact .inl rfl
  case look p w i =>
    simp only [State.act] at hact
    split_ifs at hact <;> cases hact
    · exact .inl rfl
    · exact .inl rfl
    · exact .inr (.inl (by simp [freeproc]))
    · exact .inl rfl
  case setpriorityLook | reparent =>
    simp only [State.act] at hact
    split_ifs at hact <;> cases hact <;>
      exact .inl (by simp)
  case schedSwtch b =>
    cases hact
    exact .inl (by simp [State.setCpu, State.setProc])
  all_goals
    cases hact
    exact .inl (by simp)

/-- The kills that a thread has still to make. -/
def Act.kills : Act → Option ℤ
  | .kkill pid _ | .kkillLook pid _ => some pid
  | _ => none

def Code.noKill (k : Code) : Bool := k.all fun x => match x with
  | .act a => a.kills.isNone
  | _ => true

theorem kills_push (hact : s.act c ch a = some (s1, push)) {pid : ℤ} (hb : .act b ∈ push)
    (hk : b.kills = some pid) : a.kills = some pid ∨ ch = .call (.kkill pid) := by
  have hno : Code.noKill push = true → False := by
    intro hall
    have hx := List.all_eq_true.mp hall _ hb
    simp [hk] at hx
  cases a with
  | user p =>
    cases ch <;> simp only [State.act, Option.map_eq_some_iff, reduceCtorEq] at hact
    obtain ⟨code, hcode, he⟩ := hact
    rename_i call
    cases call with
    | kkill pid' =>
      cases he
      cases hcode
      simp only [List.mem_cons, Cmd.act.injEq, List.not_mem_nil, or_false] at hb
      rcases hb with rfl | rfl
      · cases hk
        exact .inr rfl
      · cases hk
    | setpriority | kexit | kthreadExit =>
      cases he
      simp only [Call.code] at hcode
      split_ifs at hcode <;> cases hcode <;> exact (hno rfl).elim
    | _ =>
      cases he
      cases hcode
      exact (hno rfl).elim
  | kkill pid' i | kkillLook pid' i =>
    simp only [State.act] at hact
    split_ifs at hact <;> cases hact <;> simp at hb
    all_goals
      subst hb
      exact .inl hk
  | allocprocFound p kind i | critical p n =>
    cases ch <;> simp only [State.act, reduceCtorEq] at hact <;>
      cases hact <;> exact (hno rfl).elim
  | schedScan i best | schedLook i best =>
    cases best <;> simp only [State.act] at hact <;> split_ifs at hact <;>
      cases hact <;> exact (hno rfl).elim
  | zombieExit p => simp [State.act] at hact
  | ret | killed | wakeupParent | schedBack | setState | setZombie | setChan | allocpid
  | setRunnable | schedSwtch | setParent | wakeupLook =>
    cases hact
    exact (hno rfl).elim
  | _ =>
    simp only [State.act] at hact
    split_ifs at hact <;> cases hact <;>
      exact (hno rfl).elim

theorem act_sched (hact : s.act c ch a = some (s1, push)) (c' : C) :
    s1.codeAt (.inr c') = s.codeAt (.inr c') := by
  have hset : ∀ (s : State C) (f : Cpu → Cpu), (f (s.cpu c)).sched = (s.cpu c).sched →
      (s.setCpu c f).codeAt (.inr c') = s.codeAt (.inr c') := by
    intro s f hf
    by_cases hc : c' = c
    · subst hc
      simpa [State.codeAt, State.setCpu] using hf
    · simp [State.codeAt, State.setCpu, hc]
  by_cases hloc : a.local = true
  · rw [State.codeAt, (act_local hloc hact).1, State.codeAt]
  · cases a <;> simp only [Act.local, not_true_eq_false] at hloc
    case swtch q =>
      simp only [State.act] at hact
      split_ifs at hact
      cases hact
      exact hset s _ rfl
    case schedSwtch | schedBack =>
      cases hact
      exact hset _ _ rfl
    case allocprocFound q kind i =>
      cases ch <;> simp only [State.act, reduceCtorEq] at hact <;>
        cases hact <;> rfl

structure Clean (s : State C) : Prop where
  killed : ∀ i, (s.proc i).state = .unused → (s.proc i).killed = false
  /-- Only a slot that is being allocated has an id and is not in use. -/
  alloc : ∀ i, (s.proc i).state = .unused → (s.proc i).pid ≠ 0 → ∃ q p kind,
    (s.proc q).state ≠ .unused ∧ .act (.allocprocFound p kind i) ∈ s.code q
  calls : ∀ t b pid, .act b ∈ s.codeAt t → b.kills = some pid → pid ≠ 0

omit [DecidableEq C] in
theorem Inv.alloc_held (h : Inv s) {q p i : ℕ} {kind : Spawn} (hq : (s.proc q).state ≠ .unused)
    (hm : .act (.allocprocFound p kind i) ∈ s.code q) :
    ∃ c, s.holder (.proc i) = some c ∧ s.thread c = some q := by
  obtain ⟨c, hc, ht | ⟨hr, -⟩⟩ := h.promise_held (t := .inl q)
    (fun _ he => by cases he; exact hq) (mem_promise_alloc hm) nofun
  · refine ⟨c, hc, ?_⟩
    cases hthread : s.thread c with
    | none => simp [State.cur, tid, hthread] at ht
    | some r =>
      rw [cur_of_thread hthread] at ht
      cases ht
      rfl
  · cases hr

omit [DecidableEq C] in
/-- A kill finds a process: it holds the lock of the slot, so nobody allocates it. -/
theorem Clean.found (h : Clean s) (hinv : Inv s) {i : ℕ} {pid : ℤ}
    (hcode : s.codeAt (s.cur c) = .act (.kkillLook pid i) :: k) (hpid : (s.proc i).pid = pid) :
    (s.proc i).state ≠ .unused := by
  intro hu
  have hne : pid ≠ 0 := h.calls (s.cur c) _ pid (by rw [hcode]; exact List.mem_cons_self ..) rfl
  obtain ⟨q, p, kind, hq, hm⟩ := h.alloc i hu (by rw [hpid]; exact hne)
  obtain ⟨c', hc', ht⟩ := hinv.alloc_held hq hm
  obtain ⟨R, hR, rfl, hty⟩ := hinv.side hcode
  obtain rfl : c' = c := Option.some.inj (hc'.symm.trans ((hR (.proc i)).mpr (by simp)))
  rw [cur_of_thread ht] at hcode
  rw [show s.code q = _ from hcode] at hm
  simp only [List.mem_cons, Cmd.act.injEq, reduceCtorEq, false_or] at hm
  have hlock := mem_of_promise hty (mem_promise_alloc hm) nofun
  simp [Act.frees] at hlock

theorem Inv.alloc_live (h : Inv s) (hcode : s.codeAt (s.cur c) = .act a :: k)
    (hact : s.act c ch a = some (s1, push)) {q p i : ℕ} {kind : Spawn}
    (hq : (s.proc q).state ≠ .unused) (hm : .act (.allocprocFound p kind i) ∈ s.code q) :
    (s1.proc q).state ≠ .unused := by
  intro hu
  rcases (hu ▸ h.act_change hcode hact q).to_unused with hs | ⟨r, w, rfl, hz⟩
  · exact hq hs
  -- the zombie would have to be on a CPU that holds its lock, as the reaper does
  obtain ⟨c', -, ht'⟩ := h.alloc_held hq hm
  have hlock : s.holder (.proc q) = some c' :=
    h.holder_of_off (thread_eq_some ht').2 (by rw [hz]; nofun)
  obtain ⟨R, hR, ⟨ht, rfl⟩, -⟩ := h.side hcode
  obtain rfl : c' = c := Option.some.inj (hlock.symm.trans ((hR (.proc q)).mpr (by simp)))
  have hrun := h.running_of_act ht' hcode nofun
  rw [hrun] at hz
  cases hz

section

variable (h : Clean s) (hinv : Inv s) (hcode : s.codeAt (s.cur c) = .act a :: k)
  (hact : s.act c ch a = some (s1, push))

include h hinv hcode hact in
theorem Clean.act_killed {i : ℕ} (hi : (s1.proc i).state = .unused) :
    (s1.proc i).killed = false := by
  rcases Sched.act_killed hact i with he | he | ⟨pid, rfl, hpid⟩
  · rcases (hi ▸ hinv.act_change hcode hact i).to_unused with hu | ⟨p, w, rfl, hz⟩
    · rw [he]; exact h.killed i hu
    · simp only [State.act, if_pos hz] at hact
      split_ifs at hact <;> cases hact
      · rw [hz] at hi; cases hi
      · rw [hz] at hi; cases hi
      · simp [freeproc]
  · exact he
  · rcases (hi ▸ hinv.act_change hcode hact i).to_unused with hu | ⟨p, w, he, -⟩
    · exact absurd hu (h.found hinv hcode hpid)
    · cases he

include h hinv hcode hact in
theorem Clean.act_alloc {i : ℕ} (hi : (s1.proc i).state = .unused) (hpid : (s1.proc i).pid ≠ 0) :
    ∃ q p kind, (s1.proc q).state ≠ .unused ∧
      .act (.allocprocFound p kind i) ∈ (s1.setCode c (push ++ k) (s.thread c)).code q := by
  by_cases ha : a = .allocpid i
  · subst ha
    obtain ⟨R, -, -, hty⟩ := hinv.typed c
    rw [hcode] at hty
    obtain ⟨p, kind, hm⟩ := hty.1.2.2
    obtain ⟨R', ht, -⟩ := side_of_mem hty.2 hm
    refine ⟨p, p, kind, hinv.act_live hcode hact ht, ?_⟩
    rw [setCode_code, if_pos ht]
    exact List.mem_append_right _ hm
  · have hold : (s.proc i).state = .unused ∧ (s.proc i).pid ≠ 0 := by
      have hsame : (s1.proc i).pid = (s.proc i).pid := by
        cases Sched.act_pid hact i with
        | same _ he => exact he
        | given => exact absurd rfl ha
        | reaped _ _ _ _ he => exact absurd he hpid
        | failed _ _ _ _ he => exact absurd he hpid
      refine ⟨?_, by rw [← hsame]; exact hpid⟩
      rcases (hi ▸ hinv.act_change hcode hact i).to_unused with hu | ⟨p, w, rfl, hz⟩
      · exact hu
      · simp only [State.act, if_pos hz] at hact
        split_ifs at hact <;> cases hact
        · rw [hz] at hi; cases hi
        · rw [hz] at hi; cases hi
        · simp [freeproc] at hpid
    obtain ⟨q, p, kind, hq, hm⟩ := h.alloc i hold.1 hold.2
    refine ⟨q, p, kind, hinv.alloc_live hcode hact hq hm, ?_⟩
    rw [setCode_code]
    split_ifs with ht
    · rw [cur_of_thread ht] at hcode
      rw [show s.code q = _ from hcode] at hm
      rcases List.mem_cons.mp hm with he | hm
      · -- the allocation ends, or looks at another key
        cases he
        cases ch <;> simp only [State.act, reduceCtorEq] at hact <;>
          cases hact
        · simp at hi
        · simp [freeproc] at hpid
        · simp
      · exact List.mem_append_right _ hm
    · rcases act_code hact q with hc | ⟨⟨r, kind', rfl⟩, -⟩
      · rw [hc]; exact hm
      · have hu := hinv.kept (s.cur c) q .unused (hinv.live_cur c)
          (mem_promise_alloc (by rw [hcode]; exact List.mem_cons_self ..))
        exact absurd hu hq

include h hcode hact in
theorem Clean.act_calls (hch : ch ≠ .call (.kkill 0)) {t : ℕ ⊕ C} {pid : ℤ}
    (hb : .act b ∈ (s1.setCode c (push ++ k) (s.thread c)).codeAt t)
    (hk : b.kills = some pid) : pid ≠ 0 := by
  by_cases ht : t = s.cur c
  · subst ht
    rw [show (s1.setCode c (push ++ k) (s.thread c)).codeAt (s.cur c) = push ++ k from
      setCode_codeAt ..] at hb
    rcases List.mem_append.mp hb with hb | hb
    · rcases kills_push hact hb hk with ha | rfl
      · exact h.calls (s.cur c) a pid (by rw [hcode]; exact List.mem_cons_self ..) ha
      · rintro rfl
        exact hch rfl
    · exact h.calls (s.cur c) b pid (by rw [hcode]; exact List.mem_cons_of_mem _ hb) hk
  · rw [setCode_codeAt_of_ne _ _ _ _ ht] at hb
    cases t with
    | inl p =>
      rcases act_code hact p with hc | ⟨-, hc⟩
      · rw [show s1.codeAt (.inl p) = s.codeAt (.inl p) from hc] at hb
        exact h.calls (.inl p) b pid hb hk
      · rw [show s1.codeAt (.inl p) = forkret p from hc] at hb
        simp only [forkret, List.mem_cons, reduceCtorEq, Cmd.act.injEq, List.not_mem_nil, or_false,
          false_or] at hb
        subst hb
        cases hk
    | inr c' => exact h.calls (.inr c') b pid (act_sched hact c' ▸ hb) hk

include h hinv hcode hact in
theorem Clean.act (hch : ch ≠ .call (.kkill 0)) :
    Clean (s1.setCode c (push ++ k) (s.thread c)) := by
  have hproc : (s1.setCode c (push ++ k) (s.thread c)).proc = s1.proc := setCode_proc _ _ _ _
  constructor
  · rw [hproc]
    exact fun i hi => h.act_killed hinv hcode hact hi
  · rw [hproc]
    exact fun i hi hpid => h.act_alloc hinv hcode hact hi hpid
  · exact fun t b pid hb hk => h.act_calls hcode hact hch hb hk

end

theorem Clean.step (h : Clean s) (hinv : Inv s) {l : Label C} (hl : l.choice ≠ .call (.kkill 0))
    (hstep : Sched.step s l = some s') : Clean s' := by
  rcases step_life hstep with ⟨a, k, s1, push, hcode, hact, rfl⟩ | ⟨hp, -, hc⟩
  · exact h.act hinv hcode hact hl
  · constructor
    · rw [hp]; exact h.killed
    · rw [hp]
      intro i hi hpid
      obtain ⟨q, p, kind, hq, hm⟩ := h.alloc i hi hpid
      exact ⟨q, p, kind, hq, (hc (.inl q) _ rfl).mpr hm⟩
    · intro t b pid hb hk
      have hno : b.handler = false := by
        cases b <;> first | rfl | cases hk
      exact h.calls t b pid ((hc t b hno).mp hb) hk

omit [DecidableEq C] in
theorem clean_boot : Clean (boot : State C) := by
  have hproc : ∀ i, i ≠ initproc → (boot : State C).proc i = unusedProc := by
    intro i hi
    simp [boot, hi]
  constructor
  · intro i hi
    by_cases hi0 : i = initproc
    · rw [hi0]; rfl
    · rw [hproc i hi0]; rfl
  · intro i hi hpid
    by_cases hi0 : i = initproc
    · rw [hi0] at hi; cases hi
    · rw [hproc i hi0] at hpid
      exact absurd rfl hpid
  · intro t b pid hb hk
    cases t with
    | inl p =>
      by_cases hp : p = initproc
      · subst hp
        simp [State.codeAt, boot, forkret] at hb
        subst hb
        cases hk
      · simp [State.codeAt, boot, hp] at hb
    | inr c =>
      simp [State.codeAt, boot, scheduler] at hb
      subst hb
      cases hk

theorem clean_run {ls : List (Label C)}
    (hcalls : Along step (fun _ l => l.choice ≠ .call (.kkill 0)) boot ls)
    (hrun : exec step boot ls = some s) : Clean s :=
  exec_along (I := fun _ s => Clean s) clean_boot
    (fun _ _ _ _ hprev h hl hstep => h.step (inv_run hprev) hl hstep) ls hcalls hrun

/-! ## The results -/

/-- A slot that comes into use belongs to a process that is not killed. -/
theorem Clean.created (h : Clean s) (hinv : Inv s) {l : Label C}
    (hstep : Sched.step s l = some s') {i : ℕ} (hi : (s.proc i).state = .unused)
    (hi' : (s'.proc i).state ≠ .unused) : (s'.proc i).killed = false := by
  rcases step_life hstep with ⟨a, k, s1, push, hcode, hact, rfl⟩ | ⟨hp, -⟩
  · rw [setCode_proc] at hi' ⊢
    rcases (hi ▸ hinv.act_change hcode hact i).of_unused with he | ⟨p, kind, rfl, -⟩
    · exact absurd he hi'
    · rcases Sched.act_killed hact i with he | he | ⟨pid, ha, -⟩
      · rw [he]; exact h.killed i hi
      · exact he
      · cases ha
  · rw [hp] at hi'
    exact absurd hi hi'

theorem Clean.look (h : Clean s) (hinv : Inv s) {i : ℕ} {pid : ℤ}
    (hcode : s.codeAt (s.cur c) = .act (.kkillLook pid i) :: k)
    (hstep : Sched.step s ⟨c, .go⟩ = some s') :
    ((s.proc i).pid = pid → (s.proc i).state ≠ .unused ∧
      s'.proc = update s.proc i (s.proc i).kill ∧
      s'.codeAt (s.cur c) = .release (.proc i) :: k) ∧
    ((s.proc i).pid ≠ pid → s'.proc = s.proc ∧
      s'.codeAt (s.cur c) = .release (.proc i) :: .act (.kkill pid (i + 1)) :: k) := by
  rw [step_command rfl, State.command, codeOf_eq_codeAt,
    show s.codeAt (tid c (s.thread c)) = _ from hcode] at hstep
  simp only [State.act] at hstep
  constructor
  · intro hpid
    rw [if_pos hpid] at hstep
    cases hstep
    refine ⟨h.found hinv hcode hpid, ?_, setCode_codeAt ..⟩
    rw [setCode_proc]
    rfl
  · intro hpid
    rw [if_neg hpid] at hstep
    cases hstep
    exact ⟨setCode_proc .., setCode_codeAt ..⟩

omit [DecidableEq C] in
theorem Clean.call (h : Clean s) (hinv : Inv s) (hfam : Family s)
    (hfree : ∀ i, s.holder (.proc i) = none) {pid : ℤ} (hpid : pid ≠ 0) :
    (∃ i, (s.proc i).state ≠ .unused ∧ (s.proc i).pid = pid ∧
      kkill s.proc pid = (0, update s.proc i (s.proc i).kill)) ∨
    (∀ i, (s.proc i).state ≠ .unused → (s.proc i).pid ≠ pid) ∧
      kkill s.proc pid = (-1, s.proc) := by
  rcases kkillLoop_cases s.proc pid (List.range nproc) with ⟨i, -, hi, he⟩ | ⟨hnone, he⟩
  · refine .inl ⟨i, fun hu => ?_, hi, he⟩
    obtain ⟨q, p, kind, hq, hm⟩ := h.alloc i hu (by rw [hi]; exact hpid)
    obtain ⟨c, hc, -⟩ := hinv.alloc_held hq hm
    rw [hfree i] at hc
    cases hc
  · exact .inr ⟨fun i hi => hnone i (List.mem_range.mpr (hfam.bound i hi)), he⟩

/-- In every run without a call `kkill(0)`: a process that is created is not killed; a look
at a slot kills the process in it if it has the id, and changes nothing else; and a call
that nobody interferes with returns 0 if and only if some process has the id, kills one
process that has it, and otherwise returns -1 and changes nothing. -/
theorem kill_exact (ls : List (Label C)) (s : State C)
    (hcalls : Along step (fun _ l => l.choice ≠ .call (.kkill 0)) boot ls)
    (hrun : exec step boot ls = some s) :
    (∀ l s' i, step s l = some s' → (s.proc i).state = .unused → (s'.proc i).state ≠ .unused →
      (s'.proc i).killed = false) ∧
    (∀ c pid i k s', s.codeAt (s.cur c) = .act (.kkillLook pid i) :: k →
      step s ⟨c, .go⟩ = some s' →
      ((s.proc i).pid = pid → (s.proc i).state ≠ .unused ∧
        s'.proc = update s.proc i (s.proc i).kill ∧
        s'.codeAt (s.cur c) = .release (.proc i) :: k) ∧
      ((s.proc i).pid ≠ pid → s'.proc = s.proc ∧
        s'.codeAt (s.cur c) = .release (.proc i) :: .act (.kkill pid (i + 1)) :: k)) ∧
    ∀ pid, pid ≠ 0 → (∀ i, s.holder (.proc i) = none) →
      ((kkill s.proc pid).1 = 0 ↔ ∃ i, (s.proc i).state ≠ .unused ∧ (s.proc i).pid = pid) ∧
      ((kkill s.proc pid).1 = 0 → ∃ i, (s.proc i).state ≠ .unused ∧ (s.proc i).pid = pid ∧
        (kkill s.proc pid).2 = update s.proc i (s.proc i).kill) ∧
      ((kkill s.proc pid).1 ≠ 0 → kkill s.proc pid = (-1, s.proc)) ∧
      ∀ c p, s.thread c = some p → s.code p = [.act (.user p)] →
        ∃ t, Solo c s t ∧ t.proc = (kkill s.proc pid).2 ∧ t.code p = [.act (.user p)] := by
  have h := clean_run hcalls hrun
  have hg := grown_run hrun
  refine ⟨fun l s' i hstep hi hi' => h.created hg.inv hstep hi hi',
    fun c pid i k s' hcode hstep => h.look hg.inv hcode hstep, fun pid hpid hfree => ?_⟩
  have hcall : ∀ c p, s.thread c = some p → s.code p = [.act (.user p)] →
      ∃ t, Solo c s t ∧ t.proc = (kkill s.proc pid).2 ∧ t.code p = [.act (.user p)] := by
    intro c p ht hc
    obtain ⟨t, ht, hat⟩ := kkill_alone pid ⟨ht, hc, rfl, rfl, rfl⟩ hfree
    exact ⟨t, ht, hat.proc, hat.code⟩
  rcases h.call hg.inv hg.family hfree hpid with ⟨i, hi, hid, he⟩ | ⟨hnone, he⟩
  · refine ⟨⟨fun _ => ⟨i, hi, hid⟩, fun _ => by rw [he]⟩, fun _ => ⟨i, hi, hid, by rw [he]⟩,
      fun hne => absurd (by rw [he]) hne, hcall⟩
  · have hne : (kkill s.proc pid).1 ≠ 0 := by
      rw [he]
      exact (by decide : (-1 : ℤ) ≠ 0)
    refine ⟨⟨fun h0 => absurd h0 hne, fun ⟨i, hi, hid⟩ => absurd hid (hnone i hi)⟩,
      fun h0 => absurd h0 hne, fun _ => he, hcall⟩

omit [DecidableEq C] in
theorem Inv.locks_free (h : Inv s) (hn : ∀ c, (s.cpu c).noff = 0) (lk : Lock) :
    s.holder lk = none := by
  cases hl : s.holder lk with
  | none => rfl
  | some c =>
    obtain ⟨R, hR, hcard, -⟩ := h.typed c
    rw [hn c, eq_comm, Finset.card_eq_zero] at hcard
    have hmem := (hR lk).mp hl
    rw [hcard] at hmem
    cases hmem

/-- The first process has forked a child and could kill it. -/
theorem kill_exact_child : ∃ s : State (Fin 1),
    exec step boot (List.replicate 258 ⟨0, .go⟩ ++ [⟨0, .call (.spawn .kfork)⟩] ++
      List.replicate 18 ⟨0, .go⟩) = some s ∧
    (s.proc 1).pid = 2 ∧ (kkill s.proc 2).1 = 0 := by
  have halong : Along step (fun _ l => l.choice ≠ .call (.kkill 0)) boot (forkRun (0 : Fin 1)) := by
    decide +kernel
  obtain ⟨s, hs, hst, hpid, hnoff⟩ := forkRun_ends
  have hfree : ∀ i, s.holder (.proc i) = none := fun i =>
    (inv_run hs).locks_free (fun c => by rw [Subsingleton.elim c 0]; exact hnoff) _
  refine ⟨s, hs, hpid, ?_⟩
  exact ((kill_exact _ s halong hs).2.2 2 (by decide) hfree).1.mpr ⟨1, by rw [hst]; nofun, hpid⟩

/-- `kkill(0)` succeeds although no process has the id 0: it marks a slot that is not in
use, and the next process in that slot begins its life killed. -/
theorem kill_zero : (kkill (boot : State (Fin 1)).proc 0).1 = 0 ∧
    (∀ i, ((boot : State (Fin 1)).proc i).state ≠ .unused →
      ((boot : State (Fin 1)).proc i).pid ≠ 0) ∧
    (exec step (boot : State (Fin 1)) (List.replicate 258 ⟨0, .go⟩ ++
      [⟨0, .call (.kkill 0)⟩] ++ List.replicate 8 ⟨0, .go⟩ ++
      [⟨0, .call (.spawn .kfork)⟩] ++ List.replicate 18 ⟨0, .go⟩)).map
      (fun s => ((s.proc 1).state, (s.proc 1).killed)) = some (.runnable, true) := by
  refine ⟨by decide +kernel, fun i hi => ?_, by decide +kernel⟩
  exact pids_boot.given i hi

end Xv6.Sched
