import Xv6.Sched.Parents
import Xv6.Sched.Solo

/-!
# Process ids

`allocpid` hands out the values of a counter. As long as the counter has not wrapped,
the ids of slots in use are positive and distinct: a slot gets its id before it comes
into use and keeps it until it is free again.
-/

namespace Xv6.Sched

open LockCode Runs Function

variable {C : Type} [DecidableEq C] {s s1 s' : State C} {c : C} {ch : Choice} {a b : Act}
  {push k : Code}

/-- How the id of slot `j` changes. -/
inductive PidChange (j : ℕ) (s s1 : State C) (push : Code) : Act → Prop
  | same (a : Act) : (s1.proc j).pid = (s.proc j).pid → PidChange j s s1 push a
  | given : (s1.proc j).pid = s.nextpid → PidChange j s s1 push (.allocpid j)
  | reaped (p : ℕ) (w : WaitCall) : (s.proc j).state = .zombie → (s1.proc j).state = .unused →
      (s1.proc j).pid = 0 → PidChange j s s1 push (.look p w j)
  | failed (p : ℕ) (kind : Spawn) : push = [.release (.proc j)] → (s1.proc j).state = .unused →
      (s1.proc j).pid = 0 → PidChange j s s1 push (.allocprocFound p kind j)

theorem act_pid (hact : s.act c ch a = some (s1, push)) (j : ℕ) : PidChange j s s1 push a := by
  by_cases hj : a.slot = some j
  case neg => exact .same _ (by rw [act_slot hact hj])
  cases a <;> simp only [Act.slot, Option.some.injEq, reduceCtorEq] at hj <;> subst hj
  case wakeupLook chan i =>
    simp only [State.act] at hact
    cases hact
    refine .same _ ?_
    split_ifs <;> simp
  case allocpid i =>
    cases hact
    exact .given (by simp [State.setProc])
  case allocprocFound p kind i =>
    cases ch <;> simp only [State.act, reduceCtorEq] at hact <;>
      cases hact
    · exact .same _ (by simp [State.setProc])
    · exact .failed p kind rfl (by simp [freeproc]) (by simp [freeproc])
    · exact .same _ rfl
  case look p w i =>
    simp only [State.act] at hact
    split_ifs at hact with hz <;> cases hact
    · exact .same _ rfl
    · exact .same _ rfl
    · exact .reaped p w hz (by simp [freeproc]) (by simp [freeproc])
    · exact .same _ rfl
  case kkillLook | setpriorityLook | reparent =>
    simp only [State.act] at hact
    split_ifs at hact <;> cases hact <;>
      exact .same _ (by simp)
  case schedSwtch b =>
    cases hact
    exact .same _ (by simp [State.setCpu, State.setProc])
  all_goals
    cases hact
    exact .same _ (by simp)

theorem act_nextpid (hact : s.act c ch a = some (s1, push)) :
    (s1.nextpid = s.nextpid ∧ ∀ i, a ≠ .allocpid i) ∨
      ∃ i, a = .allocpid i ∧ s1.nextpid = int32 (s.nextpid + 1) := by
  cases a with
  | allocpid i =>
    cases hact
    exact .inr ⟨i, rfl, rfl⟩
  | user p =>
    obtain ⟨call, -, ⟨w, -, rfl⟩ | ⟨-, rfl⟩⟩ := user_push hact <;> exact .inl ⟨rfl, by simp⟩
  | allocprocFound p kind i | critical p n =>
    cases ch <;> simp only [State.act, reduceCtorEq] at hact <;>
      cases hact <;> exact .inl ⟨rfl, by simp⟩
  | schedScan i best | schedLook i best =>
    cases best <;> simp only [State.act] at hact <;> split_ifs at hact <;>
      cases hact <;> exact .inl ⟨rfl, by simp⟩
  | zombieExit p => simp [State.act] at hact
  | wakeupLook chan i =>
    cases hact
    split_ifs <;> exact .inl ⟨rfl, by simp⟩
  | ret | killed | wakeupParent | schedBack | setState | setZombie | setChan | setRunnable
  | schedSwtch | setParent =>
    cases hact
    exact .inl ⟨rfl, by simp⟩
  | _ =>
    simp only [State.act] at hact
    split_ifs at hact <;> cases hact <;>
      exact .inl ⟨rfl, by simp⟩

/-! ## Slots that are being allocated -/

omit [DecidableEq C] in
theorem mem_promise_alloc {p i : ℕ} {kind : Spawn} (h : .act (.allocprocFound p kind i) ∈ k) :
    (i, .unused) ∈ promises k :=
  List.mem_filterMap.mpr ⟨_, h, rfl⟩

omit [DecidableEq C] in
theorem Inv.alloc_unused (h : Inv s) {q p i : ℕ} {kind : Spawn} (hq : (s.proc q).state ≠ .unused)
    (hm : .act (.allocprocFound p kind i) ∈ s.code q) : (s.proc i).state = .unused :=
  h.kept (.inl q) i .unused (fun _ he => by cases he; exact hq) (mem_promise_alloc hm)

omit [DecidableEq C] in
theorem Inv.alloc_once (h : Inv s) {q p p' i : ℕ} {kind kind' : Spawn}
    (hq : (s.proc q).state ≠ .unused) (hm : .act (.allocprocFound p kind i) ∈ s.code q)
    (hm' : .act (.allocprocFound p' kind' i) ∈ s.codeAt (s.cur c)) : s.thread c = some q := by
  have heq := h.once (.inl q) (s.cur c) i .unused .unused (fun _ he => by cases he; exact hq)
    (h.live_cur c) (mem_promise_alloc hm) (mem_promise_alloc hm')
  cases ht : s.thread c with
  | none => simp [State.cur, tid, ht] at heq
  | some r =>
    rw [cur_of_thread ht] at heq
    cases heq
    rfl

/-! ## The invariant -/

structure Pids (s : State C) : Prop where
  next : 0 < s.nextpid
  below : ∀ i, 0 ≤ (s.proc i).pid ∧ (s.proc i).pid < s.nextpid
  unique : ∀ i j, (s.proc i).pid = (s.proc j).pid → (s.proc i).pid ≠ 0 → i = j
  given : ∀ i, (s.proc i).state ≠ .unused → (s.proc i).pid ≠ 0
  /-- `allocproc` has asked for the id before it marks the slot as used. -/
  found : ∀ q p kind i, (s.proc q).state ≠ .unused → .act (.allocprocFound p kind i) ∈ s.code q →
    .act (.allocpid i) ∉ s.code q → (s.proc i).pid ≠ 0

theorem int32_succ {n : ℤ} (h0 : 0 < n) (h : n < 2 ^ 31 - 1) : int32 (n + 1) = n + 1 := by
  unfold int32
  omega

section

variable (h : Pids s) (hinv : Inv s) (hnext : s.nextpid < 2 ^ 31 - 1)
  (hcode : s.codeAt (s.cur c) = .act a :: k) (hact : s.act c ch a = some (s1, push))

include h hnext hact in
theorem Pids.act_next : s.nextpid ≤ s1.nextpid ∧ ∀ i, a = .allocpid i → s.nextpid < s1.nextpid := by
  have hpos := h.next
  rcases act_nextpid hact with ⟨he, hne⟩ | ⟨i, rfl, he⟩
  · exact ⟨he.ge, fun i ha => absurd ha (hne i)⟩
  · rw [he, int32_succ hpos hnext]
    exact ⟨by omega, fun _ _ => by omega⟩

include h hnext hact in
theorem Pids.act_below (i : ℕ) : 0 ≤ (s1.proc i).pid ∧ (s1.proc i).pid < s1.nextpid := by
  obtain ⟨hle, hlt⟩ := h.act_next hnext hact
  have hpos := h.next
  have hold := h.below i
  cases act_pid hact i with
  | same _ he => rw [he]; omega
  | given he => have := hlt i rfl; omega
  | reaped _ _ _ _ he => omega
  | failed _ _ _ _ he => omega

include h hact in
theorem Pids.act_unique {i j : ℕ} (he : (s1.proc i).pid = (s1.proc j).pid)
    (hne : (s1.proc i).pid ≠ 0) : i = j := by
  -- only one slot has changed, and a new id is above all others
  have hold := fun i => h.below i
  have hi := act_pid hact i
  have hj := act_pid hact j
  cases hi with
  | reaped _ _ _ _ hz => exact absurd hz hne
  | failed _ _ _ _ hz => exact absurd hz hne
  | given hi =>
    generalize hb : Act.allocpid i = b at hj
    cases hj with
    | same _ hj => have := hold j; omega
    | given hj => exact Act.allocpid.inj hb
    | reaped => cases hb
    | failed => cases hb
  | same _ hi =>
    cases hj with
    | reaped _ _ _ _ hz => exact absurd (he.trans hz) hne
    | failed _ _ _ _ hz => exact absurd (he.trans hz) hne
    | given hj => have := hold i; omega
    | same _ hj =>
      rw [hi] at hne he
      rw [hj] at he
      exact h.unique i j he hne

include h hinv hcode hact in
theorem Pids.act_given {i : ℕ} (hi : (s1.proc i).state ≠ .unused) : (s1.proc i).pid ≠ 0 := by
  have hpos := h.next
  cases act_pid hact i with
  | given he => omega
  | reaped _ _ _ hu _ => exact absurd hu hi
  | failed _ _ _ hu _ => exact absurd hu hi
  | same _ he =>
    rw [he]
    by_cases hu : (s.proc i).state = .unused
    · rcases (hu ▸ hinv.act_change hcode hact i).of_unused with hs | ⟨p, kind, rfl, -⟩
      · exact absurd hs hi
      · obtain ⟨R, -, -, hty⟩ := hinv.typed c
        rw [hcode] at hty
        obtain ⟨⟨⟨ht, -⟩, -, rfl⟩, -⟩ := hty
        rw [cur_of_thread ht] at hcode
        have hc : s.code p = _ := hcode
        exact h.found p p kind i (hinv.live_thread ht) (by simp [hc]) (by simp [hc])
    · exact h.given i hu

include h hinv hcode hact in
theorem Pids.act_found {q p i : ℕ} {kind : Spawn} (hq : (s1.proc q).state ≠ .unused)
    (hm : .act (.allocprocFound p kind i) ∈ (s1.setCode c (push ++ k) (s.thread c)).code q)
    (hno : .act (.allocpid i) ∉ (s1.setCode c (push ++ k) (s.thread c)).code q) :
    (s1.proc i).pid ≠ 0 := by
  have hpos := h.next
  -- a slot that is being allocated is neither reaped nor freed by others
  have hkeep : (s.proc q).state ≠ .unused → .act (.allocprocFound p kind i) ∈ s.code q →
      (∀ p' kind', a = .allocprocFound p' kind' i → push ≠ [.release (.proc i)]) →
      (s.proc i).pid ≠ 0 → (s1.proc i).pid ≠ 0 := by
    intro hlive hm hfail hpid
    cases act_pid hact i with
    | same _ he => rw [he]; exact hpid
    | given he => omega
    | reaped _ _ hz => rw [hinv.alloc_unused hlive hm] at hz; cases hz
    | failed p' kind' hpush => exact absurd hpush (hfail p' kind' rfl)
  rcases hinv.life_code hcode hact hq rfl hm with ⟨ht, hc, hm⟩ | ⟨ht, hlive, hm, hc⟩
  · have hlive := hinv.live_thread ht
    rw [setCode_code, if_pos ht] at hno
    rcases hm with hm | hm
    · cases begets_of_push hact hm rfl with
      | alloc p' i' kind' =>
        simp only [List.mem_cons, reduceCtorEq, Cmd.act.injEq, Act.allocprocFound.injEq,
          List.not_mem_nil, or_false, false_or] at hm
        obtain ⟨rfl, rfl, rfl⟩ := hm
        simp at hno
      | shm p' i' key kind' =>
        simp only [shmSection, List.cons_append, List.nil_append, List.mem_cons, reduceCtorEq,
          Cmd.act.injEq, Act.allocprocFound.injEq, List.not_mem_nil, or_false, false_or] at hm
        obtain ⟨rfl, rfl, rfl⟩ := hm
        have hmem : .act (.allocprocFound p kind i) ∈ s.code q := by rw [hc]; simp
        refine hkeep hlive hmem (fun _ _ _ => by simp [shmSection]) ?_
        refine h.found q p kind i hlive hmem fun hpid => hno ?_
        rw [hc] at hpid
        simp only [List.mem_cons, Cmd.act.injEq, reduceCtorEq, false_or] at hpid
        exact List.mem_append_right _ hpid
      | _ => simp [kexit, wakeup, publish] at hm
    · have hmem : .act (.allocprocFound p kind i) ∈ s.code q := by
        rw [hc]; exact List.mem_cons_of_mem _ hm
      by_cases ha : a = .allocpid i
      · subst ha
        cases hact
        simpa [State.setProc] using hpos.ne'
      · refine hkeep hlive hmem ?_ (h.found q p kind i hlive hmem fun hpid => ?_)
        · rintro p' kind' rfl -
          obtain ⟨R, -, -, hty⟩ := hinv.typed c
          rw [hcode] at hty
          rw [show k = [.act (.user p')] from hty.1.2.2] at hm
          simp at hm
        · rw [hc] at hpid
          rcases List.mem_cons.mp hpid with he | hpid
          · exact ha (Cmd.act.inj he).symm
          · exact hno (List.mem_append_right _ hpid)
  · rw [hc] at hno
    refine hkeep hlive hm ?_ (h.found q p kind i hlive hm hno)
    rintro p' kind' rfl -
    exact ht (hinv.alloc_once hlive hm (by rw [hcode]; exact List.mem_cons_self ..))

include h hinv hnext hcode hact in
theorem Pids.act : Pids (s1.setCode c (push ++ k) (s.thread c)) := by
  have hproc : (s1.setCode c (push ++ k) (s.thread c)).proc = s1.proc := setCode_proc _ _ _ _
  have hn : (s1.setCode c (push ++ k) (s.thread c)).nextpid = s1.nextpid := by
    cases s.thread c <;> rfl
  constructor
  · rw [hn]
    exact lt_of_lt_of_le h.next (h.act_next hnext hact).1
  · rw [hproc, hn]
    exact h.act_below hnext hact
  · rw [hproc]
    exact fun i j => h.act_unique hact
  · rw [hproc]
    exact fun i => h.act_given hinv hcode hact
  · intro q p kind i hq hm hno
    rw [hproc] at hq ⊢
    exact h.act_found hinv hcode hact hq hm hno

end

theorem Pids.step (h : Pids s) (hinv : Inv s) {l : Label C} (hnext : s.nextpid < 2 ^ 31 - 1)
    (hstep : Sched.step s l = some s') : Pids s' := by
  rcases step_life hstep with ⟨a, k, s1, push, hcode, hact, rfl⟩ | ⟨hp, hn, hc⟩
  · exact h.act hinv hnext hcode hact
  · constructor
    · rw [hn]; exact h.next
    · rw [hp, hn]; exact h.below
    · rw [hp]; exact h.unique
    · rw [hp]; exact h.given
    · intro q p kind i hq hm hno
      rw [hp] at hq ⊢
      refine h.found q p kind i hq ((hc (.inl q) _ rfl).mp hm) fun hpid => hno ?_
      exact (hc (.inl q) _ rfl).mpr hpid

omit [DecidableEq C] in
theorem pids_boot : Pids (boot : State C) := by
  have hproc : ∀ i, i ≠ initproc → (boot : State C).proc i = unusedProc := by
    intro i hi
    simp [boot, hi]
  have hpid : ∀ i, i ≠ initproc → ((boot : State C).proc i).pid = 0 := fun i hi => by
    rw [hproc i hi]; rfl
  have hinit : ((boot : State C).proc initproc).pid = 1 := by simp [boot]
  constructor
  · exact zero_lt_two
  · intro i
    by_cases hi : i = initproc
    · rw [hi, hinit]
      exact ⟨zero_le_one, one_lt_two⟩
    · rw [hpid i hi]
      exact ⟨le_rfl, zero_lt_two⟩
  · intro i j he hne
    have hi : i = initproc := by
      by_contra hi
      exact hne (hpid i hi)
    have hj : j = initproc := by
      by_contra hj
      exact hne (he.trans (hpid j hj))
    rw [hi, hj]
  · intro i hi
    by_cases hi0 : i = initproc
    · rw [hi0, hinit]
      exact one_ne_zero
    · rw [hproc i hi0] at hi
      exact absurd rfl hi
  · intro q p kind i _ hm
    by_cases hq : q = initproc
    · subst hq
      simp [boot, forkret] at hm
    · simp [boot, hq] at hm

theorem pids_run {ls : List (Label C)}
    (hnext : Along step (fun s _ => s.nextpid < 2 ^ 31 - 1) boot ls)
    (hrun : exec step boot ls = some s) : Pids s :=
  exec_along (I := fun _ s => Pids s) pids_boot
    (fun _ _ _ _ hprev h hn hstep => h.step (inv_run hprev) hn hstep) ls hnext hrun

/-- In every run in which the counter stays below its largest value, the ids of slots in
use are positive, an id other than 0 belongs to one slot at most, and a wait call that
names a child finds one at most. -/
theorem live_pids (ls : List (Label C)) (s : State C)
    (hnext : Along step (fun s _ => s.nextpid < 2 ^ 31 - 1) boot ls)
    (hrun : exec step boot ls = some s) :
    (∀ i, (s.proc i).state ≠ .unused → 0 < (s.proc i).pid) ∧
    (∀ i j, (s.proc i).state ≠ .unused → (s.proc j).state ≠ .unused →
      (s.proc i).pid = (s.proc j).pid → i = j) ∧
    (∀ i j, (s.proc i).pid = (s.proc j).pid → (s.proc i).pid ≠ 0 → i = j) ∧
    ∀ (w : WaitCall) p i j, w.accepts p (s.proc i) = true → w.accepts p (s.proc j) = true →
      (∀ addr, w ≠ .kwait addr) → i = j := by
  have h := pids_run hnext hrun
  have hfam := (grown_run hrun).family
  refine ⟨fun i hi => ?_, fun i j hi _ he => h.unique i j he (h.given i hi), h.unique,
    fun w p i j hi hj hw => ?_⟩
  · exact lt_of_le_of_ne (h.below i).1 (h.given i hi).symm
  · have hlive : (s.proc i).state ≠ .unused := by
      intro hu
      have hparent := parent_of_accepts hi
      rw [hfam.orphan i hu] at hparent
      cases hparent
    refine h.unique i j ?_ (h.given i hlive)
    cases w with
    | kwait addr => exact absurd rfl (hw addr)
    | kwaitpid pid addr =>
      simp only [WaitCall.accepts, Bool.and_eq_true, decide_eq_true_eq] at hi hj
      rw [hi.2, hj.2]
    | kthreadJoin tid =>
      simp only [WaitCall.accepts, Bool.and_eq_true, decide_eq_true_eq] at hi hj
      rw [hi.2.1, hj.2.1]

theorem live_pids_fork : ∃ s : State (Fin 1),
    exec step boot (List.replicate 258 ⟨0, .go⟩ ++ [⟨0, .call (.spawn .kfork)⟩] ++
      List.replicate 18 ⟨0, .go⟩) = some s ∧
    (s.proc 1).state = .runnable ∧ 0 < (s.proc 1).pid := by
  obtain ⟨s, hs, hst, -⟩ := forkRun_ends
  have halong : Along step (fun s _ => s.nextpid < 2 ^ 31 - 1) boot (forkRun (0 : Fin 1)) := by
    decide +kernel
  exact ⟨s, hs, hst, (live_pids _ s halong hs).1 1 (by rw [hst]; nofun)⟩

/-! ## When the counter wraps -/

/-- The first process is in user space, the second slot is unused, and their locks are
free. -/
structure Ready (s : State (Fin 1)) (n : ℤ) : Prop where
  at_user : At 0 0 s s.proc s.holder n [.act (.user 0)]
  first : (s.proc 0).state ≠ .unused ∧ (s.proc 0).pid = 1
  second : (s.proc 1).state = .unused
  locks : s.holder (.proc 0) = none ∧ s.holder (.proc 1) = none ∧ s.holder .pid = none

section

variable {P : ℕ → Proc} {H : Lock → Option (Fin 1)} {n : ℤ}

theorem leads_alloc (h0 : (P 0).state ≠ .unused) (h1 : (P 1).state = .unused)
    (hl0 : H (.proc 0) = none) (hl1 : H (.proc 1) = none) (hlp : H .pid = none) :
    Leads 0 0 P H n [.act (.user 0)] (update P 1 { P 1 with pid := n })
      (update H (.proc 1) (some 0)) (int32 (n + 1))
      [.act (.allocprocFound 0 .kfork 1), .act (.user 0)] := by
  have hcall : Leads 0 0 P H n [.act (.user 0)] P H n
      [.act (.allocproc 0 .kfork 0), .act (.user 0)] :=
    leads_still (.call (.spawn .kfork)) [.act (.allocproc 0 .kfork 0), .act (.user 0)] rfl
      fun s _ => rfl
  have hscan0 : Leads 0 0 P H n [.act (.allocproc 0 .kfork 0), .act (.user 0)] P H n
      [.acquire (.proc 0), .act (.allocprocLook 0 .kfork 0), .act (.user 0)] :=
    leads_still .go [.acquire (.proc 0), .act (.allocprocLook 0 .kfork 0)] rfl fun s _ => rfl
  have hlook0 : Leads 0 0 P H n
      [.acquire (.proc 0), .act (.allocprocLook 0 .kfork 0), .act (.user 0)] P H n
      [.act (.allocproc 0 .kfork 1), .act (.user 0)] := by
    refine leads_locked hl0 (leads_still .go
      [.release (.proc 0), .act (.allocproc 0 .kfork 1)] rfl fun s hs => ?_)
    simp [State.act, hs.proc, h0]
  have hscan1 : Leads 0 0 P H n [.act (.allocproc 0 .kfork 1), .act (.user 0)] P H n
      [.acquire (.proc 1), .act (.allocprocLook 0 .kfork 1), .act (.user 0)] :=
    leads_still .go [.acquire (.proc 1), .act (.allocprocLook 0 .kfork 1)] rfl fun s _ => rfl
  have hlook1 : Leads 0 0 P (update H (.proc 1) (some 0)) n
      [.act (.allocprocLook 0 .kfork 1), .act (.user 0)] P
      (update H (.proc 1) (some 0)) n
      [.acquire .pid, .act (.allocpid 1), .release .pid, .act (.allocprocFound 0 .kfork 1),
        .act (.user 0)] := by
    refine leads_still .go [.acquire .pid, .act (.allocpid 1), .release .pid,
      .act (.allocprocFound 0 .kfork 1)] rfl fun s hs => ?_
    simp [State.act, hs.proc, h1]
  have hpid : Leads 0 0 P
      (update (update H (.proc 1) (some 0)) .pid (some 0)) n
      [.act (.allocpid 1), .release .pid, .act (.allocprocFound 0 .kfork 1), .act (.user 0)]
      (update P 1 { P 1 with pid := n })
      (update (update H (.proc 1) (some 0)) .pid (some 0)) (int32 (n + 1))
      [.release .pid, .act (.allocprocFound 0 .kfork 1), .act (.user 0)] := by
    refine leads_act .go [] rfl fun s hs => ⟨_, rfl, rfl, ?_, hs.holder, ?_⟩
    · simp [State.setProc, hs.proc, hs.nextpid]
    · simp [hs.nextpid]
  have hrelease := leads_release (c := 0) (p := 0) (P := update P 1 { P 1 with pid := n })
    (n := int32 (n + 1)) (k := [.act (.allocprocFound 0 .kfork 1), .act (.user 0)])
    (H := update (update H (.proc 1) (some 0)) .pid (some 0)) .pid
    (update_self ..)
  have hback : update (update (update H (.proc 1) (some 0)) .pid
      (some 0)) .pid none = update H (.proc 1) (some 0) := by
    rw [update_idem, Function.update_eq_self_iff, update_of_ne (by decide), hlp]
  rw [hback] at hrelease
  refine hcall.trans (hscan0.trans (hlook0.trans (hscan1.trans ((leads_acquire hl1).trans
    (hlook1.trans ((leads_acquire ?_).trans (hpid.trans hrelease)))))))
  rw [update_of_ne (by decide), hlp]

/-- The allocation of a page fails: the slot is free again, and its id is lost. -/
theorem Ready.lost {s : State (Fin 1)} (h : Ready s n) :
    ∃ t, Solo 0 s t ∧ Ready t (int32 (n + 1)) := by
  obtain ⟨hl0, hl1, hlp⟩ := h.locks
  have hfail : ∀ P' n', Leads 0 0 P' (update s.holder (.proc 1) (some 0)) n'
      [.act (.allocprocFound 0 .kfork 1), .act (.user 0)]
      (update P' 1 (freeproc (P' 1))) (update s.holder (.proc 1) (some 0)) n'
      [.release (.proc 1), .act (.user 0)] := fun P' n' =>
    leads_act .fail [.release (.proc 1)] rfl fun s' hs' =>
      ⟨_, rfl, rfl, by simp [State.setProc, hs'.proc], hs'.holder, hs'.nextpid⟩
  have hrelease : ∀ P' n', Leads 0 0 P' (update s.holder (.proc 1) (some 0)) n'
      [.release (.proc 1), .act (.user 0)] P' s.holder n' [.act (.user 0)] := by
    intro P' n'
    have hr := leads_release (c := 0) (p := 0) (P := P') (n := n') (k := [.act (.user 0)])
      (H := update s.holder (.proc 1) (some 0)) (.proc 1) (update_self ..)
    rwa [update_idem, ← hl1, update_eq_self] at hr
  obtain ⟨t, ht, hat⟩ := (leads_alloc h.first.1 h.second hl0 hl1 hlp).trans
    ((hfail _ _).trans (hrelease _ _)) s h.at_user
  refine ⟨t, ht, ?_, ?_, ?_, ?_⟩
  · exact ⟨hat.thread, hat.code, rfl, rfl, hat.nextpid⟩
  · rw [hat.proc]
    simpa using h.first
  · rw [hat.proc]
    simp [freeproc]
  · rw [hat.holder]
    exact h.locks

theorem Ready.lose (m : ℕ) {s : State (Fin 1)} (h : Ready s (int32 n)) :
    ∃ t, Solo 0 s t ∧ Ready t (int32 (n + m)) := by
  induction m with
  | zero => exact ⟨s, .refl s, by simpa using h⟩
  | succ m ih =>
    obtain ⟨t, ht, hready⟩ := ih
    obtain ⟨u, hu, hready'⟩ := hready.lost
    refine ⟨u, ht.trans hu, ?_⟩
    have hwrap : int32 (int32 (n + m) + 1) = int32 (n + (m + 1 : ℕ)) := by
      unfold int32
      push_cast
      omega
    rwa [hwrap] at hready'

theorem Ready.used {s : State (Fin 1)} (h : Ready s n) :
    ∃ t, Solo 0 s t ∧ (t.proc 0).state ≠ .unused ∧ (t.proc 0).pid = 1 ∧
      (t.proc 1).state ≠ .unused ∧ (t.proc 1).pid = n := by
  obtain ⟨hl0, hl1, hlp⟩ := h.locks
  have hfound : ∀ P' n', Leads 0 0 P' (update s.holder (.proc 1) (some 0)) n'
      [.act (.allocprocFound 0 .kfork 1), .act (.user 0)]
      (update P' 1 { P' 1 with state := .used, priority := 10, isThread := false })
      (update s.holder (.proc 1) (some 0)) n' (publish 0 1 ++ [.act (.user 0)]) :=
    fun P' n' => leads_act .go (publish 0 1) rfl fun s' hs' =>
      ⟨_, rfl, rfl, by simp [State.setProc, hs'.proc], hs'.holder, hs'.nextpid⟩
  obtain ⟨t, ht, hat⟩ := (leads_alloc h.first.1 h.second hl0 hl1 hlp).trans (hfound _ _) s
    h.at_user
  refine ⟨t, ht, ?_⟩
  rw [hat.proc]
  simpa using h.first

theorem ready_boot : ∃ s, exec step (boot : State (Fin 1)) (List.replicate 258 ⟨0, .go⟩) = some s ∧
    Ready s 2 := by
  have hthread : (exec step (boot : State (Fin 1)) (List.replicate 258 ⟨0, .go⟩)).map
      (fun s => (s.thread 0, s.code 0, s.nextpid)) = some (some 0, [.act (.user 0)], 2) := by
    decide +kernel
  have htable : (exec step (boot : State (Fin 1)) (List.replicate 258 ⟨0, .go⟩)).map
      (fun s => (((s.proc 0).state, (s.proc 0).pid, (s.proc 1).state),
        s.holder (.proc 0), s.holder (.proc 1), s.holder .pid)) =
      some ((.running, 1, .unused), none, none, none) := by
    decide +kernel
  obtain ⟨s, hs, hview⟩ := Option.map_eq_some_iff.mp hthread
  rw [hs, Option.map_some] at htable
  simp only [Option.some.injEq, Prod.mk.injEq] at hview htable
  obtain ⟨ht, hc, hn⟩ := hview
  obtain ⟨⟨h0, hp, h1⟩, hlocks⟩ := htable
  exact ⟨s, hs, ⟨ht, hc, rfl, rfl, hn⟩, ⟨by rw [h0]; nofun, hp⟩, h1, hlocks⟩

theorem fork_after (m : ℕ) : ∃ ls s, exec step (boot : State (Fin 1)) ls = some s ∧
    (s.proc 0).state ≠ .unused ∧ (s.proc 0).pid = 1 ∧ (s.proc 1).state ≠ .unused ∧
      (s.proc 1).pid = int32 (2 + m) := by
  obtain ⟨s, hs, hready⟩ := ready_boot
  obtain ⟨t, ⟨chs, ht⟩, hready⟩ := Ready.lose (n := 2) m hready
  obtain ⟨u, ⟨chs', hu⟩, hpids⟩ := hready.used
  refine ⟨List.replicate 258 ⟨0, .go⟩ ++ (chs.map fun ch => ⟨0, ch⟩) ++
    chs'.map fun ch => ⟨0, ch⟩, u, ?_, hpids⟩
  rw [exec_append, exec_append, hs, Option.bind_some, ht, Option.bind_some, hu]

/-- Once the counter has wrapped, a process gets a negative id, and later the id of one that
is still there. -/
theorem pids_wrap :
    (∃ ls s i, exec step (boot : State (Fin 1)) ls = some s ∧ (s.proc i).state ≠ .unused ∧
      (s.proc i).pid < 0) ∧
    ∃ ls s i j, exec step (boot : State (Fin 1)) ls = some s ∧ i ≠ j ∧
      (s.proc i).state ≠ .unused ∧ (s.proc j).state ≠ .unused ∧
      (s.proc i).pid = (s.proc j).pid := by
  constructor
  · obtain ⟨ls, s, hs, -, -, h1, hpid⟩ := fork_after (2 ^ 31 - 2)
    refine ⟨ls, s, 1, hs, h1, ?_⟩
    rw [hpid]
    decide
  · obtain ⟨ls, s, hs, h0, hpid0, h1, hpid⟩ := fork_after (2 ^ 32 - 1)
    refine ⟨ls, s, 0, 1, hs, by decide, h0, h1, ?_⟩
    rw [hpid0, hpid]
    decide

end

end Xv6.Sched
