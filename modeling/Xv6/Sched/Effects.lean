import Xv6.Sched.Steps

/-!
# What actions do to the process table

An action changes at most one slot. For that slot, the possible state changes and
the changes of the other fields are listed here once; the invariants about parents,
exit statuses and sleep channels follow from these lists.
-/

namespace Xv6.Sched

open LockCode

variable {C : Type} [DecidableEq C] {s s1 s' : State C} {c : C} {ch : Choice} {a : Act}
  {push k : Code}

/-- The slot that an action may change. -/
def Act.slot : Act → Option ℕ
  | .wakeupLook _ i | .kkillLook _ i | .setpriorityLook _ _ i => some i
  | .setState p _ | .setZombie p _ | .setChan p _ => some p
  | .reparent _ i | .setParent _ i | .look _ _ i => some i
  | .allocpid i | .allocprocFound _ _ i | .setRunnable i | .schedSwtch i => some i
  | _ => none

theorem act_slot (hact : s.act c ch a = some (s1, push)) {j : ℕ} (hj : a.slot ≠ some j) :
    s1.proc j = s.proc j := by
  have hset : ∀ i (v : Proc), j ≠ i → Function.update s.proc i v j = s.proc j :=
    fun i v h => Function.update_of_ne h v s.proc
  cases a with
  | user p =>
    cases ch <;> simp only [State.act, Option.map_eq_some_iff, reduceCtorEq] at hact
    obtain ⟨code, -, he⟩ := hact
    split at he <;> cases he <;> rfl
  | critical p n =>
    cases ch <;> simp only [State.act, reduceCtorEq] at hact <;>
      cases hact <;> rfl
  | schedScan i best | schedLook i best =>
    cases best <;> simp only [State.act] at hact <;> split_ifs at hact <;>
      cases hact <;> rfl
  | zombieExit p => simp [State.act] at hact
  | ret | killed | wakeupParent | schedBack =>
    cases hact
    rfl
  | setState p | setZombie p | setChan p | allocpid p | setRunnable p | schedSwtch p =>
    cases hact
    exact hset p _ fun he => hj (he ▸ rfl)
  | setParent p i =>
    cases hact
    exact hset i _ fun he => hj (he ▸ rfl)
  | wakeupLook chan i =>
    simp only [State.act] at hact
    cases hact
    split_ifs
    · exact hset i _ fun he => hj (he ▸ rfl)
    · rfl
  | allocprocFound p kind i =>
    cases ch <;> simp only [State.act, reduceCtorEq] at hact <;>
      cases hact <;>
      first | rfl | exact hset i _ fun he => hj (he ▸ rfl)
  | kkillLook pid i | setpriorityLook pid priority i | reparent p i | look p w i =>
    simp only [State.act] at hact
    split_ifs at hact <;> cases hact <;>
      first | rfl | exact hset i _ fun he => hj (he ▸ rfl)
  | _ =>
    simp only [State.act] at hact
    split_ifs at hact <;> cases hact <;> rfl

/-- The state changes of slot `j`. -/
inductive Change (j : ℕ) : Act → ProcState → ProcState → Prop
  | same (a : Act) (st : ProcState) : Change j a st st
  | wake (a : Act) : Change j a .sleeping .runnable
  | leave (st : ProcState) : st = .runnable ∨ st = .sleeping → Change j (.setState j st) .running st
  | exit (status : ℤ) : Change j (.setZombie j status) .running .zombie
  | alloc (p : ℕ) (kind : Spawn) : Change j (.allocprocFound p kind j) .unused .used
  | publish : Change j (.setRunnable j) .used .runnable
  | reap (p : ℕ) (w : WaitCall) : Change j (.look p w j) .zombie .unused
  | run : Change j (.schedSwtch j) .runnable .running

section

variable {j : ℕ} {st : ProcState}

theorem Change.to_unused (h : Change j a st .unused) :
    st = .unused ∨ ∃ p w, a = .look p w j ∧ st = .zombie := by
  cases h with
  | same => exact .inl rfl
  | leave _ h => rcases h with h | h <;> simp at h
  | reap p w => exact .inr ⟨p, w, rfl, rfl⟩

theorem Change.to_zombie (h : Change j a st .zombie) :
    st = .zombie ∨ ∃ status, a = .setZombie j status ∧ st = .running := by
  cases h with
  | same => exact .inl rfl
  | leave _ h => rcases h with h | h <;> simp at h
  | exit status => exact .inr ⟨status, rfl, rfl⟩

theorem Change.to_sleeping (h : Change j a st .sleeping) :
    st = .sleeping ∨ a = .setState j .sleeping ∧ st = .running := by
  cases h with
  | same => exact .inl rfl
  | leave => exact .inr ⟨rfl, rfl⟩

theorem Change.of_unused {st' : ProcState} (h : Change j a .unused st') :
    st' = .unused ∨ ∃ p kind, a = .allocprocFound p kind j ∧ st' = .used := by
  cases h with
  | same => exact .inl rfl
  | alloc p kind => exact .inr ⟨p, kind, rfl, rfl⟩

theorem Change.of_zombie {st' : ProcState} (h : Change j a .zombie st') :
    st' = .zombie ∨ ∃ p w, a = .look p w j ∧ st' = .unused := by
  cases h with
  | same => exact .inl rfl
  | reap p w => exact .inr ⟨p, w, rfl, rfl⟩

end

theorem Inv.act_change (h : Inv s) (hcode : s.codeAt (s.cur c) = .act a :: k)
    (hact : s.act c ch a = some (s1, push)) (j : ℕ) :
    Change j a (s.proc j).state (s1.proc j).state := by
  by_cases hj : a.slot = some j
  case neg => rw [act_slot hact hj]; exact .same _ _
  have hpromise : ∀ st, a.promise = some (j, st) → (s.proc j).state = st := fun st hp =>
    h.kept _ j st (h.live_cur c) (by rw [hcode]; simp [hp])
  obtain ⟨R, -, hside, -⟩ := h.side hcode
  cases a <;> simp only [Act.slot, Option.some.injEq, reduceCtorEq] at hj <;> subst hj
  case wakeupLook chan i =>
    simp only [State.act] at hact
    cases hact
    split_ifs with hs
    · rw [setProc_self, hs.1]; exact .wake _
    · exact .same _ _
  case kkillLook pid i =>
    simp only [State.act] at hact
    split_ifs at hact <;> cases hact
    · rw [setProc_self]
      dsimp only
      split_ifs with hs
      · rw [hs]; exact .wake _
      · exact .same _ _
    · exact .same _ _
  case setState p st =>
    cases hact
    rw [setProc_self, h.running_of_act hside.1 hcode (by simp)]
    exact .leave st hside.2.2
  case setZombie p status =>
    cases hact
    rw [log_proc, setProc_self, h.running_of_act hside.1 hcode (by simp)]
    exact .exit status
  case setRunnable i =>
    cases hact
    rw [setProc_self, hpromise _ rfl]
    exact .publish
  case schedSwtch b =>
    cases hact
    rw [hpromise _ rfl]
    change Change b _ _ ((s.setProc b fun q => { q with state := .running }).proc b).state
    rw [setProc_self]
    exact .run
  case allocprocFound p kind i =>
    have hu := hpromise _ rfl
    rw [hu]
    cases ch <;> simp only [State.act, reduceCtorEq] at hact <;>
      cases hact
    · simp only [setProc_self]; exact .alloc p kind
    · simp only [setProc_self]; exact .same _ _
    · rw [hu]; exact .same _ _
  case look p w i =>
    simp only [State.act] at hact
    split_ifs at hact with hz <;> cases hact
    · exact .same _ _
    · exact .same _ _
    · rw [log_proc, setProc_self, hz]; exact .reap p w
    · exact .same _ _
  case setpriorityLook pid priority i =>
    simp only [State.act] at hact
    split_ifs at hact <;> cases hact
    · rw [setProc_self]; exact .same _ _
    · exact .same _ _
  case reparent p i =>
    simp only [State.act] at hact
    split_ifs at hact <;> cases hact
    · rw [setProc_self]; exact .same _ _
    all_goals exact .same _ _
  case setChan | allocpid | setParent =>
    cases hact
    simp only [setProc_self]
    exact .same _ _

/-- The fields by which a wait call recognises a child. -/
def Proc.SameKin (q q' : Proc) : Prop :=
  q'.parent = q.parent ∧ q'.pid = q.pid ∧ q'.isThread = q.isThread

/-- The changes of the parent, pid and thread flag of slot `j`. -/
inductive KinChange (j : ℕ) : Act → Proc → Proc → Prop
  | same {a : Act} {q q' : Proc} : q.SameKin q' → (q'.state = .unused → q.state = .unused) →
      KinChange j a q q'
  | unused {a : Act} {q q' : Proc} : q.state = .unused →
      (q'.parent = q.parent ∨ q'.parent = none) → KinChange j a q q'
  | reparent {p : ℕ} {q q' : Proc} : q.parent = some p → q'.parent = some initproc →
      q'.pid = q.pid → q'.isThread = q.isThread → KinChange j (.reparent p j) q q'
  | setParent {p : ℕ} {q q' : Proc} : q.state = .used → q'.parent = some p →
      KinChange j (.setParent p j) q q'
  | reap {p : ℕ} {w : WaitCall} {q q' : Proc} : q.state = .zombie → q'.state = .unused →
      q'.parent = none → KinChange j (.look p w j) q q'

theorem Inv.act_kin (h : Inv s) (hcode : s.codeAt (s.cur c) = .act a :: k)
    (hact : s.act c ch a = some (s1, push)) (j : ℕ) :
    KinChange j a (s.proc j) (s1.proc j) := by
  have hrefl : ∀ q : Proc, q.SameKin q := fun q => ⟨rfl, rfl, rfl⟩
  have hstay : (∀ p w, a ≠ .look p w j) → (s1.proc j).state = .unused →
      (s.proc j).state = .unused := by
    intro hne hu
    rcases (hu ▸ h.act_change hcode hact j).to_unused with hs | ⟨p, w, rfl, -⟩
    · exact hs
    · exact absurd rfl (hne p w)
  by_cases hj : a.slot = some j
  case neg => rw [act_slot hact hj]; exact .same (hrefl _) id
  have hpromise : ∀ b i st, b = a ∨ .act b ∈ k → b.promise = some (i, st) →
      (s.proc i).state = st := by
    intro b i st hb hp
    refine h.kept _ i st (h.live_cur c) ?_
    rw [hcode]
    refine List.mem_filterMap.mpr ⟨.act b, ?_, hp⟩
    rcases hb with rfl | hb
    · simp
    · simp [hb]
  obtain ⟨R, hR, hn, hty⟩ := h.typed c
  rw [hcode] at hty
  have hafter : a.After k := hty.1.2.2
  cases a <;> simp only [Act.slot, Option.some.injEq, reduceCtorEq] at hj <;> subst hj
  case wakeupLook chan i =>
    simp only [State.act] at hact
    cases hact
    split_ifs with hs
    · rw [if_pos hs] at hstay
      exact .same (by rw [setProc_self]; exact ⟨rfl, rfl, rfl⟩) (hstay (by simp))
    · exact .same (hrefl _) id
  case kkillLook | setpriorityLook =>
    simp only [State.act] at hact
    split_ifs at hact <;> cases hact
    · exact .same (by rw [setProc_self]; exact ⟨rfl, rfl, rfl⟩) (hstay (by simp))
    · exact .same (hrefl _) id
  case setState | setChan | setRunnable =>
    cases hact
    exact .same (by rw [setProc_self]; exact ⟨rfl, rfl, rfl⟩) (hstay (by simp))
  case setZombie p status =>
    cases hact
    exact .same (by rw [log_proc, setProc_self]; exact ⟨rfl, rfl, rfl⟩) (hstay (by simp))
  case schedSwtch b =>
    cases hact
    refine .same ?_ (hstay (by simp))
    change Proc.SameKin _ ((s.setProc b fun q => { q with state := .running }).proc b)
    rw [setProc_self]
    exact ⟨rfl, rfl, rfl⟩
  case allocpid i =>
    cases hact
    obtain ⟨p, kind, hm⟩ := hafter
    exact .unused (hpromise _ i _ (.inr hm) rfl) (.inl (by simp))
  case allocprocFound p kind i =>
    have hu := hpromise _ i _ (.inl rfl) rfl
    cases ch <;> simp only [State.act, reduceCtorEq] at hact <;>
      cases hact
    · exact .unused hu (.inl (by simp))
    · exact .unused hu (.inr (by simp [freeproc]))
    · exact .same (hrefl _) id
  case setParent p i =>
    cases hact
    obtain rfl : k = _ := hafter
    exact .setParent (hpromise (.setRunnable i) i _ (.inr (by simp)) rfl) (by simp)
  case reparent p i =>
    simp only [State.act] at hact
    split_ifs at hact with hi hp <;> cases hact
    · exact .reparent hp (by simp) (by simp) (by simp)
    all_goals exact .same (hrefl _) id
  case look p w i =>
    simp only [State.act] at hact
    split_ifs at hact with hz <;> cases hact
    · exact .same (hrefl _) id
    · exact .same (hrefl _) id
    · exact .reap hz (by simp [freeproc]) (by simp [freeproc])
    · exact .same (hrefl _) id

/-- A slot changes its channel only by its own `setChan`, or when it is freed. -/
theorem act_chan_cases (hact : s.act c ch a = some (s1, push)) (p : ℕ) :
    (s1.proc p).chan = (s.proc p).chan ∨
      (s1.proc p).state = .unused ∧ (s1.proc p).chan = none ∨
      ∃ chan, a = .setChan p chan ∧ (s1.proc p).chan = chan := by
  by_cases hq : a.slot = some p
  case neg => rw [act_slot hact hq]; exact .inl rfl
  cases a <;> simp only [Act.slot, Option.some.injEq, reduceCtorEq] at hq <;> subst hq
  case setChan p chan =>
    cases hact
    exact .inr (.inr ⟨chan, rfl, by simp⟩)
  case wakeupLook chan i =>
    simp only [State.act] at hact
    cases hact
    split_ifs <;> simp
  case allocprocFound p kind i =>
    cases ch <;> simp only [State.act, reduceCtorEq] at hact <;>
      cases hact
    · simp
    · exact .inr (.inl (by simp [freeproc]))
    · exact .inl rfl
  case look p w i =>
    simp only [State.act] at hact
    split_ifs at hact <;> cases hact
    · exact .inl rfl
    · exact .inl rfl
    · exact .inr (.inl (by simp [freeproc]))
    · exact .inl rfl
  case kkillLook | setpriorityLook | reparent =>
    simp only [State.act] at hact
    split_ifs at hact <;> cases hact <;> simp
  case schedSwtch b =>
    cases hact
    simp [State.setCpu, State.setProc]
  all_goals
    cases hact
    simp

theorem act_chan (hact : s.act c ch a = some (s1, push)) {p : ℕ}
    (hp : (s1.proc p).state ≠ .unused) :
    (s1.proc p).chan = (s.proc p).chan ∨ ∃ chan, a = .setChan p chan ∧ (s1.proc p).chan = chan := by
  rcases act_chan_cases hact p with h | ⟨h, -⟩ | h
  · exact .inl h
  · exact absurd h hp
  · exact .inr h

end Xv6.Sched
