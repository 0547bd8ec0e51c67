import Xv6.Sync.Semaphore

/-!
# The range of semaphore counts

`sys_sem_init` accepts every non-negative `int`, and `sys_sem_post` has no upper bound: a
post at the largest `int` wraps. In runs in which no post meets that count, counts stay
in range and the calls change them by one.
-/

namespace Xv6.Sync

open LockCode Runs Sched Function

variable {C : Type}

/-- The semaphore that the body of a call increments. -/
def Op.posts : Op → Phase → Option (Fin nksem)
  | .semPost id, .loop => some id
  | _, _ => none

/-- The semaphore that a step increments. -/
def State.posts (s : State C) (l : Label C) : Option (Fin nksem) :=
  match l.choice, next s.sched l.cpu with
  | .op, some (.act (.critical p _)) => (s.op p).bind fun x => x.1.posts x.2
  | _, _ => none

/-- A post does not meet the largest count. -/
def State.room (s : State C) (l : Label C) : Prop :=
  ∀ id, s.posts l = some id → (s.ksems id).count < 2 ^ 31 - 1

instance (s : State C) (l : Label C) : Decidable (s.room l) := by
  unfold State.room
  infer_instance

/-- What a step does to the count of a semaphore: a post adds one on its way to `wakeup`
and returns 0 from there, a wait that returns 0 takes one, and an init call sets it. -/
structure Tallied (s : State C) (l : Label C) (t : State C) (id : Fin nksem) : Prop where
  post : s.posts l = some id → (t.ksems id).count = (s.ksems id).count + 1
  woken : ∀ p, t.op p = some (.semPost id, .woken) →
    s.op p = some (.semPost id, .woken) ∨ s.op p = some (.semPost id, .loop) ∧ s.posts l = some id
  posted : ∀ k v, t.hist = s.hist ++ [.ret k (.semPost id) v] →
    v = 0 ∧ ∃ p, s.op p = some (.semPost id, .woken) ∧ t.op p = none
  wait : ∀ k, t.hist = s.hist ++ [.ret k (.semWait id) 0] →
    0 < (s.ksems id).count ∧ (t.ksems id).count = (s.ksems id).count - 1
  other : (t.ksems id).count ≠ (s.ksems id).count → s.posts l = some id ∨
    (∃ k, t.hist = s.hist ++ [.ret k (.semWait id) 0]) ∨
    ∃ k v, t.hist = s.hist ++ [.ret k (.semInit id v) 0] ∧ 0 ≤ v ∧ v < 2 ^ 31 ∧
      (t.ksems id).count = v

/-- Counts, and the values that init calls are about to set, are non-negative `int`s. -/
structure Ranged (s : State C) : Prop where
  count : ∀ id, 0 ≤ (s.ksems id).count ∧ (s.ksems id).count < 2 ^ 31
  value : ∀ p id v ph, s.op p = some (.semInit id v, ph) → 0 ≤ v ∧ v < 2 ^ 31

section

variable {s s1 t : State C} {l : Label C} {p : ℕ} {o : Op} {ph : Phase} {r : Reply}

theorem Tallied.of_quiet {id : Fin nksem} (hpost : s.posts l = none)
    (hcount : (t.ksems id).count = (s.ksems id).count)
    (hhist : ∀ k x v, t.hist ≠ s.hist ++ [.ret k x v])
    (hop : ∀ q, t.op q = some (.semPost id, .woken) → s.op q = some (.semPost id, .woken)) :
    Tallied s l t id where
  post h := by simp [hpost] at h
  woken q hq := .inl (hop q hq)
  posted k v h := absurd h (hhist k _ v)
  wait k h := absurd h (hhist k _ 0)
  other h := absurd hcount h

theorem Op.posts_eq {id : Fin nksem} (h : o.posts ph = some id) : o = .semPost id ∧ ph = .loop := by
  cases o <;> cases ph <;> simp_all [Op.posts]

theorem Reply.events_eq {hist : List Event} {k k' : ℕ} {x : Op} {v : ℤ}
    (h : hist ++ r.events k o = hist ++ [.ret k' x v]) : o = x ∧ r = .ret v := by
  have he := List.append_cancel_left h
  cases r <;> simp_all [Reply.events]

theorem Reply.op_woken {x : Op} (h : r.op o = some (x, .woken)) : o = x ∧ r = .wakeup := by
  cases r <;> simp_all [Reply.op]

theorem run_sem_cases {id : Fin nksem} (hrun : s.run p o ph = some (s1, r))
    (ho : o.obj = .sem id) :
    (∃ v, o = .semInit id v ∧ (s1.ksems id).count = v ∧ r = .ret 0) ∨
    (o = .semWait id ∧ (s.ksems id).count ≠ 0 ∧
      (s1.ksems id).count = int32 ((s.ksems id).count - 1) ∧ r = .ret 0) ∨
    (o = .semPost id ∧ ph = .loop ∧
      (s1.ksems id).count = int32 ((s.ksems id).count + 1) ∧ r = .wakeup) ∨
    (o = .semPost id ∧ ph = .woken ∧ (s1.ksems id).count = (s.ksems id).count ∧ r = .ret 0) ∨
    o = .semWait id ∧ (s1.ksems id).count = (s.ksems id).count ∧ r ≠ .ret 0 ∧ r ≠ .wakeup := by
  cases o <;> simp only [Op.obj, Obj.sem.injEq, reduceCtorEq] at ho <;> subst ho <;>
    cases ph <;> simp only [State.run, reduceCtorEq] at hrun
  case semWait.loop =>
    split_ifs at hrun with hzero <;> cases hrun
    · simp
    · simp [State.setSem, hzero]
  case semWait.checked killed =>
    cases hrun
    cases killed <;> simp
  all_goals
    cases hrun
    simp [State.setSem]

theorem tallied_body {n : ℕ} (hl : l.choice = .op)
    (hnext : next s.sched l.cpu = some (.act (.critical p n))) (hop : s.op p = some (o, ph))
    (hrun : s.run p o ph = some (s1, r)) (hs : Ranged s) (hroom : s.room l) (k : ℕ)
    (id : Fin nksem) (hksems : t.ksems = s1.ksems) (htop : t.op = update s.op p (r.op o))
    (hhist : t.hist = s.hist ++ r.events k o) : Tallied s l t id := by
  have hposts : s.posts l = o.posts ph := by
    simp only [State.posts, hl, hnext, hop, Option.bind_some]
  have hpost : s.posts l = some id → o = .semPost id ∧ ph = .loop := fun h =>
    Op.posts_eq (hposts ▸ h)
  have hret : ∀ k' x v, t.hist = s.hist ++ [.ret k' x v] → o = x ∧ r = .ret v := fun k' x v h =>
    Reply.events_eq (hhist ▸ h)
  have hwoken : ∀ q, t.op q = some (.semPost id, .woken) → s.op q = some (.semPost id, .woken) ∨
      q = p ∧ o = .semPost id ∧ r = .wakeup := by
    intro q hq
    rw [htop] at hq
    by_cases hqp : q = p
    · subst hqp
      rw [update_self] at hq
      exact .inr ⟨rfl, Reply.op_woken hq⟩
    · rw [update_of_ne hqp] at hq
      exact .inl hq
  obtain ⟨hlo, hhi⟩ := hs.count id
  by_cases ho : o.obj = .sem id
  · rcases run_sem_cases hrun ho with ⟨v, rfl, hc, rfl⟩ | ⟨rfl, hne, hc, rfl⟩ |
      ⟨rfl, rfl, hc, rfl⟩ | ⟨rfl, rfl, hc, rfl⟩ | ⟨rfl, hc, hr, hw⟩
    · exact ⟨fun h => by simpa using (hpost h).1, fun q hq => .inl (by simpa using hwoken q hq),
        fun k' v' h => by simpa using (hret _ _ _ h).1, fun k' h => by simpa using (hret _ _ _ h).1,
        fun _ => .inr (.inr ⟨k, v, hhist, (hs.value p id v ph hop).1, (hs.value p id v ph hop).2,
          by rw [hksems, hc]⟩)⟩
    · rw [int32_of_lt (by omega) (by omega)] at hc
      exact ⟨fun h => by simpa using (hpost h).1, fun q hq => .inl (by simpa using hwoken q hq),
        fun k' v' h => by simpa using (hret _ _ _ h).1, fun _ _ => ⟨by omega, by rw [hksems, hc]⟩,
        fun _ => .inr (.inl ⟨k, hhist⟩)⟩
    · have hlt := hroom id hposts
      rw [int32_of_lt (by omega) (by omega)] at hc
      refine ⟨fun _ => by rw [hksems, hc], fun q hq => ?_, fun k' v' h => by simpa using (hret _ _ _ h).2,
        fun k' h => by simpa using (hret _ _ _ h).1, fun _ => .inl hposts⟩
      rcases hwoken q hq with h | ⟨rfl, -, -⟩
      · exact .inl h
      · exact .inr ⟨hop, hposts⟩
    · refine ⟨fun h => by simpa using (hpost h).2, fun q hq => .inl (by simpa using hwoken q hq),
        fun k' v' h => ⟨?_, p, hop, ?_⟩, fun k' h => by simpa using (hret _ _ _ h).1,
        fun h => absurd (by rw [hksems, hc]) h⟩
      · simpa using (hret _ _ _ h).2.symm
      · rw [htop, update_self]
        rfl
    · exact ⟨fun h => by simpa using (hpost h).1, fun q hq => .inl (by simpa using hwoken q hq),
        fun k' v' h => by simpa using (hret _ _ _ h).1, fun k' h => absurd (hret _ _ _ h).2 hr,
        fun h => absurd (by rw [hksems, hc]) h⟩
  · have hne : o ≠ .semPost id ∧ o ≠ .semWait id := by
      constructor <;> rintro rfl <;> exact ho rfl
    exact ⟨fun h => absurd (hpost h).1 hne.1,
      fun q hq => .inl ((hwoken q hq).resolve_right fun h => hne.1 h.2.1),
      fun k' v h => absurd (hret _ _ _ h).1 hne.1, fun k' h => absurd (hret _ _ _ h).1 hne.2,
      fun h => absurd (by rw [hksems, run_sem hrun ho]) h⟩

theorem Tallied.ranged {id : Fin nksem} (h : Tallied s l t id) (hs : Ranged s)
    (hroom : s.room l) : 0 ≤ (t.ksems id).count ∧ (t.ksems id).count < 2 ^ 31 := by
  have hold := hs.count id
  by_cases hne : (t.ksems id).count = (s.ksems id).count
  · rw [hne]
    exact hold
  · rcases h.other hne with hp | ⟨k, hk⟩ | ⟨k, v, -, h0, hv, hc⟩
    · have := hroom id hp
      have := h.post hp
      omega
    · have := h.wait k hk
      omega
    · omega

theorem Ranged.value_update (hs : Ranged s) {x : Option (Op × Phase)}
    (hx : ∀ id v ph, x = some (.semInit id v, ph) → 0 ≤ v ∧ v < 2 ^ 31) (q : ℕ) (id : Fin nksem)
    (v : ℤ) (ph : Phase) (hq : update s.op p x q = some (.semInit id v, ph)) :
    0 ≤ v ∧ v < 2 ^ 31 := by
  by_cases hqp : q = p
  · subst hqp
    rw [update_self] at hq
    exact hx id v ph hq
  · rw [update_of_ne hqp] at hq
    exact hs.value q id v ph hq

theorem Moved.tallied [DecidableEq C] (h : Moved s l t) (hs : Ranged s) (hroom : s.room l) :
    (∀ id, Tallied s l t id) ∧
      ∀ q id v ph, t.op q = some (.semInit id v, ph) → 0 ≤ v ∧ v < 2 ^ 31 := by
  have hwoken : ∀ {o : Op} {ph : Phase} {p : ℕ} {id : Fin nksem}, ph ≠ .woken → ∀ q,
      update s.op p (some (o, ph)) q = some (.semPost id, .woken) →
      s.op q = some (.semPost id, .woken) := by
    intro o ph p id hph q hq
    by_cases hqp : q = p
    · subst hqp
      rw [update_self] at hq
      cases hq
      exact absurd rfl hph
    · rwa [update_of_ne hqp] at hq
  cases h with
  | sched ch t hl _ hlift =>
    refine ⟨fun id => .of_quiet (by simp [State.posts, hl]) (by rw [hlift.ksems])
      (by simp [hlift.hist]) fun q hq => by rwa [hlift.op] at hq, ?_⟩
    rw [hlift.op]
    exact hs.value
  | reject p call hl hnext hop hcheck =>
    exact ⟨fun id => .of_quiet (by simp [State.posts, hl]) rfl (by simp [State.log])
      fun q hq => hq, hs.value⟩
  | fresh p call o hl hnext hop hcheck hf =>
    refine ⟨fun id => .of_quiet (by simp [State.posts, hl]) rfl (by simp [State.log, State.setOp])
      (hwoken (by simp)), hs.value_update ?_⟩
    rintro id v ph ⟨⟩
    exact check_value hcheck
  | enter p call o t hl hnext hop hcheck hf hlift =>
    have htop : (t.setOp p (some (o, .loop))).op = update s.op p (some (o, .loop)) :=
      congrArg (update · p _) hlift.op
    refine ⟨fun id => .of_quiet (by simp [State.posts, hl]) (congrArg (fun f => (f id).count)
      hlift.ksems) (by simp [State.setOp, hlift.hist, State.log]) ?_, ?_⟩
    · rw [htop]
      exact hwoken (by simp)
    · rw [htop]
      refine hs.value_update ?_
      rintro id v ph ⟨⟩
      exact check_value hcheck
  | initlock p o t hl hnext hop hlift =>
    have htop : (t.setOp p (some (o, .loop))).op = update s.op p (some (o, .loop)) := by
      refine congrArg (update · p _) (hlift.op.trans ?_)
      cases o <;> rfl
    have hhist : t.hist = s.hist := by
      refine hlift.hist.trans ?_
      cases o <;> rfl
    refine ⟨fun id => .of_quiet (by simp [State.posts, hl, hnext])
      ((congrArg (fun f => (f id).count) hlift.ksems).trans (initlock_same.count id))
      (by simp [State.setOp, hhist]) ?_, ?_⟩
    · rw [htop]
      exact hwoken (by simp)
    · rw [htop]
      refine hs.value_update ?_
      rintro id v ph ⟨⟩
      exact hs.value p id v _ hop
  | body p n o ph s1 r t hl hnext hop hrun hlift =>
    have hran := run_ran hrun
    have htop : t.op = s.op := hlift.op.trans hran.op
    refine ⟨fun id => tallied_body hl hnext hop hrun hs hroom (t.born p) id hlift.ksems ?_ ?_, ?_⟩
    · exact congrArg (update · p _) htop
    · exact congrArg (· ++ _) (hlift.hist.trans hran.hist)
    · intro q id v ph' hq
      change update t.op p (r.op o) q = _ at hq
      rw [htop] at hq
      refine hs.value_update (fun id v ph' hr => ?_) q id v ph' hq
      cases r <;> cases hr <;> exact hs.value p id v ph hop
  | killed p n o t hl hnext hop hlift =>
    have htop : ∀ x, (t.setOp p x).op = update s.op p x := fun x => by rw [State.setOp, hlift.op]
    refine ⟨fun id => .of_quiet (by simp [State.posts, hl, hnext]) (congrArg (fun f => (f id).count)
      hlift.ksems) (by simp [State.setOp, hlift.hist]) ?_, ?_⟩
    · rw [htop]
      exact hwoken (by simp)
    · rw [htop]
      refine hs.value_update ?_
      rintro id v ph ⟨⟩
      exact hs.value p id v _ hop

end

variable [DecidableEq C]

/-- If no post meets the largest count, no count leaves the range of the non-negative
`int`s, and every call that returns 0 changes its count as it says. -/
theorem semaphore_ranged (ls : List (Label C)) (s : State C)
    (hcond : Along step State.room boot ls) (hrun : exec step boot ls = some s) :
    (∀ id, 0 ≤ (s.ksems id).count ∧ (s.ksems id).count < 2 ^ 31) ∧
    ∀ l t, s.room l → step s l = some t → ∀ id, Tallied s l t id := by
  have hranged : Ranged s := by
    refine exec_along (I := fun _ s => Ranged s) ⟨fun _ => by simp [boot], fun _ _ _ _ h => by cases h⟩
      (fun _ s l t _ hs hroom hstep => ?_) ls hcond hrun
    obtain ⟨htally, hvalue⟩ := (step_moved hstep).tallied hs hroom
    exact ⟨fun id => (htally id).ranged hs hroom, hvalue⟩
  exact ⟨hranged.count, fun l t hroom hstep => ((step_moved hstep).tallied hranged hroom).1⟩

/-- The first process initialises semaphore 0 with `v` and posts to it. -/
def initPost (v : ℤ) : List (Label (Fin 1)) :=
  go 258 ++ [cpu0 (.call (.semInit 0 v)), cpu0 .op] ++ go 1 ++ [cpu0 .op] ++ go 1 ++
    [cpu0 (.call (.semPost 0))] ++ go 1 ++ [cpu0 .op] ++ go 254 ++ [cpu0 .op]

theorem initPost_ends :
    (exec step boot (initPost (2 ^ 31 - 1))).map (fun s => (s.hist.getLast?, s.ksems 0)) =
      some (some (.ret 0 (.semPost 0) 0), ⟨true, -2 ^ 31⟩) ∧
    (exec step boot (initPost 2)).isSome = true ∧ Along step State.room boot (initPost 2) := by
  decide +kernel

/-- A post to the largest count returns 0 and leaves a negative count. -/
theorem semaphore_wraps : ∃ s : State (Fin 1), exec step boot (initPost (2 ^ 31 - 1)) = some s ∧
    s.hist.getLast? = some (.ret 0 (.semPost 0) 0) ∧ (s.ksems 0).used = true ∧
    (s.ksems 0).count = -2 ^ 31 := by
  obtain ⟨s, hs, he⟩ := Option.map_eq_some_iff.mp initPost_ends.1
  obtain ⟨hhist, hsem⟩ := Prod.mk.inj he
  exact ⟨s, hs, hhist, by rw [hsem], by rw [hsem]⟩

theorem semaphore_ranged_initPost : Along step State.room boot (initPost 2) ∧
    ∃ s : State (Fin 1), exec step boot (initPost 2) = some s ∧
      ∀ id, 0 ≤ (s.ksems id).count ∧ (s.ksems id).count < 2 ^ 31 := by
  obtain ⟨-, hrun, hroom⟩ := initPost_ends
  obtain ⟨s, hs⟩ := Option.isSome_iff_exists.mp hrun
  exact ⟨hroom, s, hs, (semaphore_ranged (initPost 2) s hroom hs).1⟩

end Xv6.Sync
