import Mathlib.Tactic
import Xv6.Log.Recovery

/-!
# The capacity of the log

`begin_op` reserves room for `MAXOPBLOCKS` blocks per operation, so an operation
that keeps to that many blocks always finds room for a block it has not logged
yet. `log_write` however checks the room before it looks for the block: once the
log is exactly full it panics even for a block that is listed already.
-/

namespace Xv6.Log

open Redo Runs Function

/-- The blocks that an operation passes to `log_write` in a run. -/
def blocksOf (acts : List Action) (op : ℕ) : Finset ℕ :=
  (acts.filterMap fun a => match a with
    | .logWrite e => if e.op = op then some e.blockno else none
    | _ => none).toFinset

/-- A block is logged again only while the log is not full. -/
def Spare (s : State) : Action → Prop
  | .logWrite e => s.lh.Lists e.blockno → s.lh.n < logBlocks
  | _ => True

theorem blocksOf_snoc (acts : List Action) (a : Action) (op : ℕ) :
    blocksOf (acts ++ [a]) op = blocksOf acts op ∪ blocksOf [a] op := by
  simp [blocksOf, List.filterMap_append]

theorem blocksOf_mono (acts : List Action) (a : Action) (op : ℕ) :
    blocksOf acts op ⊆ blocksOf (acts ++ [a]) op := by
  rw [blocksOf_snoc]
  exact Finset.subset_union_left

/-- The blocks that an operation has logged into the current group. -/
def State.logged (s : State) (op : ℕ) : Finset ℕ :=
  ((s.pending.filter fun e => e.op = op).map Event.blockno).toFinset

/-- What the reservations of the running operations still allow them. -/
def State.reserved (s : State) : ℕ :=
  (s.active.map fun op => maxOpBlocks - (s.logged op).card).sum

/-- No block is listed twice. -/
def LogHeader.Distinct (lh : LogHeader) : Prop :=
  ∀ i < lh.n, ∀ j < lh.n, lh.block i = lh.block j → i = j

structure Capacity (start : ℕ) (acts : List Action) (s : State) : Prop where
  calm : s.phase ≠ .panicked
  committing : s.committing = true → s.phase.booted = true ∧ s.phase ≠ .running
  disk : (header start s.disk).Distinct
  n_le : s.lh.n ≤ logBlocks
  distinct : s.lh.Distinct
  room : s.phase = .running → s.lh.n + s.reserved ≤ logBlocks
  logged : ∀ op, s.logged op ⊆ blocksOf acts op

variable {start : ℕ} {init : ℕ → Block} {acts : List Action} {s t : State}

theorem distinct_of_empty {lh : LogHeader} (h : lh.n = 0) : lh.Distinct := by
  intro i hi
  omega

/-- Writing another block than the header leaves the header on disk alone. -/
theorem header_of_ne (disk : ℕ → Block) {b : ℕ} (hb : b ≠ start) (d : Block) :
    header start (update disk b d) = header start disk := by
  rw [header, update_of_ne hb.symm, header]

theorem Capacity.mono (h : Capacity start acts s) (a : Action) : Capacity start (acts ++ [a]) s :=
  { h with logged := fun op => (h.logged op).trans (blocksOf_mono acts a op) }

theorem Capacity.beginOp (h : Capacity start acts s) (hi : Inv start init s) {op : ℕ} (hs : beginOp s op = some t) : Capacity start acts t := by
  unfold Log.beginOp at hs
  split_ifs at hs with hc hfit
  cases hs
  refine ⟨h.calm, h.committing, h.disk, h.n_le, h.distinct, fun _ => ?_, h.logged⟩
  have hle := List.sum_le_card_nsmul
    ((op :: s.active).map fun op => maxOpBlocks - (s.logged op).card) maxOpBlocks (by simp)
  have hcount := hi.ops.count
  simp only [List.length_map, List.length_cons, smul_eq_mul, ← hcount] at hle
  exact (Nat.add_le_add_left hle _).trans (not_lt.mp hfit)

theorem logged_snoc (s : State) (e : Event) (op : ℕ) :
    State.logged { s with pending := s.pending ++ [e] } op =
      if e.op = op then insert e.blockno (s.logged op) else s.logged op := by
  unfold State.logged
  by_cases he : e.op = op
  · ext b
    simp [he, eq_comm]
  · simp [he]

theorem Capacity.logWrite (h : Capacity start acts s) (hi : Inv start init s) {e : Event}
    (hb : s.phase.booted = true) (hop : e.op ∈ s.active) (hhome : Home start e.blockno)
    (hbudget : (blocksOf (acts ++ [.logWrite e]) e.op).card ≤ maxOpBlocks)
    (hspare : Spare s (.logWrite e)) : Capacity start (acts ++ [.logWrite e]) (logWrite s e) := by
  have hrun := hi.running_of_active hb hop
  have hr : RunningInv start init s := by simpa [PhaseInv, hrun] using hi.phase
  have hroom := h.room hrun
  -- the operation's own blocks, before and after
  have hnew : insert e.blockno (s.logged e.op) ⊆ blocksOf (acts ++ [.logWrite e]) e.op := by
    refine Finset.insert_subset ?_ ((h.logged e.op).trans (blocksOf_mono _ _ _))
    simp [blocksOf]
  have hcard := (Finset.card_le_card hnew).trans hbudget
  have hfresh : ¬ s.lh.Lists e.blockno → e.blockno ∉ s.logged e.op := by
    intro hnot hmem
    simp only [State.logged, List.mem_toFinset, List.mem_map, List.mem_filter] at hmem
    obtain ⟨f, ⟨hf, -⟩, hfb⟩ := hmem
    exact hnot (hfb ▸ hr.listed f hf)
  -- logging a block that is not listed yet uses up a part of the reservation
  have hterm : ∀ op ∈ s.active, maxOpBlocks -
      (if e.op = op then insert e.blockno (s.logged op) else s.logged op).card ≤
      maxOpBlocks - (s.logged op).card := by
    intro op _
    split_ifs
    · exact Nat.sub_le_sub_left (Finset.card_le_card (Finset.subset_insert _ _)) _
    · exact le_rfl
  have hsum := List.sum_le_sum hterm
  have hsum' : ¬ s.lh.Lists e.blockno → (s.active.map fun op => maxOpBlocks -
      (if e.op = op then insert e.blockno (s.logged op) else s.logged op).card).sum <
      s.reserved := by
    intro hnot
    refine List.sum_lt_sum _ _ hterm ⟨e.op, hop, ?_⟩
    rw [if_pos rfl]
    rw [Finset.card_insert_of_notMem (hfresh hnot)] at hcard ⊢
    omega
  have hlt : s.lh.n < logBlocks := by
    by_cases hl : s.lh.Lists e.blockno
    · exact hspare hl
    · have := hsum' hl
      omega
  have hout : ¬ s.outstanding < 1 := by
    rw [hi.ops.count]
    have := List.length_pos_of_mem hop
    omega
  have hhead := (hr.head.record hhome hlt).1
  rw [Log.logWrite, if_neg (by omega), if_neg hout]
  refine ⟨h.calm, h.committing, h.disk, hhead.n_le, hhead.inj, fun _ => ?_, fun op => ?_⟩
  · have hres : State.reserved { s with pending := s.pending ++ [e] } = (s.active.map fun op =>
        maxOpBlocks -
          (if e.op = op then insert e.blockno (s.logged op) else s.logged op).card).sum := by
      simp only [State.reserved, logged_snoc]
    change (if s.lh.find e.blockno s.lh.n = s.lh.n then s.lh.n + 1 else s.lh.n) +
      State.reserved { s with pending := s.pending ++ [e] } ≤ _
    rw [hres]
    rcases s.lh.find_n e.blockno with ⟨hf, -⟩ | ⟨hf, hnot⟩
    · rw [if_neg (by omega)]
      exact (Nat.add_le_add_left hsum _).trans hroom
    · rw [if_pos hf]
      have := hsum' hnot
      omega
  · change State.logged { s with pending := s.pending ++ [e] } op ⊆ _
    rw [logged_snoc]
    split_ifs with he
    · exact he ▸ hnew
    · exact (h.logged op).trans (blocksOf_mono _ _ _)

theorem Capacity.endOp (h : Capacity start acts s) (hi : Inv start init s) {op : ℕ}
    (hb : s.phase.booted = true) (hop : op ∈ s.active) : Capacity start acts (endOp s op) := by
  have hrun := hi.running_of_active hb hop
  have hidle : s.committing = false := by
    by_contra hc
    exact (h.committing (by simpa using hc)).2 hrun
  have hsub : (s.active.erase op).Sublist s.active := List.erase_sublist
  simp only [Log.endOp, hidle, Bool.false_eq_true, if_false]
  split_ifs with hlast hn
  · exact ⟨by simp, by simp [Phase.booted], h.disk, h.n_le, h.distinct, by simp,
      by simp [State.logged]⟩
  · exact ⟨by simp, by simp [Phase.booted], h.disk, h.n_le, h.distinct, by simp, h.logged⟩
  · refine ⟨h.calm, by simp, h.disk, h.n_le, h.distinct, fun _ => ?_, h.logged⟩
    have hsum := (hsub.map fun op => maxOpBlocks - (s.logged op).card).sum_le_sum
      (fun _ _ => Nat.zero_le _)
    exact (Nat.add_le_add_left hsum _).trans (h.room hrun)

theorem LogHeader.Distinct.onDisk {lh : LogHeader} (h : lh.Distinct) (disk : ℕ → Block) (hb : Block) :
    (header start (update disk start (lh.toBlock hb))).Distinct := by
  obtain ⟨hn, hblock⟩ := header_writeHead lh hb
  rw [header, update_self]
  intro i hi j hj he
  rw [hn] at hi hj
  rw [hblock i hi, hblock j hj] at he
  exact h i hi j hj he

theorem Capacity.of_diskWrite (h : Capacity start acts s) (hdisk : (header start t.disk).Distinct)
    (hlh : t.lh = s.lh ∨ t.lh.n = 0) (hphase : t.phase ≠ .panicked)
    (hcommit : s.committing = true → t.phase.booted = true ∧ t.phase ≠ .running)
    (hflag : t.committing = s.committing) (hpending : t.pending = s.pending)
    (hrun : t.phase = .running → t.active = []) : Capacity start acts t where
  calm := hphase
  committing := hflag ▸ hcommit
  disk := hdisk
  n_le := by
    rcases hlh with hlh | hlh
    · exact hlh ▸ h.n_le
    · omega
  distinct := by
    rcases hlh with hlh | hlh
    · exact hlh ▸ h.distinct
    · exact distinct_of_empty hlh
  room hp := by
    have hn : t.lh.n ≤ logBlocks := by
      rcases hlh with hlh | hlh
      · exact hlh ▸ h.n_le
      · omega
    simpa [State.reserved, hrun hp] using hn
  logged := by simpa [State.logged, hpending] using h.logged

/-- The disk writes of commit and recovery keep the header and its copy on disk
free of duplicates. -/
theorem Capacity.diskWrite (h : Capacity start acts s) (hi : Inv start init s)
    (hs : diskWrite start s = some t) : Capacity start acts t := by
  have hphase := hi.phase
  cases hp : s.phase with
  | writeLog k =>
    simp only [Log.diskWrite, hp, Option.some.injEq] at hs
    subst hs
    refine h.of_diskWrite ?_ (.inl rfl) ?_ ?_ rfl rfl ?_
    · change (header start (update s.disk (start + k + 1) _)).Distinct
      rw [header_of_ne _ (by omega)]
      exact h.disk
    all_goals simp only [writeLog]; split_ifs <;> simp [Phase.booted]
  | writeHead =>
    simp only [Log.diskWrite, hp, Option.some.injEq] at hs
    subst hs
    exact h.of_diskWrite (h.distinct.onDisk _ _) (.inl rfl) (by simp [writeHead])
      (by simp [writeHead, Phase.booted]) rfl rfl (by simp [writeHead])
  | installTrans k =>
    obtain ⟨hk, hins⟩ : k < s.lh.n ∧ InstallingInv start init s k := by
      simpa [PhaseInv, hp] using hphase
    have hdisk := header_of_ne s.disk (hins.head.home k hk).ne_start
      (s.bread (start + k + 1)) ▸ h.disk
    simp only [Log.diskWrite, hp, Option.some.injEq] at hs
    split_ifs at hs <;> subst hs
    · exact h.of_diskWrite hdisk (.inl rfl) (by simp) (by simp [Phase.booted]) rfl rfl (by simp)
    · exact h.of_diskWrite hdisk (.inr rfl) (by simp [State.clearHead])
        (by simp [State.clearHead, Phase.booted]) rfl rfl (by simp [State.clearHead])
  | eraseHead =>
    simp only [Log.diskWrite, hp, Option.some.injEq] at hs
    subst hs
    exact h.of_diskWrite (h.distinct.onDisk _ _) (.inl rfl) (by simp [writeHead])
      (by simp [writeHead, Phase.booted]) rfl rfl (by simp [writeHead])
  | recoverTrans k =>
    obtain ⟨hk, hrec⟩ : k < s.lh.n ∧ RecoveringInv start init s k := by
      simpa [PhaseInv, hp] using hphase
    have hhome : Home start (s.lh.block k) :=
      hrec.onDisk.2 k hk ▸ hi.recoverable.home k (hrec.onDisk.1 ▸ hk)
    have hdisk := header_of_ne s.disk hhome.ne_start (s.bread (start + k + 1)) ▸ h.disk
    have hidle : s.committing ≠ true := fun hc => by simpa [hp, Phase.booted] using h.committing hc
    simp only [Log.diskWrite, hp, Option.some.injEq] at hs
    split_ifs at hs <;> subst hs
    · exact h.of_diskWrite hdisk (.inl rfl) (by simp) (fun hc => (hidle hc).elim) rfl rfl (by simp)
    · exact h.of_diskWrite hdisk (.inr rfl) (by simp [State.clearHead])
        (fun hc => (hidle hc).elim) rfl rfl (by simp [State.clearHead])
  | recoverHead =>
    have hidle : s.committing ≠ true := fun hc => by simpa [hp, Phase.booted] using h.committing hc
    have hactive := (hi.ops.quiet (by simp [hp]) (by simp [hp])).1
    simp only [Log.diskWrite, hp, Option.some.injEq] at hs
    subst hs
    exact h.of_diskWrite (h.distinct.onDisk _ _) (.inl rfl) (by simp [writeHead])
      (fun hc => (hidle hc).elim) rfl rfl (fun _ => hactive)
  | running | committed | readHead | panicked => simp [Log.diskWrite, hp] at hs

theorem Capacity.step_other {a : Action} (h : Capacity start acts s) (hi : Inv start init s)
    (ha : ∀ e, a ≠ .logWrite e) (hs : step start s a = some t) : Capacity start acts t := by
  cases a with
  | beginOp op =>
    simp only [Log.step] at hs
    split_ifs at hs with hc
    exact h.beginOp hi hs
  | logWrite e => exact (ha e rfl).elim
  | endOp op =>
    simp only [Log.step, Option.ite_none_right_eq_some, Option.some.injEq] at hs
    exact hs.2 ▸ h.endOp hi hs.1.1 hs.1.2
  | diskWrite => exact h.diskWrite hi hs
  | readHead =>
    simp only [Log.step, Option.ite_none_right_eq_some, Option.some.injEq] at hs
    obtain ⟨hp, rfl⟩ := hs
    have hclean : ∀ b, s.Clean b := by simpa [PhaseInv, hp] using hi.phase
    have hlh : (readHead start s).lh = header start s.disk := by
      simp [readHead, header, State.bread_clean (hclean start)]
    have hne : (readHead start s).phase ≠ .panicked ∧ (readHead start s).phase ≠ .running := by
      simp only [readHead]
      split_ifs <;> simp
    have hidle : s.committing ≠ true := fun hc => by simpa [hp, Phase.booted] using h.committing hc
    exact ⟨hne.1, fun hc => (hidle hc).elim, h.disk, hlh ▸ hi.recoverable.n_le, hlh ▸ h.disk,
      fun hr => (hne.2 hr).elim, h.logged⟩
  | endCommit =>
    simp only [Log.step, Option.ite_none_right_eq_some, Option.some.injEq] at hs
    obtain ⟨hp, rfl⟩ := hs
    have hactive := (hi.ops.quiet (by simp [hp]) (by simp [hp])).1
    refine ⟨by simp, by simp, h.disk, h.n_le, h.distinct, fun _ => ?_, h.logged⟩
    simpa [State.reserved, hactive] using h.n_le
  | bread b =>
    simp only [Log.step, Option.ite_none_left_eq_some, Option.some.injEq] at hs
    obtain ⟨-, rfl⟩ := hs
    exact ⟨h.calm, h.committing, h.disk, h.n_le, h.distinct, h.room, h.logged⟩
  | recycle b =>
    simp only [Log.step, Option.ite_none_right_eq_some, Option.some.injEq] at hs
    obtain ⟨-, rfl⟩ := hs
    exact ⟨h.calm, h.committing, h.disk, h.n_le, h.distinct, h.room, h.logged⟩
  | crash =>
    simp only [Log.step, Option.some.injEq] at hs
    subst hs
    exact ⟨by simp [State.reboot], by simp [State.reboot], h.disk, by simp [State.reboot],
      distinct_of_empty rfl, by simp [State.reboot], by simp [State.reboot, State.logged]⟩

theorem Capacity.step {a : Action} (h : Capacity start acts s) (hi : Inv start init s)
    (hbudget : ∀ op, (blocksOf (acts ++ [a]) op).card ≤ maxOpBlocks) (hspare : Spare s a)
    (hs : step start s a = some t) : Capacity start (acts ++ [a]) t := by
  by_cases ha : ∃ e, a = .logWrite e
  · obtain ⟨e, rfl⟩ := ha
    simp only [Log.step, Option.ite_none_right_eq_some, Option.some.injEq] at hs
    exact hs.2 ▸ h.logWrite hi hs.1.1 hs.1.2.1 hs.1.2.2 (hbudget e.op) hspare
  · exact (h.step_other hi (fun e he => ha ⟨e, he⟩) hs).mono a

theorem capacity_boot {disk : ℕ → Block} (h0 : disk start 0 = 0) :
    Capacity start [] (boot disk) where
  calm := by simp [boot]
  committing := by simp [boot]
  disk := distinct_of_empty h0
  n_le := by simp [boot]
  distinct := distinct_of_empty rfl
  room := by simp [boot]
  logged := by simp [boot, State.logged]

/-- Operations that keep to `MAXOPBLOCKS` blocks each, and do not log a block
again when the log is exactly full, never overflow the log: the header lists at
most `LOGBLOCKS` different blocks and nothing panics. -/
theorem log_capacity (start : ℕ) (disk : ℕ → Block) (h0 : disk start 0 = 0) (acts : List Action)
    (hbudget : ∀ op, (blocksOf acts op).card ≤ maxOpBlocks)
    (hspare : Along (step start) Spare (boot disk) acts) (s : State)
    (hrun : exec (step start) (boot disk) acts = some s) :
    s.lh.n ≤ logBlocks ∧ (∀ i < s.lh.n, ∀ j < s.lh.n, s.lh.block i = s.lh.block j → i = j) ∧
      s.phase ≠ .panicked := by
  have hcap := exec_along (I := fun as t => (∀ op, (blocksOf as op).card ≤ maxOpBlocks) →
      Capacity start as t) (fun _ => capacity_boot h0) (fun as t a u hrun hI hP hs hbudget =>
      (hI fun op => (Finset.card_le_card (blocksOf_mono as a op)).trans (hbudget op)).step
        (inv_exec h0 hrun) hbudget hP hs) acts hspare hrun hbudget
  exact ⟨hcap.n_le, hcap.distinct, hcap.calm⟩

/-- Three operations fill the log with ten blocks each. -/
def fill : List Action :=
  [.readHead, .diskWrite, .beginOp 1, .beginOp 2, .beginOp 3] ++
    (List.range logBlocks).map fun i => .logWrite ⟨1 + i / maxOpBlocks, 100 + i, fun _ => i⟩

/-- The first operation then logs one of its blocks again. -/
def refill : List Action := fill ++ [.logWrite ⟨1, 100, fun _ => 7⟩]

theorem blocksOf_refill (op : ℕ) : (blocksOf refill op).card ≤ maxOpBlocks := by
  by_cases hop : op ∈ [1, 2, 3]
  · revert op
    decide +kernel
  · have hops : ∀ a ∈ refill, ∀ e, a = .logWrite e → e.op ∈ [1, 2, 3] := by
      intro a ha e he
      subst he
      simp only [refill, fill, List.mem_append, List.mem_map, List.mem_range, List.mem_cons,
        Action.logWrite.injEq, reduceCtorEq, List.not_mem_nil, or_false, false_or] at ha
      rcases ha with ⟨i, hi, rfl⟩ | rfl
      · simp only [logBlocks, maxOpBlocks] at hi ⊢
        simp
        omega
      · simp
    have hempty : blocksOf refill op = ∅ := by
      refine (List.toFinset_eq_empty_iff _).mpr (List.filterMap_eq_nil_iff.mpr fun a ha => ?_)
      cases a with
      | logWrite e =>
        have := hops _ ha e rfl
        simp only [ite_eq_right_iff, reduceCtorEq, imp_false]
        rintro rfl
        exact hop this
      | _ => rfl
    simp [hempty]

theorem blocksOf_fill (op : ℕ) : (blocksOf fill op).card ≤ maxOpBlocks :=
  (Finset.card_le_card (blocksOf_mono fill _ op)).trans (blocksOf_refill op)

instance (s : State) : ∀ a, Decidable (Spare s a)
  | .logWrite e => inferInstanceAs (Decidable (s.lh.Lists e.blockno → s.lh.n < logBlocks))
  | .beginOp _ | .endOp _ | .diskWrite | .readHead | .endCommit | .bread _ | .recycle _
  | .crash => isTrue trivial

theorem log_capacity_fill : ∃ s, exec (step 2) (boot fun _ _ => 0) fill = some s ∧
    s.lh.n = logBlocks ∧ s.phase ≠ .panicked := by
  refine ⟨_, rfl, by decide +kernel, ?_⟩
  exact (log_capacity 2 (fun _ _ => 0) rfl fill blocksOf_fill (by decide +kernel) _ rfl).2.2

theorem log_capacity_refill :
    (∀ op, (blocksOf refill op).card ≤ maxOpBlocks) ∧
      ∃ s, exec (step 2) (boot fun _ _ => 0) refill = some s ∧ s.phase = .panicked := by
  refine ⟨blocksOf_refill, _, rfl, ?_⟩
  decide +kernel

end Xv6.Log
