import Xv6.Fs.Names

/-!
# System calls on files

The references to table entries are those of the current directories and of the open
files, and the references to open files are those of the descriptors. Every system
call keeps this, does one thing to the nodes, and logs few blocks in each of its
transactions.
-/

namespace Xv6.Fs

open Eff Bag Function

/-! ## Transactions -/

/-- In the transactions between `l` and `l'` few distinct blocks have been logged. -/
def Log.Fits (l l' : Log) : Prop :=
  ∃ new, l'.ended = new ++ l.ended ∧ ∀ blocks ∈ new, blocks.dedup.length ≤ maxopblocks

/-- Besides blocks of the bitmap fewer than `MAXOPBLOCKS` have been logged. -/
def Log.Small (sb : Superblock) (l l' : Log) : Prop :=
  ∃ (L : List ℕ) (r : ℕ), L.length + r < maxopblocks ∧ l.Few sb (· ∈ L) r l'

section

variable {sb : Superblock} {l l' l'' : Log} {F : ℕ → Prop} {r : ℕ} {L : List ℕ}

theorem Log.Fits.refl : l.Fits l := ⟨[], rfl, fun _ hb => by cases hb⟩

theorem Log.Fits.trans (h : l.Fits l') (h' : l'.Fits l'') : l.Fits l'' := by
  obtain ⟨new, hended, hnew⟩ := h
  obtain ⟨new', hended', hnew'⟩ := h'
  refine ⟨new' ++ new, ?_, fun blocks hb => ?_⟩
  · rw [hended', hended, List.append_assoc]
  · exact (List.mem_append.mp hb).elim (hnew' blocks) (hnew blocks)

theorem Log.Small.fits (h : l.beginOp.Small sb l') (hsize : sb.size ≤ bpb) :
    l.Fits l'.endOp := by
  obtain ⟨L, r, hlen, S, hS, hadds⟩ := h
  refine ⟨[l'.blocks], ?_, fun blocks hb => ?_⟩
  · change l'.blocks :: l'.ended = _
    rw [hadds.ended]
    rfl
  rw [List.mem_singleton.mp hb]
  have hsub : l'.blocks.dedup ⊆ sb.bmapstart :: (L ++ S) := by
    intro b hb
    rcases hadds.blocks b (List.mem_dedup.mp hb) with hb | ⟨a, ha, rfl⟩ | hb | hb
    · cases hb
    · have hzero : a / bpb = 0 := Nat.div_eq_of_lt (ha.trans_le hsize)
      simp [bblock, hzero]
    · exact List.mem_cons_of_mem _ (List.mem_append_left _ hb)
    · exact List.mem_cons_of_mem _ (List.mem_append_right _ hb)
  have hle := ((List.nodup_dedup _).subperm hsub).length_le
  simp only [List.length_cons, List.length_append] at hle
  omega

theorem Log.Few.one {a : ℕ} (h : l.Few sb (· = a) r l') (hr : r ≤ 8) : l.Small sb l' := by
  refine ⟨[a], r, ?_, h.mono (fun b hb => List.mem_singleton.mpr hb) le_rfl⟩
  unfold maxopblocks
  simp
  omega

theorem Log.Few.pair {d i : ℕ} (h : l.Few sb (fun b => b = iblock sb d ∨ b = iblock sb i) r l')
    (hr : r ≤ 7) : l.Small sb l' := by
  refine ⟨[iblock sb d, iblock sb i], r, ?_, h.mono (fun b hb => ?_) le_rfl⟩
  · unfold maxopblocks
    simp
    omega
  · rcases hb with rfl | rfl <;> simp

end

section

variable {α : Type} {E : String → Prop} {f : M α} {s : State} {Q : α → State → Prop}

def State.begun (s : State) : State := { s with log := s.log.beginOp }

def State.ended (s : State) : State := { s with log := s.log.endOp }

theorem within_transaction (h : Within E f s.begun fun r t => Q r t.ended) :
    Within E (transaction f) s Q := by
  unfold transaction beginOp endOp
  apply within_modify_bind
  exact h.bind fun r t ht => within_modify_bind (within_pure ht)

end

/-! ## References -/

/-- The table entry that an open file refers to. -/
def File.held (f : File) : Multiset ℕ := if f.type = .none then 0 else {f.ip}

/-- The table entries that current directories and open files refer to. -/
def refs (s : State) : Multiset ℕ :=
  total nproc (fun p => opt ((s.proc p).map Proc.cwd)) + total nfile fun f => (s.ftable f).held

/-- The open files of a process. -/
def Proc.fds (q : Proc) : Multiset ℕ := total nofile fun fd => opt (q.ofile fd)

def fds (s : State) : Multiset ℕ := total nproc fun p => (s.proc p).elim 0 Proc.fds

/-- The invariant of the tables, with references `x` to inodes and `y` to open files in
the hands of the code that runs. -/
structure Wf (sb : Superblock) (strict : Prop) (s : State) (x y : Multiset ℕ) : Prop where
  inv : Inv sb strict False s (x + refs s)
  count : ∀ f, (s.ftable f).ref = (y + fds s).count f
  idle : ∀ f, (s.ftable f).ref = 0 → (s.ftable f).type = .none
  file : ∀ f, 0 < (s.ftable f).ref → f < nfile
  proc : ∀ p, (s.proc p).isSome = true → p < nproc
  plain : ∀ f, (s.ftable f).type = .inode → (s.ftable f).writable = true →
    (s.itable (s.ftable f).ip).valid = true ∧ (s.copy (s.ftable f).ip).type ≠ .dir

section

variable {sb : Superblock} {strict op : Prop} {x y x' y' : Multiset ℕ} {s t : State}
  {p f k fd : ℕ} {q : Proc}

theorem Inv.begun (h : Inv sb strict op s x) : Inv sb strict True s.begun x :=
  h.congr rfl rfl fun _ => rfl

theorem Inv.logged (h : Inv sb strict op s x) (hout : s.log.outstanding = true) :
    Inv sb strict True s x :=
  h.congr rfl rfl fun _ => hout

theorem Inv.idle (h : Inv sb strict op s x) : Inv sb strict False s x :=
  h.congr rfl rfl False.elim

theorem Wf.ref_nonneg (h : Wf sb strict s x y) (f : ℕ) : 0 ≤ (s.ftable f).ref := by
  rw [h.count f]
  exact Int.natCast_nonneg _

theorem Wf.lt_of_open (h : Wf sb strict s x y) (hf : (s.ftable f).type ≠ .none) : f < nfile := by
  have hne : (s.ftable f).ref ≠ 0 := fun hz => hf (h.idle f hz)
  have := h.ref_nonneg f
  exact h.file f (by omega)

theorem Wf.ip_mem (h : Wf sb strict s x y) (hf : (s.ftable f).type ≠ .none) :
    (s.ftable f).ip ∈ refs s := by
  refine Multiset.mem_add.mpr (.inr (mem_total.mpr ⟨f, h.lt_of_open hf, ?_⟩))
  rw [File.held, if_neg hf]
  exact Multiset.mem_singleton_self _

theorem Wf.cwd_mem (h : Wf sb strict s x y) (hp : s.proc p = some q) : s.cwd p ∈ refs s := by
  refine Multiset.mem_add.mpr (.inl (mem_total.mpr ⟨p, h.proc p (by simp [hp]), ?_⟩))
  simp [State.cwd, hp]

theorem Wf.mem_add (hk : k ∈ refs s) : k ∈ x + refs s := Multiset.mem_add.mpr (.inr hk)

theorem Wf.kept (h : Wf sb strict s x y) (hinv : Inv sb strict op t (x' + refs s))
    (hkept : Kept (refs s) s t) : Wf sb strict t x' y := by
  have hrefs : refs t = refs s := by
    unfold refs
    rw [hkept.proc, hkept.ftable]
  have hfds : fds t = fds s := by
    unfold fds
    rw [hkept.proc]
  refine ⟨hrefs ▸ hinv.idle, ?_, ?_, ?_, ?_, ?_⟩
  · rw [hkept.ftable, hfds]
    exact h.count
  · rw [hkept.ftable]
    exact h.idle
  · rw [hkept.ftable]
    exact h.file
  · rw [hkept.proc]
    exact h.proc
  · rw [hkept.ftable]
    intro f htype hw
    obtain ⟨hv, hdir⟩ := h.plain f htype hw
    obtain ⟨hv', htype'⟩ := hkept.valid _ (h.ip_mem (by rw [htype]; decide)) hv
    exact ⟨hv', htype' ▸ hdir⟩

theorem Wf.setFile (h : Wf sb strict s x y) (g : File → File)
    (hrefs : x' + (g (s.ftable f)).held = x + (s.ftable f).held)
    (hcount : (g (s.ftable f)).ref + y.count f = (s.ftable f).ref + y'.count f)
    (hother : ∀ f', f' ≠ f → y'.count f' = y.count f')
    (hidle : (g (s.ftable f)).ref = 0 → (g (s.ftable f)).type = .none)
    (hfile : f < nfile)
    (hplain : (g (s.ftable f)).type = .inode → (g (s.ftable f)).writable = true →
      (s.itable (g (s.ftable f)).ip).valid = true ∧
      (s.copy (g (s.ftable f)).ip).type ≠ .dir) :
    Wf sb strict (s.setFile f g) x' y' := by
  have hsum := total_update s.ftable (fun _ e => e.held) hfile (g (s.ftable f))
  have hfds : fds (s.setFile f g) = fds s := rfl
  have hinv : x' + refs (s.setFile f g) = x + refs s := by
    unfold refs
    simp only [State.setFile_ftable, State.setFile_proc]
    refine add_right_cancel (b := (s.ftable f).held) ?_
    calc _ = x' + total nproc (fun p => opt ((s.proc p).map Proc.cwd)) +
          (total nfile (fun j => (update s.ftable f (g (s.ftable f)) j).held) +
            (s.ftable f).held) := by ac_rfl
      _ = x' + (g (s.ftable f)).held + (total nproc (fun p => opt ((s.proc p).map Proc.cwd)) +
          total nfile fun f => (s.ftable f).held) := by rw [hsum]; ac_rfl
      _ = _ := by rw [hrefs]; ac_rfl
  have hcases : ∀ {R : ℕ → File → Prop}, R f (g (s.ftable f)) →
      (∀ f', f' ≠ f → R f' (s.ftable f')) → ∀ f', R f' ((s.setFile f g).ftable f') := by
    intro R hR hR' f'
    by_cases hf : f' = f
    · subst hf
      simpa using hR
    · simpa [hf] using hR' f' hf
  refine ⟨?_, ?_, ?_, ?_, h.proc, ?_⟩
  · rw [hinv]
    exact h.inv.congr rfl rfl False.elim
  · refine hcases (R := fun f' e => e.ref = (y' + fds (s.setFile f g)).count f') ?_ fun f' hf => ?_
    · have := h.count f
      rw [hfds, Multiset.count_add]
      rw [Multiset.count_add] at this
      push_cast at this ⊢
      omega
    · rw [hfds, h.count f', Multiset.count_add, Multiset.count_add, hother f' hf]
  · exact hcases (R := fun _ e => e.ref = 0 → e.type = .none) hidle fun f' _ => h.idle f'
  · exact hcases (R := fun f' e => 0 < e.ref → f' < nfile) (fun _ => hfile) fun f' _ => h.file f'
  · exact hcases (R := fun _ e => e.type = .inode → e.writable = true →
      (s.itable e.ip).valid = true ∧ (s.copy e.ip).type ≠ .dir) hplain fun f' _ => h.plain f'

theorem Wf.setProc (h : Wf sb strict s x y) (v : Option Proc) (hp : p < nproc)
    (hrefs : x' + opt (v.map Proc.cwd) = x + opt ((s.proc p).map Proc.cwd))
    (hfds : y' + v.elim 0 Proc.fds = y + (s.proc p).elim 0 Proc.fds) :
    Wf sb strict (s.setProc p v) x' y' := by
  have hcwds := total_update s.proc (fun _ q => opt (q.map Proc.cwd)) hp v
  have hsum := total_update s.proc (fun _ q => q.elim 0 Proc.fds) hp v
  have hinv : x' + refs (s.setProc p v) = x + refs s := by
    unfold refs
    simp only [State.setProc_ftable, State.setProc_proc]
    refine add_right_cancel (b := opt ((s.proc p).map Proc.cwd)) ?_
    calc _ = x' + (total nfile fun f => (s.ftable f).held) +
          (total nproc (fun j => opt ((update s.proc p v j).map Proc.cwd)) +
            opt ((s.proc p).map Proc.cwd)) := by ac_rfl
      _ = x' + opt (v.map Proc.cwd) + ((total nproc fun p => opt ((s.proc p).map Proc.cwd)) +
          total nfile fun f => (s.ftable f).held) := by rw [hcwds]; ac_rfl
      _ = _ := by rw [hrefs]; ac_rfl
  have hcount : y' + fds (s.setProc p v) = y + fds s := by
    unfold fds
    rw [State.setProc_proc]
    refine add_right_cancel (b := (s.proc p).elim 0 Proc.fds) ?_
    rw [add_assoc, hsum, add_comm (total nproc _), ← add_assoc, hfds]
    ac_rfl
  refine ⟨?_, ?_, h.idle, h.file, ?_, h.plain⟩
  · rw [hinv]
    exact h.inv.congr rfl rfl False.elim
  · rw [hcount]
    exact h.count
  · intro p' hp'
    by_cases heq : p' = p
    · rw [heq]
      exact hp
    · exact h.proc p' (by simpa [heq] using hp')

theorem Wf.log (h : Wf sb strict s x y) (l : Log) : Wf sb strict { s with log := l } x y :=
  ⟨h.inv.congr rfl rfl False.elim, h.count, h.idle, h.file, h.proc, h.plain⟩

theorem Kept.transacted {c : Multiset ℕ} (h : Kept c s.begun t) : Kept c s t.ended :=
  ⟨h.ftable, h.proc, h.inum, h.valid⟩

end

/-! ## What a call does -/

/-- Some nodes without links are freed. -/
def Frees (n : ℕ) : (ℕ → Node) → (ℕ → Node) → Prop :=
  Relation.ReflTransGen fun N N' => ∃ i < n, MayFree i N N'

/-- A call has kept the invariant, done `R` to the nodes and logged few blocks. -/
structure Outcome (sb : Superblock) (strict : Prop) (R : (ℕ → Node) → (ℕ → Node) → Prop)
    (s s' : State) : Prop where
  wf : Wf sb strict s' 0 0
  node : strict → R (nodes sb s.disk) (nodes sb s'.disk)
  log : strict → sb.size ≤ bpb → s.log.Fits s'.log

section

variable {sb : Superblock} {strict : Prop} {P : ℕ → Prop} {x y x' y' : Multiset ℕ} {s t : State}
  {p f k fd ip : ℕ} {q : Proc}

theorem Wf.outcome {R : (ℕ → Node) → (ℕ → Node) → Prop} (h : Wf sb strict s 0 0)
    (hinv : Inv sb strict True t (refs s)) (hkept : Kept (refs s) s.begun t)
    (hnode : strict → R (nodes sb s.disk) (nodes sb t.disk))
    (hlog : strict → s.begun.log.Small sb t.log) : Outcome sb strict R s t.ended where
  wf := by
    have hkept' : Kept (refs s) s t := ⟨hkept.ftable, hkept.proc, hkept.inum, hkept.valid⟩
    have hinv0 : Inv sb strict True t (0 + refs s) := by rwa [zero_add]
    exact (h.kept hinv0 hkept').log _
  node := hnode
  log hs hsize := (hlog hs).fits hsize

theorem Wf.inv_refs (h : Wf sb strict s 0 y) : Inv sb strict False s (refs s) := by
  have := h.inv
  rwa [zero_add] at this

theorem Wf.inv_begun (h : Wf sb strict s 0 y) : Inv sb strict True s.begun (refs s) :=
  h.inv_refs.begun

theorem Walk.begun {c : Multiset ℕ} (h : Walk sb P c s) : Walk sb P c s.begun :=
  h.congr (fun _ _ => rfl) fun _ _ => rfl

theorem NameCall.outcome {R : (ℕ → Node) → (ℕ → Node) → Prop} {r : ℤ} (h : Wf sb strict s 0 0)
    (ht : NameCall sb strict (refs s) R s.begun r t) :
    Outcome sb strict (fun N N' => N' = N ∨ R N N') s t.ended ∧
      Kept (refs s) s t.ended ∧ (strict → r = -1 → Unchanged sb s t.ended) := by
  refine ⟨h.outcome ht.inv ht.kept (fun hs => ?_) fun hs => ?_, ht.kept.transacted,
    fun hs hr => ?_⟩
  · exact (ht.nodes hs).imp (fun hsame => hsame.2.1) fun hnew => hnew.2
  · obtain ⟨d, i, hfew⟩ := ht.log hs
    exact hfew.pair (by decide)
  · rcases ht.nodes hs with ⟨-, hsame⟩ | ⟨rfl, -⟩
    · exact hsame
    · exact absurd hr (by decide)

theorem sysLink_spec (h : Wf sb strict s 0 0) (hp : s.proc p = some q) {old new : Path}
    (hwalk : strict → Walk sb P (refs s) s ∧ P (s.start p old) ∧ P (s.start p new))
    (hcount : strict → Counted sb P s) :
    Within (Panics strict) (sysLink sb p old new) s fun r s' =>
      Outcome sb strict (fun N N' => N' = N ∨ Linked P N N') s s' ∧
      Kept (refs s) s s' ∧ (strict → r = -1 → Unchanged sb s s') := by
  unfold sysLink
  apply within_transaction
  exact (linkOp_spec h.inv_begun (h.cwd_mem hp) (fun hs => ⟨(hwalk hs).1.begun, (hwalk hs).2⟩)
    hcount).mono fun r t ht => ht.outcome h

theorem sysUnlink_spec (h : Wf sb strict s 0 0) (hp : s.proc p = some q) {path : Path}
    (hwalk : strict → Walk sb P (refs s) s ∧ P (s.start p path)) :
    Within (Panics strict) (sysUnlink sb p path) s fun r s' =>
      Outcome sb strict (fun N N' => N' = N ∨ Unlinked P N N') s s' ∧
      Kept (refs s) s s' ∧ (strict → r = -1 → Unchanged sb s s') := by
  unfold sysUnlink
  apply within_transaction
  exact (unlinkOp_spec h.inv_begun (h.cwd_mem hp)
    fun hs => ⟨(hwalk hs).1.begun, (hwalk hs).2⟩).mono fun r t ht => ht.outcome h

theorem make_spec (h : Wf sb strict s 0 0) (hp : s.proc p = some q) {path : Path}
    (hwalk : strict → Walk sb P (refs s) s ∧ P (s.start p path)) (hcount : strict → Counted sb P s)
    {type : FileType} (htype : type ≠ .none) (hfile : type ≠ .file) (major minor : ℤ) :
    Within (Panics strict) (transaction (makeOp sb p path type major minor)) s fun r s' =>
      Outcome sb strict (fun N N' => N' = N ∨ Created sb.ninodes P type N N') s s' ∧
      Kept (refs s) s s' ∧ (strict → r = -1 → Unchanged sb s s') := by
  apply within_transaction
  have hinv := h.inv_begun
  unfold makeOp
  refine (create_spec hinv (h.cwd_mem hp) (fun hs => ⟨(hwalk hs).1.begun, (hwalk hs).2⟩)
    hcount type htype major minor).bind fun r t ht => ?_
  obtain ⟨hkept, hlog, hpost⟩ := ht
  have hfew : strict → s.begun.log.Small sb t.log := fun hs => by
    obtain ⟨d, i, hfew⟩ := hlog hs
    exact hfew.pair (by decide)
  cases r with
  | none =>
    obtain ⟨hinv, hsame⟩ := hpost
    exact within_pure ⟨h.outcome hinv hkept (fun hs => .inl (hsame hs).1) hfew,
      hkept.transacted, fun hs _ => hsame hs⟩
  | some ip =>
    obtain ⟨hinv, -, -, hcreated⟩ := hpost
    refine ((iput_safe hinv fun hs => (hcreated hs).1).within).bind fun _ u hu => ?_
    obtain ⟨hinv, hput⟩ := hu
    refine within_pure ⟨h.outcome hinv (hkept.trans hput.toKept) (fun hs => ?_) fun hs => ?_,
      (hkept.trans hput.toKept).transacted, fun _ hr => absurd hr (by decide)⟩
    · rw [hput.disk hs]
      exact .inr ((hcreated hs).2.resolve_left fun hc => hfile hc.1)
    · rw [hput.log hs]
      exact hfew hs

/-! ## Calls that leave the nodes alone -/

theorem Wf.outcome_refl (h : Wf sb strict s 0 0) :
    Outcome sb strict (fun N N' => N' = N) s s := ⟨h, fun _ => rfl, fun _ _ => .refl⟩

theorem Outcome.trans {u : State} (h : Outcome sb strict (fun N N' => N' = N) s t)
    (h' : Outcome sb strict (fun N N' => N' = N) t u) :
    Outcome sb strict (fun N N' => N' = N) s u :=
  ⟨h'.wf, fun hs => (h'.node hs).trans (h.node hs),
    fun hs hsize => (h.log hs hsize).trans (h'.log hs hsize)⟩

theorem reads_spec {c : Multiset ℕ} (h : Inv sb strict True s c) (hk : k ∈ c)
    (hv : (s.itable k).valid = true) (reads : List (ℕ × ℕ)) :
    Ensures (reads.mapM fun r => readi sb k (fun _ => true) (r.1 % 2 ^ 32) (r.2 % 2 ^ 32)) s
      fun _ s' => s' = s := by
  induction reads with
  | nil =>
    rw [List.mapM_nil]
    exact ensures_pure rfl
  | cons r reads ih =>
    rw [List.mapM_cons]
    refine (readi_spec (h.copy_full hk hv) _ _ _).bind fun _ t ht => ?_
    rw [ht]
    exact ih.bind fun _ u hu => ensures_pure hu

theorem kexec_spec (h : Wf sb strict s 0 0) (hp : s.proc p = some q) {path : Path}
    (hwalk : strict → Walk sb P (refs s) s ∧ P (s.start p path)) (reads : List (ℕ × ℕ)) :
    Within (Panics strict) (kexec sb p path reads) s fun _ s' =>
      Outcome sb strict (fun N N' => N' = N) s s' := by
  unfold kexec
  apply within_transaction
  have hend : ∀ {t}, Inv sb strict True t (refs s) → Quiet strict (refs s) s.begun t →
      Outcome sb strict (fun N N' => N' = N) s t.ended := fun hinv hquiet =>
    h.outcome hinv hquiet.toKept (fun hs => (hquiet.unchanged hs).1)
      fun hs => (hquiet.few hs 0).pair (d := 0) (i := 0) (by decide)
  unfold execOp
  refine (namei_spec h.inv_begun (h.cwd_mem hp)
    fun hs => ⟨(hwalk hs).1.begun, (hwalk hs).2⟩).bind fun r t ht => ?_
  obtain ⟨hquiet, hpost⟩ := ht
  cases r with
  | none => exact within_pure (hend hpost.1 hquiet)
  | some ip =>
    obtain ⟨hinv, hP, -⟩ := hpost
    refine (ilock_reached hinv hquiet (fun hs => (hwalk hs).1.begun) hP).bind fun _ u hu => ?_
    obtain ⟨hinv, hquiet, hv, hwalk'⟩ := hu
    refine ((reads_spec hinv (Multiset.mem_cons_self ip _) hv reads).within).bind
      fun _ v hv' => ?_
    rw [hv']
    exact ((iput_safe hinv fun hs => (hwalk' hs).1.safe _ (hwalk' hs).2).within).bind
      fun _ w hw => within_pure (hend hw.1 (hquiet.trans hw.2))

theorem Wf.setOff (h : Wf sb strict s x y) (hf : (s.ftable f).type ≠ .none) (o : ℕ) :
    Wf sb strict (s.setFile f fun e => { e with off := o }) x y :=
  h.setFile _ rfl rfl (fun _ _ => rfl) (h.idle f) (h.lt_of_open hf) (h.plain f)

theorem fileread_spec (h : Wf sb strict s 0 0) (f : ℕ) (dst : ℕ → Bool) (n : ℤ) :
    Within (Panics strict) (fileread sb f dst n) s fun _ s' =>
      Outcome sb strict (fun N N' => N' = N) s s' := by
  unfold fileread
  apply within_get_bind
  split
  · exact within_pure h.outcome_refl
  split
  · exact within_pure h.outcome_refl
  · rename_i htype
    have hopen : (s.ftable f).type ≠ .none := by rw [htype]; decide
    have hip := h.ip_mem hopen
    refine (ilock_spec h.inv_refs hip).bind fun _ t ht => ?_
    obtain ⟨hinv, hlock, hv⟩ := ht
    have hwf : Wf sb strict t 0 0 := h.kept (by rwa [zero_add]) hlock.toKept
    have hout : Outcome sb strict (fun N N' => N' = N) s t :=
      ⟨hwf, fun _ => by rw [hlock.disk trivial], fun _ _ => by rw [hlock.log trivial]; exact .refl⟩
    refine ((readi_spec (hinv.copy_full hip hv) dst _ _).within).bind fun r u hu => ?_
    rw [hu]
    refine Within.bind (R := fun _ v => Outcome sb strict (fun N N' => N' = N) s v) ?_
      fun _ v hv => within_pure hv
    split
    · apply within_modify
      refine ⟨hwf.setOff (by rw [hlock.ftable]; exact hopen) _, hout.node, hout.log⟩
    · exact within_pure hout
  · exact within_throw (panics (by decide))

theorem writeOp_spec (h : Wf sb strict s 0 0) (htype : (s.ftable f).type = .inode)
    (hw : (s.ftable f).writable = true) (src : ℕ → Option UInt8) {n : ℕ} (hn : n ≤ maxwrite) :
    Within (Panics strict) (transaction (writeOp sb f src n)) s fun _ s' =>
      Outcome sb strict (fun N N' => N' = N) s s' ∧ (s'.ftable f).type = .inode ∧
      (s'.ftable f).writable = true := by
  apply within_transaction
  unfold writeOp
  apply within_get_bind
  have hopen : (s.ftable f).type ≠ .none := by rw [htype]; decide
  have hip := h.ip_mem hopen
  obtain ⟨hvalid, hdir⟩ := h.plain f htype hw
  refine (ilock_spec h.inv_begun hip).bind fun _ t ht => ?_
  obtain ⟨hinv, hlock, hv⟩ := ht
  obtain ⟨-, htypet⟩ := hlock.valid _ hip hvalid
  have hsize : n < 2 ^ 32 := by
    unfold maxwrite bsize at hn
    omega
  refine ((hinv.writei_spec hip hv (by rw [htypet]; exact hdir) src _ hsize).within).bind
    fun r u hu => ?_
  obtain ⟨hinvu, hkeptu, hnodesu, hlogu⟩ := hu
  have hkept : Kept (refs s) s.begun u := hlock.toKept.trans hkeptu
  have hrounds : 2 * rounds (s.ftable f).off n ≤ 8 := by
    unfold rounds maxwrite bsize at *
    split <;> omega
  have hout : Outcome sb strict (fun N N' => N' = N) s u.ended := by
    refine h.outcome hinvu hkept (fun _ => ?_) fun _ => ?_
    · rw [hnodesu, hlock.disk trivial]
      rfl
    · rw [← hlock.log trivial]
      exact hlogu.one hrounds
  have hfile : u.ftable f = s.ftable f := by
    rw [hkept.ftable]
    rfl
  refine Within.bind (R := fun _ v => Outcome sb strict (fun N N' => N' = N) s v.ended ∧
    (v.ftable f).type = .inode ∧ (v.ftable f).writable = true) ?_ fun _ v hv => within_pure hv
  split
  · apply within_modify
    refine ⟨⟨?_, hout.node, hout.log⟩, ?_, ?_⟩
    · exact hout.wf.setOff (f := f) (by change (u.ftable f).type ≠ _; rw [hfile]; exact hopen) _
    · simpa [hfile] using htype
    · simpa [hfile] using hw
  · exact within_pure ⟨hout, by rw [hfile]; exact htype, by rw [hfile]; exact hw⟩

theorem filewriteLoop_spec (f : ℕ) (src : ℕ → Option UInt8) : ∀ fuel i n s,
    Wf sb strict s 0 0 → (s.ftable f).type = .inode → (s.ftable f).writable = true →
    Within (Panics strict) (filewriteLoop sb f src fuel i n) s fun _ s' =>
      Outcome sb strict (fun N N' => N' = N) s s' := by
  intro fuel
  induction fuel with
  | zero => exact fun i n s h _ _ => within_pure h.outcome_refl
  | succ fuel ih =>
    intro i n s h htype hw
    unfold filewriteLoop
    split
    · refine (writeOp_spec h htype hw _ (Nat.min_le_right _ _)).bind fun r t ht => ?_
      obtain ⟨hout, htype', hw'⟩ := ht
      split
      · exact within_pure hout
      · exact (ih _ n t hout.wf htype' hw').mono fun _ u hu => hout.trans hu
    · exact within_pure h.outcome_refl

theorem filewrite_spec (h : Wf sb strict s 0 0) (f : ℕ) (src : ℕ → Option UInt8) (n : ℤ) :
    Within (Panics strict) (filewrite sb f src n) s fun _ s' =>
      Outcome sb strict (fun N N' => N' = N) s s' := by
  unfold filewrite
  apply within_get_bind
  split
  · exact within_pure h.outcome_refl
  rename_i hw
  split
  · exact within_pure h.outcome_refl
  · rename_i htype
    split
    · exact within_pure h.outcome_refl
    · refine (filewriteLoop_spec f src _ 0 _ s h htype (by simpa using hw)).bind fun _ t ht => ?_
      exact within_pure ht
  · exact within_throw (panics (by decide))

/-! ## Descriptors -/

/-- Descriptor `fd` of process `p` becomes `v`. -/
def State.withFd (s : State) (p fd : ℕ) (v : Option ℕ) : State :=
  s.setProc p ((s.proc p).map fun q => { q with ofile := update q.ofile fd v })

theorem fd_eq (hp : s.proc p = some q) (hfd : fd < nofile) : s.fd p fd = q.ofile fd := by
  unfold State.fd
  rw [if_pos ⟨Int.natCast_nonneg _, by exact_mod_cast hfd⟩, hp]
  rfl

theorem Wf.withFd (h : Wf sb strict s x y) (hp : s.proc p = some q) (hfd : fd < nofile)
    {v : Option ℕ} (hy : y' + opt v = y + opt (s.fd p fd)) :
    Wf sb strict (s.withFd p fd v) x y' := by
  unfold State.withFd
  rw [fd_eq hp hfd] at hy
  rw [hp]
  refine h.setProc _ (h.proc p (by simp [hp])) (by rw [hp]; rfl) ?_
  have hsum := total_update q.ofile (fun _ o => opt o) hfd v
  rw [hp]
  change y' + (total nofile fun j => opt (update q.ofile fd v j)) =
    y + total nofile fun j => opt (q.ofile j)
  refine add_right_cancel (b := opt (q.ofile fd)) ?_
  rw [add_assoc, hsum, add_comm (total nofile _), ← add_assoc, hy]
  ac_rfl

theorem fdalloc_spec (s : State) (p f : ℕ) :
    Ensures (fdalloc p f) s fun r s' => match r with
      | none => s' = s
      | some fd => fd < nofile ∧ s.fd p fd = none ∧ s' = s.withFd p fd (some f) := by
  unfold fdalloc
  apply ensures_get_bind
  cases hfind : (List.range nofile).find? fun (fd : ℕ) => (s.fd p fd).isNone with
  | none => exact ensures_pure rfl
  | some fd =>
    have hfd := List.mem_range.mp (List.mem_of_find?_eq_some hfind)
    have hnone : s.fd p fd = none := by simpa using List.find?_some hfind
    unfold setFd
    apply ensures_modify_bind
    exact ensures_pure ⟨hfd, hnone, rfl⟩

theorem Wf.fd_ref (h : Wf sb strict s x y) {fd : ℤ} (hfd : s.fd p fd = some f) :
    f ∈ fds s ∧ 0 < (s.ftable f).ref ∧ ∃ q, s.proc p = some q := by
  unfold State.fd at hfd
  split at hfd
  · rename_i hrange
    obtain ⟨q, hq, hof⟩ := Option.bind_eq_some_iff.mp hfd
    have hmem : f ∈ fds s := by
      refine mem_total.mpr ⟨p, h.proc p (by simp [hq]), ?_⟩
      rw [hq]
      refine mem_total.mpr ⟨fd.toNat, ?_, by rw [hof]; exact mem_opt.mpr rfl⟩
      have : (fd : ℤ) < nofile := hrange.2
      omega
    have hpos := Multiset.one_le_count_iff_mem.mpr hmem
    have hcount := h.count f
    rw [Multiset.count_add] at hcount
    exact ⟨hmem, by omega, q, hq⟩
  · cases hfd

theorem Wf.dup (h : Wf sb strict s x y) (hf : 0 < (s.ftable f).ref) :
    Wf sb strict (s.setFile f fun e => { e with ref := e.ref + 1 }) x (f ::ₘ y) := by
  refine h.setFile _ rfl ?_ (fun f' hf' => Multiset.count_cons_of_ne hf' y) ?_ (h.file f hf)
    (h.plain f)
  · rw [Multiset.count_cons_self]
    push_cast
    omega
  · intro hz
    dsimp only at hz
    omega

theorem withFd_setFile (g : File → File) (v : Option ℕ) :
    (s.withFd p fd v).setFile f g = (s.setFile f g).withFd p fd v := rfl

theorem sysDup_spec (h : Wf sb strict s 0 0) (p : ℕ) (fd : ℤ) :
    Within (Panics strict) (sysDup p fd) s fun _ s' =>
      Outcome sb strict (fun N N' => N' = N) s s' := by
  unfold sysDup
  apply within_get_bind
  cases hfd : s.fd p fd with
  | none => exact within_pure h.outcome_refl
  | some f =>
    obtain ⟨-, href, q, hq⟩ := h.fd_ref hfd
    refine ((fdalloc_spec s p f).within).bind fun r t ht => ?_
    cases r with
    | none =>
      rw [show t = s from ht]
      exact within_pure h.outcome_refl
    | some new =>
      obtain ⟨hnew, hnone, rfl⟩ := ht
      unfold filedup
      refine Within.bind (R := fun _ u => u = (s.withFd p new (some f)).setFile f
        fun e => { e with ref := e.ref + 1 }) ?_ fun _ u hu => ?_
      · apply within_get_bind
        rw [if_neg (by change ¬ (s.ftable f).ref < 1; omega)]
        exact within_modify rfl
      · rw [hu, withFd_setFile]
        refine within_pure ⟨?_, fun _ => rfl, fun _ _ => .refl⟩
        refine (h.dup href).withFd (q := q) hq hnew ?_
        change 0 + opt (some f) = _ + opt (s.fd p new)
        rw [hnone]
        rfl

/-! ## Closing -/

theorem putIn_spec (h : Wf sb strict s (k ::ₘ x) y) :
    Ensures (transaction (iput sb k)) s fun _ s' => Wf sb strict s' x y ∧
      s'.proc = s.proc ∧ Frees sb.ninodes (nodes sb s.disk) (nodes sb s'.disk) ∧
      (sb.size ≤ bpb → s.log.Fits s'.log) := by
  have hinv := h.inv
  rw [Multiset.cons_add] at hinv
  unfold transaction beginOp endOp
  apply ensures_modify_bind
  refine (iput_mayFree (s := s.begun) hinv.begun).bind fun _ t ht => ?_
  obtain ⟨hinvt, hkeptt, hfree, hlog⟩ := ht
  apply ensures_modify_bind
  have hkept : Kept (x + refs s) s t := ⟨hkeptt.ftable, hkeptt.proc, hkeptt.inum, hkeptt.valid⟩
  refine ensures_pure ⟨(h.kept hinvt (hkept.mono fun _ hk => Wf.mem_add hk)).log _, hkept.proc,
    .single ⟨_, ?_, hfree⟩, fun hsize => ?_⟩
  · exact hinv.inum _ (hinv.ref_pos (Multiset.mem_cons_self _ _))
  · exact (Log.Few.one hlog (by decide)).fits hsize

theorem fileclose_spec (h : Wf sb strict s x (f ::ₘ y)) :
    Ensures (fileclose sb f) s fun _ s' => Wf sb strict s' x y ∧ s'.proc = s.proc ∧
      Frees sb.ninodes (nodes sb s.disk) (nodes sb s'.disk) ∧
      (sb.size ≤ bpb → s.log.Fits s'.log) := by
  have hcount := h.count f
  rw [Multiset.count_add, Multiset.count_cons_self] at hcount
  have hfile := h.file f (by omega)
  unfold fileclose
  apply ensures_get_bind
  rw [if_neg (by omega)]
  have hother : ∀ f', f' ≠ f → y.count f' = (f ::ₘ y).count f' := fun f' hf' =>
    (Multiset.count_cons_of_ne hf' y).symm
  split
  · rename_i hmany
    apply ensures_modify
    refine ⟨h.setFile _ rfl ?_ hother ?_ hfile (h.plain f), rfl, .refl, fun _ => .refl⟩
    · rw [Multiset.count_cons_self]
      push_cast
      omega
    · intro hz
      dsimp only at hz
      omega
  · rename_i hone
    apply ensures_modify_bind
    have hclosed : ∀ z, z = x + (s.ftable f).held → Wf sb strict
        (s.setFile f fun e => { e with ref := 0, type := .none }) z y := by
      rintro z rfl
      refine h.setFile _ ?_ ?_ hother (fun _ => rfl) hfile fun hc => by cases hc
      · exact add_zero _
      · rw [Multiset.count_cons_self]
        push_cast
        omega
    split
    · rename_i htype
      have hwf := hclosed ((s.ftable f).ip ::ₘ x) (by
        rw [File.held, if_neg htype, add_comm, Multiset.singleton_add])
      exact putIn_spec hwf
    · rename_i htype
      refine ensures_pure ⟨hclosed _ ?_, rfl, .refl, fun _ => .refl⟩
      rw [File.held, if_pos (by simpa using htype), add_zero]

theorem closeFd_spec (h : Wf sb strict s 0 0) (hp : s.proc p = some q) (hfd : fd < nofile) :
    Ensures (closeFd sb p fd) s fun _ s' => Wf sb strict s' 0 0 ∧
      s'.proc = (s.withFd p fd none).proc ∧
      Frees sb.ninodes (nodes sb s.disk) (nodes sb s'.disk) ∧
      (sb.size ≤ bpb → s.log.Fits s'.log) := by
  unfold closeFd
  apply ensures_get_bind
  cases hopen : s.fd p fd with
  | none =>
    refine ensures_pure ⟨h, ?_, .refl, fun _ => .refl⟩
    rw [fd_eq hp hfd] at hopen
    unfold State.withFd
    rw [hp, State.setProc_proc, Option.map_some, ← hopen, update_eq_self]
    have heq : (some { q with ofile := q.ofile } : Option Proc) = s.proc p := hp.symm
    rw [heq, update_eq_self]
  | some f =>
    unfold setFd
    apply ensures_modify_bind
    have hwf : Wf sb strict (s.withFd p fd none) 0 {f} := by
      refine h.withFd hp hfd ?_
      rw [hopen]
      rfl
    exact fileclose_spec hwf

theorem sysClose_spec (h : Wf sb strict s 0 0) (p : ℕ) (fd : ℤ) :
    Within (Panics strict) (sysClose sb p fd) s fun _ s' =>
      Outcome sb strict (Frees sb.ninodes) s s' := by
  unfold sysClose
  apply within_get_bind
  cases hopen : s.fd p fd with
  | none => exact within_pure ⟨h, fun _ => .refl, fun _ _ => .refl⟩
  | some f =>
    obtain ⟨-, -, q, hq⟩ := h.fd_ref hopen
    have hrange : 0 ≤ fd ∧ fd < nofile := by
      by_contra hc
      rw [State.fd, if_neg hc] at hopen
      cases hopen
    have hfd : fd.toNat < nofile := by omega
    unfold setFd
    apply within_modify_bind
    have hwf : Wf sb strict (s.withFd p fd.toNat none) 0 {f} := by
      refine h.withFd hq hfd ?_
      rw [Int.toNat_of_nonneg hrange.1, hopen]
      rfl
    refine ((fileclose_spec hwf).within).bind fun _ t ht => ?_
    exact within_pure ⟨ht.1, fun _ => ht.2.2.1, fun _ => ht.2.2.2⟩

/-! ## `open`, `chdir`, `fork` and `exit` -/

theorem filealloc_spec (h : Wf sb strict s x y) :
    Ensures filealloc s fun r s' => match r with
      | none => s' = s
      | some f => f < nfile ∧ (s.ftable f).type = .none ∧
          s' = s.setFile f (fun e => { e with ref := 1 }) ∧ Wf sb strict s' x (f ::ₘ y) := by
  unfold filealloc
  apply ensures_get_bind
  cases hfind : (List.range nfile).find? fun f => (s.ftable f).ref == 0 with
  | none => exact ensures_pure rfl
  | some f =>
    have hf := List.mem_range.mp (List.mem_of_find?_eq_some hfind)
    have href : (s.ftable f).ref = 0 := by simpa using List.find?_some hfind
    apply ensures_modify_bind
    refine ensures_pure ⟨hf, h.idle f href, rfl, ?_⟩
    refine h.setFile _ rfl ?_ (fun f' hf' => Multiset.count_cons_of_ne hf' y)
      (fun hc => absurd (show (1 : ℤ) = 0 from hc) (by decide)) hf (h.plain f)
    rw [Multiset.count_cons_self, href]
    push_cast
    omega

theorem refs_setFile {g : File → File} (hf : f < nfile)
    (hg : (g (s.ftable f)).held = (s.ftable f).held) : refs (s.setFile f g) = refs s := by
  have hsum := total_update s.ftable (fun _ e => e.held) hf (g (s.ftable f))
  rw [hg] at hsum
  unfold refs
  rw [State.setFile_ftable, State.setFile_proc, add_right_cancel hsum]

theorem fileclose_fresh (hf : (s.ftable f).ref = 1) (hnone : (s.ftable f).type = .none) :
    Ensures (fileclose sb f) s fun _ s' =>
      s' = s.setFile f fun e => { e with ref := 0, type := .none } := by
  unfold fileclose
  apply ensures_get_bind
  rw [if_neg (by omega), if_neg (by omega)]
  apply ensures_modify_bind
  rw [if_neg (by simpa using hnone)]
  exact ensures_pure rfl

theorem openInode_spec (h : Wf sb strict s {ip} 0) (hout : s.log.outstanding = true)
    (hp : s.proc p = some q) (hv : (s.itable ip).valid = true) (hsafe : strict → Safe sb (refs s) s (s.itable ip).inum)
    {omode : Omode} (hdir : (s.copy ip).type = .dir → omode.wronly = false ∧ omode.rdwr = false) :
    Within (Panics strict) (openInode sb p ip omode) s fun _ s' => Wf sb strict s' 0 0 ∧
      (strict → nodes sb s'.disk = nodes sb s.disk ∧
        s.log.Few sb (· = iblock sb (s.itable ip).inum) 0 s'.log) := by
  -- the inode is put back in a state with the same tables
  have hput : ∀ {t}, Wf sb strict t {ip} 0 → t.disk = s.disk → t.itable = s.itable →
      t.log = s.log → refs t = refs s → Within (Panics strict) (iput sb ip) t fun _ s' =>
        Wf sb strict s' 0 0 ∧ (strict → nodes sb s'.disk = nodes sb s.disk ∧
          s.log.Few sb (· = iblock sb (s.itable ip).inum) 0 s'.log) := by
    intro t hwf hdisk htable hlog hrefs
    have hinv := hwf.inv
    rw [Multiset.singleton_add] at hinv
    refine ((iput_safe (hinv.logged (hlog ▸ hout)) fun hs => ?_).within).mono fun _ u hu => ?_
    · rw [hrefs, htable]
      exact (hsafe hs).congr (by rw [hdisk]) fun _ _ => by rw [htable]
    · refine ⟨hwf.kept (by rw [zero_add]; exact hu.1) hu.2.toKept, fun hs => ?_⟩
      rw [hu.2.disk hs, hu.2.log hs, hdisk, hlog]
      exact ⟨rfl, .refl 0⟩
  unfold openInode
  apply within_get_bind
  split
  · exact (hput h rfl rfl rfl rfl).bind fun _ t ht => within_pure ht
  refine ((filealloc_spec h).within).bind fun r t ht => ?_
  cases r with
  | none =>
    rw [show t = s from ht]
    exact (hput h rfl rfl rfl rfl).bind fun _ t ht => within_pure ht
  | some f =>
    obtain ⟨hf, hnone, rfl, hwf⟩ := ht
    refine ((fdalloc_spec _ p f).within).bind fun r u hu => ?_
    cases r with
    | none =>
      rw [show u = _ from hu]
      refine ((fileclose_fresh (f := f) (by simp) (by simpa using hnone)).within).bind
        fun _ v hv' => ?_
      rw [hv']
      have hheld : (s.ftable f).held = 0 := if_pos hnone
      have hwf' : Wf sb strict ((s.setFile f fun e => { e with ref := 1 }).setFile f
          fun e => { e with ref := 0, type := .none }) {ip} 0 := by
        refine hwf.setFile _ ?_ ?_ (fun f' hf' => (Multiset.count_cons_of_ne hf' 0).symm)
          (fun _ => rfl) hf fun hc => by cases hc
        · rw [State.setFile_ftable, update_self]
          exact congrArg (({ip} : Multiset ℕ) + ·) hheld.symm
        · rw [Multiset.count_cons_self, State.setFile_ftable, update_self]
          rfl
      refine (hput hwf' rfl rfl rfl ?_).bind fun _ w hw => within_pure hw
      rw [refs_setFile hf, refs_setFile hf rfl]
      rw [State.setFile_ftable, update_self]
      exact hheld.symm
    | some fd =>
      obtain ⟨hfd, hfree, rfl⟩ := hu
      apply within_modify_bind
      have hwf' : Wf sb strict ((s.setFile f fun e => { e with ref := 1 }).withFd p fd (some f))
          {ip} 0 := by
        refine hwf.withFd (q := q) hp hfd ?_
        rw [hfree]
        rfl
      -- the open file now holds the reference
      have hopened : Wf sb strict (((s.setFile f fun e => { e with ref := 1 }).withFd p fd
          (some f)).setFile f fun e => { e with
            type := if (s.copy ip).type = .device then .device else .inode
            off := if (s.copy ip).type = .device then e.off else 0
            major := if (s.copy ip).type = .device then (s.copy ip).major else e.major
            ip := ip
            readable := !omode.wronly
            writable := omode.wronly || omode.rdwr }) 0 0 := by
        have hfile : ((s.setFile f fun e => { e with ref := 1 }).withFd p fd (some f)).ftable f =
            { s.ftable f with ref := 1 } := by
          change (s.setFile f fun e => { e with ref := 1 }).ftable f = _
          rw [State.setFile_ftable, update_self]
        refine hwf'.setFile _ ?_ rfl (fun _ _ => rfl) ?_ hf ?_
        · rw [hfile]
          have hold : ({ s.ftable f with ref := 1 } : File).held = 0 := if_pos hnone
          rw [hold, add_zero, zero_add, File.held, if_neg]
          dsimp only
          split <;> decide
        · rw [hfile]
          intro hc
          exact absurd (show (1 : ℤ) = 0 from hc) (by decide)
        · intro _ hw
          refine ⟨hv, fun hd => ?_⟩
          obtain ⟨hwronly, hrdwr⟩ := hdir hd
          have hw' : (omode.wronly || omode.rdwr) = true := hw
          rw [hwronly, hrdwr] at hw'
          cases hw'
      have hmem := hopened.ip_mem (f := f) (by
        rw [State.setFile_ftable, update_self]
        dsimp only
        split <;> decide)
      rw [State.setFile_ftable, update_self] at hmem
      refine Within.bind (R := fun _ v => Wf sb strict v 0 0 ∧
        nodes sb v.disk = nodes sb s.disk ∧
        s.log.Few sb (· = iblock sb (s.itable ip).inum) 0 v.log) ?_
        fun _ v hv' => within_pure ⟨hv'.1, fun _ => hv'.2⟩
      split
      · rename_i htrunc
        have hplain : (s.copy ip).type ≠ .dir := by
          rw [htrunc.2]
          decide
        refine (((hopened.inv_refs.logged hout).itrunc_spec hmem hv hplain).within).mono fun _ v hv' => ?_
        obtain ⟨hinv, hkept, hnodes, hlog⟩ := hv'
        exact ⟨hopened.kept (by rwa [zero_add]) hkept, hnodes, hlog.few⟩
      · exact within_pure ⟨hopened, rfl, .refl 0⟩

theorem refs_kept {c : Multiset ℕ} (h : Kept c s t) : refs t = refs s := by
  unfold refs
  rw [h.proc, h.ftable]

theorem sysOpen_spec (h : Wf sb strict s 0 0) (hp : s.proc p = some q) {path : Path}
    (hwalk : strict → Walk sb P (refs s) s ∧ P (s.start p path)) (hcount : strict → Counted sb P s)
    (omode : Omode) :
    Within (Panics strict) (sysOpen sb p path omode) s fun _ s' =>
      Outcome sb strict (fun N N' => N' = N ∨ Created sb.ninodes P .file N N') s s' := by
  unfold sysOpen
  apply within_transaction
  have hwalk' : strict → Walk sb P (refs s) s.begun ∧ P (s.begun.start p path) := fun hs =>
    ⟨(hwalk hs).1.begun, (hwalk hs).2⟩
  have hbegun : Wf sb strict s.begun 0 0 := h.log _
  unfold openOp
  by_cases hcreate : omode.create = true
  · rw [if_pos hcreate]
    refine (create_spec h.inv_begun (h.cwd_mem hp) hwalk' hcount .file (by decide)
      0 0).bind fun r t ht => ?_
    obtain ⟨hkept, hlog, hpost⟩ := ht
    cases r with
    | none =>
      obtain ⟨hinv, hsame⟩ := hpost
      refine within_pure (h.outcome hinv hkept (fun hs => .inl (hsame hs).1) fun hs => ?_)
      obtain ⟨d, i, hfew⟩ := hlog hs
      exact hfew.pair (by decide)
    | some ip =>
      obtain ⟨hinv, hv, htype, hcreated⟩ := hpost
      have hwf : Wf sb strict t {ip} 0 :=
        hbegun.kept (by rw [Multiset.singleton_add]; exact hinv) hkept
      have hplain : (t.copy ip).type = .dir → omode.wronly = false ∧ omode.rdwr = false := by
        intro hd
        rcases htype with htype | ⟨-, htype⟩ <;> rw [hd] at htype <;> cases htype
      refine (openInode_spec hwf (hinv.logging trivial) (q := q) (by rw [hkept.proc]; exact hp) hv (fun hs => ?_)
        hplain).mono fun r u hu => ?_
      · rw [refs_kept hkept]
        exact (hcreated hs).1
      · obtain ⟨hwfu, hpostu⟩ := hu
        refine ⟨hwfu.log _, fun hs => ?_, fun hs hsize => ?_⟩
        · change nodes sb u.disk = _ ∨ Created _ _ _ _ (nodes sb u.disk)
          rw [(hpostu hs).1]
          exact (hcreated hs).2.imp (fun hc => hc.2.1) id
        · obtain ⟨d, i, hfew⟩ := hlog hs
          have hsmall : s.begun.log.Small sb u.log := ⟨[iblock sb d, iblock sb i,
            iblock sb (t.itable ip).inum], 6, by simp [maxopblocks], ?_⟩
          · exact hsmall.fits hsize
          refine (hfew.mono (fun b hb => ?_) le_rfl).trans ((hpostu hs).2.mono (fun b hb => ?_)
            le_rfl)
          · rcases hb with rfl | rfl <;> simp
          · rw [hb]
            simp
  · rw [if_neg hcreate]
    refine (namei_spec h.inv_begun (h.cwd_mem hp) hwalk').bind fun r t ht => ?_
    obtain ⟨hquiet, hpost⟩ := ht
    have hend : ∀ {t}, Inv sb strict True t (refs s) → Quiet strict (refs s) s.begun t →
        Outcome sb strict (fun N N' => N' = N ∨ Created sb.ninodes P .file N N') s t.ended :=
      fun hinv hquiet => h.outcome hinv hquiet.toKept (fun hs => .inl (hquiet.unchanged hs).1)
        fun hs => (hquiet.few hs 0).pair (d := 0) (i := 0) (by decide)
    cases r with
    | none => exact within_pure (hend hpost.1 hquiet)
    | some ip =>
      obtain ⟨hinv, hP, -⟩ := hpost
      refine (ilock_reached hinv hquiet (fun hs => (hwalk' hs).1) hP).bind fun _ u hu => ?_
      obtain ⟨hinv, hquiet, hv, hwalku⟩ := hu
      have hsafe : strict → Safe sb (refs s) u (u.itable ip).inum := fun hs =>
        (hwalku hs).1.safe _ (hwalku hs).2
      apply within_get_bind
      split
      · refine ((iput_safe hinv hsafe).within).bind fun _ v hv => ?_
        exact within_pure (hend hv.1 (hquiet.trans hv.2))
      · rename_i hmode
        have hwf : Wf sb strict u {ip} 0 :=
          hbegun.kept (by rw [Multiset.singleton_add]; exact hinv) hquiet.toKept
        refine (openInode_spec hwf (hinv.logging trivial) (q := q) (by rw [hquiet.proc]; exact hp) hv (fun hs => ?_)
          fun hd => ?_).mono fun r v hr => ?_
        · rw [refs_kept hquiet.toKept]
          exact hsafe hs
        · have hrdonly : omode = Omode.rdonly := by
            by_contra hne
            exact hmode ⟨hd, hne⟩
          rw [hrdonly]
          exact ⟨rfl, rfl⟩
        · obtain ⟨hwfv, hpostv⟩ := hr
          refine ⟨hwfv.log _, fun hs => .inl ?_, fun hs hsize => ?_⟩
          · change nodes sb v.disk = _
            rw [(hpostv hs).1, hquiet.disk hs]
            rfl
          · have hfew := (hpostv hs).2
            rw [hquiet.log hs] at hfew
            exact (Log.Few.one hfew (by decide)).fits hsize

theorem sysChdir_spec (h : Wf sb strict s 0 0) (hp : s.proc p = some q) {path : Path}
    (hwalk : strict → Walk sb P (refs s) s ∧ P (s.start p path)) :
    Within (Panics strict) (sysChdir sb p path) s fun _ s' =>
      Outcome sb strict (Frees sb.ninodes) s s' := by
  have hwalk' : strict → Walk sb P (refs s) s.begun ∧ P (s.begun.start p path) := fun hs =>
    ⟨(hwalk hs).1.begun, (hwalk hs).2⟩
  have hbegun : Wf sb strict s.begun 0 0 := h.log _
  unfold sysChdir
  refine Within.bind (R := fun r t => match r with
    | none => Outcome sb strict (Frees sb.ninodes) s t
    | some ip => t.proc = s.proc ∧ (strict → Frees sb.ninodes (nodes sb s.disk)
        (nodes sb t.disk)) ∧ (strict → sb.size ≤ bpb → s.log.Fits t.log) ∧
        Wf sb strict (t.setProc p (some { q with cwd := ip })) 0 0) ?_ fun r t ht => ?_
  · apply within_transaction
    unfold chdirOp
    refine (namei_spec h.inv_begun (h.cwd_mem hp) hwalk').bind fun r t ht => ?_
    obtain ⟨hquiet, hpost⟩ := ht
    have hend : ∀ {t}, Inv sb strict True t (refs s) → Quiet strict (refs s) s.begun t →
        Outcome sb strict (Frees sb.ninodes) s t.ended := fun {t} hinv hquiet =>
      h.outcome hinv hquiet.toKept (fun hs => by rw [(hquiet.unchanged hs).1]; exact .refl)
        fun hs => (hquiet.few hs 0).pair (d := 0) (i := 0) (by decide)
    cases r with
    | none => exact within_pure (hend hpost.1 hquiet)
    | some ip =>
      obtain ⟨hinv, hP, -⟩ := hpost
      refine (ilock_reached hinv hquiet (fun hs => (hwalk' hs).1) hP).bind fun _ u hu => ?_
      obtain ⟨hinv, hquiet, hv, hwalku⟩ := hu
      apply within_get_bind
      split
      · exact ((iput_safe hinv fun hs => (hwalku hs).1.safe _ (hwalku hs).2).within).bind
          fun _ v hv => within_pure (hend hv.1 (hquiet.trans hv.2))
      · -- the process exchanges one reference for the other
        have hcwd : u.cwd p = q.cwd := by
          rw [State.cwd, hquiet.proc]
          change ((s.proc p).map Proc.cwd).getD 0 = _
          rw [hp]
          rfl
        rw [hcwd]
        have hwfu : Wf sb strict u {ip} 0 :=
          hbegun.kept (by rw [Multiset.singleton_add]; exact hinv) hquiet.toKept
        have hpu : u.proc p = some q := by
          rw [hquiet.proc]
          exact hp
        have hwfu' : Wf sb strict (u.setProc p (some { q with cwd := ip })) {q.cwd} 0 := by
          refine hwfu.setProc _ (h.proc p (by simp [hp])) ?_ ?_ <;> rw [hpu]
          · change ({q.cwd} : Multiset ℕ) + {ip} = {ip} + {q.cwd}
            exact add_comm _ _
          · rfl
        have hinv' : Inv sb strict True u (q.cwd ::ₘ refs (u.setProc p (some { q with cwd := ip }))) := by
          have := hwfu'.inv
          rw [Multiset.singleton_add] at this
          exact this.congr rfl rfl hinv.logging
        refine ((iput_mayFree hinv').within).bind fun _ v hv => ?_
        obtain ⟨hinvv, hkeptv, hfree, hlog⟩ := hv
        refine within_pure ⟨?_, fun hs => ?_, fun hs hsize => ?_, ?_⟩
        · exact hkeptv.proc.trans hquiet.proc
        · have hunchanged : Unchanged sb s.begun u := hquiet.unchanged hs
          have hnodes := hunchanged.1
          refine .single ⟨_, hinv'.inum _ (hinv'.ref_pos (Multiset.mem_cons_self _ _)), ?_⟩
          rw [hnodes] at hfree
          exact hfree
        · rw [hquiet.log hs] at hlog
          exact (Log.Few.one hlog (by decide)).fits hsize
        · have hkept' : Kept (refs (u.setProc p (some { q with cwd := ip })))
              (u.setProc p (some { q with cwd := ip })) (v.setProc p (some { q with cwd := ip })) :=
            ⟨hkeptv.ftable, by rw [State.setProc_proc, State.setProc_proc, hkeptv.proc], hkeptv.inum,
              hkeptv.valid⟩
          have hwfv := hwfu'.kept (t := v.setProc p (some { q with cwd := ip }))
            (show Inv _ _ _ _ (0 + _) by
              rw [zero_add]
              exact hinvv.congr rfl rfl hinvv.logging) hkept'
          exact hwfv.log _
  · cases r with
    | none => exact within_pure ht
    | some ip =>
      obtain ⟨hproc, hfree, hlog, hwf⟩ := ht
      apply within_modify_bind
      refine within_pure ⟨?_, hfree, hlog⟩
      rw [hproc, hp]
      exact hwf

theorem kfork_spec (h : Wf sb strict s 0 0) (hp : s.proc p = some q) (child : ℕ) :
    Within (Panics strict) (kfork p child) s fun _ s' =>
      Outcome sb strict (fun N N' => N' = N) s s' := by
  unfold kfork
  apply within_get_bind
  split
  swap
  · exact within_pure h.outcome_refl
  rename_i hchild
  -- the open files gain the references of the child's descriptors
  have hloop : Within (Panics strict) (forUpto (fun fd => dupFile (s.fd p fd)) nofile) s
      fun _ t => Wf sb strict t 0 (total nofile fun fd => opt (s.fd p fd)) ∧
        t.proc = s.proc ∧ t.disk = s.disk ∧ t.log = s.log := by
    refine within_forUpto (I := fun i t => Wf sb strict t 0 (total i fun fd => opt (s.fd p fd)) ∧
      t.proc = s.proc ∧ t.disk = s.disk ∧ t.log = s.log) ?_ fun i _ t ht => ?_
    · rw [total_nil]
      exact ⟨h, rfl, rfl, rfl⟩
    · obtain ⟨hwf, hproc, hdisk, hlog⟩ := ht
      rw [total_succ]
      cases hfd : s.fd p i with
      | none =>
        rw [opt_none, add_zero]
        exact within_pure ⟨hwf, hproc, hdisk, hlog⟩
      | some f =>
        have hfd' : t.fd p i = some f := by
          rw [← hfd]
          unfold State.fd
          rw [hproc]
        obtain ⟨-, href, -⟩ := hwf.fd_ref hfd'
        unfold dupFile filedup
        apply within_get_bind
        rw [if_neg (by omega)]
        apply within_modify
        refine ⟨?_, hproc, hdisk, hlog⟩
        rw [opt_some, add_comm, Multiset.singleton_add]
        exact hwf.dup href
  refine hloop.bind fun _ t ht => ?_
  obtain ⟨hwf, hproc, hdisk, hlog⟩ := ht
  have hpt : t.proc p = some q := hproc ▸ hp
  have hcwd : s.cwd p = t.cwd p := by
    unfold State.cwd
    rw [hproc]
  have hmem : s.cwd p ∈ refs t := hcwd ▸ hwf.cwd_mem hpt
  refine ((idup_spec hwf.inv_refs hmem).within).bind fun cwd u hu => ?_
  obtain ⟨rfl, hinv, hquiet⟩ := hu
  have hwfu : Wf sb strict u {s.cwd p} (total nofile fun fd => opt (s.fd p fd)) :=
    hwf.kept (by rw [Multiset.singleton_add]; exact hinv) hquiet.toKept
  have hempty : u.proc child = none := by
    rw [hquiet.proc, hproc]
    exact Option.isNone_iff_eq_none.mp hchild.2
  apply within_modify_bind
  refine within_pure ⟨?_, fun _ => ?_, fun _ _ => ?_⟩
  · refine hwfu.setProc _ hchild.1 ?_ ?_ <;> rw [hempty]
    · exact add_comm _ _
    · exact add_comm _ _
  · change nodes sb u.disk = _
    rw [hquiet.disk trivial, hdisk]
  · change s.log.Fits u.log
    rw [hquiet.log trivial, hlog]
    exact .refl

theorem kexit_spec (h : Wf sb strict s 0 0) (hp : s.proc p = some q) :
    Ensures (kexit sb p) s fun _ s' => Outcome sb strict (Frees sb.ninodes) s s' := by
  unfold kexit
  -- the descriptors below `i` are closed
  have hloop : Ensures (forUpto (closeFd sb p) nofile) s fun _ t => Wf sb strict t 0 0 ∧
      (∃ q', t.proc p = some q' ∧ q'.cwd = q.cwd ∧ ∀ fd < nofile, q'.ofile fd = none) ∧
      Frees sb.ninodes (nodes sb s.disk) (nodes sb t.disk) ∧
      (sb.size ≤ bpb → s.log.Fits t.log) := by
    refine ensures_forUpto (I := fun i t => Wf sb strict t 0 0 ∧
      (∃ q', t.proc p = some q' ∧ q'.cwd = q.cwd ∧ ∀ fd < i, q'.ofile fd = none) ∧
      Frees sb.ninodes (nodes sb s.disk) (nodes sb t.disk) ∧
      (sb.size ≤ bpb → s.log.Fits t.log)) ?_ fun i hi t ht => ?_
    · exact ⟨h, ⟨q, hp, rfl, fun fd hfd => absurd hfd (Nat.not_lt_zero fd)⟩, .refl, fun _ => .refl⟩
    · obtain ⟨hwf, ⟨q', hq', hcwd, hnone⟩, hfree, hlog⟩ := ht
      refine (closeFd_spec hwf hq' hi).mono fun _ u hu => ?_
      obtain ⟨hwfu, hproc, hfreeu, hlogu⟩ := hu
      refine ⟨hwfu, ⟨{ q' with ofile := update q'.ofile i none }, ?_, hcwd,
        fun fd hfd => ?_⟩, hfree.trans hfreeu, fun hsize => (hlog hsize).trans (hlogu hsize)⟩
      · rw [hproc, State.withFd, State.setProc_proc, update_self, hq']
        rfl
      · by_cases hfi : fd = i
        · rw [hfi]
          exact update_self _ _ _
        · exact (update_of_ne hfi _ _).trans (hnone fd (by omega))
  refine hloop.bind fun _ t ht => ?_
  obtain ⟨hwf, ⟨q', hq', hcwd, hnone⟩, hfree, hlog⟩ := ht
  apply ensures_get_bind
  have hpt : p < nproc := hwf.proc p (by simp [hq'])
  have hempty : Proc.fds q' = 0 := total_zero fun fd hfd => by rw [hnone fd hfd]; rfl
  -- the process gives its directory up; that it is gone is recorded afterwards
  have hwf' : Wf sb strict (t.setProc p none) {t.cwd p} 0 := by
    refine hwf.setProc none hpt ?_ ?_ <;> rw [hq']
    · change ({t.cwd p} : Multiset ℕ) + 0 = 0 + {q'.cwd}
      rw [State.cwd, hq', add_comm]
      rfl
    · exact congrArg (0 + ·) hempty.symm
  have hinv : Inv sb strict True t.begun (t.cwd p ::ₘ refs (t.setProc p none)) := by
    have := hwf'.inv
    rw [Multiset.singleton_add] at this
    exact this.congr rfl rfl fun _ => rfl
  unfold transaction beginOp endOp
  apply Ensures.bind (R := fun _ u => Wf sb strict (u.setProc p none) 0 0 ∧
    Frees sb.ninodes (nodes sb s.disk) (nodes sb u.disk) ∧ (sb.size ≤ bpb → s.log.Fits u.log))
  · apply ensures_modify_bind
    refine (iput_mayFree hinv).bind fun _ v hv => ?_
    obtain ⟨hinvv, hkeptv, hfreev, hlogv⟩ := hv
    apply ensures_modify_bind
    refine ensures_pure ⟨?_, hfree.trans (.single ⟨_, hinv.inum _
      (hinv.ref_pos (Multiset.mem_cons_self _ _)), hfreev⟩), fun hsize => ?_⟩
    · have hkept' : Kept (refs (t.setProc p none)) (t.setProc p none) (v.setProc p none) :=
        ⟨hkeptv.ftable, by rw [State.setProc_proc, State.setProc_proc, hkeptv.proc]; rfl, hkeptv.inum,
          hkeptv.valid⟩
      have hwfv := hwf'.kept (t := v.setProc p none)
        (show Inv _ _ _ _ (0 + _) by
          rw [zero_add]
          exact hinvv.congr rfl rfl hinvv.logging) hkept'
      exact hwfv.log _
    · exact (hlog hsize).trans ((Log.Few.one hlogv (by decide)).fits hsize)
  · intro _ u hu
    apply ensures_modify_bind
    exact ensures_pure ⟨hu.1, fun _ => hu.2.1, fun _ => hu.2.2⟩

/-! ## Reclaiming inodes at start -/

theorem ireclaim_spec {c : Multiset ℕ} (h : Inv sb strict False s c) :
    Within (Panics strict) (ireclaim sb) s fun _ s' => Inv sb strict False s' c ∧ Kept c s s' ∧
      Frees sb.ninodes (nodes sb s.disk) (nodes sb s'.disk) ∧
      (sb.size ≤ bpb → s.log.Fits s'.log) := by
  unfold ireclaim
  refine within_forUpto (I := fun _ t => Inv sb strict False t c ∧ Kept c s t ∧
    Frees sb.ninodes (nodes sb s.disk) (nodes sb t.disk) ∧ (sb.size ≤ bpb → s.log.Fits t.log))
    ⟨h, Kept.refl, .refl, fun _ => .refl⟩ fun i hi t ht => ?_
  obtain ⟨hinv, hkept, hfree, hlog⟩ := ht
  unfold reclaim
  apply within_get_bind
  split
  · rename_i hdead
    refine (iget_spec hinv (by omega) fun _ => hdead.1).bind fun ip u hu => ?_
    obtain ⟨hinvu, hquiet, -⟩ := hu
    have hsub := Multiset.subset_cons c ip
    apply within_transaction
    unfold reclaimOp
    have hinvb := hinvu.begun
    refine (ilock_spec hinvb (Multiset.mem_cons_self ip c)).bind fun _ v hv => ?_
    obtain ⟨hinvv, hlock, -⟩ := hv
    refine ((iput_mayFree hinvv).within).mono fun _ w hw => ?_
    obtain ⟨hinvw, hkeptw, hfreew, hlogw⟩ := hw
    refine ⟨hinvw.congr rfl rfl False.elim, (hkept.trans hquiet.toKept).trans
      ((hlock.toKept.mono hsub).trans hkeptw).transacted, hfree.trans (.single ⟨_, hinvv.inum _
      (hinvv.ref_pos (Multiset.mem_cons_self _ _)), ?_⟩), fun hsize => ?_⟩
    · rw [hlock.disk trivial] at hfreew
      rw [← hquiet.disk trivial]
      exact hfreew
    · rw [hlock.log trivial] at hlogw
      have hfits : u.log.Fits w.log.endOp := (Log.Few.one hlogw (by decide)).fits hsize
      rw [hquiet.log trivial] at hfits
      exact (hlog hsize).trans hfits
  · exact within_pure ⟨hinv, hkept, hfree, hlog⟩

end

/-! ## All calls -/

/-- The paths that a call resolves. -/
def Call.paths : Call → List Path
  | .link old new => [old, new]
  | .unlink path | .open path _ | .mkdir path | .mknod path _ _ | .chdir path | .exec path _ =>
    [path]
  | .dup _ | .read _ _ _ | .write _ _ _ | .close _ | .fork _ | .exit => []

/-- What a call does to the nodes. -/
def Call.effect (n : ℕ) (P : ℕ → Prop) : Call → (ℕ → Node) → (ℕ → Node) → Prop
  | .link _ _ => fun N N' => N' = N ∨ Linked P N N'
  | .unlink _ => fun N N' => N' = N ∨ Unlinked P N N'
  | .open _ _ => fun N N' => N' = N ∨ Created n P .file N N'
  | .mkdir _ => fun N N' => N' = N ∨ Created n P .dir N N'
  | .mknod _ _ _ => fun N N' => N' = N ∨ Created n P .device N N'
  | .close _ | .chdir _ | .exit => Frees n
  | .dup _ | .read _ _ _ | .write _ _ _ | .exec _ _ | .fork _ => fun N N' => N' = N

/-- The calls that change nothing but names and link counts. -/
def Call.naming : Call → Bool
  | .link _ _ | .unlink _ | .mkdir _ | .mknod _ _ _ => true
  | _ => false

section

variable {sb : Superblock} {strict : Prop} {P : ℕ → Prop} {s : State} {p : ℕ} {q : Proc}

theorem syscall_spec (h : Wf sb strict s 0 0) (hp : s.proc p = some q) (call : Call)
    (hwalk : strict → Walk sb P (refs s) s ∧ ∀ path ∈ call.paths, P (s.start p path))
    (hcount : strict → Counted sb P s) :
    Within (Panics strict) (syscall sb p call) s fun r s' =>
      Outcome sb strict (call.effect sb.ninodes P) s s' ∧
      (call.naming = true → Kept (refs s) s s' ∧ (strict → r = -1 → Unchanged sb s s')) := by
  have hone : ∀ path ∈ call.paths, strict → Walk sb P (refs s) s ∧ P (s.start p path) :=
    fun path hpath hs => ⟨(hwalk hs).1, (hwalk hs).2 path hpath⟩
  cases call with
  | dup fd => exact (sysDup_spec h p fd).mono fun _ _ ht => ⟨ht, fun hc => by cases hc⟩
  | read fd dst n =>
    unfold syscall sysRead
    apply within_get_bind
    cases s.fd p fd with
    | none => exact within_pure ⟨h.outcome_refl, fun hc => by cases hc⟩
    | some f => exact (fileread_spec h f dst n).mono fun _ _ ht => ⟨ht, fun hc => by cases hc⟩
  | write fd src n =>
    unfold syscall sysWrite
    apply within_get_bind
    cases s.fd p fd with
    | none => exact within_pure ⟨h.outcome_refl, fun hc => by cases hc⟩
    | some f => exact (filewrite_spec h f src n).mono fun _ _ ht => ⟨ht, fun hc => by cases hc⟩
  | close fd => exact (sysClose_spec h p fd).mono fun _ _ ht => ⟨ht, fun hc => by cases hc⟩
  | link old new =>
    refine (sysLink_spec h hp (fun hs => ⟨(hwalk hs).1, ?_, ?_⟩) hcount).mono
      fun _ _ ht => ⟨ht.1, fun _ => ht.2⟩
    · exact (hwalk hs).2 old (by simp [Call.paths])
    · exact (hwalk hs).2 new (by simp [Call.paths])
  | unlink path =>
    exact (sysUnlink_spec h hp (hone path (by simp [Call.paths]))).mono
      fun _ _ ht => ⟨ht.1, fun _ => ht.2⟩
  | «open» path omode =>
    exact (sysOpen_spec h hp (hone path (by simp [Call.paths])) hcount omode).mono
      fun _ _ ht => ⟨ht, fun hc => by cases hc⟩
  | mkdir path =>
    exact (make_spec h hp (hone path (by simp [Call.paths])) hcount (by decide) (by decide)
      0 0).mono fun _ _ ht => ⟨ht.1, fun _ => ht.2⟩
  | mknod path major minor =>
    exact (make_spec h hp (hone path (by simp [Call.paths])) hcount (by decide) (by decide)
      major minor).mono fun _ _ ht => ⟨ht.1, fun _ => ht.2⟩
  | chdir path =>
    exact (sysChdir_spec h hp (hone path (by simp [Call.paths]))).mono
      fun _ _ ht => ⟨ht, fun hc => by cases hc⟩
  | exec path reads =>
    exact (kexec_spec h hp (hone path (by simp [Call.paths])) reads).mono
      fun _ _ ht => ⟨ht, fun hc => by cases hc⟩
  | fork child => exact (kfork_spec h hp child).mono fun _ _ ht => ⟨ht, fun hc => by cases hc⟩
  | exit => exact ((kexit_spec h hp).within).mono fun _ _ ht => ⟨ht, fun hc => by cases hc⟩

end

end Xv6.Fs
