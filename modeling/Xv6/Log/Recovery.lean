import Mathlib.Tactic
import Xv6.Log.Model

/-!
# Crash atomicity of the log

`applied` is the abstract disk: the initial contents overwritten by whole
groups, in commit order. `Recoverable` says that a disk image determines such
an abstract disk through its header, whatever an interrupted installation left
in the listed home blocks. Every step of the log keeps the image recoverable,
and the header write is the only step that changes what it stands for.
-/

namespace Xv6.Log

open Redo Runs Function

/-- The abstract disk after the given groups. -/
def applied (init : ℕ → Block) (gs : List (List Event)) : ℕ → Block :=
  replay init (gs.flatten.map Event.write)

theorem applied_snoc (init : ℕ → Block) (gs : List (List Event)) (g : List Event) :
    applied init (gs ++ [g]) = replay (applied init gs) (g.map Event.write) := by
  simp [applied, replay_append]

/-- What the groups with a completed header write make of the initial disk. -/
def State.image (init : ℕ → Block) (s : State) : ℕ → Block :=
  applied init (s.groups.take s.durable)

variable (start : ℕ)

/-- The header block of a disk, decoded. -/
def header (disk : ℕ → Block) : LogHeader := LogHeader.ofBlock (disk start)

/-- The disk stands for `img`: listed blocks are found in the log area, all
other home blocks in place. -/
structure Recoverable (disk img : ℕ → Block) : Prop where
  n_le : (header start disk).n ≤ logBlocks
  home : ∀ i < (header start disk).n, Home start ((header start disk).block i)
  logged : ∀ i < (header start disk).n,
    disk (start + i + 1) = img ((header start disk).block i)
  rest : ∀ b, Home start b → ¬ (header start disk).Lists b → disk b = img b

def Installed (disk img : ℕ → Block) : Prop := ∀ b, Home start b → disk b = img b

variable {start}

theorem Home.ne_log {b i : ℕ} (hb : Home start b) (hi : i ≤ logBlocks) : start + i ≠ b := by
  unfold Home at hb
  omega

theorem Home.ne_start {b : ℕ} (hb : Home start b) : b ≠ start :=
  (hb.ne_log (Nat.zero_le _)).symm

theorem recoverable_of_empty {disk img : ℕ → Block} (h0 : disk start 0 = 0)
    (h : Installed start disk img) : Recoverable start disk img where
  n_le := by simp [header, LogHeader.ofBlock, h0]
  home := by simp [header, LogHeader.ofBlock, h0]
  logged := by simp [header, LogHeader.ofBlock, h0]
  rest := fun b hb _ => h b hb

theorem Recoverable.install {disk img : ℕ → Block} (h : Recoverable start disk img) {t : ℕ}
    (ht : t < (header start disk).n) :
    Recoverable start (update disk ((header start disk).block t)
      (img ((header start disk).block t))) img := by
  have hb := h.home t ht
  have hne : start ≠ (header start disk).block t := hb.ne_start.symm
  have hh : header start (update disk ((header start disk).block t)
      (img ((header start disk).block t))) = header start disk := by
    change LogHeader.ofBlock (update disk _ _ start) = _
    rw [update_of_ne hne]
    rfl
  refine ⟨?_, ?_, ?_, ?_⟩
  · rw [hh]; exact h.n_le
  · rw [hh]; exact h.home
  · rw [hh]
    intro i hi
    have : start + i + 1 ≠ (header start disk).block t := by
      have := hb.ne_log (i := i + 1) (by have := h.n_le; omega)
      omega
    rw [update_of_ne this]
    exact h.logged i hi
  · rw [hh]
    intro b hhome hnot
    by_cases hbt : b = (header start disk).block t
    · subst hbt; simp
    · rw [update_of_ne hbt]
      exact h.rest b hhome hnot

/-- Once every listed block is installed, the home blocks are the image. -/
theorem Recoverable.installed {disk img : ℕ → Block} (h : Recoverable start disk img)
    (hall : ∀ i < (header start disk).n,
      disk ((header start disk).block i) = img ((header start disk).block i)) :
    Installed start disk img := by
  intro b hb
  by_cases hl : (header start disk).Lists b
  · obtain ⟨i, hi, rfl⟩ := hl
    exact hall i hi
  · exact h.rest b hb hl

/-- A write to the log area does not matter while the header is empty. -/
theorem Installed.update_log {disk img : ℕ → Block} (h : Installed start disk img)
    {i : ℕ} (hi : i ≤ logBlocks) (d : Block) :
    Installed start (update disk (start + i) d) img := by
  intro b hb
  rw [update_of_ne (hb.ne_log hi).symm]
  exact h b hb

/-! ## The in-memory header -/

theorem LogHeader.find_spec (lh : LogHeader) (b : ℕ) : ∀ k ≤ lh.n,
    (lh.find b k < lh.n ∧ lh.block (lh.find b k) = b) ∨
      (lh.find b k = lh.n ∧ ∀ i, lh.n - k ≤ i → i < lh.n → lh.block i ≠ b) := by
  intro k
  induction k with
  | zero =>
    intro _
    exact Or.inr ⟨rfl, fun i hi hlt => by omega⟩
  | succ k ih =>
    intro hk
    simp only [LogHeader.find]
    split_ifs with h
    · exact Or.inl ⟨by omega, h⟩
    · rcases ih (by omega) with hf | ⟨hn, hall⟩
      · exact Or.inl hf
      · refine Or.inr ⟨hn, fun i hi hlt => ?_⟩
        rcases Nat.eq_or_lt_of_le hi with he | hlt'
        · exact he ▸ h
        · exact hall i (by omega) hlt

/-- Log absorption: the search ends at the entry of the block if it is
listed, and at `n` otherwise. -/
theorem LogHeader.find_n (lh : LogHeader) (b : ℕ) :
    (lh.find b lh.n < lh.n ∧ lh.block (lh.find b lh.n) = b) ∨
      (lh.find b lh.n = lh.n ∧ ¬ lh.Lists b) := by
  rcases lh.find_spec b lh.n le_rfl with h | ⟨hn, hall⟩
  · exact Or.inl h
  · refine Or.inr ⟨hn, ?_⟩
    rintro ⟨i, hi, rfl⟩
    exact hall i (by omega) hi rfl

variable (start) in
/-- The blocks in memory's header are distinct home blocks and fit the log. -/
structure HeadInv (lh : LogHeader) : Prop where
  n_le : lh.n ≤ logBlocks
  home : ∀ i < lh.n, Home start (lh.block i)
  inj : ∀ i < lh.n, ∀ j < lh.n, lh.block i = lh.block j → i = j

theorem header_writeHead (lh : LogHeader) (hb : Block) :
    (LogHeader.ofBlock (lh.toBlock hb)).n = lh.n ∧
      ∀ i < lh.n, (LogHeader.ofBlock (lh.toBlock hb)).block i = lh.block i := by
  refine ⟨by simp [LogHeader.ofBlock, LogHeader.toBlock], fun i hi => ?_⟩
  simp only [LogHeader.ofBlock, LogHeader.toBlock]
  rw [if_neg (by omega), if_pos (by omega)]
  rfl

theorem lists_congr {lh lh' : LogHeader} (hn : lh'.n = lh.n)
    (hb : ∀ i < lh.n, lh'.block i = lh.block i) (b : ℕ) : lh'.Lists b ↔ lh.Lists b := by
  constructor
  · rintro ⟨i, hi, he⟩
    exact ⟨i, hn ▸ hi, by rw [← hb i (hn ▸ hi), he]⟩
  · rintro ⟨i, hi, he⟩
    exact ⟨i, hn ▸ hi, by rw [hb i hi, he]⟩

/-! ## The invariant -/

/-- A cached block that agrees with the disk. -/
def State.Clean (s : State) (b : ℕ) : Prop := s.cache b = none ∨ s.cache b = some (s.disk b)

/-- Entries from `k` on are pinned in the cache with the contents of `view`. -/
def State.Pinned (s : State) (view : ℕ → Block) (k : ℕ) : Prop :=
  ∀ i, k ≤ i → i < s.lh.n →
    s.cache (s.lh.block i) = some (view (s.lh.block i)) ∧ 0 < s.refcnt (s.lh.block i)

/-- Every block other than those entries is clean. -/
def State.CleanOff (s : State) (k : ℕ) : Prop :=
  ∀ b, (∀ i, k ≤ i → i < s.lh.n → s.lh.block i ≠ b) → s.Clean b

/-- Memory and disk hold the same list of blocks. -/
def State.HeadOnDisk (start : ℕ) (s : State) : Prop :=
  (header start s.disk).n = s.lh.n ∧ ∀ i < s.lh.n, (header start s.disk).block i = s.lh.block i

/-- While operations run: the log on disk is empty, and the logged blocks hold
their new contents in the cache only. -/
structure RunningInv (start : ℕ) (init : ℕ → Block) (s : State) : Prop where
  head : HeadInv start s.lh
  empty : s.disk start 0 = 0
  home : Installed start s.disk (s.image init)
  durable : s.durable = s.groups.length
  pinned : s.Pinned (replay (s.image init) (s.pending.map Event.write)) 0
  clean : s.CleanOff 0
  listed : ∀ e ∈ s.pending, s.lh.Lists e.blockno

/-- While `write_log` copies: the first `t` log blocks hold the new contents of
the group being committed. -/
structure WritingInv (start : ℕ) (init : ℕ → Block) (s : State) (t : ℕ) : Prop where
  head : HeadInv start s.lh
  empty : s.disk start 0 = 0
  home : Installed start s.disk (s.image init)
  durable : s.durable + 1 = s.groups.length
  idle : s.pending = []
  pinned : s.Pinned (applied init s.groups) 0
  clean : s.CleanOff 0
  rest : ∀ b, ¬ s.lh.Lists b → applied init s.groups b = s.image init b
  written : ∀ i < t, s.disk (start + i + 1) = applied init s.groups (s.lh.block i)

/-- While committed blocks are installed, the first `t` are in place. -/
structure InstallingInv (start : ℕ) (init : ℕ → Block) (s : State) (t : ℕ) : Prop where
  head : HeadInv start s.lh
  onDisk : s.HeadOnDisk start
  durable : s.durable = s.groups.length
  idle : s.pending = []
  pinned : s.Pinned (s.image init) t
  clean : s.CleanOff t
  done : ∀ i < t, s.disk (s.lh.block i) = s.image init (s.lh.block i)

/-- The same during recovery, where nothing is pinned. -/
structure RecoveringInv (start : ℕ) (init : ℕ → Block) (s : State) (t : ℕ) : Prop where
  onDisk : s.HeadOnDisk start
  clean : ∀ b, s.Clean b
  done : ∀ i < t, s.disk (s.lh.block i) = s.image init (s.lh.block i)

def PhaseInv (start : ℕ) (init : ℕ → Block) (s : State) : Prop :=
  match s.phase with
  | .running => RunningInv start init s
  | .writeLog t => t < s.lh.n ∧ WritingInv start init s t
  | .writeHead => 0 < s.lh.n ∧ WritingInv start init s s.lh.n
  | .installTrans t => t < s.lh.n ∧ InstallingInv start init s t
  | .eraseHead => s.lh.n = 0 ∧ s.durable = s.groups.length ∧ s.pending = [] ∧
      Installed start s.disk (s.image init) ∧ ∀ b, s.Clean b
  | .committed => s.lh.n = 0 ∧ s.pending = [] ∧ RunningInv start init s
  | .readHead => ∀ b, s.Clean b
  | .recoverTrans t => t < s.lh.n ∧ RecoveringInv start init s t
  | .recoverHead => s.lh.n = 0 ∧ Installed start s.disk (s.image init) ∧ ∀ b, s.Clean b
  | .panicked => True

/-- Bookkeeping of the operations: no operation logs into two groups, and
operations are active only while no commit runs. -/
structure OpsInv (s : State) : Prop where
  flag : s.phase.booted = true → s.phase ≠ .running → s.committing = true
  quiet : s.phase ≠ .running → s.phase ≠ .panicked → s.active = [] ∧ s.pending = []
  count : s.outstanding = s.active.length
  nodup : s.active.Nodup
  used : ∀ op ∈ s.active, op ∈ s.used
  pendingUsed : ∀ e ∈ s.pending, e.op ∈ s.used
  groupsUsed : ∀ g ∈ s.groups, ∀ e ∈ g, e.op ∈ s.used
  groupsEnded : ∀ g ∈ s.groups, ∀ e ∈ g, e.op ∉ s.active
  apart : (s.groups ++ [s.pending]).Pairwise fun g h => ∀ e ∈ g, ∀ f ∈ h, e.op ≠ f.op

structure Inv (start : ℕ) (init : ℕ → Block) (s : State) : Prop where
  durable_le : s.durable ≤ s.groups.length
  recoverable : Recoverable start s.disk (s.image init)
  phase : PhaseInv start init s
  ops : OpsInv s

/-! ## Steps that leave the log alone -/

variable {init : ℕ → Block} {s t : State}

theorem PhaseInv.setOps (h : PhaseInv start init s) (o : ℕ) (c : Bool) (a u : List ℕ) :
    PhaseInv start init { s with outstanding := o, committing := c, active := a, used := u } := by
  unfold PhaseInv at h ⊢
  cases hp : s.phase <;> simp only [hp] at h ⊢
  case running => exact ⟨h.head, h.empty, h.home, h.durable, h.pinned, h.clean, h.listed⟩
  case writeLog k =>
    exact ⟨h.1, h.2.head, h.2.empty, h.2.home, h.2.durable, h.2.idle, h.2.pinned, h.2.clean,
      h.2.rest, h.2.written⟩
  case writeHead =>
    exact ⟨h.1, h.2.head, h.2.empty, h.2.home, h.2.durable, h.2.idle, h.2.pinned, h.2.clean,
      h.2.rest, h.2.written⟩
  case installTrans k =>
    exact ⟨h.1, h.2.head, h.2.onDisk, h.2.durable, h.2.idle, h.2.pinned, h.2.clean, h.2.done⟩
  case eraseHead => exact h
  case committed =>
    exact ⟨h.1, h.2.1, h.2.2.head, h.2.2.empty, h.2.2.home, h.2.2.durable, h.2.2.pinned,
      h.2.2.clean, h.2.2.listed⟩
  case readHead => exact h
  case recoverTrans k => exact ⟨h.1, h.2.onDisk, h.2.clean, h.2.done⟩
  case recoverHead => exact h

/-- Caching a clean block, or dropping a buffer that nothing pins, keeps the
phase invariant. -/
theorem PhaseInv.setCache (h : PhaseInv start init s) (c : ℕ → Option Block)
    (hpin : ∀ b v, 0 < s.refcnt b → s.cache b = some v → c b = some v)
    (hclean : ∀ b, s.Clean b → c b = none ∨ c b = some (s.disk b)) :
    PhaseInv start init { s with cache := c } := by
  have pinned : ∀ view k, s.Pinned view k → State.Pinned { s with cache := c } view k :=
    fun view k hp i hk hi => ⟨hpin _ _ (hp i hk hi).2 (hp i hk hi).1, (hp i hk hi).2⟩
  have cleanOff : ∀ k, s.CleanOff k → State.CleanOff { s with cache := c } k :=
    fun k hc b hb => hclean b (hc b hb)
  unfold PhaseInv at h ⊢
  cases hp : s.phase <;> simp only [hp] at h ⊢
  case running =>
    exact ⟨h.head, h.empty, h.home, h.durable, pinned _ _ h.pinned, cleanOff _ h.clean, h.listed⟩
  case writeLog k =>
    exact ⟨h.1, h.2.head, h.2.empty, h.2.home, h.2.durable, h.2.idle, pinned _ _ h.2.pinned,
      cleanOff _ h.2.clean, h.2.rest, h.2.written⟩
  case writeHead =>
    exact ⟨h.1, h.2.head, h.2.empty, h.2.home, h.2.durable, h.2.idle, pinned _ _ h.2.pinned,
      cleanOff _ h.2.clean, h.2.rest, h.2.written⟩
  case installTrans k =>
    exact ⟨h.1, h.2.head, h.2.onDisk, h.2.durable, h.2.idle, pinned _ _ h.2.pinned,
      cleanOff _ h.2.clean, h.2.done⟩
  case eraseHead => exact ⟨h.1, h.2.1, h.2.2.1, h.2.2.2.1, fun b => hclean b (h.2.2.2.2 b)⟩
  case committed =>
    exact ⟨h.1, h.2.1, h.2.2.head, h.2.2.empty, h.2.2.home, h.2.2.durable, pinned _ _ h.2.2.pinned,
      cleanOff _ h.2.2.clean, h.2.2.listed⟩
  case readHead => exact fun b => hclean b (h b)
  case recoverTrans k => exact ⟨h.1, h.2.onDisk, fun b => hclean b (h.2.clean b), h.2.done⟩
  case recoverHead => exact ⟨h.1, h.2.1, fun b => hclean b (h.2.2 b)⟩

theorem State.bread_clean {b : ℕ} (h : s.Clean b) : s.bread b = s.disk b := by
  rcases h with h | h <;> simp [State.bread, h]

theorem Inv.bread (h : Inv start init s) (b : ℕ) :
    Inv start init { s with cache := update s.cache b (some (s.bread b)) } := by
  refine ⟨h.durable_le, h.recoverable, h.phase.setCache _ ?_ ?_, ?_⟩
  · intro b' v _ hv
    by_cases hb : b' = b
    · subst hb; simp [State.bread, hv]
    · simpa [hb] using hv
  · intro b' hc
    by_cases hb : b' = b
    · subst hb; simp [State.bread_clean hc]
    · simpa [hb, State.Clean] using hc
  · exact ⟨h.ops.flag, h.ops.quiet, h.ops.count, h.ops.nodup, h.ops.used, h.ops.pendingUsed,
      h.ops.groupsUsed, h.ops.groupsEnded, h.ops.apart⟩

theorem Inv.recycle (h : Inv start init s) {b : ℕ} (hb : s.refcnt b = 0) :
    Inv start init { s with cache := update s.cache b none } := by
  refine ⟨h.durable_le, h.recoverable, h.phase.setCache _ ?_ ?_, ?_⟩
  · intro b' v hpos hv
    have hne : b' ≠ b := by rintro rfl; omega
    simpa [hne] using hv
  · intro b' hc
    by_cases hb' : b' = b
    · subst hb'; simp
    · simpa [hb', State.Clean] using hc
  · exact ⟨h.ops.flag, h.ops.quiet, h.ops.count, h.ops.nodup, h.ops.used, h.ops.pendingUsed,
      h.ops.groupsUsed, h.ops.groupsEnded, h.ops.apart⟩

theorem Inv.reboot (h : Inv start init s) : Inv start init s.reboot := by
  refine ⟨h.durable_le, h.recoverable, fun b => Or.inl rfl, ?_⟩
  have hap := h.ops.apart
  rw [List.pairwise_append] at hap
  exact
    { flag := by simp [State.reboot, Phase.booted]
      quiet := by simp [State.reboot]
      count := rfl
      nodup := List.nodup_nil
      used := by simp [State.reboot]
      pendingUsed := by simp [State.reboot]
      groupsUsed := h.ops.groupsUsed
      groupsEnded := by simp [State.reboot]
      apart := by
        rw [List.pairwise_append]
        exact ⟨hap.1, List.pairwise_singleton _ _, by simp [State.reboot]⟩ }

/-! ## Operations -/

theorem Inv.running_of_active (h : Inv start init s) (hb : s.phase.booted = true) {op : ℕ}
    (hop : op ∈ s.active) : s.phase = .running := by
  by_contra hne
  have hp : s.phase ≠ .panicked := by
    intro he
    simp [he, Phase.booted] at hb
  rw [(h.ops.quiet hne hp).1] at hop
  simp at hop

theorem Inv.beginOp (h : Inv start init s) (hb : s.phase.booted = true) {op : ℕ}
    (hop : op ∉ s.used) (hs : beginOp s op = some t) : Inv start init t := by
  unfold Log.beginOp at hs
  split_ifs at hs with hc hfit
  cases hs
  have hrun : s.phase = .running := by
    by_contra hne
    exact hc (h.ops.flag hb hne)
  have hnew : ∀ e : Event, e.op ∈ s.used → e.op ≠ op := fun e he heq => hop (heq ▸ he)
  refine ⟨h.durable_le, h.recoverable, h.phase.setOps _ _ _ _, ?_⟩
  exact
    { flag := h.ops.flag
      quiet := fun hne _ => absurd hrun hne
      count := by simp [h.ops.count]
      nodup := List.nodup_cons.mpr ⟨fun hmem => hop (h.ops.used op hmem), h.ops.nodup⟩
      used := by
        intro x hx
        rcases List.mem_cons.mp hx with rfl | hx
        · exact List.mem_cons_self
        · exact List.mem_cons_of_mem _ (h.ops.used x hx)
      pendingUsed := fun e he => List.mem_cons_of_mem _ (h.ops.pendingUsed e he)
      groupsUsed := fun g hg e he => List.mem_cons_of_mem _ (h.ops.groupsUsed g hg e he)
      groupsEnded := by
        intro g hg e he hmem
        rcases List.mem_cons.mp hmem with heq | hmem
        · exact hnew e (h.ops.groupsUsed g hg e he) heq
        · exact h.ops.groupsEnded g hg e he hmem
      apart := h.ops.apart }

/-- A panic stops the machine; only the disk matters from then on. -/
theorem Inv.panic (h : Inv start init s) : Inv start init { s with phase := .panicked } := by
  refine ⟨h.durable_le, h.recoverable, trivial, ?_⟩
  exact ⟨by simp [Phase.booted], by simp, h.ops.count, h.ops.nodup, h.ops.used,
    h.ops.pendingUsed, h.ops.groupsUsed, h.ops.groupsEnded, h.ops.apart⟩

/-- The header after `log_write`: the block is listed, and the listed blocks
are the old ones and this one. -/
theorem HeadInv.record {lh : LogHeader} (h : HeadInv start lh) {b : ℕ} (hb : Home start b)
    (hn : lh.n < logBlocks) :
    let i := lh.find b lh.n
    let lh' : LogHeader :=
      { n := if i = lh.n then lh.n + 1 else lh.n, block := update lh.block i b }
    HeadInv start lh' ∧ ∀ x, lh'.Lists x ↔ lh.Lists x ∨ x = b := by
  intro i lh'
  rcases lh.find_n b with ⟨hlt, hbi⟩ | ⟨heq, hnot⟩
  · -- absorption: the entry already holds `b`
    have hi : i ≠ lh.n := Nat.ne_of_lt hlt
    have hlh : lh' = lh := by
      have hu : update lh.block i b = lh.block := by
        rw [← hbi]
        exact update_eq_self _ _
      simp only [lh', if_neg hi, hu]
    rw [hlh]
    refine ⟨h, fun x => ⟨Or.inl, ?_⟩⟩
    rintro (hx | rfl)
    · exact hx
    · exact ⟨i, hlt, hbi⟩
  · have hlen : lh'.n = lh.n + 1 := by simp only [lh', i, heq, if_true]
    have hblock : ∀ j < lh.n, lh'.block j = lh.block j := fun j hj => by
      simp only [lh', i, heq]
      exact update_of_ne (Nat.ne_of_lt hj) _ _
    have hlast : lh'.block lh.n = b := by
      simp only [lh', i, heq]
      exact update_self _ _ _
    have hsplit : ∀ j < lh'.n, j < lh.n ∨ j = lh.n := fun j hj => by omega
    refine ⟨⟨by omega, ?_, ?_⟩, ?_⟩
    · intro j hj
      rcases hsplit j hj with hj | rfl
      · rw [hblock j hj]; exact h.home j hj
      · rw [hlast]; exact hb
    · intro j hj k hk he
      rcases hsplit j hj with hj | rfl <;> rcases hsplit k hk with hk | rfl
      · rw [hblock j hj, hblock k hk] at he
        exact h.inj j hj k hk he
      · rw [hblock j hj, hlast] at he
        exact absurd ⟨j, hj, he⟩ hnot
      · rw [hblock k hk, hlast] at he
        exact absurd ⟨k, hk, he.symm⟩ hnot
      · rfl
    · intro x
      constructor
      · rintro ⟨j, hj, rfl⟩
        rcases hsplit j hj with hj | rfl
        · exact Or.inl ⟨j, hj, (hblock j hj).symm⟩
        · exact Or.inr hlast
      · rintro (⟨j, hj, rfl⟩ | rfl)
        · exact ⟨j, by omega, hblock j hj⟩
        · exact ⟨lh.n, by omega, hlast⟩

theorem State.pinned_zero {view : ℕ → Block} : s.Pinned view 0 ↔
    ∀ b, s.lh.Lists b → s.cache b = some (view b) ∧ 0 < s.refcnt b := by
  constructor
  · rintro h b ⟨i, hi, rfl⟩
    exact h i (Nat.zero_le _) hi
  · intro h i _ hi
    exact h _ ⟨i, hi, rfl⟩

theorem State.cleanOff_zero : s.CleanOff 0 ↔ ∀ b, ¬ s.lh.Lists b → s.Clean b := by
  constructor
  · intro h b hb
    exact h b fun i _ hi he => hb ⟨i, hi, he⟩
  · intro h b hb
    apply h b
    rintro ⟨i, hi, he⟩
    exact hb i (Nat.zero_le _) hi he

theorem Inv.logWrite (h : Inv start init s) (hb : s.phase.booted = true) {e : Event}
    (hop : e.op ∈ s.active) (hhome : Home start e.blockno) :
    Inv start init (logWrite s e) := by
  have hrun := h.running_of_active hb hop
  have hr : RunningInv start init s := by simpa [PhaseInv, hrun] using h.phase
  have hapart := List.pairwise_append.mp h.ops.apart
  unfold Log.logWrite
  split_ifs with hfull hout
  · exact h.panic
  · exact h.panic
  obtain ⟨hhead, hlists⟩ := hr.head.record hhome (Nat.lt_of_not_le hfull)
  have hpin := State.pinned_zero.mp hr.pinned
  have hclean := State.cleanOff_zero.mp hr.clean
  have hview : replay (s.image init) ((s.pending ++ [e]).map Event.write) =
      update (replay (s.image init) (s.pending.map Event.write)) e.blockno e.data := by
    rw [List.map_append, List.map_singleton, replay_snoc]
    rfl
  refine ⟨h.durable_le, h.recoverable, ?_, ?_⟩
  · simp only [PhaseInv, hrun]
    refine ⟨hhead, hr.empty, hr.home, hr.durable, State.pinned_zero.mpr ?_,
      State.cleanOff_zero.mpr ?_, ?_⟩
    · intro b hlb
      by_cases hbe : b = e.blockno
      · subst hbe
        refine ⟨by simp only [State.image] at hview ⊢; rw [hview]; simp, ?_⟩
        dsimp only
        split_ifs with hi
        · simp
        · rcases s.lh.find_n e.blockno with hf | hf
          · exact (hpin _ ⟨_, hf.1, hf.2⟩).2
          · exact absurd hf.1 hi
      · have hold : s.lh.Lists b := ((hlists b).mp hlb).resolve_right hbe
        refine ⟨?_, ?_⟩
        · have hv : replay (s.image init) ((s.pending ++ [e]).map Event.write) b =
              replay (s.image init) (s.pending.map Event.write) b := by
            rw [hview, update_of_ne hbe]
          simp only [State.image] at hv hpin ⊢
          rw [hv, update_of_ne hbe]
          exact (hpin b hold).1
        · dsimp only
          split_ifs
          · rw [update_of_ne hbe]
            exact (hpin b hold).2
          · exact (hpin b hold).2
    · intro b hnot
      have hne : b ≠ e.blockno := fun he => hnot ((hlists b).mpr (Or.inr he))
      have hc := hclean b fun hl => hnot ((hlists b).mpr (Or.inl hl))
      simpa [State.Clean, update_of_ne hne] using hc
    · intro f hf
      rcases List.mem_append.mp hf with hf | hf
      · exact (hlists _).mpr (Or.inl (hr.listed f hf))
      · rw [List.mem_singleton.mp hf]
        exact (hlists _).mpr (Or.inr rfl)
  · exact
      { flag := h.ops.flag
        quiet := fun hne _ => absurd hrun hne
        count := h.ops.count
        nodup := h.ops.nodup
        used := h.ops.used
        pendingUsed := by
          intro f hf
          rcases List.mem_append.mp hf with hf | hf
          · exact h.ops.pendingUsed f hf
          · rw [List.mem_singleton.mp hf]
            exact h.ops.used _ hop
        groupsUsed := h.ops.groupsUsed
        groupsEnded := h.ops.groupsEnded
        apart := by
          rw [List.pairwise_append]
          refine ⟨hapart.1, List.pairwise_singleton _ _, ?_⟩
          intro g hg p hp f hf e' he'
          rw [List.mem_singleton.mp hp] at he'
          rcases List.mem_append.mp he' with he' | he'
          · exact hapart.2.2 g hg s.pending (List.mem_singleton_self _) f hf e' he'
          · rw [List.mem_singleton.mp he']
            intro heq
            exact h.ops.groupsEnded g hg f hf (heq ▸ hop) }

/-- `end_op` without a commit, or with a commit that has nothing to write. -/
theorem OpsInv.endOp (h : OpsInv s) (hrun : s.phase = .running) {op : ℕ} (hop : op ∈ s.active) :
    OpsInv { s with outstanding := s.outstanding - 1, active := s.active.erase op } where
  flag := h.flag
  quiet := fun hne _ => absurd hrun hne
  count := by simp [h.count, List.length_erase_of_mem hop]
  nodup := h.nodup.erase _
  used := fun x hx => h.used x (List.mem_of_mem_erase hx)
  pendingUsed := h.pendingUsed
  groupsUsed := h.groupsUsed
  groupsEnded := fun g hg e he hmem => h.groupsEnded g hg e he (List.mem_of_mem_erase hmem)
  apart := h.apart

theorem Inv.endOp (h : Inv start init s) (hb : s.phase.booted = true) {op : ℕ}
    (hop : op ∈ s.active) : Inv start init (endOp s op) := by
  have hrun := h.running_of_active hb hop
  have hr : RunningInv start init s := by simpa [PhaseInv, hrun] using h.phase
  have hops := h.ops.endOp hrun hop
  have hleft : Inv start init
      { s with outstanding := s.outstanding - 1, active := s.active.erase op } :=
    ⟨h.durable_le, h.recoverable, h.phase.setOps _ _ _ _, hops⟩
  unfold Log.endOp
  dsimp only
  split_ifs with hc hzero hn
  · exact hleft.panic
  · -- the last operation starts the commit of a nonempty log
    have hactive : s.active.erase op = [] := by
      have := hops.count
      simp only [hzero] at this
      exact List.length_eq_zero_iff.mp this.symm
    have himage : applied init ((s.groups ++ [s.pending]).take s.durable) = s.image init := by
      simp [State.image, hr.durable]
    have hall : applied init (s.groups ++ [s.pending]) =
        replay (s.image init) (s.pending.map Event.write) := by
      rw [applied_snoc, State.image, hr.durable, List.take_length]
    refine ⟨by simp [hr.durable], ?_, ?_, ?_⟩
    · simpa [State.image, himage] using h.recoverable
    · simp only [PhaseInv]
      refine ⟨hn, hr.head, hr.empty, ?_, by simp [hr.durable], rfl, ?_, hr.clean, ?_, by simp⟩
      · simp only [State.image, himage]
        exact hr.home
      · intro i hk hi
        simp only [hall]
        exact hr.pinned i hk hi
      · intro b hnot
        simp only [State.image, himage, hall]
        apply replay_of_notMem
        simp only [List.map_map, List.mem_map, not_exists, not_and]
        rintro e he rfl
        exact hnot (hr.listed e he)
    · have hap := hops.apart
      exact
        { flag := fun _ _ => rfl
          quiet := fun _ _ => ⟨hactive, rfl⟩
          count := hops.count
          nodup := hops.nodup
          used := hops.used
          pendingUsed := by simp
          groupsUsed := by
            intro g hg e he
            rcases List.mem_append.mp hg with hg | hg
            · exact hops.groupsUsed g hg e he
            · rw [List.mem_singleton.mp hg] at he
              exact hops.pendingUsed e he
          groupsEnded := by simp [hactive]
          apart := by
            rw [List.pairwise_append]
            exact ⟨hap, List.pairwise_singleton _ _, by simp⟩ }
  · have hactive : s.active.erase op = [] := by
      have := hops.count
      simp only [hzero] at this
      exact List.length_eq_zero_iff.mp this.symm
    have hn0 : s.lh.n = 0 := by omega
    have hpend : s.pending = [] := by
      by_contra hne
      obtain ⟨e, he⟩ := List.exists_mem_of_ne_nil _ hne
      obtain ⟨i, hi, _⟩ := hr.listed e he
      omega
    refine ⟨h.durable_le, h.recoverable, ?_, ?_⟩
    · simp only [PhaseInv]
      exact ⟨hn0, hpend, hr.head, hr.empty, hr.home, hr.durable, hr.pinned, hr.clean, hr.listed⟩
    · exact ⟨fun _ _ => rfl, fun _ _ => ⟨hactive, hpend⟩, hops.count, hops.nodup, hops.used,
        hops.pendingUsed, hops.groupsUsed, hops.groupsEnded, hops.apart⟩
  · exact hleft

/-! ## Disk writes -/

theorem OpsInv.setDisk (h : OpsInv s) (hne : s.phase ≠ .running) (hnp : s.phase ≠ .panicked)
    (d : ℕ → Block) (c : ℕ → Option Block) (r : ℕ → ℕ) (lh : LogHeader) (p : Phase) (k : ℕ)
    (hp : p.booted = true → p ≠ .running → s.committing = true) :
    OpsInv { s with disk := d, cache := c, refcnt := r, lh := lh, phase := p, durable := k } :=
  ⟨hp, fun _ _ => h.quiet hne hnp, h.count, h.nodup, h.used, h.pendingUsed, h.groupsUsed,
    h.groupsEnded, h.apart⟩

theorem State.clean_bwrite {b b' : ℕ} {d : Block} (h : b' ≠ b → s.Clean b') :
    (s.bwrite b d).Clean b' := by
  by_cases hb : b' = b
  · subst hb
    exact Or.inr (by simp [State.bwrite])
  · simpa [State.Clean, State.bwrite, hb] using h hb

theorem Inv.writeLog (h : Inv start init s) {k : ℕ} (hp : s.phase = .writeLog k) :
    Inv start init (writeLog start s k) := by
  obtain ⟨hk, hw⟩ : k < s.lh.n ∧ WritingInv start init s k := by
    simpa [PhaseInv, hp] using h.phase
  have hle : k + 1 ≤ logBlocks := by have := hw.head.n_le; omega
  have hdata : s.bread (s.lh.block k) = applied init s.groups (s.lh.block k) := by
    simp [State.bread, (hw.pinned k (Nat.zero_le _) hk).1]
  have hne : ∀ i < s.lh.n, s.lh.block i ≠ start + k + 1 := fun i hi he =>
    (hw.head.home i hi).ne_log hle (by omega)
  have hempty : update s.disk (start + k + 1) (s.bread (s.lh.block k)) start 0 = 0 := by
    rw [update_of_ne (by omega)]
    exact hw.empty
  have hhome : Installed start (update s.disk (start + k + 1)
      (s.bread (s.lh.block k))) (s.image init) := hw.home.update_log hle _
  have hnext : WritingInv start init (Log.writeLog start s k) (k + 1) :=
    { head := hw.head
      empty := hempty
      home := hhome
      durable := hw.durable
      idle := hw.idle
      pinned := fun i h0 hi => by
        have := hw.pinned i h0 hi
        simpa [Log.writeLog, State.bwrite, hne i hi] using this
      clean := fun b hb => State.clean_bwrite fun _ => hw.clean b hb
      rest := hw.rest
      written := fun i hi => by
        rcases Nat.lt_succ_iff_lt_or_eq.mp hi with hi | rfl
        · change update s.disk (start + k + 1) _ (start + i + 1) = _
          rw [update_of_ne (by omega)]
          exact hw.written i hi
        · simpa [Log.writeLog, State.bwrite] using hdata }
  refine ⟨h.durable_le, recoverable_of_empty hempty hhome, ?_, ?_⟩
  · by_cases hlt : k + 1 < s.lh.n
    · have hph : (Log.writeLog start s k).phase = .writeLog (k + 1) := if_pos hlt
      simp only [PhaseInv, hph]
      exact ⟨hlt, hnext⟩
    · have hph : (Log.writeLog start s k).phase = .writeHead := if_neg hlt
      have hlen : s.lh.n = k + 1 := by omega
      simp only [PhaseInv, hph]
      exact ⟨Nat.zero_lt_of_lt hk, by rw [show (Log.writeLog start s k).lh.n = k + 1 from hlen]; exact hnext⟩
  · exact h.ops.setDisk (by simp [hp]) (by simp [hp]) _ _ _ _ _ _
      fun _ _ => h.ops.flag (by simp [hp, Phase.booted]) (by simp [hp])

theorem header_update (start : ℕ) (disk : ℕ → Block) (lh : LogHeader) (hb : Block) :
    (header start (update disk start (lh.toBlock hb))).n = lh.n ∧
      ∀ i < lh.n, (header start (update disk start (lh.toBlock hb))).block i =
        lh.block i := by
  simpa [header] using header_writeHead lh hb

theorem Inv.commitPoint (h : Inv start init s) (hp : s.phase = .writeHead) :
    Inv start init
      { writeHead start s (.installTrans 0) with durable := s.groups.length } := by
  obtain ⟨hpos, hw⟩ : 0 < s.lh.n ∧ WritingInv start init s s.lh.n := by
    simpa [PhaseInv, hp] using h.phase
  obtain ⟨hn, hblock⟩ := header_update start s.disk s.lh (s.bread start)
  have himage : State.image init
      { writeHead start s (.installTrans 0) with durable := s.groups.length } =
      applied init s.groups := by
    simp [State.image, writeHead, State.bwrite]
  have hne : ∀ i < s.lh.n, s.lh.block i ≠ start := fun i hi => (hw.head.home i hi).ne_start
  refine ⟨le_rfl, ?_, ?_, ?_⟩
  · rw [himage]
    refine ⟨?_, ?_, ?_, ?_⟩
    · change (header start (update s.disk start (s.lh.toBlock (s.bread start)))).n ≤ _
      rw [hn]
      exact hw.head.n_le
    · intro i hi
      change i < (header start (update s.disk start (s.lh.toBlock (s.bread start)))).n at hi
      change Home start ((header start (update s.disk start _)).block i)
      rw [hn] at hi
      rw [hblock i hi]
      exact hw.head.home i hi
    · intro i hi
      change i < (header start (update s.disk start (s.lh.toBlock (s.bread start)))).n at hi
      change update s.disk start _ (start + i + 1) =
        applied init s.groups ((header start (update s.disk start _)).block i)
      rw [hn] at hi
      rw [hblock i hi, update_of_ne (by omega)]
      exact hw.written i hi
    · intro b hb hnot
      change update s.disk start _ b = _
      rw [update_of_ne hb.ne_start, hw.home b hb]
      refine (hw.rest b fun hl => hnot ?_).symm
      exact (lists_congr hn hblock b).mpr hl
  · simp only [PhaseInv, writeHead]
    refine ⟨hpos, hw.head, ⟨hn, hblock⟩, rfl, hw.idle, ?_, ?_, by simp⟩
    · intro i h0 hi
      have := hw.pinned i h0 hi
      simpa [writeHead, State.bwrite, State.image, hne i hi] using this
    · exact fun b hb => State.clean_bwrite fun _ => hw.clean b hb
  · exact h.ops.setDisk (by simp [hp]) (by simp [hp]) _ _ _ _ _ _
      fun _ _ => h.ops.flag (by simp [hp, Phase.booted]) (by simp [hp])

/-- One iteration of `install_trans`, common to commit and recovery: the log
block read back is the image of the home block it belongs to. -/
theorem Recoverable.installTrans (h : Recoverable start s.disk (s.image init))
    (hd : s.HeadOnDisk start) {k : ℕ} (hk : k < s.lh.n)
    (hclean : s.Clean (start + k + 1)) :
    s.bread (start + k + 1) = s.image init (s.lh.block k) ∧
      Recoverable start (update s.disk (s.lh.block k)
        (s.image init (s.lh.block k))) (s.image init) := by
  have hk' : k < (header start s.disk).n := by rw [hd.1]; exact hk
  refine ⟨?_, ?_⟩
  · rw [State.bread_clean hclean, h.logged k hk', hd.2 k hk]
  · have := h.install hk'
    rwa [hd.2 k hk] at this

theorem State.HeadOnDisk.update (hd : s.HeadOnDisk start) {b : ℕ} (hb : Home start b) (d : Block) :
    (header start (Function.update s.disk b d)).n = s.lh.n ∧
      ∀ i < s.lh.n, (header start (Function.update s.disk b d)).block i = s.lh.block i := by
  have hh : header start (Function.update s.disk b d) = header start s.disk := by
    change LogHeader.ofBlock (Function.update s.disk b d start) = _
    rw [Function.update_of_ne hb.ne_start.symm]
    rfl
  rw [hh]
  exact hd

theorem done_update {disk img : ℕ → Block} {lh : LogHeader} {k : ℕ}
    (h : ∀ i < k, disk (lh.block i) = img (lh.block i)) :
    ∀ i < k + 1, update disk (lh.block k) (img (lh.block k)) (lh.block i) =
      img (lh.block i) := by
  intro i hik
  by_cases he : lh.block i = lh.block k
  · rw [he, update_self]
  · rw [update_of_ne he]
    rcases Nat.lt_succ_iff_lt_or_eq.mp hik with hik | rfl
    · exact h i hik
    · exact absurd rfl he

theorem installed_of_done {disk img : ℕ → Block} {lh : LogHeader} (h : Recoverable start disk img)
    (hn : (header start disk).n = lh.n) (hb : ∀ i < lh.n, (header start disk).block i = lh.block i)
    (hdone : ∀ i < lh.n, disk (lh.block i) = img (lh.block i)) : Installed start disk img := by
  apply h.installed
  intro i hi
  rw [hn] at hi
  rw [hb i hi]
  exact hdone i hi

theorem Inv.installTrans (h : Inv start init s) {k : ℕ} (hp : s.phase = .installTrans k)
    (hs : diskWrite start s = some t) : Inv start init t := by
  obtain ⟨hk, hi⟩ : k < s.lh.n ∧ InstallingInv start init s k := by
    simpa [PhaseInv, hp] using h.phase
  have hhome := hi.head.home k hk
  have hlog : s.Clean (start + k + 1) := hi.clean _ fun i _ hin he =>
    (hi.head.home i hin).ne_log (i := k + 1) (by have := hi.head.n_le; omega) (by omega)
  obtain ⟨hdata, hrec⟩ := h.recoverable.installTrans hi.onDisk hk hlog
  have hd := hi.onDisk.update hhome (s.image init (s.lh.block k))
  have hdone := done_update hi.done
  have hclean : ∀ b, (∀ i, k + 1 ≤ i → i < s.lh.n → s.lh.block i ≠ b) →
      (s.bwrite (s.lh.block k) (s.image init (s.lh.block k))).Clean b := by
    intro b hb
    apply State.clean_bwrite
    intro hne
    apply hi.clean
    intro i hik hin
    rcases Nat.eq_or_lt_of_le hik with rfl | hik
    · exact hne.symm
    · exact hb i hik hin
  have hops : ∀ lh p, Phase.booted p = true → OpsInv
      { Log.installTrans start s false k with lh := lh, phase := p } := fun lh p _ =>
    h.ops.setDisk (by simp [hp]) (by simp [hp]) _ _ _ lh p s.durable
      fun _ _ => h.ops.flag (by simp [hp, Phase.booted]) (by simp [hp])
  simp only [diskWrite, hp, Option.some.injEq] at hs
  subst hs
  split_ifs with hlt
  · refine ⟨h.durable_le, ?_, ?_, hops s.lh _ rfl⟩
    · simp only [Log.installTrans, hdata]
      exact hrec
    · simp only [PhaseInv, Log.installTrans, hdata]
      refine ⟨hlt, hi.head, hd, hi.durable, hi.idle, ?_, hclean, hdone⟩
      intro i hik hin
      have hpin := hi.pinned i (by omega) hin
      have hne : s.lh.block i ≠ s.lh.block k := fun he => by
        have := hi.head.inj i hin k hk he
        omega
      refine ⟨?_, ?_⟩
      · change update s.cache (s.lh.block k) _ (s.lh.block i) =
          some (s.image init (s.lh.block i))
        rw [update_of_ne hne]
        exact hpin.1
      · change 0 < update s.refcnt (s.lh.block k) _ (s.lh.block i)
        rw [update_of_ne hne]
        exact hpin.2
  · have hlen : s.lh.n = k + 1 := by omega
    refine ⟨h.durable_le, ?_, ?_, hops { s.lh with n := 0 } _ rfl⟩
    · simp only [State.clearHead, Log.installTrans, hdata]
      exact hrec
    · simp only [PhaseInv, State.clearHead, Log.installTrans, hdata]
      refine ⟨trivial, hi.durable, hi.idle, ?_, fun b => hclean b fun i h1 h2 => by omega⟩
      exact installed_of_done hrec hd.1 hd.2 (by rw [hlen]; exact hdone)

theorem recoverable_eraseHead {img : ℕ → Block} (hn : s.lh.n = 0)
    (hin : Installed start s.disk img) :
    update s.disk start (s.lh.toBlock (s.bread start)) start 0 = 0 ∧
      Installed start (update s.disk start (s.lh.toBlock (s.bread start))) img ∧
      Recoverable start (update s.disk start (s.lh.toBlock (s.bread start))) img := by
  have h0 : update s.disk start (s.lh.toBlock (s.bread start)) start 0 = 0 := by
    simp [LogHeader.toBlock, hn]
  have hin' := hin.update_log (i := 0) (Nat.zero_le _) (s.lh.toBlock (s.bread start))
  exact ⟨h0, hin', recoverable_of_empty h0 hin'⟩

theorem Inv.eraseHead (h : Inv start init s) (hp : s.phase = .eraseHead) :
    Inv start init (writeHead start s .committed) := by
  obtain ⟨hn, hdur, hidle, hin, hclean⟩ : s.lh.n = 0 ∧ s.durable = s.groups.length ∧
      s.pending = [] ∧ Installed start s.disk (s.image init) ∧ ∀ b, s.Clean b := by
    simpa [PhaseInv, hp] using h.phase
  obtain ⟨h0, hin', hrec⟩ := recoverable_eraseHead hn hin
  refine ⟨h.durable_le, hrec, ?_, ?_⟩
  · simp only [PhaseInv, writeHead]
    refine ⟨hn, hidle, ⟨?_, ?_, ?_⟩, h0, hin', hdur, ?_, ?_, ?_⟩
    · simp [State.bwrite, hn]
    · simp [State.bwrite, hn]
    · simp [State.bwrite, hn]
    · intro i _ hi
      simp [State.bwrite, hn] at hi
    · exact fun b _ => State.clean_bwrite fun _ => hclean b
    · simp [State.bwrite, hidle]
  · exact h.ops.setDisk (by simp [hp]) (by simp [hp]) _ _ _ _ _ _
      fun _ _ => h.ops.flag (by simp [hp, Phase.booted]) (by simp [hp])

/-! ## Recovery -/

theorem Inv.readHead (h : Inv start init s) (hp : s.phase = .readHead) :
    Inv start init (readHead start s) := by
  have hclean : ∀ b, s.Clean b := by simpa [PhaseInv, hp] using h.phase
  have hhead : LogHeader.ofBlock (s.bread start) = header start s.disk := by
    rw [State.bread_clean (hclean start)]
    rfl
  refine ⟨h.durable_le, h.recoverable, ?_, ?_⟩
  · by_cases hn : 0 < (header start s.disk).n
    · simp only [PhaseInv, Log.readHead, hhead, if_pos hn]
      exact ⟨hn, ⟨rfl, fun _ _ => rfl⟩, hclean, by simp⟩
    · have hn0 : (header start s.disk).n = 0 := by omega
      simp only [PhaseInv, Log.readHead, hhead, if_neg hn]
      exact ⟨hn0, h.recoverable.installed (by simp [hn0]), hclean⟩
  · apply h.ops.setDisk (by simp [hp]) (by simp [hp])
    intro hb
    split_ifs at hb <;> simp [Phase.booted] at hb

theorem Inv.recoverTrans (h : Inv start init s) {k : ℕ} (hp : s.phase = .recoverTrans k)
    (hs : diskWrite start s = some t) : Inv start init t := by
  obtain ⟨hk, hi⟩ : k < s.lh.n ∧ RecoveringInv start init s k := by
    simpa [PhaseInv, hp] using h.phase
  have hk' : k < (header start s.disk).n := by rw [hi.onDisk.1]; exact hk
  have hhome : Home start (s.lh.block k) := by
    rw [← hi.onDisk.2 k hk]
    exact h.recoverable.home k hk'
  obtain ⟨hdata, hrec⟩ := h.recoverable.installTrans hi.onDisk hk (hi.clean _)
  have hd := hi.onDisk.update hhome (s.image init (s.lh.block k))
  have hdone := done_update hi.done
  have hclean : ∀ b, (s.bwrite (s.lh.block k) (s.image init (s.lh.block k))).Clean b :=
    fun b => State.clean_bwrite fun _ => hi.clean b
  have hops : ∀ lh p, Phase.booted p = false → OpsInv
      { Log.installTrans start s true k with lh := lh, phase := p } := fun lh p hb =>
    h.ops.setDisk (by simp [hp]) (by simp [hp]) _ _ _ lh p s.durable
      fun hb' => absurd hb' (by simp [hb])
  simp only [diskWrite, hp, Option.some.injEq] at hs
  subst hs
  split_ifs with hlt
  · refine ⟨h.durable_le, ?_, ?_, hops s.lh _ rfl⟩
    · simp only [Log.installTrans, hdata]
      exact hrec
    · simp only [PhaseInv, Log.installTrans, hdata]
      exact ⟨hlt, hd, hclean, hdone⟩
  · have hlen : s.lh.n = k + 1 := by omega
    refine ⟨h.durable_le, ?_, ?_, hops { s.lh with n := 0 } _ rfl⟩
    · simp only [State.clearHead, Log.installTrans, hdata]
      exact hrec
    · simp only [PhaseInv, State.clearHead, Log.installTrans, hdata]
      exact ⟨trivial, installed_of_done hrec hd.1 hd.2 (by rw [hlen]; exact hdone), hclean⟩

/-- Recovery ends: the home blocks are the image of the durable groups, and a
group whose header never reached the disk is forgotten. -/
theorem Inv.recoverHead (h : Inv start init s) (hp : s.phase = .recoverHead) :
    Installed start (writeHead start s .running).disk (s.image init) ∧
      Inv start init
        { writeHead start s .running with groups := s.groups.take s.durable } := by
  obtain ⟨hn, hin, hclean⟩ : s.lh.n = 0 ∧ Installed start s.disk (s.image init) ∧
      ∀ b, s.Clean b := by simpa [PhaseInv, hp] using h.phase
  obtain ⟨hactive, hidle⟩ := h.ops.quiet (by simp [hp]) (by simp [hp])
  obtain ⟨h0, hin', hrec⟩ := recoverable_eraseHead hn hin
  have himage : State.image init
      { writeHead start s .running with groups := s.groups.take s.durable } = s.image init := by
    simp [State.image, writeHead, State.bwrite, List.take_take]
  have hlen : s.durable = (s.groups.take s.durable).length := by
    simp [Nat.min_eq_left h.durable_le]
  refine ⟨hin', hlen.le, ?_, ?_, ?_⟩
  · rw [himage]
    exact hrec
  · simp only [PhaseInv, writeHead]
    refine ⟨⟨?_, ?_, ?_⟩, h0, ?_, hlen, ?_, ?_, ?_⟩
    · simp [State.bwrite, hn]
    · simp [State.bwrite, hn]
    · simp [State.bwrite, hn]
    · intro b hb
      change _ = applied init ((s.groups.take s.durable).take s.durable) b
      rw [List.take_take, min_self]
      exact hin' b hb
    · intro i _ hi
      simp [State.bwrite, hn] at hi
    · exact fun b _ => State.clean_bwrite fun _ => hclean b
    · simp [State.bwrite, hidle]
  · have hap := List.pairwise_append.mp h.ops.apart
    exact
      { flag := fun _ hne => absurd rfl hne
        quiet := fun hne _ => absurd rfl hne
        count := h.ops.count
        nodup := h.ops.nodup
        used := h.ops.used
        pendingUsed := h.ops.pendingUsed
        groupsUsed := fun g hg => h.ops.groupsUsed g (List.mem_of_mem_take hg)
        groupsEnded := fun g hg => h.ops.groupsEnded g (List.mem_of_mem_take hg)
        apart := by
          rw [List.pairwise_append]
          exact ⟨hap.1.sublist (List.take_sublist _ _), hap.2.1,
            fun g hg => hap.2.2 g (List.mem_of_mem_take hg)⟩ }

theorem Inv.diskWrite (h : Inv start init s) (hs : diskWrite start s = some t) :
    Inv start init t := by
  cases hp : s.phase with
  | writeLog k =>
    simp only [Log.diskWrite, hp, Option.some.injEq] at hs
    exact hs ▸ h.writeLog hp
  | writeHead =>
    simp only [Log.diskWrite, hp, Option.some.injEq] at hs
    exact hs ▸ h.commitPoint hp
  | installTrans k => exact h.installTrans hp hs
  | eraseHead =>
    simp only [Log.diskWrite, hp, Option.some.injEq] at hs
    exact hs ▸ h.eraseHead hp
  | recoverTrans k => exact h.recoverTrans hp hs
  | recoverHead =>
    simp only [Log.diskWrite, hp, Option.some.injEq] at hs
    exact hs ▸ (h.recoverHead hp).2
  | running | committed | readHead | panicked => simp [Log.diskWrite, hp] at hs

theorem Inv.endCommit (h : Inv start init s) (hp : s.phase = .committed) :
    Inv start init { s with committing := false, phase := .running } := by
  obtain ⟨_, _, hr⟩ : s.lh.n = 0 ∧ s.pending = [] ∧ RunningInv start init s := by
    simpa [PhaseInv, hp] using h.phase
  refine ⟨h.durable_le, h.recoverable,
    ⟨hr.head, hr.empty, hr.home, hr.durable, hr.pinned, hr.clean, hr.listed⟩, ?_⟩
  exact ⟨fun _ hne => absurd rfl hne, fun hne => absurd rfl hne, h.ops.count, h.ops.nodup,
    h.ops.used, h.ops.pendingUsed, h.ops.groupsUsed, h.ops.groupsEnded, h.ops.apart⟩

/-- Every step of operations, commit, recovery, cache and crash keeps the
invariant. -/
theorem Inv.step {a : Action} (h : Inv start init s) (hs : step start s a = some t) :
    Inv start init t := by
  cases a with
  | beginOp op =>
    simp only [Log.step] at hs
    split_ifs at hs with hc
    exact h.beginOp hc.1 hc.2 hs
  | logWrite e =>
    simp only [Log.step, Option.ite_none_right_eq_some, Option.some.injEq] at hs
    exact hs.2 ▸ h.logWrite hs.1.1 hs.1.2.1 hs.1.2.2
  | endOp op =>
    simp only [Log.step, Option.ite_none_right_eq_some, Option.some.injEq] at hs
    exact hs.2 ▸ h.endOp hs.1.1 hs.1.2
  | diskWrite => exact h.diskWrite hs
  | readHead =>
    simp only [Log.step, Option.ite_none_right_eq_some, Option.some.injEq] at hs
    exact hs.2 ▸ h.readHead hs.1
  | endCommit =>
    simp only [Log.step, Option.ite_none_right_eq_some, Option.some.injEq] at hs
    exact hs.2 ▸ h.endCommit hs.1
  | bread b =>
    simp only [Log.step, Option.ite_none_left_eq_some, Option.some.injEq] at hs
    exact hs.2 ▸ h.bread b
  | recycle b =>
    simp only [Log.step, Option.ite_none_right_eq_some, Option.some.injEq] at hs
    exact hs.2 ▸ h.recycle hs.1
  | crash =>
    simp only [Log.step, Option.some.injEq] at hs
    exact hs ▸ h.reboot

theorem inv_boot {disk : ℕ → Block} (h0 : disk start 0 = 0) : Inv start disk (boot disk) where
  durable_le := le_rfl
  recoverable := recoverable_of_empty h0 fun _ _ => rfl
  phase := fun _ => Or.inl rfl
  ops :=
    { flag := by simp [boot, Phase.booted]
      quiet := by simp [boot]
      count := rfl
      nodup := List.nodup_nil
      used := by simp [boot]
      pendingUsed := by simp [boot]
      groupsUsed := by simp [boot]
      groupsEnded := by simp [boot]
      apart := List.pairwise_singleton _ _ }

theorem inv_exec {disk : ℕ → Block} (h0 : disk start 0 = 0) {acts : List Action}
    (hrun : exec (step start) (boot disk) acts = some s) : Inv start disk s :=
  exec_invariant (fun _ _ _ h hs => h.step hs) (inv_boot h0) hrun

/-- Crash atomicity. In every state that operations, commits and crashes lead
to, no operation has logged into two groups; and when a recovery completes, the
home blocks hold the initial contents overwritten by the first `durable` groups
in commit order, each as a whole. -/
theorem recovery_atomic (start : ℕ) (disk : ℕ → Block) (h0 : disk start 0 = 0)
    (acts : List Action) (s : State) (hrun : exec (step start) (boot disk) acts = some s) :
    (∀ i j, ∀ hi : i < (s.groups ++ [s.pending]).length,
      ∀ hj : j < (s.groups ++ [s.pending]).length,
      ∀ e ∈ (s.groups ++ [s.pending])[i], ∀ f ∈ (s.groups ++ [s.pending])[j],
        e.op = f.op → i = j) ∧
    ∀ t, s.phase = .recoverHead → step start s .diskWrite = some t →
      t.phase = .running ∧ s.durable ≤ s.groups.length ∧
      t.groups = s.groups.take s.durable ∧
      ∀ b, Home start b → t.disk b = applied disk (s.groups.take s.durable) b := by
  have h := inv_exec h0 hrun
  refine ⟨?_, ?_⟩
  · intro i j hi hj e he f hf heq
    have hap := List.pairwise_iff_getElem.mp h.ops.apart
    rcases Nat.lt_trichotomy i j with hlt | heqij | hlt
    · exact absurd heq (hap i j hi hj hlt e he f hf)
    · exact heqij
    · exact absurd heq.symm (hap j i hj hi hlt f hf e he)
  · intro t hp hs
    have hdone := h.recoverHead hp
    simp only [step, Log.diskWrite, hp, Option.some.injEq] at hs
    subst hs
    exact ⟨rfl, h.durable_le, rfl, fun b hb => hdone.1 b hb⟩

/-- Two operations share a group of two blocks; the machine crashes after the
header write and one installed block, then again during recovery. -/
def crashDuringInstall : List Action :=
  [.readHead, .diskWrite, .beginOp 1, .beginOp 2, .logWrite ⟨1, 50, fun _ => 7⟩,
    .logWrite ⟨2, 51, fun _ => 8⟩, .logWrite ⟨1, 51, fun _ => 9⟩, .endOp 1, .endOp 2,
    .diskWrite, .diskWrite, .diskWrite, .diskWrite, .crash, .readHead, .diskWrite, .crash,
    .readHead, .diskWrite, .diskWrite]

theorem recovery_atomic_crashDuringInstall :
    ∃ s t, exec (step 2) (boot fun _ _ => 0) crashDuringInstall = some s ∧
      s.phase = .recoverHead ∧ step 2 s .diskWrite = some t ∧
      t.disk 50 = (fun _ => 7) ∧ t.disk 51 = (fun _ => 9) := by
  refine ⟨_, _, rfl, rfl, rfl, ?_, ?_⟩
  · exact ((recovery_atomic 2 (fun _ _ => 0) rfl crashDuringInstall _ rfl).2 _ rfl
      rfl).2.2.2 50 (by decide)
  · exact ((recovery_atomic 2 (fun _ _ => 0) rfl crashDuringInstall _ rfl).2 _ rfl
      rfl).2.2.2 51 (by decide)

end Xv6.Log
