import Xv6.Fs.Image

/-!
# Calls on a consistent file system

In a consistent file system no entry of a directory dangles, and an inode without
links is allocated only as long as it is in use. On such a file system every section
between `begin_op` and `end_op` logs no more blocks than it has reserved, and a call
on names that fails changes nothing.
-/

namespace Xv6.Fs

open Eff

/-- No entry dangles, an inode without links is in use, and link counts are not
negative and fit in a `short`. -/
structure Consistent (sb : Superblock) (s : State) : Prop where
  wf : Wf sb True s 0 0
  root : (nodes sb s.disk rootino).type ≠ .none
  entry : ∀ i, ∀ e ∈ (nodes sb s.disk i).ents, e.inum ≠ 0 →
    (nodes sb s.disk e.inum).type ≠ .none
  safe : ∀ i, (nodes sb s.disk i).type ≠ .none → Safe sb (refs s) s i
  counted : ∀ i, 0 ≤ (nodes sb s.disk i).nlink ∧ (nodes sb s.disk i).nlink < 2 ^ 15

section

variable {sb : Superblock} {s t : State} {p : ℕ} {q : Proc} {call : Call}

theorem Consistent.walk (h : Consistent sb s) :
    Walk sb (fun i => (nodes sb s.disk i).type ≠ .none) (refs s) s where
  used _ hi := hi
  next i _ := h.entry i
  safe := h.safe

/-- A process starts a walk at the root or in its directory, which it holds. -/
theorem Consistent.start (h : Consistent sb s) (hp : s.proc p = some q) (path : Path) :
    (nodes sb s.disk (s.start p path)).type ≠ .none := by
  unfold State.start
  split
  · exact h.root
  · have hinv := h.wf.inv_refs
    have href := hinv.ref_pos (h.wf.cwd_mem hp)
    have hlive := hinv.live trivial _ href
    rw [nodes, if_pos (hinv.inum _ href), node_of_ne hlive]
    exact hlive

theorem Consistent.syscall_spec (h : Consistent sb s) (hp : s.proc p = some q) (call : Call) :
    Within (Panics True) (syscall sb p call) s fun r s' =>
      Outcome sb True (call.effect sb.ninodes fun i => (nodes sb s.disk i).type ≠ .none) s s' ∧
      (call.naming = true → Kept (refs s) s s' ∧ (True → r = -1 → Unchanged sb s s')) :=
  Fs.syscall_spec h.wf hp call (fun _ => ⟨h.walk, fun path _ => h.start hp path⟩)
    fun _ i _ => h.counted i

theorem rootImage_consistent : Consistent layout (mount (rootImage bsize)) where
  wf := rootImage_formed.mount (fun _ => by decide) fun _ => rootImage_formed.aligned
  root := rootImage_tree.root.live.1
  entry i e he hne := by
    by_cases hi : i = rootino
    · subst hi
      exact (rootImage_tree.next rootImage_tree.root.live he hne).1
    · change e ∈ (nodes layout (rootImage bsize) i).ents at he
      rw [rootImage_nodes_free hi] at he
      cases he
  safe i hi := by
    by_cases hroot : i = rootino
    · subst hroot
      exact .inl rootImage_tree.root.2.ne'
    · exact absurd (congrArg Node.type (rootImage_nodes_free hroot)) hi
  counted i := by
    refine ⟨?_, rootImage_tree.short i⟩
    by_cases hroot : i = rootino
    · subst hroot
      exact rootImage_tree.root.2.le
    · change 0 ≤ (nodes layout (rootImage bsize) i).nlink
      rw [rootImage_nodes_free hroot]
      decide

theorem file_none_iff {disk : Disk} {i : ℕ} (hi : i < sb.ninodes) :
    files sb disk i = none ↔ (disk.dinode i).type = .none := by
  unfold files Dinode.view
  rw [if_pos hi]
  split <;> simp_all

/-- Paths lead where they led before, as processes stay in their directories. -/
theorem Unchanged.resolve_eq (h : Unchanged sb s t) (hwf : Wf sb True s 0 0)
    (hkept : Kept (refs s) s t) (hp : s.proc p = some q) (path : Path) :
    resolve (nodes sb t.disk) (elements path) (t.start p path) =
      resolve (nodes sb s.disk) (elements path) (s.start p path) := by
  have hcwd : t.cwd p = s.cwd p := by
    unfold State.cwd
    rw [hkept.proc]
  have hstart : t.start p path = s.start p path := by
    unfold State.start
    rw [hcwd, hkept.inum _ (hwf.cwd_mem hp)]
  rw [h.1, hstart]

/-- A call on names that returns `-1` has changed nothing. -/
theorem failed_call_changes_nothing (h : Consistent sb s) (hp : (s.proc p).isSome)
    (hnaming : call.naming = true) (hr : syscall sb p call s = .ok (-1, t)) :
    (∀ i, files sb t.disk i = files sb s.disk i) ∧
    (∀ i < sb.ninodes, (s.disk.dinode i).type = .none → (t.disk.dinode i).type = .none) ∧
    ∀ p' path, (s.proc p').isSome →
      resolve (nodes sb t.disk) (elements path) (t.start p' path) =
        resolve (nodes sb s.disk) (elements path) (s.start p' path) := by
  obtain ⟨q, hq⟩ := Option.isSome_iff_exists.mp hp
  obtain ⟨hkept, hsame⟩ := ((h.syscall_spec hq call).of_ok hr).2 hnaming
  have hsame := hsame trivial rfl
  refine ⟨fun i => congrFun hsame.2 i, fun i hi hfree => ?_, fun p' path hp' => ?_⟩
  · rw [← file_none_iff hi, hsame.2, file_none_iff hi]
    exact hfree
  · obtain ⟨q', hq'⟩ := Option.isSome_iff_exists.mp hp'
    exact hsame.resolve_eq h.wf hkept hq' path

theorem failed_unlink_changes_nothing : ∃ t,
    syscall layout 0 (.unlink [120]) (mount (rootImage bsize)) = .ok (-1, t) ∧
    ∀ i, files layout t.disk i = files layout (rootImage bsize) i := by
  obtain ⟨-, t, hr, rfl⟩ : Ensures (syscall layout 0 (.unlink [120])) (mount (rootImage bsize))
      fun r _ => r = -1 := by decide +kernel
  exact ⟨t, hr, (failed_call_changes_nothing rootImage_consistent rfl rfl hr).1⟩

end

end Xv6.Fs
