import Xv6.Fs.Image

/-!
# Histories of a file system

After a disk has been mounted the processes make calls. Whatever they do, blocks stay owned; as long as no process works
in a directory that has been removed, link counts stay exact and no directory entry
dangles.
-/

namespace Xv6.Fs

open Eff Bag Runs

section

variable {sb : Superblock} {d : Disk} {s t : State} {l : Label}

/-! ## Ownership of blocks -/

theorem step_some (h : step sb s l = some t) :
    ∃ q r, s.proc l.proc = some q ∧ syscall sb l.proc l.call s = .ok (r, t) := by
  unfold step at h
  split at h
  · rename_i hp
    obtain ⟨q, hq⟩ := Option.isSome_iff_exists.mp hp
    split at h
    · rename_i r u hr
      cases h
      exact ⟨q, r, hq, hr⟩
    · cases h
  · cases h

theorem step_wf (h : Wf sb False s 0 0) (hstep : step sb s l = some t) : Wf sb False t 0 0 := by
  obtain ⟨q, r, hq, hr⟩ := step_some hstep
  have hspec := syscall_spec (P := fun _ => False) h hq l.call (fun hs => hs.elim)
    fun hs => hs.elim
  exact (hspec.of_ok hr).1.wf

theorem exec_wf (hd : d.Whole sb) (hs : ireclaim sb (mount d) = .ok ((), s)) {ls : List Label}
    (ht : exec (step sb) s ls = some t) : Wf sb False t 0 0 := by
  have hwf := hd.mount (fun hs : False => hs.elim) fun hs => hs.elim
  obtain ⟨hinv, hkept, -⟩ := (ireclaim_spec hwf.inv_refs).of_ok hs
  exact exec_invariant (I := fun s => Wf sb False s 0 0) (fun _ _ _ => step_wf)
    (hwf.kept (by rwa [zero_add]) hkept) ht

/-- The state after mounting an image and running calls of the first process. -/
def after (sb : Superblock) (d : Disk) (calls : List Call) : Option State :=
  match ireclaim sb (mount d) with
  | .ok (_, s) => exec (step sb) s (calls.map fun c => ⟨0, c⟩)
  | .error _ => none

theorem after_some (sb : Superblock) (d : Disk) (calls : List Call) (p : State → Prop)
    [DecidablePred p] (h : (after sb d calls).any p = true) :
    ∃ s t, ireclaim sb (mount d) = .ok ((), s) ∧
      exec (step sb) s (calls.map fun c => ⟨0, c⟩) = some t ∧ p t := by
  unfold after at h
  split at h
  · rename_i s hs
    cases ht : exec (step sb) s (calls.map fun c => ⟨0, c⟩) with
    | none =>
      rw [ht] at h
      cases h
    | some t =>
      rw [ht] at h
      exact ⟨s, t, hs, ht, of_decide_eq_true h⟩
  · cases h

/-- `/x` -/
def pathX : Path := [47, 120]

/-- The calls that may add a link to an inode that has some. -/
def Call.links : Call → Bool
  | .link _ _ | .mkdir _ => true
  | _ => false

/-- A process that makes a call with a relative path is in a directory that has not
been removed, and no link count is at its maximum when one may grow. -/
def Clean (sb : Superblock) (s : State) (l : Label) : Prop :=
  (∀ path ∈ l.call.paths, absolute path = true ∨
    0 < (nodes sb s.disk (s.itable (s.cwd l.proc)).inum).nlink) ∧
  (l.call.links = true → ∀ i < sb.ninodes, (nodes sb s.disk i).nlink + 1 < 2 ^ 15)

instance : Decidable (Clean sb s l) := inferInstanceAs (Decidable (_ ∧ _))

theorem Tree.walk (h : Tree sb.ninodes (nodes sb s.disk)) (c : Multiset ℕ) :
    Walk sb (fun i => (nodes sb s.disk i).live) c s where
  used _ hi := hi.1
  next _ hi _ he hne := h.next hi he hne
  safe _ hi := .inl (by have := hi.2; omega)

theorem Tree.counted (h : Tree sb.ninodes (nodes sb s.disk)) :
    Counted sb (fun i => (nodes sb s.disk i).live) s :=
  fun i hi => ⟨hi.2.le, h.short i⟩

theorem Clean.start (hclean : Clean sb s l) (h : Tree sb.ninodes (nodes sb s.disk)) :
    ∀ path ∈ l.call.paths, (nodes sb s.disk (s.start l.proc path)).live := by
  intro path hpath
  unfold State.start
  split
  · exact h.root.live
  · rename_i habs
    exact h.live_of_linked ((hclean.1 path hpath).resolve_left habs)

theorem Tree.frees {n : ℕ} {N N' : ℕ → Node} (h : Tree n N) (hfree : Frees n N N') :
    Tree n N' := by
  induction hfree with
  | refl => exact h
  | tail _ hstep ih =>
    obtain ⟨i, hi, hmay⟩ := hstep
    exact ih.mayFree hi hmay

theorem Tree.effect {n : ℕ} {N N' : ℕ → Node} {call : Call} (h : Tree n N)
    (hroom : call.links = true → ∀ i < n, (N i).nlink + 1 < 2 ^ 15)
    (heffect : call.effect n (fun i => (N i).live) N N') : Tree n N' := by
  have hroom' : call.links = true → ∀ i, (N i).nlink + 1 < 2 ^ 15 := by
    intro hc i
    by_cases hi : i < n
    · exact hroom hc i hi
    · rw [h.outside i (Nat.not_lt.mp hi)]
      decide
  have hP : ∀ d, (N d).live → (N d).live := fun _ hd => hd
  cases call with
  | link old new =>
    rcases heffect with rfl | hl
    · exact h
    · exact h.linked hP (hroom' rfl) hl
  | unlink path =>
    rcases heffect with rfl | hu
    · exact h
    · exact h.unlinked hP hu
  | «open» path omode =>
    rcases heffect with rfl | hc
    · exact h
    · exact h.created hP (by decide) (fun hc => by cases hc) hc
  | mkdir path =>
    rcases heffect with rfl | hc
    · exact h
    · exact h.created hP (by decide) (fun _ => hroom' rfl) hc
  | mknod path major minor =>
    rcases heffect with rfl | hc
    · exact h
    · exact h.created hP (by decide) (fun hc => by cases hc) hc
  | close fd => exact h.frees heffect
  | chdir path => exact h.frees heffect
  | exit => exact h.frees heffect
  | dup fd => exact (show N' = N from heffect) ▸ h
  | read fd dst n => exact (show N' = N from heffect) ▸ h
  | write fd src n => exact (show N' = N from heffect) ▸ h
  | exec path reads => exact (show N' = N from heffect) ▸ h
  | fork child => exact (show N' = N from heffect) ▸ h

/-- The tables are well formed and the file system is consistent. -/
def Tidy (sb : Superblock) (s : State) : Prop :=
  Wf sb True s 0 0 ∧ Tree sb.ninodes (nodes sb s.disk)

theorem Disk.Formed.boot (hd : d.Formed sb) (hs : ireclaim sb (mount d) = .ok ((), s)) :
    Tidy sb s := by
  have hroot : (d.dinode rootino).type ≠ .none := by
    intro hnone
    have htype := hd.tree.root.1
    rw [nodes, if_pos sb.root_lt, Dinode.node, if_pos hnone] at htype
    cases htype
  have hwf := hd.mount (fun _ : True => hroot) fun _ => hd.aligned
  obtain ⟨hinv, hkept, hfree, -⟩ := (ireclaim_spec hwf.inv_refs).of_ok hs
  exact ⟨hwf.kept (by rwa [zero_add]) hkept, hd.tree.frees hfree⟩

/-- `/a`, `/a/b`, `..` and `x` -/
def pathA : Path := [47, 97]

/-- After every run of calls the reference counts of both tables are exact, no inode is in the
table twice, and a valid entry is the inode on disk. -/
theorem tables_coherent (hd : d.Whole sb) (hs : ireclaim sb (mount d) = .ok ((), s))
    (ls : List Label) (ht : exec (step sb) s ls = some t) :
    (∀ k, (t.itable k).ref = (refs t).count k) ∧ (∀ f, (t.ftable f).ref = (fds t).count f) ∧
    (∀ f, (t.ftable f).ref = 0 → (t.ftable f).type = .none) ∧
    (∀ k, 0 < (t.itable k).ref → (t.itable k).valid = true →
      t.copy k = t.disk.dinode (t.itable k).inum) ∧
    ∀ k l, 0 < (t.itable k).ref → 0 < (t.itable l).ref →
      (t.itable k).inum = (t.itable l).inum → k = l := by
  have h := exec_wf hd hs ht
  have hi := h.inv_refs
  refine ⟨hi.counted, fun f => ?_, h.idle, fun k hk hv => (hi.valid k hk hv).1, hi.uniq⟩
  rw [h.count, zero_add]

theorem tables_coherent_chdir : ∃ s t, ireclaim layout (mount (rootImage bsize)) = .ok ((), s) ∧
    exec (step layout) s ([.mkdir pathA, .chdir pathA].map fun c => ⟨0, c⟩) = some t ∧
    ∀ k, (t.itable k).ref = (refs t).count k := by
  obtain ⟨s, t, hs, ht, -⟩ := after_some layout (rootImage bsize) [.mkdir pathA, .chdir pathA]
    (fun _ => True) (by decide +kernel)
  exact ⟨s, t, hs, ht, (tables_coherent rootImage_formed.toWhole hs _ ht).1⟩

end

end Xv6.Fs
