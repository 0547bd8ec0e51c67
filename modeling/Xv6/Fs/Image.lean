import Xv6.Fs.Calls
import Xv6.Lib.Runs

/-!
# Images

A disk is mounted and the first process starts in the root directory. The tables are
then well formed if the image is: blocks are owned once, files have no holes, and
directory entries name inodes of the table. In a well-formed image the directories
also form a tree. The image of an empty file system is well formed.
-/

namespace Xv6.Fs

open Eff Bag Runs

/-- The state in which `fsinit` runs: the first process holds the root directory. -/
def mount (d : Disk) : State where
  disk := d
  itable := fun k => if k = 0 then ⟨rootino, 1, false, Dinode.zero⟩
    else ⟨0, 0, false, Dinode.zero⟩
  ftable := fun _ => ⟨.none, 0, false, false, 0, 0, 0⟩
  proc := fun p => if p = 0 then some ⟨0, fun _ => none⟩ else none
  log := ⟨false, [], []⟩

/-- Every block of an allocated inode is owned once, files have no holes, and
directory entries name inodes of the table. -/
structure Disk.Whole (sb : Superblock) (d : Disk) : Prop where
  owned : Ledger sb d.bitmap (used sb.ninodes d.dinode d.block)
  full : ∀ i < sb.ninodes, (d.dinode i).type ≠ .none → (d.dinode i).Full d.block
  range : ∀ i, ∀ e ∈ (nodes sb d i).ents, e.inum < sb.ninodes

/-- A well-formed image: also a tree, with directories of whole entries. -/
structure Disk.Formed (sb : Superblock) (d : Disk) : Prop extends d.Whole sb where
  aligned : ∀ i < sb.ninodes, (d.dinode i).type = .dir → (d.dinode i).size % direntSize = 0
  tree : Tree sb.ninodes (nodes sb d)

section

variable {sb : Superblock} {strict : Prop} {d : Disk} {s t : State}

theorem refs_mount : refs (mount d) = {0} := by
  have hproc : (total nproc fun p => opt (((mount d).proc p).map Proc.cwd)) = {0} :=
    total_single (show 0 < nproc by decide) fun p _ hp => by simp [mount, hp]
  have hfile : (total nfile fun f => ((mount d).ftable f).held) = 0 := total_zero fun _ _ => rfl
  unfold refs
  rw [hproc, hfile, add_zero]

theorem fds_mount : fds (mount d) = 0 := by
  refine total_zero fun p _ => ?_
  by_cases hp : p = 0
  · subst hp
    exact total_zero fun _ _ => rfl
  · simp [mount, hp]

theorem Disk.Whole.mount (h : d.Whole sb) (hlive : strict → (d.dinode rootino).type ≠ .none)
    (haligned : strict → ∀ i < sb.ninodes, (d.dinode i).type = .dir →
      (d.dinode i).size % direntSize = 0) : Wf sb strict (mount d) 0 0 := by
  have hslot : ∀ k, 0 < ((Fs.mount d).itable k).ref → k = 0 := by
    intro k hk
    by_contra hne
    simp [Fs.mount, hne] at hk
  refine ⟨?_, fun f => ?_, fun _ _ => rfl, fun f hf => ?_, fun p hp => ?_, fun f hf => ?_⟩
  · rw [refs_mount, zero_add]
    refine ⟨h.owned, h.full, h.range, fun k hk => ?_, fun k hk => ?_, fun k hk hv => ?_,
      fun k l hk hl _ => (hslot k hk).trans (hslot l hl).symm, fun k => ?_, fun hs k hk => ?_,
      haligned, False.elim⟩
    · rw [hslot k hk]
      decide
    · rw [hslot k hk]
      exact sb.root_lt
    · rw [hslot k hk] at hv
      cases hv
    · by_cases hk : k = 0
      · subst hk
        simp [Fs.mount]
      · simp [Fs.mount, hk]
    · rw [hslot k hk]
      exact hlive hs
  · rw [fds_mount]
    rfl
  · exact absurd hf (by simp [Fs.mount])
  · by_contra hlt
    have hne : p ≠ 0 := by
      rintro rfl
      exact hlt (by decide)
    simp [Fs.mount, hne] at hp
  · cases hf

end

/-! ## The empty file system -/

/-- The superblock that `mkfs` writes. -/
def layout : Superblock where
  size := 2000
  ninodes := 200
  inodestart := 33
  bmapstart := 46
  dataStart := 47
  pos := by decide
  size_le := by decide
  ninodes_le := by decide
  root_lt := by decide

/-- A disk with nothing but a root directory, in one block. -/
def rootImage (size : ℕ) : Disk where
  dinode := fun i =>
    if i = rootino then ⟨.dir, 0, 0, 1, size, fun j => if j = 0 then 47 else 0⟩ else Dinode.zero
  bitmap := fun b => b < 48
  block := fun b =>
    if b = 47 then putBytes (putBytes (fun _ => 0) 0 (Dirent.bytes ⟨rootino, dot⟩)) direntSize
      (Dirent.bytes ⟨rootino, dotdot⟩)
    else fun _ => 0

section

variable {size : ℕ}

theorem rootImage_free {i : ℕ} (hi : i ≠ rootino) : (rootImage size).dinode i = Dinode.zero :=
  if_neg hi

theorem rootImage_nodes_free {i : ℕ} (hi : i ≠ rootino) :
    nodes layout (rootImage size) i = Node.free := by
  unfold nodes
  rw [rootImage_free hi]
  split <;> rfl

theorem rootImage_used :
    used layout.ninodes (rootImage size).dinode (rootImage size).block = {47} := by
  have haddr : ∀ bn, bn ≠ 0 →
      ((rootImage size).dinode rootino).addr (rootImage size).block bn = 0 := by
    intro bn hbn
    unfold Dinode.addr
    simp [rootImage, hbn, ndirect]
  have hblocks : ((rootImage size).dinode rootino).blocks (rootImage size).block = {47} := by
    unfold Dinode.blocks
    rw [total_single (show 0 < maxfile by decide) fun bn _ hbn => by rw [haddr bn hbn, nz_zero]]
    rfl
  unfold used
  rw [total_single layout.root_lt fun i _ hi => by rw [rootImage_free hi]; rfl]
  exact hblocks

theorem rootImage_ledger : Ledger layout (rootImage size).bitmap
    (used layout.ninodes (rootImage size).dinode (rootImage size).block) := by
  rw [rootImage_used]
  refine ⟨Multiset.nodup_singleton 47, fun b hb => ?_, fun b _ => ?_⟩
  · rw [Multiset.mem_singleton.mp hb]
    decide
  · simp only [rootImage, layout, Multiset.mem_singleton, decide_eq_true_eq]
    omega

theorem rootImage_root : nodes layout (rootImage bsize) rootino =
    ⟨.dir, 1, ⟨rootino, dot⟩ :: ⟨rootino, dotdot⟩ :: List.replicate 62 ⟨0, []⟩⟩ := by
  decide +kernel

theorem rootImage_liveDir {i : ℕ} (h : (nodes layout (rootImage bsize) i).liveDir) :
    i = rootino := by
  by_contra hi
  rw [rootImage_nodes_free hi] at h
  cases h.1

theorem rootImage_links {x : ℕ} (hx : x ≠ 0) :
    (nodes layout (rootImage bsize) x).nlink =
      links layout.ninodes (nodes layout (rootImage bsize)) x := by
  unfold links
  rw [total_single layout.root_lt fun i _ hi => by rw [rootImage_nodes_free hi]; rfl,
    rootImage_root]
  by_cases hroot : x = rootino
  · rw [hroot, rootImage_root]
    decide
  · rw [rootImage_nodes_free hroot]
    simp [Node.names, Node.liveDir, Node.free, Ne.symm hroot, Ne.symm hx]

theorem rootImage_tree : Tree layout.ninodes (nodes layout (rootImage bsize)) where
  free i hi := by
    by_cases hroot : i = rootino
    · rw [hroot, rootImage_root] at hi
      cases hi
    · exact rootImage_nodes_free hroot
  outside i hi := if_neg (Nat.not_lt.mpr hi)
  zero := rootImage_nodes_free (by decide)
  plain i hi := by
    by_cases hroot : i = rootino
    · rw [hroot, rootImage_root] at hi
      exact absurd rfl hi
    · rw [rootImage_nodes_free hroot]
      rfl
  short i := by
    by_cases hroot : i = rootino
    · rw [hroot, rootImage_root]
      decide
    · rw [rootImage_nodes_free hroot]
      decide
  root := by
    rw [rootImage_root]
    decide
  count i hi := rootImage_links hi
  dots i hi := by
    rw [rootImage_liveDir hi, rootImage_root]
    refine ⟨_, rfl, fun e he hne => ?_⟩
    rw [List.eq_of_mem_replicate he] at hne
    exact absurd rfl hne
  up i hi := by
    rw [rootImage_liveDir hi, rootImage_root]
    change (nodes layout (rootImage bsize) rootino).liveDir
    rw [rootImage_root]
    decide
  top := by rw [rootImage_root]; rfl
  home d x hd hx hkids := by
    rw [rootImage_liveDir hd, rootImage_liveDir hx, rootImage_root] at hkids
    exact absurd hkids (by decide)
  once x hx hne := absurd (rootImage_liveDir hx) hne

theorem rootImage_formed : (rootImage bsize).Formed layout where
  owned := rootImage_ledger
  full i _ hi := by
    by_cases hroot : i = rootino
    · subst hroot
      refine ⟨by decide, fun bn hbn => ?_⟩
      have hbn : bn = 0 := by
        change bn * bsize < bsize at hbn
        unfold bsize at hbn
        omega
      rw [hbn]
      decide
    · rw [rootImage_free hroot] at hi
      exact absurd rfl hi
  range i e he := by
    by_cases hroot : i = rootino
    · rw [hroot, rootImage_root] at he
      revert e
      decide
    · rw [rootImage_nodes_free hroot] at he
      cases he
  aligned i _ hi := by
    by_cases hroot : i = rootino
    · subst hroot
      decide
    · rw [rootImage_free hroot] at hi
      cases hi
  tree := rootImage_tree

end

end Xv6.Fs
