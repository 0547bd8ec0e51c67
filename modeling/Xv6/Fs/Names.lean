import Xv6.Fs.Tree

/-!
# Names

The bodies of `link`, `unlink` and `create`: each keeps the invariant, and in the strict
form does one thing to the nodes, leaves all files alone when it fails, and logs few
blocks.
-/

namespace Xv6.Fs

open Eff Bag Function

section

variable {sb : Superblock} {strict : Prop} {P : ℕ → Prop} {c : Multiset ℕ} {s t : State}
  {i d k p : ℕ}

/-- The link counts of the set are those of a consistent file system. -/
def Counted (sb : Superblock) (P : ℕ → Prop) (s : State) : Prop :=
  ∀ i, P i → 0 ≤ (nodes sb s.disk i).nlink ∧ (nodes sb s.disk i).nlink < 2 ^ 15

theorem Inv.nlink_copy (h : Inv sb strict True s c) (hk : k ∈ c) (hv : (s.itable k).valid = true) :
    (nodes sb s.disk (s.itable k).inum).nlink = (s.copy k).nlink := by
  rw [h.node_copy hk hv, node_of_ne (h.type_ne hk hv)]

theorem Inv.type_copy (h : Inv sb strict True s c) (hk : k ∈ c) (hv : (s.itable k).valid = true) :
    (nodes sb s.disk (s.itable k).inum).type = (s.copy k).type := by
  rw [h.node_copy hk hv, node_of_ne (h.type_ne hk hv)]

theorem view_nlink (dn : Dinode) (blk : ℕ → Block) (g : ℤ → ℤ) :
    ({ dn with nlink := g dn.nlink } : Dinode).view blk =
      (dn.view blk).map fun v => { v with nlink := g v.nlink } := by
  unfold Dinode.view
  split <;> rfl

theorem map_nlink {dn : Dinode} (blk : ℕ → Block) {g : ℤ → ℤ} (h : g dn.nlink = dn.nlink) :
    (dn.view blk).map (fun v => { v with nlink := g v.nlink }) = dn.view blk := by
  rw [← view_nlink, h]

theorem int16_ne_zero {n : ℤ} (h : 0 ≤ n) (h' : n < 2 ^ 15) : int16 (n + 1) ≠ 0 := by
  unfold int16
  omega

theorem int16_back {n : ℤ} (h : 0 ≤ n) (h' : n < 2 ^ 15) : int16 (int16 (n + 1) - 1) = n := by
  unfold int16
  omega

theorem namei_spec (h : Inv sb strict True s c) (hcwd : s.cwd p ∈ c) {path : Path}
    (hwalk : strict → Walk sb P c s ∧ P (s.start p path)) :
    Within (Panics strict) (namei sb p path) s fun r s' => Quiet strict c s s' ∧
      match r with
      | none => Inv sb strict True s' c ∧
          (strict → resolve (nodes sb s.disk) (elements path) (s.start p path) = none)
      | some ip => Inv sb strict True s' (ip ::ₘ c) ∧ (strict → P (s'.itable ip).inum) ∧
          (strict → resolve (nodes sb s.disk) (elements path) (s.start p path) =
            some (s'.itable ip).inum) := by
  unfold namei
  refine (namex_spec h hcwd hwalk false).bind fun r t ht => ?_
  simp only [located_false, Option.map_eq_none_iff, Option.map_eq_some_iff, Prod.mk.injEq] at ht
  obtain ⟨hquiet, hpost⟩ := ht
  cases r with
  | none => exact within_pure ⟨hquiet, hpost.1, hpost.2⟩
  | some r =>
    refine within_pure ⟨hquiet, hpost.1, hpost.2.2.1, fun hs => ?_⟩
    obtain ⟨d, hd, rfl, -⟩ := hpost.2.2.2 hs
    exact hd

/-- Nothing has changed that a reader could see. -/
def Unchanged (sb : Superblock) (s s' : State) : Prop :=
  nodes sb s'.disk = nodes sb s.disk ∧ files sb s'.disk = files sb s.disk

theorem Quiet.unchanged (h : Quiet strict c s t) (hs : strict) : Unchanged sb s t := by
  unfold Unchanged
  rw [h.disk hs]
  exact ⟨rfl, rfl⟩

theorem Quiet.few {F : ℕ → Prop} (h : Quiet strict c s t) (hs : strict) (r : ℕ) :
    s.log.Few sb F r t.log := by
  rw [h.log hs]
  exact .refl r

/-- A call on names has failed and changed nothing, or it has changed the nodes. -/
structure NameCall (sb : Superblock) (strict : Prop) (c : Multiset ℕ)
    (R : (ℕ → Node) → (ℕ → Node) → Prop) (s : State) (r : ℤ) (t : State) : Prop where
  inv : Inv sb strict True t c
  kept : Kept c s t
  log : strict → ∃ d i, s.log.Few sb (fun b => b = iblock sb d ∨ b = iblock sb i) 2 t.log
  nodes : strict → r = -1 ∧ Unchanged sb s t ∨ r = 0 ∧ R (nodes sb s.disk) (nodes sb t.disk)

theorem NameCall.fail {R : (ℕ → Node) → (ℕ → Node) → Prop} (h : Inv sb strict True t c)
    (hquiet : Quiet strict c s t) : NameCall sb strict c R s (-1) t :=
  ⟨h, hquiet.toKept, fun hs => ⟨0, 0, hquiet.few hs 2⟩, fun hs => .inl ⟨rfl, hquiet.unchanged hs⟩⟩

/-! ## `link` -/

theorem linkNew_spec (h : Inv sb strict True s c) (hcwd : s.cwd p ∈ c) (path : Path)
    (hwalk : strict → Walk sb P c s ∧ P (s.start p path)) (hi : i < sb.ninodes) :
    Within (Panics strict) (linkNew sb p i path) s fun r s' => Inv sb strict True s' c ∧
      Kept c s s' ∧ (strict → ∃ d, s.log.Few sb (· = iblock sb d) 2 s'.log ∧
        (r = false ∧ Unchanged sb s s' ∨
          r = true ∧ ∃ j name, Slot P (nodes sb s.disk) d j name ∧
            nodes sb s'.disk = update (nodes sb s.disk) d
              ((nodes sb s.disk d).enter j ⟨i, name⟩))) := by
  unfold linkNew nameiparent
  refine (namex_spec h hcwd hwalk true).bind fun r t ht => ?_
  obtain ⟨hquiet, hpost⟩ := ht
  cases r with
  | none =>
    exact within_pure ⟨hpost.1, hquiet.toKept, fun hs =>
      ⟨0, hquiet.few hs 2, .inl ⟨rfl, hquiet.unchanged hs⟩⟩⟩
  | some r =>
    obtain ⟨dp, name⟩ := r
    obtain ⟨hinv, hname, hP, -⟩ := hpost
    have hdp := Multiset.mem_cons_self dp c
    have hsub := Multiset.subset_cons c dp
    refine (ilock_reached hinv hquiet (fun hs => (hwalk hs).1) hP).bind fun _ u hu => ?_
    obtain ⟨hinv, hquiet, hv, hwalk'⟩ := hu
    refine (dirlink_spec hinv hdp hv (hname rfl) hi fun hs e he hne _ => ?_).bind fun r v hr => ?_
    · have hnext := (hwalk' hs).1.next _ (hwalk' hs).2 e he hne
      exact ⟨(hwalk' hs).1.used _ hnext, ((hwalk' hs).1.safe _ hnext).mono hsub⟩
    obtain ⟨hinv, hkept, hpost⟩ := hr
    have hinum := hkept.inum dp hdp
    refine ((iput_safe hinv fun hs => ?_).within).bind fun _ w hw => ?_
    · rw [hinum]
      refine ((hwalk' hs).1.safe _ (hwalk' hs).2).congr ?_ (hkept.mono hsub).inum
      rcases (hpost hs).2.2 with ⟨-, hnodes, -⟩ | ⟨-, -, -, j, -, hnodes⟩
      · rw [hnodes]
      · rw [hnodes, update_self]
    · obtain ⟨hinv, hput⟩ := hw
      refine within_pure ⟨hinv, (hquiet.toKept.trans (hkept.mono hsub)).trans hput.toKept,
        fun hs => ⟨(u.itable dp).inum, ?_⟩⟩
      obtain ⟨hfew, -, hcase⟩ := hpost hs
      unfold Unchanged
      rw [hput.disk hs, hput.log hs, ← hquiet.disk hs, ← hquiet.log hs]
      refine ⟨hfew, ?_⟩
      rcases hcase with ⟨rfl, hsame⟩ | ⟨rfl, hfresh, hdir, j, hvac, hnodes⟩
      · exact .inl ⟨by decide, hsame⟩
      · exact .inr ⟨by decide, j, name, ⟨(hwalk' hs).2, hdir, hfresh, hvac⟩, hnodes⟩

theorem Walk.relinked (h : Walk sb P c s) {m : ℤ}
    (hnodes : nodes sb t.disk = update (nodes sb s.disk) i
      { nodes sb s.disk i with nlink := m })
    (hinum : ∀ l ∈ c, (t.itable l).inum = (s.itable l).inum) (hk : (t.itable k).inum = i) :
    Walk sb P (k ::ₘ c) t := by
  have hsame : ∀ j, (nodes sb t.disk j).type = (nodes sb s.disk j).type ∧
      (nodes sb t.disk j).ents = (nodes sb s.disk j).ents := by
    intro j
    rw [hnodes]
    by_cases hj : j = i
    · subst hj
      rw [update_self]
      exact ⟨rfl, rfl⟩
    · rw [update_of_ne hj]
      exact ⟨rfl, rfl⟩
  refine ⟨fun j hj => ?_, fun j hj e he => ?_, fun j hj => ?_⟩
  · rw [(hsame j).1]
    exact h.used j hj
  · rw [(hsame j).2] at he
    exact h.next j hj e he
  · by_cases hji : j = i
    · exact .inr ⟨k, Multiset.mem_cons_self k c, hk.trans hji.symm⟩
    · refine ((h.safe j hj).congr ?_ hinum).mono (Multiset.subset_cons c k)
      rw [hnodes, update_of_ne hji]

theorem Inv.relink (h : Inv sb strict True s c) (hk : k ∈ c) (hv : (s.itable k).valid = true)
    (g : ℤ → ℤ) :
    Ensures (change sb k fun d => { d with nlink := g d.nlink }) s fun _ s' =>
      Inv sb strict True s' c ∧ Kept c s s' ∧
      nodes sb s'.disk = update (nodes sb s.disk) (s.itable k).inum
        { nodes sb s.disk (s.itable k).inum with
          nlink := g (nodes sb s.disk (s.itable k).inum).nlink } ∧
      files sb s'.disk = update (files sb s.disk) (s.itable k).inum
        ((files sb s.disk (s.itable k).inum).map fun v => { v with nlink := g v.nlink }) ∧
      s.log.Adds (· = iblock sb (s.itable k).inum) s'.log := by
  refine (h.change_spec hk hv (f := fun d => { d with nlink := g d.nlink }) rfl rfl rfl).mono
    fun _ t ht => ?_
  obtain ⟨hinv, hkept, -, hnodes, hfiles, hlog⟩ := ht
  rw [h.nlink_copy hk hv, h.file_copy hk hv, ← view_nlink]
  exact ⟨hinv, hkept, hnodes, hfiles, hlog⟩

/-- The second half of `sys_link`: the link count goes up before the name is entered and
down again if that fails. -/
theorem linkCounted_spec (h : Inv sb strict True s (k ::ₘ c)) (hv : (s.itable k).valid = true)
    (hcwd : s.cwd p ∈ c) {new : Path} (hdir : (s.copy k).type ≠ .dir)
    (hwalk : strict → Walk sb P c s ∧ P (s.itable k).inum ∧ P (s.start p new))
    (hcount : strict → Counted sb P s) :
    Within (Panics strict) (linkCounted sb p k new) s fun r s' => Inv sb strict True s' c ∧
      Kept c s s' ∧ (strict → (∃ d, s.log.Few sb
          (fun b => b = iblock sb d ∨ b = iblock sb (s.itable k).inum) 2 s'.log) ∧
        (r = -1 ∧ Unchanged sb s s' ∨
          r = 0 ∧ Linked P (nodes sb s.disk) (nodes sb s'.disk))) := by
  have hip := Multiset.mem_cons_self k c
  have hsub := Multiset.subset_cons c k
  have hi := h.inum k (h.ref_pos hip)
  unfold linkCounted
  refine ((h.relink hip hv fun n => int16 (n + 1)).within).bind fun _ t ht => ?_
  obtain ⟨hinvt, hkeptt, hnodest, hfilest, hlogt⟩ := ht
  have hinumt := hkeptt.inum k hip
  apply within_get_bind
  rw [hinumt]
  have hcwdt : t.cwd p ∈ k ::ₘ c := by
    rw [State.cwd, hkeptt.proc]
    exact Multiset.mem_cons_of_mem hcwd
  have hstart : t.start p new = s.start p new := by
    unfold State.start State.cwd
    rw [hkeptt.proc]
    split
    · rfl
    · exact hkeptt.inum _ (Multiset.mem_cons_of_mem hcwd)
  refine (linkNew_spec hinvt hcwdt (P := P) new (fun hs => ⟨?_, ?_⟩) hi).bind
    fun linked u hu => ?_
  · exact (hwalk hs).1.relinked hnodest (hkeptt.mono hsub).inum hinumt
  · rw [hstart]
    exact (hwalk hs).2.2
  obtain ⟨hinvu, hkeptu, hpost⟩ := hu
  have hinumu : (u.itable k).inum = (s.itable k).inum := (hkeptu.inum k hip).trans hinumt
  have hadds : ∀ d, s.log.Few sb (fun b => b = iblock sb d ∨ b = iblock sb (s.itable k).inum) 0
      t.log := fun d => Log.Adds.few (hlogt.mono fun b hb => .inr (.inr hb))
  cases linked with
  | true =>
    rw [if_pos rfl]
    -- the name is in a directory, so not in the inode itself
    have hnew : strict → ∃ d, t.log.Few sb (· = iblock sb d) 2 u.log ∧
        d ≠ (s.itable k).inum ∧ ∃ j name, Slot P (nodes sb s.disk) d j name ∧
          nodes sb u.disk = update (nodes sb t.disk) d
            ((nodes sb s.disk d).enter j ⟨(s.itable k).inum, name⟩) := by
      intro hs
      obtain ⟨d, hfew, hcase⟩ := hpost hs
      rcases hcase with ⟨hr, -⟩ | ⟨-, j, name, hslot, hnodes⟩
      · cases hr
      have hne : d ≠ (s.itable k).inum := by
        rintro rfl
        have htype := hslot.dir
        rw [hnodest, update_self] at htype
        exact hdir ((h.type_copy hip hv).symm.trans htype)
      have hd : nodes sb t.disk d = nodes sb s.disk d := by
        rw [hnodest, update_of_ne hne]
      refine ⟨d, hfew, hne, j, name, ⟨hslot.mem, ?_, ?_, ?_⟩, ?_⟩
      · rw [← hd]
        exact hslot.dir
      · rw [← hd]
        exact hslot.fresh
      · rw [← hd]
        exact hslot.vacant
      · rw [hnodes, hd]
    refine ((iput_safe hinvu fun hs => ?_).within).bind fun _ v hv' => ?_
    · obtain ⟨d, -, hne, j, name, -, hnodes⟩ := hnew hs
      obtain ⟨hlo, hhi⟩ := hcount hs _ (hwalk hs).2.1
      refine .inl ?_
      rw [hinumu, hnodes, update_of_ne hne.symm, hnodest, update_self]
      exact int16_ne_zero hlo hhi
    · obtain ⟨hinv, hput⟩ := hv'
      refine within_pure ⟨hinv, ((hkeptt.trans hkeptu).mono hsub).trans hput.toKept, fun hs => ?_⟩
      obtain ⟨d, hfew, hne, j, name, hslot, hnodes⟩ := hnew hs
      rw [hput.log hs, hput.disk hs]
      refine ⟨⟨d, (hadds d).trans (hfew.mono (fun b hb => .inl hb) le_rfl)⟩, .inr ⟨rfl, ?_⟩⟩
      refine ⟨d, (s.itable k).inum, j, name, hslot, (hwalk hs).2.1, ?_, ?_⟩
      · rw [h.type_copy hip hv]
        exact hdir
      · rw [hnodes, hnodest]
        rfl
  | false =>
    rw [if_neg (by decide)]
    have hold : strict → ∃ d, t.log.Few sb (· = iblock sb d) 2 u.log ∧ Unchanged sb t u := by
      intro hs
      obtain ⟨d, hfew, hcase⟩ := hpost hs
      rcases hcase with ⟨-, hsame⟩ | ⟨hr, -⟩
      · exact ⟨d, hfew, hsame⟩
      · cases hr
    refine (ilock_spec hinvu hip).bind fun _ v hv' => ?_
    obtain ⟨hinvv, hlock, hvv⟩ := hv'
    have hinumv : (v.itable k).inum = (s.itable k).inum := (hlock.inum k hip).trans hinumu
    refine ((hinvv.relink hip hvv fun n => int16 (n - 1)).within).bind fun _ w hw => ?_
    obtain ⟨hinvw, hkeptw, hnodesw, hfilesw, hlogw⟩ := hw
    have hinumw := hkeptw.inum k hip
    rw [hinumv] at hinumw hnodesw hfilesw hlogw
    -- the count is back at what it was
    have hback : strict → Unchanged sb s w := by
      intro hs
      obtain ⟨hlo, hhi⟩ := hcount hs _ (hwalk hs).2.1
      have hback := int16_back hlo hhi
      obtain ⟨-, -, hnodesu, hfilesu⟩ := hold hs
      rw [hlock.disk trivial, hnodesu, hnodest, update_idem, update_self] at hnodesw
      rw [hlock.disk trivial, hfilesu, hfilest, update_idem, update_self,
        Option.map_map] at hfilesw
      constructor
      · rw [hnodesw]
        dsimp only
        rw [hback, update_eq_self]
      · rw [hfilesw, h.file_copy hip hv]
        have hmap := map_nlink s.disk.block (g := fun n => int16 (int16 (n + 1) - 1))
          (show _ = (s.copy k).nlink by rw [← h.nlink_copy hip hv]; exact hback)
        have hcomp : ((s.copy k).view s.disk.block).map
            ((fun v : View => { v with nlink := int16 (v.nlink - 1) }) ∘
              fun v => { v with nlink := int16 (v.nlink + 1) }) = (s.copy k).view s.disk.block :=
          hmap
        rw [hcomp, ← h.file_copy hip hv, update_eq_self]
    have hkept : Kept c s w :=
      (((hkeptt.trans hkeptu).trans hlock.toKept).trans hkeptw).mono hsub
    refine ((iput_safe hinvw fun hs => ?_).within).bind fun _ x hx => ?_
    · rw [hinumw]
      exact ((hwalk hs).1.safe _ (hwalk hs).2.1).congr (by rw [(hback hs).1]) hkept.inum
    · obtain ⟨hinv, hput⟩ := hx
      refine within_pure ⟨hinv, hkept.trans hput.toKept, fun hs => ?_⟩
      obtain ⟨d, hfew, -⟩ := hold hs
      unfold Unchanged
      rw [hput.log hs, hput.disk hs]
      refine ⟨⟨d, ?_⟩, .inl ⟨rfl, hback hs⟩⟩
      have hlast : u.log.Few sb (fun b => b = iblock sb d ∨ b = iblock sb (s.itable k).inum) 0
          w.log := by
        rw [← hlock.log trivial]
        exact Log.Adds.few (hlogw.mono fun b hb => .inr (.inr hb))
      exact ((hadds d).trans (hfew.mono (fun b hb => .inl hb) le_rfl)).trans hlast

theorem linkOp_spec (h : Inv sb strict True s c) (hcwd : s.cwd p ∈ c) {old new : Path}
    (hwalk : strict → Walk sb P c s ∧ P (s.start p old) ∧ P (s.start p new))
    (hcount : strict → Counted sb P s) :
    Within (Panics strict) (linkOp sb p old new) s (NameCall sb strict c (Linked P) s) := by
  unfold linkOp
  refine (namei_spec h hcwd fun hs => ⟨(hwalk hs).1, (hwalk hs).2.1⟩).bind fun r t ht => ?_
  obtain ⟨hquiet, hpost⟩ := ht
  cases r with
  | none => exact within_pure (.fail hpost.1 hquiet)
  | some ip =>
    obtain ⟨hinv, hP, -⟩ := hpost
    refine (ilock_reached hinv hquiet (fun hs => (hwalk hs).1) hP).bind fun _ u hu => ?_
    obtain ⟨hinv, hquiet, hv, hwalku⟩ := hu
    apply within_get_bind
    by_cases hdir : (u.copy ip).type = .dir
    · rw [if_pos hdir]
      exact ((iput_safe hinv fun hs => (hwalku hs).1.safe _ (hwalku hs).2).within).bind
        fun _ v hv => within_pure (.fail hv.1 (hquiet.trans hv.2))
    · rw [if_neg hdir]
      have hcwdu : u.cwd p ∈ c := by
        rw [State.cwd, hquiet.proc]
        exact hcwd
      have hstart : u.start p new = s.start p new := by
        unfold State.start State.cwd
        rw [hquiet.proc]
        split
        · rfl
        · exact hquiet.inum _ hcwd
      refine (linkCounted_spec hinv hv hcwdu hdir
        (fun hs => ⟨(hwalku hs).1, (hwalku hs).2, hstart ▸ (hwalk hs).2.2⟩) fun hs => ?_).mono
        fun r v hr => ?_
      · unfold Counted
        rw [hquiet.disk hs]
        exact hcount hs
      · obtain ⟨hinv, hkept, hpost⟩ := hr
        unfold Unchanged at hpost
        refine ⟨hinv, hquiet.toKept.trans hkept, fun hs => ?_, fun hs => ?_⟩
        · obtain ⟨d, hfew⟩ := (hpost hs).1
          rw [hquiet.log hs] at hfew
          exact ⟨d, _, hfew⟩
        · rw [hquiet.disk hs] at hpost
          exact (hpost hs).2

/-! ## `unlink` -/

theorem iput_mayFree (h : Inv sb strict True s (k ::ₘ c)) :
    Ensures (iput sb k) s fun _ s' => Inv sb strict True s' c ∧ Kept c s s' ∧
      MayFree (s.itable k).inum (nodes sb s.disk) (nodes sb s'.disk) ∧
      s.log.Few sb (· = iblock sb (s.itable k).inum) 0 s'.log := by
  refine (iput_spec h).mono fun _ t ht => ?_
  obtain ⟨hinv, hkept, hcase, -⟩ := ht
  refine ⟨hinv, hkept, ?_⟩
  rcases hcase with ⟨hdisk, hlog⟩ | ⟨-, hzero, hnodes, -, hlog⟩
  · rw [hdisk, hlog]
    exact ⟨.inl rfl, .refl 0⟩
  · exact ⟨.inr ⟨hzero, hnodes⟩, hlog.few⟩

variable {dp ip j : ℕ}

theorem unlinkEntry_spec (h : Inv sb strict True s (ip ::ₘ dp ::ₘ c))
    (hvi : (s.itable ip).valid = true) (hvd : (s.itable dp).valid = true)
    (hdir : (s.copy dp).type = .dir)
    (hroom : j * direntSize + direntSize ≤ (s.copy dp).size) :
    Within (Panics strict) (unlinkEntry sb dp ip (j * direntSize)) s fun r s' =>
      Inv sb strict True s' c ∧ Kept c s s' ∧ r = 0 ∧
      s.log.Few sb (fun b => b = iblock sb (s.itable dp).inum ∨ b = iblock sb (s.itable ip).inum)
        2 s'.log ∧
      ∃ M, MayFree (s.itable dp).inum (update (nodes sb s.disk) (s.itable dp).inum
          (if (nodes sb s.disk (s.itable ip).inum).type = .dir
            then ((nodes sb s.disk (s.itable dp).inum).enter j ⟨0, []⟩).link (-1)
            else (nodes sb s.disk (s.itable dp).inum).enter j ⟨0, []⟩)) M ∧
        MayFree (s.itable ip).inum (update M (s.itable ip).inum
          ((M (s.itable ip).inum).link (-1))) (nodes sb s'.disk) := by
  have hip := Multiset.mem_cons_self ip (dp ::ₘ c)
  have hdp : dp ∈ ip ::ₘ dp ::ₘ c :=
    Multiset.mem_cons_of_mem (Multiset.mem_cons_self dp c)
  have hsub : c ⊆ ip ::ₘ c := Multiset.subset_cons c ip
  have hsub' : ip ::ₘ c ⊆ ip ::ₘ dp ::ₘ c :=
    Multiset.cons_subset_cons (Multiset.subset_cons c dp)
  unfold unlinkEntry
  apply within_get_bind
  have hzero : (Dirent.ofBytes (List.replicate direntSize 0)).inum < sb.ninodes := by
    rw [ofBytes_zero]
    exact lt_trans (by decide) sb.root_lt
  refine ((h.writei_dirent hdp hvd hdir (List.length_replicate) hzero (.inl hroom)).within).bind
    fun w t ht => ?_
  obtain ⟨hinvt, hkeptt, hnodest, -, hlogt⟩ := ht
  by_cases hw : w = direntSize
  swap
  · rw [if_pos hw]
    exact within_throw (panics (by decide))
  rw [if_neg (by simpa using hw)]
  rw [if_pos hw, ofBytes_zero] at hnodest
  have hnoded := h.node_dir hdp hvd hdir
  obtain ⟨hvdt, -⟩ := hkeptt.valid dp hdp hvd
  have hinumd := hkeptt.inum dp hdp
  have hinumi := hkeptt.inum ip hip
  -- the parent loses the link of a directory's `..`
  refine Within.bind (R := fun _ u => Inv sb strict True u (ip ::ₘ dp ::ₘ c) ∧
    Kept (ip ::ₘ dp ::ₘ c) t u ∧ nodes sb u.disk = update (nodes sb s.disk)
      (s.itable dp).inum (if (nodes sb s.disk (s.itable ip).inum).type = .dir
        then ((nodes sb s.disk (s.itable dp).inum).enter j ⟨0, []⟩).link (-1)
        else (nodes sb s.disk (s.itable dp).inum).enter j ⟨0, []⟩) ∧
    t.log.Few sb (· = iblock sb (s.itable dp).inum) 0 u.log) ?_ fun _ u hu => ?_
  · rw [h.type_copy hip hvi]
    by_cases htype : (s.copy ip).type = .dir
    · rw [if_pos htype, if_pos htype]
      refine ((hinvt.relink hdp hvdt fun n => int16 (n - 1)).within).mono fun _ u hu => ?_
      obtain ⟨hinv, hkept, hnodes, -, hlog⟩ := hu
      rw [hinumd] at hnodes hlog
      refine ⟨hinv, hkept, ?_, Log.Adds.few (hlog.mono fun b hb => .inr hb)⟩
      rw [hnodes, hnodest, update_idem, update_self, hnoded]
      rfl
    · rw [if_neg htype, if_neg htype]
      refine within_pure ⟨hinvt, Kept.refl, ?_, .refl 0⟩
      rw [hnodest, hnoded]
      rfl
  obtain ⟨hinvu, hkeptu, hnodesu, hlogu⟩ := hu
  have hinumdu : (u.itable dp).inum = (s.itable dp).inum := (hkeptu.inum dp hdp).trans hinumd
  rw [Multiset.cons_swap] at hinvu
  refine ((iput_mayFree hinvu).within).bind fun _ v hv => ?_
  obtain ⟨hinvv, hkeptv, hfreed, hlogv⟩ := hv
  have hipv := Multiset.mem_cons_self ip c
  have hkept : Kept (ip ::ₘ c) s v := ((hkeptt.trans hkeptu).mono hsub').trans hkeptv
  have hinumv := hkept.inum ip hipv
  obtain ⟨hvv, -⟩ := hkept.valid ip hipv hvi
  refine ((hinvv.relink hipv hvv fun n => int16 (n - 1)).within).bind fun _ w hw => ?_
  obtain ⟨hinvw, hkeptw, hnodesw, -, hlogw⟩ := hw
  have hinumw : (w.itable ip).inum = (s.itable ip).inum := (hkeptw.inum ip hipv).trans hinumv
  refine ((iput_mayFree hinvw).within).bind fun _ x hx => ?_
  obtain ⟨hinvx, hkeptx, hfreex, hlogx⟩ := hx
  rw [hinumdu] at hfreed hlogv
  rw [hinumv] at hnodesw hlogw
  rw [hinumw] at hfreex hlogx
  refine within_pure ⟨hinvx, ((hkept.trans hkeptw).mono hsub).trans hkeptx, rfl, ?_,
    nodes sb v.disk, ?_, ?_⟩
  · have hfirst : s.log.Few sb
        (fun b => b = iblock sb (s.itable dp).inum ∨ b = iblock sb (s.itable ip).inum) 2 v.log :=
      ((hlogt.trans hlogu).trans hlogv).mono (fun _ hb => .inl hb) le_rfl
    have hlast : v.log.Few sb
        (fun b => b = iblock sb (s.itable dp).inum ∨ b = iblock sb (s.itable ip).inum) 0 x.log :=
      ((Log.Adds.few (hlogw.mono fun b hb => .inr hb)).trans hlogx).mono
        (fun _ hb => .inr hb) le_rfl
    exact hfirst.trans hlast
  · rw [← hnodesu]
    exact hfreed
  · have hlink : nodes sb w.disk = update (nodes sb v.disk) (s.itable ip).inum
        ((nodes sb v.disk (s.itable ip).inum).link (-1)) := hnodesw
    rw [← hlink]
    exact hfreex

theorem unlinkOp_spec (h : Inv sb strict True s c) (hcwd : s.cwd p ∈ c) {path : Path}
    (hwalk : strict → Walk sb P c s ∧ P (s.start p path)) :
    Within (Panics strict) (unlinkOp sb p path) s (NameCall sb strict c (Unlinked P) s) := by
  unfold unlinkOp nameiparent
  refine (namex_spec h hcwd hwalk true).bind fun r t ht => ?_
  obtain ⟨hquiet, hpost⟩ := ht
  cases r with
  | none => exact within_pure (.fail hpost.1 hquiet)
  | some r =>
    obtain ⟨dp, name⟩ := r
    obtain ⟨hinv, -, hP, -⟩ := hpost
    have hdp := Multiset.mem_cons_self dp c
    have hsub := Multiset.subset_cons c dp
    refine (ilock_reached hinv hquiet (fun hs => (hwalk hs).1) hP).bind fun _ u hu => ?_
    obtain ⟨hinv, hquiet, hv, hwalk'⟩ := hu
    -- the parent is put back and the call fails
    have hstop : Within (Panics strict) (do iput sb dp; pure (-1)) u
        (NameCall sb strict c (Unlinked P) s) :=
      ((iput_safe hinv fun hs => (hwalk' hs).1.safe _ (hwalk' hs).2).within).bind
        fun _ v hv => within_pure (.fail hv.1 (hquiet.trans hv.2))
    by_cases hdots : name = dot ∨ name = dotdot
    · rw [if_pos hdots]
      exact hstop
    rw [if_neg hdots]
    push Not at hdots
    refine (dirlookup_spec hinv hdp hv fun hs e he hne _ => ?_).bind fun r v hr => ?_
    · exact (hwalk' hs).1.used _ ((hwalk' hs).1.next _ (hwalk' hs).2 e he hne)
    obtain ⟨hdir, hpost⟩ := hr
    cases r with
    | none =>
      rw [hpost.1]
      exact hstop
    | some r =>
      obtain ⟨ip, off⟩ := r
      obtain ⟨j, e, rfl, hroom, he, hne, rfl, -, hinum, hinvv, hlook⟩ := hpost
      have hip := Multiset.mem_cons_self ip (dp ::ₘ c)
      have hsub' := Multiset.subset_cons (dp ::ₘ c) ip
      refine (ilock_spec hinvv hip).bind fun _ w hw => ?_
      obtain ⟨hinvw, hlockw, hvw⟩ := hw
      have hread : Quiet True (dp ::ₘ c) u w := hlook.trans (hlockw.mono hsub')
      have hinumd := hread.inum dp hdp
      have hinumi : (w.itable ip).inum = e.inum := (hlockw.inum ip hip).trans hinum
      obtain ⟨hvdw, htyped⟩ := hread.valid dp hdp hv
      have hcopy : w.copy dp = u.copy dp := by
        rw [hinvw.copy_eq (hsub' hdp) hvdw, hinv.copy_eq hdp hv, hinumd, hread.disk trivial]
      have hquietw : Quiet strict c s w := hquiet.trans (hread.mono hsub).weaken
      have hmem := List.mem_of_getElem? he
      apply within_get_bind
      split
      · exact within_throw (panics (by decide))
      rename_i hlinked
      have hnlink := hinvw.nlink_copy hip hvw
      -- whether the directory is empty
      refine Within.bind (R := fun r x => x = w ∧ (r = true →
        (nodes sb w.disk (w.itable ip).inum).type = .dir →
        ∀ e' ∈ (nodes sb w.disk (w.itable ip).inum).ents.drop 2, e'.inum = 0)) ?_
        fun empty x hx => ?_
      · by_cases htype : (w.copy ip).type = .dir
        · rw [if_pos htype]
          exact (isdirempty_spec hinvw hip hvw htype).mono fun r x hx =>
            ⟨hx.1, fun hr _ => hx.2 hr⟩
        · rw [if_neg htype]
          refine within_pure ⟨rfl, fun _ hd => ?_⟩
          rw [hinvw.type_copy hip hvw] at hd
          exact absurd hd htype
      obtain ⟨rfl, hempty⟩ := hx
      by_cases hr : empty = true
      · rw [if_pos hr]
        refine (unlinkEntry_spec hinvw hvw hvdw (by rw [hcopy]; exact hdir)
          (by rw [hcopy]; exact hroom)).mono fun r y hy => ?_
        obtain ⟨hinvy, hkepty, rfl, hlog, M, hM, hN⟩ := hy
        refine ⟨hinvy, hquietw.toKept.trans hkepty, fun hs => ?_, fun hs => ?_⟩
        · rw [hinumd, hinumi, hquietw.log hs] at hlog
          exact ⟨_, _, hlog⟩
        have hempty := hempty hr
        rw [hinumd, hinumi] at hM
        rw [hinumi] at hN hempty hnlink
        rw [hquietw.disk hs] at hM hempty hnlink
        rw [hquiet.disk hs] at he
        refine .inr ⟨rfl, (u.itable dp).inum, j, e, M, (hwalk' hs).2, ?_, he, hne,
          hdots.1, hdots.2, ?_, hempty, hM, hN⟩
        · rw [← hquiet.disk hs, hinv.type_copy hdp hv]
          exact hdir
        · omega
      · rw [if_neg hr]
        have hsafe : strict → Safe sb (dp ::ₘ c) x (x.itable ip).inum := by
          intro hs
          rw [hinumi]
          have hnext := (hwalk' hs).1.next _ (hwalk' hs).2 e hmem hne
          exact hread.safe trivial (((hwalk' hs).1.safe _ hnext).mono hsub)
        refine ((iput_safe hinvw hsafe).within).bind fun _ y hy => ?_
        obtain ⟨hinvy, hputy⟩ := hy
        refine ((iput_safe hinvy fun hs => ?_).within).bind fun _ z hz => ?_
        · rw [hputy.inum dp hdp, hinumd]
          exact (hputy.mono hsub).safe hs ((hread.mono hsub).safe trivial
            ((hwalk' hs).1.safe _ (hwalk' hs).2))
        · exact within_pure (.fail hz.1 ((hquietw.trans (hputy.mono hsub)).trans hz.2))

/-! ## `create` -/

theorem dot_ok : Name.Ok dot := by
  unfold Name.Ok
  decide

theorem dotdot_ok : Name.Ok dotdot := by
  unfold Name.Ok
  decide

theorem vacant_nil (h : Vacant [] j) : j = 0 := by
  rcases h with h | ⟨e, he, -⟩
  · exact h
  · cases he

theorem vacant_singleton {e : Dirent} (he : e.inum ≠ 0) (h : Vacant [e] j) : j = 1 := by
  rcases h with h | ⟨e', he', hzero⟩
  · exact h
  · match j, he' with
    | 0, he' =>
      simp only [List.getElem?_cons_zero, Option.some.injEq] at he'
      subst he'
      exact absurd hzero he
    | _ + 1, he' => cases he'

/-- A new directory gets its entries `.` and `..`, or fails with some of them. -/
theorem linkDots_spec (h : Inv sb strict True s c) (hip : ip ∈ c) (hv : (s.itable ip).valid = true)
    (hd : d < sb.ninodes) (hi : (s.itable ip).inum ≠ 0)
    (hnode : nodes sb s.disk (s.itable ip).inum = ⟨.dir, 1, []⟩) :
    Within (Panics strict) (linkDots sb ip (s.itable ip).inum d) s fun r s' =>
      Inv sb strict True s' c ∧ Kept c s s' ∧ (strict →
        s.log.Few sb (· = iblock sb (s.itable ip).inum) 4 s'.log ∧
        (∀ i, i ≠ (s.itable ip).inum → files sb s'.disk i = files sb s.disk i) ∧
        ∃ X, nodes sb s'.disk = update (nodes sb s.disk) (s.itable ip).inum X ∧
          (r = true → X = Node.born .dir (s.itable ip).inum d)) := by
  unfold linkDots
  refine (dirlink_spec h hip hv dot_ok (h.inum ip (h.ref_pos hip)) fun _ e he => ?_).bind
    fun r t ht => ?_
  · rw [hnode] at he
    cases he
  obtain ⟨hinvt, hkeptt, hpostt⟩ := ht
  have hinumt := hkeptt.inum ip hip
  obtain ⟨hvt, -⟩ := hkeptt.valid ip hip hv
  by_cases hr : r < 0
  · rw [if_pos hr]
    refine within_pure ⟨hinvt, hkeptt, fun hs => ?_⟩
    obtain ⟨hfew, hframe, hcase⟩ := hpostt hs
    rcases hcase with ⟨-, hnodes, -⟩ | ⟨rfl, -⟩
    · refine ⟨hfew.mono (fun _ hb => hb) (by omega), hframe, nodes sb s.disk (s.itable ip).inum,
        ?_, fun hr => by cases hr⟩
      rw [hnodes, update_eq_self]
    · exact absurd hr (by decide)
  · rw [if_neg hr]
    have hfirst : strict → s.log.Few sb (· = iblock sb (s.itable ip).inum) 2 t.log ∧
        (∀ i, i ≠ (s.itable ip).inum → files sb t.disk i = files sb s.disk i) ∧
        nodes sb t.disk = update (nodes sb s.disk) (s.itable ip).inum
          ⟨.dir, 1, [⟨(s.itable ip).inum, dot⟩]⟩ := by
      intro hs
      obtain ⟨hfew, hframe, hcase⟩ := hpostt hs
      rcases hcase with ⟨rfl, -⟩ | ⟨-, -, -, j, hvac, hnodes⟩
      · exact absurd (show (-1 : ℤ) < 0 by decide) hr
      · rw [hnode] at hvac hnodes
        rw [vacant_nil hvac] at hnodes
        exact ⟨hfew, hframe, hnodes⟩
    refine (dirlink_spec hinvt hip hvt dotdot_ok hd fun hs e he _ hname => ?_).bind
      fun r' u hu => ?_
    · rw [hinumt, (hfirst hs).2.2, update_self] at he
      rw [List.mem_singleton.mp he] at hname
      exact absurd hname (show dot ≠ dotdot by decide)
    obtain ⟨hinvu, hkeptu, hpostu⟩ := hu
    refine within_pure ⟨hinvu, hkeptt.trans hkeptu, fun hs => ?_⟩
    obtain ⟨hfew, hframe, hnodest⟩ := hfirst hs
    obtain ⟨hfew', hframe', hcase⟩ := hpostu hs
    rw [hinumt] at hfew' hframe' hcase
    refine ⟨hfew.trans hfew', fun i hne => (hframe' i hne).trans (hframe i hne), ?_⟩
    rcases hcase with ⟨rfl, hnodes, -⟩ | ⟨-, -, -, j, hvac, hnodes⟩
    · exact ⟨_, hnodes.trans hnodest, fun hr => absurd hr (by decide)⟩
    · rw [hnodest, update_self] at hvac
      obtain rfl := vacant_singleton hi hvac
      rw [hnodest, update_self, update_idem] at hnodes
      exact ⟨_, hnodes, fun _ => rfl⟩

theorem linkNamed_spec (h : Inv sb strict True s c) (hip : ip ∈ c) (hdp : dp ∈ c)
    (hvi : (s.itable ip).valid = true) (hvd : (s.itable dp).valid = true) {name : Name}
    (hname : Name.Ok name) {type : FileType} (hi : (s.itable ip).inum ≠ 0)
    (hnode : nodes sb s.disk (s.itable ip).inum = ⟨type, 1, []⟩)
    (hne : (s.itable dp).inum ≠ (s.itable ip).inum)
    (hfresh : ∀ e ∈ (nodes sb s.disk (s.itable dp).inum).ents, e.inum ≠ 0 → e.name ≠ name) :
    Within (Panics strict) (linkNamed sb dp ip name type) s fun r s' =>
      Inv sb strict True s' c ∧ Kept c s s' ∧ (strict → s.log.Few sb
        (fun b => b = iblock sb (s.itable dp).inum ∨ b = iblock sb (s.itable ip).inum) 6 s'.log ∧
        (r = -1 ∧ (∃ X, nodes sb s'.disk = update (nodes sb s.disk)
            (s.itable ip).inum X) ∧
          (∀ i, i ≠ (s.itable ip).inum → files sb s'.disk i = files sb s.disk i) ∨
        r = 0 ∧ ∃ j, Vacant (nodes sb s.disk (s.itable dp).inum).ents j ∧
          nodes sb s'.disk = update (update (nodes sb s.disk)
            (s.itable ip).inum (Node.born type (s.itable ip).inum (s.itable dp).inum))
            (s.itable dp).inum ((nodes sb s.disk (s.itable dp).inum).enter j
              ⟨(s.itable ip).inum, name⟩))) := by
  unfold linkNamed
  apply within_get_bind
  refine Within.bind (R := fun entries t => Inv sb strict True t c ∧ Kept c s t ∧ (strict →
    s.log.Few sb (· = iblock sb (s.itable ip).inum) 4 t.log ∧
    (∀ i, i ≠ (s.itable ip).inum → files sb t.disk i = files sb s.disk i) ∧
    ∃ X, nodes sb t.disk = update (nodes sb s.disk) (s.itable ip).inum X ∧
      (entries = true → X = Node.born type (s.itable ip).inum (s.itable dp).inum))) ?_
    fun entries t ht => ?_
  · by_cases htype : type = .dir
    · subst htype
      rw [if_pos rfl]
      exact linkDots_spec h hip hvi (h.inum dp (h.ref_pos hdp)) hi hnode
    · rw [if_neg htype]
      refine within_pure ⟨h, Kept.refl, fun _ => ⟨.refl 4, fun _ _ => rfl, _,
        (update_eq_self _ _).symm, fun _ => ?_⟩⟩
      rw [hnode, Node.born, if_neg htype]
  obtain ⟨hinvt, hkeptt, hpostt⟩ := ht
  cases entries with
  | false =>
    refine within_pure ⟨hinvt, hkeptt, fun hs => ?_⟩
    obtain ⟨hfew, hframe, X, hnodes, -⟩ := hpostt hs
    exact ⟨hfew.mono (fun _ hb => .inr hb) (by omega), .inl ⟨rfl, ⟨X, hnodes⟩, hframe⟩⟩
  | true =>
    rw [if_pos rfl]
    have hinumd := hkeptt.inum dp hdp
    obtain ⟨hvdt, -⟩ := hkeptt.valid dp hdp hvd
    have hparent : strict → nodes sb t.disk (s.itable dp).inum =
        nodes sb s.disk (s.itable dp).inum := by
      intro hs
      obtain ⟨-, -, X, hnodes, -⟩ := hpostt hs
      rw [hnodes, update_of_ne hne]
    refine (dirlink_spec hinvt hdp hvdt hname (h.inum ip (h.ref_pos hip))
      fun hs e he hne' heq => ?_).mono fun r u hu => ?_
    · rw [hinumd, hparent hs] at he
      exact absurd heq (hfresh e he hne')
    obtain ⟨hinvu, hkeptu, hpostu⟩ := hu
    refine ⟨hinvu, hkeptt.trans hkeptu, fun hs => ?_⟩
    obtain ⟨hfew, hframe, X, hnodes, hX⟩ := hpostt hs
    obtain ⟨hfew', -, hcase⟩ := hpostu hs
    rw [hinumd] at hfew' hcase
    refine ⟨(hfew.mono (fun _ hb => .inr hb) le_rfl).trans
      (hfew'.mono (fun _ hb => .inl hb) le_rfl), ?_⟩
    rcases hcase with ⟨rfl, hsame, hfiles⟩ | ⟨rfl, -, -, j, hvac, hnodes'⟩
    · refine .inl ⟨rfl, ⟨X, hsame.trans hnodes⟩, fun i hi => ?_⟩
      rw [hfiles]
      exact hframe i hi
    · rw [hparent hs] at hvac hnodes'
      refine .inr ⟨rfl, j, hvac, ?_⟩
      rw [hnodes', hnodes, hX rfl]
      rfl

theorem createNew_spec (h : Inv sb strict True s (ip ::ₘ dp ::ₘ c))
    (hvd : (s.itable dp).valid = true) {name : Name}
    (hname : Name.Ok name) {type : FileType} (major minor : ℤ) (hi : (s.itable ip).inum ≠ 0)
    (hnode : nodes sb s.disk (s.itable ip).inum = ⟨type, 0, []⟩)
    (hne : (s.itable dp).inum ≠ (s.itable ip).inum)
    (hfresh : ∀ e ∈ (nodes sb s.disk (s.itable dp).inum).ents, e.inum ≠ 0 → e.name ≠ name)
    (hnew : strict → ip ∉ dp ::ₘ c) (hsafe : strict → Safe sb c s (s.itable dp).inum)
    (hcount : strict → 0 ≤ (nodes sb s.disk (s.itable dp).inum).nlink ∧
      (nodes sb s.disk (s.itable dp).inum).nlink < 2 ^ 15) :
    Within (Panics strict) (createNew sb dp ip name type major minor) s fun r s' => Kept c s s' ∧
      (strict → s.log.Few sb
        (fun b => b = iblock sb (s.itable dp).inum ∨ b = iblock sb (s.itable ip).inum) 6 s'.log) ∧
      match r with
      | none => Inv sb strict True s' c ∧ (strict →
          nodes sb s'.disk = update (nodes sb s.disk) (s.itable ip).inum Node.free ∧
          files sb s'.disk = update (files sb s.disk) (s.itable ip).inum none)
      | some k => k = ip ∧ Inv sb strict True s' (ip ::ₘ c) ∧ (s'.itable ip).valid = true ∧
          (s'.itable ip).inum = (s.itable ip).inum ∧ (s'.copy ip).type = type ∧ (strict →
          ∃ j, Vacant (nodes sb s.disk (s.itable dp).inum).ents j ∧
            nodes sb s'.disk = update (update (nodes sb s.disk)
              (s.itable ip).inum (Node.born type (s.itable ip).inum (s.itable dp).inum))
              (s.itable dp).inum
              (if type = .dir then ((nodes sb s.disk (s.itable dp).inum).enter j
                  ⟨(s.itable ip).inum, name⟩).link 1
                else (nodes sb s.disk (s.itable dp).inum).enter j
                  ⟨(s.itable ip).inum, name⟩)) := by
  have hip := Multiset.mem_cons_self ip (dp ::ₘ c)
  have hdp : dp ∈ ip ::ₘ dp ::ₘ c :=
    Multiset.mem_cons_of_mem (Multiset.mem_cons_self dp c)
  have hsubi : ip ::ₘ c ⊆ ip ::ₘ dp ::ₘ c :=
    Multiset.cons_subset_cons (Multiset.subset_cons c dp)
  have hsubd : dp ::ₘ c ⊆ ip ::ₘ dp ::ₘ c := Multiset.subset_cons _ ip
  have hsub : c ⊆ ip ::ₘ dp ::ₘ c := fun _ hl => hsubd (Multiset.subset_cons c dp hl)
  unfold createNew
  refine (ilock_spec h hip).bind fun _ t ht => ?_
  obtain ⟨hinvt, hlock, hvt⟩ := ht
  have hinumt := hlock.inum ip hip
  have hdiskt := hlock.disk trivial
  have htypet : (t.copy ip).type = type := by
    rw [← hinvt.type_copy hip hvt, hinumt, hdiskt, hnode]
  refine ((hinvt.change_spec hip hvt
    (f := fun d => { d with major := int16 major, minor := int16 minor, nlink := 1 })
    rfl rfl rfl).within).bind fun _ u hu => ?_
  obtain ⟨hinvu, hkeptu, hcopyu, hnodesu, hfilesu, hlogu⟩ := hu
  rw [hinumt, hdiskt, hnode] at hnodesu
  rw [hinumt, hdiskt] at hfilesu
  rw [hinumt, hlock.log trivial] at hlogu
  have hkept : Kept (ip ::ₘ dp ::ₘ c) s u := hlock.toKept.trans hkeptu
  have hinumd := hkept.inum dp hdp
  have hinumi := hkept.inum ip hip
  obtain ⟨hviu, htypeu⟩ := hkeptu.valid ip hip hvt
  obtain ⟨hvdu, -⟩ := hkept.valid dp hdp hvd
  have hparent : nodes sb u.disk (s.itable dp).inum = nodes sb s.disk (s.itable dp).inum := by
    rw [hnodesu, update_of_ne hne]
  refine (linkNamed_spec hinvu hip hdp hviu hvdu hname (hinumi ▸ hi)
    (by rw [hinumi, hnodesu, update_self]) (by rw [hinumi, hinumd]; exact hne)
    (by rw [hinumd, hparent]; exact hfresh)).bind fun linked v hv => ?_
  obtain ⟨hinvv, hkeptv, hpostv⟩ := hv
  rw [hinumi, hinumd, hparent] at hpostv
  have hkept : Kept (ip ::ₘ dp ::ₘ c) s v := hkept.trans hkeptv
  have hinumd := hkept.inum dp hdp
  have hinumi := hkept.inum ip hip
  obtain ⟨hviv, htypev⟩ := hkeptv.valid ip hip hviu
  obtain ⟨hvdv, -⟩ := hkept.valid dp hdp hvd
  have hfewv : strict → s.log.Few sb (fun b => b = iblock sb (s.itable dp).inum ∨
      b = iblock sb (s.itable ip).inum) 6 v.log := fun hs =>
    (Log.Adds.few (hlogu.mono fun b hb => .inr (.inr hb))).trans (hpostv hs).1
  by_cases hlinked : 0 ≤ linked
  · rw [if_pos hlinked]
    have hnodesv : strict → ∃ j, Vacant (nodes sb s.disk (s.itable dp).inum).ents j ∧
        nodes sb v.disk = update (update (nodes sb s.disk)
          (s.itable ip).inum (Node.born type (s.itable ip).inum (s.itable dp).inum))
          (s.itable dp).inum ((nodes sb s.disk (s.itable dp).inum).enter j
            ⟨(s.itable ip).inum, name⟩) := by
      intro hs
      rcases (hpostv hs).2 with ⟨rfl, -⟩ | ⟨-, j, hvac, hnodes⟩
      · exact absurd hlinked (by decide)
      · refine ⟨j, hvac, ?_⟩
        rw [hnodes, hnodesu, update_idem]
    -- the parent gains the link of the `..` of a new directory
    refine Within.bind (R := fun _ w => Inv sb strict True w (ip ::ₘ dp ::ₘ c) ∧
      Kept (ip ::ₘ dp ::ₘ c) v w ∧ v.log.Few sb (· = iblock sb (s.itable dp).inum) 0 w.log ∧
      nodes sb w.disk = if type = .dir then update (nodes sb v.disk)
        (s.itable dp).inum ((nodes sb v.disk (s.itable dp).inum).link 1)
        else nodes sb v.disk) ?_ fun _ w hw => ?_
    · by_cases hdirt : type = .dir
      · rw [if_pos hdirt, if_pos hdirt]
        refine ((hinvv.relink hdp hvdv fun n => int16 (n + 1)).within).mono fun _ w hw => ?_
        obtain ⟨hinv, hkept, hnodes, -, hlog⟩ := hw
        rw [hinumd] at hnodes hlog
        exact ⟨hinv, hkept, Log.Adds.few (hlog.mono fun b hb => .inr hb), hnodes⟩
      · rw [if_neg hdirt, if_neg hdirt]
        exact within_pure ⟨hinvv, Kept.refl, .refl 0, rfl⟩
    obtain ⟨hinvw, hkeptw, hlogw, hnodesw⟩ := hw
    have hkept : Kept (ip ::ₘ dp ::ₘ c) s w := hkept.trans hkeptw
    have hinumd := hkept.inum dp hdp
    have hfinal : strict → ∃ j, Vacant (nodes sb s.disk (s.itable dp).inum).ents j ∧
        nodes sb w.disk = update (update (nodes sb s.disk)
          (s.itable ip).inum (Node.born type (s.itable ip).inum (s.itable dp).inum))
          (s.itable dp).inum (if type = .dir
            then ((nodes sb s.disk (s.itable dp).inum).enter j ⟨(s.itable ip).inum, name⟩).link 1
            else (nodes sb s.disk (s.itable dp).inum).enter j ⟨(s.itable ip).inum, name⟩) := by
      intro hs
      obtain ⟨j, hvac, hnodes⟩ := hnodesv hs
      refine ⟨j, hvac, ?_⟩
      rw [hnodesw, hnodes]
      split
      · rw [update_self, update_idem]
      · rfl
    rw [Multiset.cons_swap] at hinvw
    refine ((iput_safe hinvw fun hs => ?_).within).bind fun _ x hx => ?_
    · obtain ⟨j, -, hnodes⟩ := hfinal hs
      rw [hinumd]
      rcases hsafe hs with hpos | ⟨l, hl, heq⟩
      · refine .inl ?_
        rw [hnodes, update_self]
        split
        · exact int16_ne_zero (hcount hs).1 (hcount hs).2
        · exact hpos
      · exact .inr ⟨l, Multiset.mem_cons_of_mem hl, (hkept.inum l (hsub hl)).trans heq⟩
    · obtain ⟨hinvx, hput⟩ := hx
      have hipc := Multiset.mem_cons_self ip c
      have hkeptx : Kept (ip ::ₘ c) s x := (hkept.mono hsubi).trans hput.toKept
      have hkeptvx : Kept (ip ::ₘ c) v x := (hkeptw.mono hsubi).trans hput.toKept
      obtain ⟨hvx, htypex⟩ := hkeptvx.valid ip hipc hviv
      refine within_pure ⟨hkeptx.mono (Multiset.subset_cons c ip), fun hs => ?_, rfl, hinvx, hvx,
        hkeptx.inum ip hipc, ?_, fun hs => ?_⟩
      · rw [hput.log hs]
        exact (hfewv hs).trans (hlogw.mono (fun _ hb => .inl hb) le_rfl)
      · rw [htypex, htypev, htypeu, htypet]
      · rw [hput.disk hs]
        exact hfinal hs
  · rw [if_neg hlinked]
    refine ((hinvv.change_spec hip hviv (f := fun d => { d with nlink := 0 })
      rfl rfl rfl).within).bind fun _ w hw => ?_
    obtain ⟨hinvw, hkeptw, -, hnodesw, hfilesw, hlogw⟩ := hw
    rw [hinumi] at hnodesw hfilesw hlogw
    have hkept : Kept (ip ::ₘ dp ::ₘ c) s w := hkept.trans hkeptw
    have hinumd := hkept.inum dp hdp
    have hinumi := hkept.inum ip hip
    obtain ⟨hviw, -⟩ := hkeptw.valid ip hip hviv
    have hzero : (nodes sb w.disk (w.itable ip).inum).nlink = 0 := by
      rw [hinumi, hnodesw, update_self]
    refine ((iput_spec hinvw).within).bind fun _ x hx => ?_
    obtain ⟨hinvx, hkeptx, hcase, hfreed⟩ := hx
    rw [hinumi] at hcase hfreed hzero
    have hkeptsx : Kept (dp ::ₘ c) s x := (hkept.mono hsubd).trans hkeptx
    -- the new inode is free again
    have hundone : strict →
        nodes sb x.disk = update (nodes sb s.disk) (s.itable ip).inum Node.free ∧
        files sb x.disk = update (files sb s.disk) (s.itable ip).inum none := by
      intro hs
      rcases (hpostv hs).2 with ⟨-, ⟨X, hnodes⟩, hframe⟩ | ⟨rfl, -⟩
      · obtain ⟨hnodesx, hfilesx⟩ := hfreed (hnew hs) hviw hzero
        constructor
        · rw [hnodesx, hnodesw, hnodes, hnodesu]
          simp only [update_idem]
        · rw [hfilesx, hfilesw]
          funext i
          by_cases hii : i = (s.itable ip).inum
          · subst hii
            rw [update_self, update_self]
          · rw [update_of_ne hii, update_of_ne hii, update_of_ne hii,
              hframe i hii, hfilesu, update_of_ne hii]
      · exact absurd (le_refl 0) hlinked
    have hfewx : strict → s.log.Few sb (fun b => b = iblock sb (s.itable dp).inum ∨
        b = iblock sb (s.itable ip).inum) 6 x.log := by
      intro hs
      have hfeww := (hfewv hs).trans
        (Log.Adds.few (hlogw.mono fun b hb => .inr (.inr hb)))
      rcases hcase with ⟨-, hlog⟩ | ⟨-, -, -, -, hlog⟩
      · rw [hlog]
        exact hfeww
      · exact hfeww.trans (Log.Adds.few (hlog.mono fun b hb => hb.imp_right .inr))
    refine ((iput_safe hinvx fun hs => ?_).within).bind fun _ y hy => ?_
    · rw [hkeptsx.inum dp (Multiset.mem_cons_self dp c)]
      refine (hsafe hs).congr ?_ (hkeptsx.mono (Multiset.subset_cons c dp)).inum
      rw [(hundone hs).1, update_of_ne hne]
    · obtain ⟨hinvy, hput⟩ := hy
      refine within_pure ⟨(hkeptsx.mono (Multiset.subset_cons c dp)).trans hput.toKept,
        fun hs => ?_, hinvy, fun hs => ?_⟩
      · rw [hput.log hs]
        exact hfewx hs
      · rw [hput.disk hs]
        exact hundone hs

theorem file_of_free {disk : Disk} (h : nodes sb disk i = Node.free) :
    files sb disk i = none := by
  unfold nodes at h
  unfold files
  split at h
  · rename_i hi
    rw [if_pos hi, Dinode.view, if_pos]
    by_contra htype
    rw [node_of_ne htype] at h
    exact htype (congrArg Node.type h)
  · rename_i hi
    exact if_neg hi

theorem create_spec (h : Inv sb strict True s c) (hcwd : s.cwd p ∈ c) {path : Path}
    (hwalk : strict → Walk sb P c s ∧ P (s.start p path)) (hcount : strict → Counted sb P s)
    (type : FileType) (htype : type ≠ .none) (major minor : ℤ) :
    Within (Panics strict) (create sb p path type major minor) s fun r s' => Kept c s s' ∧
      (strict → ∃ d i, s.log.Few sb (fun b => b = iblock sb d ∨ b = iblock sb i) 6 s'.log) ∧
      match r with
      | none => Inv sb strict True s' c ∧ (strict → Unchanged sb s s')
      | some ip => Inv sb strict True s' (ip ::ₘ c) ∧ (s'.itable ip).valid = true ∧
          ((s'.copy ip).type = type ∨ type = .file ∧ (s'.copy ip).type = .device) ∧
          (strict → Safe sb c s' (s'.itable ip).inum ∧
            (type = .file ∧ Unchanged sb s s' ∨
              Created sb.ninodes P type (nodes sb s.disk) (nodes sb s'.disk))) := by
  unfold create nameiparent
  refine (namex_spec h hcwd hwalk true).bind fun r t ht => ?_
  obtain ⟨hquiet, hpost⟩ := ht
  cases r with
  | none =>
    exact within_pure ⟨hquiet.toKept, fun hs => ⟨0, 0, hquiet.few hs 6⟩, hpost.1,
      fun hs => hquiet.unchanged hs⟩
  | some r =>
    obtain ⟨dp, name⟩ := r
    obtain ⟨hinv, hname, hP, -⟩ := hpost
    have hdp := Multiset.mem_cons_self dp c
    have hsub := Multiset.subset_cons c dp
    refine (ilock_reached hinv hquiet (fun hs => (hwalk hs).1) hP).bind fun _ u hu => ?_
    obtain ⟨hinv, hquiet, hv, hwalk'⟩ := hu
    have hsafed : strict → Safe sb c u (u.itable dp).inum := fun hs =>
      (hwalk' hs).1.safe _ (hwalk' hs).2
    refine (dirlookup_spec hinv hdp hv fun hs e he hne _ => ?_).bind fun r v hr => ?_
    · exact (hwalk' hs).1.used _ ((hwalk' hs).1.next _ (hwalk' hs).2 e he hne)
    obtain ⟨hdir, hpost⟩ := hr
    cases r with
    | some r =>
      -- the name exists
      obtain ⟨ip, off⟩ := r
      obtain ⟨j, e, -, -, he, hne, -, -, hinum, hinvv, hlook⟩ := hpost
      have hmem := List.mem_of_getElem? he
      have hip := Multiset.mem_cons_self ip c
      have hsubi := Multiset.subset_cons c ip
      rw [Multiset.cons_swap] at hinvv
      refine ((iput_safe hinvv fun hs => ?_).within).bind fun _ w hw => ?_
      · rw [hlook.inum dp hdp]
        exact ((hlook.mono hsub).safe trivial (hsafed hs)).mono hsubi
      obtain ⟨hinvw, hput⟩ := hw
      refine (ilock_spec hinvw hip).bind fun _ x hx => ?_
      obtain ⟨hinvx, hlockx, hvx⟩ := hx
      have hread : Quiet strict c u x := (hlook.mono hsub).weaken.trans
        ((hput.mono hsubi).trans (hlockx.mono hsubi).weaken)
      have hquietx := hquiet.trans hread
      have hsafe : strict → Safe sb c x (x.itable ip).inum := by
        intro hs
        rw [hlockx.inum ip hip, hput.inum ip hip, hinum]
        exact hread.safe hs ((hwalk' hs).1.safe _ ((hwalk' hs).1.next _ (hwalk' hs).2 e hmem hne))
      apply within_get_bind
      split
      · rename_i hfile
        refine within_pure ⟨hquietx.toKept, fun hs => ⟨0, 0, hquietx.few hs 6⟩, hinvx, hvx, ?_,
          fun hs => ⟨hsafe hs, .inl ⟨hfile.1, hquietx.unchanged hs⟩⟩⟩
        exact hfile.2.imp (fun hf => hf.trans hfile.1.symm) fun hd => ⟨hfile.1, hd⟩
      · refine ((iput_safe hinvx hsafe).within).bind fun _ y hy => ?_
        have hquiety := hquietx.trans hy.2
        exact within_pure ⟨hquiety.toKept, fun hs => ⟨0, 0, hquiety.few hs 6⟩, hy.1,
          fun hs => hquiety.unchanged hs⟩
    | none =>
      obtain ⟨rfl, hfresh⟩ := hpost
      refine (ialloc_spec hinv htype).bind fun r w hw => ?_
      cases r with
      | none =>
        -- no free inode
        rw [show w = v from hw]
        refine ((iput_safe hinv hsafed).within).bind fun _ x hx => ?_
        have hquietx := hquiet.trans hx.2
        exact within_pure ⟨hquietx.toKept, fun hs => ⟨0, 0, hquietx.few hs 6⟩, hx.1,
          fun hs => hquietx.unchanged hs⟩
      | some ip =>
        obtain ⟨i, hi0, hi, hfree, hnew, hinvw, hkeptw, rfl, hnodesw, hframew, hlogw⟩ := hw
        have hinumd := hkeptw.inum dp hdp
        obtain ⟨hvdw, -⟩ := hkeptw.valid dp hdp hv
        have hne : (v.itable dp).inum ≠ (w.itable ip).inum := by
          intro heq
          have hnode := hinv.type_copy hdp hv
          rw [heq, hfree, hdir] at hnode
          cases hnode
        have hparent : nodes sb w.disk (v.itable dp).inum = nodes sb v.disk (v.itable dp).inum := by
          rw [hnodesw, update_of_ne hne]
        have hsafew : strict → Safe sb c w (v.itable dp).inum := fun hs =>
          (hsafed hs).congr (by rw [hparent]) (hkeptw.mono hsub).inum
        refine (createNew_spec hinvw hvdw (hname rfl) major minor hi0
          (by rw [hnodesw, update_self]) (hinumd ▸ hne)
          (by rw [hinumd, hparent]; exact hfresh) hnew (fun hs => hinumd ▸ hsafew hs)
          fun hs => ?_).mono fun r x hx => ?_
        · have hcounted := hcount hs _ (hwalk' hs).2
          rw [hinumd, hparent, hquiet.disk hs]
          exact hcounted
        obtain ⟨hkeptx, hfewx, hpost⟩ := hx
        have hkept : Kept c s x := (hquiet.toKept.trans (hkeptw.mono hsub)).trans hkeptx
        have hfew : strict → ∃ d i, s.log.Few sb (fun b => b = iblock sb d ∨ b = iblock sb i) 6
            x.log := by
          intro hs
          rw [← hquiet.log hs]
          exact ⟨_, _, (Log.Adds.few (hlogw.mono fun b hb => .inr (.inr hb))).trans (hfewx hs)⟩
        refine ⟨hkept, hfew, ?_⟩
        cases r with
        | none =>
          obtain ⟨hinvx, hsame⟩ := hpost
          refine ⟨hinvx, fun hs => ?_⟩
          obtain ⟨hnodes, hfiles⟩ := hsame hs
          rw [hnodesw, update_idem, ← hfree, update_eq_self] at hnodes
          unfold Unchanged
          rw [← hquiet.disk hs, hnodes, hfiles]
          refine ⟨rfl, funext fun i => ?_⟩
          by_cases hii : i = (w.itable ip).inum
          · rw [hii, update_self, file_of_free hfree]
          · rw [update_of_ne hii, hframew i hii]
        | some k =>
          obtain ⟨rfl, hinvx, hvx, hinumx, htypex, hcreated⟩ := hpost
          refine ⟨hinvx, hvx, .inl htypex, fun hs => ?_⟩
          obtain ⟨j, hvac, hnodes⟩ := hcreated hs
          rw [hinumd] at hvac hnodes
          rw [hparent] at hvac
          rw [hparent, hnodesw, update_idem] at hnodes
          constructor
          · refine .inl ?_
            rw [hinumx, hnodes, update_of_ne hne.symm, update_self]
            exact Int.one_ne_zero
          · refine .inr ⟨(v.itable dp).inum, (w.itable k).inum, j, name, ⟨(hwalk' hs).2, ?_, ?_, ?_⟩,
              hi0, hi, ?_, ?_⟩ <;> rw [← hquiet.disk hs]
            · rw [hinv.type_copy hdp hv]
              exact hdir
            · exact hfresh
            · exact hvac
            · exact hfree
            · exact hnodes

end

end Xv6.Fs
