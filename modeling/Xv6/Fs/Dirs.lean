import Xv6.Fs.Inodes

/-!
# Directories and paths

A lookup reads the entries and changes nothing but the inode table. In the strict form
a walk along a path passes only through inodes that are in use and stay in use, so that
the references it drops free nothing.
-/

namespace Xv6.Fs

open Eff Bag

/-- A name as it fits in a directory entry. -/
def Name.Ok (name : Name) : Prop := name.length ≤ dirsiz ∧ 0 ∉ name

@[simp] theorem bytes_length (de : Dirent) : de.bytes.length = direntSize := by
  simp [Dirent.bytes, dirsiz, direntSize]

theorem ofBytes_bytes {inum : ℕ} {name : Name} (hinum : inum < 2 ^ 16) (hname : Name.Ok name) :
    Dirent.ofBytes (Dirent.bytes ⟨inum, name⟩) = ⟨inum, name⟩ := by
  obtain ⟨hlen, hzero⟩ := hname
  have hpad : (List.range dirsiz).map (fun i => name.getD i 0) =
      name ++ List.replicate (dirsiz - name.length) 0 := by
    apply List.ext_getElem
    · simp
      omega
    · intro i hi hi'
      by_cases h : i < name.length
      · simp [h, List.getElem_append_left]
      · simp [h, List.getElem_append_right (Nat.not_lt.mp h)]
  have htake : (name ++ List.replicate (dirsiz - name.length) (0 : UInt8)).takeWhile (· ≠ 0) =
      name := by
    rw [List.takeWhile_append_of_pos]
    · cases dirsiz - name.length <;> simp [List.replicate_succ]
    · intro a ha
      have : a ≠ 0 := by
        rintro rfl
        exact hzero ha
      simpa using this
  unfold Dirent.ofBytes Dirent.bytes
  simp only [List.drop_succ_cons, List.drop_zero, Dirent.mk.injEq]
  refine ⟨?_, ?_⟩
  · simp
    omega
  · rw [hpad, List.take_of_length_le (by simp; omega)]
    exact htake

theorem ofBytes_zero : Dirent.ofBytes (List.replicate direntSize 0) = ⟨0, []⟩ := by
  decide

/-- A set of inodes that is closed under the entries of directories and in which no
inode is freed when a reference goes back, as long as those of `c` are held. -/
structure Walk (sb : Superblock) (P : ℕ → Prop) (c : Multiset ℕ) (s : State) : Prop where
  used : ∀ i, P i → (nodes sb s.disk i).type ≠ .none
  next : ∀ i, P i → ∀ e ∈ (nodes sb s.disk i).ents, e.inum ≠ 0 → P e.inum
  safe : ∀ i, P i → Safe sb c s i

section

variable {sb : Superblock} {strict : Prop} {E : String → Prop} {P : ℕ → Prop}
  {c c' : Multiset ℕ} {s t : State} {i j k : ℕ}

theorem Safe.mono (h : Safe sb c s i) (hc : c ⊆ c') : Safe sb c' s i :=
  h.imp_right fun ⟨k, hk, heq⟩ => ⟨k, hc hk, heq⟩

theorem Safe.congr (h : Safe sb c s i)
    (hnode : (nodes sb t.disk i).nlink = (nodes sb s.disk i).nlink)
    (hinum : ∀ k ∈ c, (t.itable k).inum = (s.itable k).inum) : Safe sb c t i := by
  unfold Safe
  rw [hnode]
  exact h.imp_right fun ⟨k, hk, heq⟩ => ⟨k, hk, (hinum k hk).trans heq⟩

theorem Walk.congr (h : Walk sb P c s) (hnodes : ∀ i, P i → nodes sb t.disk i = nodes sb s.disk i)
    (hinum : ∀ k ∈ c, (t.itable k).inum = (s.itable k).inum) : Walk sb P c t where
  used i hi := by
    rw [hnodes i hi]
    exact h.used i hi
  next i hi e he := by
    rw [hnodes i hi] at he
    exact h.next i hi e he
  safe i hi := (h.safe i hi).congr (by rw [hnodes i hi]) hinum

theorem Quiet.safe (hq : Quiet strict c s t) (hs : strict) (h : Safe sb c s i) : Safe sb c t i :=
  h.congr (by rw [hq.disk hs]) hq.inum

theorem Quiet.walk (hq : Quiet strict c s t) (hs : strict) (h : Walk sb P c s) :
    Walk sb P c t := h.congr (fun _ _ => by rw [hq.disk hs]) hq.inum

theorem Inv.node_dir (h : Inv sb strict True s c) (hk : k ∈ c) (hv : (s.itable k).valid = true)
    (hdir : (s.copy k).type = .dir) : nodes sb s.disk (s.itable k).inum =
      ⟨.dir, (s.copy k).nlink, (s.copy k).entries s.disk.block⟩ := by
  rw [h.node_copy hk hv, node_of_ne (h.type_ne hk hv), if_pos hdir, hdir]

/-- The scan stops at an entry with the property or has seen that there is none. -/
theorem scan_spec (sb : Superblock) (h : (s.copy k).Full s.disk.block) {m : String} (hmsg : E m)
    (found : Dirent → Bool) : ∀ fuel j, (s.copy k).size < (j + fuel) * direntSize →
    Within E (scan sb k m found fuel (j * direntSize)) s fun r s' => s' = s ∧
      match r.2 with
      | some e => ∃ j', r.1 = j' * direntSize ∧ j' * direntSize + direntSize ≤ (s.copy k).size ∧
          ((s.copy k).entries s.disk.block)[j']? = some e ∧ found e = true ∧
          ∀ i, j ≤ i → i < j' → ∀ e, ((s.copy k).entries s.disk.block)[i]? = some e →
            found e = false
      | none => ∃ j', r.1 = j' * direntSize ∧ (s.copy k).size ≤ j' * direntSize ∧
          (j' = j ∨ j' * direntSize = (s.copy k).size) ∧
          ∀ i, j ≤ i → ∀ e, ((s.copy k).entries s.disk.block)[i]? = some e → found e = false := by
  have hbeyond : ∀ j, (s.copy k).size ≤ j * direntSize → ∀ i, j ≤ i → ∀ e,
      ((s.copy k).entries s.disk.block)[i]? = some e → found e = false := by
    intro j hj i hi e he
    rw [entries_getElem?, if_neg] at he
    · cases he
    · unfold direntSize at *
      omega
  intro fuel
  induction fuel with
  | zero =>
    intro j hj
    have hle : (s.copy k).size ≤ j * direntSize := by
      rw [Nat.add_zero] at hj
      exact hj.le
    exact within_pure ⟨rfl, j, rfl, hle, .inl rfl, hbeyond j hle⟩
  | succ fuel ih =>
    intro j hj
    unfold scan
    apply within_get_bind
    by_cases hlt : j * direntSize < (s.copy k).size
    · rw [if_pos hlt]
      refine ((readi_dirent h.size_le hlt (h.at hlt).2).within).bind fun r t ht => ?_
      obtain ⟨rfl, hfits, hread⟩ := ht
      by_cases hr : r.1 = direntSize
      · have hroom := hfits.mp hr
        have hent : ((t.copy k).entries t.disk.block)[j]? = some (Dirent.ofBytes r.2) := by
          rw [hread hr, entries_getElem?, if_pos]
          unfold direntSize at *
          omega
        rw [if_neg (by simpa using hr)]
        split
        · rename_i hfound
          exact within_pure ⟨rfl, j, rfl, hroom, hent, hfound, fun i hi hij => by omega⟩
        · rename_i hfound
          have hfirst : ∀ e, ((t.copy k).entries t.disk.block)[j]? = some e → found e = false := by
            intro e he
            rw [hent] at he
            cases he
            simpa using hfound
          rw [← Nat.succ_mul]
          refine (ih (j + 1) (by rwa [Nat.add_assoc, Nat.add_comm 1])).mono fun r' u hu => ?_
          refine ⟨hu.1, ?_⟩
          have hpost := hu.2
          cases hr' : r'.2 with
          | some e =>
            rw [hr'] at hpost
            obtain ⟨j', hj', hroom', he, hfound', hall⟩ := hpost
            refine ⟨j', hj', hroom', he, hfound', fun i hi hij e' he' => ?_⟩
            rcases hi.lt_or_eq with hi | rfl
            · exact hall i hi hij e' he'
            · exact hfirst e' he'
          | none =>
            rw [hr'] at hpost
            obtain ⟨j', hj', hsize, hend, hall⟩ := hpost
            refine ⟨j', hj', hsize, ?_, fun i hi e he => ?_⟩
            · rcases hend with rfl | hend
              · exact .inr (by unfold direntSize at *; omega)
              · exact .inr hend
            · rcases hi.lt_or_eq with hi | rfl
              · exact hall i hi e he
              · exact hfirst e he
      · rw [if_pos hr]
        exact within_throw hmsg
    · rw [if_neg hlt]
      have hle := Nat.not_lt.mp hlt
      exact within_pure ⟨rfl, j, rfl, hle, .inl rfl, hbeyond j hle⟩

/-- The scan reads the entries up to the first one with the property; whether those
after it are mapped does not matter. -/
theorem scan_first (sb : Superblock) (hsize : (s.copy k).size ≤ maxfile * bsize) (m : String)
    (found : Dirent → Bool) {j₀ : ℕ} (hroom : j₀ * direntSize + direntSize ≤ (s.copy k).size)
    (hmap : ∀ j ≤ j₀, (s.copy k).addr s.disk.block (j * direntSize / bsize) ≠ 0)
    (hfound : found (direntAt (s.copy k) s.disk.block j₀) = true)
    (hfirst : ∀ j < j₀, found (direntAt (s.copy k) s.disk.block j) = false) :
    ∀ fuel j, j ≤ j₀ → j₀ < j + fuel → Ensures (scan sb k m found fuel (j * direntSize)) s
      fun r s' => r = (j₀ * direntSize, some (direntAt (s.copy k) s.disk.block j₀)) ∧ s' = s := by
  intro fuel
  induction fuel with
  | zero =>
    intro j hj hj'
    omega
  | succ fuel ih =>
    intro j hj hfuel
    have hle : j * direntSize ≤ j₀ * direntSize := Nat.mul_le_mul_right _ hj
    have hpos : 0 < direntSize := by decide
    have hlt : j * direntSize < (s.copy k).size := by omega
    unfold scan
    apply ensures_get_bind
    rw [if_pos hlt]
    refine (readi_dirent hsize hlt (hmap j hj)).bind fun r t ht => ?_
    obtain ⟨rfl, hfits, hread⟩ := ht
    have hr := hfits.mpr (by omega)
    rw [if_neg (by simpa using hr), hread hr]
    rcases hj.lt_or_eq with hj | rfl
    · rw [hfirst j hj, ← Nat.succ_mul]
      exact ih (j + 1) hj (by omega)
    · rw [hfound]
      exact ensures_pure ⟨rfl, rfl⟩

theorem fuel_enough (s : State) (k j : ℕ) : (s.copy k).size < (j + s.fuel k) * direntSize := by
  unfold State.fuel direntSize
  omega

/-- The entry that a lookup of the name finds. -/
def Node.lookup (m : Node) (name : Name) : Option Dirent :=
  m.ents.find? fun e => decide (e.inum ≠ 0) && decide (e.name = name)

theorem find?_of_first {l : List Dirent} {found : Dirent → Bool} {e : Dirent} :
    ∀ {j : ℕ}, l[j]? = some e → found e = true →
    (∀ i < j, ∀ e, l[i]? = some e → found e = false) → l.find? found = some e := by
  induction l with
  | nil =>
    intro j he
    cases he
  | cons a l ih =>
    intro j he hfound hfirst
    cases j with
    | zero =>
      simp only [List.getElem?_cons_zero, Option.some.injEq] at he
      subst he
      exact List.find?_cons_of_pos hfound
    | succ j =>
      have ha := hfirst 0 (Nat.succ_pos j) a rfl
      rw [List.find?_cons_of_neg (by simp [ha])]
      exact ih he hfound fun i hi e' he' => hfirst (i + 1) (by omega) e' he'

theorem dirlookup_spec (h : Inv sb strict True s c) (hk : k ∈ c) (hv : (s.itable k).valid = true)
    {name : Name} (hused : strict → ∀ e ∈ (nodes sb s.disk (s.itable k).inum).ents,
      e.inum ≠ 0 → e.name = name → (nodes sb s.disk e.inum).type ≠ .none) :
    Within (Panics strict) (dirlookup sb k name) s fun r s' => (s.copy k).type = .dir ∧
      match r with
      | some (ip, off) => ∃ j e, off = j * direntSize ∧
          j * direntSize + direntSize ≤ (s.copy k).size ∧
          (nodes sb s.disk (s.itable k).inum).ents[j]? = some e ∧ e.inum ≠ 0 ∧ e.name = name ∧
          (nodes sb s.disk (s.itable k).inum).lookup name = some e ∧
          (s'.itable ip).inum = e.inum ∧ Inv sb strict True s' (ip ::ₘ c) ∧ Quiet True c s s'
      | none => s' = s ∧ ∀ e ∈ (nodes sb s.disk (s.itable k).inum).ents, e.inum ≠ 0 →
          e.name ≠ name := by
  unfold dirlookup
  apply within_get_bind
  by_cases hdir : (s.copy k).type = .dir
  · rw [if_neg (by simpa using hdir)]
    have hents := congrArg Node.ents (h.node_dir hk hv hdir)
    dsimp only at hents
    have hscan := scan_spec sb (E := Panics strict) (h.copy_full hk hv)
      (m := "dirlookup read") (panics (by decide))
      (fun de => decide (de.inum ≠ 0) && decide (de.name = name)) (s.fuel k) 0 (fuel_enough s k 0)
    rw [Nat.zero_mul] at hscan
    refine hscan.bind fun r t ht => ?_
    obtain ⟨rfl, hpost⟩ := ht
    cases hr : r.2 with
    | none =>
      rw [hr] at hpost
      obtain ⟨-, -, -, -, hall⟩ := hpost
      refine within_pure ⟨hdir, rfl, fun e he hne hname => ?_⟩
      rw [hents] at he
      obtain ⟨i, hi⟩ := List.mem_iff_getElem?.mp he
      have := hall i (Nat.zero_le i) e hi
      simp [hne, hname] at this
    | some e =>
      rw [hr] at hpost
      obtain ⟨j, hj, hroom, he, hfound, hfirst⟩ := hpost
      obtain ⟨hne, hname⟩ : e.inum ≠ 0 ∧ e.name = name := by simpa using hfound
      rw [← hents] at he hfirst
      have hlookup := find?_of_first he hfound fun i hi => hfirst i (Nat.zero_le i) hi
      have hmem := List.mem_of_getElem? he
      have hlt := h.range _ e hmem
      refine (iget_spec h hlt fun hs htype => ?_).bind fun ip u hu => ?_
      · have := hused hs e hmem hne hname
        simp [nodes, hlt, Dinode.node, htype, Node.free] at this
      · obtain ⟨hinv, hquiet, hinum⟩ := hu
        exact within_pure ⟨hdir, j, e, hj, hroom, he, hne, hname, hlookup, hinum, hinv, hquiet⟩
  · rw [if_pos hdir]
    exact within_throw (panics (by decide))

/-- A place in which a new entry may go. -/
def Vacant (l : List Dirent) (j : ℕ) : Prop :=
  j = l.length ∨ ∃ e, l[j]? = some e ∧ e.inum = 0

/-- A name is entered in a directory, or nothing changes in the strict form. -/
theorem dirlink_spec (h : Inv sb strict True s c) (hk : k ∈ c) (hv : (s.itable k).valid = true)
    {name : Name} (hname : Name.Ok name) (hi : i < sb.ninodes)
    (hused : strict → ∀ e ∈ (nodes sb s.disk (s.itable k).inum).ents, e.inum ≠ 0 →
      e.name = name → (nodes sb s.disk e.inum).type ≠ .none ∧ Safe sb c s e.inum) :
    Within (Panics strict) (dirlink sb k name i) s fun r s' => Inv sb strict True s' c ∧ Kept c s s' ∧
      (strict → s.log.Few sb (· = iblock sb (s.itable k).inum) 2 s'.log ∧
        (∀ i, i ≠ (s.itable k).inum → files sb s'.disk i = files sb s.disk i) ∧
        (r = -1 ∧ nodes sb s'.disk = nodes sb s.disk ∧ files sb s'.disk = files sb s.disk ∨
          r = 0 ∧
          (∀ e ∈ (nodes sb s.disk (s.itable k).inum).ents, e.inum ≠ 0 → e.name ≠ name) ∧
          (nodes sb s.disk (s.itable k).inum).type = .dir ∧
          ∃ j, Vacant (nodes sb s.disk (s.itable k).inum).ents j ∧
            nodes sb s'.disk = Function.update (nodes sb s.disk) (s.itable k).inum
              { nodes sb s.disk (s.itable k).inum with
                ents := put (nodes sb s.disk (s.itable k).inum).ents j ⟨i, name⟩ })) := by
  unfold dirlink
  refine (dirlookup_spec h hk hv fun hs e he hne heq => (hused hs e he hne heq).1).bind
    fun r t ht => ?_
  obtain ⟨hdir, hpost⟩ := ht
  cases r with
  | some r =>
    obtain ⟨ip, off⟩ := r
    obtain ⟨j, e, -, -, he, hne, heq, -, hinum, hinv, hquiet⟩ := hpost
    have hmem := List.mem_of_getElem? he
    refine ((iput_safe hinv fun hs => ?_).within).bind fun _ u hu => ?_
    · rw [hinum]
      exact hquiet.safe trivial (hused hs e hmem hne heq).2
    · obtain ⟨hinv', hquiet'⟩ := hu
      have hall := hquiet.weaken.trans hquiet'
      refine within_pure ⟨hinv', hall.toKept, fun hs => ?_⟩
      rw [hall.disk hs, hall.log hs]
      exact ⟨.refl 2, fun _ _ => rfl, .inl ⟨rfl, rfl, rfl⟩⟩
  | none =>
    obtain ⟨rfl, hfresh⟩ := hpost
    apply within_get_bind
    have hnode := h.node_dir hk hv hdir
    have hscan := scan_spec sb (E := Panics strict) (h.copy_full hk hv)
      (m := "dirlink read") (panics (by decide))
      (fun de => decide (de.inum = 0)) (t.fuel k) 0 (fuel_enough t k 0)
    rw [Nat.zero_mul] at hscan
    refine hscan.bind fun r u hu => ?_
    obtain ⟨rfl, hpost⟩ := hu
    -- the scan ends at an unused entry or at the end of the directory
    obtain ⟨j, hj, hvacant, hroom⟩ : ∃ j, r.1 = j * direntSize ∧
        Vacant ((u.copy k).entries u.disk.block) j ∧
        (j * direntSize + direntSize ≤ (u.copy k).size ∨ j * direntSize = (u.copy k).size) := by
      cases hr : r.2 with
      | some e =>
        rw [hr] at hpost
        obtain ⟨j, hj, hroom, he, hfound, -⟩ := hpost
        exact ⟨j, hj, .inr ⟨e, he, by simpa using hfound⟩, .inl hroom⟩
      | none =>
        rw [hr] at hpost
        obtain ⟨j, hj, hle, hend, -⟩ := hpost
        have heq : j * direntSize = (u.copy k).size := by
          rcases hend with rfl | hend
          · omega
          · exact hend
        refine ⟨j, hj, .inl ?_, .inr heq⟩
        rw [entries_length]
        unfold direntSize at *
        omega
    have hofBytes := ofBytes_bytes (show i < 2 ^ 16 from lt_of_lt_of_le hi sb.ninodes_le) hname
    rw [hj]
    refine ((h.writei_dirent hk hv hdir (bytes_length _) (by rwa [hofBytes]) hroom).within).bind
      fun w v hw => ?_
    obtain ⟨hinv, hkept, hnodes, hfiles, hlog⟩ := hw
    have hframe := fun i hne => hfiles i (.inl hne)
    by_cases hwrite : w = direntSize
    · rw [if_neg (by simpa using hwrite)]
      rw [if_pos hwrite, hofBytes] at hnodes
      refine within_pure ⟨hinv, hkept, fun _ => ⟨hlog, hframe, .inr ⟨rfl, hfresh, ?_, j, ?_, ?_⟩⟩⟩
      · rw [hnode]
      · rw [hnode]
        exact hvacant
      · rw [hnodes, hnode]
    · rw [if_pos hwrite]
      rw [if_neg hwrite] at hnodes
      exact within_pure ⟨hinv, hkept, fun _ => ⟨hlog, hframe,
        .inl ⟨rfl, hnodes, funext fun i => hfiles i (.inr hwrite)⟩⟩⟩

theorem isdirempty_spec (h : Inv sb strict True s c) (hk : k ∈ c) (hv : (s.itable k).valid = true)
    (hdir : (s.copy k).type = .dir) :
    Within (Panics strict) (isdirempty sb k) s fun r s' => s' = s ∧ (r = true →
      ∀ e ∈ (nodes sb s.disk (s.itable k).inum).ents.drop 2, e.inum = 0) := by
  unfold isdirempty
  apply within_get_bind
  refine (scan_spec sb (E := Panics strict) (h.copy_full hk hv)
    (m := "isdirempty: readi") (panics (by decide))
    (fun de => decide (de.inum ≠ 0)) (s.fuel k) 2 (fuel_enough s k 2)).bind fun r t ht => ?_
  obtain ⟨rfl, hpost⟩ := ht
  refine within_pure ⟨rfl, fun hr e he => ?_⟩
  cases hr' : r.2 with
  | some e =>
    rw [hr'] at hr
    cases hr
  | none =>
    rw [hr'] at hpost
    obtain ⟨-, -, -, -, hall⟩ := hpost
    rw [h.node_dir hk hv hdir] at he
    obtain ⟨i, hi⟩ := List.mem_iff_getElem?.mp he
    rw [List.getElem?_drop] at hi
    simpa using hall (2 + i) (Nat.le_add_right 2 i) e hi

/-! ## Walking along a path -/

theorem skipelem_some {path rest : Path} {name : Name} (h : skipelem path = some (name, rest)) :
    name.length ≤ dirsiz ∧ name ⊆ path ∧ rest ⊆ path := by
  unfold skipelem at h
  dsimp only at h
  split at h
  · cases h
  · simp only [Option.some.injEq, Prod.mk.injEq] at h
    obtain ⟨rfl, rfl⟩ := h
    have hdrop : path.dropWhile (· = slash) ⊆ path := (List.dropWhile_sublist _).subset
    refine ⟨List.length_take_le _ _, fun b hb => hdrop ?_, fun b hb => hdrop ?_⟩
    · exact (List.takeWhile_sublist _).subset (List.mem_of_mem_take hb)
    · exact (List.dropWhile_sublist _).subset ((List.dropWhile_sublist _).subset hb)

theorem elementsFrom_ok {name : Name} : ∀ fuel path, name ∈ elementsFrom fuel path →
    name.length ≤ dirsiz ∧ name ⊆ path := by
  intro fuel
  induction fuel with
  | zero =>
    intro path h
    cases h
  | succ fuel ih =>
    intro path h
    unfold elementsFrom at h
    split at h
    · cases h
    · rename_i first rest hskip
      obtain ⟨hlen, hname, hrest⟩ := skipelem_some hskip
      rcases List.mem_cons.mp h with rfl | h
      · exact ⟨hlen, hname⟩
      · obtain ⟨hlen', hsub⟩ := ih rest h
        exact ⟨hlen', fun b hb => hrest (hsub hb)⟩

theorem elements_ok (path : Path) : ∀ name ∈ elements path, Name.Ok name := by
  intro name hname
  obtain ⟨hlen, hsub⟩ := elementsFrom_ok _ _ hname
  refine ⟨hlen, fun hzero => ?_⟩
  simpa using List.mem_takeWhile_imp (hsub hzero)

/-- The inode that a sequence of names leads to. -/
def resolve (N : ℕ → Node) : List Name → ℕ → Option ℕ
  | [], i => some i
  | name :: rest, i =>
    if (N i).type = .dir then ((N i).lookup name).bind fun e => resolve N rest e.inum else none

/-- Where a walk ends, and the name that it leaves over if it stops one level early. -/
def located (N : ℕ → Node) (parent : Bool) : List Name → ℕ → Option (ℕ × Name)
  | [], i => if parent then none else some (i, [])
  | name :: rest, i =>
    if (N i).type = .dir then
      if parent ∧ rest = [] then some (i, name)
      else ((N i).lookup name).bind fun e => located N parent rest e.inum
    else none

theorem located_false (N : ℕ → Node) : ∀ names i,
    located N false names i = (resolve N names i).map fun d => (d, []) := by
  intro names
  induction names with
  | nil => exact fun _ => rfl
  | cons name rest ih =>
    intro i
    unfold located resolve
    split
    · simp [ih, Option.map_bind]
    · rfl

theorem namexLoop_spec (parent : Bool) : ∀ (names : List Name) (ip : ℕ) (s : State),
    (∀ name ∈ names, Name.Ok name) → Inv sb strict True s (ip ::ₘ c) →
    (strict → Walk sb P c s ∧ P (s.itable ip).inum) →
    Within (Panics strict) (namexLoop sb parent names ip) s fun r s' => Quiet strict c s s' ∧
      match r with
      | none => Inv sb strict True s' c ∧
          (strict → located (nodes sb s.disk) parent names (s.itable ip).inum = none)
      | some (ip', name) => Inv sb strict True s' (ip' ::ₘ c) ∧ (parent = true → Name.Ok name) ∧
          (strict → P (s'.itable ip').inum) ∧
          (strict → located (nodes sb s.disk) parent names (s.itable ip).inum =
            some ((s'.itable ip').inum, name)) := by
  intro names
  induction names with
  | nil =>
    intro ip s _ h hwalk
    unfold namexLoop
    split
    · rename_i hparent
      refine ((iput_safe h fun hs => (hwalk hs).1.safe _ (hwalk hs).2).within).bind
        fun _ t ht => ?_
      exact within_pure ⟨ht.2, ht.1, fun _ => if_pos hparent⟩
    · rename_i hparent
      exact within_pure ⟨Quiet.refl, h, fun hp => absurd hp hparent, fun hs => (hwalk hs).2,
        fun _ => if_neg hparent⟩
  | cons name rest ih =>
    intro ip s hnames h hwalk
    have hip : ip ∈ ip ::ₘ c := Multiset.mem_cons_self ip c
    have hsub : c ⊆ ip ::ₘ c := Multiset.subset_cons c ip
    unfold namexLoop
    refine (ilock_spec h hip).bind fun _ t ht => ?_
    obtain ⟨hinv, hlock, hv⟩ := ht
    have hquiet : Quiet strict c s t := (hlock.mono hsub).weaken
    have hwalk' : strict → Walk sb P c t ∧ P (t.itable ip).inum := fun hs =>
      ⟨hquiet.walk hs (hwalk hs).1, by rw [hlock.inum ip hip]; exact (hwalk hs).2⟩
    -- the walk stops here and gives the reference back
    have hstop : Within (Panics strict) (iput sb ip) t fun _ v => Inv sb strict True v c ∧
        Quiet strict c s v :=
      ((iput_safe hinv fun hs => (hwalk' hs).1.safe _ (hwalk' hs).2).within).mono
        fun _ v hv => ⟨hv.1, hquiet.trans hv.2⟩
    have hnodes : nodes sb t.disk = nodes sb s.disk := by rw [hlock.disk trivial]
    have hinum := hlock.inum ip hip
    have htype : (nodes sb s.disk (s.itable ip).inum).type = (t.copy ip).type := by
      rw [← hnodes, ← hinum, hinv.node_copy hip hv, node_of_ne (hinv.type_ne hip hv)]
    apply within_get_bind
    split
    · rename_i hdir
      refine hstop.bind fun _ u hu => ?_
      exact within_pure ⟨hu.2, hu.1, fun _ => if_neg (by rw [htype]; exact hdir)⟩
    · rename_i hdir
      have hstep : located (nodes sb s.disk) parent (name :: rest) (s.itable ip).inum =
          if parent ∧ rest = [] then some ((s.itable ip).inum, name)
          else ((nodes sb s.disk (s.itable ip).inum).lookup name).bind
            fun e => located (nodes sb s.disk) parent rest e.inum :=
        if_pos (htype.trans (Decidable.not_not.mp hdir))
      split
      · rename_i hlast
        refine within_pure ⟨hquiet, hinv, fun _ => ?_, fun hs => (hwalk' hs).2, fun _ => ?_⟩
        · exact hnames name List.mem_cons_self
        · rw [hstep, if_pos hlast, hinum]
      · rename_i hlast
        rw [if_neg hlast] at hstep
        refine (dirlookup_spec hinv hip hv fun hs e he hne _ => ?_).bind fun r u hu => ?_
        · have hnext := (hwalk' hs).1.next _ (hwalk' hs).2 e he hne
          exact (hwalk' hs).1.used _ hnext
        cases r with
        | none =>
          rw [hu.2.1]
          refine hstop.bind fun _ v hv' => ?_
          refine within_pure ⟨hv'.2, hv'.1, fun _ => ?_⟩
          have hnone : (nodes sb s.disk (s.itable ip).inum).lookup name = none := by
            refine List.find?_eq_none.mpr fun e he => ?_
            rw [← hnodes, ← hinum] at he
            simpa using hu.2.2 e he
          rw [hstep, hnone]
          rfl
        | some r =>
          obtain ⟨next, off⟩ := r
          obtain ⟨-, j, e, -, -, he, hne, -, hfind, hnext, hinv', hlook⟩ := hu
          have hmem := List.mem_of_getElem? he
          rw [Multiset.cons_swap] at hinv'
          refine ((iput_safe hinv' fun hs => ?_).within).bind fun _ v hv' => ?_
          · have hsafe := (hwalk' hs).1.safe _ (hwalk' hs).2
            rw [hlook.inum ip hip]
            exact ((hlook.mono hsub).safe trivial hsafe).mono (Multiset.subset_cons c next)
          · obtain ⟨hinv'', hput⟩ := hv'
            have hquietv : Quiet strict c t v :=
              (hlook.mono hsub).weaken.trans (hput.mono (Multiset.subset_cons c next))
            refine (ih next v (fun n hn => hnames n (List.mem_cons_of_mem _ hn)) hinv''
              fun hs => ⟨hquietv.walk hs (hwalk' hs).1, ?_⟩).mono fun r w hw => ?_
            · rw [hput.inum next (Multiset.mem_cons_self next c), hnext]
              exact (hwalk' hs).1.next _ (hwalk' hs).2 e hmem hne
            · refine ⟨(hquiet.trans hquietv).trans hw.1, ?_⟩
              -- the rest of the path is resolved in the same file system
              have hrest : strict →
                  located (nodes sb s.disk) parent (name :: rest) (s.itable ip).inum =
                    located (nodes sb v.disk) parent rest (v.itable next).inum := by
                intro hs
                rw [hstep, ← hnodes, ← hinum, hfind, hquietv.disk hs,
                  hput.inum next (Multiset.mem_cons_self next c), hnext]
                rfl
              cases r with
              | none => exact ⟨hw.2.1, fun hs => (hrest hs).trans (hw.2.2 hs)⟩
              | some r =>
                exact ⟨hw.2.1, hw.2.2.1, hw.2.2.2.1,
                  fun hs => (hrest hs).trans (hw.2.2.2.2 hs)⟩

/-- An inode that a walk in the set has led to, locked. -/
structure Reached (sb : Superblock) (strict : Prop) (P : ℕ → Prop) (c : Multiset ℕ) (ip : ℕ)
    (s t : State) : Prop where
  inv : Inv sb strict True t (ip ::ₘ c)
  quiet : Quiet strict c s t
  valid : (t.itable ip).valid = true
  walk : strict → Walk sb P c t ∧ P (t.itable ip).inum

theorem ilock_reached {ip : ℕ} (h : Inv sb strict True t (ip ::ₘ c)) (hquiet : Quiet strict c s t)
    (hwalk : strict → Walk sb P c s) (hP : strict → P (t.itable ip).inum) :
    Within (Panics strict) (ilock ip) t fun _ u => Reached sb strict P c ip s u := by
  have hip := Multiset.mem_cons_self ip c
  refine (ilock_spec h hip).mono fun _ u hu => ?_
  obtain ⟨hinv, hlock, hv⟩ := hu
  have hquiet := hquiet.trans (hlock.mono (Multiset.subset_cons c ip)).weaken
  refine ⟨hinv, hquiet, hv, fun hs => ⟨hquiet.walk hs (hwalk hs), ?_⟩⟩
  rw [hlock.inum ip hip]
  exact hP hs

/-- The directory from which a path is resolved. -/
def State.start (s : State) (p : ℕ) (path : Path) : ℕ :=
  if absolute path then rootino else (s.itable (s.cwd p)).inum

theorem namex_spec (h : Inv sb strict True s c) {p : ℕ} (hcwd : s.cwd p ∈ c) {path : Path}
    (hwalk : strict → Walk sb P c s ∧ P (s.start p path)) (parent : Bool) :
    Within (Panics strict) (namex sb p path parent) s fun r s' => Quiet strict c s s' ∧
      match r with
      | none => Inv sb strict True s' c ∧
          (strict → located (nodes sb s.disk) parent (elements path) (s.start p path) = none)
      | some (ip', name) => Inv sb strict True s' (ip' ::ₘ c) ∧ (parent = true → Name.Ok name) ∧
          (strict → P (s'.itable ip').inum) ∧
          (strict → located (nodes sb s.disk) parent (elements path) (s.start p path) =
            some ((s'.itable ip').inum, name)) := by
  unfold namex
  apply within_get_bind
  refine Within.bind (R := fun ip t => Inv sb strict True t (ip ::ₘ c) ∧ Quiet True c s t ∧
    (t.itable ip).inum = s.start p path) ?_ fun ip t ht => ?_
  · unfold State.start
    split
    · refine iget_spec h sb.root_lt fun hs htype => ?_
      have := (hwalk hs).1.used _ (hwalk hs).2
      simp [State.start, *, nodes, sb.root_lt, Dinode.node, Node.free] at this
    · refine ((idup_spec h hcwd).within).mono fun ip t ht => ?_
      obtain ⟨rfl, hinv, hquiet⟩ := ht
      exact ⟨hinv, hquiet, hquiet.inum _ hcwd⟩
  · obtain ⟨hinv, hquiet, hinum⟩ := ht
    refine (namexLoop_spec (P := P) parent (elements path) ip t (elements_ok path) hinv
      fun hs => ?_).mono
      fun r u hu => ⟨hquiet.weaken.trans hu.1, ?_⟩
    · rw [hinum]
      exact ⟨hquiet.walk trivial (hwalk hs).1, (hwalk hs).2⟩
    · rw [hinum, hquiet.disk trivial] at hu
      exact hu.2

end

end Xv6.Fs
