import Mathlib.Data.List.Basic
import Mathlib.Data.List.Induction
import Mathlib.Data.List.Nodup
import Mathlib.Logic.Function.Basic

/-!
# Rings of doubly linked nodes

Nodes are linked by two functions, `next` and `prev`. A ring through a head is
described by the list of the other nodes in the order of `next`. Unlinking a node,
linking one in behind the head, and searching in either direction are operations on
that list.
-/

namespace Chain

open Function

variable {α : Type*}

/-- The links lead from `a` over the list to `b`, and back. -/
def Linked (next prev : α → α) : α → List α → α → Prop
  | a, [], b => next a = b ∧ prev b = a
  | a, x :: l, b => next a = x ∧ prev x = a ∧ Linked next prev x l b

variable {next prev next' prev' : α → α} {a b c x : α} {l l' : List α}

theorem linked_append : Linked next prev a (l ++ x :: l') c ↔
    Linked next prev a l x ∧ Linked next prev x l' c := by
  induction l generalizing a with
  | nil => simp [Linked, and_assoc]
  | cons y l ih => simp [Linked, ih, and_assoc]

theorem Linked.congr (h : Linked next prev a l b) (hn : ∀ y ∈ a :: l, next' y = next y)
    (hp : ∀ y ∈ l ++ [b], prev' y = prev y) : Linked next' prev' a l b := by
  induction l generalizing a with
  | nil => exact ⟨(hn a (by simp)).trans h.1, (hp b (by simp)).trans h.2⟩
  | cons y l ih =>
    obtain ⟨h1, h2, h3⟩ := h
    refine ⟨(hn a (by simp)).trans h1, (hp y (by simp)).trans h2, ih h3 ?_ ?_⟩
    · exact fun z hz => hn z (List.mem_cons_of_mem a hz)
    · exact fun z hz => hp z (List.mem_cons_of_mem y hz)

theorem Linked.prev_mem (h : Linked next prev a l b) : prev b ∈ a :: l := by
  induction l generalizing a with
  | nil => simp [h.2]
  | cons y l ih => exact List.mem_cons_of_mem a (ih h.2.2)

theorem Linked.next_mem (h : Linked next prev a l b) : next a ∈ l ++ [b] := by
  cases l with
  | nil => simp [h.1]
  | cons y l => simp [h.1]

/-- The links with a node taken out. -/
def unlink [DecidableEq α] (next prev : α → α) (b : α) : (α → α) × (α → α) :=
  (update next (prev b) (next b), update prev (next b) (prev b))

/-- The links with a node put behind the head. -/
def push [DecidableEq α] (next prev : α → α) (h b : α) : (α → α) × (α → α) :=
  (update (update next b (next h)) h b,
    update (update prev b h) (next h) b)

/-- A ring through a head: the other nodes in the order of `next`. -/
structure Ring (next prev : α → α) (h : α) (l : List α) : Prop where
  linked : Linked next prev h l h
  nodup : (h :: l).Nodup

section

variable [DecidableEq α]

theorem Linked.unlink (h1 : Linked next prev a l b) (h2 : Linked next prev b l' c)
    (hnodup : (a :: (l ++ b :: l')).Nodup) (hc : c ∉ l ++ b :: l') :
    Linked (Chain.unlink next prev b).1 (Chain.unlink next prev b).2 a (l ++ l') c := by
  induction l generalizing a with
  | nil =>
    obtain ⟨hn, hp⟩ := h1
    cases l' with
    | nil =>
      obtain ⟨hn', hp'⟩ := h2
      simp [Linked, Chain.unlink, hn', hp]
    | cons y l' =>
      obtain ⟨hn', hp', h3⟩ := h2
      refine ⟨by simp [Chain.unlink, hn', hp], by simp [Chain.unlink, hn', hp], h3.congr ?_ ?_⟩
      · intro z hz
        have hza : z ≠ a := by
          rintro rfl
          simp at hnodup hz
          tauto
        simp [Chain.unlink, hp, hza]
      · intro z hz
        have hzy : z ≠ y := by
          rintro rfl
          simp at hnodup hz hc
          tauto
        simp [Chain.unlink, hn', hzy]
  | cons y l ih =>
    obtain ⟨hn, hp, h3⟩ := h1
    have hprev : prev b ∈ y :: l := h3.prev_mem
    have hnext : next b ∈ l' ++ [c] := h2.next_mem
    have ha : a ≠ prev b := by
      rintro rfl
      simp at hnodup hprev
      tauto
    have hy : y ≠ next b := by
      rintro rfl
      simp at hnodup hnext hc
      tauto
    refine ⟨by simp [Chain.unlink, ha, hn], by simp [Chain.unlink, hy, hp], ih h3 ?_ ?_⟩
    · exact hnodup.of_cons
    · exact fun hm => hc (List.mem_cons_of_mem y hm)

theorem Ring.unlink {h : α} (hr : Ring next prev h (l ++ b :: l')) :
    Ring (Chain.unlink next prev b).1 (Chain.unlink next prev b).2 h (l ++ l') := by
  obtain ⟨h1, h2⟩ := linked_append.mp hr.linked
  refine ⟨h1.unlink h2 hr.nodup (List.nodup_cons.mp hr.nodup).1, ?_⟩
  refine hr.nodup.sublist ?_
  exact List.cons_sublist_cons.mpr ((List.sublist_cons_self b l').append_left l)

theorem Ring.push {h : α} (hr : Ring next prev h l) (hb : b ∉ h :: l) :
    Ring (Chain.push next prev h b).1 (Chain.push next prev h b).2 h (b :: l) := by
  have hnodup := List.nodup_cons.mp hr.nodup
  obtain ⟨hbh, hbl⟩ : b ≠ h ∧ b ∉ l := by simpa using hb
  constructor
  · cases hl : l with
    | nil =>
      subst hl
      obtain ⟨hn, hp⟩ := hr.linked
      simp [Linked, Chain.push, hn, hbh]
    | cons y l' =>
      subst hl
      obtain ⟨hn, hp, h3⟩ := hr.linked
      have hy : y ≠ h := fun e => hnodup.1 (by simp [e])
      have hby : b ≠ y := fun e => hbl (by simp [e])
      refine ⟨by simp [Chain.push], by simp [Chain.push, hn, hby], ?_, ?_, h3.congr ?_ ?_⟩
      · simp [Chain.push, hn, hbh]
      · simp [Chain.push, hn]
      · intro z hz
        have hzh : z ≠ h := fun e => hnodup.1 (e ▸ hz)
        have hzb : z ≠ b := fun e => hbl (e ▸ hz)
        simp [Chain.push, hzh, hzb]
      · intro z hz
        have hzb : z ≠ b := by
          rintro rfl
          simp at hz hbl
          tauto
        have hzy : z ≠ y := by
          rintro rfl
          simp at hz hnodup
          tauto
        simp [Chain.push, hn, hzb, hzy]
  · exact List.nodup_cons.mpr ⟨by simp [hbh.symm, hnodup.1], List.nodup_cons.mpr ⟨hbl, hnodup.2⟩⟩

/-- The search `for (b = start; b != stop; b = step(b)) if (p(b)) …`. -/
def scan (step : α → α) (stop : α) (p : α → Bool) : ℕ → α → Option α
  | 0, _ => none
  | n + 1, b => if b = stop then none else if p b then some b else scan step stop p n (step b)

theorem Linked.scan_next {h : α} (p : α → Bool) (hl : Linked next prev a l h) (hh : h ∉ l) {n : ℕ}
    (hn : l.length < n) : scan next h p n (next a) = l.find? p := by
  induction l generalizing a n with
  | nil =>
    obtain ⟨n, rfl⟩ : ∃ m, n = m + 1 := ⟨n - 1, by simp at hn; omega⟩
    simp [scan, hl.1]
  | cons y l ih =>
    obtain ⟨n, rfl⟩ : ∃ m, n = m + 1 := ⟨n - 1, by simp at hn; omega⟩
    obtain ⟨h1, -, h3⟩ := hl
    have hy : y ≠ h := fun e => hh (by simp [e])
    rw [scan, h1, if_neg hy, List.find?_cons]
    cases p y with
    | true => rfl
    | false => exact ih h3 (fun hm => hh (List.mem_cons_of_mem y hm)) (by simpa using hn)

theorem Linked.scan_prev {h : α} (p : α → Bool) (hl : Linked next prev h l a) (hh : h ∉ l) {n : ℕ}
    (hn : l.length < n) : scan prev h p n (prev a) = l.reverse.find? p := by
  induction l using List.reverseRecOn generalizing a n with
  | nil =>
    obtain ⟨n, rfl⟩ : ∃ m, n = m + 1 := ⟨n - 1, by simp at hn; omega⟩
    simp [scan, hl.2]
  | append_singleton l y ih =>
    obtain ⟨n, rfl⟩ : ∃ m, n = m + 1 := ⟨n - 1, by simp at hn; omega⟩
    obtain ⟨h1, -, h3⟩ := linked_append.mp hl
    have hy : y ≠ h := fun e => hh (by simp [e])
    rw [scan, h3, if_neg hy, List.reverse_append, List.reverse_singleton, List.singleton_append,
      List.find?_cons]
    cases p y with
    | true => rfl
    | false => exact ih h1 (fun hm => hh (List.mem_append_left _ hm)) (by simpa using hn)

end

end Chain
