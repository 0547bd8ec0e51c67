import Mathlib.Data.List.Basic
import Mathlib.Data.List.Induction
import Mathlib.Order.Basic
import Mathlib.Tactic.Cases

/-!
# `grep`

The matcher on strings without their terminating NUL, and the loop that reads the input
into a buffer of 1024 bytes. The matcher decides the language of its patterns. The loop
writes the matching lines, unless a line fills the buffer: then a read is asked for no
bytes, and `grep` takes its result for the end of the input.
-/

namespace Xv6.User

/-- A byte of a C string. -/
abbrev Chr := {b : UInt8 // b ≠ 0}

namespace Grep

def caret : Chr := ⟨94, by decide⟩

def dollar : Chr := ⟨36, by decide⟩

def star : Chr := ⟨42, by decide⟩

def dot : Chr := ⟨46, by decide⟩

def newline : Chr := ⟨10, by decide⟩

/-! ## The matcher -/

/-- `matchstar`, where `here` is `matchhere` with the rest of the pattern. -/
def matchstar (here : List Chr → Bool) (c : Chr) : List Chr → Bool
  | [] => here []
  | t :: text => here (t :: text) || ((t == c || c == dot) && matchstar here c text)

def matchhere : List Chr → List Chr → Bool
  | [], _ => true
  | [c], text =>
    if c = dollar then text.isEmpty
    else match text with
      | [] => false
      | t :: text => (c == dot || c == t) && matchhere [] text
  | c :: d :: re, text =>
    if d = star then matchstar (matchhere re) c text
    else match text with
      | [] => false
      | t :: text => (c == dot || c == t) && matchhere (d :: re) text

/-- The loop of `match`. -/
def search (re : List Chr) : List Chr → Bool
  | [] => matchhere re []
  | t :: text => matchhere re (t :: text) || search re text

/-- `match`. -/
def matchRe (re text : List Chr) : Bool :=
  match re with
  | [] => search [] text
  | c :: re => if c = caret then matchhere re text else search (c :: re) text

/-! ## The language of a pattern -/

/-- The pattern describes a string, given what follows it. -/
inductive Describes : List Chr → List Chr → List Chr → Prop
  | nil (rest : List Chr) : Describes [] [] rest
  | star {c : Chr} {re xs w rest : List Chr} : (∀ x ∈ xs, x = c ∨ c = dot) →
      Describes re w rest → Describes (c :: star :: re) (xs ++ w) rest
  | dollar : Describes [dollar] [] []
  | char {c x : Chr} {re w rest : List Chr} : re.head? ≠ some Grep.star →
      ¬ (c = Grep.dollar ∧ re = []) → c = x ∨ c = dot →
      Describes re w rest → Describes (c :: re) (x :: w) rest

theorem matchstar_iff {here : List Chr → Bool} {c : Chr} {text : List Chr} :
    matchstar here c text = true ↔
      ∃ xs rest, text = xs ++ rest ∧ (∀ x ∈ xs, x = c ∨ c = dot) ∧ here rest = true := by
  induction text with
  | nil => simp [matchstar]
  | cons t text ih =>
    simp only [matchstar, Bool.or_eq_true, Bool.and_eq_true, beq_iff_eq, ih]
    constructor
    · rintro (h | ⟨ht, xs, rest, rfl, hxs, h⟩)
      · exact ⟨[], t :: text, rfl, by simp, h⟩
      · exact ⟨t :: xs, rest, rfl, List.forall_mem_cons.mpr ⟨ht, hxs⟩, h⟩
    · rintro ⟨_ | ⟨x, xs⟩, rest, heq, hxs, h⟩
      · exact .inl (by rwa [heq])
      · obtain ⟨rfl, rfl⟩ := List.cons.inj heq
        exact .inr ⟨hxs t List.mem_cons_self, xs, rest, rfl,
          fun y hy => hxs y (List.mem_cons_of_mem _ hy), h⟩

theorem describes_star {c : Chr} {re w rest : List Chr} :
    Describes (c :: star :: re) w rest ↔
      ∃ xs w', w = xs ++ w' ∧ (∀ x ∈ xs, x = c ∨ c = dot) ∧ Describes re w' rest := by
  constructor
  · intro h
    cases h with
    | star hxs h => exact ⟨_, _, rfl, hxs, h⟩
    | char hne => exact absurd rfl hne
  · rintro ⟨xs, w', rfl, hxs, h⟩
    exact .star hxs h

theorem describes_dollar {w rest : List Chr} :
    Describes [dollar] w rest ↔ w = [] ∧ rest = [] := by
  constructor
  · intro h
    cases h with
    | dollar => exact ⟨rfl, rfl⟩
    | char _ hne => exact absurd ⟨rfl, rfl⟩ hne
  · rintro ⟨rfl, rfl⟩
    exact .dollar

theorem describes_char {c : Chr} {re w rest : List Chr} (hs : re.head? ≠ some star)
    (hd : ¬ (c = dollar ∧ re = [])) : Describes (c :: re) w rest ↔
      ∃ x w', w = x :: w' ∧ (c = x ∨ c = dot) ∧ Describes re w' rest := by
  constructor
  · intro h
    cases h with
    | star => exact absurd rfl hs
    | dollar => exact absurd ⟨rfl, rfl⟩ hd
    | char _ _ hx h => exact ⟨_, _, rfl, hx, h⟩
  · rintro ⟨x, w', rfl, hx, h⟩
    exact .char hs hd hx h

theorem matchhere_char {c : Chr} {re text : List Chr} (hs : re.head? ≠ some star)
    (hd : ¬ (c = dollar ∧ re = [])) : matchhere (c :: re) text = match text with
      | [] => false
      | t :: text => (c == dot || c == t) && matchhere re text := by
  cases re with
  | nil =>
    have hc : c ≠ dollar := fun h => hd ⟨h, rfl⟩
    cases text <;> simp [matchhere, hc]
  | cons d re =>
    have hne : d ≠ star := fun h => hs (by rw [h]; rfl)
    cases text <;> simp [matchhere, hne]

theorem matchhere_char_iff {c : Chr} {re : List Chr} (hs : re.head? ≠ some star)
    (hd : ¬ (c = dollar ∧ re = []))
    (ih : ∀ text, matchhere re text = true ↔ ∃ w rest, text = w ++ rest ∧ Describes re w rest)
    (text : List Chr) : matchhere (c :: re) text = true ↔
      ∃ w rest, text = w ++ rest ∧ Describes (c :: re) w rest := by
  rw [matchhere_char hs hd]
  simp only [describes_char hs hd]
  cases text with
  | nil => simp
  | cons t text =>
    simp only [Bool.and_eq_true, Bool.or_eq_true, beq_iff_eq, ih]
    constructor
    · rintro ⟨hc, w, rest, rfl, h⟩
      exact ⟨t :: w, rest, rfl, t, w, rfl, hc.symm, h⟩
    · rintro ⟨_, rest, heq, x, w, rfl, hc, h⟩
      obtain ⟨rfl, rfl⟩ := List.cons.inj heq
      exact ⟨hc.symm, w, rest, rfl, h⟩

theorem matchhere_iff (re : List Chr) : ∀ text, matchhere re text = true ↔
    ∃ w rest, text = w ++ rest ∧ Describes re w rest := by
  -- the recursion of `matchhere` goes one or two characters down the pattern
  induction re using List.twoStepInduction with
  | nil =>
    intro text
    exact ⟨fun _ => ⟨[], text, rfl, .nil text⟩, fun _ => by simp [matchhere]⟩
  | singleton c =>
    by_cases hc : c = dollar
    · subst hc
      simp [matchhere, describes_dollar]
    · refine matchhere_char_iff (by simp) (fun h => hc h.1) fun text => ?_
      exact ⟨fun _ => ⟨[], text, rfl, .nil text⟩, fun _ => by simp [matchhere]⟩
  | cons_cons c d re ih ihd =>
    by_cases hd : d = star
    · subst hd
      intro text
      simp only [matchhere, if_true, matchstar_iff, describes_star, ih]
      constructor
      · rintro ⟨xs, _, rfl, hxs, w, rest, rfl, h⟩
        exact ⟨xs ++ w, rest, (List.append_assoc ..).symm, xs, w, rfl, hxs, h⟩
      · rintro ⟨_, rest, rfl, xs, w, rfl, hxs, h⟩
        exact ⟨xs, w ++ rest, List.append_assoc .., hxs, w, rest, rfl, h⟩
    · exact matchhere_char_iff (by simpa using hd) (by simp) (ihd d)

theorem search_iff {re text : List Chr} : search re text = true ↔
    ∃ pre w rest, text = pre ++ w ++ rest ∧ Describes re w rest := by
  induction text with
  | nil =>
    rw [search, matchhere_iff]
    constructor
    · rintro ⟨w, rest, heq, h⟩
      exact ⟨[], w, rest, heq, h⟩
    · rintro ⟨pre, w, rest, heq, h⟩
      simp only [List.nil_eq, List.append_eq_nil_iff] at heq
      exact ⟨w, rest, by simp [heq], h⟩
  | cons t text ih =>
    rw [search, Bool.or_eq_true, matchhere_iff, ih]
    constructor
    · rintro (⟨w, rest, heq, h⟩ | ⟨pre, w, rest, rfl, h⟩)
      · exact ⟨[], w, rest, heq, h⟩
      · exact ⟨t :: pre, w, rest, rfl, h⟩
    · rintro ⟨_ | ⟨x, pre⟩, w, rest, heq, h⟩
      · exact .inl ⟨w, rest, heq, h⟩
      · exact .inr ⟨pre, w, rest, (List.cons.inj heq).2, h⟩

/-- The matcher decides whether the pattern describes a part of the text; the first part,
if the pattern starts with `^`. -/
theorem matchRe_iff (re text : List Chr) : matchRe re text = true ↔
    (∃ re' w rest, re = caret :: re' ∧ text = w ++ rest ∧ Describes re' w rest) ∨
    re.head? ≠ some caret ∧ ∃ pre w rest, text = pre ++ w ++ rest ∧ Describes re w rest := by
  cases re with
  | nil => simp [matchRe, search_iff]
  | cons c re =>
    by_cases hc : c = caret
    · subst hc
      simp [matchRe, matchhere_iff]
    · simp [matchRe, hc, search_iff]

/-! ## The loop over the input -/

/-- `sizeof(buf)`. -/
def bufSize : ℕ := 1024

/-- The inner loop of `grep` from `p` on, where `line` is what stands before. What is
written, and the rest of the buffer after the last newline. -/
def scan (pattern line : List Chr) : List Chr → List (List Chr) × List Chr
  | [] => ([], line)
  | c :: p =>
    if c = newline then
      let r := scan pattern [] p
      (if matchRe pattern line then (line ++ [newline]) :: r.1 else r.1, r.2)
    else scan pattern (line ++ [c]) p

section

variable {pattern : List Chr}

theorem scan_newline (line p : List Chr) : scan pattern line (newline :: p) =
    (([line].filter (matchRe pattern)).map (· ++ [newline]) ++ (scan pattern [] p).1,
      (scan pattern [] p).2) := by
  by_cases h : matchRe pattern line = true <;> simp [scan, h]

theorem scan_char {c : Chr} (hc : c ≠ newline) (line p : List Chr) :
    scan pattern line (c :: p) = scan pattern (line ++ [c]) p := if_neg hc

/-- Every line that ends in the input fits the buffer with its newline; `k` bytes of the
first one have been read. -/
def Fits (k : ℕ) : List Chr → Prop
  | [] => True
  | c :: p => if c = newline then k + 1 < bufSize ∧ Fits 0 p else Fits (k + 1) p

theorem fits_newline {k : ℕ} {p : List Chr} :
    Fits k (newline :: p) ↔ k + 1 < bufSize ∧ Fits 0 p := by
  simp [Fits]

theorem fits_char {c : Chr} (hc : c ≠ newline) {k : ℕ} {p : List Chr} :
    Fits k (c :: p) ↔ Fits (k + 1) p := by
  simp [Fits, hc]

theorem Fits.scan {line a b : List Chr} (h : Fits line.length (a ++ b)) :
    Fits (scan pattern line a).2.length b := by
  induction a generalizing line with
  | nil => exact h
  | cons c a ih =>
    rw [List.cons_append] at h
    rcases eq_or_ne c newline with rfl | hc
    · rw [scan_newline]
      exact ih (fits_newline.mp h).2
    · rw [scan_char hc]
      exact ih (by simpa using (fits_char hc).mp h)

theorem Fits.plain {k : ℕ} {b : List Chr} (h : Fits k b) (hk : bufSize ≤ k + 1) : newline ∉ b := by
  induction b generalizing k with
  | nil => exact List.not_mem_nil
  | cons c b ih =>
    rcases eq_or_ne c newline with rfl | hc
    · have := (fits_newline.mp h).1
      omega
    · rw [List.mem_cons, not_or]
      exact ⟨Ne.symm hc, ih ((fits_char hc).mp h) (by omega)⟩

/-- The lines of a text, each with its newline, and what follows the last one. -/
def text (lines : List (List Chr)) (tail : List Chr) : List Chr :=
  (lines.map (· ++ [newline])).flatten ++ tail

end

end Grep

end Xv6.User
