import Mathlib.Data.Nat.Digits.Defs
import Mathlib.Logic.Function.Basic
import Mathlib.Tactic.Cases

/-!
# Integers in `printf`

The two functions `printint`, of the kernel and of the user library. Both store the digits
of a number in a buffer, the last one first, and put them out in reverse order. A store
outside the buffer and a digit outside the table are errors. The buffer is full for the
largest number and for the smallest one.
-/

namespace Xv6.Print

open Function

/-- The size of `buf`. -/
def bufSize : ℕ := 20

abbrev Buf := ℕ → Char

/-- The loop over the digits of `x`, until nothing is left of it. It returns the buffer and
the index after the last digit. -/
def digitLoop (digits : List Char) (base x : ℕ) (buf : Buf) (i : ℕ) : Option (Buf × ℕ) :=
  if _h : i < bufSize then
    match digits[x % base]? with
    | none => none
    | some c =>
      if x / base ≠ 0 then digitLoop digits base (x / base) (update buf i c) (i + 1)
      else some (update buf i c, i + 1)
  else none
termination_by bufSize - i

/-- The loop that puts out the characters before index `i`. -/
def putLoop (buf : Buf) : ℕ → List Char
  | 0 => []
  | i + 1 => buf i :: putLoop buf i

/-- The part of `printint` that follows the test of the sign. -/
def putDigits (digits : List Char) (buf : Buf) (base x : ℕ) (neg : Bool) : Option (List Char) :=
  match digitLoop digits base x buf 0 with
  | none => none
  | some (buf, i) =>
    if neg then
      if i < bufSize then some (putLoop (update buf i '-') (i + 1)) else none
    else some (putLoop buf i)

def Kernel.digits : List Char := "0123456789abcdef".toList

/-- The kernel's `printint`: the flag `sign` is assigned in the test. `buf` is what the
stack holds. -/
def Kernel.printint (buf : Buf) (xx : BitVec 64) (base : ℕ) (sign : ℤ) : Option (List Char) :=
  let sign := if sign ≠ 0 then (if xx.toInt < 0 then 1 else 0) else sign
  putDigits Kernel.digits buf base (if sign ≠ 0 then (-xx).toNat else xx.toNat) (sign ≠ 0)

def User.digits : List Char := "0123456789ABCDEF".toList

/-- The user library's `printint`. -/
def User.printint (buf : Buf) (xx : BitVec 64) (base : ℕ) (sgn : ℤ) : Option (List Char) :=
  if sgn ≠ 0 ∧ xx.toInt < 0 then putDigits User.digits buf base (-xx).toNat true
  else putDigits User.digits buf base xx.toNat false

/-- The digits of `n` in base `b`, the first one not zero unless it is the only one. -/
structure Numeral (b n : ℕ) (ds : List ℕ) : Prop where
  ne_nil : ds ≠ []
  lt : ∀ d ∈ ds, d < b
  lead : ds.head? = some 0 → ds = [0]
  value : Nat.ofDigits b ds.reverse = n

def glyph (digits : List Char) (d : ℕ) : Char := digits.getD d '?'

/-! ## The loops -/

theorem putLoop_update (buf : Buf) (c : Char) {k : ℕ} : ∀ {i}, i ≤ k →
    putLoop (update buf k c) i = putLoop buf i := by
  intro i
  induction i with
  | zero => exact fun _ => rfl
  | succ i ih =>
    intro hi
    rw [putLoop, putLoop, update_of_ne (by omega), ih (by omega)]

theorem putLoop_store (buf : Buf) (c : Char) (i : ℕ) :
    putLoop (update buf i c) (i + 1) = c :: putLoop buf i := by
  rw [putLoop, update_self, putLoop_update buf c le_rfl]

/-- The numeral `ds` of `x` is stored wherever there is room for `n + 1` digits. -/
structure Stored (base x n : ℕ) (ds : List ℕ) : Prop extends Numeral base x ds where
  length : ds.length ≤ n + 1
  run : ∀ (digits : List Char) (buf : Buf) (i : ℕ), base ≤ digits.length →
    i + n < bufSize → ∃ buf', digitLoop digits base x buf i = some (buf', i + ds.length) ∧
      putLoop buf' (i + ds.length) = ds.map (glyph digits) ++ putLoop buf i

section

variable {base x n : ℕ} {ds : List ℕ}

theorem digitLoop_eq {digits : List Char} (buf : Buf) {i : ℕ} (hb : 2 ≤ base)
    (hd : base ≤ digits.length) (hi : i < bufSize) :
    digitLoop digits base x buf i =
      let buf := update buf i (glyph digits (x % base))
      if x / base ≠ 0 then digitLoop digits base (x / base) buf (i + 1)
      else some (buf, i + 1) := by
  have hlt : x % base < digits.length := (Nat.mod_lt x (by omega)).trans_le hd
  rw [digitLoop, dif_pos hi, glyph, List.getD_eq_getElem?_getD, List.getElem?_eq_getElem hlt,
    Option.getD_some]

theorem Stored.single (hb : 2 ≤ base) (hx : x < base) (n : ℕ) : Stored base x n [x] where
  ne_nil := List.cons_ne_nil x []
  lt := by simpa using hx
  lead h := by rw [Option.some.inj h]
  value := Nat.ofDigits_singleton
  length := Nat.le_add_left 1 n
  run digits buf i hd hi := by
    refine ⟨update buf i (glyph digits x), ?_, putLoop_store buf _ i⟩
    rw [digitLoop_eq buf hb hd (by omega), Nat.mod_eq_of_lt hx]
    exact if_neg (not_not.mpr (Nat.div_eq_of_lt hx))

theorem Stored.snoc (hb : 2 ≤ base) (hx : x / base ≠ 0) (h : Stored base (x / base) n ds) :
    Stored base x (n + 1) (ds ++ [x % base]) where
  ne_nil := by simp
  lt d hd := by
    rcases List.mem_append.mp hd with hd | hd
    · exact h.lt d hd
    · rw [List.mem_singleton.mp hd]
      exact Nat.mod_lt x (by omega)
  lead hzero := by
    -- a zero in front would be the whole of `x / base`
    have hvalue := h.value
    rw [List.head?_append, List.head?_eq_some_head h.ne_nil, Option.some_or,
      ← List.head?_eq_some_head h.ne_nil] at hzero
    rw [h.lead hzero] at hvalue
    exact absurd hvalue.symm hx
  value := by
    rw [List.reverse_append, List.reverse_singleton, List.singleton_append, Nat.ofDigits_cons,
      h.value]
    exact Nat.mod_add_div x base
  length := by simpa using h.length
  run digits buf i hd hi := by
    obtain ⟨buf', hrun, hput⟩ := h.run digits (update buf i (glyph digits (x % base))) (i + 1) hd
      (by omega)
    have hlen : i + 1 + ds.length = i + (ds ++ [x % base]).length := by
      rw [List.length_append, List.length_singleton]
      omega
    rw [hlen] at hrun hput
    refine ⟨buf', ?_, ?_⟩
    · rw [digitLoop_eq buf hb hd (by omega)]
      exact (if_pos hx).trans hrun
    · rw [hput, putLoop_store, List.map_append, List.append_assoc]
      rfl

theorem exists_stored (hb : 2 ≤ base) : ∀ {n x}, x < base ^ (n + 1) →
    ∃ ds, Stored base x n ds := by
  intro n
  induction n with
  | zero =>
    intro x hx
    rw [zero_add, pow_one] at hx
    exact ⟨[x], .single hb hx 0⟩
  | succ n ih =>
    intro x hx
    rcases lt_or_ge x base with hlt | hge
    · exact ⟨[x], .single hb hlt (n + 1)⟩
    · rw [pow_succ, ← Nat.div_lt_iff_lt_mul (by omega)] at hx
      obtain ⟨ds, hstored⟩ := ih hx
      exact ⟨ds ++ [x % base], hstored.snoc hb (Nat.div_pos hge (by omega)).ne'⟩

/-- With room for the sign the digits are put out after it. -/
theorem Stored.putDigits (h : Stored base x n ds) {digits : List Char} (buf : Buf) {neg : Bool}
    (hd : base ≤ digits.length) (hn : n + neg.toNat < bufSize) :
    putDigits digits buf base x neg =
      some ((if neg then ['-'] else []) ++ ds.map (glyph digits)) := by
  obtain ⟨buf', hrun, hput⟩ := h.run digits buf 0 hd (by omega)
  rw [zero_add, putLoop, List.append_nil] at hput
  have hlen := h.length
  rw [Print.putDigits, hrun]
  cases neg with
  | false => simp [hput]
  | true =>
    rw [Bool.toNat_true] at hn
    simp only [zero_add, if_true]
    rw [if_pos (by omega), putLoop_store, hput]
    rfl

end

/-! ## The two functions -/

/-- The number that a caller asks for. -/
def argument (xx : BitVec 64) (sign : ℤ) : ℤ := if sign ≠ 0 then xx.toInt else xx.toNat

section

variable (buf : Buf) (xx : BitVec 64) (base : ℕ) (sign : ℤ)

theorem argument_neg : argument xx sign < 0 ↔ sign ≠ 0 ∧ xx.toInt < 0 := by
  unfold argument
  split <;> rename_i hsign <;> simp [hsign]

/-- The negation is exact for the most negative number too. -/
theorem argument_natAbs : (argument xx sign).natAbs =
    if argument xx sign < 0 then (-xx).toNat else xx.toNat := by
  have hlt := xx.isLt
  have hint := BitVec.toInt_eq_toNat_cond xx
  rw [BitVec.toNat_neg]
  unfold argument
  split_ifs <;> split at hint <;> omega

theorem Kernel.printint_eq : Kernel.printint buf xx base sign =
    putDigits Kernel.digits buf base (argument xx sign).natAbs (argument xx sign < 0) := by
  rw [argument_natAbs, Kernel.printint]
  simp only [argument_neg]
  by_cases hsign : sign = 0 <;> by_cases hneg : xx.toInt < 0 <;> simp [hsign, hneg]

theorem User.printint_eq : User.printint buf xx base sign =
    putDigits User.digits buf base (argument xx sign).natAbs (argument xx sign < 0) := by
  rw [argument_natAbs, User.printint]
  simp only [argument_neg]
  split <;> rename_i h <;> simp [h]

/-- The digits fit in the buffer, together with the sign if there is one. -/
theorem exists_room (hb : 10 ≤ base) : ∃ n, n + (decide (argument xx sign < 0)).toNat < bufSize ∧
    (argument xx sign).natAbs < base ^ (n + 1) := by
  by_cases hneg : argument xx sign < 0
  · rw [decide_eq_true hneg]
    refine ⟨18, by decide, lt_of_lt_of_le ?_ (Nat.pow_le_pow_left hb 19)⟩
    have hle := BitVec.le_toInt xx
    have hsign := ((argument_neg xx sign).mp hneg).1
    rw [argument, if_pos hsign] at hneg ⊢
    omega
  · rw [decide_eq_false hneg, argument_natAbs, if_neg hneg]
    exact ⟨19, by decide, lt_of_lt_of_le xx.isLt
      (le_trans (by decide) (Nat.pow_le_pow_left hb 20))⟩

end

theorem glyph_toLower : ∀ d < 16, (glyph User.digits d).toLower = glyph Kernel.digits d := by
  decide

/-- Both functions put out the numeral of the argument in the base, with a minus in front of
a negative one, and store nothing outside the buffer. The two outputs differ in the case of
letters only. -/
theorem printint_exact (buf buf' : Buf) (xx : BitVec 64) (base : ℕ) (sign : ℤ)
    (hbase : base = 10 ∨ base = 16) :
    (∃ ds, Numeral base (argument xx sign).natAbs ds ∧
      Kernel.printint buf xx base sign = some ((if argument xx sign < 0 then ['-'] else []) ++
        ds.map (glyph Kernel.digits)) ∧
      User.printint buf' xx base sign = some ((if argument xx sign < 0 then ['-'] else []) ++
        ds.map (glyph User.digits))) ∧
    (User.printint buf' xx base sign).map (List.map Char.toLower) =
      Kernel.printint buf xx base sign := by
  have hb : 10 ≤ base ∧ base ≤ 16 := by omega
  obtain ⟨n, hroom, hlt⟩ := exists_room xx base sign hb.1
  obtain ⟨ds, hstored⟩ := exists_stored (by omega) hlt
  have hkernel := (Kernel.printint_eq buf xx base sign).trans
    (hstored.putDigits buf (show _ ≤ Kernel.digits.length from hb.2) hroom)
  have huser := (User.printint_eq buf' xx base sign).trans
    (hstored.putDigits buf' (show _ ≤ User.digits.length from hb.2) hroom)
  simp only [decide_eq_true_eq] at hkernel huser
  refine ⟨⟨ds, hstored.toNumeral, hkernel, huser⟩, ?_⟩
  rw [hkernel, huser, Option.map_some, List.map_append, List.map_map]
  congr 2
  · split <;> rfl
  · exact List.map_congr_left fun d hd => glyph_toLower d ((hstored.lt d hd).trans_le hb.2)

theorem printint_exact_min : ∃ ds, Numeral 10 (2 ^ 63) ds ∧
    Kernel.printint (fun _ => ' ') (BitVec.intMin 64) 10 1 =
      some ('-' :: ds.map (glyph Kernel.digits)) := by
  obtain ⟨ds, hnum, hkernel, -⟩ :=
    (printint_exact (fun _ => ' ') (fun _ => ' ') (BitVec.intMin 64) 10 1 (.inl rfl)).1
  exact ⟨ds, hnum, hkernel⟩

end Xv6.Print
