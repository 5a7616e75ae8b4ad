import AluPlacement.Resource.Name
import Mathlib.Tactic.SplitIfs

/-! # Decimal numerals

A numeral is a text of decimal digits, at least one. Its value does not change if the zeros that
stand before other digits are left out, and what is left is the only numeral of this value that is
written so (`trimZeros_eq`). `decimal?` reads the numerals and nothing else, and `byte?` those of at
most eight bits, with or without a plus sign (`decimal?_eq_some_iff`, `byte?_eq_some_iff`). -/

namespace AluPlacement

/-- Decimal digits, at least one. -/
structure IsNumeral (digits : List Char) : Prop where
  ne_nil : digits ≠ []
  isDigit : ∀ c ∈ digits, c.isDigit = true

/-- The digits without the zeros that stand before others. -/
def trimZeros : List Char → List Char
  | '0' :: c :: digits => trimZeros (c :: digits)
  | digits => digits

variable {digits : List Char} {c : Char} {n : Nat}

/-! ### Digits and values -/

theorem toNat_of_isDigit (h : c.isDigit = true) : 48 ≤ c.toNat ∧ c.toNat ≤ 57 := by
  simpa [Char.isDigit, UInt32.le_iff_toNat_le] using h

theorem digit_lt (h : c.isDigit = true) : c.toNat - 48 < 10 := by
  have := toNat_of_isDigit h
  omega

theorem digit_pos (h : c.isDigit = true) (hne : c ≠ '0') : 0 < c.toNat - 48 := by
  have hlow := (toNat_of_isDigit h).1
  have hzero : c.toNat ≠ 48 := fun he => hne (Char.toNat_inj.mp he)
  omega

/-- A digit is how its value is written. -/
theorem toDigits_digit (h : c.isDigit = true) : Nat.toDigits 10 (c.toNat - 48) = [c] := by
  have hlt := digit_lt h
  have hlow := (toNat_of_isDigit h).1
  rw [Nat.toDigits_of_lt_base hlt]
  refine congrArg (fun c => [c]) (Char.toNat_inj.mp ?_)
  rw [Nat.toNat_digitChar_of_lt_ten hlt]
  omega

/-- Digits that follow a number other than zero are its last digits. -/
theorem toDigits_append (hn : 0 < n) (hd : ∀ c ∈ digits, c.isDigit = true) :
    Nat.toDigits 10 n ++ digits = Nat.toDigits 10 (Nat.ofDigitChars 10 digits n) := by
  induction digits generalizing n with
  | nil => simp
  | cons c digits ih =>
    obtain ⟨hc, hrest⟩ := List.forall_mem_cons.mp hd
    have hstep : Nat.toDigits 10 n ++ [c] = Nat.toDigits 10 (10 * n + (c.toNat - 48)) := by
      rw [← Nat.toDigits_append_toDigits (by decide) hn (digit_lt hc), toDigits_digit hc]
    calc Nat.toDigits 10 n ++ c :: digits = Nat.toDigits 10 n ++ [c] ++ digits := by simp
      _ = Nat.toDigits 10 (10 * n + (c.toNat - 48)) ++ digits := by rw [hstep]
      _ = _ := ih (by omega) hrest

/-- **Without superfluous zeros** a numeral is how its value is written. -/
theorem trimZeros_eq (h : IsNumeral digits) :
    trimZeros digits = Nat.toDigits 10 (Nat.ofDigitChars 10 digits 0) := by
  fun_induction trimZeros digits with
  | case1 c digits ih =>
    rw [ih ⟨by simp, fun c' hc' => h.isDigit c' (List.mem_cons_of_mem _ hc')⟩, Nat.ofDigitChars_cons]
    rfl
  | case2 digits hzero =>
    match digits, h with
    | [], h => exact absurd rfl h.ne_nil
    | [c], h =>
      have hc := h.isDigit c (by simp)
      simpa [Nat.ofDigitChars_cons] using (toDigits_digit hc).symm
    | c :: d :: rest, h =>
      obtain ⟨hc, hrest⟩ := List.forall_mem_cons.mp h.isDigit
      -- the first of several digits is no zero
      have hne : c ≠ '0' := by
        rintro rfl
        exact hzero d rest rfl
      have hwritten := toDigits_append (digit_pos hc hne) hrest
      rw [toDigits_digit hc] at hwritten
      simpa [Nat.ofDigitChars_cons] using hwritten

theorem isNumeral_toDigits (n : Nat) : IsNumeral (Nat.toDigits 10 n) :=
  ⟨Nat.toDigits_ne_nil, fun _ hc => Nat.isDigit_of_mem_toDigits (by decide) (by decide) hc⟩

theorem trimZeros_toDigits (n : Nat) : trimZeros (Nat.toDigits 10 n) = Nat.toDigits 10 n := by
  rw [trimZeros_eq (isNumeral_toDigits n), Nat.ofDigitChars_ten_toDigits]

theorem not_mem_digits (hc : c.isDigit = false) (n : Nat) : c ∉ Nat.toDigits 10 n := by
  intro h
  have hdigit := (isNumeral_toDigits n).isDigit c h
  rw [hc] at hdigit
  cases hdigit

theorem digits_inj {m n : Nat} (h : Nat.toDigits 10 m = Nat.toDigits 10 n) : m = n := by
  have hvalue := congrArg (fun ds => Nat.ofDigitChars 10 ds 0) h
  simpa using hvalue

/-! ### Reading -/

theorem decimal?_eq_some_iff :
    decimal? digits = some n ↔ IsNumeral digits ∧ Nat.ofDigitChars 10 digits 0 = n := by
  unfold decimal?
  split_ifs with h
  · have hnumeral : IsNumeral digits := ⟨h.1, by simpa using h.2⟩
    simp only [hnumeral, true_and, Option.some.injEq]
    rfl
  · rw [false_iff]
    rintro ⟨hnumeral, -⟩
    exact h ⟨hnumeral.ne_nil, by simpa using hnumeral.isDigit⟩

/-- The text writes the number, with or without a plus sign. -/
def WritesNumber (text : String) (n : Nat) : Prop :=
  ∃ digits, IsNumeral digits ∧ Nat.ofDigitChars 10 digits 0 = n ∧
    (text.toList = digits ∨ text.toList = '+' :: digits)

theorem byte?_eq_some_iff {text : String} :
    byte? text = some n ↔ WritesNumber text n ∧ n < 256 := by
  unfold byte? WritesNumber
  rw [Option.filter_eq_some_iff, decide_eq_true_iff, decimal?_eq_some_iff]
  refine and_congr_left fun _ => ?_
  split
  · next rest htext =>
    constructor
    · rintro ⟨hnumeral, hvalue⟩
      exact ⟨rest, hnumeral, hvalue, Or.inr htext⟩
    · rintro ⟨digits, hnumeral, hvalue, hsame | hplus⟩
      · -- a plus sign is no digit
        rw [htext] at hsame
        exact absurd (hnumeral.isDigit '+' (by simp [← hsame])) (by decide)
      · rw [htext] at hplus
        cases hplus
        exact ⟨hnumeral, hvalue⟩
  · next hother =>
    constructor
    · rintro ⟨hnumeral, hvalue⟩
      exact ⟨text.toList, hnumeral, hvalue, Or.inl rfl⟩
    · rintro ⟨digits, hnumeral, hvalue, hsame | hplus⟩
      · rw [hsame]
        exact ⟨hnumeral, hvalue⟩
      · exact absurd hplus (hother digits)

theorem writesNumber_toString (n : Nat) : WritesNumber (toString n) n :=
  ⟨Nat.toDigits 10 n, isNumeral_toDigits n, Nat.ofDigitChars_ten_toDigits,
    Or.inl (by simp)⟩

end AluPlacement
