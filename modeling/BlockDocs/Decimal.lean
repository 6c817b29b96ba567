import Mathlib.Data.List.Basic
import Mathlib.Tactic

/-!
# Decimal texts

Natural numbers written in decimal digits, and read back from any text that
consists of such digits, leading zeros included.
-/

set_option autoImplicit false

namespace BlockDocs.Decimal

def decimal (n : ℕ) : List Char := Nat.toDigits 10 n

def readDecimal (cs : List Char) : Option ℕ :=
  if cs ≠ [] ∧ cs.all Char.isDigit then some (Nat.ofDigitChars 10 cs 0) else none

theorem decimal_digits (n : ℕ) {c : Char} (h : c ∈ decimal n) : c.isDigit = true :=
  Nat.isDigit_of_mem_toDigits (by decide) (by decide) h

@[simp] theorem readDecimal_decimal (n : ℕ) : readDecimal (decimal n) = some n := by
  have hall : (decimal n).all Char.isDigit = true :=
    List.all_eq_true.mpr (fun _ hc => decimal_digits n hc)
  rw [readDecimal,if_pos ⟨Nat.toDigits_ne_nil,hall⟩]
  exact congrArg some Nat.ofDigitChars_ten_toDigits

theorem not_mem_decimal {c : Char} (h : c.isDigit = false) (n : ℕ) : c ∉ decimal n :=
  fun hc => Bool.false_ne_true (h.symm.trans (decimal_digits n hc))

/-- A text up to the first character that is no digit. -/
theorem takeWhile_decimal (n : ℕ) {c : Char} (h : c.isDigit = false) (rest : List Char) :
    (decimal n++c::rest).takeWhile Char.isDigit = decimal n := by
  rw [List.takeWhile_append_of_pos (fun _ hc => decimal_digits n hc),
    List.takeWhile_cons_of_neg (by simp [h]),List.append_nil]

theorem dropWhile_decimal (n : ℕ) {c : Char} (h : c.isDigit = false) (rest : List Char) :
    (decimal n++c::rest).dropWhile Char.isDigit = c::rest := by
  rw [List.dropWhile_append_of_pos (fun _ hc => decimal_digits n hc),
    List.dropWhile_cons_of_neg (by simp [h])]

end BlockDocs.Decimal
