import Mathlib.Data.List.Basic
import Mathlib.Tactic

/-!
# Hexadecimal texts

Natural numbers written in a given number of hexadecimal digits, and read back from any text of
such digits.
-/

set_option autoImplicit false

namespace BlockDocs.Hexadecimal

def hexValue (c : Char) : Option ℕ :=
  if '0' ≤ c ∧ c ≤ '9' then some (c.toNat-48)
  else if 'a' ≤ c ∧ c ≤ 'f' then some (c.toNat-87)
  else if 'A' ≤ c ∧ c ≤ 'F' then some (c.toNat-55)
  else none

def readFrom (n : ℕ) : List Char → Option ℕ
  | [] => some n
  | c::cs => (hexValue c).bind (fun d => readFrom (n*16+d) cs)

def padded (width n : ℕ) : List Char := List.leftpad width '0' (Nat.toDigits 16 n)

theorem hexValue_digitChar {d : ℕ} (h : d < 16) : hexValue (Nat.digitChar d) = some d := by
  have hall : ∀ d < 16, hexValue (Nat.digitChar d) = some d := by decide
  exact hall d h

theorem readFrom_append (cs ds : List Char) (n : ℕ) :
    readFrom n (cs++ds) = (readFrom n cs).bind (fun m => readFrom m ds) := by
  induction cs generalizing n with
  | nil => rfl
  | cons c cs ih =>
    simp only [List.cons_append,readFrom]
    cases hexValue c with
    | none => rfl
    | some d => exact ih (n*16+d)

theorem readFrom_shift (cs : List Char) (n k : ℕ) :
    readFrom (k+n) cs = (readFrom n cs).map (fun m => k*16^cs.length+m) := by
  induction cs generalizing n k with
  | nil => simp [readFrom]
  | cons c cs ih =>
    simp only [readFrom,List.length_cons]
    cases hexValue c with
    | none => rfl
    | some d =>
      have hsum : (k+n)*16+d = k*16+(n*16+d) := by ring
      have hpow : k*16*16^cs.length = k*16^(cs.length+1) := by ring
      simp only [Option.bind_some]
      rw [hsum,ih,hpow]

theorem readFrom_toDigits (n : ℕ) : readFrom 0 (Nat.toDigits 16 n) = some n := by
  induction n using Nat.strongRecOn with
  | ind n ih =>
    rw [Nat.toDigits_eq_if (by decide)]
    split
    · next hn => simp [readFrom,hexValue_digitChar hn]
    · next hn =>
      have hmod : n%16 < 16 := Nat.mod_lt n (by decide)
      have hback : n/16*16+n%16 = n := by omega
      rw [readFrom_append,ih (n/16) (by omega)]
      simp [readFrom,hexValue_digitChar hmod,hback]

theorem readFrom_zeros (k : ℕ) (cs : List Char) :
    readFrom 0 (List.replicate k '0'++cs) = readFrom 0 cs := by
  induction k with
  | zero => rfl
  | succ k ih => exact ih

theorem padded_length {width n : ℕ} (hwidth : 0 < width) (h : n < 16^width) :
    (padded width n).length = width := by
  have hle := (Nat.length_toDigits_le_iff (by decide) hwidth).mpr h
  rw [padded,List.length_leftpad]
  omega

theorem readFrom_padded {width n : ℕ} (hwidth : 0 < width) (h : n < 16^width) (k : ℕ) :
    readFrom k (padded width n) = some (k*16^width+n) := by
  have hzero : readFrom 0 (padded width n) = some n := by
    rw [padded,List.leftpad,readFrom_zeros,readFrom_toDigits]
  have hshift := readFrom_shift (padded width n) 0 k
  rwa [hzero,padded_length hwidth h] at hshift

/-- A text that can be read holds digits alone. -/
theorem digit_of_read {cs : List Char} {n m : ℕ} (h : readFrom n cs = some m) {c : Char}
    (hc : c ∈ cs) : hexValue c ≠ none := by
  induction cs generalizing n with
  | nil => cases hc
  | cons a cs ih =>
    obtain ⟨d,hd,hrest⟩ := Option.bind_eq_some_iff.mp h
    rcases List.mem_cons.mp hc with rfl | hc
    · simp [hd]
    · exact ih hrest hc

theorem not_mem_padded {width n : ℕ} (hwidth : 0 < width) (h : n < 16^width) {c : Char}
    (hc : hexValue c = none) : c ∉ padded width n :=
  fun hmem => digit_of_read (readFrom_padded hwidth h 0) hmem hc

end BlockDocs.Hexadecimal
