import BlockDocs.Hexadecimal
import BlockDocs.Wire

/-!
# Texts of block ids

An id is printed in five groups of hexadecimal digits. The api takes it out of any text that
`UUID` accepts; in a page an id is the text itself.
-/

set_option autoImplicit false

namespace BlockDocs.UuidTexts
open BlockDocs.Hexadecimal BlockDocs.Wire

def IsId (id : Uuid) : Prop := id < 16^32

instance (id : Uuid) : Decidable (IsId id) := inferInstanceAs (Decidable (id < 16^32))

/-! ## Reading -/

/-- `str.replace(pattern, "")`; so many of the first characters belong to a match. -/
def without (pattern : List Char) : ℕ → List Char → List Char
  | _, [] => []
  | skip+1, _::cs => without pattern skip cs
  | 0, c::cs =>
    if pattern.isPrefixOf (c::cs) then without pattern (pattern.length-1) cs
    else c::without pattern 0 cs

def isBrace (c : Char) : Bool := c = '\x7b' || c = '\x7d'

def stripBraces (cs : List Char) : List Char :=
  ((cs.dropWhile isBrace).reverse.dropWhile isBrace).reverse

def readUuid (text : List Char) : Option Uuid :=
  let hex := without "uuid:".toList 0 (without "urn:".toList 0 text)
  let digits := (stripBraces hex).filter (· ≠ '-')
  if digits.length = 32 then readFrom 0 digits else none

def textId (text : String) : Option Uuid :=
  (readUuid text.toList).filter (fun id => uuidText id = text)

/-! ## Reading what was printed -/

def group (width n : ℕ) : List Char := padded width (n%16^width)

theorem uuidText_chars (id : Uuid) : (uuidText id).toList = group 8 (id/16^24)++
    ('-'::group 4 (id/16^20)++('-'::group 4 (id/16^16)++
      ('-'::group 4 (id/16^12)++ '-'::group 12 id))) := by
  simp [uuidText,hex,group,padded]

theorem group_length {width : ℕ} (hwidth : 0 < width) (n : ℕ) : (group width n).length = width :=
  padded_length hwidth (Nat.mod_lt n (by positivity))

theorem group_digit {width : ℕ} (hwidth : 0 < width) (n : ℕ) {c : Char}
    (hc : c ∈ group width n) : hexValue c ≠ none :=
  fun hnone => not_mem_padded hwidth (Nat.mod_lt n (by positivity)) hnone hc

theorem readFrom_group {width : ℕ} (hwidth : 0 < width) (n k : ℕ) (cs : List Char) :
    readFrom k (group width n++cs) = readFrom (k*16^width+n%16^width) cs := by
  rw [readFrom_append,group,readFrom_padded hwidth (Nat.mod_lt n (by positivity)),
    Option.bind_some]

/-- A printed id holds digits and dashes. -/
theorem uuidText_char (id : Uuid) {c : Char} (hc : c ∈ (uuidText id).toList) :
    hexValue c ≠ none ∨ c = '-' := by
  rw [uuidText_chars] at hc
  simp only [List.cons_append,List.mem_append,List.mem_cons] at hc
  rcases hc with hc | rfl | hc | rfl | hc | rfl | hc | rfl | hc
  all_goals first | exact Or.inr rfl | exact Or.inl (group_digit (by decide) _ hc)

theorem not_mem_uuidText (id : Uuid) {c : Char} (hdigit : hexValue c = none) (hdash : c ≠ '-') :
    c ∉ (uuidText id).toList := by
  intro hc
  exact (uuidText_char id hc).elim (fun h => h hdigit) hdash

theorem without_self {pattern : List Char} {c : Char} (hc : c ∈ pattern) {cs : List Char}
    (h : c ∉ cs) : without pattern 0 cs = cs := by
  induction cs with
  | nil => rfl
  | cons d cs ih =>
    have hmiss : pattern.isPrefixOf (d::cs) = false := by
      rw [Bool.eq_false_iff]
      intro hstart
      exact h ((List.isPrefixOf_iff_prefix.mp hstart).subset hc)
    have hrest : c ∉ cs := fun hmem => h (List.mem_cons_of_mem d hmem)
    simp [without,hmiss,ih hrest]

theorem stripBraces_self {cs : List Char} (h : ∀ c ∈ cs, isBrace c = false) :
    stripBraces cs = cs := by
  have hdrop : ∀ ds : List Char, (∀ c ∈ ds, isBrace c = false) → ds.dropWhile isBrace = ds := by
    intro ds hds
    cases ds with
    | nil => rfl
    | cons d ds => rw [List.dropWhile_cons_of_neg (by simp [hds d List.mem_cons_self])]
  rw [stripBraces,hdrop cs h,hdrop _ (fun c hc => h c (List.mem_reverse.mp hc)),
    List.reverse_reverse]

theorem filter_group {width : ℕ} (hwidth : 0 < width) (n : ℕ) :
    (group width n).filter (· ≠ '-') = group width n := by
  rw [List.filter_eq_self]
  intro c hc
  refine decide_eq_true ?_
  rintro rfl
  exact group_digit hwidth n hc (by decide)

theorem uuidText_digits (id : Uuid) : (uuidText id).toList.filter (· ≠ '-') = group 8 (id/16^24)++
    (group 4 (id/16^20)++(group 4 (id/16^16)++(group 4 (id/16^12)++group 12 id))) := by
  have hdash : ∀ cs : List Char, ('-'::cs).filter (· ≠ '-') = cs.filter (· ≠ '-') :=
    fun cs => List.filter_cons_of_neg (by decide)
  rw [uuidText_chars]
  simp only [List.cons_append,List.filter_append,hdash]
  rw [filter_group (by decide),filter_group (by decide),filter_group (by decide),
    filter_group (by decide),filter_group (by decide)]

/-- A further group continues a number. -/
theorem join_group (n a b : ℕ) : n/16^(a+b)*16^b+n/16^a%16^b = n/16^a := by
  rw [pow_add,← Nat.div_div_eq_div_mul]
  exact Nat.div_add_mod' _ _

theorem readUuid_text {id : Uuid} (h : IsId id) : readUuid (uuidText id).toList = some id := by
  have hcolon : ':' ∉ (uuidText id).toList := not_mem_uuidText id (by decide) (by decide)
  have hbrace : ∀ c ∈ (uuidText id).toList, isBrace c = false := by
    intro c hc
    rw [Bool.eq_false_iff]
    intro hbrace
    rcases Bool.or_eq_true_iff.mp hbrace with heq | heq
    · exact not_mem_uuidText id (by decide) (by decide) (of_decide_eq_true heq ▸ hc)
    · exact not_mem_uuidText id (by decide) (by decide) (of_decide_eq_true heq ▸ hc)
  have hlength : ((uuidText id).toList.filter (· ≠ '-')).length = 32 := by
    rw [uuidText_digits]
    simp [group_length]
  have hfirst : id/16^24 < 16^8 := Nat.div_lt_of_lt_mul (by rw [← pow_add]; exact h)
  have hurn : without "urn:".toList 0 (uuidText id).toList = (uuidText id).toList :=
    without_self (c := ':') (by decide) hcolon
  have huuid : without "uuid:".toList 0 (uuidText id).toList = (uuidText id).toList :=
    without_self (c := ':') (by decide) hcolon
  simp only [readUuid,hurn,huuid,stripBraces_self hbrace,hlength,if_true]
  rw [uuidText_digits,readFrom_group (by decide),readFrom_group (by decide),
    readFrom_group (by decide),readFrom_group (by decide),← List.append_nil (group 12 id),
    readFrom_group (by decide),readFrom,Nat.zero_mul,Nat.zero_add,Nat.mod_eq_of_lt hfirst,
    join_group id 20 4,join_group id 16 4,join_group id 12 4,Nat.div_add_mod']

@[simp] theorem textId_text {id : Uuid} (h : IsId id) : textId (uuidText id) = some id := by
  rw [textId,readUuid_text h,Option.filter_some,if_pos (decide_eq_true rfl)]

theorem uuidText_ne_empty (id : Uuid) : uuidText id ≠ "" := by
  intro h
  have hchars := congrArg String.toList h
  rw [uuidText_chars] at hchars
  simp at hchars

end BlockDocs.UuidTexts
