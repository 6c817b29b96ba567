import BlockDocs.Decimal
import BlockDocs.Wire
import Mathlib.Data.List.TakeWhile

/-!
# Texts of stream ids

An id is printed as two decimal numbers. A reader takes an id without a
sequence part for the first one of its millisecond.
-/

set_option autoImplicit false

namespace BlockDocs.StreamIds
open BlockDocs.Wire BlockDocs.Decimal

def idText (id : StreamId) : List Char := decimal (ofLex id).1++ '-'::decimal (ofLex id).2

def readStreamId (text : List Char) : Option StreamId :=
  let ms := text.takeWhile (· ≠ '-')
  match text.dropWhile (· ≠ '-') with
  | [] => (readDecimal ms).map (fun m => toLex (m,0))
  | _::seq => (readDecimal ms).bind (fun m => (readDecimal seq).map (fun n => toLex (m,n)))

theorem decimal_ne_dash {n : ℕ} {c : Char} (h : c ∈ decimal n) : (c ≠ '-' : Bool) = true := by
  refine decide_eq_true ?_
  rintro rfl
  exact not_mem_decimal (by decide) n h

@[simp] theorem readStreamId_idText (id : StreamId) : readStreamId (idText id) = some id := by
  have hms : (idText id).takeWhile (· ≠ '-') = decimal (ofLex id).1 := by
    rw [idText,List.takeWhile_append_of_pos (fun _ => decimal_ne_dash),
      List.takeWhile_cons_of_neg (by decide),List.append_nil]
  have hrest : (idText id).dropWhile (· ≠ '-') = '-'::decimal (ofLex id).2 := by
    rw [idText,List.dropWhile_append_of_pos (fun _ => decimal_ne_dash),
      List.dropWhile_cons_of_neg (by decide)]
  rw [readStreamId,hms,hrest]
  simp only [readDecimal_decimal,Option.bind_some,Option.map_some]
  rfl

end BlockDocs.StreamIds
