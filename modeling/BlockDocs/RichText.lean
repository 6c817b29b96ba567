import Mathlib.Data.List.Basic
import Mathlib.Tactic

/-!
# Texts with embeds

A text is a sequence of units, characters and embeds, each with its attributes. Indices
and lengths count units, and the string of a text leaves the embeds out. Characters that
come without attributes take those of the unit to their left.
-/

set_option autoImplicit false

namespace BlockDocs.RichText

variable {χ ε α : Type*}

inductive Content (χ ε : Type*) where
  | char (c : χ)
  | embed (e : ε)
  deriving DecidableEq, Repr

abbrev Text (χ ε α : Type*) := List (Content χ ε × Option α)

def inForce (index : ℕ) (t : Text χ ε α) : Option α := (t.take index).getLast?.bind Prod.snd

/-- With these attributes for all of `s`, if there are any. -/
def chars (s : List χ) (attributes : Option α) : Text χ ε α :=
  s.map (fun c => (.char c,attributes))

def insert (index : ℕ) (s : List χ) (attributes : Option α) (t : Text χ ε α) : Text χ ε α :=
  t.take index++chars s (attributes.or (inForce index t))++t.drop index

def insertEmbed (index : ℕ) (e : ε) (t : Text χ ε α) : Text χ ε α :=
  t.take index++(.embed e,none)::t.drop index

def delete (index length : ℕ) (t : Text χ ε α) : Text χ ε α :=
  t.take index++t.drop (index+length)

def format (index length : ℕ) (f : Option α → Option α) (t : Text χ ε α) : Text χ ε α :=
  t.mapIdx fun i u => if index ≤ i ∧ i < index+length then (u.1,f u.2) else u

def charOf : Content χ ε × Option α → Option χ
  | (.char c,_) => some c
  | (.embed _,_) => none

def string (t : Text χ ε α) : List χ := t.filterMap charOf

variable {s : List χ} {attributes : Option α} {t u : Text χ ε α}

def lastAttributes (t : Text χ ε α) : Option α := t.getLast?.bind Prod.snd

theorem inForce_length (t : Text χ ε α) : inForce t.length t = lastAttributes t := by
  rw [inForce,List.take_length,lastAttributes]

theorem insert_end (s : List χ) (attributes : Option α) (t : Text χ ε α) :
    insert t.length s attributes t = t++chars s (attributes.or (lastAttributes t)) := by
  rw [insert,List.take_length,List.drop_length,List.append_nil,inForce_length]

theorem insertEmbed_end (e : ε) (t : Text χ ε α) :
    insertEmbed t.length e t = t++[(.embed e,none)] := by
  rw [insertEmbed,List.take_length,List.drop_length]

theorem lastAttributes_chars (hs : s ≠ []) :
    lastAttributes (t++chars s attributes) = attributes := by
  rw [lastAttributes,List.getLast?_append,chars,List.getLast?_map,
    List.getLast?_eq_some_getLast hs]
  rfl

theorem lastAttributes_embed (e : ε) :
    lastAttributes (t++[(.embed e,attributes)]) = attributes := by
  rw [lastAttributes,List.getLast?_concat,Option.bind_some]

/-! ## Formats -/

theorem format_contents (index length : ℕ) (f : Option α → Option α) (t : Text χ ε α) :
    (format index length f t).map Prod.fst = t.map Prod.fst := by
  apply List.ext_getElem?
  intro i
  rw [format,List.getElem?_map,List.getElem?_map,List.getElem?_mapIdx,Option.map_map]
  congr 1
  funext u
  change (if _ then _ else _ : Content χ ε × Option α).1 = u.1
  split <;> rfl

theorem format_inside {index length i : ℕ} (f : Option α → Option α) (t : Text χ ε α)
    (h : index ≤ i ∧ i < index+length) :
    (format index length f t)[i]? = t[i]?.map fun u => (u.1,f u.2) := by
  rw [format,List.getElem?_mapIdx]
  simp only [if_pos h]

theorem format_outside {index length i : ℕ} (f : Option α → Option α) (t : Text χ ε α)
    (h : ¬(index ≤ i ∧ i < index+length)) : (format index length f t)[i]? = t[i]? := by
  rw [format,List.getElem?_mapIdx]
  simp only [if_neg h,Option.map_id']

/-! ## Strings -/

theorem string_append (t u : Text χ ε α) : string (t++u) = string t++string u :=
  List.filterMap_append

theorem string_chars (s : List χ) (attributes : Option α) :
    string (chars s attributes : Text χ ε α) = s := by
  rw [string,chars,List.filterMap_map]
  exact List.filterMap_some

def EmbedsLast (t : Text χ ε α) : Prop :=
  t.Pairwise (fun u v => (charOf v).isSome = true → (charOf u).isSome = true)

theorem string_length_drop (t : Text χ ε α) (k : ℕ) :
    (string t).length ≤ k+(string (t.drop k)).length := by
  have hsplit := congrArg List.length (string_append (t.take k) (t.drop k))
  have htake : (string (t.take k)).length ≤ k :=
    (List.length_filterMap_le _ _).trans (List.length_take_le k t)
  rw [List.take_append_drop,List.length_append] at hsplit
  omega

/-- As many units as there are characters hold all of them only where no embed stands
among the characters. -/
theorem string_drop_iff (t : Text χ ε α) :
    string (t.drop (string t).length) = [] ↔ EmbedsLast t := by
  induction t with
  | nil => exact iff_of_true rfl .nil
  | cons u t ih =>
    rw [EmbedsLast,List.pairwise_cons]
    cases hu : charOf u with
    | some c =>
      have hstring : string (u::t) = c::string t := List.filterMap_cons_some hu
      rw [hstring,List.length_cons,List.drop_succ_cons,ih]
      exact (and_iff_right (fun _ _ _ => rfl)).symm
    | none =>
      have hstring : string (u::t) = string t := List.filterMap_cons_none hu
      have hlater : (∀ v ∈ t, (charOf v).isSome = true → (none : Option χ).isSome = true) ↔
          string t = [] := by
        rw [string,List.filterMap_eq_nil_iff]
        refine forall₂_congr fun v _ => ?_
        cases charOf v <;> simp
      rw [hstring,hlater]
      cases hlength : (string t).length with
      | zero =>
        have hnil := List.eq_nil_of_length_eq_zero hlength
        rw [hlength,List.drop_zero] at ih
        rw [List.drop_zero,hstring]
        exact iff_of_true hnil ⟨hnil,ih.mp hnil⟩
      | succ n =>
        have hmore := string_length_drop t n
        rw [List.drop_succ_cons]
        refine iff_of_false (fun hnil => ?_) (fun hnil => ?_)
        · rw [hnil,List.length_nil] at hmore
          omega
        · rw [hnil.1] at hlength
          cases hlength

end BlockDocs.RichText
