import Mathlib.Data.List.Basic
import Mathlib.Tactic

/-!
# Partners in order

Every element of one list has a partner in another list, and the partners stand in the
order of the elements. Neighbours may share a partner.
-/

set_option autoImplicit false

namespace BlockDocs.KeptInOrder

variable {α β : Type*} {R : α → β → Prop} {t : α} {c : β} {ts us : List α} {cs ds : List β}

inductive Kept (R : α → β → Prop) : List α → List β → Prop where
  | done (cs : List β) : Kept R [] cs
  | here {t : α} {ts : List α} {c : β} {cs : List β} (hR : R t c)
      (h : Kept R ts (c::cs)) : Kept R (t::ts) (c::cs)
  | skip {ts : List α} {c : β} {cs : List β} (h : Kept R ts cs) :
      Kept R ts (c::cs)

theorem kept_behind (cs : List β) (h : Kept R ts ds) : Kept R ts (cs++ds) := by
  induction cs with
  | nil => exact h
  | cons c cs ih => exact .skip ih

theorem kept_append (h : Kept R ts cs) (h' : Kept R us ds) :
    Kept R (ts++us) (cs++ds) := by
  induction h with
  | done cs => exact kept_behind cs h'
  | here hR _ ih => exact .here hR ih
  | skip _ ih => exact .skip ih

/-- All elements with one partner. -/
theorem kept_single (h : ∀ t ∈ ts, R t c) : Kept R ts [c] := by
  induction ts with
  | nil => exact .done _
  | cons t ts ih =>
    obtain ⟨ht,hrest⟩ := List.forall_mem_cons.mp h
    exact .here ht (ih hrest)

theorem kept_sublist (hsub : us.Sublist ts) (h : Kept R ts cs) : Kept R us cs := by
  induction h generalizing us with
  | done cs =>
    rw [List.sublist_nil.mp hsub]
    exact .done cs
  | here hR _ ih =>
    cases hsub with
    | cons _ hsub => exact ih hsub
    | cons_cons _ hsub => exact .here hR (ih hsub)
  | skip _ ih => exact .skip (ih hsub)

theorem kept_of_sublist (hsub : cs.Sublist ds) (h : Kept R ts cs) : Kept R ts ds := by
  induction hsub generalizing ts with
  | slnil => exact h
  | cons d _ ih => exact .skip (ih h)
  | @cons_cons cs ds d hsub ih =>
    induction ts with
    | nil => exact .done _
    | cons t ts iht =>
      cases h with
      | here hR hrest => exact .here hR (iht hrest)
      | skip hrest => exact .skip (ih hrest)

theorem kept_mem (h : Kept R ts cs) (ht : t ∈ ts) : ∃ c ∈ cs, R t c := by
  induction h with
  | done cs => cases ht
  | here hR _ ih =>
    rcases List.mem_cons.mp ht with rfl | ht
    · exact ⟨_,List.mem_cons_self,hR⟩
    · exact ih ht
  | skip _ ih =>
    obtain ⟨c,hc,hR⟩ := ih ht
    exact ⟨c,List.mem_cons_of_mem _ hc,hR⟩

/-- What is no partner of any element can be left out. -/
theorem kept_filter {p : α → Bool} {q : β → Bool} (hpq : ∀ t c, R t c → p t = true → q c = true)
    (h : Kept R ts cs) : Kept R (ts.filter p) (cs.filter q) := by
  induction h with
  | done cs => exact .done _
  | @here t ts c cs hR _ ih =>
    by_cases ht : p t = true
    · rw [List.filter_cons_of_pos (hpq t c hR ht)] at ih ⊢
      rw [List.filter_cons_of_pos ht]
      exact .here hR ih
    · rw [List.filter_cons_of_neg ht]
      exact ih
  | @skip ts c cs _ ih =>
    by_cases hc : q c = true
    · rw [List.filter_cons_of_pos hc]
      exact .skip ih
    · rw [List.filter_cons_of_neg hc]
      exact ih

/-- Two elements whose partners are not in that order. -/
theorem not_kept_pair {u : α} (htu : ¬(R t c ∧ R u c)) (hu : ∀ d ∈ cs, ¬R u d) :
    ¬Kept R [t,u] (c::cs) := by
  intro h
  cases h with
  | here hR hrest =>
    obtain ⟨d,hd,hud⟩ := kept_mem hrest List.mem_cons_self
    rcases List.mem_cons.mp hd with rfl | hd
    · exact htu ⟨hR,hud⟩
    · exact hu d hd hud
  | skip hrest =>
    obtain ⟨d,hd,hud⟩ := kept_mem hrest (List.mem_cons_of_mem _ List.mem_cons_self)
    exact hu d hd hud

end BlockDocs.KeptInOrder
