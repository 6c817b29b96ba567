import Mathlib.Data.List.Nodup
import Mathlib.Tactic

/-!
# Deliveries that are repeated

A receiver takes events one by one, and any event may come again after its
first delivery. Where an event that has an effect makes all earlier ones
ineffective, itself included, the repetitions do not count.
-/

set_option autoImplicit false

namespace BlockDocs.RepeatedDelivery

variable {S E : Type*} [DecidableEq E]

def firsts : List E → List E → List E
  | _, [] => []
  | seen, e::es => if e ∈ seen then firsts seen es else e::firsts (e::seen) es

def Absorbs (step : S → E → S) (before : E → E → Prop) : Prop :=
  ∀ s e e', step s e' ≠ s → e = e' ∨ before e e' → step (step s e') e = step s e'

theorem mem_firsts {e : E} {es : List E} : ∀ {seen : List E},
    e ∈ firsts seen es ↔ e ∈ es ∧ e ∉ seen := by
  induction es with
  | nil => simp [firsts]
  | cons f es ih =>
    intro seen
    unfold firsts
    split
    · next hf =>
      rw [ih,List.mem_cons]
      constructor
      · exact fun h => ⟨Or.inr h.1,h.2⟩
      · rintro ⟨rfl | he,hnew⟩
        · exact absurd hf hnew
        · exact ⟨he,hnew⟩
    · next hf =>
      rw [List.mem_cons,ih,List.mem_cons,List.mem_cons]
      by_cases he : e = f
      · subst he
        simp [hf]
      · simp [he]

variable {step : S → E → S} {before : E → E → Prop}

/-- What has been seen is ineffective now, and comes before what is to come. -/
theorem foldl_firsts (h : Absorbs step before) (es : List E) : ∀ {s : S} {seen : List E},
    (∀ e ∈ seen, step s e = s) → (∀ e ∈ seen, ∀ f ∈ firsts seen es, before e f) →
    (firsts seen es).Pairwise before → es.foldl step s = (firsts seen es).foldl step s := by
  induction es with
  | nil => exact fun _ _ _ => rfl
  | cons e es ih =>
    intro s seen hseen hbefore hpairwise
    unfold firsts at hbefore hpairwise ⊢
    by_cases he : e ∈ seen
    · rw [if_pos he] at hbefore hpairwise ⊢
      rw [List.foldl_cons,hseen e he]
      exact ih hseen hbefore hpairwise
    · rw [if_neg he] at hbefore hpairwise ⊢
      obtain ⟨hfirst,hrest⟩ := List.pairwise_cons.mp hpairwise
      rw [List.foldl_cons,List.foldl_cons]
      refine ih ?_ ?_ hrest
      · intro f hf
        by_cases heffect : step s e = s
        · rw [heffect]
          rcases List.mem_cons.mp hf with rfl | hf
          · exact heffect
          · exact hseen f hf
        · refine h s f e heffect ?_
          rcases List.mem_cons.mp hf with rfl | hf
          · exact Or.inl rfl
          · exact Or.inr (hbefore f hf e List.mem_cons_self)
      · intro f hf g hg
        rcases List.mem_cons.mp hf with rfl | hf
        · exact hfirst g hg
        · exact hbefore f hf g (List.mem_cons_of_mem _ hg)

/-- The deliveries in any list come to the same as each event once, in order. -/
theorem foldl_once (h : Absorbs step before) (hasymm : ∀ e f, before e f → ¬before f e)
    {es once : List E} (hfirsts : (firsts [] es).Pairwise before) (honce : once.Pairwise before)
    (hsame : ∀ e, e ∈ once ↔ e ∈ es) (s : S) : es.foldl step s = once.foldl step s := by
  have hirrefl : ∀ e, ¬before e e := fun e he => hasymm e e he he
  have hnodup : ∀ {l : List E}, l.Pairwise before → l.Nodup := by
    intro l hl
    refine hl.imp ?_
    rintro e f hef rfl
    exact hirrefl e hef
  have hperm : (firsts [] es).Perm once := by
    refine (List.perm_ext_iff_of_nodup (hnodup hfirsts) (hnodup honce)).mpr fun e => ?_
    rw [mem_firsts,hsame]
    simp
  have heq : firsts [] es = once :=
    hperm.eq_of_pairwise (fun e f _ _ hef hfe => absurd hfe (hasymm e f hef)) hfirsts honce
  rw [foldl_firsts h es (List.forall_mem_nil _) (List.forall_mem_nil _) hfirsts,heq]

end BlockDocs.RepeatedDelivery
