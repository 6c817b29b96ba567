import Mathlib.Logic.Relation
import Mathlib.Tactic

/-!
# Parent chains

`up x none` says that `x` is a root and `up x (some p)` that `p` is its
parent. Rootedness is well-founded climbing; giving one node another parent
keeps it exactly when the new parent is not below that node.
-/

set_option autoImplicit false

namespace BlockDocs.ParentChain

variable {α : Type*} {up next : α → Option α → Prop}

inductive Rooted (up : α → Option α → Prop) : α → Prop where
  | root {x : α} : up x none → Rooted up x
  | child {x p : α} : up x (some p) → Rooted up p → Rooted up x

def Parent (up : α → Option α → Prop) (x p : α) : Prop := up x (some p)

def Climbs (up : α → Option α → Prop) : α → α → Prop := Relation.ReflTransGen (Parent up)

def Functional (up : α → Option α → Prop) : Prop := ∀ x o o', up x o → up x o' → o = o'

theorem rooted_not_own_ancestor (hf : Functional up) {x : α} (h : Rooted up x) :
    ¬ Relation.TransGen (Parent up) x x := by
  induction h with
  | root hx =>
    intro hc
    obtain ⟨p,hp,_⟩ := Relation.TransGen.head'_iff.mp hc
    exact absurd (hf _ _ _ hx hp) (by simp)
  | @child x p hx _ ih =>
    intro hc
    obtain ⟨q,hq,hqx⟩ := Relation.TransGen.head'_iff.mp hc
    obtain rfl : p = q := Option.some.inj (hf _ _ _ hx hq)
    exact ih (Relation.TransGen.tail'_iff.mpr ⟨x,hqx,hx⟩)

theorem rooted_transfer {x : α} (h : Rooted up x)
    (hagree : ∀ y, Climbs up x y → ∀ o, up y o → next y o) : Rooted next x := by
  induction h with
  | root hx => exact .root (hagree _ .refl _ hx)
  | child hx _ ih =>
    exact .child (hagree _ .refl _ hx) (ih (fun y hy => hagree y (.head hx hy)))

theorem rooted_reparent {b x : α} (hagree : ∀ y, y ≠ b → ∀ o, up y o → next y o)
    (hb : Rooted next b) (h : Rooted up x) : Rooted next x := by
  induction h with
  | @root x hx =>
    by_cases hxb : x = b
    · exact hxb ▸ hb
    · exact .root (hagree x hxb _ hx)
  | @child x p hx _ ih =>
    by_cases hxb : x = b
    · exact hxb ▸ hb
    · exact .child (hagree x hxb _ hx) ih

theorem rooted_outside {b p : α} (hagree : ∀ y, y ≠ b → ∀ o, up y o → next y o)
    (hp : Rooted up p) (hout : ¬ Climbs up p b) : Rooted next p := by
  apply rooted_transfer hp
  intro y hy o ho
  apply hagree y _ o ho
  rintro rfl
  exact hout hy

/-- A node is taken away, and its children get its parent, or none. -/
theorem rooted_promoted {b x : α} {o : Option α} (hf : Functional up) (ho : o = none ∨ up b o)
    (hother : ∀ y p, y ≠ b → up y p → p ≠ some b → next y p)
    (hkid : ∀ y, y ≠ b → up y (some b) → next y o) (h : Rooted up x) (hx : x ≠ b) :
    Rooted next x := by
  -- for the node itself the induction carries that what its children get is rooted
  suffices hboth : (x ≠ b → Rooted next x) ∧ (x = b → ∀ q, o = some q → Rooted next q) from
    hboth.1 hx
  clear hx
  induction h with
  | @root x hroot =>
    refine ⟨fun hne => .root (hother x none hne hroot (Option.some_ne_none b).symm),?_⟩
    rintro rfl q rfl
    rcases ho with hnone | hparent
    · cases hnone
    · cases hf _ _ _ hroot hparent
  | @child x p hchild hp ih =>
    constructor
    · intro hne
      by_cases hpb : p = b
      · subst hpb
        have hnext := hkid x hne hchild
        cases o with
        | none => exact .root hnext
        | some q => exact .child hnext (ih.2 rfl q rfl)
      · exact .child (hother x (some p) hne hchild (fun heq => hpb (Option.some.inj heq)))
          (ih.1 hpb)
    · rintro rfl q rfl
      rcases ho with hnone | hparent
      · cases hnone
      · obtain rfl := Option.some.inj (hf _ _ _ hchild hparent)
        refine ih.1 ?_
        rintro rfl
        exact rooted_not_own_ancestor hf hp (.single hchild)

/-- No chain leads over a node without children, unless it starts there. -/
theorem rooted_leaf {b x : α} (hagree : ∀ y, y ≠ b → ∀ o, up y o → next y o)
    (hleaf : ∀ y, ¬up y (some b)) (h : Rooted up x) (hx : x ≠ b) : Rooted next x := by
  refine rooted_outside hagree h (fun hclimbs => ?_)
  rcases Relation.ReflTransGen.cases_tail hclimbs with heq | ⟨y,_,hy⟩
  · exact hx heq.symm
  · exact hleaf y hy

theorem climbs_transfer {b p : α} (hagree : ∀ y, y ≠ b → ∀ o, up y o → next y o)
    (h : Climbs up p b) : Climbs next p b := by
  induction h using Relation.ReflTransGen.head_induction_on with
  | refl => exact .refl
  | @head x q hx _ ih =>
    by_cases hxb : x = b
    · exact hxb ▸ .refl
    · exact .head (hagree x hxb _ hx) ih

/-- A node hung below itself has no root any more. -/
theorem not_rooted_of_climbs {b p : α} (hf : Functional next)
    (hagree : ∀ y, y ≠ b → ∀ o, up y o → next y o) (hb : next b (some p))
    (h : Climbs up p b) : ¬ Rooted next b :=
  fun hr => rooted_not_own_ancestor hf hr
    (Relation.TransGen.head' hb (climbs_transfer hagree h))

end BlockDocs.ParentChain
