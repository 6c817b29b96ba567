import Mathlib.Tactic

/-!
# Claims on slots

Keys sit in slots. Each party sees the shared assignment with its own changes laid
over it, and it must hold a slot before it puts a key into it. Two parties never
hold one slot and never change one key, so what all parties see, and what remains
when one of them publishes its changes, has no slot twice.
-/

set_option autoImplicit false

namespace BlockDocs.SlotClaims

variable {κ σ : Type*}

def Exclusive (f : κ → Option σ) : Prop := ∀ b c p, f b = some p → f c = some p → b = c

/-- A slot that the party sees is the shared one of the key, or the party holds it. -/
def Backed (holds : σ → Prop) (base f : κ → Option σ) : Prop :=
  ∀ b p, f b = some p → base b = some p ∨ holds p

def Covered (holds : σ → Prop) (snapshot f : κ → Option σ) : Prop :=
  ∀ b p, f b = some p → holds p → snapshot b = some p

variable {holds : σ → Prop} {base f g next snapshot : κ → Option σ}

theorem backed_self (holds : σ → Prop) (f : κ → Option σ) : Backed holds f f :=
  fun _ _ h => Or.inl h

theorem covered_self (holds : σ → Prop) (f : κ → Option σ) : Covered holds f f :=
  fun _ _ h _ => h

theorem exclusive_fewer (h : Exclusive f) (hsub : ∀ b p, g b = some p → f b = some p) :
    Exclusive g := fun b c p hb hc => h b c p (hsub b p hb) (hsub c p hc)

theorem backed_fewer (h : Backed holds base f) (hsub : ∀ b p, g b = some p → f b = some p) :
    Backed holds base g := fun b p hb => h b p (hsub b p hb)

/-! ## One key gets a slot -/

section Put

variable {k : κ} (hothers : ∀ b, b ≠ k → g b = f b)

include hothers

theorem exclusive_put (h : Exclusive f) (hfree : ∀ p, g k = some p → ∀ b, b ≠ k → f b ≠ some p) :
    Exclusive g := by
  intro b c p hb hc
  by_cases hbk : b = k
  · by_cases hck : c = k
    · rw [hbk,hck]
    · rw [hothers c hck] at hc
      exact absurd hc (hfree p (hbk ▸ hb) c hck)
  · rw [hothers b hbk] at hb
    by_cases hck : c = k
    · exact absurd hb (hfree p (hck ▸ hc) b hbk)
    · rw [hothers c hck] at hc
      exact h b c p hb hc

theorem backed_put (h : Backed holds base f) (hheld : ∀ p, g k = some p → holds p) :
    Backed holds base g := by
  intro b p hb
  by_cases hbk : b = k
  · exact Or.inr (hheld p (hbk ▸ hb))
  · exact h b p (hothers b hbk ▸ hb)

end Put

/-! ## Another party publishes

`f` is what a party saw and `g` what the publishing one saw. The party now sees
`next`: what it has changed itself as before, all else as published. -/

section Publish

variable {holds' : σ → Prop} {own : κ → Prop}
  (hown : ∀ b, own b → next b = f b ∧ g b = base b) (hrest : ∀ b, ¬own b → next b = g b ∧ f b = base b)
  (hbacked : Backed holds' base g) (hapart : ∀ p, holds p → ¬holds' p)

include hown hrest hbacked hapart

theorem exclusive_publish (hf : Exclusive f) (hg : Exclusive g) (hfb : Backed holds base f) :
    Exclusive next := by
  -- a key of the party and one that it left alone
  have hmixed : ∀ b c p, own b → ¬own c → next b = some p → next c = some p → b = c := by
    intro b c p hb hc hbp hcp
    obtain ⟨hnext,hgb⟩ := hown b hb
    obtain ⟨hnextc,hfc⟩ := hrest c hc
    rw [hnext] at hbp
    rw [hnextc] at hcp
    rcases hbacked c p hcp with hbase | hholds'
    · exact hf b c p hbp (hfc.trans hbase)
    · rcases hfb b p hbp with hbase | hholds
      · exact hg b c p (hgb.trans hbase) hcp
      · exact absurd hholds' (hapart p hholds)
  intro b c p hbp hcp
  by_cases hb : own b
  · by_cases hc : own c
    · exact hf b c p ((hown b hb).1 ▸ hbp) ((hown c hc).1 ▸ hcp)
    · exact hmixed b c p hb hc hbp hcp
  · by_cases hc : own c
    · exact (hmixed c b p hc hb hcp hbp).symm
    · exact hg b c p ((hrest b hb).1 ▸ hbp) ((hrest c hc).1 ▸ hcp)

omit hbacked hapart in
theorem backed_publish (hfb : Backed holds base f) : Backed holds g next := by
  intro b p hbp
  by_cases hb : own b
  · obtain ⟨hnext,hgb⟩ := hown b hb
    rw [hgb]
    exact hfb b p (hnext ▸ hbp)
  · exact Or.inl ((hrest b hb).1 ▸ hbp)

theorem covered_publish (h : Covered holds snapshot f) : Covered holds snapshot next := by
  intro b p hbp hholds
  by_cases hb : own b
  · exact h b p ((hown b hb).1 ▸ hbp) hholds
  · obtain ⟨hnext,hfb⟩ := hrest b hb
    rcases hbacked b p (hnext ▸ hbp) with hbase | hholds'
    · exact h b p (hfb.trans hbase) hholds
    · exact absurd hholds' (hapart p hholds)

end Publish

end BlockDocs.SlotClaims
