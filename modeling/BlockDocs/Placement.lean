import BlockDocs.Acceptance
import BlockDocs.Accounts
import BlockDocs.EarlyRanks
import BlockDocs.RankWidth
import BlockDocs.StrictRanks

/-!
# Where a block can be placed

The parent and the anchor have to be known. What is left to the rows is whether
the ranks around the place leave room and how deep the parent lies.
-/

set_option autoImplicit false

namespace BlockDocs.Placement
open BlockDocs.LexoRank BlockDocs.Wire BlockDocs.DocBlocks BlockDocs.ApplyOps
open BlockDocs.Reachability BlockDocs.EarlyRanks BlockDocs.StrictRanks BlockDocs.RankWidth
open BlockDocs.PositionCollision BlockDocs.Acceptance BlockDocs.Accounts

/-! ## Ranks in the alphabet -/

theorem midpoint_inAlphabet : MidpointClosed InAlphabet := by
  intro left right m hl hr h
  cases left with
  | none =>
    cases right with
    | none =>
      cases h
      exact inAlphabet_cons (by decide) nofun
    | some r =>
      obtain ⟨m',hm',hin⟩ := before_ok (hr r rfl)
      cases hm'.symm.trans h
      exact hin
  | some l =>
    cases right with
    | none =>
      cases h
      exact inAlphabet_after (hl l rfl)
    | some r =>
      simp only [LexoRank.midpoint] at h
      split at h
      · cases h
      · exact (between_fresh (inAlphabet_pad (hl l rfl) _) h).1

theorem midpoint_answers_iff {left right : Option Rank} (hl : ∀ l ∈ left, InAlphabet l)
    (hr : ∀ r ∈ right, InAlphabet r) (hlt : ∀ l r, left = some l → right = some r → l < r) :
    (∃ m, midpoint left right = .ok m) ↔ ∀ l ∈ left, ∀ r ∈ right, ¬FloorExtends l r := by
  cases left with
  | none =>
    refine iff_of_true ?_ (fun l h => nomatch h)
    cases right with
    | none => exact ⟨_,rfl⟩
    | some r =>
      obtain ⟨m,hm,_⟩ := before_ok (hr r rfl)
      exact ⟨m,hm⟩
  | some l =>
    cases right with
    | none => exact iff_of_true ⟨_,rfl⟩ (fun _ _ r h => nomatch h)
    | some r =>
      have habove := hlt l r rfl rfl
      constructor
      · rintro ⟨m,hm⟩ l' hl' r' hr' hext
        cases hl'
        cases hr'
        obtain ⟨e,he⟩ := midpoint_extends (hr r rfl) habove hext
        cases he.symm.trans hm
      · exact fun h => midpoint_ok (hl l rfl) (hr r rfl) habove (h l rfl r rfl)

/-! ## The place of an operation -/

/-- The ranks found around the place leave room for one that fits the column,
and the depth of the block fits its own. -/
structure Roomy (t : Table) (docId : DocId) (b : Uuid) (parentId afterId : Option Uuid) :
    Prop where
  depth : ∀ d, parentDepth t docId parentId = .ok d → d ≤ 32767
  rank : ∀ left right, neighbours t docId parentId afterId = some (left,right) →
    Room positionWidth left right ∧ ∀ l ∈ left, ∀ r ∈ right, ¬FloorExtends l r
  apart : ¬ (parentId ≠ none ∧ afterId = none ∧ FloorTaken t docId parentId b)

variable {t : Table} {docId : DocId} {b : Uuid} {parentId afterId : Option Uuid}

theorem parentDepth_ok_iff : (∃ d, parentDepth t docId parentId = .ok d) ↔
    Known (accountOf t docId) parentId := by
  cases parentId with
  | none => exact iff_of_true ⟨0,rfl⟩ trivial
  | some p =>
    cases hf : t.find docId p with
    | none => simp [parentDepth,Known,accountOf,hf]
    | some r => simp [parentDepth,Known,accountOf,hf]

theorem neighbours_some_iff : (∃ left right,
    neighbours t docId parentId afterId = some (left,right)) ↔
      Known (accountOf t docId) afterId := by
  cases afterId with
  | none => exact iff_of_true ⟨_,_,rfl⟩ trivial
  | some a =>
    cases hf : t.find docId a with
    | none => simp [neighbours,Known,accountOf,hf]
    | some r => simp [neighbours,Known,accountOf,hf]

theorem neighbours_ranks {P : Rank → Prop} (h : RowRanks P t.rows) {left right : Option Rank}
    (hn : neighbours t docId parentId afterId = some (left,right)) :
    (∀ l ∈ left, P l) ∧ ∀ r ∈ right, P r := by
  cases afterId with
  | none =>
    cases hn
    exact ⟨nofun,nextPosition_ranks h⟩
  | some a =>
    obtain ⟨row,hf,hpair⟩ := Option.map_eq_some_iff.mp hn
    cases hpair
    refine ⟨fun l hl => ?_,nextPosition_ranks h⟩
    cases hl
    exact h row ((find_some_iff _ _ _ _).mp hf).1

theorem position_fits_iff (h : RowRanks InAlphabet t.rows) :
    (∃ p, computePosition t docId parentId afterId = .ok p ∧ p.length ≤ positionWidth) ↔
      Known (accountOf t docId) afterId ∧ ∀ left right,
        neighbours t docId parentId afterId = some (left,right) →
          Room positionWidth left right ∧ ∀ l ∈ left, ∀ r ∈ right, ¬FloorExtends l r := by
  rw [← @neighbours_some_iff t docId parentId afterId]
  constructor
  · rintro ⟨p,hp,hlen⟩
    obtain ⟨left,right,hn,hm⟩ := computePosition_neighbours.mp hp
    refine ⟨⟨left,right,hn⟩,?_⟩
    intro left' right' hn'
    cases hn.symm.trans hn'
    obtain ⟨hl,hr,hlt⟩ := neighbours_fit hn
    obtain ⟨hal,har⟩ := neighbours_ranks h hn
    refine ⟨(midpoint_fits_iff (by decide) hl hr hlt).mp ?_,
      (midpoint_answers_iff hal har hlt).mp ⟨p,hm⟩⟩
    intro m hm'
    cases hm.symm.trans hm'
    exact hlen
  · rintro ⟨⟨left,right,hn⟩,hroom⟩
    obtain ⟨hfits,hext⟩ := hroom left right hn
    obtain ⟨hl,hr,hlt⟩ := neighbours_fit hn
    obtain ⟨hal,har⟩ := neighbours_ranks h hn
    obtain ⟨m,hm⟩ := (midpoint_answers_iff hal har hlt).mpr hext
    exact ⟨m,computePosition_neighbours.mpr ⟨left,right,hn,hm⟩,
      (midpoint_fits_iff (by decide) hl hr hlt).mpr hfits m hm⟩

theorem hasPlace_iff (h : RowRanks InAlphabet t.rows) {payload : Payload}
    (hparent : payload.parentId = .ofOption parentId)
    (hafter : payload.afterId = .ofOption afterId) :
    HasPlace t docId b payload ↔ Known (accountOf t docId) parentId ∧
      Known (accountOf t docId) afterId ∧ Roomy t docId b parentId afterId := by
  have hposition := @position_fits_iff t docId parentId afterId h
  constructor
  · rintro ⟨p,a,d,position,hp,ha,hd,hdeep,hcomputed,hlen,hfree⟩
    cases ofOption_inj (hparent.symm.trans hp)
    cases ofOption_inj (hafter.symm.trans ha)
    obtain ⟨hknown,hroom⟩ := hposition.mp ⟨position,hcomputed,hlen⟩
    refine ⟨parentDepth_ok_iff.mp ⟨d,hd⟩,hknown,⟨?_,hroom,hfree⟩⟩
    intro d' hd'
    cases hd.symm.trans hd'
    exact hdeep
  · rintro ⟨hp,ha,hroomy⟩
    obtain ⟨d,hd⟩ := parentDepth_ok_iff.mpr hp
    obtain ⟨position,hcomputed,hlen⟩ := hposition.mpr ⟨ha,hroomy.rank⟩
    exact ⟨parentId,afterId,d,position,hparent,hafter,hd,hroomy.depth d hd,hcomputed,hlen,
      hroomy.apart⟩

/-! ## Documents with room everywhere -/

def Airy (t : Table) : Prop :=
  ∀ r ∈ t.rows, r.position.length < positionWidth ∧ r.position ≠ [] ∧ minChar ∉ r.position ∧
    r.depth < 32767

instance (t : Table) : Decidable (Airy t) := inferInstanceAs (Decidable (∀ r ∈ t.rows, _))

theorem airy_roomy (h : Airy t) : Roomy t docId b parentId afterId where
  depth d hd := by
    cases parentId with
    | none =>
      cases hd
      omega
    | some p =>
      obtain ⟨q,hq,_,_,rfl⟩ := parentDepth_found hd
      exact (h q hq).2.2.2
  rank left right hn := by
    obtain ⟨hl,hr⟩ := neighbours_ranks
      (P := fun p => p.length < positionWidth ∧ minChar ∉ p)
      (fun r hr => ⟨(h r hr).1,(h r hr).2.2.1⟩) hn
    constructor
    · cases left with
      | none =>
        cases right with
        | none => trivial
        | some r => exact fun _ => (hr r rfl).1
      | some l =>
        cases right with
        | none => exact (hl l rfl).1
        | some r => exact fun _ => max_lt (hl l rfl).1 (hr r rfl).1
    · rintro l _ r hright ⟨k,hk,rfl⟩
      refine (hr _ hright).2 (List.mem_append_right _ ?_)
      exact List.mem_replicate.mpr ⟨by omega,rfl⟩
  apart := by
    rintro ⟨_,_,z,hz,hfloor,_⟩
    obtain ⟨r,hr,rfl⟩ := nextPosition_mem hz
    obtain ⟨_,hne,hnot,_⟩ := h r (mem_siblings.mp hr).1
    obtain ⟨c,hc⟩ := List.exists_mem_of_ne_nil _ hne
    exact hnot (hfloor c hc ▸ hc)

end BlockDocs.Placement
