import BlockDocs.SiblingOrder

/-!
# Ranks and the width of the position column

A computed rank is longer than its neighbours only at the end of a list, below
a floor rank and between neighbouring characters. No operation shortens
ranks, so the column bounds how often these cases may follow each other.
-/

set_option autoImplicit false

namespace BlockDocs.RankWidth
open BlockDocs.LexoRank BlockDocs.Wire BlockDocs.DocBlocks BlockDocs.ApplyOps
open BlockDocs.BlockForest BlockDocs.GuardedRun

def neighbours (t : Table) (docId : DocId) (parentId : Option Uuid) :
    Option Uuid → Option (Option Rank × Option Rank)
  | none => some (none,nextPosition t docId parentId none)
  | some afterId => (t.find docId afterId).map (fun r =>
      (some r.position,nextPosition t docId parentId (some r.position)))

def RankFits (db : Database) (c : Call) : Prop :=
  ∀ parentId afterId, Reaches db c.docId c.op parentId afterId →
    ∀ p, computePosition db.blocks c.docId parentId afterId = .ok p → p.length ≤ positionWidth

def RoomBetween (db : Database) (c : Call) : Prop :=
  ∀ parentId afterId, Reaches db c.docId c.op parentId afterId →
    ∀ left right, neighbours db.blocks c.docId parentId afterId = some (left,right) →
      Room positionWidth left right

theorem computePosition_neighbours {t : Table} {docId : DocId} {parentId afterId : Option Uuid}
    {p : Rank} : computePosition t docId parentId afterId = .ok p ↔
      ∃ left right, neighbours t docId parentId afterId = some (left,right) ∧
        midpoint left right = .ok p := by
  cases afterId with
  | none => simp [computePosition_head,neighbours]
  | some a =>
    cases hf : t.find docId a with
    | none => simp [computePosition,neighbours,hf]
    | some r => simp [computePosition,neighbours,hf,rank_ok]

theorem nextPosition_fits {t : Table} {docId : DocId} {parentId : Option Uuid}
    {left : Option Rank} {z : Rank} (h : nextPosition t docId parentId left = some z) :
    z.length ≤ positionWidth := by
  obtain ⟨r,hr,rfl⟩ := nextPosition_mem h
  exact (t.fits r (mem_siblings.mp hr).1).1

theorem neighbours_fit {t : Table} {docId : DocId} {parentId afterId : Option Uuid}
    {left right : Option Rank} (h : neighbours t docId parentId afterId = some (left,right)) :
    (∀ l, left = some l → l.length ≤ positionWidth) ∧
      (∀ r, right = some r → r.length ≤ positionWidth) ∧
      ∀ l r, left = some l → right = some r → l < r := by
  cases afterId with
  | none =>
    obtain ⟨rfl,rfl⟩ := Prod.mk.inj (Option.some.inj h)
    exact ⟨fun l hl => absurd hl (by simp),fun r hr => nextPosition_fits hr,
      fun l r hl => absurd hl (by simp)⟩
  | some a =>
    obtain ⟨row,hf,hpair⟩ := Option.map_eq_some_iff.mp h
    obtain ⟨rfl,rfl⟩ := Prod.mk.inj hpair
    have hrow := ((find_some_iff _ _ _ _).mp hf).1
    refine ⟨fun l hl => ?_,fun r hr => nextPosition_fits hr,fun l r hl hr => ?_⟩
    · exact Option.some.inj hl ▸ (t.fits row hrow).1
    · exact Option.some.inj hl ▸ (nextPosition_above hr).2.1

theorem rankFits_iff_room (db : Database) (c : Call) : RankFits db c ↔ RoomBetween db c := by
  have hone : ∀ left right parentId afterId,
      neighbours db.blocks c.docId parentId afterId = some (left,right) →
      ((∀ p, midpoint left right = .ok p → p.length ≤ positionWidth) ↔
        Room positionWidth left right) := by
    intro left right parentId afterId h
    obtain ⟨hl,hr,hlt⟩ := neighbours_fit h
    exact midpoint_fits_iff (by decide) hl hr hlt
  constructor
  · intro h parentId afterId hreach left right hn
    rw [← hone left right parentId afterId hn]
    exact fun p hp => h parentId afterId hreach p
      (computePosition_neighbours.mpr ⟨left,right,hn,hp⟩)
  · intro h parentId afterId hreach p hp
    obtain ⟨left,right,hn,hmid⟩ := computePosition_neighbours.mp hp
    exact (hone left right parentId afterId hn).mpr (h parentId afterId hreach left right hn) p hmid

/-- Every position computed in a run fits the column exactly when every step
of the run leaves room between the neighbours it finds. -/
theorem ranks_fit_iff_room_throughout (documents : List DocId) (users : List UserId)
    (calls : List Call) :
    Along call RankFits (.initial documents users) calls ↔
      Along call RoomBetween (.initial documents users) calls :=
  along_congr rankFits_iff_room

def leapfrog (moves : ℕ) : List Call :=
  [⟨1,1,placeAfter .insert_block 1 none⟩,⟨1,1,placeAfter .insert_block 2 (some 1)⟩]++
    (List.range moves).map (fun i => ⟨1,1,placeAfter .move_block (i%2+1) (some (2-i%2))⟩)

/-- After 62 such moves the next rank has 65 characters, and the move fails
with an uncaught exception. -/
theorem leapfrog_outgrows_column :
    ∃ db p, exec call (.initial [1] [1]) (leapfrog 62) = some db ∧
      Reaches db 1 (placeAfter .move_block 1 (some 2)) none (some 2) ∧
      computePosition db.blocks 1 none (some 2) = .ok p ∧ p.length = 65 ∧
      applyOp db 1 1 (placeAfter .move_block 1 (some 2)) = .error .raised := by
  have h : ((exec call (.initial [1] [1]) (leapfrog 62)).any (fun db =>
      (∃ r ∈ db.blocks.rows, r.blockId = 1 ∧ r.docId = 1) ∧
        (computePosition db.blocks 1 none (some 2)).toOption.any (fun p => p.length = 65) ∧
        isRaised (applyOp db 1 1 (placeAfter .move_block 1 (some 2))))) = true := by
    decide +kernel
  obtain ⟨db,hdb,hfacts⟩ := (Option.any_eq_true _ _).mp h
  obtain ⟨⟨r,hr,hid,hdoc⟩,hp,hraised⟩ := of_decide_eq_true hfacts
  obtain ⟨p,hp,hlen⟩ := ok_of_any hp
  refine ⟨db,p,hdb,⟨rfl,rfl,⟨0,rfl⟩,Or.inr ⟨rfl,r,hr,?_,hdoc,?_⟩⟩,hp,of_decide_eq_true hlen,
    raised_of_isRaised hraised⟩
  · rw [hid]; rfl
  · exact fun v hv => nomatch hv

end BlockDocs.RankWidth
