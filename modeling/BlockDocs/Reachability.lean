import BlockDocs.PostOperations
import BlockDocs.Consumer

/-!
# Reachable databases

The doc_blocks table is written by applied operations and by the consumer.
Versions start at one and only grow, and a block and its parent belong to one
document.
-/

set_option autoImplicit false

namespace BlockDocs.Reachability
open BlockDocs.Wire BlockDocs.DocBlocks BlockDocs.ApplyOps BlockDocs.PostOperations
open BlockDocs.Crdt BlockDocs.Consumer

inductive Reachable (documents : List DocId) (users : List UserId) : Database → Prop where
  | initial : Reachable documents users (.initial documents users)
  | operation {db next : Database} {docId : DocId} {userId : UserId} {op : BlockOperation}
      {a : AppliedOp} (hdb : Reachable documents users db)
      (hop : applyOp db docId userId op = .ok (a,next)) : Reachable documents users next
  | consumed {db : Database} {docId : DocId} {entry : StreamEntry} {t : Table} (py : Pycrdt)
      (hdb : Reachable documents users db)
      (hentry : handleEntry py db.blocks docId entry = .updated t) :
      Reachable documents users { db with blocks := t }

variable {documents : List DocId} {users : List UserId}

theorem settle_reachable {db : Database} (h : Reachable documents users db) (docId : DocId)
    (userId : UserId) (ops : List BlockOperation) :
    Reachable documents users (settle docId userId db ops) := by
  induction ops generalizing db with
  | nil => exact h
  | cons op ops ih =>
    unfold settle
    split
    · next a next hok => exact ih (.operation h hok)
    · exact ih h

theorem posted_reachable {db : Database} {docId : DocId} {userId : UserId}
    {ops : List BlockOperation} {posted : Posted} (h : Reachable documents users db)
    (hpost : postOperations db docId userId ops = some posted) :
    Reachable documents users posted.database := by
  obtain ⟨⟨outcomes,tx⟩,hall,heq⟩ := Option.bind_eq_some_iff.mp hpost
  cases heq
  have hended := (applyAll_ended hall).1
  cases hended with
  | sound _ => exact settle_reachable h docId userId ops
  | failed _ => exact h

/-- What the rows satisfy is an invariant if the five kinds of write keep it. -/
structure Kept (I : List BlockRow → Prop) : Prop where
  empty : I []
  append : ∀ (t : Table) (row : BlockRow), I t.rows → (∀ r ∈ t.rows, r.blockId ≠ row.blockId) →
    (∀ p ∈ row.parentId, ∃ q ∈ t.rows, q.docId = row.docId ∧ q.blockId = p) →
    row.version = 1 → I (t.rows++[row])
  sublist : ∀ rows next : List BlockRow, I rows → next.Sublist rows → I next
  moved : ∀ (t : Table) (docId : DocId) (parentId : Option Uuid) (position : LexoRank.Rank)
    (depth : ℕ) (row : BlockRow), I t.rows → row ∈ t.rows → row.docId = docId →
    (∀ p ∈ parentId, ∃ q ∈ t.rows, q.docId = docId ∧ q.blockId = p) →
    I (setRow docId row.blockId (movedRow parentId position depth (row.version+1)) t.rows)
  samePlace : ∀ rows next : List BlockRow, I rows →
    List.Forall₂ (fun r s => SamePlace r s ∧ r.version ≤ s.version) rows next → I next

theorem parent_of_depth {t : Table} {docId : DocId} {parentId : Option Uuid} {depth : ℕ}
    (h : parentDepth t docId parentId = .ok depth) :
    ∀ p ∈ parentId, ∃ q ∈ t.rows, q.docId = docId ∧ q.blockId = p := by
  intro p hp
  rw [hp] at h
  obtain ⟨q,hq,hdoc,hid,_⟩ := parentDepth_found h
  exact ⟨q,hq,hdoc,hid⟩

theorem setRow_grown {t : Table} {docId : DocId} {blockId : Uuid} {f : BlockRow → BlockRow}
    (hf : ∀ r, SamePlace r (f r))
    (hv : ∀ r ∈ t.rows, r.blockId = blockId → r.version ≤ (f r).version) :
    List.Forall₂ (fun r s => SamePlace r s ∧ r.version ≤ s.version) t.rows
      (setRow docId blockId f t.rows) := by
  unfold setRow
  rw [List.forall₂_map_right_iff,List.forall₂_same]
  intro r hr
  split
  · next hid => exact ⟨hf r,hv r hr hid.2⟩
  · exact ⟨⟨rfl,rfl,rfl,rfl,rfl,rfl⟩,le_refl _⟩

theorem rewrite_grown {db : Database} {docId : DocId} {row : BlockRow} (hrow : row ∈ db.blocks.rows)
    (content : JsonObj) : List.Forall₂ (fun r s => SamePlace r s ∧ r.version ≤ s.version)
      db.blocks.rows (db.rewrite docId row.blockId content (row.version+1)).blocks.rows := by
  apply setRow_grown (contentRow_place _ _)
  intro r hr hid
  rw [row_unique db.blocks hr hrow hid]
  exact (lt_add_one row.version).le

theorem applied_kept {I : List BlockRow → Prop} (hI : Kept I) {db next : Database}
    {docId : DocId} {userId : UserId} {op : BlockOperation} {a : AppliedOp}
    (h : Applied db docId userId op a next) (hrows : I db.blocks.rows) :
    I next.blocks.rows := by
  cases h with
  | insert _ _ _ _ hfresh hdepth _ hwrite _ =>
    rw [write_rows hwrite]
    exact hI.append db.blocks _ hrows hfresh (parent_of_depth hdepth) rfl
  | gone _ _ _ => exact hrows
  | delete _ _ hrow _ _ => exact hI.sublist _ _ hrows (delete_sublist db.blocks _ hrow)
  | move _ _ _ _ hrow hdoc _ hdepth _ hwrite _ =>
    rw [write_rows hwrite]
    exact hI.moved db.blocks docId _ _ _ _ hrows hrow hdoc (parent_of_depth hdepth)
  | attrs _ _ hrow _ _ _ _ => exact hI.samePlace _ _ hrows (rewrite_grown hrow _)
  | content _ _ hrow _ _ => exact hI.samePlace _ _ hrows (rewrite_grown hrow _)

theorem reachable_kept {I : List BlockRow → Prop} (hI : Kept I) {db : Database}
    (h : Reachable documents users db) : I db.blocks.rows := by
  induction h with
  | initial => exact hI.empty
  | operation _ hop ih => exact applied_kept hI (applyOp_applied hop) ih
  | consumed py _ hentry ih =>
    obtain ⟨row,state,content,_,_,rfl⟩ := (handleEntry_updated py).mp hentry
    exact hI.samePlace _ _ ih (setRow_grown (consumedRow_place _ _ _) (fun r _ _ => le_refl _))

/-! ## Versions -/

def Versioned (rows : List BlockRow) : Prop := ∀ r ∈ rows, 1 ≤ r.version

theorem versioned_kept : Kept Versioned where
  empty := fun r hr => absurd hr List.not_mem_nil
  append t row hrows _ _ hone := by
    intro r hr
    rcases List.mem_append.mp hr with h | h
    · exact hrows r h
    · rw [List.mem_singleton.mp h,hone]
  sublist rows next hrows hsub := fun r hr => hrows r (hsub.subset hr)
  moved t docId parentId position depth row hrows hrow _ _ := by
    intro s hs
    obtain ⟨r,hr,rfl⟩ := mem_setRow.mp hs
    have hpos := hrows r hr
    split
    · have hrow := hrows row hrow
      show 1 ≤ row.version+1
      omega
    · exact hpos
  samePlace rows next hrows hsame := by
    intro s hs
    obtain ⟨i,hi,rfl⟩ := List.mem_iff_getElem.mp hs
    have hlen := hsame.length_eq
    have hgrown := (List.forall₂_iff_get.mp hsame).2 i (by omega) hi
    exact (hrows _ (List.get_mem rows _)).trans hgrown.2

theorem version_pos {db : Database} (h : Reachable documents users db) {r : BlockRow}
    (hr : r ∈ db.blocks.rows) : 1 ≤ r.version := reachable_kept versioned_kept h r hr

/-! ## Parents -/

def InDocument (rows : List BlockRow) : Prop :=
  ∀ r ∈ rows, ∀ p ∈ r.parentId, ∀ q ∈ rows, q.blockId = p → q.docId = r.docId

theorem inDocument_kept : Kept InDocument where
  empty := fun r hr => absurd hr List.not_mem_nil
  append t row hrows hfresh hparent _ := by
    intro r hr p hp q hq hid
    rcases List.mem_append.mp hr with hr | hr
    · rcases List.mem_append.mp hq with hq | hq
      · exact hrows r hr p hp q hq hid
      · obtain ⟨q',hq',hid'⟩ := t.parented r hr p hp
        rw [List.mem_singleton.mp hq] at hid
        exact absurd (hid'.trans hid.symm) (hfresh q' hq')
    · rw [List.mem_singleton.mp hr] at hp ⊢
      obtain ⟨q',hq',hdoc,hid'⟩ := hparent p hp
      rcases List.mem_append.mp hq with hq | hq
      · rw [row_unique t hq hq' (hid.trans hid'.symm),hdoc]
      · rw [List.mem_singleton.mp hq]
  sublist rows next hrows hsub := fun r hr p hp q hq =>
    hrows r (hsub.subset hr) p hp q (hsub.subset hq)
  moved t docId parentId position depth row hrows hrow hdoc hparent := by
    intro r' hr' p hp q' hq' hid
    obtain ⟨r,hr,rfl⟩ := mem_setRow.mp hr'
    obtain ⟨q,hq,hqdoc,hqid⟩ : ∃ q ∈ t.rows, q.docId = q'.docId ∧ q.blockId = q'.blockId := by
      obtain ⟨q,hq,rfl⟩ := mem_setRow.mp hq'
      exact ⟨q,hq,by split <;> rfl,by split <;> rfl⟩
    rw [← hqdoc]
    rw [← hqid] at hid
    by_cases hmoved : r.docId = docId ∧ r.blockId = row.blockId
    · rw [if_pos hmoved] at hp ⊢
      obtain ⟨s,hs,hsdoc,hsid⟩ := hparent p hp
      show q.docId = r.docId
      rw [row_unique t hq hs (hid.trans hsid.symm),hsdoc,hmoved.1]
    · rw [if_neg hmoved] at hp ⊢
      exact hrows r hr p hp q hq hid
  samePlace rows next hrows hsame := by
    have hplace := hsame.imp (fun _ _ h => h.1)
    intro r' hr' p hp q' hq' hid
    obtain ⟨r,hr,_,hrdoc,hrparent,_⟩ := samePlace_mem hplace hr'
    obtain ⟨q,hq,hqid,hqdoc,_⟩ := samePlace_mem hplace hq'
    rw [hqdoc,hrdoc]
    exact hrows r hr p (hrparent ▸ hp) q hq (hqid ▸ hid)

theorem parent_inDocument {db : Database} (h : Reachable documents users db) {r q : BlockRow}
    (hr : r ∈ db.blocks.rows) (hq : q ∈ db.blocks.rows) (hp : r.parentId = some q.blockId) :
    q.docId = r.docId := reachable_kept inDocument_kept h r hr q.blockId hp q hq rfl

end BlockDocs.Reachability
