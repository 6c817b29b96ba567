import BlockDocs.Reachability

/-!
# One document at a time

A block id is a key for all documents, and the cascade follows parents without
looking at the document. As a parent is looked up in the document of the request,
a chain of parents never leaves it, and no write reaches another document.
-/

set_option autoImplicit false

namespace BlockDocs.DocumentFrame
open BlockDocs.Wire BlockDocs.DocBlocks BlockDocs.ApplyOps BlockDocs.PostOperations
open BlockDocs.Reachability

/-! ## Rows that a write does not reach -/

section Cascade

variable {S : BlockRow → Prop} [DecidablePred S]

/-- The cascade keeps rows whose parents are all kept with them. -/
theorem cascade_outside (fuel : ℕ) (rows : List BlockRow) (gone : List Uuid) (hkeyed : Keyed rows)
    (hgone : ∀ b ∈ gone, ∃ q ∈ rows, q.blockId = b ∧ ¬S q)
    (hup : ∀ r ∈ rows, S r → ∀ p ∈ r.parentId, ∀ q ∈ rows, q.blockId = p → S q) :
    (cascade fuel rows gone).filter S = rows.filter S := by
  induction fuel generalizing rows gone with
  | zero => rfl
  | succ fuel ih =>
    have hstays : ∀ r ∈ rows, S r → r.blockId ∉ gone := by
      intro r hr hin hg
      obtain ⟨q,hq,hid,hout⟩ := hgone _ hg
      exact hout (List.inj_on_of_nodup_map hkeyed hq hr hid ▸ hin)
    have hkept : (rows.filter (fun r => r.blockId ∉ gone)).filter S = rows.filter S := by
      rw [List.filter_filter]
      apply List.filter_congr
      intro r hr
      rw [← Bool.decide_and,decide_eq_decide]
      exact ⟨And.left,fun hin => ⟨hin,hstays r hr hin⟩⟩
    simp only [cascade]
    split
    · exact hkept
    · refine (ih _ _ (hkeyed.sublist (List.filter_sublist.map _)) ?_ ?_).trans hkept
      · intro b hb
        obtain ⟨r,hr,rfl⟩ := List.mem_map.mp hb
        obtain ⟨hr,horphan⟩ := List.mem_filter.mp hr
        obtain ⟨p,hp,hpg⟩ := of_decide_eq_true horphan
        obtain ⟨q,hq,hid,hout⟩ := hgone p hpg
        exact ⟨r,hr,rfl,fun hin => hout (hup r (List.mem_filter.mp hr).1 hin p hp q hq hid)⟩
      · intro r hr hin p hp q hq hid
        exact hup r (List.mem_filter.mp hr).1 hin p hp q (List.mem_filter.mp hq).1 hid

end Cascade

def outside (docId : DocId) (t : Table) : List BlockRow := t.rows.filter (fun r => r.docId ≠ docId)

variable {docId : DocId}

theorem setRow_outside {blockId : Uuid} {f : BlockRow → BlockRow} (rows : List BlockRow)
    (hf : ∀ r, (f r).docId = r.docId) :
    (setRow docId blockId f rows).filter (fun r => r.docId ≠ docId) =
      rows.filter (fun r => r.docId ≠ docId) := by
  induction rows with
  | nil => rfl
  | cons r rows ih =>
    show List.filter _ ((if r.docId = docId ∧ r.blockId = blockId then f r else r)::
      setRow docId blockId f rows) = _
    by_cases hdoc : r.docId = docId
    · rw [List.filter_cons_of_neg (by split <;> simp [hf,hdoc]),ih,
        List.filter_cons_of_neg (by simp [hdoc])]
    · rw [if_neg (fun h => hdoc h.1),List.filter_cons_of_pos (by simpa using hdoc),ih,
        List.filter_cons_of_pos (by simpa using hdoc)]

theorem delete_outside {t : Table} (h : InDocument t.rows) {row : BlockRow} (hrow : row ∈ t.rows) :
    outside row.docId (t.delete row hrow) = outside row.docId t := by
  apply cascade_outside _ _ _ t.keyed
  · intro b hb
    exact ⟨row,hrow,(List.mem_singleton.mp hb).symm,not_not_intro rfl⟩
  · intro r hr hout p hp q hq hid
    rw [h r hr p hp q hq hid]
    exact hout

/-! ## Operations and requests -/

theorem applied_outside {db next : Database} {userId : UserId} {op : BlockOperation}
    {a : AppliedOp} (h : InDocument db.blocks.rows) (happlied : Applied db docId userId op a next) :
    outside docId next.blocks = outside docId db.blocks := by
  cases happlied with
  | insert _ _ _ _ _ _ _ hwrite _ =>
    unfold outside
    rw [write_rows hwrite,List.filter_append,List.filter_singleton,insertedRow]
    simp
  | gone _ _ _ => rfl
  | delete _ _ hrow hdoc _ =>
    subst hdoc
    exact delete_outside h hrow
  | move _ _ _ _ _ _ _ _ _ hwrite _ =>
    unfold outside
    rw [write_rows hwrite]
    exact setRow_outside _ (fun _ => rfl)
  | attrs _ _ _ _ _ _ _ => exact setRow_outside _ (fun _ => rfl)
  | content _ _ _ _ _ => exact setRow_outside _ (fun _ => rfl)

variable {documents : List DocId} {users : List UserId}

theorem settle_outside {db : Database} (h : Reachable documents users db) (docId : DocId)
    (userId : UserId) (ops : List BlockOperation) :
    outside docId (settle docId userId db ops).blocks = outside docId db.blocks := by
  induction ops generalizing db with
  | nil => rfl
  | cons op ops ih =>
    unfold settle
    split
    · next a next hok =>
      exact (ih (.operation h hok)).trans
        (applied_outside (reachable_kept inDocument_kept h) (applyOp_applied hok))
    · exact ih h

def afterRequest (db : Database) (docId : DocId) (userId : UserId) (ops : List BlockOperation) :
    Database := ((postOperations db docId userId ops).map Posted.database).getD db

theorem request_outside {db : Database} (h : Reachable documents users db) (docId : DocId)
    (userId : UserId) (ops : List BlockOperation) :
    outside docId (afterRequest db docId userId ops).blocks = outside docId db.blocks := by
  unfold afterRequest
  cases hpost : postOperations db docId userId ops with
  | none => rfl
  | some posted =>
    obtain ⟨⟨outcomes,tx⟩,hall,heq⟩ := Option.bind_eq_some_iff.mp hpost
    cases heq
    cases (applyAll_ended hall).1 with
    | sound _ => exact settle_outside h docId userId ops
    | failed _ => rfl

theorem documents_isolated {db : Database} (h : Reachable documents users db) :
    InDocument db.blocks.rows ∧ ∀ (docId : DocId) (userId : UserId) (ops : List BlockOperation),
      outside docId (afterRequest db docId userId ops).blocks = outside docId db.blocks :=
  ⟨reachable_kept inDocument_kept h,request_outside h⟩

def neighbours : Database :=
  settle 2 1 (settle 1 1 (.initial [1,2] [1]) [insertUnder 7 none,insertUnder 8 (some 7)])
    [insertUnder 9 none]

def deletion (b : Uuid) : BlockOperation where
  op := .delete_block
  blockId := .uuid b
  payload := {}
  version := none

/-- Document 2 asks for blocks of document 1, which then deletes its own. -/
theorem documents_isolated_neighbours :
    (outside 2 (afterRequest neighbours 2 1
      [deletion 7,moveUnder 8 (some 9),moveUnder 9 (some 7)]).blocks).map BlockRow.blockId = [7,8] ∧
    outside 1 (afterRequest neighbours 1 1 [deletion 7]).blocks = outside 1 neighbours.blocks := by
  have hreach : Reachable [1,2] [1] neighbours :=
    settle_reachable (settle_reachable .initial 1 1 _) 2 1 _
  refine ⟨?_,(documents_isolated hreach).2 1 1 [deletion 7]⟩
  rw [(documents_isolated hreach).2]
  decide +kernel

end BlockDocs.DocumentFrame
