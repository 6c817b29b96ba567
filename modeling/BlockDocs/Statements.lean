import BlockDocs.ApplyOps

/-!
# The handlers as scripts of SQL statements

Between two statements of a handler other transactions may commit, so the
handlers are spelled out here statement by statement, each continuing with
what its statement returned. Run on a table that nobody else changes, a
script does what the handler does in one go.
-/

set_option autoImplicit false

namespace BlockDocs.Statements
open BlockDocs.LexoRank BlockDocs.Wire BlockDocs.DocBlocks BlockDocs.ApplyOps

def crcBit (c : ℕ) : ℕ := if c % 2 = 1 then (c/2) ^^^ 0xEDB88320 else c/2

def crcByte (c : ℕ) (b : UInt8) : ℕ := crcBit^[8] (c ^^^ b.toNat)

def crc32 (data : Bytes) : ℕ := data.foldl crcByte 0xFFFFFFFF ^^^ 0xFFFFFFFF

example : crc32 [0x31,0x32,0x33,0x34,0x35,0x36,0x37,0x38,0x39] = 0xCBF43926 := by decide +kernel

def advisoryLockKey (docId : DocId) (parentId : Option Uuid) : ℕ :=
  let parent := match parentId with
    | none => "root"
    | some p => uuidText p
  (crc32 (toString docId ++ "|" ++ parent).toUTF8.toList &&& 0xFFFFFFFF) <<< 1

inductive Script where
  | applied (a : AppliedOp)
  | stopped (s : Stop)
  | select (next : Table → Script)
  | selectForUpdate (docId : DocId) (blockId : Uuid) (next : Option BlockRow → Script)
  | advisoryXactLock (key : ℕ) (next : Script)
  | insertInto (row : BlockRow) (userId : UserId) (next : Except SqlError BlockRow → Script)
  | update (docId : DocId) (blockId : Uuid) (change : BlockRow → BlockRow) (userId : UserId)
      (next : Except SqlError (Option BlockRow) → Script)
  | deleteFrom (docId : DocId) (blockId : Uuid) (next : Script)

/-! ## What a statement does to the rows -/

/-- `created_by` and `updated_by` reference the users, `doc_id` the documents. -/
def inserted (db : Database) (row : BlockRow) (userId : UserId) : Except SqlError Table :=
  match write (db.blocks.rows++[row]) with
  | .error e => .error e
  | .ok t =>
    if row.docId ∈ db.documents ∧ userId ∈ db.users then .ok t else .error .foreignKeyViolation

def updated (db : Database) (row : BlockRow) (change : BlockRow → BlockRow) (userId : UserId) :
    Except SqlError Table :=
  match write (setRow row.docId row.blockId change db.blocks.rows) with
  | .error e => .error e
  | .ok t => if userId ∈ db.users then .ok t else .error .foreignKeyViolation

def Script.alone : Script → Database → Except Stop (AppliedOp × Database)
  | .applied a, db => .ok (a,db)
  | .stopped s, _ => .error s
  | .select next, db => (next db.blocks).alone db
  | .selectForUpdate docId blockId next, db => (next (db.blocks.find docId blockId)).alone db
  | .advisoryXactLock _ next, db => next.alone db
  | .insertInto row userId next, db =>
    match inserted db row userId with
    | .ok t => (next (.ok row)).alone { db with blocks := t }
    | .error e => (next (.error e)).alone db
  | .update docId blockId change userId next, db =>
    match db.blocks.find docId blockId with
    | none => (next (.ok none)).alone db
    | some row =>
      match updated db row change userId with
      | .ok t => (next (.ok (some (change row)))).alone { db with blocks := t }
      | .error e => (next (.error e)).alone db
  | .deleteFrom docId blockId next, db =>
    match h : db.blocks.find docId blockId with
    | none => next.alone db
    | some row =>
      next.alone { db with blocks := db.blocks.delete row ((find_some_iff _ _ _ _).mp h).1 }

/-! ## The handlers -/

def orStop {α : Type} : Except Stop α → (α → Script) → Script
  | .ok a, next => next a
  | .error s, _ => .stopped s

def fetched (blockId : Uuid) : Option BlockRow → Except Stop BlockRow
  | none => .error (.conflict ⟨blockId,none,"block not found"⟩)
  | some row => .ok row

def parentDepthScript (docId : DocId) (blockId : Uuid) (current : Option Block) :
    Option Uuid → (ℕ → Script) → Script
  | none, next => next 0
  | some parentId, next => .select fun t =>
    orStop (orConflict blockId current (parentDepth t docId (some parentId))) next

/-- `_compute_position`: the two neighbours come from two statements. -/
def computePositionScript (docId : DocId) (blockId : Uuid) (current : Option Block)
    (parentId : Option Uuid) : Option Uuid → (Rank → Script) → Script
  | none, next => .select fun t =>
    orStop (orConflict blockId current (rank none (nextPosition t docId parentId none))) next
  | some afterId, next => .select fun t =>
    match t.find docId afterId with
    | none => .stopped (.conflict ⟨blockId,current,"afterId " ++ uuidText afterId ++ " not found"⟩)
    | some left => .select fun t =>
      orStop (orConflict blockId current
        (rank (some left.position) (nextPosition t docId parentId (some left.position)))) next

def insertBlockScript (docId : DocId) (userId : UserId) (blockId : Uuid) (payload : Payload) :
    Script :=
  orStop (IdField.read payload.parentId) fun parentId =>
  orStop (IdField.read payload.afterId) fun afterId =>
  .select fun t => orStop (checkFresh t blockId) fun _ =>
  parentDepthScript docId blockId none parentId fun depth =>
  .advisoryXactLock (advisoryLockKey docId parentId) <|
  computePositionScript docId blockId none parentId afterId fun position =>
  .insertInto (insertedRow docId blockId payload parentId position depth) userId fun
    | .ok row => .applied (insertOutcome row)
    | .error .uniqueViolation => .stopped (.collision ⟨blockId,none,"position collision"⟩)
    | .error _ => .stopped .raised

def deleteBlockScript (docId : DocId) (blockId : Uuid) (expectedVersion : Option ℤ) : Script :=
  .selectForUpdate docId blockId fun
    | none => .applied (deleteOutcome blockId 0)
    | some row => orStop (checkVersion row expectedVersion) fun _ =>
      .deleteFrom docId blockId (.applied (deleteOutcome blockId (row.version+1)))

def moveBlockScript (docId : DocId) (userId : UserId) (blockId : Uuid) (payload : Payload)
    (expectedVersion : Option ℤ) : Script :=
  orStop (IdField.read payload.parentId) fun parentId =>
  orStop (IdField.read payload.afterId) fun afterId =>
  .selectForUpdate docId blockId fun found =>
  orStop (fetched blockId found) fun row =>
  orStop (checkVersion row expectedVersion) fun _ =>
  .advisoryXactLock (advisoryLockKey docId parentId) <|
  parentDepthScript docId blockId (some (rowToBlock row)) parentId fun depth =>
  computePositionScript docId blockId (some (rowToBlock row)) parentId afterId fun position =>
  .update docId blockId (movedRow parentId position depth (row.version+1)) userId fun
    | .ok (some moved) => .applied (moveOutcome moved)
    | .ok none => .stopped .raised
    | .error .uniqueViolation =>
      .stopped (.collision ⟨blockId,some (rowToBlock row),"position collision"⟩)
    | .error _ => .stopped .raised

def updateAttrsScript (docId : DocId) (userId : UserId) (blockId : Uuid) (payload : Payload)
    (expectedVersion : Option ℤ) : Script :=
  let patch := payload.attrs.getD []
  .selectForUpdate docId blockId fun found =>
  orStop (fetched blockId found) fun row =>
  orStop (checkVersion row expectedVersion) fun _ =>
  orStop (mergeAttrs row.content patch) fun content =>
  .update docId blockId (contentRow content (row.version+1)) userId fun
    | .ok (some changed) => .applied (updateOutcome .update_attrs (.attrs patch) changed)
    | _ => .stopped .raised

/-- One statement, which increments in place. -/
def updateContentScript (docId : DocId) (userId : UserId) (blockId : Uuid) (payload : Payload) :
    Script :=
  let content := payload.content.getD []
  .update docId blockId (fun r => contentRow content (r.version+1) r) userId fun
    | .ok (some changed) => .applied (updateOutcome .update_content (.content content) changed)
    | .ok none => .stopped (.conflict ⟨blockId,none,"block not found"⟩)
    | .error _ => .stopped .raised

def applyOpScript (docId : DocId) (userId : UserId) (op : BlockOperation) : Script :=
  match op.blockId with
  | .uuid blockId =>
    match op.op with
    | .insert_block => insertBlockScript docId userId blockId op.payload
    | .delete_block => deleteBlockScript docId blockId op.version
    | .move_block => moveBlockScript docId userId blockId op.payload op.version
    | .update_attrs => updateAttrsScript docId userId blockId op.payload op.version
    | .update_content => updateContentScript docId userId blockId op.payload
  | _ => .stopped .raised

/-! ## A script with nobody else at the table is its handler -/

theorem alone_applied (a : AppliedOp) (db : Database) : (Script.applied a).alone db = .ok (a,db) :=
  rfl

theorem alone_stopped (s : Stop) (db : Database) : (Script.stopped s).alone db = .error s := rfl

theorem alone_select (next : Table → Script) (db : Database) :
    (Script.select next).alone db = (next db.blocks).alone db := rfl

theorem alone_advisoryXactLock (key : ℕ) (next : Script) (db : Database) :
    (Script.advisoryXactLock key next).alone db = next.alone db := rfl

theorem alone_selectForUpdate (docId : DocId) (blockId : Uuid) (next : Option BlockRow → Script)
    (db : Database) : (Script.selectForUpdate docId blockId next).alone db =
      (next (db.blocks.find docId blockId)).alone db := rfl

/-- The `UPDATE` of a row that is there. -/
theorem alone_update {db : Database} {docId : DocId} {blockId : Uuid} {row : BlockRow}
    (h : db.blocks.find docId blockId = some row) (change : BlockRow → BlockRow)
    (userId : UserId) (next : Except SqlError (Option BlockRow) → Script) :
    (Script.update docId blockId change userId next).alone db =
      match write (setRow docId blockId change db.blocks.rows) with
      | .error e => (next (.error e)).alone db
      | .ok t =>
        if userId ∈ db.users then (next (.ok (some (change row)))).alone { db with blocks := t }
        else (next (.error .foreignKeyViolation)).alone db := by
  obtain ⟨-,rfl,rfl⟩ := (find_some_iff _ _ _ _).mp h
  simp only [Script.alone,h,updated]
  cases write (setRow row.docId row.blockId change db.blocks.rows) with
  | error e => rfl
  | ok t => by_cases huser : userId ∈ db.users <;> simp [huser]

theorem alone_update_none {db : Database} {docId : DocId} {blockId : Uuid}
    (h : db.blocks.find docId blockId = none) (change : BlockRow → BlockRow) (userId : UserId)
    (next : Except SqlError (Option BlockRow) → Script) :
    (Script.update docId blockId change userId next).alone db = (next (.ok none)).alone db := by
  simp only [Script.alone,h]

theorem alone_deleteFrom {db : Database} {docId : DocId} {blockId : Uuid} {row : BlockRow}
    (h : db.blocks.find docId blockId = some row) (next : Script) :
    (Script.deleteFrom docId blockId next).alone db =
      next.alone { db with blocks := db.blocks.delete row ((find_some_iff _ _ _ _).mp h).1 } := by
  simp only [Script.alone]
  split
  · next hnone => cases hnone.symm.trans h
  · next r hr =>
    cases hr.symm.trans h
    rfl

theorem alone_orStop {α : Type} (x : Except Stop α) (next : α → Script) (db : Database) :
    (orStop x next).alone db = x >>= fun a => (next a).alone db := by
  cases x with
  | error s => rfl
  | ok a => rfl

theorem alone_parentDepth (docId : DocId) (blockId : Uuid) (current : Option Block)
    (parentId : Option Uuid) (next : ℕ → Script) (db : Database) :
    (parentDepthScript docId blockId current parentId next).alone db =
      orConflict blockId current (parentDepth db.blocks docId parentId) >>=
        fun depth => (next depth).alone db := by
  cases parentId with
  | none => rfl
  | some p => exact alone_orStop _ _ _

theorem alone_computePosition (docId : DocId) (blockId : Uuid) (current : Option Block)
    (parentId afterId : Option Uuid) (next : Rank → Script) (db : Database) :
    (computePositionScript docId blockId current parentId afterId next).alone db =
      orConflict blockId current (computePosition db.blocks docId parentId afterId) >>=
        fun position => (next position).alone db := by
  cases afterId with
  | none => exact alone_orStop _ _ _
  | some a =>
    simp only [computePositionScript,alone_select,computePosition]
    cases db.blocks.find docId a with
    | none => rfl
    | some left => exact alone_orStop _ _ _

theorem fetched_find (t : Table) (docId : DocId) (blockId : Uuid) :
    fetched blockId (t.find docId blockId) = fetchRow t docId blockId := by
  unfold fetchRow
  cases t.find docId blockId with
  | none => rfl
  | some row => rfl

/-- What follows the fetch of a row may use where the row was found. -/
theorem fetch_congr {α : Type} {t : Table} {docId : DocId} {blockId : Uuid}
    {f g : BlockRow → Except Stop α}
    (h : ∀ row, t.find docId blockId = some row → f row = g row) :
    fetchRow t docId blockId >>= f = fetchRow t docId blockId >>= g := by
  cases hf : t.find docId blockId with
  | none => simp [fetchRow,hf,bind,Except.bind]
  | some row => simpa [fetchRow,hf,bind,Except.bind] using h row hf

theorem alone_insertBlock (db : Database) (docId : DocId) (userId : UserId) (blockId : Uuid)
    (payload : Payload) : (insertBlockScript docId userId blockId payload).alone db =
      insertBlock db docId userId blockId payload := by
  simp only [insertBlockScript,insertBlock,alone_orStop,alone_parentDepth,alone_computePosition,
    alone_select,alone_advisoryXactLock]
  refine bind_congr fun parentId => bind_congr fun afterId => bind_congr fun _ => ?_
  refine bind_congr fun depth => bind_congr fun position => ?_
  simp only [Script.alone,inserted,writeRows]
  cases write (db.blocks.rows++[insertedRow docId blockId payload parentId position depth]) with
  | error e => cases e <;> rfl
  | ok t =>
    by_cases hrefs : docId ∈ db.documents ∧ userId ∈ db.users
    · simp [insertedRow,references,hrefs,bind,Except.bind,pure,Except.pure]
    · simp [insertedRow,references,hrefs,bind,Except.bind,alone_stopped]

theorem deleteBlock_none {db : Database} {docId : DocId} {blockId : Uuid}
    (h : db.blocks.find docId blockId = none) (expectedVersion : Option ℤ) :
    deleteBlock db docId blockId expectedVersion = .ok (deleteOutcome blockId 0,db) := by
  unfold deleteBlock
  split
  · rfl
  · next row hrow => cases hrow.symm.trans h

theorem deleteBlock_some {db : Database} {docId : DocId} {blockId : Uuid} {row : BlockRow}
    (h : db.blocks.find docId blockId = some row) (expectedVersion : Option ℤ) :
    deleteBlock db docId blockId expectedVersion = checkVersion row expectedVersion >>= fun _ =>
      .ok (deleteOutcome blockId (row.version+1),
        { db with blocks := db.blocks.delete row ((find_some_iff _ _ _ _).mp h).1 }) := by
  unfold deleteBlock
  split
  · next hnone => cases hnone.symm.trans h
  · next r hr =>
    cases hr.symm.trans h
    rfl

theorem alone_deleteBlock (db : Database) (docId : DocId) (blockId : Uuid)
    (expectedVersion : Option ℤ) : (deleteBlockScript docId blockId expectedVersion).alone db =
      deleteBlock db docId blockId expectedVersion := by
  cases h : db.blocks.find docId blockId with
  | none =>
    rw [deleteBlockScript,alone_selectForUpdate,deleteBlock_none h,h]
    rfl
  | some row =>
    rw [deleteBlockScript,alone_selectForUpdate,deleteBlock_some h]
    simp only [h,alone_orStop,alone_deleteFrom h,alone_applied]

theorem alone_moveBlock (db : Database) (docId : DocId) (userId : UserId) (blockId : Uuid)
    (payload : Payload) (expectedVersion : Option ℤ) :
    (moveBlockScript docId userId blockId payload expectedVersion).alone db =
      moveBlock db docId userId blockId payload expectedVersion := by
  simp only [moveBlockScript,moveBlock,alone_orStop,alone_parentDepth,alone_computePosition,
    alone_selectForUpdate,alone_advisoryXactLock,fetched_find]
  refine bind_congr fun parentId => bind_congr fun afterId => fetch_congr fun row hrow => ?_
  refine bind_congr fun _ => bind_congr fun depth => bind_congr fun position => ?_
  rw [alone_update hrow]
  unfold writeRows
  cases write (setRow docId blockId (movedRow parentId position depth (row.version+1))
    db.blocks.rows) with
  | error e => cases e <;> rfl
  | ok t =>
    by_cases huser : userId ∈ db.users
    · simp [references,huser,bind,Except.bind,pure,Except.pure,alone_applied]
    · simp [references,huser,bind,Except.bind,alone_stopped]

theorem write_self (t : Table) : write t.rows = .ok t := by
  unfold write
  rw [dif_pos t.fits,dif_pos t.keyed,dif_pos t.spaced,dif_pos t.parented]

/-- Such an `UPDATE` breaks no constraint. -/
theorem write_update (t : Table) (docId : DocId) (blockId : Uuid) (f : BlockRow → BlockRow)
    (hf : ∀ r, SamePlace r (f r)) :
    write (setRow docId blockId f t.rows) = .ok (t.update docId blockId f hf) :=
  write_self (t.update docId blockId f hf)

theorem alone_updateAttrs (db : Database) (docId : DocId) (userId : UserId) (blockId : Uuid)
    (payload : Payload) (expectedVersion : Option ℤ) :
    (updateAttrsScript docId userId blockId payload expectedVersion).alone db =
      updateAttrs db docId userId blockId payload expectedVersion := by
  simp only [updateAttrsScript,updateAttrs,alone_orStop,alone_selectForUpdate,fetched_find]
  refine fetch_congr fun row hrow => bind_congr fun _ => bind_congr fun content => ?_
  rw [alone_update hrow,write_update db.blocks docId blockId _ (contentRow_place _ _)]
  by_cases huser : userId ∈ db.users
  · simp [references,huser,bind,Except.bind,pure,Except.pure,alone_applied,Database.rewrite]
  · simp [references,huser,bind,Except.bind,alone_stopped]

/-- Only one row is changed, so the change may be read off that row. -/
theorem setRow_found {t : Table} {docId : DocId} {blockId : Uuid} {row : BlockRow}
    (h : t.find docId blockId = some row) {f g : BlockRow → BlockRow} (hfg : f row = g row) :
    setRow docId blockId f t.rows = setRow docId blockId g t.rows := by
  obtain ⟨hrow,-,hid⟩ := (find_some_iff _ _ _ _).mp h
  apply List.map_congr_left
  intro r hr
  by_cases hk : r.docId = docId ∧ r.blockId = blockId
  · rw [if_pos hk,if_pos hk,row_unique t hr hrow (hk.2.trans hid.symm),hfg]
  · rw [if_neg hk,if_neg hk]

theorem alone_updateContent (db : Database) (docId : DocId) (userId : UserId) (blockId : Uuid)
    (payload : Payload) : (updateContentScript docId userId blockId payload).alone db =
      updateContent db docId userId blockId payload := by
  simp only [updateContentScript,updateContent]
  cases h : db.blocks.find docId blockId with
  | none =>
    rw [alone_update_none h,fetchRow,h]
    rfl
  | some row =>
    have hset : setRow docId blockId
        (fun r => contentRow (payload.content.getD []) (r.version+1) r) db.blocks.rows =
        setRow docId blockId (contentRow (payload.content.getD []) (row.version+1))
          db.blocks.rows := setRow_found h rfl
    rw [alone_update h,hset,write_update db.blocks docId blockId _ (contentRow_place _ _)]
    by_cases huser : userId ∈ db.users
    · simp [fetchRow,h,references,huser,bind,Except.bind,pure,Except.pure,alone_applied,
        Database.rewrite]
    · simp [fetchRow,h,references,huser,bind,Except.bind,alone_stopped]

theorem alone_applyOp (db : Database) (docId : DocId) (userId : UserId) (op : BlockOperation) :
    (applyOpScript docId userId op).alone db = applyOp db docId userId op := by
  unfold applyOpScript applyOp
  cases op.blockId with
  | uuid blockId =>
    cases op.op with
    | insert_block => exact alone_insertBlock _ _ _ _ _
    | delete_block => exact alone_deleteBlock _ _ _ _
    | move_block => exact alone_moveBlock _ _ _ _ _ _
    | update_attrs => exact alone_updateAttrs _ _ _ _ _ _
    | update_content => exact alone_updateContent _ _ _ _ _
  | absent => rfl
  | malformed => rfl

end BlockDocs.Statements
