import BlockDocs.DocBlocks

/-!
# Applying one block operation

The handlers run inside a transaction that the caller owns. They end in an
applied operation, in a conflict, in a conflict made of a caught unique
violation (the transaction is then aborted), or in an uncaught exception.
-/

set_option autoImplicit false

namespace BlockDocs.ApplyOps
open BlockDocs.LexoRank BlockDocs.InsertionMap BlockDocs.Wire BlockDocs.DocBlocks

structure Database where
  documents : List DocId
  users : List UserId
  blocks : Table

def Database.initial (documents : List DocId) (users : List UserId) : Database :=
  ⟨documents,users,Table.empty⟩

structure AppliedOp where
  blockId : Uuid
  newVersion : ℤ
  block : Option Block
  opType : OpType
  payload : AppliedPayload

structure OpConflict where
  blockId : Uuid
  currentBlock : Option Block
  reason : String

inductive Stop where
  | conflict (c : OpConflict)
  | collision (c : OpConflict)
  | raised

def rowToBlock (r : BlockRow) : Block where
  blockId := r.blockId
  parentId := r.parentId
  position := r.position
  depth := r.depth
  type := r.type
  content := r.content
  version := r.version

def IdField.read : IdField → Except Stop (Option Uuid)
  | .absent => .ok none
  | .uuid id => .ok (some id)
  | .malformed => .error .raised

def parentDepth (t : Table) (docId : DocId) : Option Uuid → Except String ℕ
  | none => .ok 0
  | some parentId =>
    match t.find docId parentId with
    | none => .error ("parent " ++ uuidText parentId ++ " not found")
    | some row => .ok (row.depth+1)

def siblings (t : Table) (docId : DocId) (parentId : Option Uuid) : List BlockRow :=
  t.rows.filter (fun r => r.docId = docId ∧ r.parentId = parentId)

def nextPosition (t : Table) (docId : DocId) (parentId : Option Uuid) : Option Rank → Option Rank
  | none => ((siblings t docId parentId).map BlockRow.position).min?
  | some left =>
    (((siblings t docId parentId).map BlockRow.position).filter (left < ·)).min?

def rank (left right : Option Rank) : Except String Rank :=
  (midpoint left right).mapError RankError.message

def computePosition (t : Table) (docId : DocId) (parentId : Option Uuid) :
    Option Uuid → Except String Rank
  | none => rank none (nextPosition t docId parentId none)
  | some afterId =>
    match t.find docId afterId with
    | none => .error ("afterId " ++ uuidText afterId ++ " not found")
    | some row => rank (some row.position) (nextPosition t docId parentId (some row.position))

/-- A key that a value of JSON can be in a dictionary; `True` is the key 1. -/
inductive PyKey where
  | none
  | num (n : ℤ)
  | text (s : String)
  deriving DecidableEq

/-- Each key with the text that JSON has for it as it was first written. -/
abbrev PyDict := List (PyKey × String × Json)

def pyKey : Json → Option (PyKey × String)
  | .null => some (.none,"null")
  | .bool true => some (.num 1,"true")
  | .bool false => some (.num 0,"false")
  | .num n => some (.num n,toString n)
  | .str s => some (.text s,s)
  | _ => none

/-- Whatever iterates to two values: a list, a text, or an object by its keys. -/
def pairOf : Json → Option (Json × Json)
  | .arr [k,v] => some (k,v)
  | .obj [(k,_),(v,_)] => some (.str k,.str v)
  | .str s =>
    match s.toList with
    | [k,v] => some (.str (.singleton k),.str (.singleton v))
    | _ => none
  | _ => none

def setItem (d : PyDict) (k : PyKey) (text : String) (v : Json) : PyDict :=
  put k (((lookup k d).map Prod.fst).getD text,v) d

def dictOf (d : PyDict) : List Json → Except Stop PyDict
  | [] => .ok d
  | item::items =>
    match pairOf item with
    | none => .error .raised
    | some (k,v) =>
      match pyKey k with
      | none => .error .raised
      | some (key,text) => dictOf (setItem d key text v) items

def textDict (fields : JsonObj) : PyDict := fields.map (fun e => (.text e.1,e.1,e.2))

/-- `dict(out.get("attrs") or {})`. -/
def attrsOf (content : JsonObj) : Except Stop PyDict :=
  match lookup "attrs" content with
  | some (.obj fields) => .ok (textDict fields)
  | some (.arr items) => dictOf [] items
  | some v => if truthy v then .error .raised else .ok []
  | none => .ok []

def patchItem (attrs : PyDict) (kv : String × Json) : PyDict :=
  match kv.2 with
  | .null => erase (.text kv.1) attrs
  | v => setItem attrs (.text kv.1) kv.1 v

def patched (attrs : PyDict) (patch : JsonObj) : PyDict := patch.foldl patchItem attrs

/-- What `json.loads` reads where `json.dumps` has written the dictionary. -/
def stored (d : PyDict) : JsonObj := putAll (d.map Prod.snd) []

def mergeAttrs (existing patch : JsonObj) : Except Stop JsonObj := do
  let attrs ← attrsOf existing
  return put "attrs" (.obj (stored (patched attrs patch))) existing

/-- A `ValueError` of a helper, answered as a conflict. -/
def orConflict {α : Type} (blockId : Uuid) (current : Option Block) :
    Except String α → Except Stop α
  | .ok a => .ok a
  | .error reason => .error (.conflict ⟨blockId,current,reason⟩)

def writeRows (blockId : Uuid) (current : Option Block) (rows : List BlockRow) :
    Except Stop Table :=
  match write rows with
  | .ok t => .ok t
  | .error .uniqueViolation => .error (.collision ⟨blockId,current,"position collision"⟩)
  | .error _ => .error .raised

/-- The references to documents and users, checked last. -/
def references (present : Bool) : Except Stop Unit :=
  if present then .ok () else .error .raised

def checkVersion (row : BlockRow) (expectedVersion : Option ℤ) : Except Stop Unit :=
  match expectedVersion with
  | none => .ok ()
  | some v =>
    if row.version ≠ v then
      .error (.conflict ⟨row.blockId,some (rowToBlock row),"stale version"⟩)
    else .ok ()

def fetchRow (t : Table) (docId : DocId) (blockId : Uuid) : Except Stop BlockRow :=
  match t.find docId blockId with
  | none => .error (.conflict ⟨blockId,none,"block not found"⟩)
  | some row => .ok row

/-- `SELECT … WHERE block_id = $1`, over every document. -/
def checkFresh (t : Table) (blockId : Uuid) : Except Stop Unit :=
  if t.rows.any (fun r => r.blockId = blockId) then
    .error (.conflict ⟨blockId,none,"block_id already exists"⟩)
  else .ok ()

def insertedRow (docId : DocId) (blockId : Uuid) (payload : Payload) (parentId : Option Uuid)
    (position : Rank) (depth : ℕ) : BlockRow where
  blockId := blockId
  docId := docId
  parentId := parentId
  position := position
  depth := depth
  type := payload.type.getD "paragraph"
  content := payload.content.getD []
  yjsState := none
  lastAppliedStreamId := none
  version := 1

def insertOutcome (row : BlockRow) : AppliedOp where
  blockId := row.blockId
  newVersion := 1
  block := some (rowToBlock row)
  opType := .insert_block
  payload := .insert row.type row.parentId row.position row.depth row.content

def insertBlock (db : Database) (docId : DocId) (userId : UserId) (blockId : Uuid)
    (payload : Payload) : Except Stop (AppliedOp × Database) := do
  let parentId ← IdField.read payload.parentId
  let afterId ← IdField.read payload.afterId
  checkFresh db.blocks blockId
  let depth ← orConflict blockId none (parentDepth db.blocks docId parentId)
  let position ← orConflict blockId none (computePosition db.blocks docId parentId afterId)
  let row := insertedRow docId blockId payload parentId position depth
  let t ← writeRows blockId none (db.blocks.rows++[row])
  references (docId ∈ db.documents ∧ userId ∈ db.users)
  return (insertOutcome row,{ db with blocks := t })

def deleteOutcome (blockId : Uuid) (newVersion : ℤ) : AppliedOp where
  blockId := blockId
  newVersion := newVersion
  block := none
  opType := .delete_block
  payload := .delete

def deleteBlock (db : Database) (docId : DocId) (blockId : Uuid) (expectedVersion : Option ℤ) :
    Except Stop (AppliedOp × Database) :=
  match h : db.blocks.find docId blockId with
  | none => .ok (deleteOutcome blockId 0,db)
  | some row => do
    checkVersion row expectedVersion
    return (deleteOutcome blockId (row.version+1),
      { db with blocks := db.blocks.delete row ((find_some_iff _ _ _ _).mp h).1 })

def movedRow (parentId : Option Uuid) (position : Rank) (depth : ℕ) (version : ℤ)
    (r : BlockRow) : BlockRow :=
  { r with parentId := parentId, position := position, depth := depth, version := version }

def moveOutcome (row : BlockRow) : AppliedOp where
  blockId := row.blockId
  newVersion := row.version
  block := some (rowToBlock row)
  opType := .move_block
  payload := .move row.parentId row.position row.depth

def moveBlock (db : Database) (docId : DocId) (userId : UserId) (blockId : Uuid)
    (payload : Payload) (expectedVersion : Option ℤ) : Except Stop (AppliedOp × Database) := do
  let parentId ← IdField.read payload.parentId
  let afterId ← IdField.read payload.afterId
  let row ← fetchRow db.blocks docId blockId
  checkVersion row expectedVersion
  let current := some (rowToBlock row)
  let depth ← orConflict blockId current (parentDepth db.blocks docId parentId)
  let position ← orConflict blockId current (computePosition db.blocks docId parentId afterId)
  let change := movedRow parentId position depth (row.version+1)
  let t ← writeRows blockId current (setRow docId blockId change db.blocks.rows)
  references (userId ∈ db.users)
  return (moveOutcome (change row),{ db with blocks := t })

def contentRow (content : JsonObj) (version : ℤ) (r : BlockRow) : BlockRow :=
  { r with content := content, version := version }

theorem contentRow_place (content : JsonObj) (version : ℤ) (r : BlockRow) :
    SamePlace r (contentRow content version r) := ⟨rfl,rfl,rfl,rfl,rfl,rfl⟩

def Database.rewrite (db : Database) (docId : DocId) (blockId : Uuid) (content : JsonObj)
    (version : ℤ) : Database where
  documents := db.documents
  users := db.users
  blocks := db.blocks.update docId blockId (contentRow content version) (contentRow_place _ _)

def updateOutcome (op : OpType) (payload : AppliedPayload) (row : BlockRow) : AppliedOp where
  blockId := row.blockId
  newVersion := row.version
  block := some (rowToBlock row)
  opType := op
  payload := payload

def updateAttrs (db : Database) (docId : DocId) (userId : UserId) (blockId : Uuid)
    (payload : Payload) (expectedVersion : Option ℤ) : Except Stop (AppliedOp × Database) := do
  let patch := payload.attrs.getD []
  let row ← fetchRow db.blocks docId blockId
  checkVersion row expectedVersion
  let content ← mergeAttrs row.content patch
  references (userId ∈ db.users)
  return (updateOutcome .update_attrs (.attrs patch) (contentRow content (row.version+1) row),
    db.rewrite docId blockId content (row.version+1))

/-- Last writer wins: no version is compared. -/
def updateContent (db : Database) (docId : DocId) (userId : UserId) (blockId : Uuid)
    (payload : Payload) : Except Stop (AppliedOp × Database) := do
  let content := payload.content.getD []
  let row ← fetchRow db.blocks docId blockId
  references (userId ∈ db.users)
  return (updateOutcome .update_content (.content content)
    (contentRow content (row.version+1) row),db.rewrite docId blockId content (row.version+1))

def applyOp (db : Database) (docId : DocId) (userId : UserId) (op : BlockOperation) :
    Except Stop (AppliedOp × Database) :=
  match op.blockId with
  | .uuid blockId =>
    match op.op with
    | .insert_block => insertBlock db docId userId blockId op.payload
    | .delete_block => deleteBlock db docId blockId op.version
    | .move_block => moveBlock db docId userId blockId op.payload op.version
    | .update_attrs => updateAttrs db docId userId blockId op.payload op.version
    | .update_content => updateContent db docId userId blockId op.payload
  | _ => .error .raised

/-! ## What a successful operation did -/

theorem bind_ok {ε α β : Type} {x : Except ε α} {f : α → Except ε β} {b : β} :
    x >>= f = .ok b ↔ ∃ a, x = .ok a ∧ f a = .ok b := by
  cases x with
  | error e => simp [bind,Except.bind]
  | ok a => simp [bind,Except.bind]

theorem ok_of_any {ε α : Type} {x : Except ε α} {p : α → Bool}
    (h : x.toOption.any p = true) : ∃ a, x = .ok a ∧ p a = true := by
  cases x with
  | error e => cases h
  | ok a => exact ⟨a,rfl,h⟩

def isRaised {α : Type} : Except Stop α → Bool
  | .error .raised => true
  | _ => false

theorem raised_of_isRaised {α : Type} {x : Except Stop α} (h : isRaised x = true) :
    x = .error .raised := by
  unfold isRaised at h
  split at h
  · rfl
  · cases h

theorem orConflict_ok {α : Type} {blockId : Uuid} {current : Option Block}
    {x : Except String α} {a : α} : orConflict blockId current x = .ok a ↔ x = .ok a := by
  cases x with
  | error e => simp [orConflict]
  | ok b => simp [orConflict]

theorem references_ok {present : Bool} {u : Unit} :
    references present = .ok u ↔ present = true := by
  cases present with
  | true => simp [references]
  | false => simp [references]

theorem writeRows_ok {blockId : Uuid} {current : Option Block} {rows : List BlockRow}
    {t : Table} : writeRows blockId current rows = .ok t ↔ write rows = .ok t := by
  unfold writeRows
  split <;> simp_all

theorem checkFresh_ok {t : Table} {blockId : Uuid} {u : Unit} :
    checkFresh t blockId = .ok u ↔ ∀ r ∈ t.rows, r.blockId ≠ blockId := by
  unfold checkFresh
  split <;> simp_all

theorem fetchRow_ok {t : Table} {docId : DocId} {blockId : Uuid} {row : BlockRow} :
    fetchRow t docId blockId = .ok row ↔ t.find docId blockId = some row := by
  unfold fetchRow
  split <;> simp_all

theorem checkVersion_ok {row : BlockRow} {expectedVersion : Option ℤ} {u : Unit} :
    checkVersion row expectedVersion = .ok u ↔ ∀ v ∈ expectedVersion, row.version = v := by
  unfold checkVersion
  split <;> simp

theorem read_ok {field : IdField} {id : Option Uuid} :
    IdField.read field = .ok id ↔ field = .ofOption id := by
  cases field with
  | absent => cases id <;> simp [IdField.read,IdField.ofOption]
  | uuid b => cases id <;> simp [IdField.read,IdField.ofOption]
  | malformed => cases id <;> simp [IdField.read,IdField.ofOption]

inductive Applied (db : Database) (docId : DocId) (userId : UserId) (op : BlockOperation) :
    AppliedOp → Database → Prop where
  | insert {blockId : Uuid} {parentId afterId : Option Uuid} {depth : ℕ} {position : Rank}
      {t : Table} (hop : op.op = .insert_block) (hid : op.blockId = .uuid blockId)
      (hparent : IdField.read op.payload.parentId = .ok parentId)
      (hafter : IdField.read op.payload.afterId = .ok afterId)
      (hfresh : ∀ r ∈ db.blocks.rows, r.blockId ≠ blockId)
      (hdepth : parentDepth db.blocks docId parentId = .ok depth)
      (hposition : computePosition db.blocks docId parentId afterId = .ok position)
      (hwrite : write (db.blocks.rows++
        [insertedRow docId blockId op.payload parentId position depth]) = .ok t)
      (hrefs : docId ∈ db.documents ∧ userId ∈ db.users) :
      Applied db docId userId op
        (insertOutcome (insertedRow docId blockId op.payload parentId position depth))
        { db with blocks := t }
  | gone {blockId : Uuid} (hop : op.op = .delete_block) (hid : op.blockId = .uuid blockId)
      (hnone : db.blocks.find docId blockId = none) :
      Applied db docId userId op (deleteOutcome blockId 0) db
  | delete {row : BlockRow} (hop : op.op = .delete_block) (hid : op.blockId = .uuid row.blockId)
      (hrow : row ∈ db.blocks.rows) (hdoc : row.docId = docId)
      (hversion : ∀ v ∈ op.version, row.version = v) :
      Applied db docId userId op (deleteOutcome row.blockId (row.version+1))
        { db with blocks := db.blocks.delete row hrow }
  | move {row : BlockRow} {parentId afterId : Option Uuid} {depth : ℕ} {position : Rank}
      {t : Table} (hop : op.op = .move_block) (hid : op.blockId = .uuid row.blockId)
      (hparent : IdField.read op.payload.parentId = .ok parentId)
      (hafter : IdField.read op.payload.afterId = .ok afterId)
      (hrow : row ∈ db.blocks.rows) (hdoc : row.docId = docId)
      (hversion : ∀ v ∈ op.version, row.version = v)
      (hdepth : parentDepth db.blocks docId parentId = .ok depth)
      (hposition : computePosition db.blocks docId parentId afterId = .ok position)
      (hwrite : write (setRow docId row.blockId
        (movedRow parentId position depth (row.version+1)) db.blocks.rows) = .ok t)
      (huser : userId ∈ db.users) :
      Applied db docId userId op
        (moveOutcome (movedRow parentId position depth (row.version+1) row))
        { db with blocks := t }
  | attrs {row : BlockRow} {content : JsonObj} (hop : op.op = .update_attrs)
      (hid : op.blockId = .uuid row.blockId)
      (hrow : row ∈ db.blocks.rows) (hdoc : row.docId = docId)
      (hversion : ∀ v ∈ op.version, row.version = v)
      (hcontent : mergeAttrs row.content (op.payload.attrs.getD []) = .ok content)
      (huser : userId ∈ db.users) :
      Applied db docId userId op
        (updateOutcome .update_attrs (.attrs (op.payload.attrs.getD []))
          (contentRow content (row.version+1) row))
        (db.rewrite docId row.blockId content (row.version+1))
  | content {row : BlockRow} (hop : op.op = .update_content)
      (hid : op.blockId = .uuid row.blockId)
      (hrow : row ∈ db.blocks.rows) (hdoc : row.docId = docId) (huser : userId ∈ db.users) :
      Applied db docId userId op
        (updateOutcome .update_content (.content (op.payload.content.getD []))
          (contentRow (op.payload.content.getD []) (row.version+1) row))
        (db.rewrite docId row.blockId (op.payload.content.getD []) (row.version+1))

theorem deleteBlock_ok {db next : Database} {docId : DocId} {blockId : Uuid}
    {expectedVersion : Option ℤ} {a : AppliedOp}
    (h : deleteBlock db docId blockId expectedVersion = .ok (a,next)) :
    (db.blocks.find docId blockId = none ∧ a = deleteOutcome blockId 0 ∧ next = db) ∨
    ∃ row, ∃ hrow : row ∈ db.blocks.rows, row.docId = docId ∧ row.blockId = blockId ∧
      (∀ v ∈ expectedVersion, row.version = v) ∧
      a = deleteOutcome blockId (row.version+1) ∧
      next = { db with blocks := db.blocks.delete row hrow } := by
  unfold deleteBlock at h
  split at h
  · next hnone =>
    cases h
    exact Or.inl ⟨hnone,rfl,rfl⟩
  · next row hsome =>
    obtain ⟨_,hv,hr⟩ := bind_ok.mp h
    obtain ⟨hrow,hdoc,hid⟩ := (find_some_iff _ _ _ _).mp hsome
    cases hr
    exact Or.inr ⟨row,hrow,hdoc,hid,checkVersion_ok.mp hv,rfl,rfl⟩

theorem applyOp_applied {db next : Database} {docId : DocId} {userId : UserId}
    {op : BlockOperation} {a : AppliedOp} (h : applyOp db docId userId op = .ok (a,next)) :
    Applied db docId userId op a next := by
  unfold applyOp at h
  split at h
  · next blockId hid =>
    split at h
    · next hop =>
      simp only [insertBlock,bind_ok,orConflict_ok,references_ok,writeRows_ok,checkFresh_ok] at h
      obtain ⟨p,hp,af,ha,_,hf,d,hd,pos,hpos,t,ht,_,hr,he⟩ := h
      cases he
      exact .insert hop hid hp ha hf hd hpos ht (of_decide_eq_true hr)
    · next hop =>
      rcases deleteBlock_ok h with ⟨hn,rfl,rfl⟩ | ⟨row,hrow,hdoc,rfl,hv,rfl,rfl⟩
      · exact .gone hop hid hn
      · exact .delete hop hid hrow hdoc hv
    · next hop =>
      simp only [moveBlock,bind_ok,orConflict_ok,references_ok,writeRows_ok,checkVersion_ok,
        fetchRow_ok,find_some_iff] at h
      obtain ⟨p,hp,af,ha,row,⟨hrow,hdoc,rfl⟩,_,hv,d,hd,pos,hpos,t,ht,_,hu,he⟩ := h
      cases he
      exact .move hop hid hp ha hrow hdoc hv hd hpos ht (of_decide_eq_true hu)
    · next hop =>
      simp only [updateAttrs,bind_ok,references_ok,checkVersion_ok,fetchRow_ok,find_some_iff] at h
      obtain ⟨row,⟨hrow,hdoc,rfl⟩,_,hv,c,hc,_,hu,he⟩ := h
      cases he
      exact .attrs hop hid hrow hdoc hv hc (of_decide_eq_true hu)
    · next hop =>
      simp only [updateContent,bind_ok,references_ok,fetchRow_ok,find_some_iff] at h
      obtain ⟨row,⟨hrow,hdoc,rfl⟩,_,hu,he⟩ := h
      cases he
      exact .content hop hid hrow hdoc (of_decide_eq_true hu)
  · cases h

theorem rank_ok {left right : Option Rank} {p : Rank} :
    rank left right = .ok p ↔ midpoint left right = .ok p := by
  unfold rank
  cases midpoint left right <;> simp [Except.mapError]

theorem computePosition_head {t : Table} {docId : DocId} {parentId : Option Uuid} {p : Rank} :
    computePosition t docId parentId none = .ok p ↔
      midpoint none (nextPosition t docId parentId none) = .ok p := rank_ok

theorem computePosition_after {t : Table} {docId : DocId} {parentId : Option Uuid}
    {afterId : Uuid} {p : Rank} :
    computePosition t docId parentId (some afterId) = .ok p ↔
      ∃ r ∈ t.rows, r.docId = docId ∧ r.blockId = afterId ∧
        midpoint (some r.position) (nextPosition t docId parentId (some r.position)) = .ok p := by
  cases hf : t.find docId afterId with
  | none =>
    have hnone := (find_none_iff _ _ _).mp hf
    simp only [computePosition,hf,reduceCtorEq,false_iff,not_exists,not_and]
    exact fun r hr hdoc hid => absurd ⟨hdoc,hid⟩ (hnone r hr)
  | some row =>
    obtain ⟨hrow,hdoc,hid⟩ := (find_some_iff _ _ _ _).mp hf
    simp only [computePosition,hf,rank_ok]
    constructor
    · exact fun h => ⟨row,hrow,hdoc,hid,h⟩
    · rintro ⟨r,hr,_,hrid,h⟩
      rwa [row_unique t hrow hr (hid.trans hrid.symm)]

theorem mem_siblings {t : Table} {docId : DocId} {parentId : Option Uuid} {r : BlockRow} :
    r ∈ siblings t docId parentId ↔ r ∈ t.rows ∧ r.docId = docId ∧ r.parentId = parentId := by
  simp [siblings]

theorem nextPosition_head {t : Table} {docId : DocId} {parentId : Option Uuid} {z : Rank}
    (h : nextPosition t docId parentId none = some z) :
    (∃ r ∈ siblings t docId parentId, r.position = z) ∧
      ∀ r ∈ siblings t docId parentId, z ≤ r.position := by
  obtain ⟨hmem,hle⟩ := List.min?_eq_some_iff.mp h
  exact ⟨List.mem_map.mp hmem,fun r hr => hle _ (List.mem_map_of_mem hr)⟩

theorem nextPosition_above {t : Table} {docId : DocId} {parentId : Option Uuid} {left z : Rank}
    (h : nextPosition t docId parentId (some left) = some z) :
    (∃ r ∈ siblings t docId parentId, r.position = z) ∧ left < z ∧
      ∀ r ∈ siblings t docId parentId, left < r.position → z ≤ r.position := by
  obtain ⟨hmem,hle⟩ := List.min?_eq_some_iff.mp h
  obtain ⟨hz,hlt⟩ := List.mem_filter.mp hmem
  refine ⟨List.mem_map.mp hz,of_decide_eq_true hlt,fun r hr hrl => ?_⟩
  exact hle _ (List.mem_filter.mpr ⟨List.mem_map_of_mem hr,decide_eq_true hrl⟩)

theorem nextPosition_mem {t : Table} {docId : DocId} {parentId : Option Uuid} {left : Option Rank}
    {z : Rank} (h : nextPosition t docId parentId left = some z) :
    ∃ r ∈ siblings t docId parentId, r.position = z := by
  cases left with
  | none => exact (nextPosition_head h).1
  | some left => exact (nextPosition_above h).1

theorem nextPosition_none {t : Table} {docId : DocId} {parentId : Option Uuid} {left : Rank}
    (h : nextPosition t docId parentId (some left) = none) :
    ∀ r ∈ siblings t docId parentId, r.position ≤ left := by
  intro r hr
  by_contra hlt
  have hnil := List.min?_eq_none_iff.mp h
  have hmem : r.position ∈ ((siblings t docId parentId).map BlockRow.position).filter (left < ·) :=
    List.mem_filter.mpr ⟨List.mem_map_of_mem hr,decide_eq_true (not_le.mp hlt)⟩
  rw [hnil] at hmem
  exact absurd hmem List.not_mem_nil

theorem parentDepth_found {t : Table} {docId : DocId} {parentId : Uuid} {depth : ℕ}
    (h : parentDepth t docId (some parentId) = .ok depth) :
    ∃ row ∈ t.rows, row.docId = docId ∧ row.blockId = parentId ∧ depth = row.depth+1 := by
  unfold parentDepth at h
  cases hf : t.find docId parentId with
  | none => simp [hf] at h
  | some row =>
    obtain ⟨hrow,hdoc,hid⟩ := (find_some_iff _ _ _ _).mp hf
    simp only [hf,Except.ok.injEq] at h
    exact ⟨row,hrow,hdoc,hid,h.symm⟩

def Reaches (db : Database) (docId : DocId) (op : BlockOperation)
    (parentId afterId : Option Uuid) : Prop :=
  op.payload.parentId = .ofOption parentId ∧ op.payload.afterId = .ofOption afterId ∧
    (∃ depth, parentDepth db.blocks docId parentId = .ok depth) ∧
    ((op.op = .insert_block ∧ ∃ b, op.blockId = .uuid b ∧
        ∀ r ∈ db.blocks.rows, r.blockId ≠ b) ∨
      (op.op = .move_block ∧ ∃ r ∈ db.blocks.rows, op.blockId = .uuid r.blockId ∧
        r.docId = docId ∧ ∀ v ∈ op.version, r.version = v))

end BlockDocs.ApplyOps
