import BlockDocs.ClientRun
import BlockDocs.PresignedImages
import BlockDocs.Protocol
import BlockDocs.SnapshotCursor
import BlockDocs.StreamIds
import BlockDocs.UuidTexts

/-!
# Operations as JSON values

A page sends an operation to the WebSocket server, which sends it on to the api; answers and the
operations of others come back. Each of them writes JSON values and reads those of the one before
it, and what the api and the pages do is what they would do with the values themselves.
-/

set_option autoImplicit false

namespace BlockDocs.OperationTexts
open BlockDocs.InsertionMap BlockDocs.LexoRank BlockDocs.Wire BlockDocs.DocBlocks
open BlockDocs.ApplyOps BlockDocs.PostOperations BlockDocs.BlockStore BlockDocs.ClientRun
open BlockDocs.Protocol BlockDocs.StreamIds BlockDocs.UuidTexts BlockDocs.SnapshotCursor

/-! ## What a page sends -/

def uuidJson : Option Uuid → Json
  | none => .null
  | some id => .str (uuidText id)

/-- The store puts ids of blocks and null into its operations. -/
def idFieldJson : IdField → Json
  | .uuid id => .str (uuidText id)
  | _ => .null

def rankJson (r : Rank) : Json := .str (String.ofList r)

/-- A key that is left out where there is no value. -/
def optionalField (key : String) (v : Option Json) : JsonObj := v.elim [] (fun v => [(key,v)])

def payloadJson (op : BlockOperation) : JsonObj :=
  let p := op.payload
  match op.op with
  | .insert_block =>
    optionalField "type" (p.type.map .str)++
      ([("parentId",idFieldJson p.parentId),("afterId",idFieldJson p.afterId)]++
        (optionalField "content" (p.content.map .obj)++
          optionalField "position" (p.position.map rankJson)))
  | .delete_block => []
  | .move_block =>
    [("parentId",idFieldJson p.parentId),("afterId",idFieldJson p.afterId)]++
      optionalField "position" (p.position.map rankJson)
  | .update_attrs => optionalField "attrs" (p.attrs.map .obj)
  | .update_content => optionalField "content" (p.content.map .obj)

def sentJson (op : BlockOperation) : Json :=
  .obj ([("op",.str (opTypeText op.op)),("blockId",idFieldJson op.blockId),
    ("payload",.obj (payloadJson op))]++optionalField "version" (op.version.map .num))

def frameJson (p : Pending) : Json :=
  .obj [("ch",.str "ops"),("clientSeq",.num p.clientSeq),("ops",.arr (p.ops.map sentJson))]

/-! ## What the WebSocket server sends on -/

def forwardedJson (msg : ClientOpsMessage) : Json :=
  .obj [("clientSeq",.num msg.clientSeq),("ops",.arr (msg.ops.map operationJson))]

/-! ## What the api reads -/

structure RawOperation where
  op : OpType
  blockId : String
  payload : JsonObj
  version : Option ℤ

structure OperationsRequest where
  clientSeq : ℤ
  ops : List RawOperation

/-- A field under its alias or its own name. -/
def aliased (key name : String) (fields : JsonObj) : Option Json :=
  (lookup key fields).or (lookup name fields)

def text : Json → Option String
  | .str s => some s
  | _ => none

def number : Json → Option ℤ
  | .num n => some n
  | _ => none

def nullable {α : Type} (read : Json → Option α) : Option Json → Option (Option α)
  | none => some none
  | some .null => some none
  | some v => (read v).map some

def rawOperation (v : Json) : Option RawOperation := do
  let fields ← record v
  let op ← (lookup "op" fields).bind opType
  let blockId ← (aliased "blockId" "block_id" fields).bind text
  let payload ← match lookup "payload" fields with
    | none => some []
    | some v => record v
  let version ← nullable number (lookup "version" fields)
  return ⟨op,blockId,payload,version⟩

def operationsRequest (v : Json) : Option OperationsRequest := do
  let fields ← record v
  let clientSeq ← (aliased "clientSeq" "client_seq" fields).bind number
  let items ← match lookup "ops" fields with
    | some (.arr items) => some items
    | _ => none
  let ops ← items.mapM rawOperation
  return ⟨clientSeq,ops⟩

def uuidField (text : String) : IdField :=
  match readUuid text.toList with
  | some id => .uuid id
  | none => .malformed

/-- `UUID(raw) if raw else None`; `UUID` of what is no text raises as well. -/
def optionalUuid : Option Json → IdField
  | none => .absent
  | some (.str s) => if s = "" then .absent else uuidField s
  | some v => if truthy v then .malformed else .absent

/-- What the handlers read of an operation, where type, content and attributes are of the kinds
that pages send. None of them reads `position`. -/
def RawOperation.operation (raw : RawOperation) : BlockOperation where
  op := raw.op
  blockId := uuidField raw.blockId
  payload := {
    type := (lookup "type" raw.payload).bind text
    parentId := optionalUuid (lookup "parentId" raw.payload)
    afterId := optionalUuid (lookup "afterId" raw.payload)
    content := (lookup "content" raw.payload).bind record
    attrs := (lookup "attrs" raw.payload).bind record }
  version := raw.version

/-! ## What the api answers -/

def statusText : OpStatus → String
  | .applied => "applied"
  | .conflict => "conflict"

def blockJson (b : Block) : Json :=
  .obj [("blockId",.str (uuidText b.blockId)),("parentId",uuidJson b.parentId),
    ("position",rankJson b.position),("depth",.num b.depth),("type",.str b.type),
    ("content",.obj b.content),("version",.num b.version)]

def resultJson (r : OpResult) : Json :=
  .obj [("blockId",.str (uuidText r.blockId)),("newVersion",.num r.newVersion),
    ("status",.str (statusText r.status)),("current",r.current.elim .null blockJson)]

def streamJson : Option StreamId → Json
  | none => .null
  | some id => .str (String.ofList (idText id))

def responseJson (results : List OpResult) (streamId : Option StreamId) : Json :=
  .obj [("results",.arr (results.map resultJson)),("streamId",streamJson streamId)]

def detailJson (errors : List Json) : Json := .obj [("detail",.arr errors)]

def appliedJson : AppliedPayload → JsonObj
  | .insert type parentId position depth content =>
    [("type",.str type),("parentId",uuidJson parentId),("position",rankJson position),
      ("depth",.num depth),("content",.obj content)]
  | .delete => []
  | .move parentId position depth =>
    [("parentId",uuidJson parentId),("position",rankJson position),("depth",.num depth)]
  | .attrs patch => [("attrs",.obj patch)]
  | .content content => [("content",.obj content)]

def viewJson (blockId : Uuid) : Option Block → Json
  | some b => blockJson b
  | none => .obj [("blockId",.str (uuidText blockId)),("deleted",.bool true)]

def wireJson (o : WireOp) : Json :=
  .obj [("op",.str (opTypeText o.op)),("blockId",.str (uuidText o.blockId)),
    ("payload",.obj (appliedJson o.payload)),("version",.num o.version),
    ("block",viewJson o.blockId o.block)]

def remoteJson (ops : List WireOp) (userId : UserId) (streamId : Option StreamId) : Json :=
  .obj [("ch",.str "remote_ops"),("ops",.arr (ops.map wireJson)),("userId",.num userId),
    ("streamId",streamJson streamId)]

def snapshotJson (snap : BlocksResponse) : Json :=
  .obj [("docId",.num snap.docId),("blocks",.arr (snap.blocks.map blockJson)),
    ("lastStreamId",.str (String.ofList (idText snap.lastStreamId)))]

/-! ## What the WebSocket server answers -/

inductive HttpReply where
  | unreachable
  | response (status : ℕ) (body : Option Json)

def memberOr (key : String) (body : Option Json) (fallback : Json) : Json :=
  match body with
  | some (.obj fields) =>
    match lookup key fields with
    | none => fallback
    | some .null => fallback
    | some v => v
  | _ => fallback

def ackJson (clientSeq : ℕ) (results : Json) : Json :=
  .obj [("ch",.str "ack"),("clientSeq",.num clientSeq),("results",results)]

def nackJson (clientSeq : ℕ) (conflicts : Json) : Json :=
  .obj [("ch",.str "nack"),("clientSeq",.num clientSeq),("conflicts",conflicts)]

def firstConflict (msg : ClientOpsMessage) (reason : Json) : Json :=
  .arr [.obj [("blockId",.str ((msg.ops.head?.map (fun o => o.blockId.text)).getD "")),
    ("reason",reason)]]

def answerJson (msg : ClientOpsMessage) : HttpReply → Json
  | .unreachable => nackJson msg.clientSeq (firstConflict msg (.str "api_unreachable"))
  | .response status body =>
    if status = 409 then
      nackJson msg.clientSeq (memberOr "conflicts" body (firstConflict msg (.str "conflict")))
    else if status ≥ 500 ∨ status ≥ 400 then
      nackJson msg.clientSeq (firstConflict msg
        (memberOr "detail" body (.str ("api_error_" ++ toString status))))
    else ackJson msg.clientSeq (memberOr "results" body (.arr []))

/-! ## What a page reads -/

def parentField (v : Option Json) : Option (Option Uuid) :=
  nullable (fun v => (text v).bind textId) v

def rankField (v : Json) : Option Rank := (text v).map String.toList

def contentField (v : Option Json) : Option JsonObj := (nullable record v).map (·.getD [])

def natural (v : Json) : Option ℕ := (number v).map Int.toNat

def readBlock (v : Json) : Option Block := do
  let fields ← record v
  let blockId ← ((lookup "blockId" fields).bind text).bind textId
  let parentId ← parentField (lookup "parentId" fields)
  let position ← (lookup "position" fields).bind rankField
  let depth ← (lookup "depth" fields).bind natural
  let type ← (lookup "type" fields).bind text
  let content ← (lookup "content" fields).bind record
  let version ← (lookup "version" fields).bind number
  return ⟨blockId,parentId,position,depth,type,content,version⟩

/-- Status and current block of a result are not looked at. -/
def readResult (v : Json) : Option OpResult := do
  let fields ← record v
  let blockId ← ((lookup "blockId" fields).bind text).bind textId
  let newVersion ← (lookup "newVersion" fields).bind number
  return ⟨blockId,newVersion,.applied,none⟩

def readConflict (v : Json) : Option ConflictInfo := do
  let fields ← record v
  let blockId ← (lookup "blockId" fields).bind text
  let current ← nullable readBlock (lookup "current" fields)
  return ⟨match textId blockId with | some id => .uuid id | none => .malformed,none,current⟩

def readPayload (fields : JsonObj) : OpType → Option AppliedPayload
  | .insert_block => do
    let type ← (lookup "type" fields).bind text
    let parentId ← parentField (lookup "parentId" fields)
    let position ← (lookup "position" fields).bind rankField
    let content ← contentField (lookup "content" fields)
    return .insert type parentId position 0 content
  | .delete_block => some .delete
  | .move_block => do
    let parentId ← parentField (lookup "parentId" fields)
    let position ← (lookup "position" fields).bind rankField
    return .move parentId position 0
  | .update_attrs => (contentField (lookup "attrs" fields)).map .attrs
  | .update_content => ((lookup "content" fields).bind record).map .content

/-- Depth and view of the server are not looked at. -/
def readWire (v : Json) : Option WireOp := do
  let fields ← record v
  let op ← (lookup "op" fields).bind opType
  let blockId ← ((lookup "blockId" fields).bind text).bind textId
  let items ← (lookup "payload" fields).bind record
  let payload ← readPayload items op
  let version ← (lookup "version" fields).bind number
  return ⟨op,blockId,payload,version,none⟩

def readAll {α : Type} (read : Json → Option α) : Json → Option (List α)
  | .arr items => items.mapM read
  | _ => none

def readStream : Json → Option StreamId
  | .str s => readStreamId s.toList
  | _ => none

def onMessage (s : Store) (v : Json) : Option Store := do
  let fields ← record v
  let ch ← (lookup "ch" fields).bind text
  if ch = "remote_ops" then do
    let ops ← (lookup "ops" fields).bind (readAll readWire)
    let streamId ← nullable readStream (lookup "streamId" fields)
    return s.applyRemoteOps ops streamId
  else if ch = "ack" then do
    let clientSeq ← (lookup "clientSeq" fields).bind natural
    let results ← (lookup "results" fields).bind (readAll readResult)
    return s.handleAck clientSeq results
  else if ch = "nack" then do
    let clientSeq ← (lookup "clientSeq" fields).bind natural
    let conflicts ← (lookup "conflicts" fields).bind (readAll readConflict)
    return s.handleNack clientSeq conflicts
  else none

def readSnapshot (v : Json) : Option BlocksResponse := do
  let fields ← record v
  let docId ← (lookup "docId" fields).bind natural
  let blocks ← (lookup "blocks" fields).bind (readAll readBlock)
  let lastStreamId ← (lookup "lastStreamId" fields).bind readStream
  return ⟨docId,blocks,lastStreamId⟩

/-! ## From the page to the api -/

def IsIds (id : Option Uuid) : Prop := ∀ p ∈ id, IsId p

inductive Made : BlockOperation → Prop where
  | insert {b : Block} {afterId : Option Uuid} (hid : IsId b.blockId) (hparent : IsIds b.parentId)
      (hafter : IsIds afterId) : Made (insertOp b afterId)
  | delete {blockId : Uuid} {version : ℤ} (hid : IsId blockId) (hversion : 0 ≤ version) :
      Made (deleteOp blockId version)
  | move {blockId : Uuid} {moved : Block} {afterId : Option Uuid} (hid : IsId blockId)
      (hparent : IsIds moved.parentId) (hafter : IsIds afterId) (hversion : 0 ≤ moved.version) :
      Made (moveOp blockId moved afterId)
  | attrs {blockId : Uuid} {attrs : JsonObj} {version : ℤ} (hid : IsId blockId)
      (hversion : 0 ≤ version) : Made (attrsOp blockId attrs version)

def withoutPosition (op : BlockOperation) : BlockOperation :=
  { op with payload := { op.payload with position := none } }

theorem uuidField_text {id : Uuid} (h : IsId id) : uuidField (uuidText id) = .uuid id := by
  rw [uuidField,readUuid_text h]

theorem optionalUuid_json {id : Option Uuid} (h : IsIds id) :
    optionalUuid (some (idFieldJson (.ofOption id))) = .ofOption id := by
  cases id with
  | none => rfl
  | some p =>
    have hid := uuidField_text (h p rfl)
    simp [idFieldJson,IdField.ofOption,optionalUuid,uuidText_ne_empty,hid]

def clientOperation (op : BlockOperation) (id : Uuid) : ClientOperation where
  op := op.op
  blockId := ⟨uuidText id,uuidText_ne_empty id⟩
  payload := payloadJson op
  version := op.version.map Int.toNat

theorem operationJson_client {op : BlockOperation} {id : Uuid} (hid : op.blockId = .uuid id)
    (hversion : ∀ v ∈ op.version, 0 ≤ v) : operationJson (clientOperation op id) = sentJson op := by
  cases hv : op.version with
  | none => simp [operationJson,clientOperation,sentJson,optionalField,idFieldJson,hid,hv]
  | some v =>
    have hback : ((v.toNat : ℕ) : ℤ) = v := Int.toNat_of_nonneg (hversion v hv)
    simp [operationJson,clientOperation,sentJson,optionalField,idFieldJson,hid,hv,hback]

theorem rawOperation_json (o : ClientOperation) : rawOperation (operationJson o) =
    some ⟨o.op,o.blockId.text,o.payload,o.version.map Int.ofNat⟩ := by
  obtain ⟨op,blockId,payload,version⟩ := o
  cases version with
  | none =>
    simp [rawOperation,operationJson,record,lookup_cons,lookup_nil,opType_text,aliased,text,
      nullable]
  | some v =>
    simp [rawOperation,operationJson,record,lookup_cons,opType_text,aliased,text,nullable,number]

theorem made_read {op : BlockOperation} (h : Made op) : ∃ id, op.blockId = .uuid id ∧ IsId id ∧
    (∀ v ∈ op.version, 0 ≤ v) ∧ RawOperation.operation ⟨op.op,uuidText id,payloadJson op,
      op.version⟩ = withoutPosition op := by
  cases h with
  | @insert b afterId hid hparent hafter =>
    refine ⟨b.blockId,rfl,hid,nofun,?_⟩
    simp [RawOperation.operation,withoutPosition,payloadJson,insertOp,optionalField,lookup_cons,
      uuidField_text hid,optionalUuid_json hparent,optionalUuid_json hafter,text,record,lookup_nil]
  | @delete blockId version hid hversion =>
    refine ⟨blockId,rfl,hid,?_,?_⟩
    · simpa [deleteOp] using hversion
    · simp [RawOperation.operation,withoutPosition,payloadJson,deleteOp,uuidField_text hid,
        lookup_nil,optionalUuid]
  | @move blockId moved afterId hid hparent hafter hversion =>
    refine ⟨blockId,rfl,hid,?_,?_⟩
    · simpa [moveOp] using hversion
    · simp [RawOperation.operation,withoutPosition,payloadJson,moveOp,optionalField,lookup_cons,
        uuidField_text hid,optionalUuid_json hparent,optionalUuid_json hafter,lookup_nil]
  | @attrs blockId attrs version hid hversion =>
    refine ⟨blockId,rfl,hid,?_,?_⟩
    · simpa [attrsOp] using hversion
    · simp [RawOperation.operation,withoutPosition,payloadJson,attrsOp,optionalField,lookup_cons,
        uuidField_text hid,lookup_nil,optionalUuid,record]

theorem frame_parsed {p : Pending} {op : BlockOperation} {id : Uuid} (hp : p.ops = [op])
    (hid : op.blockId = .uuid id) (hversion : ∀ v ∈ op.version, 0 ≤ v) :
    parsed (some (frameJson p)) =
      some (.ops ⟨p.clientSeq,[clientOperation op id],List.cons_ne_nil _ _⟩) := by
  have hframe : frameJson p =
      opsJson ⟨p.clientSeq,[clientOperation op id],List.cons_ne_nil _ _⟩ := by
    simp [frameJson,opsJson,hp,operationJson_client hid hversion]
  rw [hframe,parsed_ops]

theorem forwarded_read {op : BlockOperation} {id : Uuid} {clientSeq : ℕ}
    (hversion : ∀ v ∈ op.version, 0 ≤ v) (hne : [clientOperation op id] ≠ []) :
    operationsRequest (forwardedJson ⟨clientSeq,[clientOperation op id],hne⟩) =
      some ⟨clientSeq,[⟨op.op,uuidText id,payloadJson op,op.version⟩]⟩ := by
  have hback : (op.version.map Int.toNat).map Int.ofNat = op.version := by
    cases hv : op.version with
    | none => rfl
    | some v => simp [Int.toNat_of_nonneg (hversion v hv)]
  have hraw := rawOperation_json (clientOperation op id)
  simp only [clientOperation,hback] at hraw
  simp [operationsRequest,forwardedJson,record,lookup_cons,aliased,number,clientOperation,hraw]

/-- No handler looks at the position that a page has chosen. -/
theorem applyOp_withoutPosition (db : Database) (docId : DocId) (userId : UserId)
    (op : BlockOperation) : applyOp db docId userId (withoutPosition op) =
      applyOp db docId userId op := by
  obtain ⟨kind,blockId,payload,version⟩ := op
  cases kind <;> rfl

theorem post_withoutPosition (db : Database) (docId : DocId) (userId : UserId)
    (op : BlockOperation) : postOperations db docId userId [withoutPosition op] =
      postOperations db docId userId [op] := by
  simp only [postOperations,applyAll,applyIn,applyOp_withoutPosition]

/-! ## From the api to the page -/

def ProperBlock (b : Block) : Prop := IsId b.blockId ∧ IsIds b.parentId ∧ 0 ≤ b.version

theorem parentField_json {id : Option Uuid} (h : IsIds id) :
    parentField (some (uuidJson id)) = some id := by
  cases id with
  | none => rfl
  | some p => simp [parentField,uuidJson,nullable,text,textId_text (h p rfl)]

theorem rankField_json (r : Rank) : rankField (rankJson r) = some r := by
  simp [rankField,rankJson,text]

theorem readBlock_json {b : Block} (h : ProperBlock b) : readBlock (blockJson b) = some b := by
  obtain ⟨hid,hparent,_⟩ := h
  simp [readBlock,blockJson,record,lookup_cons,text,textId_text hid,parentField_json hparent,
    rankField_json,natural,number]

theorem readAll_json {α β : Type} {read : Json → Option β} {write : α → Json} {f : α → β}
    {items : List α} (h : ∀ a ∈ items, read (write a) = some (f a)) :
    readAll read (.arr (items.map write)) = some (items.map f) := by
  induction items with
  | nil => rfl
  | cons a items ih =>
    have hrest : (items.map write).mapM read = some (items.map f) :=
      ih (fun b hb => h b (List.mem_cons_of_mem a hb))
    simp [readAll,h a List.mem_cons_self,hrest]

theorem readStream_json (streamId : Option StreamId) :
    nullable readStream (some (streamJson streamId)) = some streamId := by
  cases streamId with
  | none => rfl
  | some id => simp [nullable,streamJson,readStream]

theorem readSnapshot_json {snap : BlocksResponse} (h : ∀ b ∈ snap.blocks, ProperBlock b) :
    readSnapshot (snapshotJson snap) = some snap := by
  have hblocks : readAll readBlock (.arr (snap.blocks.map blockJson)) = some (snap.blocks.map id) :=
    readAll_json (fun b hb => readBlock_json (h b hb))
  rw [List.map_id] at hblocks
  simp [readSnapshot,snapshotJson,record,lookup_cons,natural,number,hblocks,readStream]

/-! ## Results and operations -/

def seenResult (r : OpResult) : OpResult := ⟨r.blockId,r.newVersion,.applied,none⟩

theorem readResult_json {r : OpResult} (h : IsId r.blockId) :
    readResult (resultJson r) = some (seenResult r) := by
  simp [readResult,resultJson,record,lookup_cons,text,textId_text h,number,seenResult]

theorem handleAck_seen (s : Store) (clientSeq : ℕ) (results : List OpResult) :
    s.handleAck clientSeq (results.map seenResult) = s.handleAck clientSeq results := by
  simp only [Store.handleAck,List.foldl_map]
  rfl

def payloadType : AppliedPayload → OpType
  | .insert _ _ _ _ _ => .insert_block
  | .delete => .delete_block
  | .move _ _ _ => .move_block
  | .attrs _ => .update_attrs
  | .content _ => .update_content

def payloadParent : AppliedPayload → Option Uuid
  | .insert _ parentId _ _ _ => parentId
  | .move parentId _ _ => parentId
  | _ => none

structure ProperWire (o : WireOp) : Prop where
  op : o.op = payloadType o.payload
  id : IsId o.blockId
  parent : IsIds (payloadParent o.payload)
  version : 0 ≤ o.version

def seenPayload : AppliedPayload → AppliedPayload
  | .insert type parentId position _ content => .insert type parentId position 0 content
  | .move parentId position _ => .move parentId position 0
  | payload => payload

def seenWire (o : WireOp) : WireOp := ⟨o.op,o.blockId,seenPayload o.payload,o.version,none⟩

theorem readPayload_json {payload : AppliedPayload} (h : IsIds (payloadParent payload)) :
    readPayload (appliedJson payload) (payloadType payload) = some (seenPayload payload) := by
  cases payload with
  | insert type parentId position depth content =>
    have hparent : parentField (some (uuidJson parentId)) = some parentId := parentField_json h
    simp [readPayload,appliedJson,payloadType,seenPayload,lookup_cons,text,hparent,rankField_json,
      contentField,nullable,record]
  | delete => rfl
  | move parentId position depth =>
    have hparent : parentField (some (uuidJson parentId)) = some parentId := parentField_json h
    simp [readPayload,appliedJson,payloadType,seenPayload,lookup_cons,hparent,rankField_json]
  | attrs patch =>
    simp [readPayload,appliedJson,payloadType,seenPayload,lookup_cons,contentField,nullable,record]
  | content content =>
    simp [readPayload,appliedJson,payloadType,seenPayload,lookup_cons,record]

theorem readWire_json {o : WireOp} (h : ProperWire o) :
    readWire (wireJson o) = some (seenWire o) := by
  have hpayload := readPayload_json h.parent
  rw [← h.op] at hpayload
  simp [readWire,wireJson,record,lookup_cons,opType_text,text,textId_text h.id,hpayload,number,
    seenWire]

theorem applyRemoteOp_seen (next : Blocks) (o : WireOp) :
    applyRemoteOp next (seenWire o) = applyRemoteOp next o := by
  obtain ⟨op,blockId,payload,version,block⟩ := o
  cases payload <;> rfl

theorem applyRemoteOps_seen (s : Store) (ops : List WireOp) (streamId : Option StreamId) :
    s.applyRemoteOps (ops.map seenWire) streamId = s.applyRemoteOps ops streamId := by
  simp only [Store.applyRemoteOps,List.foldl_map,applyRemoteOp_seen]

theorem remote_received (s : Store) {ops : List WireOp} (h : ∀ o ∈ ops, ProperWire o)
    (userId : UserId) (streamId : Option StreamId) :
    onMessage s (remoteJson ops userId streamId) = some (s.applyRemoteOps ops streamId) := by
  have hops := readAll_json (fun o ho => readWire_json (h o ho))
  simp [onMessage,remoteJson,record,lookup_cons,text,hops,readStream_json,applyRemoteOps_seen]

theorem ack_received (s : Store) (clientSeq : ℕ) {results : List OpResult}
    (h : ∀ r ∈ results, IsId r.blockId) :
    onMessage s (ackJson clientSeq (.arr (results.map resultJson))) =
      some (s.handleAck clientSeq results) := by
  have hresults := readAll_json (fun r hr => readResult_json (h r hr))
  simp [onMessage,ackJson,record,lookup_cons,text,hresults,natural,number,handleAck_seen]

end BlockDocs.OperationTexts
