import BlockDocs.GuardedRun
import BlockDocs.LoneWriter
import BlockDocs.OperationTexts
import BlockDocs.Reachability

/-!
# Pages and api over JSON

Pages act, send their operations in any order and more than once, load the document, and read
what the api has answered or published. The same runs, once with the values of the stores and of
the handlers and once with the JSON that is exchanged, end in the same stores and rows.
-/

set_option autoImplicit false

namespace BlockDocs.JsonExchange
open BlockDocs.InsertionMap BlockDocs.Wire BlockDocs.Decimal BlockDocs.DocBlocks
open BlockDocs.ApplyOps BlockDocs.PostOperations BlockDocs.Reachability BlockDocs.GuardedRun
open BlockDocs.BlockStore BlockDocs.ClientRun BlockDocs.LoneWriter BlockDocs.Protocol
open BlockDocs.PresignedImages BlockDocs.SnapshotCursor BlockDocs.UuidTexts
open BlockDocs.OperationTexts

/-! ## Worlds -/

/-- Messages to the WebSocket server and frames to the pages, by the number of the page. -/
structure World (M F : Type) where
  db : Database
  store : ℕ → Store
  sent : ℕ → List M
  inbox : ℕ → List F

/-- The request of the WebSocket server is answered, does not arrive, or loses its answer. -/
inductive Fate where
  | answered
  | unreachable
  | cutOff

/-- What a request leaves: the database, the answer to the page, and a frame for the pages. -/
structure Left (F : Type) where
  db : Database
  answer : Option F
  remote : Option F

structure Medium (M F : Type) where
  send : Pending → M
  post : Database → UserId → M → Fate → Option StreamId → Left F
  load : Database → StreamId → Option Store
  hear : Store → F → Option Store

inductive Action where
  | act (i : ℕ) (e : ClientEvent)
  | send (i k : ℕ)
  | post (i k : ℕ) (fate : Fate) (streamId : Option StreamId) (told : List ℕ)
  | hear (i k : ℕ)
  | load (i : ℕ) (lastStreamId : StreamId)

variable {M F : Type}

def World.put (w : World M F) (i : ℕ) (s : Store) : World M F :=
  { w with store := Function.update w.store i s }

def step (medium : Medium M F) (user : ℕ → UserId) (w : World M F) : Action → Option (World M F)
  | .act i e => if isLocal e then some (w.put i (clientStep (w.store i) e)) else none
  | .send i k => (w.store i).pendingOps[k]?.map fun p =>
    { w with sent := Function.update w.sent i (w.sent i++[medium.send p]) }
  | .post i k fate streamId told => (w.sent i)[k]?.map fun m =>
    let left := medium.post w.db (user i) m fate streamId
    { w with
      db := left.db
      sent := Function.update w.sent i ((w.sent i).eraseIdx k)
      inbox := fun j => w.inbox j++((if j = i then left.answer.toList else [])++
        (if j ∈ told then left.remote.toList else [])) }
  | .hear i k => (w.inbox i)[k]?.bind fun f => (medium.hear (w.store i) f).map fun s =>
    { w.put i s with inbox := Function.update w.inbox i ((w.inbox i).eraseIdx k) }
  | .load i lastStreamId => (medium.load w.db lastStreamId).map (w.put i)

def start (db : Database) : World M F := ⟨db,fun _ => .initial,fun _ => [],fun _ => []⟩

/-! ## Values -/

inductive Frame where
  | reply (f : ReplyFrame)
  | remote (ops : List WireOp) (userId : UserId) (streamId : Option StreamId)

def Frame.received (s : Store) : Frame → Store
  | .reply f => receive s f
  | .remote ops _ streamId => s.applyRemoteOps ops streamId

def snapshot (docId : DocId) (db : Database) (lastStreamId : StreamId) : BlocksResponse where
  docId := docId
  blocks := selectBlocks docId db
  lastStreamId := lastStreamId

def published (userId : UserId) (streamId : Option StreamId) (ops : List WireOp) : Option Frame :=
  if ops.isEmpty then none else some (.remote ops userId streamId)

def postValues (docId : DocId) (db : Database) (userId : UserId) (p : Pending) (fate : Fate)
    (streamId : Option StreamId) : Left Frame :=
  let posted := postOperations db docId userId p.ops
  let next := (posted.map Posted.database).getD db
  let remote := posted.bind (fun posted => published userId streamId posted.wireOps)
  match fate with
  | .answered => ⟨next,some (.reply (handleOps p (apiReply posted))),remote⟩
  | .unreachable => ⟨db,some (.reply (handleOps p .unreachable)),none⟩
  | .cutOff => ⟨next,some (.reply (handleOps p .unreachable)),remote⟩

def values (docId : DocId) : Medium Pending Frame where
  send := id
  post := postValues docId
  load db lastStreamId :=
    let snap := snapshot docId db lastStreamId
    some (Store.loadSnapshot snap.docId snap.blocks snap.lastStreamId)
  hear s f := some (f.received s)

/-! ## JSON -/

structure Routed where
  db : Database
  reply : HttpReply
  remote : Option Json

/-- `errors` are those of the request model, where it refuses a body. -/
def operationsRoute (errors : Json → List Json) (docId : DocId) (db : Database)
    (cookie : List Char) (body : Json) (streamId : Option StreamId) : Routed :=
  match operationsRequest body with
  | none => ⟨db,.response 422 (some (detailJson (errors body))),none⟩
  | some req =>
    let userId := resolveUid (some cookie)
    match postOperations db docId userId (req.ops.map RawOperation.operation) with
    | none => ⟨db,.response 500 none,none⟩
    | some posted =>
      if posted.wireOps.isEmpty then
        ⟨posted.database,.response 200 (some (responseJson posted.results none)),none⟩
      else
        ⟨posted.database,.response 200 (some (responseJson posted.results streamId)),
          some (remoteJson posted.wireOps userId streamId)⟩

/-- A message that is no operations message changes nothing here. -/
def postJson (errors : Json → List Json) (docId : DocId) (db : Database) (userId : UserId)
    (m : Json) (fate : Fate) (streamId : Option StreamId) : Left Json :=
  match parsed (some m) with
  | some (.ops msg) =>
    let routed := operationsRoute errors docId db (decimal userId) (forwardedJson msg) streamId
    match fate with
    | .answered => ⟨routed.db,some (answerJson msg routed.reply),routed.remote⟩
    | .unreachable => ⟨db,some (answerJson msg .unreachable),none⟩
    | .cutOff => ⟨routed.db,some (answerJson msg .unreachable),routed.remote⟩
  | _ => ⟨db,none,none⟩

def json (errors : Json → List Json) (docId : DocId) : Medium Json Json where
  send := frameJson
  post := postJson errors docId
  load db lastStreamId := (readSnapshot (snapshotJson (snapshot docId db lastStreamId))).map
    fun snap => Store.loadSnapshot snap.docId snap.blocks snap.lastStreamId
  hear := onMessage

/-! ## A run of values as a run of JSON -/

def conflictJson (c : ConflictInfo) : Json :=
  .obj [("blockId",match c.blockId with | .uuid id => .str (uuidText id) | _ => .str ""),
    ("reason",.str (c.reason.getD ""))]

def replyJson : ReplyFrame → Json
  | .ack clientSeq results => ackJson clientSeq (.arr (results.map resultJson))
  | .nack clientSeq conflicts => nackJson clientSeq (.arr (conflicts.map conflictJson))

def Frame.json : Frame → Json
  | .reply f => replyJson f
  | .remote ops userId streamId => remoteJson ops userId streamId

def World.written (w : World Pending Frame) : World Json Json where
  db := w.db
  store := w.store
  sent i := (w.sent i).map frameJson
  inbox i := (w.inbox i).map Frame.json

/-! ## Blocks of a page -/

def ProperBlocks (blocks : Blocks) : Prop :=
  ∀ id b, blocks.get id = some b → IsId id ∧ ProperBlock b

variable {blocks : Blocks} {s : Store} {docId : DocId} {db next : Database}

theorem proper_set (h : ProperBlocks blocks) {id : Uuid} {b : Block} (hid : IsId id)
    (hb : ProperBlock b) : ProperBlocks (blocks.set id b) := by
  intro j c hc
  rw [OrderedMap.get_set] at hc
  split at hc
  · next heq => exact ⟨heq ▸ hid,Option.some.inj hc ▸ hb⟩
  · exact h j c hc

theorem proper_delete (h : ProperBlocks blocks) (id : Uuid) : ProperBlocks (blocks.delete id) := by
  intro j c hc
  rw [OrderedMap.get_delete] at hc
  split at hc
  · cases hc
  · exact h j c hc

theorem proper_promote (h : ProperBlocks blocks) (id : Uuid) {parentId : Option Uuid}
    (hparent : IsIds parentId) : ProperBlocks (promote id parentId blocks) := by
  intro j c hc
  rw [get_promote] at hc
  obtain ⟨b,hb,rfl⟩ := Option.map_eq_some_iff.mp hc
  obtain ⟨hj,hbid,hbparent,hversion⟩ := h j b hb
  split
  · exact ⟨hj,hbid,hparent,hversion⟩
  · exact ⟨hj,hbid,hbparent,hversion⟩

theorem proper_adjust (h : ProperBlocks blocks) (id : Uuid) {f : Block → Block}
    (hf : ∀ b, ProperBlock b → ProperBlock (f b)) : ProperBlocks (adjust blocks id f) := by
  intro j c hc
  rw [get_adjust] at hc
  split at hc
  · next heq =>
    obtain ⟨b,hb,rfl⟩ := Option.map_eq_some_iff.mp hc
    obtain ⟨hid,hproper⟩ := h id b hb
    exact ⟨heq ▸ hid,hf b hproper⟩
  · exact h j c hc

theorem proper_applyRemoteOp (h : ProperBlocks blocks) {o : WireOp} (ho : ProperWire o) :
    ProperBlocks (applyRemoteOp blocks o) := by
  obtain ⟨_,hid,hparent,hversion⟩ := ho
  obtain ⟨op,blockId,payload,version,block⟩ := o
  cases payload with
  | insert type parentId position depth content =>
    exact proper_set h hid ⟨hid,hparent,zero_le_one⟩
  | delete => exact proper_promote (proper_delete h blockId) blockId nofun
  | move parentId position depth =>
    exact proper_adjust h blockId (fun b hb => ⟨hb.1,hparent,hb.2.2⟩)
  | attrs patch =>
    exact proper_adjust h blockId (fun b hb => ⟨hb.1,hb.2.1,Int.add_nonneg hversion (by decide)⟩)
  | content content =>
    exact proper_adjust h blockId (fun b hb => ⟨hb.1,hb.2.1,Int.add_nonneg hversion (by decide)⟩)

theorem proper_foldl {α : Type} {f : Blocks → α → Blocks} {items : List α}
    (hf : ∀ m, ∀ a ∈ items, ProperBlocks m → ProperBlocks (f m a)) (h : ProperBlocks blocks) :
    ProperBlocks (items.foldl f blocks) := by
  induction items generalizing blocks with
  | nil => exact h
  | cons a items ih =>
    exact ih (fun m b hb => hf m b (List.mem_cons_of_mem a hb))
      (hf blocks a List.mem_cons_self h)

/-! ## Stores -/

def MadePending (p : Pending) : Prop := ∃ op, p.ops = [op] ∧ Made op

structure ProperStore (s : Store) : Prop where
  blocks : ProperBlocks s.blocks
  pending : ∀ p ∈ s.pendingOps, MadePending p

def IdsOf : ClientEvent → Prop
  | .insertBlock blockId _ parentId afterId _ => IsId blockId ∧ IsIds parentId ∧ IsIds afterId
  | .moveBlock _ parentId afterId => IsIds parentId ∧ IsIds afterId
  | _ => True

theorem proper_enqueued (h : ProperStore s) {m : Blocks} (hm : ProperBlocks m)
    {op : BlockOperation} (hop : Made op) {s' : Store} (hblocks : s'.blocks = m)
    (hpending : s'.pendingOps = s.pendingOps) : ProperStore (s'.enqueueOps [op]) where
  blocks := by rw [enqueueOps_blocks,hblocks]; exact hm
  pending := by
    intro p hp
    rw [enqueueOps_pendingOps,hpending] at hp
    rcases List.mem_append.mp hp with hp | hp
    · exact h.pending p hp
    · rw [List.mem_singleton.mp hp]
      exact ⟨op,rfl,hop⟩

theorem proper_act (h : ProperStore s) {e : ClientEvent} (hlocal : isLocal e = true)
    (hids : IdsOf e) : ProperStore (clientStep s e) := by
  cases e with
  | insertBlock blockId type parentId afterId content =>
    obtain ⟨hid,hparent,hafter⟩ := hids
    have hset := proper_set h.blocks (b := newBlock s blockId type parentId afterId content) hid
      ⟨hid,hparent,zero_le_one⟩
    have hmade : Made (insertOp (newBlock s blockId type parentId afterId content) afterId) :=
      .insert hid hparent hafter
    exact proper_enqueued h hset hmade rfl rfl
  | deleteBlock blockId =>
    cases hget : s.blocks.get blockId with
    | none =>
      rw [clientStep,Store.deleteBlock,hget]
      exact h
    | some existing =>
      obtain ⟨hid,_,hparent,hversion⟩ := h.blocks blockId existing hget
      have hm := proper_promote (proper_delete h.blocks blockId) blockId hparent
      rw [clientStep,deleteBlock_some hget]
      exact proper_enqueued h hm (.delete hid hversion) rfl rfl
  | moveBlock blockId parentId afterId =>
    cases hget : s.blocks.get blockId with
    | none =>
      rw [clientStep,Store.moveBlock,hget]
      exact h
    | some existing =>
      obtain ⟨hid,hbid,_,hversion⟩ := h.blocks blockId existing hget
      have hset := proper_set h.blocks (b := movedBlock s existing parentId afterId) hid
        ⟨hbid,hids.1,hversion⟩
      have hmade : Made (moveOp blockId (movedBlock s existing parentId afterId) afterId) :=
        .move hid hids.1 hids.2 hversion
      rw [clientStep,moveBlock_some hget]
      exact proper_enqueued h hset hmade rfl rfl
  | updateAttrs blockId attrs =>
    cases hget : s.blocks.get blockId with
    | none =>
      rw [clientStep,Store.updateAttrs,hget]
      exact h
    | some b =>
      obtain ⟨hid,hproper⟩ := h.blocks blockId b hget
      have hset := proper_set h.blocks (b := { b with content := spreadAttrs b.content attrs })
        hid hproper
      rw [clientStep,Store.updateAttrs,hget]
      exact proper_enqueued h hset (.attrs hid hproper.2.2) rfl rfl
  | updateContent blockId content =>
    cases hget : s.blocks.get blockId with
    | none =>
      rw [clientStep,Store.updateContent,hget]
      exact h
    | some b =>
      obtain ⟨hid,hproper⟩ := h.blocks blockId b hget
      rw [clientStep,Store.updateContent,hget]
      exact ⟨proper_set h.blocks hid hproper,h.pending⟩
  | _ => cases hlocal

/-! ## Frames -/

def ProperFrame : Frame → Prop
  | .reply (.ack _ results) => ∀ r ∈ results, IsId r.blockId ∧ 0 ≤ r.newVersion
  | .reply (.nack _ conflicts) => ∀ c ∈ conflicts, (∃ id, c.blockId = .uuid id ∧ IsId id) ∧
    c.current = none
  | .remote ops _ _ => ∀ o ∈ ops, ProperWire o

theorem proper_received (h : ProperStore s) {f : Frame} (hf : ProperFrame f) :
    ProperStore (f.received s) := by
  cases f with
  | remote ops userId streamId =>
    exact ⟨proper_foldl (fun m o ho hm => proper_applyRemoteOp hm (hf o ho)) h.blocks,h.pending⟩
  | reply r =>
    cases r with
    | ack clientSeq results =>
      refine ⟨proper_foldl ?_ h.blocks,?_⟩
      · intro m r hr hm
        exact proper_adjust hm r.blockId (fun b hb => ⟨hb.1,hb.2.1,(hf r hr).2⟩)
      · exact fun p hp => h.pending p (List.mem_filter.mp hp).1
    | nack clientSeq conflicts =>
      refine ⟨proper_foldl ?_ h.blocks,?_⟩
      · intro m c hc hm
        obtain ⟨⟨id,hid,_⟩,hnone⟩ := hf c hc
        simp only [reject,hid,hnone]
        exact proper_delete hm id
      · exact fun p hp => h.pending p (List.mem_filter.mp hp).1

theorem readConflict_json {c : ConflictInfo} {id : Uuid} (hid : c.blockId = .uuid id)
    (h : IsId id) (hnone : c.current = none) :
    readConflict (conflictJson c) = some { c with reason := none } := by
  obtain ⟨blockId,reason,current⟩ := c
  subst hid hnone
  simp [readConflict,conflictJson,record,lookup_cons,lookup_nil,text,textId_text h,nullable]

theorem handleNack_reason (s : Store) (clientSeq : ℕ) (conflicts : List ConflictInfo) :
    s.handleNack clientSeq (conflicts.map (fun c => { c with reason := none })) =
      s.handleNack clientSeq conflicts := by
  simp only [Store.handleNack,List.foldl_map]
  rfl

/-- A page makes of the JSON of a frame what it makes of the frame. -/
theorem hear_json (s : Store) {f : Frame} (hf : ProperFrame f) :
    onMessage s f.json = some (f.received s) := by
  cases f with
  | remote ops userId streamId => exact remote_received s hf userId streamId
  | reply r =>
    cases r with
    | ack clientSeq results => exact ack_received s clientSeq (fun r hr => (hf r hr).1)
    | nack clientSeq conflicts =>
      have hread : readAll readConflict (.arr (conflicts.map conflictJson)) =
          some (conflicts.map (fun c => { c with reason := none })) := by
        apply readAll_json
        intro c hc
        obtain ⟨⟨id,hid,his⟩,hnone⟩ := hf c hc
        exact readConflict_json hid his hnone
      simp [Frame.json,replyJson,nackJson,onMessage,record,lookup_cons,text,natural,number,hread,
        handleNack_reason,Frame.received,receive]

/-! ## What a conflict names -/

def StopsAt {α : Type} (id : Uuid) (x : Except Stop α) : Prop :=
  ∀ e, x = .error e → match e with
    | .conflict c => c.blockId = id
    | .collision c => c.blockId = id
    | .raised => True

variable {α β : Type} {id : Uuid}

theorem stopsAt_ok (a : α) : StopsAt id (.ok a) := nofun

theorem stopsAt_bind {x : Except Stop α} {f : α → Except Stop β} (hx : StopsAt id x)
    (hf : ∀ a, x = .ok a → StopsAt id (f a)) : StopsAt id (x >>= f) := by
  cases x with
  | error e => exact fun e' he => hx e' (congrArg Except.error (Except.error.inj he))
  | ok a => exact hf a rfl

theorem stopsAt_read (field : IdField) : StopsAt id (IdField.read field) := by
  cases field with
  | absent => exact stopsAt_ok _
  | uuid b => exact stopsAt_ok _
  | malformed =>
    rintro e ⟨⟩
    trivial

theorem stopsAt_orConflict (current : Option Block) (x : Except String α) :
    StopsAt id (orConflict id current x) := by
  cases x with
  | ok a => exact stopsAt_ok a
  | error reason =>
    rintro e ⟨⟩
    rfl

theorem stopsAt_writeRows (current : Option Block) (rows : List BlockRow) :
    StopsAt id (writeRows id current rows) := by
  intro e he
  unfold writeRows at he
  split at he
  · cases he
  · cases he
    rfl
  · cases he
    trivial

theorem stopsAt_references (present : Bool) : StopsAt id (references present) := by
  cases present with
  | true => exact stopsAt_ok ()
  | false =>
    rintro e ⟨⟩
    trivial

theorem stopsAt_checkVersion {row : BlockRow} (hid : row.blockId = id) (version : Option ℤ) :
    StopsAt id (checkVersion row version) := by
  intro e he
  unfold checkVersion at he
  split at he
  · cases he
  · split at he
    · cases he
      exact hid
    · cases he

theorem stopsAt_fetchRow (t : Table) : StopsAt id (fetchRow t docId id) := by
  intro e he
  unfold fetchRow at he
  split at he
  · cases he
    rfl
  · cases he

theorem stopsAt_checkFresh (t : Table) : StopsAt id (checkFresh t id) := by
  intro e he
  unfold checkFresh at he
  split at he
  · cases he
    rfl
  · cases he

theorem fetched_id {t : Table} {row : BlockRow} (h : fetchRow t docId id = .ok row) :
    row.blockId = id := ((find_some_iff _ _ _ _).mp (fetchRow_ok.mp h)).2.2

theorem stopsAt_dictOf (d : PyDict) (items : List Json) : StopsAt id (dictOf d items) := by
  induction items generalizing d with
  | nil => exact stopsAt_ok d
  | cons item items ih =>
    unfold dictOf
    split
    · intro e he
      cases he
      trivial
    · split
      · intro e he
        cases he
        trivial
      · exact ih _

theorem stopsAt_mergeAttrs (existing patch : JsonObj) :
    StopsAt id (ApplyOps.mergeAttrs existing patch) := by
  refine stopsAt_bind ?_ (fun _ _ => stopsAt_ok _)
  unfold ApplyOps.attrsOf
  split
  · exact stopsAt_ok _
  · exact stopsAt_dictOf _ _
  · split
    · intro e he
      cases he
      trivial
    · exact stopsAt_ok _
  · exact stopsAt_ok _

theorem stopsAt_applyOp (db : Database) (docId : DocId) (userId : UserId) {op : BlockOperation}
    (hid : op.blockId = .uuid id) : StopsAt id (applyOp db docId userId op) := by
  simp only [applyOp,hid]
  cases op.op with
  | insert_block =>
    refine stopsAt_bind (stopsAt_read _) (fun _ _ => ?_)
    refine stopsAt_bind (stopsAt_read _) (fun _ _ => ?_)
    refine stopsAt_bind (stopsAt_checkFresh _) (fun _ _ => ?_)
    refine stopsAt_bind (stopsAt_orConflict _ _) (fun _ _ => ?_)
    refine stopsAt_bind (stopsAt_orConflict _ _) (fun _ _ => ?_)
    refine stopsAt_bind (stopsAt_writeRows _ _) (fun _ _ => ?_)
    exact stopsAt_bind (stopsAt_references _) (fun _ _ => stopsAt_ok _)
  | delete_block =>
    intro e he
    simp only [ApplyOps.deleteBlock] at he
    split at he
    · cases he
    · next row hrow =>
      have hversion := stopsAt_checkVersion ((find_some_iff _ _ _ _).mp hrow).2.2 op.version
      exact stopsAt_bind hversion (fun _ _ => stopsAt_ok _) e he
  | move_block =>
    refine stopsAt_bind (stopsAt_read _) (fun _ _ => ?_)
    refine stopsAt_bind (stopsAt_read _) (fun _ _ => ?_)
    refine stopsAt_bind (stopsAt_fetchRow _) (fun row hrow => ?_)
    refine stopsAt_bind (stopsAt_checkVersion (fetched_id hrow) _) (fun _ _ => ?_)
    refine stopsAt_bind (stopsAt_orConflict _ _) (fun _ _ => ?_)
    refine stopsAt_bind (stopsAt_orConflict _ _) (fun _ _ => ?_)
    refine stopsAt_bind (stopsAt_writeRows _ _) (fun _ _ => ?_)
    exact stopsAt_bind (stopsAt_references _) (fun _ _ => stopsAt_ok _)
  | update_attrs =>
    refine stopsAt_bind (stopsAt_fetchRow _) (fun row hrow => ?_)
    refine stopsAt_bind (stopsAt_checkVersion (fetched_id hrow) _) (fun _ _ => ?_)
    refine stopsAt_bind (stopsAt_mergeAttrs _ _) (fun _ _ => ?_)
    exact stopsAt_bind (stopsAt_references _) (fun _ _ => stopsAt_ok _)
  | update_content =>
    refine stopsAt_bind (stopsAt_fetchRow _) (fun _ _ => ?_)
    exact stopsAt_bind (stopsAt_references _) (fun _ _ => stopsAt_ok _)

/-! ## Rows -/

structure ProperRows (rows : List BlockRow) : Prop where
  ids : ∀ r ∈ rows, IsId r.blockId
  versions : Versioned rows

theorem version_nonneg (h : ProperRows db.blocks.rows) {r : BlockRow} (hr : r ∈ db.blocks.rows) :
    0 ≤ r.version := zero_le_one.trans (h.versions r hr)

theorem parent_ids (h : ProperRows db.blocks.rows) {r : BlockRow} (hr : r ∈ db.blocks.rows) :
    IsIds r.parentId := by
  intro p hp
  obtain ⟨q,hq,rfl⟩ := db.blocks.parented r hr p hp
  exact h.ids q hq

theorem depth_ids (h : ProperRows db.blocks.rows) {parentId : Option Uuid} {depth : ℕ}
    (hdepth : parentDepth db.blocks docId parentId = .ok depth) : IsIds parentId := by
  intro p hp
  obtain ⟨q,hq,_,rfl⟩ := parent_of_depth hdepth p hp
  exact h.ids q hq

theorem proper_snapshot (h : ProperRows db.blocks.rows) (docId : DocId) (lastStreamId : StreamId) :
    ∀ b ∈ (snapshot docId db lastStreamId).blocks, ProperBlock b := by
  intro b hb
  obtain ⟨r,hr,rfl⟩ := List.mem_map.mp hb
  have hrow := (List.mem_filter.mp (List.mem_mergeSort.mp hr)).1
  exact ⟨h.ids r hrow,parent_ids h hrow,version_nonneg h hrow⟩

theorem ids_setRow {rows : List BlockRow} (h : ∀ r ∈ rows, IsId r.blockId)
    {f : BlockRow → BlockRow} (hf : ∀ r, (f r).blockId = r.blockId) (docId : DocId)
    (blockId : Uuid) :
    ∀ r ∈ setRow docId blockId f rows, IsId r.blockId := by
  intro r hr
  obtain ⟨q,hq,rfl⟩ := mem_setRow.mp hr
  split
  · rw [hf]
    exact h q hq
  · exact h q hq

theorem applied_proper {userId : UserId} {op : BlockOperation} {a : AppliedOp}
    (happlied : Applied db docId userId op a next) (hid : op.blockId = .uuid id) (his : IsId id)
    (h : ProperRows db.blocks.rows) : ProperRows next.blocks.rows ∧ ProperWire (wireOp a) := by
  have hversions := applied_kept versioned_kept happlied h.versions
  cases happlied with
  | insert _ hid' _ _ _ hdepth _ hwrite _ =>
    have heq := IdField.uuid.inj (hid.symm.trans hid')
    refine ⟨⟨?_,hversions⟩,rfl,heq ▸ his,depth_ids h hdepth,zero_le_one⟩
    rw [write_rows hwrite]
    intro r hr
    rcases List.mem_append.mp hr with hr | hr
    · exact h.ids r hr
    · rw [List.mem_singleton.mp hr]
      exact heq ▸ his
  | gone _ hid' _ =>
    have heq := IdField.uuid.inj (hid.symm.trans hid')
    exact ⟨⟨h.ids,hversions⟩,rfl,heq ▸ his,nofun,le_refl _⟩
  | delete _ _ hrow _ _ =>
    refine ⟨⟨?_,hversions⟩,rfl,h.ids _ hrow,nofun,Int.add_nonneg (version_nonneg h hrow) ?_⟩
    · exact fun r hr => h.ids r ((delete_sublist db.blocks _ hrow).subset hr)
    · exact zero_le_one
  | @move row parentId afterId depth position t _ _ _ _ hrow _ _ hdepth _ hwrite _ =>
    have hset := ids_setRow h.ids
      (f := movedRow parentId position depth (row.version+1)) (fun _ => rfl) docId row.blockId
    rw [← write_rows hwrite] at hset
    have hrowId : IsId row.blockId := h.ids row hrow
    exact ⟨⟨hset,hversions⟩,rfl,hrowId,depth_ids h hdepth,
      Int.add_nonneg (version_nonneg h hrow) zero_le_one⟩
  | @attrs row content _ _ hrow _ _ _ _ =>
    have hset := ids_setRow h.ids
      (f := contentRow content (row.version+1)) (fun _ => rfl) docId row.blockId
    have hrowId : IsId row.blockId := h.ids row hrow
    exact ⟨⟨hset,hversions⟩,rfl,hrowId,nofun,Int.add_nonneg (version_nonneg h hrow) zero_le_one⟩
  | @content row _ _ hrow _ _ =>
    have hset := ids_setRow h.ids
      (f := contentRow (op.payload.content.getD []) (row.version+1)) (fun _ => rfl) docId
      row.blockId
    have hrowId : IsId row.blockId := h.ids row hrow
    exact ⟨⟨hset,hversions⟩,rfl,hrowId,nofun,Int.add_nonneg (version_nonneg h hrow) zero_le_one⟩

theorem conflict_proper {c : OpConflict} (hc : c.blockId = id) (his : IsId id) :
    ∀ r ∈ [opResult (.conflict c)], IsId r.blockId ∧ 0 ≤ r.newVersion := by
  intro r hr
  rw [List.mem_singleton.mp hr]
  subst hc
  exact ⟨his,le_refl _⟩

/-- What a request leaves in the rows, answers and publishes. -/
theorem posted_proper {userId : UserId} {op : BlockOperation} (hid : op.blockId = .uuid id)
    (his : IsId id) (h : ProperRows db.blocks.rows) {posted : PostOperations.Posted}
    (hpost : postOperations db docId userId [op] = some posted) :
    ProperRows posted.database.blocks.rows ∧
      (∀ r ∈ posted.results, IsId r.blockId ∧ 0 ≤ r.newVersion) ∧
      ∀ o ∈ posted.wireOps, ProperWire o := by
  obtain ⟨o,tx,hone,rfl⟩ := single_outcome hpost
  have hstops := stopsAt_applyOp db docId userId hid
  simp only [applyIn,Bool.false_eq_true,if_false] at hone
  split at hone
  · next a next hok =>
    cases hone
    obtain ⟨hrows,hwire⟩ := applied_proper (applyOp_applied hok) hid his h
    refine ⟨hrows,?_,?_⟩
    · intro r hr
      obtain rfl := List.mem_singleton.mp hr
      exact ⟨hwire.id,hwire.version⟩
    · intro w hw
      obtain rfl := List.mem_singleton.mp hw
      exact hwire
  · next c hconflict =>
    cases hone
    exact ⟨h,conflict_proper (hstops _ hconflict) his,fun _ hw => absurd hw List.not_mem_nil⟩
  · next c hcollision =>
    cases hone
    exact ⟨h,conflict_proper (hstops _ hcollision) his,fun _ hw => absurd hw List.not_mem_nil⟩
  · cases hone

/-! ## Requests -/

/-- Ids of users whose number JavaScript prints in decimal digits. -/
def IsUser (userId : UserId) : Prop := 0 < userId ∧ userId < 10^21

theorem strip_decimal (n : ℕ) : strip (decimal n) = decimal n := by
  have hspace : ∀ c ∈ decimal n, isSpace c = false := by
    intro c hc
    have hdigit := decimal_digits n hc
    rw [Bool.eq_false_iff]
    intro hspace
    simp only [Char.isDigit,Bool.and_eq_true,decide_eq_true_eq,UInt32.le_iff_toNat_le] at hdigit
    simp only [isSpace,decide_eq_true_eq,List.mem_cons,List.not_mem_nil,or_false] at hspace
    have hlow : 48 ≤ c.toNat := hdigit.1
    have hhigh : c.toNat ≤ 57 := hdigit.2
    omega
  have hdrop : ∀ cs : List Char, (∀ c ∈ cs, isSpace c = false) → cs.dropWhile isSpace = cs := by
    intro cs hcs
    cases cs with
    | nil => rfl
    | cons c cs => rw [List.dropWhile_cons_of_neg (by simp [hcs c List.mem_cons_self])]
  rw [strip,hdrop _ hspace,hdrop _ (fun c hc => hspace c (List.mem_reverse.mp hc)),
    List.reverse_reverse]

theorem intDigits_decimal {n : ℕ} (h : n < 10^21) : intDigits (decimal n) = some n := by
  have hsplit : (decimal n).splitOn '_' = [decimal n] := by
    apply List.splitOnP_eq_singleton
    intro c hc
    have hne : c ≠ '_' := by
      rintro rfl
      exact not_mem_decimal (by decide) n hc
    simpa using hne
  have hlength : (decimal n).length ≤ 4300 :=
    ((Nat.length_toDigits_le_iff (by decide) (by decide)).mpr h).trans (by decide)
  have hne : decimal n ≠ [] := Nat.toDigits_ne_nil
  simp [intDigits,hsplit,hlength,hne]

/-- The api takes the user of a request for the one that the socket is of. -/
theorem resolveUid_decimal {userId : UserId} (h : IsUser userId) :
    resolveUid (some (decimal userId)) = userId := by
  have hne : decimal userId ≠ [] := Nat.toDigits_ne_nil
  have hint : int (decimal userId) = some (userId : ℤ) := by
    unfold int
    rw [strip_decimal]
    split
    · next cs heq => exact absurd (heq ▸ List.mem_cons_self) (not_mem_decimal (by decide) userId)
    · next cs heq => exact absurd (heq ▸ List.mem_cons_self) (not_mem_decimal (by decide) userId)
    · rw [intDigits_decimal h.2]
      rfl
  have hpos : userId ≠ 0 := Nat.pos_iff_ne_zero.mp h.1
  simp [resolveUid,hne,hint,hpos]

def Left.json (left : Left Frame) : Left Json :=
  ⟨left.db,left.answer.map Frame.json,left.remote.map Frame.json⟩

theorem nackFirst_json {p : Pending} {op : BlockOperation} (hp : p.ops = [op])
    (hid : op.blockId = .uuid id) (reason : String) :
    firstConflict ⟨p.clientSeq,[clientOperation op id],List.cons_ne_nil _ _⟩ (.str reason) =
      .arr ((nackFirst p reason).map conflictJson) := by
  simp [firstConflict,nackFirst,hp,conflictJson,clientOperation,hid]

theorem answer_unreachable {p : Pending} {op : BlockOperation} (hp : p.ops = [op])
    (hid : op.blockId = .uuid id) :
    answerJson ⟨p.clientSeq,[clientOperation op id],List.cons_ne_nil _ _⟩ .unreachable =
      replyJson (handleOps p .unreachable) := by
  rw [answerJson,nackFirst_json hp hid]
  rfl

theorem answer_raised {p : Pending} {op : BlockOperation} (hp : p.ops = [op])
    (hid : op.blockId = .uuid id) :
    answerJson ⟨p.clientSeq,[clientOperation op id],List.cons_ne_nil _ _⟩ (.response 500 none) =
      replyJson (handleOps p (apiReply none)) := by
  have hreason := nackFirst_json hp hid ("api_error_" ++ toString 500)
  simp only [answerJson,memberOr,hreason]
  simp [handleOps,apiReply,replyJson]

theorem answer_posted {p : Pending} (posted : PostOperations.Posted) (streamId : Option StreamId)
    (msg : ClientOpsMessage) (hseq : msg.clientSeq = p.clientSeq) :
    answerJson msg (.response 200 (some (responseJson posted.results streamId))) =
      replyJson (handleOps p (apiReply (some posted))) := by
  simp [answerJson,memberOr,responseJson,lookup_cons,hseq,handleOps,apiReply,replyJson]

theorem post_json {p : Pending} (hp : MadePending p) {userId : UserId} (huser : IsUser userId)
    (errors : Json → List Json) (docId : DocId) (db : Database) (fate : Fate)
    (streamId : Option StreamId) : postJson errors docId db userId (frameJson p) fate streamId =
      (postValues docId db userId p fate streamId).json := by
  obtain ⟨op,hops,hmade⟩ := hp
  obtain ⟨id,hid,_,hversion,hread⟩ := made_read hmade
  have hroute : operationsRequest (forwardedJson ⟨p.clientSeq,[clientOperation op id],
      List.cons_ne_nil _ _⟩) = some ⟨p.clientSeq,[⟨op.op,uuidText id,payloadJson op,op.version⟩]⟩ :=
    forwarded_read hversion _
  simp only [postJson,frame_parsed hops hid hversion,operationsRoute,hroute,List.map_cons,
    List.map_nil,hread,resolveUid_decimal huser,post_withoutPosition]
  unfold postValues
  rw [hops]
  cases hpost : postOperations db docId userId [op] with
  | none =>
    cases fate with
    | answered => simp [Left.json,Frame.json,answer_raised hops hid]
    | unreachable => simp [Left.json,Frame.json,answer_unreachable hops hid]
    | cutOff => simp [Left.json,Frame.json,answer_unreachable hops hid]
  | some posted =>
    have hposted := answer_posted (p := p) posted
    by_cases hempty : posted.wireOps = []
    · cases fate with
      | answered => simp [Left.json,Frame.json,published,hempty,hposted]
      | unreachable => simp [Left.json,Frame.json,answer_unreachable hops hid]
      | cutOff => simp [Left.json,Frame.json,published,hempty,answer_unreachable hops hid]
    · cases fate with
      | answered => simp [Left.json,Frame.json,published,hempty,hposted]
      | unreachable => simp [Left.json,Frame.json,answer_unreachable hops hid]
      | cutOff => simp [Left.json,Frame.json,published,hempty,answer_unreachable hops hid]

theorem nackFirst_proper {p : Pending} {op : BlockOperation} (hp : p.ops = [op])
    (hid : op.blockId = .uuid id) (his : IsId id) (reason : String) :
    ProperFrame (.reply (.nack p.clientSeq (nackFirst p reason))) := by
  intro c hc
  rw [nackFirst,hp] at hc
  rw [List.mem_singleton.mp hc]
  exact ⟨⟨id,hid,his⟩,rfl⟩

theorem post_proper {p : Pending} (hp : MadePending p) (h : ProperRows db.blocks.rows)
    (docId : DocId) (userId : UserId) (fate : Fate) (streamId : Option StreamId) :
    ProperRows (postValues docId db userId p fate streamId).db.blocks.rows ∧
      (∀ f ∈ (postValues docId db userId p fate streamId).answer, ProperFrame f) ∧
      ∀ f ∈ (postValues docId db userId p fate streamId).remote, ProperFrame f := by
  obtain ⟨op,hops,hmade⟩ := hp
  obtain ⟨id,hid,his,_⟩ := made_read hmade
  have hcut : ProperFrame (.reply (handleOps p .unreachable)) := nackFirst_proper hops hid his _
  unfold postValues
  rw [hops]
  cases hpost : postOperations db docId userId [op] with
  | none =>
    have hraised : ProperFrame (.reply (handleOps p (apiReply none))) :=
      nackFirst_proper hops hid his _
    cases fate with
    | answered => simpa using ⟨h,hraised⟩
    | unreachable => simpa using ⟨h,hcut⟩
    | cutOff => simpa using ⟨h,hcut⟩
  | some posted =>
    obtain ⟨hrows,hresults,hwire⟩ := posted_proper hid his h hpost
    have hack : ProperFrame (.reply (handleOps p (apiReply (some posted)))) := hresults
    have hremote : ∀ f ∈ published userId streamId posted.wireOps, ProperFrame f := by
      intro f hf
      unfold published at hf
      split at hf
      · cases hf
      · cases hf
        exact hwire
    cases fate with
    | answered => exact ⟨hrows,by simpa using hack,hremote⟩
    | unreachable => exact ⟨h,by simpa using hcut,nofun⟩
    | cutOff => exact ⟨hrows,by simpa using hcut,hremote⟩

/-! ## Runs -/

def Given : Action → Prop
  | .act _ e => IdsOf e
  | _ => True

structure Proper (w : World Pending Frame) : Prop where
  rows : ProperRows w.db.blocks.rows
  store : ∀ i, ProperStore (w.store i)
  sent : ∀ i, ∀ p ∈ w.sent i, MadePending p
  inbox : ∀ i, ∀ f ∈ w.inbox i, ProperFrame f

theorem proper_loaded {blocks : List Block} (h : ∀ b ∈ blocks, ProperBlock b) (docId : DocId)
    (lastStreamId : StreamId) : ProperStore (Store.loadSnapshot docId blocks lastStreamId) where
  blocks := proper_foldl (fun _ b hb hm => proper_set hm (h b hb).1 (h b hb)) nofun
  pending := nofun

variable {w t : World Pending Frame} {a : Action} {user : ℕ → UserId}

theorem proper_put (h : Proper w) (i : ℕ) {s : Store} (hs : ProperStore s) :
    ∀ j, ProperStore ((w.put i s).store j) := by
  intro j
  by_cases hj : j = i
  · subst hj
    simpa [World.put] using hs
  · simpa [World.put,hj] using h.store j

theorem step_proper (h : Proper w) (ha : Given a) (hs : step (values docId) user w a = some t) :
    Proper t := by
  cases a with
  | act i e =>
    simp only [step] at hs
    split at hs
    · next hlocal =>
      cases hs
      exact ⟨h.rows,proper_put h i (proper_act (h.store i) hlocal ha),h.sent,h.inbox⟩
    · cases hs
  | send i k =>
    obtain ⟨p,hp,rfl⟩ := Option.map_eq_some_iff.mp hs
    refine ⟨h.rows,h.store,?_,h.inbox⟩
    intro j q hq
    by_cases hj : j = i
    · subst hj
      simp only [Function.update_self,List.mem_append,List.mem_singleton] at hq
      rcases hq with hq | hq
      · exact h.sent j q hq
      · rw [hq]
        exact (h.store j).pending p (List.mem_of_getElem? hp)
    · simp only [Function.update_of_ne hj] at hq
      exact h.sent j q hq
  | post i k fate streamId told =>
    obtain ⟨p,hp,rfl⟩ := Option.map_eq_some_iff.mp hs
    have hmade := h.sent i p (List.mem_of_getElem? hp)
    obtain ⟨hrows,hanswer,hremote⟩ := post_proper hmade h.rows docId (user i) fate streamId
    refine ⟨hrows,h.store,?_,?_⟩
    · intro j q hq
      by_cases hj : j = i
      · subst hj
        simp only [Function.update_self] at hq
        exact h.sent j q (List.mem_of_mem_eraseIdx hq)
      · simp only [Function.update_of_ne hj] at hq
        exact h.sent j q hq
    · intro j f hf
      rcases List.mem_append.mp hf with hf | hf
      · exact h.inbox j f hf
      · rcases List.mem_append.mp hf with hf | hf
        · split at hf
          · exact hanswer f (Option.mem_toList.mp hf)
          · cases hf
        · split at hf
          · exact hremote f (Option.mem_toList.mp hf)
          · cases hf
  | hear i k =>
    obtain ⟨f,hf,hheard⟩ := Option.bind_eq_some_iff.mp hs
    obtain ⟨s,hstore,rfl⟩ := Option.map_eq_some_iff.mp hheard
    cases hstore
    have hproper := proper_received (h.store i) (h.inbox i f (List.mem_of_getElem? hf))
    refine ⟨h.rows,proper_put h i hproper,h.sent,?_⟩
    intro j g hg
    by_cases hj : j = i
    · subst hj
      simp only [Function.update_self] at hg
      exact h.inbox j g (List.mem_of_mem_eraseIdx hg)
    · simp only [Function.update_of_ne hj] at hg
      exact h.inbox j g hg
  | load i lastStreamId =>
    cases hs
    have hloaded := proper_loaded (proper_snapshot h.rows docId lastStreamId) docId lastStreamId
    exact ⟨h.rows,proper_put h i hloaded,h.sent,h.inbox⟩

theorem map_update {α β : Type} (f : α → β) (g : ℕ → List α) (i : ℕ) (l : List α) :
    (fun j => (Function.update g i l j).map f) =
      Function.update (fun j => (g j).map f) i (l.map f) := by
  ext1 j
  by_cases hj : j = i
  · simp [hj]
  · simp [hj]

theorem map_told (told : Prop) [Decidable told] (f : Option Frame) :
    (if told then f.toList else []).map Frame.json =
      if told then (f.map Frame.json).toList else [] := by
  split
  · cases f <;> rfl
  · rfl

theorem step_written (huser : ∀ i, IsUser (user i)) (errors : Json → List Json) (h : Proper w)
    (ha : Given a) : step (json errors docId) user w.written a =
      (step (values docId) user w a).map World.written := by
  cases a with
  | act i e =>
    simp only [step]
    split
    · rfl
    · rfl
  | send i k =>
    change (w.store i).pendingOps[k]?.map _ = _
    cases hp : (w.store i).pendingOps[k]? with
    | none => simp [step,hp]
    | some p => simp [step,hp,World.written,map_update,json,values]
  | post i k fate streamId told =>
    cases hp : (w.sent i)[k]? with
    | none => simp [step,hp,World.written]
    | some p =>
      have hpost := post_json (h.sent i p (List.mem_of_getElem? hp)) (huser i) errors docId w.db
        fate streamId
      simp [step,hp,World.written,map_update,json,values,hpost,List.eraseIdx_map,Left.json,map_told]
  | hear i k =>
    cases hf : (w.inbox i)[k]? with
    | none => simp [step,hf,World.written]
    | some f =>
      have hheard := hear_json (w.store i) (h.inbox i f (List.mem_of_getElem? hf))
      simp [step,hf,World.written,World.put,map_update,json,values,hheard,List.eraseIdx_map]
  | load i lastStreamId =>
    have hread := readSnapshot_json (proper_snapshot h.rows docId lastStreamId)
    simp [step,json,values,World.written,World.put,hread]

/-- Runs over JSON end where the runs over values end, refused steps included. -/
theorem json_refines (huser : ∀ i, IsUser (user i)) (errors : Json → List Json)
    (hdb : ProperRows db.blocks.rows) {actions : List Action} (h : ∀ a ∈ actions, Given a) :
    exec (step (json errors docId) user) (start db) actions =
      (exec (step (values docId) user) (start db) actions).map World.written := by
  have hstart : Proper (start db) := ⟨hdb,fun _ => ⟨nofun,nofun⟩,nofun,nofun⟩
  exact exec_map (fun _ _ _ hw ha hs => step_proper hw ha hs)
    (fun _ _ hw ha => step_written huser errors hw ha) hstart h

def insertActions : List Action :=
  [.act 0 (.insertBlock 7 "paragraph" none none none),.send 0 0,
    .post 0 0 .answered (some (toLex (1,0))) [0,1],.hear 1 0,.hear 0 0]

theorem insert_heard : (exec (step (json (fun _ => []) 1) (fun i => i%2+1))
    (start (Database.initial [1] [1,2])) insertActions).map (fun w =>
      ((w.store 1).rootOrder,(w.store 0).pendingOps.length)) = some ([7],0) := by
  have huser : ∀ i : ℕ, IsUser (i%2+1) := by
    intro i
    have hsmall : i%2+1 < 10^21 := by omega
    exact ⟨Nat.succ_pos _,hsmall⟩
  have hrows : ProperRows (Database.initial [1] [1,2]).blocks.rows :=
    ⟨fun r hr => absurd hr List.not_mem_nil,versioned_kept.empty⟩
  have hgiven : ∀ a ∈ insertActions, Given a := by
    simp [insertActions,Given,IdsOf,IsId,IsIds]
  rw [json_refines huser (fun _ => []) hrows hgiven]
  decide +kernel

end BlockDocs.JsonExchange
