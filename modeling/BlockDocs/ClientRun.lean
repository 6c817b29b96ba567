import BlockDocs.BlockStore
import BlockDocs.PostOperations

/-!
# Runs of a client and its ops frames

The store is driven by local actions and by frames. Every frame that waits in
it carries one operation, which the WebSocket server forwards to the api and
answers with what the api said.
-/

set_option autoImplicit false

namespace BlockDocs.ClientRun
open BlockDocs.InsertionMap BlockDocs.Wire BlockDocs.DocBlocks BlockDocs.ApplyOps
open BlockDocs.BlockStore BlockDocs.PostOperations

inductive ClientEvent where
  | loadSnapshot (docId : DocId) (blocks : List Block) (lastStreamId : StreamId)
  | resetDoc
  | insertBlock (blockId : Uuid) (type : String) (parentId afterId : Option Uuid)
      (content : Option JsonObj)
  | deleteBlock (blockId : Uuid)
  | moveBlock (blockId : Uuid) (parentId afterId : Option Uuid)
  | updateAttrs (blockId : Uuid) (attrs : JsonObj)
  | updateContent (blockId : Uuid) (content : JsonObj)
  | applyRemoteOps (ops : List WireOp) (streamId : Option StreamId)
  | handleAck (clientSeq : ℕ) (results : List OpResult)
  | handleNack (clientSeq : ℕ) (conflicts : List ConflictInfo)

def clientStep (s : Store) : ClientEvent → Store
  | .loadSnapshot docId blocks lastStreamId => Store.loadSnapshot docId blocks lastStreamId
  | .resetDoc => s.resetDoc
  | .insertBlock blockId type parentId afterId content =>
    s.insertBlock blockId type parentId afterId content
  | .deleteBlock blockId => s.deleteBlock blockId
  | .moveBlock blockId parentId afterId => s.moveBlock blockId parentId afterId
  | .updateAttrs blockId attrs => s.updateAttrs blockId attrs
  | .updateContent blockId content => s.updateContent blockId content
  | .applyRemoteOps ops streamId => s.applyRemoteOps ops streamId
  | .handleAck clientSeq results => s.handleAck clientSeq results
  | .handleNack clientSeq conflicts => s.handleNack clientSeq conflicts

def clientRun (events : List ClientEvent) : Store := events.foldl clientStep .initial

def SingleOp (p : Pending) : Prop := ∃ op, p.ops = [op]

theorem step_pending (s : Store) (e : ClientEvent) {p : Pending}
    (hp : p ∈ (clientStep s e).pendingOps) : p ∈ s.pendingOps ∨ SingleOp p := by
  have hnew : ∀ {s' : Store} {op : BlockOperation}, s'.pendingOps = s.pendingOps →
      p ∈ (s'.enqueueOps [op]).pendingOps → p ∈ s.pendingOps ∨ SingleOp p := by
    intro s' op hkept hp
    rw [enqueueOps_pendingOps,hkept] at hp
    rcases List.mem_append.mp hp with h | h
    · exact Or.inl h
    · exact Or.inr ⟨op,by rw [List.mem_singleton.mp h]⟩
  cases e with
  | loadSnapshot docId blocks lastStreamId => exact absurd hp List.not_mem_nil
  | resetDoc => exact absurd hp List.not_mem_nil
  | insertBlock blockId type parentId afterId content => exact hnew rfl hp
  | deleteBlock blockId =>
    simp only [clientStep,Store.deleteBlock] at hp
    split at hp
    · exact Or.inl hp
    · exact hnew rfl hp
  | moveBlock blockId parentId afterId =>
    simp only [clientStep,Store.moveBlock] at hp
    split at hp
    · exact Or.inl hp
    · exact hnew rfl hp
  | updateAttrs blockId attrs =>
    simp only [clientStep,Store.updateAttrs] at hp
    split at hp
    · exact Or.inl hp
    · exact hnew rfl hp
  | updateContent blockId content =>
    simp only [clientStep,Store.updateContent] at hp
    split at hp <;> exact Or.inl hp
  | applyRemoteOps ops streamId => exact Or.inl hp
  | handleAck clientSeq results => exact Or.inl (List.mem_filter.mp hp).1
  | handleNack clientSeq conflicts => exact Or.inl (List.mem_filter.mp hp).1

theorem run_pending (events : List ClientEvent) (s : Store)
    (hs : ∀ p ∈ s.pendingOps, SingleOp p) :
    ∀ p ∈ (events.foldl clientStep s).pendingOps, SingleOp p := by
  induction events generalizing s with
  | nil => exact hs
  | cons e es ih =>
    apply ih (clientStep s e)
    intro p hp
    exact (step_pending s e hp).elim (hs p) id

theorem pending_single (events : List ClientEvent) {p : Pending}
    (hp : p ∈ (clientRun events).pendingOps) : SingleOp p :=
  run_pending events .initial (fun _ h => absurd h List.not_mem_nil) p hp

def Enqueues (s : Store) (e : ClientEvent) (op : BlockOperation) : Prop :=
  (clientStep s e).pendingOps = s.pendingOps++[⟨s.clientSeqCounter,[op]⟩]

theorem enqueued_op {s s' : Store} {sent op : BlockOperation} {seq : ℕ}
    (hkept : s'.pendingOps = s.pendingOps)
    (h : (s'.enqueueOps [sent]).pendingOps = s.pendingOps++[⟨seq,[op]⟩]) : op = sent := by
  rw [enqueueOps_pendingOps,hkept] at h
  have hlast := List.append_cancel_left h
  simp only [List.cons.injEq,Pending.mk.injEq,and_true] at hlast
  exact hlast.2.symm

/-- An event that adds no frame enqueues no operation. -/
theorem not_enqueues {s : Store} {e : ClientEvent} {op : BlockOperation}
    (h : (clientStep s e).pendingOps.Sublist s.pendingOps) : ¬Enqueues s e op := by
  intro hop
  have hlen := h.length_le
  rw [hop,List.length_append,List.length_singleton] at hlen
  omega

theorem content_pending (s : Store) (blockId : Uuid) (content : JsonObj) :
    (clientStep s (.updateContent blockId content)).pendingOps = s.pendingOps := by
  simp only [clientStep,Store.updateContent]
  split <;> rfl

theorem content_unsent {s : Store} {op : BlockOperation} (blockId : Uuid) (content : JsonObj) :
    ¬Enqueues s (.updateContent blockId content) op :=
  not_enqueues (content_pending s blockId content ▸ List.Sublist.refl _)

theorem deleteBlock_some {s : Store} {blockId : Uuid} {existing : Block}
    (h : s.blocks.get blockId = some existing) : s.deleteBlock blockId =
      (s.reindexed (promote blockId existing.parentId (s.blocks.delete blockId))).enqueueOps
        [deleteOp blockId existing.version] := by
  rw [Store.deleteBlock,h]

theorem moveBlock_some {s : Store} {blockId : Uuid} {existing : Block}
    (h : s.blocks.get blockId = some existing) (parentId afterId : Option Uuid) :
    s.moveBlock blockId parentId afterId =
      (s.reindexed (s.blocks.set blockId (movedBlock s existing parentId afterId))).enqueueOps
        [moveOp blockId (movedBlock s existing parentId afterId) afterId] := by
  rw [Store.moveBlock,h]

theorem sent_insert {s : Store} {blockId : Uuid} {type : String} {parentId afterId : Option Uuid}
    {content : Option JsonObj} {op : BlockOperation}
    (h : Enqueues s (.insertBlock blockId type parentId afterId content) op) :
    op = insertOp (newBlock s blockId type parentId afterId content) afterId :=
  enqueued_op rfl h

theorem sent_delete {s : Store} {blockId : Uuid} {op : BlockOperation}
    (h : Enqueues s (.deleteBlock blockId) op) : ∃ existing, s.blocks.get blockId = some existing ∧
      op = deleteOp blockId existing.version := by
  cases hget : s.blocks.get blockId with
  | none => exact absurd h (not_enqueues (by simp [clientStep,Store.deleteBlock,hget]))
  | some existing =>
    rw [Enqueues,clientStep,deleteBlock_some hget] at h
    exact ⟨existing,rfl,enqueued_op rfl h⟩

theorem sent_move {s : Store} {blockId : Uuid} {parentId afterId : Option Uuid}
    {op : BlockOperation} (h : Enqueues s (.moveBlock blockId parentId afterId) op) :
    ∃ existing, s.blocks.get blockId = some existing ∧
      op = moveOp blockId (movedBlock s existing parentId afterId) afterId := by
  cases hget : s.blocks.get blockId with
  | none => exact absurd h (not_enqueues (by simp [clientStep,Store.moveBlock,hget]))
  | some existing =>
    rw [Enqueues,clientStep,moveBlock_some hget] at h
    exact ⟨existing,rfl,enqueued_op rfl h⟩

theorem sent_attrs {s : Store} {blockId : Uuid} {attrs : JsonObj} {op : BlockOperation}
    (h : Enqueues s (.updateAttrs blockId attrs) op) :
    ∃ existing, s.blocks.get blockId = some existing ∧
      op = attrsOp blockId attrs existing.version := by
  cases hget : s.blocks.get blockId with
  | none => exact absurd h (not_enqueues (by simp [clientStep,Store.updateAttrs,hget]))
  | some existing =>
    rw [Enqueues,clientStep,Store.updateAttrs,hget] at h
    exact ⟨existing,rfl,enqueued_op rfl h⟩

/-! ## Loading a snapshot -/

theorem get_loaded (blocks : List Block) (h : (blocks.map Block.blockId).Nodup) (m : Blocks)
    (id : Uuid) : (blocks.foldl (fun m b => m.set b.blockId b) m).get id =
      (blocks.find? (fun b => b.blockId = id)).or (m.get id) := by
  induction blocks generalizing m with
  | nil => rfl
  | cons b blocks ih =>
    obtain ⟨hnew,hrest⟩ := List.nodup_cons.mp h
    rw [List.foldl_cons,ih hrest,OrderedMap.get_set]
    by_cases hb : id = b.blockId
    · have hnone : blocks.find? (fun b => b.blockId = id) = none := by
        rw [List.find?_eq_none]
        intro c hc heq
        exact hnew (List.mem_map.mpr ⟨c,hc,(of_decide_eq_true heq).trans hb⟩)
      rw [hnone,if_pos hb]
      simp [hb]
    · simp [hb,Ne.symm hb]

/-- A client that loads the rows of the document holds the blocks of the server. -/
theorem snapshot_blocks {t : Table} {docId : DocId} {rows : List BlockRow}
    (h : rows.Perm (t.rows.filter (fun r => r.docId = docId))) (lastStreamId : StreamId)
    (id : Uuid) : (Store.loadSnapshot docId (rows.map rowToBlock) lastStreamId).blocks.get id =
      (t.find docId id).map rowToBlock := by
  have hmem : ∀ r, r ∈ rows ↔ r ∈ t.rows ∧ r.docId = docId := by
    intro r
    rw [h.mem_iff,List.mem_filter,decide_eq_true_eq]
  have hnodup : ((rows.map rowToBlock).map Block.blockId).Nodup := by
    rw [List.map_map]
    exact (h.map BlockRow.blockId).nodup_iff.mpr (t.keyed.sublist (List.filter_sublist.map _))
  have hfind : rows.find? (fun r => r.blockId = id) = t.find docId id := by
    cases hf : t.find docId id with
    | none =>
      rw [List.find?_eq_none]
      intro r hr hid
      have hrow := (hmem r).mp hr
      exact (find_none_iff _ _ _).mp hf r hrow.1 ⟨hrow.2,of_decide_eq_true hid⟩
    | some row =>
      obtain ⟨hrow,hdoc,hid⟩ := (find_some_iff _ _ _ _).mp hf
      have hsome : (rows.find? (fun r => r.blockId = id)).isSome := by
        rw [List.find?_isSome]
        exact ⟨row,(hmem row).mpr ⟨hrow,hdoc⟩,decide_eq_true hid⟩
      obtain ⟨s,hs⟩ := Option.isSome_iff_exists.mp hsome
      have hsrow := (hmem s).mp (List.mem_of_find?_eq_some hs)
      have hsid : s.blockId = id := by simpa using List.find?_some hs
      rw [hs,row_unique t hsrow.1 hrow (hsid.trans hid.symm)]
  show ((rows.map rowToBlock).foldl (fun m b => m.set b.blockId b) OrderedMap.empty).get id = _
  rw [get_loaded _ hnodup,List.find?_map]
  show ((rows.find? (fun r => r.blockId = id)).map rowToBlock).or none = _
  rw [hfind,Option.or_none]

/-! ## The answer to a frame -/

structure ApiOpsResponse where
  results : Option (List OpResult) := none
  conflicts : Option (List ConflictInfo) := none
  detail : Option String := none

/-- A body that is no JSON is nothing. -/
inductive ApiReply where
  | unreachable
  | response (status : ℕ) (body : Option ApiOpsResponse)

inductive ReplyFrame where
  | ack (clientSeq : ℕ) (results : List OpResult)
  | nack (clientSeq : ℕ) (conflicts : List ConflictInfo)

def nackFirst (msg : Pending) (reason : String) : List ConflictInfo :=
  [⟨(msg.ops.head?.map BlockOperation.blockId).getD .absent,some reason,none⟩]

def handleOps (msg : Pending) : ApiReply → ReplyFrame
  | .unreachable => .nack msg.clientSeq (nackFirst msg "api_unreachable")
  | .response status body =>
    if status = 409 then
      .nack msg.clientSeq ((body.bind ApiOpsResponse.conflicts).getD (nackFirst msg "conflict"))
    else if status ≥ 500 ∨ status ≥ 400 then
      .nack msg.clientSeq (nackFirst msg
        ((body.bind ApiOpsResponse.detail).getD ("api_error_" ++ toString status)))
    else .ack msg.clientSeq ((body.bind ApiOpsResponse.results).getD [])

/-- The route answers 200 unless it raises. -/
def apiReply : Option Posted → ApiReply
  | none => .response 500 none
  | some posted => .response 200 (some { results := some posted.results })

def receive (s : Store) : ReplyFrame → Store
  | .ack clientSeq results => s.handleAck clientSeq results
  | .nack clientSeq conflicts => s.handleNack clientSeq conflicts

/-- A conflict in the results of an accepted batch still travels as an ack. -/
theorem receive_posted (s : Store) (msg : Pending) (posted : Posted) :
    receive s (handleOps msg (apiReply (some posted))) =
      s.handleAck msg.clientSeq posted.results := rfl

end BlockDocs.ClientRun
