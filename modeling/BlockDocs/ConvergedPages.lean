import BlockDocs.ClientRun
import BlockDocs.DocumentFrame
import BlockDocs.LogReplicas

/-!
# Pages that have read everything

Requests are served one after the other, and each publishes its operations. A page loads a
snapshot that may be newer than the place in the log from which it reads on, reads frames and
parts of the log again, and acts before the server does. In the end it shows every block of
the server where the server has it.
-/

set_option autoImplicit false

namespace BlockDocs.ConvergedPages
open BlockDocs.InsertionMap BlockDocs.LexoRank BlockDocs.Wire BlockDocs.DocBlocks
open BlockDocs.ApplyOps BlockDocs.PostOperations BlockDocs.Reachability BlockDocs.DocumentFrame
open BlockDocs.Crdt BlockDocs.Consumer BlockDocs.BlockStore BlockDocs.ClientRun
open BlockDocs.LogReplicas

/-! ## Runs -/

inductive Served (docId : DocId) (first : Database) : List WireOp → Database → Prop where
  | start : Served docId first [] first
  | posted {mid : Database} {log : List WireOp} {userId : UserId} {batch : List BlockOperation}
      {posted : Posted} (h : Served docId first log mid)
      (hpost : postOperations mid docId userId batch = some posted)
      (hkept : ¬LostToCollision mid docId userId batch) :
      Served docId first (log++posted.wireOps) posted.database
  | elsewhere {mid : Database} {log : List WireOp} {other : DocId} {userId : UserId}
      {batch : List BlockOperation} {posted : Posted} (h : Served docId first log mid)
      (hother : docId ≠ other) (hpost : postOperations mid other userId batch = some posted) :
      Served docId first log posted.database
  | consumed {mid : Database} {log : List WireOp} {other : DocId} {entry : StreamEntry}
      {t : Table} (py : Pycrdt) (h : Served docId first log mid)
      (hentry : handleEntry py mid.blocks other entry = .updated t) :
      Served docId first log { mid with blocks := t }

def kind : AppliedPayload → OpType
  | .insert _ _ _ _ _ => .insert_block
  | .delete => .delete_block
  | .move _ _ _ => .move_block
  | .attrs _ => .update_attrs
  | .content _ => .update_content

/-- The server applies such an operation to the block later in the log. -/
def Comes (rest : List WireOp) (op : OpType) (blockId : Uuid) : Prop :=
  ∃ w ∈ rest, w.blockId = blockId ∧ kind w.payload = op

instance (rest : List WireOp) (op : OpType) (blockId : Uuid) : Decidable (Comes rest op blockId) :=
  inferInstanceAs (Decidable (∃ w ∈ rest, w.blockId = blockId ∧ kind w.payload = op))

/-- The stores of a page, and the operations that it has yet to read. A local action is on a
block to which the server applies such an operation when the page has yet to read it. -/
inductive Page (docId : DocId) (first : Database) (log : List WireOp) (last : Database) :
    Store → List WireOp → Prop where
  | loadSnapshot {before ahead later : List WireOp} {db : Database} {rows : List BlockRow}
      (hlog : log = before++(ahead++later)) (hpast : Served docId first (before++ahead) db)
      (hlater : Served docId db later last)
      (hrows : rows.Perm (db.blocks.rows.filter (fun r => r.docId = docId)))
      (lastStreamId : StreamId) :
      Page docId first log last (Store.loadSnapshot docId (rows.map rowToBlock) lastStreamId)
        (ahead++later)
  | applyRemoteOps {s : Store} {frame rest : List WireOp} (streamId : Option StreamId)
      (h : Page docId first log last s (frame++rest)) :
      Page docId first log last (s.applyRemoteOps frame streamId) rest
  | replayed {s : Store} {before more rest : List WireOp} (hlog : log = before++(more++rest))
      (h : Page docId first log last s rest) : Page docId first log last s (more++rest)
  | insertBlock {s : Store} {rest : List WireOp} {blockId : Uuid} (type : String)
      (parentId afterId : Option Uuid) (content : Option JsonObj)
      (hcomes : Comes rest .insert_block blockId) (h : Page docId first log last s rest) :
      Page docId first log last (s.insertBlock blockId type parentId afterId content) rest
  | deleteBlock {s : Store} {rest : List WireOp} {blockId : Uuid}
      (hcomes : Comes rest .delete_block blockId) (h : Page docId first log last s rest) :
      Page docId first log last (s.deleteBlock blockId) rest
  | moveBlock {s : Store} {rest : List WireOp} {blockId : Uuid} (parentId afterId : Option Uuid)
      (hcomes : Comes rest .move_block blockId) (h : Page docId first log last s rest) :
      Page docId first log last (s.moveBlock blockId parentId afterId) rest
  | updateAttrs {s : Store} {rest : List WireOp} (blockId : Uuid) (attrs : JsonObj)
      (h : Page docId first log last s rest) :
      Page docId first log last (s.updateAttrs blockId attrs) rest
  | updateContent {s : Store} {rest : List WireOp} (blockId : Uuid) (content : JsonObj)
      (h : Page docId first log last s rest) :
      Page docId first log last (s.updateContent blockId content) rest
  | handleAck {s : Store} {rest : List WireOp} (clientSeq : ℕ) (results : List OpResult)
      (h : Page docId first log last s rest) :
      Page docId first log last (s.handleAck clientSeq results) rest

/-! ## Nodes -/

abbrev Spots := Tree Uuid Rank String

def rowNode (r : BlockRow) : Node Uuid Rank String := ⟨r.parentId,r.position,r.type⟩

def blockNode (b : Block) : Node Uuid Rank String := ⟨b.parentId,b.position,b.type⟩

def serverNodes (t : Table) (docId : DocId) : Spots := fun b => (t.find docId b).map rowNode

def pageNodes (blocks : Blocks) : Spots := fun b => (blocks.get b).map blockNode

/-- Updates move no block. -/
def edit (w : WireOp) : Option (Edit Uuid Rank String) :=
  match w.payload with
  | .insert type parentId position _ _ => some (.put w.blockId ⟨parentId,position,type⟩)
  | .delete => some (.drop w.blockId)
  | .move parentId position _ => some (.move w.blockId parentId position)
  | .attrs _ => none
  | .content _ => none

def edits (ops : List WireOp) : List (Edit Uuid Rank String) := ops.filterMap edit

@[simp] theorem edits_append (ops more : List WireOp) : edits (ops++more) = edits ops++edits more :=
  List.filterMap_append

variable {docId : DocId} {documents : List DocId} {users : List UserId} {t next : Table}
variable {db mid last : Database} {log rest : List WireOp} {s : Store} {blocks : Blocks}
variable {b : Uuid}

/-! ## The server -/

theorem serverNodes_update {row : Option BlockRow}
    (h : ∀ j, next.find docId j = if j = b then row else t.find docId j) :
    serverNodes next docId = Function.update (serverNodes t docId) b (row.map rowNode) := by
  funext j
  simp only [serverNodes,h]
  by_cases hj : j = b
  · subst hj
    simp
  · simp [hj,serverNodes]

/-- One applied operation, with the edit that it publishes. -/
theorem applied_logs {userId : UserId} {op : BlockOperation} {a : AppliedOp}
    (hdb : Reachable documents users db) (h : applyOp db docId userId op = .ok (a,last)) :
    History (serverNodes db.blocks docId) (edits [wireOp a]) (serverNodes last.blocks docId) := by
  have hone : ∀ {e u}, edit (wireOp a) = some e → Logs (serverNodes db.blocks docId) e u →
      History (serverNodes db.blocks docId) (edits [wireOp a]) u := by
    intro e u he hlogs
    rw [edits,List.filterMap_cons_some he]
    exact .cons hlogs (.nil u)
  have hkept : ∀ {row : BlockRow} {content : JsonObj}, row ∈ db.blocks.rows → row.docId = docId →
      serverNodes (db.rewrite docId row.blockId content (row.version+1)).blocks docId =
        serverNodes db.blocks docId := by
    intro row content hrow hdoc
    have hfind := (find_some_iff db.blocks docId row.blockId row).mpr ⟨hrow,hdoc,rfl⟩
    have hrows : (db.rewrite docId row.blockId content (row.version+1)).blocks.rows =
        setRow docId row.blockId (contentRow content (row.version+1)) db.blocks.rows := rfl
    have hnodes := serverNodes_update (find_setRow hrows (fun _ => ⟨rfl,rfl⟩))
    rw [hnodes,hfind]
    apply Function.update_eq_self_iff.mpr
    simp [serverNodes,hfind,rowNode,contentRow]
  cases applyOp_applied h with
  | @insert blockId parentId afterId depth position t _ _ _ _ _ _ _ hwrite _ =>
    have hfind : ∀ j, t.find docId j = if j = blockId then
        some (insertedRow docId blockId op.payload parentId position depth)
          else db.blocks.find docId j := find_append (write_rows hwrite)
    exact hone rfl (serverNodes_update hfind)
  | @gone blockId _ _ hnone =>
    refine hone rfl ⟨?_,?_⟩
    · simp [serverNodes,hnone,deleteOutcome,wireOp]
    · intro j node hj
      refine ⟨hj,?_⟩
      obtain ⟨row,hrow,rfl⟩ := Option.map_eq_some_iff.mp hj
      intro hparent
      obtain ⟨hmem,hdoc,_⟩ := (find_some_iff _ _ _ _).mp hrow
      obtain ⟨q,hq,hid⟩ := db.blocks.parented row hmem blockId hparent
      have hqdoc := parent_inDocument hdb hmem hq (by rw [hid]; exact hparent)
      exact (find_none_iff _ _ _).mp hnone q hq ⟨hqdoc.trans hdoc,hid⟩
  | @delete row _ _ hrow hdoc _ =>
    refine hone rfl ⟨?_,?_⟩
    · exact congrArg (Option.map rowNode) (find_deleted db.blocks docId row hrow)
    · intro j node hj
      obtain ⟨r,hr,rfl⟩ := Option.map_eq_some_iff.mp hj
      refine ⟨?_,?_⟩
      · rcases find_delete db.blocks docId row hrow j with heq | hnone
        · rw [serverNodes,← heq]
          exact hj
        · cases hnone.symm.trans hr
      · intro hparent
        have hmem := ((find_some_iff _ _ _ _).mp hr).1
        obtain ⟨q,hq,hid⟩ := (db.blocks.delete row hrow).parented r hmem row.blockId hparent
        exact delete_removes db.blocks row hrow hq hid
  | @move row parentId afterId depth position t _ _ _ _ hrow hdoc _ _ _ hwrite _ =>
    have hfind := (find_some_iff db.blocks docId row.blockId row).mpr ⟨hrow,hdoc,rfl⟩
    have hnodes := serverNodes_update (find_setRow (write_rows hwrite) (fun _ => ⟨rfl,rfl⟩))
    rw [hfind] at hnodes
    exact hone rfl ⟨rowNode row,congrArg (Option.map rowNode) hfind,hnodes⟩
  | attrs _ _ hrow hdoc _ _ _ =>
    rw [hkept hrow hdoc]
    exact .nil _
  | content _ _ hrow hdoc _ =>
    rw [hkept hrow hdoc]
    exact .nil _

theorem applyAll_logs {userId : UserId} {batch : List BlockOperation} {outcomes : List OpOutcome}
    {tx : Transaction} (hdb : Reachable documents users db)
    (h : applyAll docId userId ⟨db,false⟩ batch = some (outcomes,tx)) :
    History (serverNodes db.blocks docId) (edits (outcomes.filterMap OpOutcome.wire))
      (serverNodes tx.working.blocks docId) := by
  induction batch generalizing db outcomes with
  | nil =>
    cases h
    exact .nil _
  | cons op ops ih =>
    obtain ⟨o,mid,rest,hone,hrest,rfl⟩ := applyAll_cons h
    cases hop : applyOp db docId userId op with
    | ok r =>
      obtain ⟨a,next⟩ := r
      simp only [applyIn,hop,Bool.false_eq_true,if_false] at hone
      cases hone
      have hwires : (OpOutcome.applied a::rest).filterMap OpOutcome.wire =
          [wireOp a]++rest.filterMap OpOutcome.wire := rfl
      rw [hwires,edits_append]
      exact history_append (applied_logs hdb hop) (ih (.operation hdb hop) hrest)
    | error e =>
      cases e with
      | conflict c =>
        simp only [applyIn,hop,Bool.false_eq_true,if_false] at hone
        cases hone
        have hwires : (OpOutcome.conflict c::rest).filterMap OpOutcome.wire =
            rest.filterMap OpOutcome.wire := rfl
        rw [hwires]
        exact ih hdb hrest
      | collision c =>
        simp only [applyIn,hop,Bool.false_eq_true,if_false] at hone
        cases hone
        obtain ⟨rfl,rfl,rfl⟩ := applyAll_failed hrest
        exact .nil _
      | raised => simp [applyIn,hop] at hone

/-- A request that keeps what it publishes. -/
theorem posted_logs {userId : UserId} {batch : List BlockOperation} {posted : Posted}
    (hdb : Reachable documents users db)
    (hpost : postOperations db docId userId batch = some posted)
    (hkept : ¬LostToCollision db docId userId batch) :
    History (serverNodes db.blocks docId) (edits posted.wireOps)
      (serverNodes posted.database.blocks docId) := by
  obtain ⟨⟨outcomes,tx⟩,hall,heq⟩ := Option.bind_eq_some_iff.mp hpost
  cases heq
  have hlogs := applyAll_logs hdb hall
  rwa [(commit_kept_iff (applyAll_ended hall).1).mpr hkept] at hlogs

theorem serverNodes_outside {other : DocId} (hother : docId ≠ other)
    (h : outside other next = outside other t) : serverNodes next docId = serverNodes t docId := by
  have hfind : ∀ (u : Table) (j : Uuid), u.find docId j =
      (outside other u).find? (fun r => r.docId = docId ∧ r.blockId = j) := by
    intro u j
    rw [Table.find,outside,List.find?_filter]
    apply congrArg (fun p => u.rows.find? p)
    funext r
    by_cases hr : r.docId = docId <;> simp [hr,hother]
  funext j
  rw [serverNodes,serverNodes,hfind,hfind,h]

theorem find_samePlace {rows more : List BlockRow} (h : List.Forall₂ SamePlace rows more)
    (j : Uuid) : (more.find? (fun r => r.docId = docId ∧ r.blockId = j)).map rowNode =
      (rows.find? (fun r => r.docId = docId ∧ r.blockId = j)).map rowNode := by
  induction h with
  | nil => rfl
  | @cons r q rows more hr _ ih =>
    obtain ⟨hid,hdoc,hparent,hposition,_,htype⟩ := hr
    simp only [List.find?_cons,hid,hdoc]
    split
    · simp [rowNode,hparent,hposition,htype]
    · exact ih

theorem served_history (hdb : Reachable documents users db) (h : Served docId db log last) :
    Reachable documents users last ∧
      History (serverNodes db.blocks docId) (edits log) (serverNodes last.blocks docId) := by
  induction h with
  | start => exact ⟨hdb,.nil _⟩
  | posted _ hpost hkept ih =>
    refine ⟨posted_reachable ih.1 hpost,?_⟩
    rw [edits_append]
    exact history_append ih.2 (posted_logs ih.1 hpost hkept)
  | @elsewhere mid log other userId batch posted _ hother hpost ih =>
    refine ⟨posted_reachable ih.1 hpost,?_⟩
    have hout : outside other posted.database.blocks = outside other mid.blocks := by
      have h := request_outside ih.1 other userId batch
      rwa [afterRequest,hpost] at h
    rw [serverNodes_outside hother hout]
    exact ih.2
  | @consumed mid log other entry t py _ hentry ih =>
    refine ⟨.consumed py ih.1 hentry,?_⟩
    obtain ⟨row,state,content,_,_,rfl⟩ := (handleEntry_updated py).mp hentry
    have hsame : serverNodes (mid.blocks.update other row.blockId
        (consumedRow state content entry.id) (consumedRow_place _ _ _)) docId =
          serverNodes mid.blocks docId :=
      funext (find_samePlace (setRow_forall₂ other row.blockId (consumedRow_place _ _ _) _))
    rw [hsame]
    exact ih.2

/-! ## The page -/

theorem pageNodes_set (block : Block) :
    pageNodes (blocks.set b block) = Function.update (pageNodes blocks) b (some (blockNode block)) := by
  funext j
  by_cases h : j = b <;> simp [pageNodes,h]

/-- Another block for an id that stays where it was. -/
theorem pageNodes_same {existing block : Block} (hget : blocks.get b = some existing)
    (h : blockNode block = blockNode existing) : pageNodes (blocks.set b block) = pageNodes blocks := by
  rw [pageNodes_set,h]
  apply Function.update_eq_self_iff.mpr
  simp [pageNodes,hget]

theorem pageNodes_adjust {f : Block → Block}
    {g : Node Uuid Rank String → Node Uuid Rank String}
    (hf : ∀ block, blockNode (f block) = g (blockNode block)) :
    pageNodes (adjust blocks b f) =
      Function.update (pageNodes blocks) b ((pageNodes blocks b).map g) := by
  funext j
  by_cases h : j = b
  · simp [pageNodes,h,Function.comp_def,hf]
  · simp [pageNodes,h]

/-- An update of other fields moves no block. -/
theorem pageNodes_kept {f : Block → Block} (hf : ∀ block, blockNode (f block) = blockNode block) :
    pageNodes (adjust blocks b f) = pageNodes blocks := by
  rw [pageNodes_adjust (g := id) hf]
  simp

theorem pageNodes_dissolve (parentId : Option Uuid) :
    pageNodes (promote b parentId (blocks.delete b)) = fun j =>
      if j = b then none else (pageNodes blocks j).map (Node.orphaned b parentId) := by
  funext j
  by_cases h : j = b
  · simp [pageNodes,h]
  · cases hj : blocks.get j with
    | none => simp [pageNodes,h,hj]
    | some block =>
      by_cases hp : block.parentId = some b <;>
        simp [pageNodes,h,hj,hp,Node.orphaned,blockNode]

theorem pageNodes_remote (w : WireOp) : pageNodes (applyRemoteOp blocks w) =
    (edits [w]).foldl replay (pageNodes blocks) := by
  unfold applyRemoteOp edits edit
  rw [List.filterMap_cons]
  cases w.payload with
  | insert type parentId position depth content => exact pageNodes_set _
  | delete => exact pageNodes_dissolve none
  | move parentId position depth => exact pageNodes_adjust fun _ => rfl
  | attrs patch => exact pageNodes_kept fun _ => rfl
  | content content => exact pageNodes_kept fun _ => rfl

theorem pageNodes_frame (frame : List WireOp) : pageNodes (frame.foldl applyRemoteOp blocks) =
    (edits frame).foldl replay (pageNodes blocks) := by
  induction frame generalizing blocks with
  | nil => rfl
  | cons w frame ih =>
    have hedits : edits (w::frame) = edits [w]++edits frame := edits_append [w] frame
    rw [List.foldl_cons,ih,pageNodes_remote,hedits,List.foldl_append]

theorem pageNodes_acknowledge (results : List OpResult) :
    pageNodes (results.foldl acknowledge blocks) = pageNodes blocks := by
  induction results generalizing blocks with
  | nil => rfl
  | cons r results ih =>
    rw [List.foldl_cons,ih,acknowledge]
    exact pageNodes_kept fun _ => rfl

theorem pageNodes_loaded {rows : List BlockRow}
    (hrows : rows.Perm (t.rows.filter (fun r => r.docId = docId))) (lastStreamId : StreamId) :
    pageNodes (Store.loadSnapshot docId (rows.map rowToBlock) lastStreamId).blocks =
      serverNodes t docId := by
  funext j
  rw [pageNodes,snapshot_blocks hrows,Option.map_map]
  rfl

theorem read_all {first : Spots} {es fs gs : List (Edit Uuid Rank String)} {final nodes : Spots}
    (h : Replica first es final nodes (fs++gs)) :
    Replica first es final (fs.foldl replay nodes) gs := by
  induction fs generalizing nodes with
  | nil => exact h
  | cons e fs ih => exact ih (.read h)

theorem mem_edits {w : WireOp} {e : Edit Uuid Rank String} (hw : w ∈ rest)
    (h : edit w = some e) : e ∈ edits rest := List.mem_filterMap.mpr ⟨w,hw,h⟩

theorem edit_insert {w : WireOp} (h : kind w.payload = .insert_block) :
    ∃ node, edit w = some (.put w.blockId node) := by
  unfold edit
  cases hp : w.payload with
  | insert type parentId position depth content => exact ⟨_,rfl⟩
  | _ => rw [hp] at h; cases h

theorem edit_delete {w : WireOp} (h : kind w.payload = .delete_block) :
    edit w = some (.drop w.blockId) := by
  unfold edit
  cases hp : w.payload with
  | delete => rfl
  | _ => rw [hp] at h; cases h

theorem edit_move {w : WireOp} (h : kind w.payload = .move_block) :
    ∃ parentId position, edit w = some (.move w.blockId parentId position) := by
  unfold edit
  cases hp : w.payload with
  | move parentId position depth => exact ⟨_,_,rfl⟩
  | _ => rw [hp] at h; cases h

theorem page_replica {first : Database} (hfirst : Reachable documents users first)
    (h : Page docId first log last s rest) :
    Replica (serverNodes first.blocks docId) (edits log) (serverNodes last.blocks docId)
      (pageNodes s.blocks) (edits rest) := by
  induction h with
  | @loadSnapshot before ahead later db rows hlog hpast hlater hrows lastStreamId =>
    obtain ⟨hdb,hpast⟩ := served_history hfirst hpast
    rw [edits_append] at hpast
    have hedits : edits log = edits before++(edits ahead++edits later) := by
      rw [hlog,edits_append,edits_append]
    rw [pageNodes_loaded hrows,edits_append]
    exact .copied hedits hpast (served_history hdb hlater).2
  | applyRemoteOps streamId _ ih =>
    rw [edits_append] at ih
    rw [Store.applyRemoteOps,reindexed_blocks,pageNodes_frame]
    exact read_all ih
  | @replayed s before more rest hlog _ ih =>
    have hedits : edits log = edits before++(edits more++edits rest) := by
      rw [hlog,edits_append,edits_append]
    rw [edits_append]
    exact .again ih hedits
  | @insertBlock s rest blockId type parentId afterId content hcomes _ ih =>
    obtain ⟨w,hw,rfl,hop⟩ := hcomes
    obtain ⟨node,hedit⟩ := edit_insert hop
    have hnodes : pageNodes (s.insertBlock w.blockId type parentId afterId content).blocks =
        Function.update (pageNodes s.blocks) w.blockId
          (some (blockNode (newBlock s w.blockId type parentId afterId content))) :=
      pageNodes_set _
    rw [hnodes]
    exact .early ih (mem_edits hw hedit) (.put _ _ _ _)
  | @deleteBlock s rest blockId hcomes _ ih =>
    obtain ⟨w,hw,rfl,hop⟩ := hcomes
    cases hget : s.blocks.get w.blockId with
    | none =>
      rw [Store.deleteBlock,hget]
      exact ih
    | some existing =>
      rw [deleteBlock_some hget,enqueueOps_blocks,reindexed_blocks,pageNodes_dissolve]
      exact .early ih (mem_edits hw (edit_delete hop)) (.drop _ _ _)
  | @moveBlock s rest blockId parentId afterId hcomes _ ih =>
    obtain ⟨w,hw,rfl,hop⟩ := hcomes
    obtain ⟨p,q,hedit⟩ := edit_move hop
    cases hget : s.blocks.get w.blockId with
    | none =>
      rw [Store.moveBlock,hget]
      exact ih
    | some existing =>
      have hold : pageNodes s.blocks w.blockId = some (blockNode existing) := by
        simp [pageNodes,hget]
      rw [moveBlock_some hget,enqueueOps_blocks,reindexed_blocks,pageNodes_set]
      exact .early ih (mem_edits hw hedit)
        (.move hold p parentId q (movedBlock s existing parentId afterId).position)
  | @updateAttrs s rest blockId attrs _ ih =>
    have hnodes : pageNodes (s.updateAttrs blockId attrs).blocks = pageNodes s.blocks := by
      rw [Store.updateAttrs]
      split
      · rfl
      · next existing hget => exact pageNodes_same hget rfl
    rw [hnodes]
    exact ih
  | @updateContent s rest blockId content _ ih =>
    have hnodes : pageNodes (s.updateContent blockId content).blocks = pageNodes s.blocks := by
      rw [Store.updateContent]
      split
      · rfl
      · next existing hget => exact pageNodes_same hget rfl
    rw [hnodes]
    exact ih
  | handleAck clientSeq results _ ih =>
    rw [Store.handleAck,pageNodes_acknowledge]
    exact ih

theorem edit_put {w : WireOp} {node : Node Uuid Rank String} (h : edit w = some (.put b node)) :
    w.blockId = b ∧ kind w.payload = .insert_block := by
  unfold edit at h
  cases hp : w.payload with
  | insert type parentId position depth content =>
    rw [hp] at h
    cases h
    exact ⟨rfl,rfl⟩
  | _ => rw [hp] at h; cases h

theorem survives_log (h : Survives b (edits log)) : ∃ before w after, log = before++w::after ∧
    w.blockId = b ∧ kind w.payload = .insert_block ∧
      ∀ v ∈ after, v.blockId = b → kind v.payload ≠ .delete_block := by
  obtain ⟨xs,node,ys,heq,hys⟩ := h
  obtain ⟨before,more,rfl,_,hmore⟩ := List.filterMap_eq_append_iff.mp heq
  obtain ⟨skipped,w,after,rfl,_,hw,rfl⟩ := List.filterMap_eq_cons_iff.mp hmore
  obtain ⟨hid,hkind⟩ := edit_put hw
  refine ⟨before++skipped,w,after,by simp,hid,hkind,?_⟩
  rintro v hv rfl hdelete
  exact hys (mem_edits hv (edit_delete hdelete))

theorem page_places (hserved : Served docId (.initial documents users) log last)
    (hpage : Page docId (.initial documents users) log last s [])
    {node : Node Uuid Rank String} (hnode : serverNodes last.blocks docId b = some node) :
    pageNodes s.blocks b = some node := by
  have hfirst : Reachable documents users (.initial documents users) := .initial
  exact replica_converges (page_replica hfirst hpage) (served_history hfirst hserved).2 hnode

theorem page_survives (hpage : Page docId (.initial documents users) log last s [])
    (hblock : s.blocks.get b ≠ none) : ∃ before w after, log = before++w::after ∧
      w.blockId = b ∧ kind w.payload = .insert_block ∧
        ∀ v ∈ after, v.blockId = b → kind v.payload ≠ .delete_block := by
  apply survives_log
  have hfirst : Reachable documents users (.initial documents users) := .initial
  apply replica_survives (page_replica hfirst hpage) rfl (fun _ => List.not_mem_nil) List.not_mem_nil
  rwa [pageNodes,Ne,Option.map_eq_none_iff]

/-- A page that has read the log has every block of the server under its parent, at its position
and of its type, and any other block it has was inserted and not deleted by an operation of
its own. -/
theorem pages_converge (hserved : Served docId (.initial documents users) log last)
    (hpage : Page docId (.initial documents users) log last s []) (b : Uuid) :
    (∀ row, last.blocks.find docId b = some row → ∃ block, s.blocks.get b = some block ∧
      block.parentId = row.parentId ∧ block.position = row.position ∧ block.type = row.type) ∧
    (s.blocks.get b ≠ none → ∃ before w after, log = before++w::after ∧
      w.blockId = b ∧ kind w.payload = .insert_block ∧
        ∀ v ∈ after, v.blockId = b → kind v.payload ≠ .delete_block) := by
  refine ⟨?_,page_survives hpage⟩
  intro row hrow
  have hnode : serverNodes last.blocks docId b = some (rowNode row) := by
    rw [serverNodes,hrow]
    rfl
  obtain ⟨block,hblock,heq⟩ := Option.map_eq_some_iff.mp (page_places hserved hpage hnode)
  obtain ⟨hparent,hposition,htype⟩ := Node.mk.inj heq
  exact ⟨block,hblock,hparent,hposition,htype⟩

theorem single_kept {userId : UserId} (op : BlockOperation) :
    ¬LostToCollision db docId userId [op] := by
  rintro ⟨init,final,heq,_,hne⟩
  have hlen := congrArg List.length heq
  obtain rfl : init = [] := by
    rw [← List.length_eq_zero_iff]
    simpa using hlen
  exact hne rfl

/-- A page inserts block 7 and then reads its own operation. -/
theorem own_insert (posted : Posted)
    (hposted : postOperations (.initial [1] [1]) 1 1 [insertUnder 7 none] = some posted)
    (hcomes : Comes posted.wireOps .insert_block 7) :
    Served 1 (.initial [1] [1]) posted.wireOps posted.database ∧
      ∃ s, Page 1 (.initial [1] [1]) posted.wireOps posted.database s [] := by
  have hserved : Served 1 (.initial [1] [1]) ([]++posted.wireOps) posted.database :=
    .posted .start hposted (single_kept _)
  rw [List.nil_append] at hserved
  have hlog : posted.wireOps = []++([]++posted.wireOps) := rfl
  have hrows : ([] : List BlockRow).Perm
      ((Database.initial [1] [1]).blocks.rows.filter (fun r => r.docId = 1)) := .refl _
  have hloaded := Page.loadSnapshot hlog .start hserved hrows (toLex (0,0))
  have hinserted := hloaded.insertBlock "paragraph" none none none hcomes
  have hread : ∀ {s}, Page 1 (.initial [1] [1]) posted.wireOps posted.database s posted.wireOps →
      Page 1 (.initial [1] [1]) posted.wireOps posted.database
        (s.applyRemoteOps posted.wireOps none) [] := by
    intro s h
    apply Page.applyRemoteOps
    rwa [List.append_nil]
  exact ⟨hserved,_,hread hinserted⟩

theorem own_insert_read : ∃ posted s,
    postOperations (.initial [1] [1]) 1 1 [insertUnder 7 none] = some posted ∧
    Page 1 (.initial [1] [1]) posted.wireOps posted.database s [] ∧
    (∀ row, posted.database.blocks.find 1 7 = some row → ∃ block, s.blocks.get 7 = some block ∧
      block.parentId = row.parentId ∧ block.position = row.position ∧ block.type = row.type) := by
  have h : ((postOperations (.initial [1] [1]) 1 1 [insertUnder 7 none]).any (fun posted =>
      Comes posted.wireOps .insert_block 7)) = true := by decide +kernel
  obtain ⟨posted,hposted,hcomes⟩ := (Option.any_eq_true _ _).mp h
  obtain ⟨hserved,s,hpage⟩ := own_insert posted hposted (of_decide_eq_true hcomes)
  exact ⟨posted,s,hposted,hpage,(pages_converge hserved hpage 7).1⟩

end BlockDocs.ConvergedPages
