import BlockDocs.ClientRun
import BlockDocs.Reachability

/-!
# Three versions of one tree

Server rows and client maps are compared as maps from ids to places. Each of
the three implementations of a structural operation acts on such a map, and
their results are set side by side.
-/

set_option autoImplicit false

namespace BlockDocs.ReplicaTree
open BlockDocs.InsertionMap BlockDocs.LexoRank BlockDocs.Wire BlockDocs.DocBlocks
open BlockDocs.ApplyOps BlockDocs.PostOperations BlockDocs.Reachability
open BlockDocs.BlockStore BlockDocs.ClientRun

/-! ## Places -/

structure Place where
  parentId : Option Uuid
  position : Rank
  depth : ℕ
  deriving DecidableEq

abbrev Tree := Uuid → Option Place

def blockPlace (b : Block) : Place := ⟨b.parentId,b.position,b.depth⟩
def rowPlace (r : BlockRow) : Place := ⟨r.parentId,r.position,r.depth⟩

def clientTree (blocks : Blocks) : Tree := fun b => (blocks.get b).map blockPlace

def serverTree (t : Table) (docId : DocId) : Tree := fun b => (t.find docId b).map rowPlace

def childDepth (tree : Tree) : Option Uuid → ℕ
  | none => 0
  | some p => ((tree p).map Place.depth).getD 0+1

def reparent (blockId : Uuid) (parentId : Option Uuid) (place : Place) : Place :=
  if place.parentId = some blockId then { place with parentId := parentId } else place

def dissolve (blockId : Uuid) (parentId : Option Uuid) (tree : Tree) : Tree :=
  fun b => if b = blockId then none else (tree b).map (reparent blockId parentId)

/-! ## Clients -/

theorem depthUnder_eq (blocks : Blocks) (parentId : Option Uuid) :
    depthUnder blocks parentId = childDepth (clientTree blocks) parentId := by
  cases parentId with
  | none => rfl
  | some p =>
    simp only [depthUnder,childDepth,clientTree,Option.map_map]
    rfl

theorem clientTree_set (blocks : Blocks) (blockId : Uuid) (b : Block) :
    clientTree (blocks.set blockId b) =
      Function.update (clientTree blocks) blockId (some (blockPlace b)) := by
  funext j
  by_cases h : j = blockId <;> simp [clientTree,h]

theorem clientTree_adjust (blocks : Blocks) (blockId : Uuid) (f : Block → Block)
    (g : Place → Place) (hf : ∀ b, blockPlace (f b) = g (blockPlace b)) :
    clientTree (adjust blocks blockId f) =
      Function.update (clientTree blocks) blockId ((clientTree blocks blockId).map g) := by
  funext j
  by_cases h : j = blockId
  · simp [clientTree,h,Function.comp_def,hf]
  · simp [clientTree,h]

theorem clientTree_acknowledge (blocks : Blocks) (r : OpResult) :
    clientTree (acknowledge blocks r) = clientTree blocks := by
  have h := clientTree_adjust blocks r.blockId (fun b => { b with version := r.newVersion }) id
    (fun _ => rfl)
  rw [acknowledge,h]
  simp

theorem clientTree_dissolve (blocks : Blocks) (blockId : Uuid) (parentId : Option Uuid) :
    clientTree (promote blockId parentId (blocks.delete blockId)) =
      dissolve blockId parentId (clientTree blocks) := by
  funext j
  by_cases h : j = blockId
  · simp [clientTree,dissolve,h]
  · cases hj : blocks.get j with
    | none => simp [clientTree,dissolve,h,hj]
    | some b =>
      by_cases hp : b.parentId = some blockId <;>
        simp [clientTree,dissolve,h,hj,hp,reparent,blockPlace]

def remoteTree (op : WireOp) (tree : Tree) : Tree :=
  match op.payload with
  | .insert _ parentId position _ _ =>
    Function.update tree op.blockId (some ⟨parentId,position,childDepth tree parentId⟩)
  | .delete => dissolve op.blockId none tree
  | .move parentId position _ => Function.update tree op.blockId
      ((tree op.blockId).map (fun place => ⟨parentId,position,place.depth⟩))
  | .attrs _ => tree
  | .content _ => tree

theorem clientTree_remote (blocks : Blocks) (op : WireOp) :
    clientTree (applyRemoteOp blocks op) = remoteTree op (clientTree blocks) := by
  unfold applyRemoteOp remoteTree
  cases op.payload with
  | insert type parentId position depth content =>
    simp only [clientTree_set,blockPlace,depthUnder_eq]
  | delete => exact clientTree_dissolve blocks op.blockId none
  | move parentId position depth =>
    exact clientTree_adjust blocks op.blockId _
      (fun place => ⟨parentId,position,place.depth⟩) (fun _ => rfl)
  | attrs patch =>
    simpa using clientTree_adjust blocks op.blockId (fun b => { b with
      content := spreadAttrs b.content patch, version := op.version+1 }) id (fun _ => rfl)
  | content content =>
    simpa using clientTree_adjust blocks op.blockId (fun b => { b with
      content := content, version := op.version+1 }) id (fun _ => rfl)

/-! ## The server -/

theorem childDepth_server {t : Table} {docId : DocId} {parentId : Option Uuid} {depth : ℕ}
    (h : parentDepth t docId parentId = .ok depth) :
    childDepth (serverTree t docId) parentId = depth := by
  cases parentId with
  | none => exact Except.ok.inj h
  | some p =>
    obtain ⟨row,hrow,hdoc,hid,rfl⟩ := parentDepth_found h
    have hfind := (find_some_iff t docId p row).mpr ⟨hrow,hdoc,hid⟩
    simp [childDepth,serverTree,hfind,rowPlace]

theorem serverTree_update {t next : Table} {docId : DocId} {b : Uuid} {row : Option BlockRow}
    (h : ∀ j, next.find docId j = if j = b then row else t.find docId j) :
    serverTree next docId = Function.update (serverTree t docId) b (row.map rowPlace) := by
  funext j
  simp only [serverTree,h]
  by_cases hj : j = b
  · subst hj
    simp
  · simp [hj,serverTree]

/-- An applied insert adds a leaf under a known parent. -/
theorem server_insert {db next : Database} {docId : DocId} {userId : UserId}
    {op : BlockOperation} {a : AppliedOp} (hop : op.op = .insert_block)
    (h : applyOp db docId userId op = .ok (a,next)) :
    ∃ type position depth content parentId, op.blockId = .uuid a.blockId ∧
      op.payload.parentId = .ofOption parentId ∧
      a.payload = .insert type parentId position depth content ∧
      parentDepth db.blocks docId parentId = .ok depth ∧
      serverTree db.blocks docId a.blockId = none ∧
      serverTree next.blocks docId = Function.update (serverTree db.blocks docId) a.blockId
        (some ⟨parentId,position,depth⟩) := by
  cases applyOp_applied h with
  | @insert blockId parentId afterId depth position t _ hid hparent _ hfresh hdepth _ hwrite _ =>
    have hnone : db.blocks.find docId blockId = none :=
      (find_none_iff _ _ _).mpr (fun r hr hr' => hfresh r hr hr'.2)
    have hfind : ∀ j, t.find docId j = if j = blockId then
        some (insertedRow docId blockId op.payload parentId position depth)
          else db.blocks.find docId j := find_append (write_rows hwrite)
    exact ⟨_,position,depth,_,parentId,hid,read_ok.mp hparent,rfl,hdepth,
      congrArg (Option.map rowPlace) hnone,serverTree_update hfind⟩
  | _ hop' => exact absurd (hop.symm.trans hop') (by decide)

/-- An applied move writes the new place of one row and leaves the depths below it. -/
theorem server_move {db next : Database} {docId : DocId} {userId : UserId}
    {op : BlockOperation} {a : AppliedOp} (hop : op.op = .move_block)
    (h : applyOp db docId userId op = .ok (a,next)) :
    ∃ position depth parentId row, op.blockId = .uuid a.blockId ∧
      op.payload.parentId = .ofOption parentId ∧ a.payload = .move parentId position depth ∧
      parentDepth db.blocks docId parentId = .ok depth ∧
      db.blocks.find docId a.blockId = some row ∧
      serverTree next.blocks docId = Function.update (serverTree db.blocks docId) a.blockId
        (some ⟨parentId,position,depth⟩) := by
  cases applyOp_applied h with
  | @move row parentId afterId depth position t _ hid hparent _ hrow hdoc _ hdepth _ hwrite _ =>
    have hfind := (find_some_iff db.blocks docId row.blockId row).mpr ⟨hrow,hdoc,rfl⟩
    have htree := serverTree_update (find_setRow (write_rows hwrite) (fun _ => ⟨rfl,rfl⟩))
    rw [hfind] at htree
    exact ⟨position,depth,parentId,row,hid,read_ok.mp hparent,rfl,hdepth,hfind,htree⟩
  | _ hop' => exact absurd (hop.symm.trans hop') (by decide)

/-- An applied delete of a present block runs the cascade. -/
theorem server_delete {db next : Database} {docId : DocId} {userId : UserId}
    {op : BlockOperation} {a : AppliedOp} {row : BlockRow} (hop : op.op = .delete_block)
    (hid : op.blockId = .uuid row.blockId) (hrow : row ∈ db.blocks.rows) (hdoc : row.docId = docId)
    (h : applyOp db docId userId op = .ok (a,next)) :
    a.blockId = row.blockId ∧ a.payload = .delete ∧ next.blocks = db.blocks.delete row hrow := by
  cases applyOp_applied h with
  | gone _ hid' hnone =>
    cases hid.symm.trans hid'
    exact absurd ⟨hdoc,rfl⟩ ((find_none_iff _ _ _).mp hnone row hrow)
  | delete _ hid' hrow' _ _ =>
    cases row_unique db.blocks hrow hrow' (IdField.uuid.inj (hid.symm.trans hid'))
    exact ⟨rfl,rfl,rfl⟩
  | _ hop' => exact absurd (hop.symm.trans hop') (by decide)

/-! ## One action at three places -/

inductive TreeAction where
  | insert (blockId : Uuid) (type : String) (parentId afterId : Option Uuid)
      (content : Option JsonObj)
  | delete (blockId : Uuid)
  | move (blockId : Uuid) (parentId afterId : Option Uuid)

def TreeAction.event : TreeAction → ClientEvent
  | .insert blockId type parentId afterId content =>
    .insertBlock blockId type parentId afterId content
  | .delete blockId => .deleteBlock blockId
  | .move blockId parentId afterId => .moveBlock blockId parentId afterId

def perform (s : Store) (action : TreeAction) : Store := clientStep s action.event

theorem perform_delete {s : Store} {blockId : Uuid} {existing : Block}
    (h : s.blocks.get blockId = some existing) :
    clientTree (perform s (.delete blockId)).blocks =
      dissolve blockId existing.parentId (clientTree s.blocks) := by
  rw [perform,TreeAction.event,clientStep,deleteBlock_some h,enqueueOps_blocks,reindexed_blocks,
    clientTree_dissolve]

/-- The author writes the depth that it sees under the new parent. -/
theorem perform_move {s : Store} {blockId : Uuid} {existing : Block}
    (h : s.blocks.get blockId = some existing) (parentId afterId : Option Uuid) :
    ∃ position, clientTree (perform s (.move blockId parentId afterId)).blocks =
      Function.update (clientTree s.blocks) blockId
        (some ⟨parentId,position,childDepth (clientTree s.blocks) parentId⟩) := by
  refine ⟨(movedBlock s existing parentId afterId).position,?_⟩
  rw [perform,TreeAction.event,clientStep,moveBlock_some h,enqueueOps_blocks,reindexed_blocks,
    clientTree_set,← depthUnder_eq]
  rfl

theorem single_applied {db : Database} {docId : DocId} {userId : UserId} {op : BlockOperation}
    {posted : Posted} (hpost : postOperations db docId userId [op] = some posted)
    (happlied : ∀ r ∈ posted.results, r.status = .applied) :
    ∃ a, applyOp db docId userId op = .ok (a,posted.database) ∧
      posted.results = [opResult (.applied a)] ∧ posted.wireOps = [wireOp a] := by
  obtain ⟨o,tx,hone,rfl⟩ := single_outcome hpost
  cases o with
  | conflict c => cases happlied _ List.mem_cons_self
  | applied a =>
    simp only [applyIn,Bool.false_eq_true,if_false] at hone
    split at hone
    · next hok =>
      cases hone
      exact ⟨a,hok,rfl,rfl⟩
    · cases hone
    · cases hone
    · cases hone

def settled (s : Store) (ackFirst : Bool) (clientSeq : ℕ) (posted : Posted)
    (streamId : Option StreamId) : Store :=
  if ackFirst then (s.handleAck clientSeq posted.results).applyRemoteOps posted.wireOps streamId
  else (s.applyRemoteOps posted.wireOps streamId).handleAck clientSeq posted.results

theorem clientTree_settled (s : Store) (ackFirst : Bool) (clientSeq : ℕ) {posted : Posted}
    (streamId : Option StreamId) {r : OpResult} {op : WireOp} (hresults : posted.results = [r])
    (hops : posted.wireOps = [op]) :
    clientTree (settled s ackFirst clientSeq posted streamId).blocks =
      remoteTree op (clientTree s.blocks) := by
  cases ackFirst with
  | true =>
    show clientTree ((posted.wireOps.foldl applyRemoteOp
      (posted.results.foldl acknowledge s.blocks))) = _
    rw [hresults,hops]
    exact (clientTree_remote _ _).trans (congrArg (remoteTree op) (clientTree_acknowledge _ _))
  | false =>
    show clientTree ((posted.results.foldl acknowledge
      (posted.wireOps.foldl applyRemoteOp s.blocks))) = _
    rw [hresults,hops]
    exact (clientTree_acknowledge _ _).trans (clientTree_remote _ _)

/-- Author and peer hold the server's tree once all frames are processed. -/
def Agree (author peer : Store) (action : TreeAction) (docId : DocId) (posted : Posted)
    (streamId : Option StreamId) : Prop :=
  (∀ ackFirst, clientTree (settled (perform author action) ackFirst author.clientSeqCounter posted
      streamId).blocks = serverTree posted.database.blocks docId) ∧
    clientTree (peer.applyRemoteOps posted.wireOps streamId).blocks =
      serverTree posted.database.blocks docId

/-- A moved block keeps its depth and a deleted block has no other child. -/
def Undisturbed (t : Table) (docId : DocId) : TreeAction → Prop
  | .insert _ _ _ _ _ => True
  | .delete blockId => ∀ s ∈ t.rows, s.blockId ≠ blockId → s.parentId ≠ some blockId
  | .move blockId parentId _ =>
    ∀ row, t.find docId blockId = some row → parentDepth t docId parentId = .ok row.depth

/-- The frames reduce agreement to what the wire operation does to two trees. -/
theorem agree_iff {author peer : Store} {action : TreeAction} {docId : DocId} {posted : Posted}
    {streamId : Option StreamId} {a : AppliedOp}
    (hresults : posted.results = [opResult (.applied a)]) (hops : posted.wireOps = [wireOp a]) :
    Agree author peer action docId posted streamId ↔
      remoteTree (wireOp a) (clientTree (perform author action).blocks) =
          serverTree posted.database.blocks docId ∧
        remoteTree (wireOp a) (clientTree peer.blocks) =
          serverTree posted.database.blocks docId := by
  unfold Agree
  have hpeer : clientTree (peer.applyRemoteOps posted.wireOps streamId).blocks =
      remoteTree (wireOp a) (clientTree peer.blocks) := by
    rw [hops]
    exact clientTree_remote _ _
  simp only [clientTree_settled _ _ _ _ hresults hops,hpeer,forall_const]

/-! ## Agreement after each kind of action -/

theorem childDepth_update (tree : Tree) {b : Uuid} {parentId : Option Uuid} (place : Option Place)
    (h : parentId ≠ some b) :
    childDepth (Function.update tree b place) parentId = childDepth tree parentId := by
  cases parentId with
  | none => rfl
  | some p =>
    have hne : p ≠ b := fun heq => h (congrArg some heq)
    simp [childDepth,hne]

variable {db next : Database} {docId : DocId} {userId : UserId} {author peer : Store}
  {op : BlockOperation} {a : AppliedOp}

theorem insert_agrees {blockId : Uuid} {type : String} {parentId afterId : Option Uuid}
    {content : Option JsonObj} (hauthor : clientTree author.blocks = serverTree db.blocks docId)
    (hpeer : clientTree peer.blocks = serverTree db.blocks docId)
    (hsent : Enqueues author (.insertBlock blockId type parentId afterId content) op)
    (h : applyOp db docId userId op = .ok (a,next)) :
    remoteTree (wireOp a)
        (clientTree (perform author (.insert blockId type parentId afterId content)).blocks) =
          serverTree next.blocks docId ∧
      remoteTree (wireOp a) (clientTree peer.blocks) = serverTree next.blocks docId := by
  rw [sent_insert hsent] at h
  obtain ⟨_,position,depth,_,parentId',hid,hparent,hpayload,hdepth,hnone,htree⟩ :=
    server_insert rfl h
  have hblock : blockId = a.blockId := IdField.uuid.inj hid
  have hsame : parentId = parentId' := ofOption_inj hparent
  subst hblock hsame
  have hne : parentId ≠ some a.blockId := by
    intro heq
    rw [heq] at hdepth
    obtain ⟨row,hrow,hdoc,hid,_⟩ := parentDepth_found hdepth
    rw [serverTree,(find_some_iff _ _ _ _).mpr ⟨hrow,hdoc,hid⟩] at hnone
    cases hnone
  have hremote : ∀ place, remoteTree (wireOp a)
      (Function.update (serverTree db.blocks docId) a.blockId place) =
        serverTree next.blocks docId := by
    intro place
    rw [htree]
    simp only [remoteTree,wireOp,hpayload,Function.update_idem]
    rw [childDepth_update _ place hne,childDepth_server hdepth]
  constructor
  · have hlocal := clientTree_set author.blocks a.blockId
      (newBlock author a.blockId type parentId afterId content)
    rw [hauthor] at hlocal
    exact (congrArg (remoteTree (wireOp a)) hlocal).trans (hremote _)
  · have hself := hremote (serverTree db.blocks docId a.blockId)
    rwa [Function.update_eq_self,← hpeer] at hself

/-- The echo of a move keeps the depth that the client has. -/
theorem remote_move {parentId : Option Uuid} {position : Rank} {depth : ℕ}
    (hpayload : a.payload = .move parentId position depth) {tree : Tree} {place : Place}
    (h : tree a.blockId = some place) : remoteTree (wireOp a) tree =
      Function.update tree a.blockId (some ⟨parentId,position,place.depth⟩) := by
  simp only [remoteTree,wireOp,hpayload,h]
  rfl

theorem move_agrees_iff {blockId : Uuid} {parentId afterId : Option Uuid}
    (hauthor : clientTree author.blocks = serverTree db.blocks docId)
    (hpeer : clientTree peer.blocks = serverTree db.blocks docId)
    (hsent : Enqueues author (.moveBlock blockId parentId afterId) op)
    (h : applyOp db docId userId op = .ok (a,next)) :
    (remoteTree (wireOp a) (clientTree (perform author (.move blockId parentId afterId)).blocks) =
          serverTree next.blocks docId ∧
      remoteTree (wireOp a) (clientTree peer.blocks) = serverTree next.blocks docId) ↔
        Undisturbed db.blocks docId (.move blockId parentId afterId) := by
  obtain ⟨existing,hget,rfl⟩ := sent_move hsent
  obtain ⟨position,depth,parentId',row,hid,hparent,hpayload,hdepth,hfind,htree⟩ :=
    server_move rfl h
  have hblock : blockId = a.blockId := IdField.uuid.inj hid
  have hsame : parentId = parentId' := ofOption_inj hparent
  subst hblock hsame
  have hown : remoteTree (wireOp a)
      (clientTree (perform author (.move a.blockId parentId afterId)).blocks) =
        serverTree next.blocks docId := by
    obtain ⟨first,hperform⟩ := perform_move hget parentId afterId
    rw [hauthor,childDepth_server hdepth] at hperform
    rw [hperform,remote_move hpayload (Function.update_self ..),Function.update_idem,htree]
  have hother : remoteTree (wireOp a) (clientTree peer.blocks) =
      Function.update (serverTree db.blocks docId) a.blockId
        (some ⟨parentId,position,row.depth⟩) := by
    have hplace : serverTree db.blocks docId a.blockId = some (rowPlace row) :=
      congrArg (Option.map rowPlace) hfind
    rw [hpeer,remote_move hpayload hplace]
    rfl
  rw [hother,htree]
  constructor
  · rintro ⟨_,heq⟩ row' hrow'
    have hat := congrFun heq a.blockId
    simp only [Function.update_self,Option.some.injEq,Place.mk.injEq,true_and] at hat
    cases hfind.symm.trans hrow'
    rw [hat]
    exact hdepth
  · intro hkept
    have hsame := Except.ok.inj (hdepth.symm.trans (hkept row hfind))
    rw [← htree,← hsame]
    exact ⟨hown,htree.symm⟩

theorem dissolve_leaf {tree : Tree} {b : Uuid} (parentId : Option Uuid)
    (h : ∀ j place, tree j = some place → j ≠ b → place.parentId ≠ some b) :
    dissolve b parentId tree = Function.update tree b none := by
  funext j
  by_cases hj : j = b
  · simp [dissolve,hj]
  · cases hplace : tree j with
    | none => simp [dissolve,hj,hplace]
    | some place => simp [dissolve,hj,hplace,reparent,h j place hplace hj]

/-- Without children it does not matter who takes them. -/
theorem dissolve_leaf_again {tree : Tree} {b : Uuid} (parentId next : Option Uuid)
    (h : ∀ j place, tree j = some place → j ≠ b → place.parentId ≠ some b) :
    dissolve b next (dissolve b parentId tree) = Function.update tree b none := by
  have hagain : ∀ j place, Function.update tree b none j = some place → j ≠ b →
      place.parentId ≠ some b := by
    intro j place hj hne
    rw [Function.update_of_ne hne] at hj
    exact h j place hj hne
  rw [dissolve_leaf _ h,dissolve_leaf _ hagain,Function.update_idem]

theorem leaf_places {t : Table} {docId : DocId} {b : Uuid}
    (h : ∀ s ∈ t.rows, s.blockId ≠ b → s.parentId ≠ some b) :
    ∀ j place, serverTree t docId j = some place → j ≠ b → place.parentId ≠ some b := by
  intro j place hj hne
  obtain ⟨r,hr,rfl⟩ := Option.map_eq_some_iff.mp hj
  obtain ⟨hmem,_,rfl⟩ := (find_some_iff _ _ _ _).mp hr
  exact h r hmem hne

/-- The cascade takes every child along. -/
theorem child_removed {t : Table} {row s : BlockRow} (hrow : row ∈ t.rows) (hs : s ∈ t.rows)
    (hchild : s.parentId = some row.blockId) (docId : DocId) :
    serverTree (t.delete row hrow) docId s.blockId = none := by
  rw [serverTree,Option.map_eq_none_iff]
  apply (find_none_iff _ _ _).mpr
  rintro r hr ⟨_,hid⟩
  have hsame := row_unique t ((delete_sublist t row hrow).subset hr) hs hid
  subst hsame
  obtain ⟨q,hq,hqid⟩ := (t.delete row hrow).parented r hr _ hchild
  exact delete_removes t row hrow hq hqid

/-- A client that dissolves the block like the server deletes it saw no child of it. -/
theorem leaf_of_agreement {documents : List DocId} {users : List UserId}
    (hdb : Reachable documents users db) {row : BlockRow} (hrow : row ∈ db.blocks.rows)
    (hdoc : row.docId = docId) {parentId : Option Uuid}
    (h : dissolve row.blockId parentId (serverTree db.blocks docId) =
      serverTree (db.blocks.delete row hrow) docId) :
    ∀ s ∈ db.blocks.rows, s.blockId ≠ row.blockId → s.parentId ≠ some row.blockId := by
  intro s hs hne hchild
  have hsdoc : s.docId = docId := (parent_inDocument hdb hs hrow hchild).symm.trans hdoc
  have hplace : serverTree db.blocks docId s.blockId = some (rowPlace s) :=
    congrArg (Option.map rowPlace) ((find_some_iff _ _ _ _).mpr ⟨hs,hsdoc,rfl⟩)
  have hat := congrFun h s.blockId
  rw [child_removed hrow hs hchild] at hat
  simp [dissolve,hne,hplace] at hat

/-- Clients promote the children of a deleted block, the server removes them. -/
theorem delete_agrees_iff {documents : List DocId} {users : List UserId}
    (hdb : Reachable documents users db) {blockId : Uuid}
    (hauthor : clientTree author.blocks = serverTree db.blocks docId)
    (hpeer : clientTree peer.blocks = serverTree db.blocks docId)
    (hsent : Enqueues author (.deleteBlock blockId) op)
    (h : applyOp db docId userId op = .ok (a,next)) :
    (remoteTree (wireOp a) (clientTree (perform author (.delete blockId)).blocks) =
          serverTree next.blocks docId ∧
      remoteTree (wireOp a) (clientTree peer.blocks) = serverTree next.blocks docId) ↔
        Undisturbed db.blocks docId (.delete blockId) := by
  obtain ⟨existing,hget,rfl⟩ := sent_delete hsent
  have hpresent : (serverTree db.blocks docId blockId).isSome := by
    rw [← hauthor,clientTree,hget]
    rfl
  obtain ⟨row,hfind⟩ := Option.isSome_iff_exists.mp (Option.isSome_map.symm.trans hpresent)
  obtain ⟨hrow,hdoc,rfl⟩ := (find_some_iff _ _ _ _).mp hfind
  obtain ⟨hid,hpayload,hnext⟩ := server_delete rfl rfl hrow hdoc h
  have hremote : ∀ tree, remoteTree (wireOp a) tree = dissolve row.blockId none tree := by
    intro tree
    simp only [remoteTree,wireOp,hpayload,hid]
  rw [hremote,hremote,perform_delete hget,hauthor,hpeer,hnext]
  constructor
  · exact fun hagree => leaf_of_agreement hdb hrow hdoc hagree.2
  · intro hleaf
    have hserver := serverTree_update (find_delete_leaf db.blocks docId row hrow hleaf)
    rw [hserver,dissolve_leaf_again _ _ (leaf_places hleaf),dissolve_leaf _ (leaf_places hleaf)]
    exact ⟨rfl,rfl⟩

/-- After the frames of one applied action both clients hold the server's tree
if and only if a moved block kept its depth and a deleted one had no other child. -/
theorem trees_agree_iff {documents : List DocId} {users : List UserId}
    (hdb : Reachable documents users db)
    (hauthor : clientTree author.blocks = serverTree db.blocks docId)
    (hpeer : clientTree peer.blocks = serverTree db.blocks docId) {action : TreeAction}
    (hsent : Enqueues author action.event op) {posted : Posted}
    (hpost : postOperations db docId userId [op] = some posted)
    (happlied : ∀ r ∈ posted.results, r.status = .applied) (streamId : Option StreamId) :
    Agree author peer action docId posted streamId ↔ Undisturbed db.blocks docId action := by
  obtain ⟨a,hok,hresults,hops⟩ := single_applied hpost happlied
  rw [agree_iff hresults hops]
  cases action with
  | insert blockId type parentId afterId content =>
    exact iff_of_true (insert_agrees hauthor hpeer hsent hok) trivial
  | delete blockId => exact delete_agrees_iff hdb hauthor hpeer hsent hok
  | move blockId parentId afterId => exact move_agrees_iff hauthor hpeer hsent hok

theorem snapshot_tree (t : Table) (docId : DocId) (lastStreamId : StreamId) :
    clientTree (Store.loadSnapshot docId
      ((t.rows.filter (fun r => r.docId = docId)).map rowToBlock) lastStreamId).blocks =
        serverTree t docId := by
  funext j
  rw [clientTree,snapshot_blocks (List.Perm.refl _),Option.map_map]
  rfl

def nested : Database := settle 1 1 (.initial [1] [1]) [insertUnder 1 none,insertUnder 2 (some 1)]

def loaded : Store :=
  Store.loadSnapshot 1 ((nested.blocks.rows.filter (fun r => r.docId = 1)).map rowToBlock)
    (toLex (2,0))

theorem loaded_tree : clientTree loaded.blocks = serverTree nested.blocks 1 := snapshot_tree _ _ _

theorem nested_reachable : Reachable [1] [1] nested := settle_reachable .initial 1 1 _

theorem trees_agree_iff_delete_leaf : ∃ posted,
    postOperations nested 1 1 [deleteOp 2 1] = some posted ∧
      (Agree loaded loaded (.delete 2) 1 posted none ↔
        Undisturbed nested.blocks 1 (.delete 2)) := by
  have h : ((postOperations nested 1 1 [deleteOp 2 1]).any
      (fun posted => ∀ r ∈ posted.results, r.status = .applied)) = true := by decide +kernel
  obtain ⟨posted,hposted,happlied⟩ := (Option.any_eq_true _ _).mp h
  have hsent : Enqueues loaded (TreeAction.event (.delete 2)) (deleteOp 2 1) := rfl
  exact ⟨posted,hposted,trees_agree_iff nested_reachable loaded_tree loaded_tree hsent hposted
    (of_decide_eq_true happlied) none⟩

/-- Deleting block 1 removes block 2 on the server and nowhere else. -/
theorem child_outlives_parent : ∃ db author peer op posted,
    Reachable [1] [1] db ∧ clientTree author.blocks = serverTree db.blocks 1 ∧
      clientTree peer.blocks = serverTree db.blocks 1 ∧ Enqueues author (TreeAction.event (.delete 1)) op ∧
      postOperations db 1 1 [op] = some posted ∧ (∀ r ∈ posted.results, r.status = .applied) ∧
      ¬Agree author peer (.delete 1) 1 posted none := by
  have h : ((postOperations nested 1 1 [deleteOp 1 1]).any
      (fun posted => (∀ r ∈ posted.results, r.status = .applied) ∧
        clientTree (loaded.applyRemoteOps posted.wireOps none).blocks 2 ≠
          serverTree posted.database.blocks 1 2)) = true := by decide +kernel
  obtain ⟨posted,hposted,h⟩ := (Option.any_eq_true _ _).mp h
  obtain ⟨happlied,hne⟩ := of_decide_eq_true h
  refine ⟨nested,loaded,loaded,deleteOp 1 1,posted,nested_reachable,loaded_tree,
    loaded_tree,rfl,hposted,happlied,?_⟩
  intro hagree
  exact hne (congrFun hagree.2 2)

end BlockDocs.ReplicaTree
