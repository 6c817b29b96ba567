import BlockDocs.ClientRun
import BlockDocs.Reachability

/-!
# Conflicts that arrive as acknowledgements

The api answers a conflict inside a 200 response, the WebSocket server relays
it as an `ack`, and the client writes the version it finds there, which is
zero. The block that the api sent along is not looked at.
-/

set_option autoImplicit false

namespace BlockDocs.ConflictReply
open BlockDocs.InsertionMap BlockDocs.Wire BlockDocs.DocBlocks BlockDocs.ApplyOps
open BlockDocs.PostOperations BlockDocs.Reachability BlockDocs.BlockStore BlockDocs.ClientRun

/-- The client's record of the block is the server's block, or both have none. -/
def RolledBack (s : Store) (db : Database) (docId : DocId) (blockId : Uuid) : Prop :=
  s.blocks.get blockId = (db.blocks.find docId blockId).map rowToBlock

theorem single_conflict {db : Database} {docId : DocId} {userId : UserId} {op : BlockOperation}
    {posted : Posted} {r : OpResult} (hpost : postOperations db docId userId [op] = some posted)
    (hr : r ∈ posted.results) (hconflict : r.status = .conflict) :
    posted.database = db ∧ posted.results = [r] ∧ r.newVersion = 0 := by
  obtain ⟨o,tx,hone,rfl⟩ := single_outcome hpost
  have hsame : r = opResult o := List.mem_singleton.mp hr
  subst hsame
  cases o with
  | applied a => cases hconflict
  | conflict c =>
    refine ⟨?_,rfl,rfl⟩
    simp only [applyIn,Bool.false_eq_true,if_false] at hone
    split at hone
    · cases hone
    · cases hone; rfl
    · cases hone; rfl
    · cases hone

theorem acknowledged_conflict (s : Store) (clientSeq : ℕ) {r : OpResult} (h : r.newVersion = 0) :
    (s.handleAck clientSeq [r]).blocks.get r.blockId =
      (s.blocks.get r.blockId).map (fun b => { b with version := 0 }) := by
  simp [Store.handleAck,acknowledge,h]

variable {documents : List DocId} {users : List UserId}

/-- A client that has the block keeps a record with version zero, which no
row has, and a client that has none gets none. -/
theorem rolled_back_iff_unknown {db : Database} (hdb : Reachable documents users db)
    (events : List ClientEvent) (msg : Pending) (hsent : msg ∈ (clientRun events).pendingOps)
    (later : List ClientEvent) (docId : DocId) (userId : UserId) {posted : Posted}
    (hpost : postOperations db docId userId msg.ops = some posted) {r : OpResult}
    (hr : r ∈ posted.results) (hconflict : r.status = .conflict) :
    RolledBack (receive (clientRun (events++later)) (handleOps msg (apiReply (some posted))))
        posted.database docId r.blockId ↔
      (clientRun (events++later)).blocks.get r.blockId = none ∧
        db.blocks.find docId r.blockId = none := by
  obtain ⟨op,hop⟩ := pending_single events hsent
  rw [hop] at hpost
  obtain ⟨hdatabase,hresults,hversion⟩ := single_conflict hpost hr hconflict
  rw [RolledBack,receive_posted,hresults,hdatabase,acknowledged_conflict _ _ hversion]
  cases hclient : (clientRun (events++later)).blocks.get r.blockId with
  | none => cases hserver : db.blocks.find docId r.blockId <;> simp
  | some b =>
    cases hserver : db.blocks.find docId r.blockId with
    | none => simp
    | some row =>
      have hpos := version_pos hdb ((find_some_iff _ _ _ _).mp hserver).1
      simp only [Option.map_some,Option.some.injEq,reduceCtorEq,false_and,iff_false]
      intro heq
      have hzero : row.version = 0 := (congrArg Block.version heq).symm
      omega

def inserted : Database := settle 1 1 (.initial [1] [1]) [insertUnder 1 none]

def overwrite : BlockOperation where
  op := .update_content
  blockId := .uuid 1

def overwritten : Database := settle 1 1 inserted [overwrite]

def staleEdit : List ClientEvent :=
  [.loadSnapshot 1 (inserted.blocks.rows.map rowToBlock) (toLex (1,0)),
    .updateAttrs 1 [("level",.num 2)]]

def staleFrame : Pending := ⟨1,[attrsOp 1 [("level",.num 2)] 1]⟩

theorem overwritten_reachable : Reachable [1] [1] overwritten :=
  settle_reachable (settle_reachable .initial 1 1 _) 1 1 _

theorem stale_frame_sent : staleFrame ∈ (clientRun staleEdit).pendingOps :=
  List.mem_singleton.mpr rfl

/-- The answer to the frame, and the versions of block 1 on both sides after it. -/
theorem stale_edit_answered :
    ∃ posted r, postOperations overwritten 1 1 staleFrame.ops = some posted ∧
      r ∈ posted.results ∧ r.status = .conflict ∧ r.blockId = 1 ∧
      ((receive (clientRun staleEdit) (handleOps staleFrame (apiReply (some posted)))).blocks.get
        1).map Block.version = some 0 ∧
      (posted.database.blocks.find 1 1).map BlockRow.version = some 2 := by
  have h : ((postOperations overwritten 1 1 staleFrame.ops).any (fun posted =>
      posted.results.any (fun r => r.status = .conflict ∧ r.blockId = 1 ∧
        ((receive (clientRun staleEdit) (handleOps staleFrame
          (apiReply (some posted)))).blocks.get 1).map Block.version = some 0 ∧
        (posted.database.blocks.find 1 1).map BlockRow.version = some 2))) = true := by
    decide +kernel
  obtain ⟨posted,hposted,h⟩ := (Option.any_eq_true _ _).mp h
  obtain ⟨r,hr,h⟩ := List.any_eq_true.mp h
  exact ⟨posted,r,hposted,hr,of_decide_eq_true h⟩

theorem rolled_back_iff_unknown_stale_edit :
    ∃ posted r, postOperations overwritten 1 1 staleFrame.ops = some posted ∧
      r ∈ posted.results ∧
      (RolledBack (receive (clientRun (staleEdit++[])) (handleOps staleFrame
          (apiReply (some posted)))) posted.database 1 r.blockId ↔
        (clientRun (staleEdit++[])).blocks.get r.blockId = none ∧
          overwritten.blocks.find 1 r.blockId = none) := by
  obtain ⟨posted,r,hposted,hr,hconflict,_⟩ := stale_edit_answered
  exact ⟨posted,r,hposted,hr,rolled_back_iff_unknown overwritten_reachable staleEdit staleFrame
    stale_frame_sent [] 1 1 hposted hr hconflict⟩

/-- The client ends with version 0 of a block that the server has at 2. -/
theorem stale_edit_not_rolled_back :
    ∃ db posted r, Reachable [1] [1] db ∧ staleFrame ∈ (clientRun staleEdit).pendingOps ∧
      postOperations db 1 1 staleFrame.ops = some posted ∧ r ∈ posted.results ∧
      r.status = .conflict ∧ ¬RolledBack (receive (clientRun staleEdit)
        (handleOps staleFrame (apiReply (some posted)))) posted.database 1 r.blockId := by
  obtain ⟨posted,r,hposted,hr,hconflict,hid,hclient,hserver⟩ := stale_edit_answered
  refine ⟨overwritten,posted,r,overwritten_reachable,stale_frame_sent,hposted,hr,hconflict,?_⟩
  intro hrolled
  rw [RolledBack,hid] at hrolled
  rw [hrolled,Option.map_map] at hclient
  have hzero : (posted.database.blocks.find 1 1).map BlockRow.version = some 0 := hclient
  rw [hserver] at hzero
  cases hzero

end BlockDocs.ConflictReply
