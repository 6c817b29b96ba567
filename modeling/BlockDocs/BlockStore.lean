import BlockDocs.ClientRank
import BlockDocs.Wire
import Mathlib.Data.List.Sort

/-!
# The block store of a client

Local actions change the map of blocks at once and enqueue one operation.
Frames of the server change the map again when they arrive.
-/

set_option autoImplicit false

namespace BlockDocs.BlockStore
open BlockDocs.InsertionMap BlockDocs.LexoRank BlockDocs.Wire

abbrev Blocks := OrderedMap Uuid Block

structure Pending where
  clientSeq : ℕ
  ops : List BlockOperation

structure Store where
  docId : Option DocId
  blocks : Blocks
  rootOrder : List Uuid
  childrenMap : OrderedMap Uuid (List Uuid)
  lastStreamId : Option StreamId
  pendingOps : List Pending
  clientSeqCounter : ℕ

def Store.initial : Store := ⟨none,.empty,[],.empty,none,[],1⟩

/-! ## Index and positions -/

def positionOf (blocks : Blocks) (id : Uuid) : Rank :=
  ((blocks.get id).map Block.position).getD []

def sortByPos (blocks : Blocks) (ids : List Uuid) : List Uuid :=
  ids.insertionSort (fun a b => positionOf blocks a ≤ positionOf blocks b)

def indexBlock (idx : List Uuid × OrderedMap Uuid (List Uuid)) (b : Block) :
    List Uuid × OrderedMap Uuid (List Uuid) :=
  match b.parentId with
  | none => (idx.1++[b.blockId],idx.2)
  | some p => (idx.1,idx.2.set p ((idx.2.get p).getD []++[b.blockId]))

def rebuildIndex (blocks : Blocks) : List Uuid × OrderedMap Uuid (List Uuid) :=
  let idx := blocks.values.foldl indexBlock ([],.empty)
  (sortByPos blocks idx.1,idx.2.mapValues (fun _ ids => sortByPos blocks ids))

def Store.reindexed (s : Store) (blocks : Blocks) : Store :=
  { s with
    blocks := blocks
    rootOrder := (rebuildIndex blocks).1
    childrenMap := (rebuildIndex blocks).2 }

@[simp] theorem reindexed_blocks (s : Store) (blocks : Blocks) :
    (s.reindexed blocks).blocks = blocks := rfl

def Store.allOrder (s : Store) : List Uuid := s.rootOrder++s.childrenMap.values.flatten

/-- An `afterId` that is no sibling appends. -/
def computePosition (blocks : Blocks) (order : List Uuid) (parentId afterId : Option Uuid) :
    Rank :=
  let siblings := (order.filterMap blocks.get).filter (fun b => b.parentId = parentId)
  match afterId with
  | none => ClientRank.midpoint none (siblings.head?.map Block.position)
  | some afterId =>
    match siblings.dropWhile (fun b => b.blockId ≠ afterId) with
    | [] => ClientRank.midpoint (siblings.getLast?.map Block.position) none
    | anchor::rest => ClientRank.midpoint (some anchor.position) (rest.head?.map Block.position)

def depthUnder (blocks : Blocks) : Option Uuid → ℕ
  | none => 0
  | some p => ((blocks.get p).map Block.depth).getD 0+1

/-! ## Actions -/

def Store.enqueueOps (s : Store) (ops : List BlockOperation) : Store :=
  { s with
    clientSeqCounter := s.clientSeqCounter+1
    pendingOps := s.pendingOps++[⟨s.clientSeqCounter,ops⟩] }

@[simp] theorem enqueueOps_blocks (s : Store) (ops : List BlockOperation) :
    (s.enqueueOps ops).blocks = s.blocks := rfl

@[simp] theorem enqueueOps_pendingOps (s : Store) (ops : List BlockOperation) :
    (s.enqueueOps ops).pendingOps = s.pendingOps++[⟨s.clientSeqCounter,ops⟩] := rfl

def Store.loadSnapshot (docId : DocId) (blocks : List Block) (lastStreamId : StreamId) : Store :=
  let map := blocks.foldl (fun m b => m.set b.blockId b) .empty
  { Store.initial.reindexed map with docId := some docId, lastStreamId := some lastStreamId }

def Store.resetDoc (s : Store) : Store := { Store.initial with docId := s.docId }

def newBlock (s : Store) (blockId : Uuid) (type : String) (parentId afterId : Option Uuid)
    (content : Option JsonObj) : Block where
  blockId := blockId
  parentId := parentId
  position := computePosition s.blocks s.allOrder parentId afterId
  depth := depthUnder s.blocks parentId
  type := type
  content := content.getD []
  version := 1

def insertOp (block : Block) (afterId : Option Uuid) : BlockOperation where
  op := .insert_block
  blockId := .uuid block.blockId
  payload := {
    type := some block.type
    parentId := .ofOption block.parentId
    afterId := .ofOption afterId
    content := some block.content
    position := some block.position }

def Store.insertBlock (s : Store) (blockId : Uuid) (type : String)
    (parentId afterId : Option Uuid) (content : Option JsonObj) : Store :=
  let block := newBlock s blockId type parentId afterId content
  (s.reindexed (s.blocks.set blockId block)).enqueueOps [insertOp block afterId]

def deleteOp (blockId : Uuid) (version : ℤ) : BlockOperation where
  op := .delete_block
  blockId := .uuid blockId
  version := some version

def promote (blockId : Uuid) (parentId : Option Uuid) (blocks : Blocks) : Blocks :=
  blocks.mapValues (fun _ b =>
    if b.parentId = some blockId then { b with parentId := parentId } else b)

def Store.deleteBlock (s : Store) (blockId : Uuid) : Store :=
  match s.blocks.get blockId with
  | none => s
  | some existing =>
    (s.reindexed (promote blockId existing.parentId (s.blocks.delete blockId))).enqueueOps
      [deleteOp blockId existing.version]

def movedBlock (s : Store) (existing : Block) (parentId afterId : Option Uuid) : Block :=
  { existing with
    parentId := parentId
    position := computePosition s.blocks s.allOrder parentId afterId
    depth := depthUnder s.blocks parentId }

def moveOp (blockId : Uuid) (moved : Block) (afterId : Option Uuid) : BlockOperation where
  op := .move_block
  blockId := .uuid blockId
  payload := {
    parentId := .ofOption moved.parentId
    afterId := .ofOption afterId
    position := some moved.position }
  version := some moved.version

def Store.moveBlock (s : Store) (blockId : Uuid) (parentId afterId : Option Uuid) : Store :=
  match s.blocks.get blockId with
  | none => s
  | some existing =>
    let moved := movedBlock s existing parentId afterId
    (s.reindexed (s.blocks.set blockId moved)).enqueueOps [moveOp blockId moved afterId]

/-- The code units of a text. The halves of a surrogate pair have no text of
their own here. -/
def codeUnits (s : String) : List Json :=
  s.toList.flatMap (fun c =>
    if c.toNat < 0x10000 then [.str (.singleton c)] else [.str "\uFFFD",.str "\uFFFD"])

def indexed (items : List Json) : JsonObj := items.mapIdx (fun i v => (toString i,v))

def ownEntries : Json → JsonObj
  | .obj fields => fields
  | .arr items => indexed items
  | .str s => indexed (codeUnits s)
  | _ => []

def attrsOf (content : JsonObj) : JsonObj := ownEntries ((lookup "attrs" content).getD .null)

/-- `{ ...content, attrs: { ...(content.attrs ?? {}), ...attrs } }`. -/
def spreadAttrs (content attrs : JsonObj) : JsonObj :=
  put "attrs" (.obj (putAll attrs (putAll (attrsOf content) []))) content

def attrsOp (blockId : Uuid) (attrs : JsonObj) (version : ℤ) : BlockOperation where
  op := .update_attrs
  blockId := .uuid blockId
  payload := { attrs := some attrs }
  version := some version

/-- The index is left as it is. -/
def Store.updateAttrs (s : Store) (blockId : Uuid) (attrs : JsonObj) : Store :=
  match s.blocks.get blockId with
  | none => s
  | some b =>
    let changed := { b with content := spreadAttrs b.content attrs }
    Store.enqueueOps { s with blocks := s.blocks.set blockId changed }
      [attrsOp blockId attrs b.version]

/-- Enqueues nothing. -/
def Store.updateContent (s : Store) (blockId : Uuid) (content : JsonObj) : Store :=
  match s.blocks.get blockId with
  | none => s
  | some b => { s with blocks := s.blocks.set blockId { b with content := content } }

/-! ## Frames -/

/-- A map update that skips a block the client does not have. -/
def adjust (blocks : Blocks) (blockId : Uuid) (f : Block → Block) : Blocks :=
  match blocks.get blockId with
  | none => blocks
  | some b => blocks.set blockId (f b)

@[simp] theorem get_adjust (blocks : Blocks) (blockId j : Uuid) (f : Block → Block) :
    (adjust blocks blockId f).get j =
      if j = blockId then (blocks.get blockId).map f else blocks.get j := by
  unfold adjust
  cases h : blocks.get blockId with
  | none =>
    by_cases hj : j = blockId
    · simp [hj,h]
    · simp [hj]
  | some b => simp

@[simp] theorem get_promote (blocks : Blocks) (blockId j : Uuid) (parentId : Option Uuid) :
    (promote blockId parentId blocks).get j = (blocks.get j).map (fun b =>
      if b.parentId = some blockId then { b with parentId := parentId } else b) :=
  OrderedMap.get_mapValues _ _ _

def applyRemoteOp (next : Blocks) (op : WireOp) : Blocks :=
  match op.payload with
  | .insert type parentId position _ content =>
    next.set op.blockId {
      blockId := op.blockId
      parentId := parentId
      position := position
      depth := depthUnder next parentId
      type := type
      content := content
      version := 1 }
  | .delete => promote op.blockId none (next.delete op.blockId)
  | .move parentId position _ =>
    adjust next op.blockId (fun b => { b with parentId := parentId, position := position })
  | .attrs patch =>
    adjust next op.blockId (fun b =>
      { b with content := spreadAttrs b.content patch, version := op.version+1 })
  | .content content =>
    adjust next op.blockId (fun b => { b with content := content, version := op.version+1 })

def Store.applyRemoteOps (s : Store) (ops : List WireOp) (streamId : Option StreamId) : Store :=
  { s.reindexed (ops.foldl applyRemoteOp s.blocks) with
    lastStreamId := streamId.or s.lastStreamId }

def acknowledge (next : Blocks) (r : OpResult) : Blocks :=
  adjust next r.blockId (fun b => { b with version := r.newVersion })

def Store.handleAck (s : Store) (clientSeq : ℕ) (results : List OpResult) : Store :=
  { s with
    pendingOps := s.pendingOps.filter (fun p => p.clientSeq ≠ clientSeq)
    blocks := results.foldl acknowledge s.blocks }

structure ConflictInfo where
  blockId : IdField
  reason : Option String
  current : Option Block := none

/-- A block id that is no id names no block of the map. -/
def reject (next : Blocks) (c : ConflictInfo) : Blocks :=
  match c.blockId with
  | .uuid blockId =>
    match c.current with
    | some current => next.set blockId current
    | none => next.delete blockId
  | _ => next

def Store.handleNack (s : Store) (clientSeq : ℕ) (conflicts : List ConflictInfo) : Store :=
  { s.reindexed (conflicts.foldl reject s.blocks) with
    pendingOps := s.pendingOps.filter (fun p => p.clientSeq ≠ clientSeq) }

end BlockDocs.BlockStore
