import BlockDocs.OptimisticLock

/-!
# Concurrent requests on one document

A request runs its operations in one transaction and commits. Only then, with
the row locks gone, it adds its entry to the stream, records the operations in
a second transaction and publishes them, each in an await of its own.
-/

set_option autoImplicit false

namespace BlockDocs.Requests
open BlockDocs.Wire BlockDocs.DocBlocks BlockDocs.ApplyOps BlockDocs.PostOperations
open BlockDocs.Statements BlockDocs.WriteChain BlockDocs.Transactions

/-- What a request sends on. Commits are numbered in their order; a COMMIT
that rolled back has no number. -/
structure Posting where
  batch : Option ℕ
  wireOps : List WireOp

inductive Request where
  | idle
  | applying (userId : UserId) (ops : List BlockOperation)
  | adding (p : Posting)
  | recording (p : Posting) (streamId : StreamId)
  | publishing (p : Posting) (streamId : Option StreamId)

structure Entry where
  id : StreamId
  posting : Posting

structure Publication where
  streamId : Option StreamId
  posting : Posting

structure World where
  tx : Transactions.World
  requests : SessionId → Request
  batches : List (List Finished)
  stream : List Entry
  bus : List Publication

def World.start (db : Database) : World := ⟨.start db,fun _ => .idle,[],[],[]⟩

def wireOps (batch : List Finished) : List WireOp := batch.filterMap (fun f => f.outcome.wire)

def World.posting (w : World) (s : SessionId) : Posting where
  batch := if (w.tx.sessions s).failed then none else some w.batches.length
  wireOps := wireOps (w.tx.sessions s).finished

def World.set (w : World) (s : SessionId) (r : Request) : World :=
  { w with requests := fun u => if u = s then r else w.requests u }

def World.committed (w : World) (s : SessionId) (tx : Transactions.World) : World :=
  { w.set s (if (w.posting s).wireOps.isEmpty then .idle else .adding (w.posting s)) with
    tx := tx
    batches := if (w.tx.sessions s).failed then w.batches
      else w.batches++[(w.tx.sessions s).finished] }

def Script.raises : Script → Bool
  | .stopped .raised => true
  | _ => false

def World.raises (w : World) (s : SessionId) : Bool :=
  (w.tx.sessions s).running.any (fun r => Script.raises r.script)

inductive Action where
  | post (s : SessionId) (userId : UserId) (ops : List BlockOperation)
  | call (s : SessionId)
  | execute (s : SessionId)
  | miss (s : SessionId)
  | abort (s : SessionId)
  | commit (s : SessionId)
  | add (s : SessionId) (id : StreamId)
  | addFails (s : SessionId)
  | record (s : SessionId) (recorded : Bool)
  | publish (s : SessionId)
  | publishFails (s : SessionId)

def Action.session : Action → SessionId
  | .post s _ _ => s
  | .call s => s
  | .execute s => s
  | .miss s => s
  | .abort s => s
  | .commit s => s
  | .add s _ => s
  | .addFails s => s
  | .record s _ => s
  | .publish s => s
  | .publishFails s => s

/-- `post_operations` on the document, one await at a time. -/
def step (docId : DocId) (w : World) : Action → Option World
  | .post s userId ops =>
    match w.requests s with
    | .idle => some (w.set s (.applying userId ops))
    | _ => none
  | .call s =>
    match w.requests s with
    | .applying userId (op::ops) =>
      (Transactions.step w.tx (.call s docId userId op)).map
        fun tx => { w.set s (.applying userId ops) with tx := tx }
    | _ => none
  | .execute s =>
    match w.requests s with
    | .applying userId ops =>
      (Transactions.step w.tx (.execute s)).map fun tx =>
        { w.set s (if w.raises s then .idle else .applying userId ops) with tx := tx }
    | _ => none
  | .miss s =>
    match w.requests s with
    | .applying _ _ => (Transactions.step w.tx (.miss s)).map fun tx => { w with tx := tx }
    | _ => none
  | .abort s =>
    match w.requests s with
    | .applying _ _ =>
      (Transactions.step w.tx (.rollback s)).map fun tx => { w.set s .idle with tx := tx }
    | _ => none
  | .commit s =>
    match w.requests s with
    | .applying _ [] => (Transactions.step w.tx (.commit s)).map (w.committed s)
    | _ => none
  | .add s id =>
    match w.requests s with
    | .adding p =>
      if ∀ e ∈ w.stream, e.id < id then
        some { w.set s (.recording p id) with stream := w.stream++[⟨id,p⟩] }
      else none
    | _ => none
  | .addFails s =>
    match w.requests s with
    | .adding p => some (w.set s (.publishing p none))
    | _ => none
  | .record s recorded =>
    match w.requests s with
    | .recording p id => some (w.set s (if recorded then .publishing p (some id) else .idle))
    | _ => none
  | .publish s =>
    match w.requests s with
    | .publishing p id => some { w.set s .idle with bus := w.bus++[⟨id,p⟩] }
    | _ => none
  | .publishFails s =>
    match w.requests s with
    | .publishing _ _ => some (w.set s .idle)
    | _ => none

/-! ## What a request still has to send -/

def Request.posting : Request → Option Posting
  | .adding p => some p
  | .recording p _ => some p
  | .publishing p _ => some p
  | _ => none

def Request.toAdd : Request → Option Posting
  | .adding p => some p
  | _ => none

def Posting.blocks (p : Posting) : List Uuid := p.wireOps.map WireOp.blockId

def Shares (p q : Posting) : Prop := ∃ b ∈ p.blocks, b ∈ q.blocks

def World.streamed (w : World) : List Posting := w.stream.map Entry.posting

def World.published (w : World) : List Posting := w.bus.map Publication.posting

theorem set_self (w : World) (s : SessionId) (r : Request) : (w.set s r).requests s = r :=
  if_pos rfl

theorem set_other (w : World) {s u : SessionId} (r : Request) (hu : u ≠ s) :
    (w.set s r).requests u = w.requests u := if_neg hu

end BlockDocs.Requests
