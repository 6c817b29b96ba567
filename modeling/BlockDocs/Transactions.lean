import BlockDocs.GuardedRun
import BlockDocs.PostOperations
import BlockDocs.Statements
import BlockDocs.WriteChain

/-!
# Interleaved transactions at READ COMMITTED

A statement sees the committed rows with the own writes laid over them. A row
that a transaction has locked or written belongs to it until it ends, and a
statement that needs the row of another transaction has to wait: its step is
refused. The waits of the unique indexes and of the foreign keys are not
spelled out; what they bring about is that a transaction never sees rows that
break a constraint and never commits such rows.
-/

set_option autoImplicit false

namespace BlockDocs.Transactions
open BlockDocs.Wire BlockDocs.DocBlocks BlockDocs.ApplyOps BlockDocs.PostOperations
open BlockDocs.Statements BlockDocs.WriteChain BlockDocs.GuardedRun

abbrev SessionId := ℕ

structure Finished where
  docId : DocId
  userId : UserId
  op : BlockOperation
  outcome : OpOutcome
  writes : List (Write BlockRow)

structure Running where
  docId : DocId
  userId : UserId
  op : BlockOperation
  script : Script
  writes : List (Write BlockRow)

/-- `lost` says that the row for which the next statement may be waiting has
been deleted by a transaction that committed. -/
structure Session where
  running : Option Running
  finished : List Finished
  failed : Bool
  lost : Bool

def Session.idle : Session := ⟨none,[],false,false⟩

def Session.writes (sn : Session) : List (Write BlockRow) :=
  sn.finished.flatMap Finished.writes ++ (sn.running.map Running.writes).getD []

def Session.resume (sn : Session) (r : Running) (ws : List (Write BlockRow)) (next : Script) :
    Session where
  running := some { r with script := next, writes := r.writes++ws }
  finished := sn.finished
  failed := sn.failed
  lost := false

def Session.finish (sn : Session) (r : Running) (outcome : OpOutcome) (failed : Bool) :
    Session where
  running := none
  finished := sn.finished++[⟨r.docId,r.userId,r.op,outcome,r.writes⟩]
  failed := failed
  lost := false

structure World where
  db : Database
  sessions : SessionId → Session
  rowLocks : Uuid → Option SessionId
  keyLocks : ℕ → Option SessionId
  history : List Finished

def World.start (db : Database) : World :=
  ⟨db,fun _ => Session.idle,fun _ => none,fun _ => none,[]⟩

def World.row (w : World) (b : Uuid) : Option BlockRow :=
  lookup BlockRow.blockId b w.db.blocks.rows

def World.writes (w : World) : List (Write BlockRow) := w.history.flatMap Finished.writes

def World.view (w : World) (s : SessionId) : Except SqlError Table :=
  write (applyAll BlockRow.blockId w.db.blocks.rows (w.sessions s).writes)

def Free (locks : ℕ → Option SessionId) (s : SessionId) (key : ℕ) : Prop :=
  locks key = none ∨ locks key = some s

instance (locks : ℕ → Option SessionId) (s : SessionId) (key : ℕ) : Decidable (Free locks s key) :=
  inferInstanceAs (Decidable (_ ∨ _))

def World.set (w : World) (s : SessionId) (sn : Session) : World :=
  { w with sessions := fun u => if u = s then sn else w.sessions u }

def World.lock (w : World) (s : SessionId) (ids : List Uuid) : World :=
  { w with rowLocks := fun b => if b ∈ ids then some s else w.rowLocks b }

def World.lockKey (w : World) (s : SessionId) (key : ℕ) : World :=
  { w with keyLocks := fun k => if k = key then some s else w.keyLocks k }

def World.resume (w : World) (s : SessionId) (r : Running) (ws : List (Write BlockRow))
    (next : Script) : World := w.set s ((w.sessions s).resume r ws next)

def World.finish (w : World) (s : SessionId) (r : Running) (outcome : OpOutcome)
    (failed : Bool) : World := w.set s ((w.sessions s).finish r outcome failed)

def unlocked (locks : ℕ → Option SessionId) (s : SessionId) (key : ℕ) : Option SessionId :=
  if locks key = some s then none else locks key

def World.release (w : World) (s : SessionId) : World :=
  { w.set s Session.idle with
    rowLocks := unlocked w.rowLocks s, keyLocks := unlocked w.keyLocks s }

/-- The rows that go when one is deleted, those below it included. -/
def removed (t : Table) (row : BlockRow) (hrow : row ∈ t.rows) : List BlockRow :=
  t.rows.filter (fun r => r.blockId ∉ (t.delete row hrow).rows.map BlockRow.blockId)

def World.statement (w : World) (s : SessionId) (r : Running) (t : Table) :
    Script → Option World
  | .applied a => some (w.finish s r (.applied a) false)
  | .stopped (.conflict c) => some (w.finish s r (.conflict c) false)
  | .stopped (.collision c) => some (w.finish s r (.conflict c) true)
  | .stopped .raised => some (w.release s)
  | .select next => some (w.resume s r [] (next t))
  | .selectForUpdate docId blockId next =>
    match t.find docId blockId with
    | none => some (w.resume s r [] (next none))
    | some row =>
      if Free w.rowLocks s row.blockId then
        some ((w.lock s [row.blockId]).resume s r [] (next (some row)))
      else none
  | .advisoryXactLock key next =>
    if Free w.keyLocks s key then some ((w.lockKey s key).resume s r [] next) else none
  | .insertInto row userId next =>
    match inserted { w.db with blocks := t } row userId with
    | .error e => some (w.resume s r [] (next (.error e)))
    | .ok _ =>
      if Free w.rowLocks s row.blockId then
        some ((w.lock s [row.blockId]).resume s r [.insert row] (next (.ok row)))
      else none
  | .update docId blockId change userId next =>
    match t.find docId blockId with
    | none => some (w.resume s r [] (next (.ok none)))
    | some row =>
      if Free w.rowLocks s row.blockId then
        match updated { w.db with blocks := t } row change userId with
        | .error e => some ((w.lock s [row.blockId]).resume s r [] (next (.error e)))
        | .ok _ => some ((w.lock s [row.blockId]).resume s r [.update row (change row)]
            (next (.ok (some (change row)))))
      else none
  | .deleteFrom docId blockId next =>
    match h : t.find docId blockId with
    | none => some (w.resume s r [] next)
    | some row =>
      let gone := removed t row ((find_some_iff _ _ _ _).mp h).1
      if ∀ q ∈ gone, Free w.rowLocks s q.blockId then
        some ((w.lock s (gone.map BlockRow.blockId)).resume s r (gone.map Write.delete) next)
      else none

inductive Executes (w : World) (s : SessionId) (r : Running) (t : Table) :
    Script → World → Prop where
  | applied (a : AppliedOp) : Executes w s r t (.applied a) (w.finish s r (.applied a) false)
  | conflict (c : OpConflict) :
      Executes w s r t (.stopped (.conflict c)) (w.finish s r (.conflict c) false)
  | collision (c : OpConflict) :
      Executes w s r t (.stopped (.collision c)) (w.finish s r (.conflict c) true)
  | raised : Executes w s r t (.stopped .raised) (w.release s)
  | select (k : Table → Script) : Executes w s r t (.select k) (w.resume s r [] (k t))
  | notLocked {docId : DocId} {blockId : Uuid} (k : Option BlockRow → Script) :
      Executes w s r t (.selectForUpdate docId blockId k) (w.resume s r [] (k none))
  | locked {docId : DocId} {blockId : Uuid} {row : BlockRow} (k : Option BlockRow → Script)
      (hfind : t.find docId blockId = some row) (hfree : Free w.rowLocks s row.blockId) :
      Executes w s r t (.selectForUpdate docId blockId k)
        ((w.lock s [row.blockId]).resume s r [] (k (some row)))
  | keyLocked {key : ℕ} (k : Script) (hfree : Free w.keyLocks s key) :
      Executes w s r t (.advisoryXactLock key k) ((w.lockKey s key).resume s r [] k)
  | notInserted {row : BlockRow} {userId : UserId} (k : Except SqlError BlockRow → Script)
      (e : SqlError) : Executes w s r t (.insertInto row userId k) (w.resume s r [] (k (.error e)))
  | inserted {row : BlockRow} {userId : UserId} {t' : Table}
      (k : Except SqlError BlockRow → Script)
      (hwrite : inserted { w.db with blocks := t } row userId = .ok t')
      (hfree : Free w.rowLocks s row.blockId) : Executes w s r t (.insertInto row userId k)
        ((w.lock s [row.blockId]).resume s r [.insert row] (k (.ok row)))
  | notFound {docId : DocId} {blockId : Uuid} {change : BlockRow → BlockRow} {userId : UserId}
      (k : Except SqlError (Option BlockRow) → Script) :
      Executes w s r t (.update docId blockId change userId k) (w.resume s r [] (k (.ok none)))
  | notUpdated {docId : DocId} {blockId : Uuid} {change : BlockRow → BlockRow} {userId : UserId}
      {row : BlockRow} (k : Except SqlError (Option BlockRow) → Script) (e : SqlError)
      (hfind : t.find docId blockId = some row) (hfree : Free w.rowLocks s row.blockId) :
      Executes w s r t (.update docId blockId change userId k)
        ((w.lock s [row.blockId]).resume s r [] (k (.error e)))
  | updated {docId : DocId} {blockId : Uuid} {change : BlockRow → BlockRow} {userId : UserId}
      {row : BlockRow} (k : Except SqlError (Option BlockRow) → Script)
      (hfind : t.find docId blockId = some row) (hfree : Free w.rowLocks s row.blockId) :
      Executes w s r t (.update docId blockId change userId k)
        ((w.lock s [row.blockId]).resume s r [.update row (change row)]
          (k (.ok (some (change row)))))
  | notDeleted {docId : DocId} {blockId : Uuid} (k : Script)
      (hfind : t.find docId blockId = none) :
      Executes w s r t (.deleteFrom docId blockId k) (w.resume s r [] k)
  | deleted {docId : DocId} {blockId : Uuid} {row : BlockRow} (k : Script) (hrow : row ∈ t.rows)
      (hdoc : row.docId = docId) (hid : row.blockId = blockId)
      (hfree : ∀ q ∈ removed t row hrow, Free w.rowLocks s q.blockId) :
      Executes w s r t (.deleteFrom docId blockId k)
        ((w.lock s ((removed t row hrow).map BlockRow.blockId)).resume s r
          ((removed t row hrow).map Write.delete) k)

theorem statement_executes {w next : World} {s : SessionId} {r : Running} {t : Table}
    {sc : Script} (h : w.statement s r t sc = some next) : Executes w s r t sc next := by
  cases sc with
  | applied a => cases h; exact .applied a
  | stopped stop =>
    cases stop with
    | conflict c => cases h; exact .conflict c
    | collision c => cases h; exact .collision c
    | raised => cases h; exact .raised
  | select k => cases h; exact .select k
  | selectForUpdate docId blockId k =>
    simp only [World.statement] at h
    split at h
    · cases h; exact .notLocked k
    · next row hfind =>
      obtain ⟨hfree,hnext⟩ := Option.ite_none_right_eq_some.mp h
      cases hnext
      exact .locked k hfind hfree
  | advisoryXactLock key k =>
    obtain ⟨hfree,hnext⟩ := Option.ite_none_right_eq_some.mp h
    cases hnext
    exact .keyLocked k hfree
  | insertInto row userId k =>
    simp only [World.statement] at h
    split at h
    · cases h; exact .notInserted k _
    · next hwrite =>
      obtain ⟨hfree,hnext⟩ := Option.ite_none_right_eq_some.mp h
      cases hnext
      exact .inserted k hwrite hfree
  | update docId blockId change userId k =>
    simp only [World.statement] at h
    split at h
    · cases h; exact .notFound k
    · next row hfind =>
      obtain ⟨hfree,h⟩ := Option.ite_none_right_eq_some.mp h
      split at h
      · cases h; exact .notUpdated k _ hfind hfree
      · cases h; exact .updated k hfind hfree
  | deleteFrom docId blockId k =>
    simp only [World.statement] at h
    split at h
    · next hfind => cases h; exact .notDeleted k hfind
    · next row hfind =>
      obtain ⟨hrow,hdoc,hid⟩ := (find_some_iff _ _ _ _).mp hfind
      obtain ⟨hfree,hnext⟩ := Option.ite_none_right_eq_some.mp h
      cases hnext
      exact .deleted k hrow hdoc hid hfree

def Script.target : Script → Option Uuid
  | .selectForUpdate _ blockId _ => some blockId
  | .update _ blockId _ _ _ => some blockId
  | _ => none

/-- The statement had found a row and waited for it, and the row is gone. A
newer row of the same id is not the one it looks for. -/
def World.missed (w : World) (s : SessionId) (r : Running) : Script → Option World
  | .selectForUpdate _ _ next => some (w.resume s r [] (next none))
  | .update _ _ _ _ next => some (w.resume s r [] (next (.ok none)))
  | _ => none

def Deletes (ws : List (Write BlockRow)) (b : Uuid) : Prop :=
  ∃ x ∈ ws, x.row.blockId = b ∧ x.after.isNone

instance (ws : List (Write BlockRow)) (b : Uuid) : Decidable (Deletes ws b) :=
  inferInstanceAs (Decidable (∃ x ∈ ws, _))

def Session.noticed (ws : List (Write BlockRow)) (sn : Session) : Session :=
  { sn with lost := sn.lost ||
      decide (∃ r ∈ sn.running, ∃ b ∈ Script.target r.script, Deletes ws b) }

def World.committed (w : World) (s : SessionId) : Option World :=
  match w.view s with
  | .error _ => none
  | .ok t => some
    { db := { w.db with blocks := t }
      sessions := fun u => if u = s then Session.idle
        else (w.sessions u).noticed (w.sessions s).writes
      rowLocks := unlocked w.rowLocks s
      keyLocks := unlocked w.keyLocks s
      history := w.history++(w.sessions s).finished }

/-- COMMIT of a failed transaction rolls back. -/
def World.commit (w : World) (s : SessionId) : Option World :=
  if (w.sessions s).failed then some (w.release s) else w.committed s

inductive Action where
  | call (s : SessionId) (docId : DocId) (userId : UserId) (op : BlockOperation)
  | execute (s : SessionId)
  | miss (s : SessionId)
  | commit (s : SessionId)
  | rollback (s : SessionId)

def step (w : World) : Action → Option World
  | .call s docId userId op =>
    if (w.sessions s).running.isNone ∧ (w.sessions s).failed = false then
      some (w.set s { w.sessions s with
        running := some ⟨docId,userId,op,applyOpScript docId userId op,[]⟩ })
    else none
  | .execute s =>
    match (w.sessions s).running, w.view s with
    | some r, .ok t => w.statement s r t r.script
    | _, _ => none
  | .miss s =>
    match (w.sessions s).running with
    | some r => if (w.sessions s).lost then w.missed s r r.script else none
    | none => none
  | .commit s => if (w.sessions s).running.isNone then w.commit s else none
  | .rollback s => some (w.release s)

end BlockDocs.Transactions
