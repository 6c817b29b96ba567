import BlockDocs.PositionCollision

/-!
# One batch of operations

All operations of a request share one transaction. A unique violation is
caught as a conflict, but the statement has already aborted the transaction:
a later operation raises, and a commit at that point rolls everything back.
-/

set_option autoImplicit false

namespace BlockDocs.PostOperations
open BlockDocs.Wire BlockDocs.DocBlocks BlockDocs.ApplyOps BlockDocs.PositionCollision
open BlockDocs.BlockForest

inductive OpOutcome where
  | applied (a : AppliedOp)
  | conflict (c : OpConflict)

/-- An open transaction: what its statements see and whether one has failed. -/
structure Transaction where
  working : Database
  failed : Bool

/-- `apply_op` on the connection of the transaction, or nothing if it raises.
Every handler starts with a statement, which a failed transaction refuses. -/
def applyIn (docId : DocId) (userId : UserId) (tx : Transaction) (op : BlockOperation) :
    Option (OpOutcome × Transaction) :=
  if tx.failed then none
  else match applyOp tx.working docId userId op with
    | .ok (a,next) => some (.applied a,⟨next,false⟩)
    | .error (.conflict c) => some (.conflict c,tx)
    | .error (.collision c) => some (.conflict c,⟨tx.working,true⟩)
    | .error .raised => none

def applyAll (docId : DocId) (userId : UserId) :
    Transaction → List BlockOperation → Option (List OpOutcome × Transaction)
  | tx, [] => some ([],tx)
  | tx, op::ops => do
    let (outcome,tx') ← applyIn docId userId tx op
    let (outcomes,last) ← applyAll docId userId tx' ops
    return (outcome::outcomes,last)

/-- COMMIT of a failed transaction rolls back and reports no error. -/
def commit (db : Database) (tx : Transaction) : Database :=
  if tx.failed then db else tx.working

def opResult : OpOutcome → OpResult
  | .applied a => ⟨a.blockId,a.newVersion,.applied,none⟩
  | .conflict c => ⟨c.blockId,0,.conflict,c.currentBlock⟩

def wireOp (a : AppliedOp) : WireOp := ⟨a.opType,a.blockId,a.payload,a.newVersion,a.block⟩

def OpOutcome.wire : OpOutcome → Option WireOp
  | .applied a => some (wireOp a)
  | .conflict _ => none

structure Posted where
  database : Database
  results : List OpResult
  wireOps : List WireOp

def postOperations (db : Database) (docId : DocId) (userId : UserId)
    (ops : List BlockOperation) : Option Posted := do
  let (outcomes,tx) ← applyAll docId userId ⟨db,false⟩ ops
  return ⟨commit db tx,outcomes.map opResult,outcomes.filterMap OpOutcome.wire⟩

/-! ## Durability -/

def appliedOps (ops : List BlockOperation) (results : List OpResult) : List BlockOperation :=
  ((ops.zip results).filter (fun p => p.2.status = .applied)).map Prod.fst

def replay (docId : DocId) (userId : UserId) : Database → List BlockOperation → Option Database
  | db, [] => some db
  | db, op::ops =>
    match applyOp db docId userId op with
    | .ok (_,next) => replay docId userId next ops
    | .error _ => none

/-- The committed database is the one that the operations reported as applied
produce, in their order. -/
def Durable (db : Database) (docId : DocId) (userId : UserId) (ops : List BlockOperation)
    (posted : Posted) : Prop :=
  replay docId userId db (appliedOps ops posted.results) = some posted.database

/-- The database that operations leave behind one by one, conflicts skipped. -/
def settle (docId : DocId) (userId : UserId) : Database → List BlockOperation → Database
  | db, [] => db
  | db, op::ops =>
    match applyOp db docId userId op with
    | .ok (_,next) => settle docId userId next ops
    | .error _ => settle docId userId db ops

/-- The last operation runs into a unique violation after others have changed
the table. -/
def LostToCollision (db : Database) (docId : DocId) (userId : UserId)
    (ops : List BlockOperation) : Prop :=
  ∃ init last, ops = init++[last] ∧ Collides (settle docId userId db init) docId last ∧
    (settle docId userId db init).blocks.rows ≠ db.blocks.rows

theorem database_eq {db next : Database} (hd : next.documents = db.documents)
    (hu : next.users = db.users) (hr : next.blocks.rows = db.blocks.rows) : next = db := by
  obtain ⟨d,u,⟨r,_,_,_,_⟩⟩ := db
  obtain ⟨d',u',⟨r',_,_,_,_⟩⟩ := next
  cases hd
  cases hu
  cases hr
  rfl

theorem applied_frame {db next : Database} {docId : DocId} {userId : UserId}
    {op : BlockOperation} {a : AppliedOp} (h : Applied db docId userId op a next) :
    next.documents = db.documents ∧ next.users = db.users := by
  cases h <;> exact ⟨rfl,rfl⟩

theorem settle_frame (docId : DocId) (userId : UserId) (db : Database)
    (ops : List BlockOperation) : (settle docId userId db ops).documents = db.documents ∧
      (settle docId userId db ops).users = db.users := by
  induction ops generalizing db with
  | nil => exact ⟨rfl,rfl⟩
  | cons op ops ih =>
    unfold settle
    split
    · next a next hok =>
      have hframe := applied_frame (applyOp_applied hok)
      have hrest := ih next
      exact ⟨hrest.1.trans hframe.1,hrest.2.trans hframe.2⟩
    · exact ih db

inductive Ended (docId : DocId) (userId : UserId) (db : Database) :
    List BlockOperation → Transaction → Prop where
  | sound {ops : List BlockOperation} :
      (∀ init last, ops = init++[last] → ¬ Collides (settle docId userId db init) docId last) →
      Ended docId userId db ops ⟨settle docId userId db ops,false⟩
  | failed {init : List BlockOperation} {last : BlockOperation} :
      Collides (settle docId userId db init) docId last →
      Ended docId userId db (init++[last]) ⟨settle docId userId db init,true⟩

theorem ended_cons {docId : DocId} {userId : UserId} {db next : Database} {op : BlockOperation}
    {ops : List BlockOperation} {tx : Transaction}
    (hsettle : ∀ rest, settle docId userId db (op::rest) = settle docId userId next rest)
    (hfirst : ¬ Collides db docId op) (h : Ended docId userId next ops tx) :
    Ended docId userId db (op::ops) tx := by
  cases h with
  | sound hall =>
    rw [← hsettle]
    apply Ended.sound
    intro init last heq
    cases init with
    | nil =>
      obtain ⟨rfl,_⟩ := List.cons.inj heq
      exact hfirst
    | cons o init =>
      obtain ⟨rfl,hrest⟩ := List.cons.inj heq
      rw [hsettle]
      exact hall init last hrest
  | @failed init last hc =>
    rw [← hsettle] at hc ⊢
    have hfailed : Ended docId userId db ((op::init)++[last])
        ⟨settle docId userId db (op::init),true⟩ := .failed hc
    exact hfailed

theorem applyAll_cons {docId : DocId} {userId : UserId} {tx last : Transaction}
    {op : BlockOperation} {ops : List BlockOperation} {outcomes : List OpOutcome}
    (h : applyAll docId userId tx (op::ops) = some (outcomes,last)) :
    ∃ o next rest, applyIn docId userId tx op = some (o,next) ∧
      applyAll docId userId next ops = some (rest,last) ∧ outcomes = o::rest := by
  obtain ⟨⟨o,next⟩,hone,h⟩ := Option.bind_eq_some_iff.mp h
  obtain ⟨⟨rest,final⟩,hrest,heq⟩ := Option.bind_eq_some_iff.mp h
  cases heq
  exact ⟨o,next,rest,hone,hrest,rfl⟩

theorem single_outcome {db : Database} {docId : DocId} {userId : UserId} {op : BlockOperation}
    {posted : Posted} (h : postOperations db docId userId [op] = some posted) :
    ∃ o tx, applyIn docId userId ⟨db,false⟩ op = some (o,tx) ∧
      posted = ⟨commit db tx,[opResult o],[o].filterMap OpOutcome.wire⟩ := by
  obtain ⟨⟨outcomes,tx⟩,hall,heq⟩ := Option.bind_eq_some_iff.mp h
  obtain ⟨o,next,rest,hone,hrest,rfl⟩ := applyAll_cons hall
  cases hrest
  exact ⟨o,tx,hone,(Option.some.inj heq).symm⟩

theorem applyAll_failed {docId : DocId} {userId : UserId} {db : Database}
    {ops : List BlockOperation} {outcomes : List OpOutcome} {tx : Transaction}
    (h : applyAll docId userId ⟨db,true⟩ ops = some (outcomes,tx)) :
    ops = [] ∧ outcomes = [] ∧ tx = ⟨db,true⟩ := by
  cases ops with
  | nil =>
    cases h
    exact ⟨rfl,rfl,rfl⟩
  | cons op ops =>
    obtain ⟨o,next,rest,hone,_⟩ := applyAll_cons h
    simp [applyIn] at hone

theorem applyAll_ended {docId : DocId} {userId : UserId} {db : Database}
    {ops : List BlockOperation} {outcomes : List OpOutcome} {tx : Transaction}
    (h : applyAll docId userId ⟨db,false⟩ ops = some (outcomes,tx)) :
    Ended docId userId db ops tx ∧
      replay docId userId db (appliedOps ops (outcomes.map opResult)) = some tx.working := by
  induction ops generalizing db outcomes with
  | nil =>
    cases h
    exact ⟨.sound (fun init last heq => by simp at heq),rfl⟩
  | cons op ops ih =>
    obtain ⟨o,mid,rest,hone,hrest,rfl⟩ := applyAll_cons h
    have hcollided : Collided (applyOp db docId userId op) ↔ Collides db docId op := collided_iff
    cases hop : applyOp db docId userId op with
    | ok r =>
      obtain ⟨a,next⟩ := r
      simp only [applyIn,hop,Bool.false_eq_true,if_false] at hone
      cases hone
      obtain ⟨hended,hreplay⟩ := ih hrest
      refine ⟨ended_cons (fun rest => by simp only [settle,hop]) ?_ hended,?_⟩
      · rw [← hcollided,hop]
        exact collided_ok _
      · simpa [appliedOps,opResult,replay,hop] using hreplay
    | error e =>
      cases e with
      | conflict c =>
        simp only [applyIn,hop,Bool.false_eq_true,if_false] at hone
        cases hone
        obtain ⟨hended,hreplay⟩ := ih hrest
        refine ⟨ended_cons (fun rest => by simp only [settle,hop]) ?_ hended,?_⟩
        · rw [← hcollided,hop]
          simp [Collided]
        · simpa [appliedOps,opResult] using hreplay
      | collision c =>
        simp only [applyIn,hop,Bool.false_eq_true,if_false] at hone
        cases hone
        obtain ⟨rfl,rfl,rfl⟩ := applyAll_failed hrest
        have hfailed : Ended docId userId db ([]++[op]) ⟨db,true⟩ :=
          .failed (hcollided.mp ⟨c,hop⟩)
        exact ⟨hfailed,rfl⟩
      | raised => simp [applyIn,hop] at hone

/-- What the statements of a batch did is what is committed, unless the last of
them failed after others changed the table. -/
theorem commit_kept_iff {db : Database} {docId : DocId} {userId : UserId}
    {ops : List BlockOperation} {tx : Transaction} (h : Ended docId userId db ops tx) :
    tx.working = commit db tx ↔ ¬ LostToCollision db docId userId ops := by
  cases h with
  | sound hnone =>
    simp only [commit,Bool.false_eq_true,if_false,true_iff]
    rintro ⟨init,last,heq,hc,_⟩
    exact hnone init last heq hc
  | @failed init last hc =>
    simp only [commit,if_true]
    constructor
    · rintro hkept ⟨init',last',heq,_,hne⟩
      obtain ⟨rfl,_⟩ := List.append_inj' heq rfl
      exact hne (by rw [hkept])
    · intro hlost
      have hrows : (settle docId userId db init).blocks.rows = db.blocks.rows := by
        by_contra hne
        exact hlost ⟨init,last,rfl,hc,hne⟩
      have hframe := settle_frame docId userId db init
      exact database_eq hframe.1 hframe.2 hrows

theorem durable_iff_commit {db : Database} {docId : DocId} {userId : UserId}
    {ops : List BlockOperation} {posted : Posted}
    (h : postOperations db docId userId ops = some posted) :
    ∃ tx, Ended docId userId db ops tx ∧ posted.database = commit db tx ∧
      (Durable db docId userId ops posted ↔ tx.working = commit db tx) := by
  obtain ⟨⟨outcomes,tx⟩,hall,heq⟩ := Option.bind_eq_some_iff.mp h
  cases heq
  obtain ⟨hended,hreplay⟩ := applyAll_ended hall
  refine ⟨tx,hended,rfl,?_⟩
  unfold Durable
  rw [hreplay,Option.some.injEq]

/-- What an accepted batch reports as applied is committed, unless its last
operation runs into a unique violation after others changed the table. -/
theorem durable_iff_kept {db : Database} {docId : DocId} {userId : UserId}
    {ops : List BlockOperation} {posted : Posted}
    (h : postOperations db docId userId ops = some posted) :
    Durable db docId userId ops posted ↔ ¬ LostToCollision db docId userId ops := by
  obtain ⟨tx,hended,_,hdurable⟩ := durable_iff_commit h
  rw [hdurable,commit_kept_iff hended]

def mixed : List BlockOperation :=
  [{ moveUnder 1 none with version := some 9 },insertUnder 2 (some 1),insertUnder 3 (some 1)]

theorem durable_iff_kept_mixed :
    ∃ first posted, postOperations (.initial [1] [1]) 1 1 [insertUnder 1 none] = some first ∧
      postOperations first.database 1 1 mixed = some posted ∧
      posted.results.map (fun r => (r.blockId,r.status)) =
        [(1,.conflict),(2,.applied),(3,.applied)] ∧
      (Durable first.database 1 1 mixed posted ↔ ¬ LostToCollision first.database 1 1 mixed) :=
  ⟨_,_,rfl,rfl,by decide,durable_iff_kept rfl⟩

def headInserts : List BlockOperation :=
  insertUnder 1 none::(List.range 7).map (fun i => insertUnder (i+2) (some 1))

/-- Block 20 is reported as applied and is not in the committed table. -/
theorem applied_insert_lost :
    ∃ first second, postOperations (.initial [1] [1]) 1 1 headInserts = some first ∧
      postOperations first.database 1 1 [insertUnder 20 none,insertUnder 9 (some 1)] =
        some second ∧
      second.results.map (fun r => (r.blockId,r.status)) = [(20,.applied),(9,.conflict)] ∧
      (∀ r ∈ second.database.blocks.rows, r.blockId ≠ 20) ∧
      ¬ Durable first.database 1 1 [insertUnder 20 none,insertUnder 9 (some 1)] second := by
  have h : ((postOperations (.initial [1] [1]) 1 1 headInserts).any (fun first =>
      (postOperations first.database 1 1 [insertUnder 20 none,insertUnder 9 (some 1)]).any
        (fun second =>
          second.results.map (fun r => (r.blockId,r.status)) = [(20,.applied),(9,.conflict)] ∧
            (∀ r ∈ second.database.blocks.rows, r.blockId ≠ 20) ∧
            (replay 1 1 first.database (appliedOps
              [insertUnder 20 none,insertUnder 9 (some 1)] second.results)).any
                (fun db => ∃ r ∈ db.blocks.rows, r.blockId = 20)))) = true := by decide +kernel
  obtain ⟨first,hfirst,h⟩ := (Option.any_eq_true _ _).mp h
  obtain ⟨second,hsecond,h⟩ := (Option.any_eq_true _ _).mp h
  obtain ⟨hresults,habsent,hpresent⟩ := of_decide_eq_true h
  refine ⟨first,second,hfirst,hsecond,hresults,habsent,fun hdurable => ?_⟩
  unfold Durable at hdurable
  rw [hdurable] at hpresent
  obtain ⟨r,hr,hid⟩ := of_decide_eq_true hpresent
  exact habsent r hr hid

end BlockDocs.PostOperations
