import BlockDocs.ClientRun
import BlockDocs.GuardedRun

/-!
# A request that fails

`post_operations` has effects at three awaits: the commit of its transaction, the
XADD and the commit of the log rows. An exception of the XADD or of the PUBLISH
is caught. One between the two, when the operations are already in the table and
in the stream, ends the request with an error status. So does the current block
of a conflict that cannot be put into the answer, behind the first commit.
-/

set_option autoImplicit false

namespace BlockDocs.FailedRequests
open BlockDocs.InsertionMap BlockDocs.Wire BlockDocs.ApplyOps BlockDocs.PostOperations
open BlockDocs.BlockStore BlockDocs.ClientRun BlockDocs.GuardedRun

/-! ## Requests as the schemas admit them -/

def odd : Json → Bool
  | .obj _ => false
  | v => truthy v

abbrev OddJson := { v : Json // odd v = true }

/-- `content` is the one of the payload if that is odd. -/
structure RawOp where
  op : BlockOperation
  content : Option OddJson

/-- The contents of blocks that are no objects. They hide those in the rows. -/
abbrev Shadow := Uuid → Option OddJson

structure Request where
  docId : DocId
  userId : UserId
  clientSeq : ℕ
  ops : List RawOp

def Request.msg (rq : Request) : Pending := ⟨rq.clientSeq,rq.ops.map RawOp.op⟩

def dictContent (hidden : OddJson) : Except Stop JsonObj :=
  match hidden.1 with
  | .arr items => (dictOf [] items).map stored
  | _ => .error .raised

def updateHidden (db : Database) (docId : DocId) (userId : UserId) (blockId : Uuid)
    (payload : Payload) (expectedVersion : Option ℤ) (hidden : OddJson) :
    Except Stop (AppliedOp × Database) := do
  let patch := payload.attrs.getD []
  let row ← fetchRow db.blocks docId blockId
  checkVersion row expectedVersion
  let existing ← dictContent hidden
  let content ← mergeAttrs existing patch
  references (userId ∈ db.users)
  return (updateOutcome .update_attrs (.attrs patch) (contentRow content (row.version+1) row),
    db.rewrite docId blockId content (row.version+1))

def handle (db : Database) (shadow : Shadow) (docId : DocId) (userId : UserId)
    (op : BlockOperation) : Except Stop (AppliedOp × Database) :=
  match op.op, op.blockId with
  | .update_attrs, .uuid b =>
    match shadow b with
    | some hidden => updateHidden db docId userId b op.payload op.version hidden
    | none => applyOp db docId userId op
  | _, _ => applyOp db docId userId op

def Shadow.after (shadow : Shadow) (r : RawOp) (a : AppliedOp) : Shadow :=
  match r.op.op with
  | .insert_block => Function.update shadow a.blockId r.content
  | .update_content => Function.update shadow a.blockId r.content
  | .update_attrs => Function.update shadow a.blockId none
  | _ => shadow

/-- `hidden` is the content of the block that comes with it, if that is no object. -/
structure Outcome where
  result : OpOutcome
  hidden : Option OddJson

structure Open where
  tx : Transaction
  shadow : Shadow

def refused (t : Open) (c : OpConflict) : Outcome :=
  ⟨.conflict c,c.currentBlock.bind (fun b => t.shadow b.blockId)⟩

/-- `apply_op` in the open transaction, or nothing if it raises. -/
def applyRaw (docId : DocId) (userId : UserId) (t : Open) (r : RawOp) : Option (Outcome × Open) :=
  if t.tx.failed then none
  else match handle t.tx.working t.shadow docId userId r.op with
    | .ok (a,next) => some (⟨.applied a,t.shadow.after r a a.blockId⟩,
        ⟨⟨next,false⟩,t.shadow.after r a⟩)
    | .error (.conflict c) => some (refused t c,t)
    | .error (.collision c) => some (refused t c,⟨⟨t.tx.working,true⟩,t.shadow⟩)
    | .error .raised => none

/-! ## The answer -/

section Answer

-- It marks the characters that stand for one half of a surrogate pair. JSON can
-- spell them, and UTF-8 has no code for them.
variable (half : Char → Bool)

def encodable (s : String) : Bool := s.toList.all (fun c => !half c)

mutual

def encodes : Json → Bool
  | .str s => encodable half s
  | .arr items => encodesItems items
  | .obj fields => encodesFields fields
  | _ => true

def encodesItems : List Json → Bool
  | [] => true
  | v::items => encodes v && encodesItems items

def encodesFields : List (String × Json) → Bool
  | [] => true
  | (k,v)::fields => encodable half k && encodes v && encodesFields fields

end

def Outcome.buildable (o : Outcome) : Bool :=
  match o.result with
  | .conflict ⟨_,some current,_⟩ =>
    o.hidden.isNone && current.content.all (fun e => encodable half e.1)
  | _ => true

def Outcome.sendable (o : Outcome) : Bool :=
  match o.result with
  | .conflict ⟨_,some current,_⟩ => encodesFields half current.content
  | _ => true

end Answer

/-! ## One await at a time -/

structure LoggedOp where
  docId : DocId
  blockId : Uuid
  opType : OpType
  payload : AppliedPayload
  hidden : Option OddJson
  userId : UserId
  clientSeq : ℕ
  streamId : StreamId

structure Entry where
  id : StreamId
  ops : List (WireOp × Option OddJson)
  userId : UserId

inductive Phase where
  | opening
  | applying (t : Open) (outcomes : List Outcome) (rest : List RawOp)
  | adding (outcomes : List Outcome)
  | reopening (outcomes : List Outcome) (streamId : StreamId)
  | recording (outcomes : List Outcome) (streamId : StreamId) (working : List LoggedOp)
    (rest : List (AppliedOp × Option OddJson))
  | publishing (outcomes : List Outcome)
  | ended (reply : ApiReply)

structure World where
  db : Database
  shadow : Shadow
  log : List LoggedOp
  stream : List Entry
  phase : Phase

def World.start (db : Database) (shadow : Shadow) (log : List LoggedOp) (stream : List Entry) :
    World :=
  ⟨db,shadow,log,stream,.opening⟩

/-- How an await ends. `done` says that what was asked for has been done although
the caller gets an exception, as when the connection breaks before the answer. -/
inductive Await where
  | returns
  | raises (done : Bool)
  deriving DecidableEq

def Outcome.applied? (o : Outcome) : Option (AppliedOp × Option OddJson) :=
  match o.result with
  | .applied a => some (a,o.hidden)
  | .conflict _ => none

def appliedOf (outcomes : List Outcome) : List (AppliedOp × Option OddJson) :=
  outcomes.filterMap Outcome.applied?

/-- `client_seq` is a BIGINT, and the row refers to its document and its user. -/
def Recordable (db : Database) (rq : Request) : Prop :=
  rq.docId ∈ db.documents ∧ rq.userId ∈ db.users ∧ rq.clientSeq < 2^63

instance (db : Database) (rq : Request) : Decidable (Recordable db rq) :=
  inferInstanceAs (Decidable (_ ∧ _ ∧ _))

def recordOperation (db : Database) (rq : Request) (streamId : StreamId) (log : List LoggedOp)
    (a : AppliedOp × Option OddJson) : Option (List LoggedOp) :=
  if Recordable db rq then some (log++[{
    docId := rq.docId
    blockId := a.1.blockId
    opType := a.1.opType
    payload := a.1.payload
    hidden := a.2
    userId := rq.userId
    clientSeq := rq.clientSeq
    streamId := streamId }])
  else none

def failed : Phase := .ended (.response 500 none)

def Phase.isFailed : Phase → Bool
  | .ended (.response status none) => status = 500
  | _ => false

def answered (outcomes : List Outcome) : Phase :=
  .ended (.response 200 (some { results := some (outcomes.map (fun o => opResult o.result)) }))

def answer (half : Char → Bool) (outcomes : List Outcome) : Phase :=
  if outcomes.all (Outcome.sendable half) then answered outcomes else failed

def World.goto (w : World) (phase : Phase) : World := { w with phase := phase }

def World.commit (w : World) (t : Open) : World :=
  { w with
    db := PostOperations.commit w.db t.tx
    shadow := if t.tx.failed then w.shadow else t.shadow }

def World.added (w : World) (rq : Request) (id : StreamId) (outcomes : List Outcome) : World :=
  { w with stream := w.stream++
      [⟨id,(appliedOf outcomes).map (fun a => (wireOp a.1,a.2)),rq.userId⟩] }

/-- Behind the first COMMIT the results are built, without an await. -/
def built (half : Char → Bool) (outcomes : List Outcome) : Phase :=
  if outcomes.all (Outcome.buildable half) then
    if (appliedOf outcomes).isEmpty then answer half outcomes else .adding outcomes
  else failed

/-- `post_operations`, one await at a time; `newId` is the id that Redis gives to
the next entry. The acquisition of a connection and its BEGIN count as one, and
so do COMMIT and the release of the connection. -/
def step (half : Char → Bool) (newId : List Entry → StreamId) (rq : Request) (w : World) :
    Await → Option World
  | .returns =>
    match w.phase with
    | .opening => some (w.goto (.applying ⟨⟨w.db,false⟩,w.shadow⟩ [] rq.ops))
    | .applying t outcomes (r::rest) =>
      match applyRaw rq.docId rq.userId t r with
      | some (o,next) => some (w.goto (.applying next (outcomes++[o]) rest))
      | none => some (w.goto failed)
    | .applying t outcomes [] => some ((w.commit t).goto (built half outcomes))
    | .adding outcomes =>
      some ((w.added rq (newId w.stream) outcomes).goto (.reopening outcomes (newId w.stream)))
    | .reopening outcomes id => some (w.goto (.recording outcomes id w.log (appliedOf outcomes)))
    | .recording outcomes id working (a::rest) =>
      match recordOperation w.db rq id working a with
      | some next => some (w.goto (.recording outcomes id next rest))
      | none => some (w.goto failed)
    | .recording outcomes _ working [] =>
      some { w with log := working, phase := .publishing outcomes }
    | .publishing outcomes => some (w.goto (answer half outcomes))
    | .ended _ => none
  | .raises done =>
    match w.phase with
    | .opening => some (w.goto failed)
    | .applying _ _ (_::_) => some (w.goto failed)
    | .applying t _ [] => some ((if done then w.commit t else w).goto failed)
    | .adding outcomes =>
      some ((if done then w.added rq (newId w.stream) outcomes else w).goto (.publishing outcomes))
    | .reopening _ _ => some (w.goto failed)
    | .recording _ _ _ (_::_) => some (w.goto failed)
    | .recording _ _ working [] => some { w with
        log := if done then working else w.log
        phase := failed }
    | .publishing outcomes => some (w.goto (answer half outcomes))
    | .ended _ => none

/-! ## Without exceptions -/

section Returns

variable {half : Char → Bool} {newId : List Entry → StreamId} {rq : Request}

def RawOp.plain (r : RawOp) : Bool := r.content.isNone

def bare : Shadow := fun _ => none

theorem after_bare {r : RawOp} (h : r.plain = true) (a : AppliedOp) : bare.after r a = bare := by
  have hnone : r.content = none := Option.isNone_iff_eq_none.mp h
  unfold Shadow.after
  split
  · rw [hnone]
    exact Function.update_eq_self _ _
  · rw [hnone]
    exact Function.update_eq_self _ _
  · exact Function.update_eq_self _ _
  · rfl

theorem handle_bare (db : Database) (op : BlockOperation) :
    handle db bare rq.docId rq.userId op = applyOp db rq.docId rq.userId op := by
  unfold handle
  split
  · rfl
  · rfl

/-- With objects only, an operation does what `applyIn` says. -/
theorem applyRaw_plain {tx : Transaction} {r : RawOp} (h : r.plain = true) :
    applyRaw rq.docId rq.userId ⟨tx,bare⟩ r = (applyIn rq.docId rq.userId tx r.op).map
      (fun p => (⟨p.1,none⟩,⟨p.2,bare⟩)) := by
  have hrefused : ∀ c : OpConflict, refused ⟨tx,bare⟩ c = ⟨.conflict c,none⟩ := by
    intro c
    cases hc : c.currentBlock <;> simp [refused,hc,bare]
  unfold applyRaw applyIn
  rw [handle_bare]
  cases hfailed : tx.failed with
  | true => rfl
  | false =>
    cases happly : applyOp tx.working rq.docId rq.userId r.op with
    | ok p => simp [after_bare h,bare]
    | error e =>
      cases e with
      | conflict c => simp [hrefused]
      | collision c => simp [hrefused]
      | raised => simp

theorem applying_returns (w : World) {tx last : Transaction} {rest : List RawOp}
    (hplain : ∀ r ∈ rest, r.plain = true) {before : List Outcome} {outcomes : List OpOutcome}
    (h : applyAll rq.docId rq.userId tx (rest.map RawOp.op) = some (outcomes,last)) :
    exec (step half newId rq) (w.goto (.applying ⟨tx,bare⟩ before rest))
        (List.replicate rest.length .returns) =
      some (w.goto (.applying ⟨last,bare⟩ (before++outcomes.map (fun o => ⟨o,none⟩)) [])) := by
  induction rest generalizing tx before outcomes with
  | nil =>
    cases h
    rw [List.map_nil,List.append_nil]
    rfl
  | cons r rest ih =>
    obtain ⟨o,next,others,hone,hrest,rfl⟩ := applyAll_cons h
    have hr := @applyRaw_plain rq tx r (hplain r List.mem_cons_self)
    have hstep : step half newId rq (w.goto (.applying ⟨tx,bare⟩ before (r::rest))) .returns =
        some (w.goto (.applying ⟨next,bare⟩ (before++[⟨o,none⟩]) rest)) := by
      show (match applyRaw rq.docId rq.userId ⟨tx,bare⟩ r with
        | some (o,next) => some (w.goto (.applying next (before++[o]) rest))
        | none => some (w.goto failed)) = _
      rw [hr,hone]
      rfl
    rw [List.length_cons,List.replicate_succ,exec,hstep,Option.bind_some,
      ih (fun r hr => hplain r (List.mem_cons_of_mem _ hr)) hrest,List.append_assoc]
    rfl

mutual

theorem encodes_whole : ∀ v : Json, encodes (fun _ => false) v = true
  | .null => rfl
  | .bool _ => rfl
  | .num _ => rfl
  | .str s => by simp [encodes,encodable]
  | .arr items => encodes_items items
  | .obj fields => encodes_fields fields

theorem encodes_items : ∀ items : List Json, encodesItems (fun _ => false) items = true
  | [] => rfl
  | v::items => by rw [encodesItems,encodes_whole v,encodes_items items]; rfl

theorem encodes_fields :
    ∀ fields : List (String × Json), encodesFields (fun _ => false) fields = true
  | [] => rfl
  | (k,v)::fields => by
    rw [encodesFields,encodes_whole v,encodes_fields fields]
    simp [encodable]

end

theorem plain_buildable (o : OpOutcome) :
    Outcome.buildable (fun _ => false) ⟨o,none⟩ = true := by
  unfold Outcome.buildable
  split
  · simp [encodable]
  · rfl

theorem plain_sendable (o : Outcome) : o.sendable (fun _ => false) = true := by
  unfold Outcome.sendable
  split
  · exact encodes_fields _
  · rfl

/-- Up to its first commit a request without such contents and texts does what
`postOperations` says, and it has ended there if nothing was applied. -/
theorem committed_posted {db : Database} {posted : Posted} (log : List LoggedOp)
    (stream : List Entry) (hplain : ∀ r ∈ rq.ops, r.plain = true)
    (h : postOperations db rq.docId rq.userId rq.msg.ops = some posted) :
    ∃ w, exec (step (fun _ => false) newId rq) (.start db bare log stream)
        (.returns::(List.replicate rq.ops.length .returns++[.returns])) = some w ∧
      w.db = posted.database ∧
      (posted.wireOps = [] → w.phase = .ended (apiReply (some posted))) := by
  obtain ⟨⟨outcomes,tx⟩,hall,heq⟩ := Option.bind_eq_some_iff.mp h
  cases heq
  have happlied : (appliedOf (outcomes.map (fun o => (⟨o,none⟩ : Outcome)))).map
      (fun a => wireOp a.1) = outcomes.filterMap OpOutcome.wire := by
    rw [appliedOf,List.filterMap_map,List.map_filterMap]
    congr 1
    funext o
    cases o <;> rfl
  refine ⟨((World.start db bare log stream).commit ⟨tx,bare⟩).goto
    (built (fun _ => false) (outcomes.map (fun o => ⟨o,none⟩))),?_,?_,?_⟩
  · show exec (step (fun _ => false) newId rq)
      ((World.start db bare log stream).goto (.applying ⟨⟨db,false⟩,bare⟩ [] rq.ops))
      (List.replicate rq.ops.length .returns++[.returns]) = _
    rw [exec_append,applying_returns _ hplain hall]
    rfl
  · rfl
  · intro hnone
    have hempty : (appliedOf (outcomes.map (fun o => (⟨o,none⟩ : Outcome)))).isEmpty = true := by
      exact List.isEmpty_iff.mpr (List.map_eq_nil_iff.mp (happlied.trans hnone))
    have hbuilt : (outcomes.map (fun o => (⟨o,none⟩ : Outcome))).all
        (Outcome.buildable (fun _ => false)) = true := by
      simp [plain_buildable]
    have hsent : (outcomes.map (fun o => (⟨o,none⟩ : Outcome))).all
        (Outcome.sendable (fun _ => false)) = true := by
      simp [plain_sendable]
    show built _ _ = _
    rw [built,if_pos hbuilt,if_pos hempty,answer,if_pos hsent,answered,List.map_map]
    rfl

end Returns

/-! ## Without effect -/

def Nacked (rq : Request) (reply : ApiReply) : Prop :=
  ∃ clientSeq conflicts, handleOps rq.msg reply = .nack clientSeq conflicts

def World.table (w : World) : List (DocBlocks.BlockRow × Option OddJson) :=
  w.db.blocks.rows.map (fun r => (r,w.shadow r.blockId))

def Unchanged (start w : World) : Prop :=
  w.table = start.table ∧ w.log = start.log ∧ w.stream = start.stream

def Innocent (rq : Request) (start w : World) : Prop :=
  ∀ reply, w.phase = .ended reply → Nacked rq reply → Unchanged start w

/-- The first COMMIT does not raise after it has changed rows. Behind it every
current block of a conflict can be built, or no row has changed. Once the entry
is in the stream every log row can be recorded and no await raises until the
second COMMIT has returned. The answer can be encoded, or nothing has changed. -/
def Kept (half : Char → Bool) (start : World) (rq : Request) (w : World) : Await → Prop
  | .returns =>
    match w.phase with
    | .applying t outcomes [] =>
      outcomes.all (Outcome.buildable half) = true ∨ (w.commit t).table = w.table
    | .recording _ _ _ (_::_) => Recordable w.db rq
    | .publishing outcomes => outcomes.all (Outcome.sendable half) = true ∨ Unchanged start w
    | _ => True
  | .raises done =>
    match w.phase with
    | .applying t _ [] => done = true → (w.commit t).table = w.table
    | .reopening _ _ => False
    | .recording _ _ _ _ => False
    | .publishing outcomes => outcomes.all (Outcome.sendable half) = true ∨ Unchanged start w
    | _ => True

/-- Up to the commit nothing has changed, nor will it if nothing is applied, and
then the entry is in the stream. -/
def Inv (start w : World) : Prop :=
  match w.phase with
  | .opening => Unchanged start w
  | .applying t outcomes _ => Unchanged start w ∧
      (appliedOf outcomes = [] → t.tx.working = w.db ∧ t.shadow = w.shadow)
  | .adding _ => w.stream = start.stream
  | .reopening _ _ => w.stream ≠ start.stream
  | .recording _ _ _ _ => w.stream ≠ start.stream
  | _ => True

variable {half : Char → Bool} {newId : List Entry → StreamId} {rq : Request} {start w : World}

theorem isFailed_iff {phase : Phase} : phase.isFailed = true ↔ phase = failed := by
  constructor
  · intro h
    unfold Phase.isFailed at h
    split at h
    · rw [of_decide_eq_true h]
      rfl
    · cases h
  · rintro rfl
    rfl

theorem innocent_failed (h : w.phase = failed) : Innocent rq start w ↔ Unchanged start w := by
  constructor
  · exact fun hi => hi _ h ⟨_,_,rfl⟩
  · exact fun hu _ _ _ => hu

theorem innocent_answered {outcomes : List Outcome} (h : w.phase = answered outcomes) :
    Innocent rq start w := by
  intro reply hreply hnack
  cases h.symm.trans hreply
  obtain ⟨_,_,hnack⟩ := hnack
  cases hnack

theorem innocent_running (h : ∀ reply, w.phase ≠ .ended reply) : Innocent rq start w :=
  fun reply hreply => absurd hreply (h reply)

theorem goto_failed : Innocent rq start (w.goto failed) ↔ Unchanged start w :=
  innocent_failed (w := w.goto failed) rfl

theorem goto_answer {outcomes : List Outcome} :
    Innocent rq start (w.goto (answer half outcomes)) ↔
      outcomes.all (Outcome.sendable half) = true ∨ Unchanged start w := by
  unfold answer
  split
  · next hsent => exact iff_of_true (innocent_answered rfl) (Or.inl hsent)
  · next hno => rw [goto_failed,or_iff_right hno]

theorem answer_ended (half : Char → Bool) (outcomes : List Outcome) :
    ∃ reply, answer half outcomes = .ended reply := by
  unfold answer
  split
  · exact ⟨_,rfl⟩
  · exact ⟨_,rfl⟩

theorem inv_ended {reply : ApiReply} (h : w.phase = .ended reply) : Inv start w := by
  unfold Inv
  rw [h]
  trivial

theorem stream_grown (h : w.stream = start.stream) (rq : Request) (id : StreamId)
    (outcomes : List Outcome) : (w.added rq id outcomes).stream ≠ start.stream := by
  rw [← h]
  exact fun heq => List.cons_ne_nil _ _ (List.append_right_eq_self.mp heq)

/-- A commit leaves everything as at the start exactly if it leaves the rows. -/
theorem commit_unchanged_iff (h : Unchanged start w) (t : Open) :
    Unchanged start (w.commit t) ↔ (w.commit t).table = w.table := by
  rw [h.1]
  exact and_iff_left h.2

theorem commit_same {t : Open} (h : t.tx.working = w.db ∧ t.shadow = w.shadow) :
    (w.commit t).table = w.table := by
  unfold World.commit PostOperations.commit
  rw [h.1,h.2,ite_self,ite_self]

/-- An operation that is not applied leaves what the transaction sees. -/
theorem applyRaw_refused {t next : Open} {r : RawOp} {o : Outcome}
    (h : applyRaw rq.docId rq.userId t r = some (o,next)) (hno : o.applied? = none) :
    next.tx.working = t.tx.working ∧ next.shadow = t.shadow := by
  unfold applyRaw at h
  split at h
  · cases h
  · split at h
    · cases h
      cases hno
    · cases h
      exact ⟨rfl,rfl⟩
    · cases h
      exact ⟨rfl,rfl⟩
    · cases h

theorem applied_none {outcomes : List Outcome} {o : Outcome}
    (h : appliedOf (outcomes++[o]) = []) : appliedOf outcomes = [] ∧ o.applied? = none := by
  rw [appliedOf,List.filterMap_append,List.append_eq_nil_iff] at h
  refine ⟨h.1,?_⟩
  cases ho : o.applied? with
  | none => rfl
  | some a => simp [ho] at h

/-- What the first COMMIT and the results built behind it leave. -/
theorem committed_spec {t : Open} {outcomes : List Outcome} (h : Unchanged start w)
    (hsame : appliedOf outcomes = [] → t.tx.working = w.db ∧ t.shadow = w.shadow) :
    Inv start ((w.commit t).goto (built half outcomes)) ∧
      (Innocent rq start ((w.commit t).goto (built half outcomes)) ↔
        outcomes.all (Outcome.buildable half) = true ∨ (w.commit t).table = w.table) := by
  unfold built
  split
  · next hbuild =>
    split
    · next hnone =>
      have hrows := commit_same (hsame (List.isEmpty_iff.mp hnone))
      obtain ⟨reply,hreply⟩ := answer_ended half outcomes
      refine ⟨inv_ended hreply,iff_of_true ?_ (Or.inl hbuild)⟩
      exact goto_answer.mpr (Or.inr ((commit_unchanged_iff h t).mpr hrows))
    · exact ⟨h.2.2,
        iff_of_true (innocent_running (fun _ hr => by cases hr)) (Or.inl hbuild)⟩
  · next hno => exact ⟨trivial,goto_failed.trans ((commit_unchanged_iff h t).trans
      (or_iff_right hno).symm)⟩

/-- What the return of an await leaves behind, and when it is innocent. -/
theorem returns_spec {next : World} (h : Inv start w)
    (hs : step half newId rq w .returns = some next) :
    Inv start next ∧ (Innocent rq start next ↔ Kept half start rq w .returns) := by
  have hrunning : ∀ {v : World}, (∀ reply, v.phase ≠ .ended reply) → Kept half start rq w .returns →
      (Innocent rq start v ↔ Kept half start rq w .returns) :=
    fun hv hk => iff_of_true (innocent_running hv) hk
  unfold Inv at h
  cases hphase : w.phase with
  | opening =>
    simp only [step,hphase] at hs h
    cases hs
    refine ⟨⟨h,fun _ => ⟨rfl,rfl⟩⟩,hrunning (fun _ hr => by cases hr) (by simp [Kept,hphase])⟩
  | applying t outcomes rest =>
    simp only [step,hphase] at hs h
    cases rest with
    | nil =>
      cases hs
      have hkept : Kept half start rq w .returns ↔
          (outcomes.all (Outcome.buildable half) = true ∨ (w.commit t).table = w.table) := by
        simp only [Kept,hphase]
      rw [hkept]
      exact committed_spec h.1 h.2
    | cons r rest =>
      have hkept : Kept half start rq w .returns := by simp [Kept,hphase]
      simp only at hs
      split at hs
      · next o t' hone =>
        cases hs
        refine ⟨⟨h.1,fun hnone => ?_⟩,hrunning (fun _ hr => by cases hr) hkept⟩
        obtain ⟨hbefore,ho⟩ := applied_none hnone
        obtain ⟨hworking,hshadow⟩ := applyRaw_refused hone ho
        exact ⟨hworking.trans (h.2 hbefore).1,hshadow.trans (h.2 hbefore).2⟩
      · cases hs
        exact ⟨trivial,iff_of_true (goto_failed.mpr h.1) hkept⟩
  | adding outcomes =>
    simp only [step,hphase] at hs h
    cases hs
    exact ⟨stream_grown h rq _ outcomes,
      hrunning (fun _ hr => by cases hr) (by simp [Kept,hphase])⟩
  | reopening outcomes id =>
    simp only [step,hphase] at hs h
    cases hs
    exact ⟨h,hrunning (fun _ hr => by cases hr) (by simp [Kept,hphase])⟩
  | recording outcomes id working rest =>
    simp only [step,hphase] at hs h
    cases rest with
    | nil =>
      cases hs
      exact ⟨trivial,hrunning (fun _ hr => by cases hr) (by simp [Kept,hphase])⟩
    | cons a rest =>
      have hkept : Kept half start rq w .returns ↔ Recordable w.db rq := by simp [Kept,hphase]
      rw [hkept]
      by_cases hrec : Recordable w.db rq
      · simp only [recordOperation,if_pos hrec] at hs
        cases hs
        exact ⟨h,iff_of_true (innocent_running (fun _ hr => by cases hr)) hrec⟩
      · simp only [recordOperation,if_neg hrec] at hs
        cases hs
        exact ⟨trivial,iff_of_false (fun hi => h (goto_failed.mp hi).2.2) hrec⟩
  | publishing outcomes =>
    simp only [step,hphase] at hs
    cases hs
    obtain ⟨reply,hreply⟩ := answer_ended half outcomes
    exact ⟨inv_ended hreply,goto_answer.trans (by simp only [Kept,hphase])⟩
  | ended reply =>
    simp only [step,hphase] at hs
    cases hs

theorem raises_spec {next : World} {done : Bool} (h : Inv start w)
    (hs : step half newId rq w (.raises done) = some next) :
    Inv start next ∧ (Innocent rq start next ↔ Kept half start rq w (.raises done)) := by
  unfold Inv at h
  cases hphase : w.phase with
  | opening =>
    simp only [step,hphase] at hs h
    cases hs
    exact ⟨trivial,iff_of_true (goto_failed.mpr h) (by simp [Kept,hphase])⟩
  | applying t outcomes rest =>
    simp only [step,hphase] at hs h
    cases rest with
    | nil =>
      cases hs
      refine ⟨trivial,?_⟩
      have hkept : Kept half start rq w (.raises done) ↔
          (done = true → (w.commit t).table = w.table) := by
        simp only [Kept,hphase]
      rw [goto_failed,hkept]
      cases done with
      | false => exact iff_of_true h.1 (fun hd => by cases hd)
      | true => exact (commit_unchanged_iff h.1 t).trans (by simp)
    | cons r rest =>
      cases hs
      exact ⟨trivial,iff_of_true (goto_failed.mpr h.1) (by simp [Kept,hphase])⟩
  | adding outcomes =>
    simp only [step,hphase] at hs
    cases hs
    exact ⟨trivial,iff_of_true (innocent_running (fun _ hr => by cases hr))
      (by simp [Kept,hphase])⟩
  | reopening outcomes id =>
    simp only [step,hphase] at hs h
    cases hs
    exact ⟨trivial,iff_of_false (fun hi => h (goto_failed.mp hi).2.2) (by simp [Kept,hphase])⟩
  | recording outcomes id working rest =>
    simp only [step,hphase] at hs h
    have hkept : ¬Kept half start rq w (.raises done) := by simp [Kept,hphase]
    cases rest with
    | nil =>
      cases hs
      exact ⟨trivial,iff_of_false (fun hi => h ((innocent_failed rfl).mp hi).2.2) hkept⟩
    | cons a rest =>
      cases hs
      exact ⟨trivial,iff_of_false (fun hi => h (goto_failed.mp hi).2.2) hkept⟩
  | publishing outcomes =>
    simp only [step,hphase] at hs
    cases hs
    obtain ⟨reply,hreply⟩ := answer_ended half outcomes
    exact ⟨inv_ended hreply,goto_answer.trans (by simp only [Kept,hphase])⟩
  | ended reply =>
    simp only [step,hphase] at hs
    cases hs

theorem step_spec {next : World} {e : Await} (h : Inv start w)
    (hs : step half newId rq w e = some next) :
    Inv start next ∧ (Innocent rq start next ↔ Kept half start rq w e) := by
  cases e with
  | returns => exact returns_spec h hs
  | raises done => exact raises_spec h hs

theorem failures_innocent_iff (half : Char → Bool) (newId : List Entry → StreamId) (rq : Request)
    (db : Database) (shadow : Shadow) (log : List LoggedOp) (stream : List Entry)
    (awaits : List Await) :
    Throughout (step half newId rq) (Innocent rq (.start db shadow log stream))
        (.start db shadow log stream) awaits ↔
      Along (step half newId rq) (Kept half (.start db shadow log stream) rq)
        (.start db shadow log stream) awaits :=
  throughout_iff_along (fun _ _ _ h hs => (step_spec h hs).1)
    (fun _ _ _ h _ hs => (step_spec h hs).2) ⟨rfl,rfl,rfl⟩
    (innocent_running (fun _ hr => by cases hr))

def large : Request := ⟨1,1,2^63,[⟨insertUnder 7 none,none⟩]⟩

/-- The content is a list, and a move with a stale version brings it back. -/
def listed : Request := ⟨1,1,1,[⟨insertUnder 7 none,some ⟨.arr [.num 1],rfl⟩⟩,
  ⟨{ op := .move_block, blockId := .uuid 7, payload := {}, version := some 99 },none⟩]⟩

def firstId (_ : List Entry) : StreamId := toLex (1,0)

example : (exec (step (fun _ => false) firstId listed) (.start (.initial [1] [1]) bare [] [])
    (List.replicate 4 .returns)).any (fun w => w.phase.isFailed ∧
      w.db.blocks.rows.length = 1 ∧ w.stream.isEmpty) = true := by decide +kernel

def untilRecorded : List Await := List.replicate 6 .returns

theorem large_seq_nacked_after_effect :
    ¬∀ (half : Char → Bool) (newId : List Entry → StreamId) (rq : Request) (db : Database)
      (shadow : Shadow) (log : List LoggedOp) (stream : List Entry) (awaits : List Await),
      Throughout (step half newId rq) (Innocent rq (.start db shadow log stream))
        (.start db shadow log stream) awaits := by
  intro hall
  have h : (exec (step (fun _ => false) firstId large) (.start (.initial [1] [1]) bare [] [])
      untilRecorded).any (fun w => w.phase.isFailed ∧ w.stream.length = 1) = true := by
    decide +kernel
  obtain ⟨w,hw,hfacts⟩ := (Option.any_eq_true _ _).mp h
  obtain ⟨hfailed,hstream⟩ := of_decide_eq_true hfacts
  have hinnocent := throughout_iff_prefixes.mp (hall (fun _ => false) firstId large
    (.initial [1] [1]) bare [] [] untilRecorded) _ (List.prefix_refl _) w hw
  have hnone : w.stream = [] := ((innocent_failed (isFailed_iff.mp hfailed)).mp hinnocent).2.2
  rw [hnone] at hstream
  cases hstream

end BlockDocs.FailedRequests
