import BlockDocs.GuardedRun
import BlockDocs.Placement
import BlockDocs.ReplicaVersion

/-!
# A document with one writer

The batches of a client wait in a queue and reach the server in order. Their
acks and echoes come back at any later time. What the writer has loaded and
sent is an account of the rows that its next operation will meet. The writer
stays in step as long as its records agree with that account.
-/

set_option autoImplicit false

namespace BlockDocs.LoneWriter
open BlockDocs.InsertionMap BlockDocs.Wire BlockDocs.DocBlocks BlockDocs.ApplyOps
open BlockDocs.Reachability BlockDocs.DocumentFrame BlockDocs.PostOperations
open BlockDocs.BlockStore BlockDocs.ClientRun BlockDocs.ReplicaVersion BlockDocs.GuardedRun
open BlockDocs.StrictRanks BlockDocs.EarlyRanks BlockDocs.Acceptance BlockDocs.Accounts
open BlockDocs.Placement

/-- A batch and what the api answered, if it did not raise. -/
structure Served where
  batch : Pending
  posted : Option Posted

structure World where
  store : Store
  db : Database
  queue : List Pending
  served : List Served

inductive Action where
  | act (e : ClientEvent)
  | serve
  | ack (i : ℕ)
  | echo (i : ℕ) (streamId : Option StreamId)

def isLocal : ClientEvent → Bool
  | .insertBlock _ _ _ _ _ => true
  | .deleteBlock _ => true
  | .moveBlock _ _ _ => true
  | .updateAttrs _ _ => true
  | .updateContent _ _ => true
  | _ => false

def World.start (db : Database) (docId : DocId) (blocks : List Block) (lastStreamId : StreamId) :
    World where
  store := Store.loadSnapshot docId blocks lastStreamId
  db := db
  queue := []
  served := []

def sentBy (s : Store) (e : ClientEvent) : List Pending :=
  (clientStep s e).pendingOps.drop s.pendingOps.length

variable (docId : DocId) (userId : UserId)

def serveBatch (w : World) (p : Pending) (rest : List Pending) : World :=
  let posted := postOperations w.db docId userId p.ops
  { w with
    db := (posted.map Posted.database).getD w.db
    queue := rest
    served := w.served++[⟨p,posted⟩] }

def step (w : World) : Action → Option World
  | .act e =>
    if isLocal e then
      some { w with store := clientStep w.store e, queue := w.queue++sentBy w.store e }
    else none
  | .serve =>
    match w.queue with
    | [] => none
    | p::rest => some (serveBatch docId userId w p rest)
  | .ack i => w.served[i]?.map (fun s =>
      { w with store := receive w.store (handleOps s.batch (apiReply s.posted)) })
  | .echo i streamId => (w.served[i]?.bind Served.posted).map (fun posted =>
      { w with store := w.store.applyRemoteOps posted.wireOps streamId })

def queuedOps (w : World) : List BlockOperation := w.queue.flatMap Pending.ops

def servedOps (w : World) : List BlockOperation := w.served.flatMap (fun s => s.batch.ops)

def AllApplied (s : Served) : Prop :=
  ∃ posted, s.posted = some posted ∧
    posted.results.map OpResult.status = List.replicate s.batch.ops.length .applied

def NoConflict (w : World) : Prop := ∀ s ∈ w.served, AllApplied s

/-! ## What keeps a writer in step -/

variable (db : Database)

/-- The rows that the client has loaded, changed by all that it has sent. -/
noncomputable def account (w : World) : Account :=
  (servedOps w++queuedOps w).foldl enter (accountOf db.blocks docId)

def Informed (account : Account) (blocks : Blocks) : ClientEvent → Prop
  | .insertBlock b type parentId afterId _ =>
    account b = none ∧ (∀ r ∈ outside docId db.blocks, r.blockId ≠ b) ∧ type.length ≤ 50 ∧
      Known account parentId ∧ Known account afterId
  | .deleteBlock b => ∀ r ∈ blocks.get b, ∀ e ∈ account b, r.version = e.version
  | .moveBlock b parentId afterId => ∀ r ∈ blocks.get b,
    (∃ e ∈ account b, r.version = e.version) ∧ Known account parentId ∧ Known account afterId
  | .updateAttrs b _ => ∀ r ∈ blocks.get b, ∃ e ∈ account b, r.version = e.version
  | _ => True

def Servable (db : Database) (op : BlockOperation) : Prop :=
  ∀ b, op.blockId = .uuid b →
    match op.op with
    | .insert_block => ∀ parentId afterId, op.payload.parentId = .ofOption parentId →
        op.payload.afterId = .ofOption afterId → Roomy db.blocks docId b parentId afterId
    | .move_block => ∀ parentId afterId, op.payload.parentId = .ofOption parentId →
        op.payload.afterId = .ofOption afterId → Roomy db.blocks docId b parentId afterId
    | .update_attrs => ∀ r ∈ db.blocks.find docId b, ∃ attrs, ApplyOps.attrsOf r.content = .ok attrs
    | _ => True

def InStep (w : World) : Action → Prop
  | .act e => Informed docId db (account docId db w) w.store.blocks e
  | .serve => ∀ p ∈ w.queue.head?, ∀ op ∈ p.ops, Servable docId w.db op
  | _ => True

instance (account : Account) : ∀ p, Decidable (Known account p)
  | none => isTrue trivial
  | some b => inferInstanceAs (Decidable ((account b).isSome = true))

instance (account : Account) (blocks : Blocks) :
    ∀ e, Decidable (Informed docId db account blocks e)
  | .insertBlock _ _ _ _ _ => inferInstanceAs (Decidable (_ ∧ _ ∧ _ ∧ _ ∧ _))
  | .deleteBlock b => inferInstanceAs (Decidable (∀ r ∈ blocks.get b, _))
  | .moveBlock b _ _ => inferInstanceAs (Decidable (∀ r ∈ blocks.get b, _))
  | .updateAttrs b _ => inferInstanceAs (Decidable (∀ r ∈ blocks.get b, _))
  | .loadSnapshot _ _ _ => isTrue trivial
  | .resetDoc => isTrue trivial
  | .updateContent _ _ => isTrue trivial
  | .applyRemoteOps _ _ => isTrue trivial
  | .handleAck _ _ => isTrue trivial
  | .handleNack _ _ => isTrue trivial

/-! ## The operations that an account suits -/

def Suits (account : Account) (op : BlockOperation) : Prop :=
  ∃ b, op.blockId = .uuid b ∧
    match op.op with
    | .insert_block => account b = none ∧ (∀ r ∈ outside docId db.blocks, r.blockId ≠ b) ∧
        (op.payload.type.getD "paragraph").length ≤ 50 ∧
        ∃ parentId afterId, op.payload.parentId = .ofOption parentId ∧
          op.payload.afterId = .ofOption afterId ∧ Known account parentId ∧ Known account afterId
    | .delete_block => ∀ e ∈ account b, ∀ v ∈ op.version, e.version = v
    | .move_block => (∃ e ∈ account b, ∀ v ∈ op.version, e.version = v) ∧
        ∃ parentId afterId, op.payload.parentId = .ofOption parentId ∧
          op.payload.afterId = .ofOption afterId ∧ Known account parentId ∧ Known account afterId
    | .update_attrs => ∃ e ∈ account b, ∀ v ∈ op.version, e.version = v
    | .update_content => (account b).isSome

def SuitsAll : Account → List BlockOperation → Prop
  | _, [] => True
  | account, op::ops => Suits docId db account op ∧ SuitsAll (enter account op) ops

variable {docId userId} {db : Database}

theorem suitsAll_append {account : Account} {ops rest : List BlockOperation} :
    SuitsAll docId db account (ops++rest) ↔
      SuitsAll docId db account ops ∧ SuitsAll docId db (ops.foldl enter account) rest := by
  induction ops generalizing account with
  | nil => simp [SuitsAll]
  | cons op ops ih => simp [SuitsAll,ih,and_assoc]

theorem atVersion_iff {t : Table} {b : Uuid} {expectedVersion : Option ℤ} :
    (∃ r, AtVersion t docId b expectedVersion r) ↔
      ∃ e ∈ accountOf t docId b, ∀ v ∈ expectedVersion, e.version = v := by
  constructor
  · rintro ⟨r,hr,hdoc,rfl,hv⟩
    exact ⟨entryOf r,accountOf_row hr hdoc,hv⟩
  · rintro ⟨e,he,hv⟩
    obtain ⟨r,hr,hdoc,hid,rfl⟩ := accountOf_some he
    exact ⟨r,hr,hdoc,hid,hv⟩

theorem deletable_iff {t : Table} {b : Uuid} {expectedVersion : Option ℤ} :
    (Present docId t b → ∃ r, AtVersion t docId b expectedVersion r) ↔
      ∀ e ∈ accountOf t docId b, ∀ v ∈ expectedVersion, e.version = v := by
  rw [atVersion_iff]
  cases hentry : accountOf t docId b with
  | none => exact iff_of_true (fun h => absurd h (accountOf_none.mp hentry)) nofun
  | some e =>
    obtain ⟨r,hr,hdoc,hid,_⟩ := accountOf_some hentry
    constructor
    · rintro h e' he'
      obtain ⟨e'',he'',hv⟩ := h ⟨r,hr,hdoc,hid⟩
      cases he'
      cases he''
      exact hv
    · exact fun h _ => ⟨e,rfl,h e rfl⟩

theorem fresh_iff {t : Table} {b : Uuid} : (∀ r ∈ t.rows, r.blockId ≠ b) ↔
    accountOf t docId b = none ∧ ∀ r ∈ outside docId t, r.blockId ≠ b := by
  rw [accountOf_none]
  constructor
  · intro h
    refine ⟨?_,fun r hr => h r (List.mem_filter.mp hr).1⟩
    rintro ⟨r,hr,_,hid⟩
    exact h r hr hid
  · rintro ⟨hnone,hout⟩ r hr hid
    by_cases hdoc : r.docId = docId
    · exact hnone ⟨r,hr,hdoc,hid⟩
    · exact hout r (List.mem_filter.mpr ⟨hr,decide_eq_true hdoc⟩) hid

theorem mergeable_iff {t : Table} {b : Uuid} {expectedVersion : Option ℤ} :
    (∃ r attrs, AtVersion t docId b expectedVersion r ∧
      ApplyOps.attrsOf r.content = .ok attrs) ↔
      (∃ e ∈ accountOf t docId b, ∀ v ∈ expectedVersion, e.version = v) ∧
        ∀ r ∈ t.find docId b, ∃ attrs, ApplyOps.attrsOf r.content = .ok attrs := by
  rw [← atVersion_iff]
  constructor
  · rintro ⟨r,attrs,hr,hattrs⟩
    refine ⟨⟨r,hr⟩,fun s hs => ⟨attrs,?_⟩⟩
    obtain ⟨hsrow,_,hsid⟩ := (find_some_iff _ _ _ _).mp hs
    rw [row_unique t hsrow hr.1 (hsid.trans hr.2.2.1.symm)]
    exact hattrs
  · rintro ⟨⟨r,hr⟩,h⟩
    obtain ⟨attrs,hattrs⟩ := h r ((find_some_iff _ _ _ _).mpr ⟨hr.1,hr.2.1,hr.2.2.1⟩)
    exact ⟨r,attrs,hr,hattrs⟩

theorem placed_iff {t : Table} {b : Uuid} {payload : Payload}
    (h : RowRanks InAlphabet t.rows) : HasPlace t docId b payload ↔
      (∃ parentId afterId, payload.parentId = .ofOption parentId ∧
        payload.afterId = .ofOption afterId ∧ Known (accountOf t docId) parentId ∧
          Known (accountOf t docId) afterId) ∧
      ∀ parentId afterId, payload.parentId = .ofOption parentId →
        payload.afterId = .ofOption afterId → Roomy t docId b parentId afterId := by
  constructor
  · intro hplace
    obtain ⟨p,a,_,_,hp,ha,_⟩ := id hplace
    obtain ⟨hkp,hka,_⟩ := (hasPlace_iff h hp ha).mp hplace
    exact ⟨⟨p,a,hp,ha,hkp,hka⟩,fun p' a' hp' ha' => ((hasPlace_iff h hp' ha').mp hplace).2.2⟩
  · rintro ⟨⟨p,a,hp,ha,hkp,hka⟩,hroomy⟩
    exact (hasPlace_iff h hp ha).mpr ⟨hkp,hka,hroomy p a hp ha⟩

/-- The server applies an operation exactly when the account of its rows suits it
and the rows have room for it. -/
theorem applied_iff {op : BlockOperation} (h : RowRanks InAlphabet db.blocks.rows)
    (hdoc : docId ∈ db.documents) (huser : userId ∈ db.users) :
    (∃ r, applyOp db docId userId op = .ok r) ↔
      Suits docId db (accountOf db.blocks docId) op ∧ Servable docId db op := by
  rw [applyOp_ok_iff]
  unfold Welcome Suits Servable
  cases hid : op.blockId with
  | absent => simp
  | malformed => simp
  | uuid b =>
    simp only [IdField.uuid.injEq,exists_eq_left',forall_eq']
    cases op.op with
    | insert_block =>
      simp only [@fresh_iff docId,placed_iff h,hdoc,huser,and_true,and_assoc]
    | delete_block => simp only [deletable_iff,and_true]
    | move_block => simp only [atVersion_iff,placed_iff h,huser,and_true,and_assoc]
    | update_attrs => simp only [mergeable_iff,huser,and_true]
    | update_content =>
      have hpresent : Present docId db.blocks b ↔ (accountOf db.blocks docId b).isSome := by
        rw [← not_iff_not,← accountOf_none,Bool.not_eq_true,Option.isSome_eq_false_iff,
          Option.isNone_iff_eq_none]
      simp only [hpresent,huser,and_true]

/-! ## Sending -/

/-- A local action sends nothing or one batch of one operation. -/
theorem sentBy_cases {s : Store} {e : ClientEvent} (h : isLocal e = true) :
    (sentBy s e = [] ∧ ∀ op, ¬ Enqueues s e op) ∨
      ∃ op, Enqueues s e op ∧ sentBy s e = [⟨s.clientSeqCounter,[op]⟩] := by
  have hnone : (clientStep s e).pendingOps = s.pendingOps →
      sentBy s e = [] ∧ ∀ op, ¬ Enqueues s e op := by
    intro hkept
    refine ⟨?_,fun op => not_enqueues (hkept ▸ List.Sublist.refl _)⟩
    rw [sentBy,hkept,List.drop_length]
  have hone : ∀ op, Enqueues s e op → ∃ op, Enqueues s e op ∧
      sentBy s e = [⟨s.clientSeqCounter,[op]⟩] := by
    intro op hop
    refine ⟨op,hop,?_⟩
    rw [sentBy,hop,List.drop_left]
  cases e with
  | insertBlock blockId type parentId afterId content =>
    exact Or.inr (hone (insertOp (newBlock s blockId type parentId afterId content) afterId) rfl)
  | deleteBlock blockId =>
    cases hget : s.blocks.get blockId with
    | none => exact Or.inl (hnone (by simp [clientStep,Store.deleteBlock,hget]))
    | some existing =>
      refine Or.inr (hone (deleteOp blockId existing.version) ?_)
      rw [Enqueues,clientStep,deleteBlock_some hget]
      rfl
  | moveBlock blockId parentId afterId =>
    cases hget : s.blocks.get blockId with
    | none => exact Or.inl (hnone (by simp [clientStep,Store.moveBlock,hget]))
    | some existing =>
      refine Or.inr (hone (moveOp blockId (movedBlock s existing parentId afterId) afterId) ?_)
      rw [Enqueues,clientStep,moveBlock_some hget]
      rfl
  | updateAttrs blockId attrs =>
    cases hget : s.blocks.get blockId with
    | none => exact Or.inl (hnone (by simp [clientStep,Store.updateAttrs,hget]))
    | some existing =>
      refine Or.inr (hone (attrsOp blockId attrs existing.version) ?_)
      rw [Enqueues,clientStep,Store.updateAttrs,hget]
      rfl
  | updateContent blockId content => exact Or.inl (hnone (content_pending s blockId content))
  | _ => cases h

/-- What an informed action sends suits the account. -/
theorem sent_suits {account : Account} {s : Store} {e : ClientEvent} {op : BlockOperation}
    (h : Informed docId db account s.blocks e) (hlocal : isLocal e = true)
    (hop : Enqueues s e op) : Suits docId db account op := by
  cases e with
  | insertBlock blockId type parentId afterId content =>
    obtain rfl := sent_insert hop
    obtain ⟨hnone,hout,htype,hparent,hafter⟩ := h
    exact ⟨blockId,rfl,hnone,hout,htype,parentId,afterId,rfl,rfl,hparent,hafter⟩
  | deleteBlock blockId =>
    obtain ⟨existing,hget,rfl⟩ := sent_delete hop
    refine ⟨blockId,rfl,fun e he v hv => ?_⟩
    exact (h existing hget e he).symm.trans (Option.some.inj hv)
  | moveBlock blockId parentId afterId =>
    obtain ⟨existing,hget,rfl⟩ := sent_move hop
    obtain ⟨⟨e,he,hversion⟩,hparent,hafter⟩ := h existing hget
    refine ⟨blockId,rfl,⟨e,he,fun v hv => ?_⟩,parentId,afterId,rfl,rfl,hparent,hafter⟩
    exact hversion.symm.trans (Option.some.inj hv)
  | updateAttrs blockId attrs =>
    obtain ⟨existing,hget,rfl⟩ := sent_attrs hop
    obtain ⟨e,he,hversion⟩ := h existing hget
    refine ⟨blockId,rfl,e,he,fun v hv => ?_⟩
    exact hversion.symm.trans (Option.some.inj hv)
  | updateContent blockId content =>
    exact absurd hop (content_unsent blockId content)
  | _ => cases hlocal

theorem posted_applied {op : BlockOperation} {a : AppliedOp} {next : Database}
    (h : applyOp db docId userId op = .ok (a,next)) :
    ∃ posted, postOperations db docId userId [op] = some posted ∧ posted.database = next ∧
      posted.results.map OpResult.status = [.applied] := by
  refine ⟨⟨next,[opResult (.applied a)],[wireOp a]⟩,?_,rfl,rfl⟩
  simp only [postOperations,applyAll,applyIn,h]
  rfl

/-! ## Every run -/

/-- The rows of the document are those that the account of the served operations
tells, and the queued operations suit it. -/
structure Tracked (documents : List DocId) (users : List UserId) (docId : DocId)
    (userId : UserId) (db : Database) (w : World) : Prop where
  reachable : Reachable documents users w.db
  document : docId ∈ w.db.documents
  user : userId ∈ w.db.users
  others : outside docId w.db.blocks = outside docId db.blocks
  served : accountOf w.db.blocks docId = (servedOps w).foldl enter (accountOf db.blocks docId)
  queued : SuitsAll docId db (accountOf w.db.blocks docId) (queuedOps w)
  single : ∀ p ∈ w.queue, SingleOp p

variable {documents : List DocId} {users : List UserId} {w next : World}

theorem account_queued (h : Tracked documents users docId userId db w) :
    account docId db w = (queuedOps w).foldl enter (accountOf w.db.blocks docId) := by
  rw [account,List.foldl_append,h.served]

theorem act_tracked {e : ClientEvent} (h : Tracked documents users docId userId db w)
    (hlocal : isLocal e = true) (hin : InStep docId db w (.act e)) :
    Tracked documents users docId userId db
      { w with store := clientStep w.store e, queue := w.queue++sentBy w.store e } := by
  rcases sentBy_cases (s := w.store) hlocal with ⟨hnil,_⟩ | ⟨op,hop,hone⟩
  · rw [hnil,List.append_nil]
    exact ⟨h.reachable,h.document,h.user,h.others,h.served,h.queued,h.single⟩
  · rw [hone]
    refine ⟨h.reachable,h.document,h.user,h.others,h.served,?_,?_⟩
    · have hsuits := sent_suits hin hlocal hop
      rw [account_queued h] at hsuits
      rw [queuedOps,List.flatMap_append,suitsAll_append]
      exact ⟨h.queued,hsuits,trivial⟩
    · intro p hp
      rcases List.mem_append.mp hp with hp | hp
      · exact h.single p hp
      · exact ⟨op,by rw [List.mem_singleton.mp hp]⟩

theorem serve_tracked {p : Pending} {rest : List Pending}
    (h : Tracked documents users docId userId db w) (hqueue : w.queue = p::rest)
    (hin : InStep docId db w .serve) :
    Tracked documents users docId userId db (serveBatch docId userId w p rest) ∧
      AllApplied ⟨p,postOperations w.db docId userId p.ops⟩ := by
  obtain ⟨op,hop⟩ := h.single p (hqueue ▸ List.mem_cons_self)
  have hqueued :
      SuitsAll docId db (accountOf w.db.blocks docId) (op::rest.flatMap Pending.ops) := by
    have hall := h.queued
    rw [queuedOps,hqueue,List.flatMap_cons,hop] at hall
    exact hall
  have hsuits : Suits docId w.db (accountOf w.db.blocks docId) op := by
    rw [Suits,h.others]
    exact hqueued.1
  have hservable : Servable docId w.db op :=
    hin p (by rw [hqueue]; rfl) op (by rw [hop]; exact List.mem_cons_self)
  have hranks := reachable_ranks midpoint_inAlphabet h.reachable
  obtain ⟨⟨a,after⟩,hok⟩ := (applied_iff hranks h.document h.user).mpr ⟨hsuits,hservable⟩
  obtain ⟨posted,hposted,rfl,hresults⟩ := posted_applied hok
  have happlied := applyOp_applied hok
  have hin' := reachable_kept inDocument_kept h.reachable
  have haccount := applied_account hin' happlied
  have hframe := applied_frame happlied
  have hnext : serveBatch docId userId w p rest = { w with
      db := posted.database, queue := rest, served := w.served++[⟨p,some posted⟩] } := by
    simp only [serveBatch,hop,hposted,Option.map_some,Option.getD_some]
  rw [hnext,hop,hposted]
  refine ⟨⟨.operation h.reachable hok,hframe.1 ▸ h.document,hframe.2 ▸ h.user,?_,?_,?_,?_⟩,
    posted,rfl,?_⟩
  · exact (applied_outside hin' happlied).trans h.others
  · rw [haccount,h.served]
    simp [servedOps,hop]
  · rw [haccount]
    exact hqueued.2
  · exact fun q hq => h.single q (hqueue ▸ List.mem_cons_of_mem p hq)
  · rw [hresults,hop]
    rfl

theorem step_tracked {a : Action} (h : Tracked documents users docId userId db w)
    (hno : NoConflict w) (hstep : step docId userId w a = some next)
    (hin : InStep docId db w a) :
    Tracked documents users docId userId db next ∧ NoConflict next := by
  cases a with
  | act e =>
    simp only [step] at hstep
    split at hstep
    · next hlocal =>
      cases hstep
      exact ⟨act_tracked h hlocal hin,hno⟩
    · cases hstep
  | serve =>
    simp only [step] at hstep
    split at hstep
    · cases hstep
    · next p rest hqueue =>
      cases hstep
      obtain ⟨htracked,hall⟩ := serve_tracked h hqueue hin
      refine ⟨htracked,fun s hs => ?_⟩
      rcases List.mem_append.mp hs with hs | hs
      · exact hno s hs
      · rw [List.mem_singleton.mp hs]
        exact hall
  | ack i =>
    obtain ⟨s,_,rfl⟩ := Option.map_eq_some_iff.mp hstep
    exact ⟨⟨h.reachable,h.document,h.user,h.others,h.served,h.queued,h.single⟩,hno⟩
  | echo i streamId =>
    obtain ⟨posted,_,rfl⟩ := Option.map_eq_some_iff.mp hstep
    exact ⟨⟨h.reachable,h.document,h.user,h.others,h.served,h.queued,h.single⟩,hno⟩

/-- As long as a lone writer is in step, every operation that it enqueues is
applied, whenever its acks and echoes arrive. -/
theorem no_conflict_if_in_step (hreach : Reachable documents users db)
    (hdoc : docId ∈ db.documents) (huser : userId ∈ db.users) (blocks : List Block)
    (lastStreamId : StreamId) {actions : List Action}
    (h : Along (step docId userId) (InStep docId db) (.start db docId blocks lastStreamId)
      actions) :
    Throughout (step docId userId) NoConflict (.start db docId blocks lastStreamId) actions := by
  have hstart : Tracked documents users docId userId db
      (.start db docId blocks lastStreamId) ∧ NoConflict (.start db docId blocks lastStreamId) :=
    ⟨⟨hreach,hdoc,huser,rfl,rfl,trivial,nofun⟩,nofun⟩
  have hrun : Throughout (step docId userId)
      (fun w => Tracked documents users docId userId db w ∧ NoConflict w)
      (.start db docId blocks lastStreamId) actions :=
    throughout_of_along (fun _ _ _ hw hstep hin => step_tracked hw.1 hw.2 hstep hin) hstart h
  exact throughout_mono (fun _ hw => hw.2) hrun

/-- A condition that can be computed: every rank is short and all attributes can be merged. -/
def Spacious (docId : DocId) (db : Database) (w : World) : Action → Prop
  | .act e => Informed docId db (account docId db w) w.store.blocks e
  | .serve => Airy w.db.blocks ∧ ∀ r ∈ w.db.blocks.rows,
      (ApplyOps.attrsOf r.content).toOption.any (fun _ => true) = true
  | _ => True

noncomputable instance (docId : DocId) (db : Database) (w : World) :
    ∀ a, Decidable (Spacious docId db w a)
  | .act e => inferInstanceAs (Decidable (Informed docId db (account docId db w) w.store.blocks e))
  | .serve => inferInstanceAs (Decidable (_ ∧ ∀ r ∈ w.db.blocks.rows, _))
  | .ack _ => isTrue trivial
  | .echo _ _ => isTrue trivial

theorem spacious_inStep {a : Action} (h : Spacious docId db w a) : InStep docId db w a := by
  cases a with
  | act e => exact h
  | serve =>
    intro p _ op _ b _
    split
    · exact fun _ _ _ _ => airy_roomy h.1
    · exact fun _ _ _ _ => airy_roomy h.1
    · intro r hr
      obtain ⟨attrs,hattrs,_⟩ := ok_of_any (h.2 r ((find_some_iff _ _ _ _).mp hr).1)
      exact ⟨attrs,hattrs⟩
    · trivial
  | ack i => trivial
  | echo i streamId => trivial

def checkbox : Database := settle 1 1 (.initial [1] [1])
  [{ op := .insert_block, blockId := .uuid 7, payload := { type := some "todo" } }]

def loaded : World := .start checkbox 1 (checkbox.blocks.rows.map rowToBlock) (toLex (0,0))

def ticked (b : Uuid) (checked : Bool) : Action := .act (.updateAttrs b [("checked",.bool checked)])

/-- A second checkbox is inserted, and both are ticked before the first batch is
served. The acks come late and out of order. -/
def twoCheckboxes : List Action :=
  [.act (.insertBlock 8 "todo" none (some 7) none),ticked 7 true,ticked 8 true,.serve,.serve,
    .ack 1,ticked 7 false,.serve,.echo 0 none,.ack 0,.ack 2,.act (.moveBlock 8 none none),
    .serve,.serve,.ack 4,.ack 3,ticked 7 true,.act (.deleteBlock 8),.serve,.serve]

theorem no_conflict_if_in_step_two_checkboxes :
    Throughout (step 1 1) NoConflict loaded twoCheckboxes ∧
      (exec (step 1 1) loaded twoCheckboxes).any (fun w => w.served.length = 7) = true := by
  have hreach : Reachable [1] [1] checkbox := settle_reachable .initial 1 1 _
  have hin : Along (step 1 1) (Spacious 1 checkbox) loaded twoCheckboxes := by decide +kernel
  refine ⟨no_conflict_if_in_step hreach (by decide +kernel) (by decide +kernel) _ _ ?_,
    by decide +kernel⟩
  exact along_mono (fun _ _ => spacious_inStep) hin

/-! ## Two actions on one block -/

def touches (b : Uuid) : ClientEvent → Bool
  | .deleteBlock blockId => blockId = b
  | .moveBlock blockId _ _ => blockId = b
  | .updateAttrs blockId _ => blockId = b
  | _ => false

theorem sent_versioned {s : Store} {e : ClientEvent} {op : BlockOperation} {b : Uuid}
    (htouch : touches b e = true) (h : Enqueues s e op) :
    ∃ v, versionOf s.blocks b = some v ∧ op.blockId = .uuid b ∧ Versioned op v := by
  cases e with
  | deleteBlock blockId =>
    obtain rfl := of_decide_eq_true htouch
    obtain ⟨existing,hget,rfl⟩ := sent_delete h
    exact ⟨existing.version,by rw [versionOf,hget,Option.map_some],rfl,rfl,Or.inl rfl⟩
  | moveBlock blockId parentId afterId =>
    obtain rfl := of_decide_eq_true htouch
    obtain ⟨existing,hget,rfl⟩ := sent_move h
    exact ⟨existing.version,by rw [versionOf,hget,Option.map_some],rfl,rfl,Or.inr (Or.inl rfl)⟩
  | updateAttrs blockId attrs =>
    obtain rfl := of_decide_eq_true htouch
    obtain ⟨existing,hget,rfl⟩ := sent_attrs h
    exact ⟨existing.version,by rw [versionOf,hget,Option.map_some],rfl,rfl,Or.inr (Or.inr rfl)⟩
  | _ => cases htouch

theorem touched_version {account : Account} {blocks : Blocks} {e : ClientEvent} {b : Uuid}
    (htouch : touches b e = true) (h : Informed docId db account blocks e) {v : ℤ}
    (hv : versionOf blocks b = some v) : ∀ entry ∈ account b, v = entry.version := by
  intro entry hentry
  obtain ⟨r,hr,rfl⟩ := Option.map_eq_some_iff.mp hv
  cases e with
  | deleteBlock blockId =>
    obtain rfl := of_decide_eq_true htouch
    exact h r hr entry hentry
  | moveBlock blockId parentId afterId =>
    obtain rfl := of_decide_eq_true htouch
    obtain ⟨⟨known,hknown,hversion⟩,_⟩ := h r hr
    cases (Option.mem_def.mp hentry).symm.trans hknown
    exact hversion
  | updateAttrs blockId attrs =>
    obtain rfl := of_decide_eq_true htouch
    obtain ⟨known,hknown,hversion⟩ := h r hr
    cases (Option.mem_def.mp hentry).symm.trans hknown
    exact hversion
  | _ => cases htouch

/-- A move or an update of attributes leaves the account one version on. -/
theorem raised_account {account : Account} {op : BlockOperation} {b : Uuid} {v : ℤ}
    (hsuits : Suits docId db account op) (hid : op.blockId = .uuid b) (hversion : Versioned op v)
    (hkept : op.op ≠ .delete_block) : ∃ entry ∈ enter account op b, entry.version = v+1 := by
  obtain ⟨c,hc,hsuits⟩ := hsuits
  cases hid.symm.trans hc
  have hentry : ∃ entry ∈ account b, entry.version = v := by
    rcases hversion.2 with hop | hop | hop
    · exact absurd hop hkept
    · rw [hop] at hsuits
      obtain ⟨entry,hentry,hv⟩ := hsuits.1
      exact ⟨entry,hentry,hv v hversion.1⟩
    · rw [hop] at hsuits
      obtain ⟨entry,hentry,hv⟩ := hsuits
      exact ⟨entry,hentry,hv v hversion.1⟩
  obtain ⟨entry,hentry,rfl⟩ := hentry
  rcases hversion.2 with hop | hop | hop
  · exact absurd hop hkept
  · refine ⟨raise { entry with parentId := named op.payload.parentId },?_,rfl⟩
    simp only [enter,hid,hop,Option.mem_def.mp hentry,Function.update_self,Option.map_some,
      Option.mem_def]
  · refine ⟨raise entry,?_,rfl⟩
    simp only [enter,hid,hop,Option.mem_def.mp hentry,Function.update_self,Option.map_some,
      Option.mem_def]

/-- After a move or an update of a block, the next action on it is out of step
until an ack or an echo of the first arrives: the record keeps its version. -/
theorem second_out_of_step {e e' : ClientEvent} {op : BlockOperation} {b : Uuid}
    (hin : InStep docId db w (.act e)) (hstep : step docId userId w (.act e) = some next)
    (htouch : touches b e = true) (hop : Enqueues w.store e op) (hkept : op.op ≠ .delete_block)
    (htouch' : touches b e' = true) : ¬ InStep docId db next (.act e') := by
  obtain ⟨v,hv,hid,hversion⟩ := sent_versioned htouch hop
  simp only [step] at hstep
  split at hstep
  · next hlocal =>
    cases hstep
    have hsame : versionOf (clientStep w.store e).blocks b = some v := by
      rcases versionOf_local hop b with hsame | ⟨hins,_⟩ | ⟨hdel,_⟩
      · exact hsame.trans hv
      · rcases hversion.2 with hk | hk | hk <;> cases hins.symm.trans hk
      · exact absurd hdel hkept
    obtain ⟨entry,hentry,hraised⟩ :=
      raised_account (sent_suits hin hlocal hop) hid hversion hkept
    intro hin'
    have hclash := touched_version htouch' hin' hsame entry (by
      rw [account,queuedOps,List.flatMap_append,sentBy,hop,List.drop_left,← List.append_assoc,
        List.foldl_append]
      exact hentry)
    omega
  · cases hstep

/-- The second update is refused. -/
theorem untick_conflicts : ¬ Throughout (step 1 1) NoConflict loaded
    [ticked 7 true,ticked 7 false,.serve,.serve] := by
  intro h
  have hrun : ((exec (step 1 1) loaded [ticked 7 true,ticked 7 false,.serve,.serve]).any
      (fun w => w.served.any (fun s => s.posted.any (fun posted =>
        posted.results.any (fun r => r.status = .conflict))))) = true := by
    decide +kernel
  obtain ⟨w,hw,hfacts⟩ := (Option.any_eq_true _ _).mp hrun
  obtain ⟨s,hs,hposted⟩ := List.any_eq_true.mp hfacts
  obtain ⟨posted,hposted,hresults⟩ := (Option.any_eq_true _ _).mp hposted
  obtain ⟨r,hr,hconflict⟩ := List.any_eq_true.mp hresults
  obtain ⟨posted',hsame,happlied⟩ :=
    throughout_iff_prefixes.mp h _ (List.prefix_refl _) w hw s hs
  cases hposted.symm.trans hsame
  have hstatus : r.status ∈ List.replicate s.batch.ops.length OpStatus.applied :=
    happlied ▸ List.mem_map_of_mem hr
  cases (of_decide_eq_true hconflict).symm.trans (List.eq_of_mem_replicate hstatus)

end BlockDocs.LoneWriter
