import BlockDocs.Acceptance
import BlockDocs.AppliedHistory
import BlockDocs.GuardedRun
import BlockDocs.PostOperations

/-!
# Batches that arrive again

A batch without an answer is sent again after a reconnect. The database of the
run is kept beside the one that saw every batch once.
-/

set_option autoImplicit false

namespace BlockDocs.Redelivery
open BlockDocs.Wire BlockDocs.DocBlocks BlockDocs.ApplyOps BlockDocs.Acceptance
open BlockDocs.PostOperations BlockDocs.AppliedHistory BlockDocs.GuardedRun

structure Batch where
  userId : UserId
  ops : List BlockOperation

/-- `clean` is the database without the repeated deliveries. -/
structure World where
  db : Database
  clean : Database
  batches : List Batch

inductive Action where
  | first (batch : Batch)
  | again (i : ℕ)

def Action.isFirst : Action → Bool
  | .first _ => true
  | .again _ => false

def World.start (db : Database) : World := ⟨db,db,[]⟩

def deliver (docId : DocId) (db : Database) (batch : Batch) : Database :=
  match postOperations db docId batch.userId batch.ops with
  | some posted => posted.database
  | none => db

def step (docId : DocId) (w : World) : Action → Option World
  | .first batch => some
      ⟨deliver docId w.db batch,deliver docId w.clean batch,w.batches++[batch]⟩
  | .again i => w.batches[i]?.map (fun batch => { w with db := deliver docId w.db batch })

def SameLive (docId : DocId) (w : World) : Prop :=
  ∀ b, Present docId w.db.blocks b ↔ Present docId w.clean.blocks b

/-- The operation would be applied, and not as a delete of a block that is gone. -/
def TakesHold (db : Database) (docId : DocId) (userId : UserId) (op : BlockOperation) : Prop :=
  Welcome db docId userId op ∧
    (op.op = .delete_block → ∃ b, op.blockId = .uuid b ∧ Present docId db.blocks b)

/-- No operation of a repeated batch finds a database that it would change. -/
def Spent (docId : DocId) (w : World) : Action → Prop
  | .first _ => True
  | .again i => ∀ batch, w.batches[i]? = some batch →
      ∀ op ∈ batch.ops, ¬ TakesHold w.db docId batch.userId op

variable {docId : DocId} {userId : UserId}

/-- The comparison database is that of the run without its repetitions. -/
theorem clean_is_first_run {actions : List Action} {w last : World}
    (h : exec (step docId) w actions = some last) :
    exec (step docId) ⟨w.clean,w.clean,w.batches⟩ (actions.filter Action.isFirst) =
      some ⟨last.clean,last.clean,last.batches⟩ := by
  induction actions generalizing w with
  | nil =>
    cases h
    rfl
  | cons a actions ih =>
    obtain ⟨mid,hmid,hrest⟩ := Option.bind_eq_some_iff.mp h
    have hlast := ih hrest
    cases a with
    | first batch =>
      cases hmid
      exact hlast
    | again i =>
      obtain ⟨batch,_,rfl⟩ := Option.map_eq_some_iff.mp hmid
      exact hlast

theorem unchanged_of_spent {db : Database} {op : BlockOperation}
    (h : ¬ TakesHold db docId userId op) : settle docId userId db [op] = db := by
  cases hop : applyOp db docId userId op with
  | error e => simp only [settle,hop]
  | ok r =>
    obtain ⟨a,next⟩ := r
    have hwelcome := applyOp_ok_iff.mp ⟨_,hop⟩
    simp only [settle,hop]
    cases applyOp_applied hop with
    | gone => rfl
    | delete _ hid hrow hdoc _ => exact absurd ⟨hwelcome,fun _ => ⟨_,hid,_,hrow,hdoc,rfl⟩⟩ h
    | _ hop' =>
      refine absurd ⟨hwelcome,fun hdel => ?_⟩ h
      cases hop'.symm.trans hdel

theorem settle_cons (db : Database) (op : BlockOperation) (ops : List BlockOperation) :
    settle docId userId db (op::ops) = settle docId userId (settle docId userId db [op]) ops := by
  cases hop : applyOp db docId userId op with
  | error e => simp only [settle,hop]
  | ok r => simp only [settle,hop]

theorem settle_spent {db : Database} {ops : List BlockOperation}
    (h : ∀ op ∈ ops, ¬ TakesHold db docId userId op) : settle docId userId db ops = db := by
  induction ops with
  | nil => rfl
  | cons op ops ih =>
    rw [settle_cons,unchanged_of_spent (h op List.mem_cons_self)]
    exact ih (fun o ho => h o (List.mem_cons_of_mem _ ho))

theorem deliver_spent {db : Database} {batch : Batch}
    (h : ∀ op ∈ batch.ops, ¬ TakesHold db docId batch.userId op) :
    deliver docId db batch = db := by
  obtain ⟨userId,ops⟩ := batch
  unfold deliver
  split
  · next posted hposted =>
    obtain ⟨⟨outcomes,tx⟩,hall,heq⟩ := Option.bind_eq_some_iff.mp hposted
    cases heq
    have hended := (applyAll_ended hall).1
    cases hended with
    | sound _ => exact settle_spent h
    | failed _ => rfl
  · rfl

theorem same_step {w next : World} {a : Action} (hsame : w.db = w.clean) (hspent : Spent docId w a)
    (h : step docId w a = some next) : next.db = next.clean := by
  cases a with
  | first batch =>
    cases h
    exact congrArg (deliver docId · batch) hsame
  | again i =>
    obtain ⟨batch,hbatch,rfl⟩ := Option.map_eq_some_iff.mp h
    exact (deliver_spent (hspent batch hbatch)).trans hsame

/-- The live blocks are those of the run without its repetitions, if every
repeated batch finds its operations spent. -/
theorem live_same_if_spent (docId : DocId) (db : Database) (actions : List Action)
    (h : Along (step docId) (Spent docId) (.start db) actions) :
    Throughout (step docId) (SameLive docId) (.start db) actions := by
  have hsame : Throughout (step docId) (fun w => w.db = w.clean) (.start db) actions :=
    throughout_of_along (fun _ _ _ hw hs hc => same_step hw hc hs) rfl h
  exact throughout_mono (fun w hw b => by rw [hw]) hsame

def insertion : Batch := ⟨1,[insertUnder 7 none]⟩

theorem live_same_if_spent_one_insert :
    Throughout (step 1) (SameLive 1) (.start (.initial [1] [1,2])) [.first insertion,.again 0] := by
  have htaken : Present 1 (deliver 1 (.initial [1] [1,2]) insertion).blocks 7 := by decide +kernel
  apply live_same_if_spent
  rintro w hw
  cases hw
  refine ⟨trivial,fun _ _ => ⟨fun batch hbatch op hop => ?_,trivial⟩⟩
  cases hbatch
  cases List.mem_singleton.mp hop
  rintro ⟨⟨b,hb,hfresh,_⟩,_⟩
  cases hb
  obtain ⟨r,hr,_,hid⟩ := htaken
  exact hfresh r hr hid

/-! ## The condition is exact for the batches of a client -/

/-- What shows that an operation has taken hold: the block was not there, is
not there any more, or is one version on. -/
inductive Marked (docId : DocId) (db next : Database) : Prop where
  | born (b : Uuid) (hbefore : ¬ Present docId db.blocks b) (hafter : Present docId next.blocks b)
  | died (b : Uuid) (hbefore : Present docId db.blocks b) (hafter : ¬ Present docId next.blocks b)
  | raised (r : BlockRow) (s : BlockRow) (hrow : db.blocks.find docId r.blockId = some r)
      (hnext : next.blocks.find docId r.blockId = some s) (hversion : s.version = r.version+1)

theorem marked_setRow {db next : Database} {row : BlockRow} {f : BlockRow → BlockRow}
    (hrow : row ∈ db.blocks.rows) (hdoc : row.docId = docId)
    (h : next.blocks.rows = setRow docId row.blockId f db.blocks.rows)
    (hf : ∀ r, (f r).docId = r.docId ∧ (f r).blockId = r.blockId)
    (hversion : (f row).version = row.version+1) : Marked docId db next := by
  have hold := (find_some_iff _ _ _ _).mpr ⟨hrow,hdoc,rfl⟩
  have hnew := find_setRow h hf row.blockId
  rw [if_pos rfl,hold] at hnew
  exact .raised row (f row) hold hnew hversion

theorem takesHold_marked {db next : Database} {op : BlockOperation} {a : AppliedOp}
    (h : applyOp db docId userId op = .ok (a,next)) (hhold : TakesHold db docId userId op) :
    Marked docId db next := by
  cases applyOp_applied h with
  | @insert b _ _ _ _ t _ _ _ _ hfresh _ _ hwrite _ =>
    refine .born b (fun hp => ?_) ?_
    · obtain ⟨r,hr,_,hid⟩ := hp
      exact hfresh r hr hid
    · have hmem := write_rows hwrite ▸ List.mem_append_right _ List.mem_cons_self
      exact ⟨_,hmem,rfl,rfl⟩
  | gone hop hid hnone =>
    obtain ⟨b,hb,r,hr,hboth⟩ := hhold.2 hop
    cases hid.symm.trans hb
    exact absurd hboth ((find_none_iff _ _ _).mp hnone r hr)
  | @delete row _ _ hrow hdoc _ =>
    refine .died row.blockId ⟨row,hrow,hdoc,rfl⟩ ?_
    rintro ⟨s,hs,_,hid⟩
    exact delete_removes _ _ hrow hs hid
  | move _ _ _ _ hrow hdoc _ _ _ hwrite _ =>
    exact marked_setRow hrow hdoc (write_rows hwrite) (fun _ => ⟨rfl,rfl⟩) rfl
  | attrs _ _ hrow hdoc _ _ _ => exact marked_setRow hrow hdoc rfl (fun _ => ⟨rfl,rfl⟩) rfl
  | content _ _ hrow hdoc _ => exact marked_setRow hrow hdoc rfl (fun _ => ⟨rfl,rfl⟩) rfl

theorem deliver_one (db : Database) (op : BlockOperation) :
    deliver docId db ⟨userId,[op]⟩ = settle docId userId db [op] := by
  have hone : ∀ {o tx}, applyIn docId userId ⟨db,false⟩ op = some (o,tx) →
      postOperations db docId userId [op] =
        some ⟨commit db tx,[opResult o],[o].filterMap OpOutcome.wire⟩ := by
    intro o tx h
    simp only [postOperations,applyAll,h,Option.bind_eq_bind,Option.bind_some,Option.pure_def]
    rfl
  cases hop : applyOp db docId userId op with
  | ok r =>
    obtain ⟨a,next⟩ := r
    have hin : applyIn docId userId ⟨db,false⟩ op = some (.applied a,⟨next,false⟩) := by
      simp only [applyIn,hop,Bool.false_eq_true,if_false]
    simp only [deliver,hone hin,settle,hop,commit,Bool.false_eq_true,if_false]
  | error e =>
    simp only [settle,hop]
    cases e with
    | conflict c =>
      have hin : applyIn docId userId ⟨db,false⟩ op = some (.conflict c,⟨db,false⟩) := by
        simp only [applyIn,hop,Bool.false_eq_true,if_false]
      simp only [deliver,hone hin,commit,Bool.false_eq_true,if_false]
    | collision c =>
      have hin : applyIn docId userId ⟨db,false⟩ op = some (.conflict c,⟨db,true⟩) := by
        simp only [applyIn,hop,Bool.false_eq_true,if_false]
      simp only [deliver,hone hin,commit,if_true]
    | raised =>
      have hin : applyIn docId userId ⟨db,false⟩ op = none := by
        simp only [applyIn,hop,Bool.false_eq_true,if_false]
      simp only [deliver,postOperations,applyAll,hin,Option.bind_eq_bind,Option.bind_none]

def deleteAt (b : Uuid) (version : ℤ) : BlockOperation where
  op := .delete_block
  blockId := .uuid b
  version := some version

theorem deleted_at {db : Database} {r : BlockRow} (h : db.blocks.find docId r.blockId = some r) :
    ¬ Present docId (settle docId userId db [deleteAt r.blockId r.version]).blocks r.blockId := by
  obtain ⟨hrow,hdoc,_⟩ := (find_some_iff _ _ _ _).mp h
  have hwelcome : Welcome db docId userId (deleteAt r.blockId r.version) :=
    ⟨r.blockId,rfl,fun _ => ⟨r,hrow,hdoc,rfl,fun v hv => Option.some.inj hv⟩⟩
  obtain ⟨⟨a,next⟩,hop⟩ := applyOp_ok_iff.mpr hwelcome
  simp only [settle,hop]
  rintro ⟨s,hs,_,hid⟩
  cases applyOp_applied hop with
  | @gone b _ hb hnone =>
    cases hb
    exact absurd (h.symm.trans hnone) (by simp)
  | @delete row _ hb hrow' _ _ =>
    have hsame : r.blockId = row.blockId := IdField.uuid.inj hb
    exact delete_removes _ _ hrow' hs (hid.trans hsame)
  | _ hop' => cases hop'

theorem kept_at {db : Database} {r : BlockRow} {version : ℤ}
    (h : db.blocks.find docId r.blockId = some r) (hne : r.version ≠ version) :
    settle docId userId db [deleteAt r.blockId version] = db := by
  obtain ⟨hrow,hdoc,_⟩ := (find_some_iff _ _ _ _).mp h
  apply unchanged_of_spent
  rintro ⟨⟨b,hb,hversion⟩,_⟩
  cases hb
  obtain ⟨s,hs,_,hid,hv⟩ := hversion ⟨r,hrow,hdoc,rfl⟩
  cases row_unique db.blocks hrow hs hid.symm
  exact hne (hv version rfl)

/-- A repeated batch that takes hold shows in the live blocks, at once or when
another client deletes the block at the version it has seen. -/
theorem unspent_shows {w next : World} {i : ℕ} {op : BlockOperation} (hsame : w.db = w.clean)
    (hbatch : w.batches[i]? = some ⟨userId,[op]⟩) (hhold : TakesHold w.db docId userId op)
    (hstep : step docId w (.again i) = some next) :
    ∃ more, (∀ a ∈ more, a.isFirst = true) ∧
      ¬ Throughout (step docId) (SameLive docId) next more := by
  obtain ⟨⟨a,db⟩,hop⟩ := applyOp_ok_iff.mpr hhold.1
  have hnext : next = ⟨db,w.db,w.batches⟩ := by
    simp only [step,hbatch,Option.map_some,Option.some.injEq,deliver_one,settle,hop] at hstep
    rw [← hstep,hsame]
  subst hnext
  cases takesHold_marked hop hhold with
  | born b hbefore hafter =>
    exact ⟨[],by simp,fun hlive => hbefore ((hlive b).mp hafter)⟩
  | died b hbefore hafter =>
    exact ⟨[],by simp,fun hlive => hafter ((hlive b).mpr hbefore)⟩
  | raised r s hrow hrow' hversion =>
    obtain ⟨hmem,hdoc,_⟩ := (find_some_iff _ _ _ _).mp hrow
    have hid := ((find_some_iff _ _ _ _).mp hrow').2.2
    refine ⟨[.first ⟨userId,[deleteAt r.blockId s.version]⟩],by simp [Action.isFirst],?_⟩
    rintro ⟨_,hlive⟩
    have hend := hlive _ rfl
    simp only [Throughout,SameLive,deliver_one] at hend
    have hgone : ¬ Present docId
        (settle docId userId db [deleteAt r.blockId s.version]).blocks r.blockId := by
      rw [← hid] at hrow' ⊢
      exact deleted_at hrow'
    have hkept : settle docId userId w.db [deleteAt r.blockId s.version] = w.db :=
      kept_at hrow (by omega)
    exact hgone ((hend r.blockId).mpr (hkept.symm ▸ ⟨r,hmem,hdoc,rfl⟩))

theorem takesHold_version {db : Database} {op : BlockOperation} {b : Uuid} {v : ℤ}
    (hid : op.blockId = .uuid b) (hversion : Versioned op v)
    (h : TakesHold db docId userId op) : serverVersion db docId b = some v := by
  rcases welcome_at h.1 hid hversion with ⟨r,hr⟩ | ⟨hop,hgone⟩
  · exact serverVersion_at hr
  · obtain ⟨c,hc,hpresent⟩ := h.2 hop
    cases hid.symm.trans hc
    exact absurd hpresent hgone

theorem applied_version {db next : Database} {op : BlockOperation} {a : AppliedOp} {b : Uuid}
    {v : ℤ} (h : applyOp db docId userId op = .ok (a,next)) (hid : op.blockId = .uuid b)
    (hversion : Versioned op v) {u : ℤ} (hu : serverVersion next docId b = some u) :
    u = v+1 := by
  obtain ⟨hv,hkind⟩ := hversion
  have hstep := version_step h b
  rw [hu] at hstep
  have hwritten : a.blockId = b → a.newVersion = u := written_version hstep
  cases applyOp_applied h with
  | gone _ hid' hnone =>
    cases hid.symm.trans hid'
    simp [serverVersion,hnone] at hu
  | delete _ hid' hrow =>
    cases hid.symm.trans hid'
    simp [serverVersion,find_deleted] at hu
  | move _ hid' _ _ _ _ hrv =>
    cases hid.symm.trans hid'
    rw [← hwritten rfl,← hrv v hv]
    rfl
  | attrs _ hid' _ _ hrv =>
    cases hid.symm.trans hid'
    rw [← hwritten rfl,← hrv v hv]
    rfl
  | _ hop' => rcases hkind with hk | hk | hk <;> cases hop'.symm.trans hk

/-- What an operation with a version has done once, it does not do again before
its block is inserted again. -/
theorem spent_until_inserted {db mid last : Database} {op : BlockOperation} {a : AppliedOp}
    {b : Uuid} {v : ℤ} (hop : applyOp db docId userId op = .ok (a,mid))
    (hid : op.blockId = .uuid b) (hversion : Versioned op v) {sent : List Sent}
    {applied : List AppliedOp} (hrun : runAll docId mid sent = some (applied,last))
    (hno : ∀ a ∈ applied, inserts a b = false) : ¬ TakesHold last docId userId op := by
  intro hhold
  have hlast : versionAt docId mid sent b applied.length = some v := by
    rw [versionAt,runAll_length hrun,List.take_length,hrun,Option.bind_some]
    exact takesHold_version hid hversion hhold
  obtain ⟨u,hu,hsum⟩ := version_since (fun k a ha => versionAt_step hrun ha b) (Nat.zero_le _)
    (by simpa using hno) hlast
  have hmid : serverVersion mid docId b = some u := by
    rw [← hu,versionAt,List.take_zero]
    rfl
  have hnext := applied_version hop hid hversion hmid
  omega

/-! ## A repeated insert -/

def removal : Batch := ⟨2,[{ op := .delete_block, blockId := .uuid 7, version := some 1 }]⟩

/-- A deleted block comes back with the second delivery of its insert. -/
theorem deleted_block_returns : ¬ Throughout (step 1) (SameLive 1) (.start (.initial [1] [1,2]))
    [.first insertion,.first removal,.again 0] := by
  intro h
  have hrun : ((exec (step 1) (.start (.initial [1] [1,2]))
      [.first insertion,.first removal,.again 0]).any (fun w =>
        Present 1 w.db.blocks 7 ∧ ¬ Present 1 w.clean.blocks 7)) = true := by decide +kernel
  obtain ⟨w,hw,hfacts⟩ := (Option.any_eq_true _ _).mp hrun
  obtain ⟨hback,hgone⟩ := of_decide_eq_true hfacts
  exact hgone ((throughout_iff_prefixes.mp h _ (List.prefix_refl _) w hw 7).mp hback)

end BlockDocs.Redelivery
