import BlockDocs.ApplyOps

/-!
# Histories of applied operations

The version of a block through a sequence of operations that the server
applies one after the other: set by an insert, raised by one by a move or an
update, gone after a delete or a cascade.
-/

set_option autoImplicit false

namespace BlockDocs.AppliedHistory
open BlockDocs.Wire BlockDocs.DocBlocks BlockDocs.ApplyOps

structure Sent where
  mine : Bool
  userId : UserId
  op : BlockOperation

def runAll (docId : DocId) : Database → List Sent → Option (List AppliedOp × Database)
  | db, [] => some ([],db)
  | db, s::ss =>
    match applyOp db docId s.userId s.op with
    | .error _ => none
    | .ok (a,next) => (runAll docId next ss).map (fun r => (a::r.1,r.2))

def inserts (a : AppliedOp) (b : Uuid) : Bool :=
  a.blockId = b && match a.payload with
    | .insert _ _ _ _ _ => true
    | _ => false

def deletes (a : AppliedOp) (b : Uuid) : Bool :=
  a.blockId = b && match a.payload with
    | .delete => true
    | _ => false

def raises (a : AppliedOp) (b : Uuid) : Bool :=
  a.blockId = b && match a.payload with
    | .insert _ _ _ _ _ => false
    | .delete => false
    | _ => true

def serverVersion (db : Database) (docId : DocId) (b : Uuid) : Option ℤ :=
  (db.blocks.find docId b).map BlockRow.version

/-- What one applied operation does to the version of one block. -/
def VersionStep (a : AppliedOp) (b : Uuid) (old new : Option ℤ) : Prop :=
  if inserts a b then new = some 1 ∧ a.newVersion = 1
  else if raises a b then new = some a.newVersion ∧ old = some (a.newVersion-1)
  else if deletes a b then new = none
  else new = old ∨ new = none

variable {docId : DocId}

theorem version_setRow {db next : Database} {row : BlockRow} {f : BlockRow → BlockRow}
    (hrow : row ∈ db.blocks.rows) (hdoc : row.docId = docId)
    (h : next.blocks.rows = setRow docId row.blockId f db.blocks.rows)
    (hf : ∀ r, (f r).docId = r.docId ∧ (f r).blockId = r.blockId)
    (hv : (f row).version = row.version+1) (b : Uuid) : serverVersion next docId b =
      if b = row.blockId then some (row.version+1) else serverVersion db docId b := by
  have hfind := (find_some_iff db.blocks docId row.blockId row).mpr ⟨hrow,hdoc,rfl⟩
  rw [serverVersion,find_setRow h hf,hfind]
  by_cases hb : b = row.blockId
  · simp [hb,hv]
  · simp [hb,serverVersion]

/-- A step that raises the version of one row and leaves the others. -/
theorem raised_step {db next : Database} {row : BlockRow} {a : AppliedOp}
    (hrow : row ∈ db.blocks.rows) (hdoc : row.docId = docId)
    (hnext : ∀ b, serverVersion next docId b =
      if b = row.blockId then some (row.version+1) else serverVersion db docId b)
    (hid : a.blockId = row.blockId) (hversion : a.newVersion = row.version+1)
    (hkind : ∀ b, inserts a b = false ∧ deletes a b = false ∧ raises a b = (a.blockId = b : Bool))
    (b : Uuid) : VersionStep a b (serverVersion db docId b) (serverVersion next docId b) := by
  obtain ⟨hinsert,hdelete,hraise⟩ := hkind b
  have hfind := (find_some_iff db.blocks docId row.blockId row).mpr ⟨hrow,hdoc,rfl⟩
  rw [VersionStep,hinsert,hdelete,hraise,hnext b,hid]
  by_cases hb : row.blockId = b
  · subst hb
    simp [serverVersion,hfind,hversion]
  · simp [hb,Ne.symm hb]

theorem version_step {db next : Database} {userId : UserId} {op : BlockOperation} {a : AppliedOp}
    (h : applyOp db docId userId op = .ok (a,next)) (b : Uuid) :
    VersionStep a b (serverVersion db docId b) (serverVersion next docId b) := by
  cases applyOp_applied h with
  | @insert blockId parentId afterId depth position t _ _ _ _ _ _ _ hwrite _ =>
    have hfind : t.find docId b = if b = blockId then
        some (insertedRow docId blockId op.payload parentId position depth)
          else db.blocks.find docId b := find_append (write_rows hwrite) b
    by_cases hb : b = blockId
    · subst hb
      simp [VersionStep,inserts,insertOutcome,insertedRow,serverVersion,hfind]
    · simp [VersionStep,inserts,raises,deletes,insertOutcome,insertedRow,serverVersion,hfind,hb,
        Ne.symm hb]
  | @gone blockId _ _ hnone =>
    by_cases hb : b = blockId
    · subst hb
      simp [VersionStep,inserts,raises,deletes,deleteOutcome,serverVersion,hnone]
    · simp [VersionStep,inserts,raises,deletes,deleteOutcome,Ne.symm hb]
  | @delete row _ _ hrow hdoc _ =>
    by_cases hb : b = row.blockId
    · subst hb
      simp [VersionStep,inserts,raises,deletes,deleteOutcome,serverVersion,find_deleted]
    · have hkept := find_delete db.blocks docId row hrow b
      simp only [VersionStep,inserts,raises,deletes,deleteOutcome,Ne.symm hb,decide_false,
        Bool.false_and,Bool.false_eq_true,if_false,serverVersion]
      exact hkept.imp (congrArg _) (congrArg _)
  | move _ _ _ _ hrow hdoc _ _ _ hwrite _ =>
    apply raised_step hrow hdoc _ rfl rfl _ b
    · exact version_setRow hrow hdoc (write_rows hwrite) (fun _ => ⟨rfl,rfl⟩) rfl
    · intro b; simp [inserts,raises,deletes,moveOutcome]
  | attrs _ _ hrow hdoc _ _ _ =>
    apply raised_step hrow hdoc _ rfl rfl _ b
    · exact version_setRow hrow hdoc rfl (fun _ => ⟨rfl,rfl⟩) rfl
    · intro b; simp [inserts,raises,deletes,updateOutcome]
  | content _ _ hrow hdoc _ =>
    apply raised_step hrow hdoc _ rfl rfl _ b
    · exact version_setRow hrow hdoc rfl (fun _ => ⟨rfl,rfl⟩) rfl
    · intro b; simp [inserts,raises,deletes,updateOutcome]

theorem insert_version {a : AppliedOp} {b : Uuid} {old : Option ℤ} {u : ℤ}
    (h : VersionStep a b old (some u)) (hinsert : inserts a b = true) : u = 1 := by
  rw [VersionStep,if_pos hinsert] at h
  exact Option.some.inj h.1

/-- A step on a block that stays live reports the version that the block has then. -/
theorem written_version {a : AppliedOp} {b : Uuid} {old : Option ℤ} {u : ℤ}
    (h : VersionStep a b old (some u)) (hid : a.blockId = b) : a.newVersion = u := by
  by_cases hinsert : inserts a b = true
  · rw [VersionStep,if_pos hinsert] at h
    exact h.2.trans (Option.some.inj h.1).symm
  · by_cases hraise : raises a b = true
    · rw [VersionStep,if_neg hinsert,if_pos hraise] at h
      exact (Option.some.inj h.1).symm
    · have hdelete : deletes a b = true := by
        cases hp : a.payload <;> simp_all [inserts,raises,deletes]
      rw [VersionStep,if_neg hinsert,if_neg hraise,if_pos hdelete] at h
      cases h

theorem inserts_of_op {db next : Database} {userId : UserId} {op : BlockOperation} {a : AppliedOp}
    (h : applyOp db docId userId op = .ok (a,next)) (hop : op.op = .insert_block) {b : Uuid}
    (hid : op.blockId = .uuid b) : inserts a b = true := by
  cases applyOp_applied h with
  | insert _ hid' =>
    cases hid.symm.trans hid'
    simp [inserts,insertOutcome,insertedRow]
  | _ hop' => exact absurd (hop.symm.trans hop') (by decide)

theorem deletes_of_op {db next : Database} {userId : UserId} {op : BlockOperation} {a : AppliedOp}
    (h : applyOp db docId userId op = .ok (a,next)) (hop : op.op = .delete_block) {b : Uuid}
    (hid : op.blockId = .uuid b) : deletes a b = true := by
  cases applyOp_applied h with
  | gone _ hid' =>
    cases hid.symm.trans hid'
    simp [deletes,deleteOutcome]
  | delete _ hid' =>
    cases hid.symm.trans hid'
    simp [deletes,deleteOutcome]
  | _ hop' => exact absurd (hop.symm.trans hop') (by decide)

/-! ## The version along a history -/

def versionAt (docId : DocId) (db : Database) (sent : List Sent) (b : Uuid) (k : ℕ) : Option ℤ :=
  (runAll docId db (sent.take k)).bind (fun r => serverVersion r.2 docId b)

theorem runAll_split {db last : Database} {sent : List Sent} {applied : List AppliedOp}
    (h : runAll docId db sent = some (applied,last)) (k : ℕ) :
    ∃ mid, runAll docId db (sent.take k) = some (applied.take k,mid) ∧
      runAll docId mid (sent.drop k) = some (applied.drop k,last) := by
  induction sent generalizing db applied k with
  | nil =>
    cases h
    exact ⟨last,by simp [runAll],by simp [runAll]⟩
  | cons s ss ih =>
    cases k with
    | zero => exact ⟨db,rfl,h⟩
    | succ k =>
      simp only [runAll] at h
      split at h
      · cases h
      · next a next hop =>
        obtain ⟨⟨as,last'⟩,hrest,heq⟩ := Option.map_eq_some_iff.mp h
        cases heq
        obtain ⟨mid,hfirst,hsecond⟩ := ih hrest k
        refine ⟨mid,?_,hsecond⟩
        simp [runAll,hop,hfirst]

theorem runAll_length {db last : Database} {sent : List Sent} {applied : List AppliedOp}
    (h : runAll docId db sent = some (applied,last)) : applied.length = sent.length := by
  induction sent generalizing db applied with
  | nil => cases h; rfl
  | cons s ss ih =>
    simp only [runAll] at h
    split at h
    · cases h
    · obtain ⟨⟨as,last'⟩,hrest,heq⟩ := Option.map_eq_some_iff.mp h
      cases heq
      simp [ih hrest]

/-- The operation at an index, with the databases around it. -/
theorem runAll_at {db last : Database} {sent : List Sent} {applied : List AppliedOp}
    (h : runAll docId db sent = some (applied,last)) {k : ℕ} {a : AppliedOp}
    (ha : applied[k]? = some a) : ∃ s before after, sent[k]? = some s ∧
      applyOp before docId s.userId s.op = .ok (a,after) ∧
      runAll docId db (sent.take k) = some (applied.take k,before) ∧
      runAll docId db (sent.take (k+1)) = some (applied.take (k+1),after) := by
  obtain ⟨hk,hak⟩ := List.getElem?_eq_some_iff.mp ha
  have hks : k < sent.length := by
    rw [← runAll_length h]
    exact hk
  obtain ⟨after,hafter,_⟩ := runAll_split h (k+1)
  obtain ⟨before,hbefore,hone⟩ := runAll_split hafter k
  rw [List.take_take,List.take_take,Nat.min_eq_left (Nat.le_succ k)] at hbefore
  have hsent : (sent.take (k+1)).drop k = [sent[k]] := by
    rw [List.take_succ_eq_append_getElem hks,List.drop_left' (by simp; omega)]
  have happlied : (applied.take (k+1)).drop k = [a] := by
    rw [List.take_succ_eq_append_getElem hk,List.drop_left' (by simp; omega),hak]
  rw [hsent,happlied] at hone
  simp only [runAll] at hone
  split at hone
  · cases hone
  · next hop =>
    cases hone
    exact ⟨sent[k],before,_,List.getElem?_eq_getElem hks,hop,hbefore,hafter⟩

theorem versionAt_step {db last : Database} {sent : List Sent} {applied : List AppliedOp}
    (h : runAll docId db sent = some (applied,last)) {k : ℕ} {a : AppliedOp}
    (ha : applied[k]? = some a) (b : Uuid) :
    VersionStep a b (versionAt docId db sent b k) (versionAt docId db sent b (k+1)) := by
  obtain ⟨s,before,after,_,hop,hbefore,hafter⟩ := runAll_at h ha
  simp only [versionAt,hbefore,hafter,Option.bind_some]
  exact version_step hop b

def raisesOf (b : Uuid) (applied : List AppliedOp) : ℕ := applied.countP (fun a => raises a b)

/-- Without a later insert a live block was there before, and its version has
grown by the number of operations that raise it. -/
theorem version_since {applied : List AppliedOp} {b : Uuid} {V : ℕ → Option ℤ}
    (hstep : ∀ k a, applied[k]? = some a → VersionStep a b (V k) (V (k+1))) {k : ℕ}
    (hk : k ≤ applied.length) (hno : ∀ a ∈ applied.drop k, inserts a b = false) {v : ℤ}
    (hv : V applied.length = some v) :
    ∃ u, V k = some u ∧ v = u+raisesOf b (applied.drop k) := by
  obtain ⟨n,hn⟩ : ∃ n, applied.length = k+n := ⟨applied.length-k,by omega⟩
  induction n generalizing k with
  | zero =>
    have hend : k = applied.length := by omega
    subst hend
    exact ⟨v,hv,by simp [raisesOf]⟩
  | succ n ih =>
    have hlt : k < applied.length := by omega
    have hdrop : applied.drop k = applied[k]::applied.drop (k+1) := List.drop_eq_getElem_cons hlt
    rw [hdrop] at hno ⊢
    obtain ⟨u,hu,hsum⟩ := ih (by omega) (fun a ha => hno a (List.mem_cons_of_mem _ ha)) (by omega)
    have hone := hstep k applied[k] (List.getElem?_eq_getElem hlt)
    rw [VersionStep,hno _ List.mem_cons_self,hu] at hone
    have hcount : raisesOf b (applied[k]::applied.drop (k+1)) =
        raisesOf b (applied.drop (k+1))+if raises applied[k] b then 1 else 0 := List.countP_cons
    rw [hcount]
    by_cases hraise : raises applied[k] b = true
    · simp only [Bool.false_eq_true,if_false,hraise,if_true,Option.some.injEq] at hone ⊢
      refine ⟨_,hone.2,?_⟩
      push_cast
      omega
    · simp only [Bool.false_eq_true,if_false,hraise] at hone ⊢
      by_cases hdelete : deletes applied[k] b = true
      · simp [hdelete] at hone
      · simp only [hdelete,Bool.false_eq_true,if_false,reduceCtorEq,or_false] at hone
        exact ⟨u,hone.symm,hsum⟩

end BlockDocs.AppliedHistory
