import BlockDocs.DocumentFrame

/-!
# The account of a document

The parent and the version of every block follow from the operations alone. A
deletion takes the blocks below along. With each applied operation the rows of
the document change as the account does.
-/

set_option autoImplicit false

namespace BlockDocs.Accounts
open BlockDocs.Wire BlockDocs.DocBlocks BlockDocs.ApplyOps BlockDocs.Reachability
open BlockDocs.DocumentFrame

structure Entry where
  parentId : Option Uuid
  version : ℤ
  deriving DecidableEq

abbrev Account := Uuid → Option Entry

inductive Below (account : Account) (b : Uuid) : Uuid → Prop where
  | self : Below account b b
  | child {c p : Uuid} {v : ℤ} (h : account c = some ⟨some p,v⟩) (hp : Below account b p) :
      Below account b c

open Classical in
noncomputable def without (account : Account) (b : Uuid) : Account :=
  fun c => if Below account b c then none else account c

def raise (e : Entry) : Entry := { e with version := e.version+1 }

def named : IdField → Option Uuid
  | .uuid id => some id
  | _ => none

noncomputable def enter (account : Account) (op : BlockOperation) : Account :=
  match op.blockId with
  | .uuid b =>
    match op.op with
    | .insert_block => Function.update account b (some ⟨named op.payload.parentId,1⟩)
    | .delete_block => without account b
    | .move_block => Function.update account b
        ((account b).map (fun e => raise { e with parentId := named op.payload.parentId }))
    | _ => Function.update account b ((account b).map raise)
  | _ => account

def Known (account : Account) : Option Uuid → Prop
  | none => True
  | some b => (account b).isSome

/-! ## The account that the rows give -/

def entryOf (r : BlockRow) : Entry := ⟨r.parentId,r.version⟩

def accountOf (t : Table) (docId : DocId) : Account := fun b => (t.find docId b).map entryOf

variable {t next : Table} {docId : DocId} {userId : UserId} {b c : Uuid}

theorem named_ofOption (p : Option Uuid) : named (.ofOption p) = p := by
  cases p with
  | none => rfl
  | some id => rfl

theorem accountOf_some {e : Entry} (h : accountOf t docId b = some e) :
    ∃ r ∈ t.rows, r.docId = docId ∧ r.blockId = b ∧ entryOf r = e := by
  obtain ⟨r,hr,he⟩ := Option.map_eq_some_iff.mp h
  obtain ⟨hmem,hdoc,hid⟩ := (find_some_iff _ _ _ _).mp hr
  exact ⟨r,hmem,hdoc,hid,he⟩

theorem accountOf_row {r : BlockRow} (hr : r ∈ t.rows) (hdoc : r.docId = docId) :
    accountOf t docId r.blockId = some (entryOf r) := by
  rw [accountOf,(find_some_iff _ _ _ _).mpr ⟨hr,hdoc,rfl⟩,Option.map_some]

theorem accountOf_none : accountOf t docId b = none ↔ ¬ Present docId t b := by
  rw [accountOf,Option.map_eq_none_iff,find_none_iff]
  constructor
  · rintro h ⟨r,hr,hboth⟩
    exact h r hr hboth
  · exact fun h r hr hboth => h ⟨r,hr,hboth⟩

/-- The parent of a block is in the account as well. -/
theorem parent_known (hin : InDocument t.rows) {p : Uuid} {v : ℤ}
    (h : accountOf t docId c = some ⟨some p,v⟩) : (accountOf t docId p).isSome := by
  obtain ⟨r,hr,hdoc,_,he⟩ := accountOf_some h
  have hp : p ∈ r.parentId := congrArg Entry.parentId he
  obtain ⟨q,hq,rfl⟩ := t.parented r hr p hp
  rw [accountOf_row hq ((hin r hr _ hp q hq rfl).trans hdoc)]
  rfl

theorem below_absent (hin : InDocument t.rows) (hnone : accountOf t docId b = none)
    (h : Below (accountOf t docId) b c) : accountOf t docId c = none := by
  induction h with
  | self => exact hnone
  | child hentry _ ih =>
    have hparent := parent_known hin hentry
    rw [ih] at hparent
    cases hparent

theorem without_absent (hin : InDocument t.rows) (hnone : accountOf t docId b = none) :
    without (accountOf t docId) b = accountOf t docId := by
  funext c
  unfold without
  split
  · next h => exact (below_absent hin hnone h).symm
  · rfl

/-! ## The cascade -/

section Cascade

variable {row : BlockRow} (hin : InDocument t.rows) (hrow : row ∈ t.rows)
include hin

/-- A block below stays only if its parent does. -/
theorem below_deleted (h : Below (accountOf t docId) row.blockId c) :
    (t.delete row hrow).find docId c = none := by
  induction h with
  | self => exact find_deleted _ _ _ _
  | child hentry _ ih =>
    apply (find_none_iff _ _ _).mpr
    rintro r hr ⟨hdoc,rfl⟩
    have hmem := (delete_sublist _ row hrow).subset hr
    have hp := congrArg Entry.parentId
      (Option.some.inj ((accountOf_row hmem hdoc).symm.trans hentry))
    obtain ⟨q,hq,hid⟩ := (t.delete row hrow).parented r hr _ hp
    have hqdoc := hin r hmem _ hp q ((delete_sublist _ row hrow).subset hq) hid
    exact (find_none_iff _ _ _).mp ih q hq ⟨hqdoc.trans hdoc,hid⟩

theorem other_kept (hdoc : row.docId = docId)
    (h : ¬ Below (accountOf t docId) row.blockId c) :
    (t.delete row hrow).find docId c = t.find docId c := by
  classical
  let S : BlockRow → Prop :=
    fun r => r.docId = docId → ¬ Below (accountOf t docId) row.blockId r.blockId
  have hfilter : (t.delete row hrow).rows.filter S = t.rows.filter S := by
    apply cascade_outside _ _ _ t.keyed
    · intro b hb
      exact ⟨row,hrow,(List.mem_singleton.mp hb).symm,fun hS => hS hdoc .self⟩
    · intro r hr hS p hp q hq hid hqdoc hbelow
      have hrdoc : r.docId = docId := (hin r hr p hp q hq hid).symm.trans hqdoc
      refine hS hrdoc (.child (p := p) (v := r.version) ?_ (hid ▸ hbelow))
      rw [accountOf_row hr hrdoc,entryOf,Option.mem_def.mp hp]
  rcases find_delete t docId row hrow c with hsame | hnone
  · exact hsame
  · rw [hnone]
    refine ((find_none_iff _ _ _).mpr ?_).symm
    rintro r hr ⟨hrdoc,rfl⟩
    have hstays : r ∈ (t.delete row hrow).rows.filter S := by
      rw [hfilter]
      exact List.mem_filter.mpr ⟨hr,decide_eq_true (fun _ => h)⟩
    exact (find_none_iff _ _ _).mp hnone r (List.mem_filter.mp hstays).1 ⟨hrdoc,rfl⟩

theorem account_deleted (hdoc : row.docId = docId) :
    (fun c => ((t.delete row hrow).find docId c).map entryOf) =
      without (accountOf t docId) row.blockId := by
  funext c
  unfold without
  split
  · next h => rw [below_deleted hin hrow h,Option.map_none]
  · next h => rw [other_kept hin hrow hdoc h,accountOf]

end Cascade

/-! ## One applied operation -/

theorem account_setRow {row : BlockRow} {f : BlockRow → BlockRow} (hrow : row ∈ t.rows)
    (hdoc : row.docId = docId) (h : next.rows = setRow docId row.blockId f t.rows)
    (hf : ∀ r, (f r).docId = r.docId ∧ (f r).blockId = r.blockId) :
    accountOf next docId =
      Function.update (accountOf t docId) row.blockId (some (entryOf (f row))) := by
  funext c
  have hfind := (find_some_iff t docId row.blockId row).mpr ⟨hrow,hdoc,rfl⟩
  rw [accountOf,find_setRow h hf,hfind,Function.update_apply]
  split
  · rfl
  · rfl

theorem applied_account {db after : Database} {op : BlockOperation} {a : AppliedOp}
    (hin : InDocument db.blocks.rows) (h : Applied db docId userId op a after) :
    accountOf after.blocks docId = enter (accountOf db.blocks docId) op := by
  cases h with
  | @insert blockId parentId afterId depth position t hop hid hparent _ _ _ _ hwrite _ =>
    funext c
    have hfind : t.find docId c = if c = blockId then
        some (insertedRow docId blockId op.payload parentId position depth)
          else db.blocks.find docId c := find_append (write_rows hwrite) c
    simp only [enter,hid,hop,read_ok.mp hparent,named_ofOption,accountOf,hfind,
      Function.update_apply]
    split
    · rfl
    · rfl
  | gone hop hid hnone =>
    simp only [enter,hid,hop]
    exact (without_absent hin (by rw [accountOf,hnone,Option.map_none])).symm
  | delete hop hid hrow hdoc _ =>
    simp only [enter,hid,hop]
    exact account_deleted hin hrow hdoc
  | move hop hid hparent _ hrow hdoc _ _ _ hwrite _ =>
    simp only [enter,hid,hop,read_ok.mp hparent,named_ofOption,accountOf_row hrow hdoc,
      Option.map_some]
    exact account_setRow hrow hdoc (write_rows hwrite) (fun _ => ⟨rfl,rfl⟩)
  | @attrs row content hop hid hrow hdoc _ _ _ =>
    simp only [enter,hid,hop,accountOf_row hrow hdoc,Option.map_some]
    exact account_setRow hrow hdoc (f := contentRow content (row.version+1)) rfl
      (fun _ => ⟨rfl,rfl⟩)
  | @content row hop hid hrow hdoc _ =>
    simp only [enter,hid,hop,accountOf_row hrow hdoc,Option.map_some]
    exact account_setRow hrow hdoc
      (f := contentRow (op.payload.content.getD []) (row.version+1)) rfl (fun _ => ⟨rfl,rfl⟩)

end BlockDocs.Accounts
