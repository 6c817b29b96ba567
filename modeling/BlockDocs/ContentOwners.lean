import BlockDocs.Consumer
import BlockDocs.GuardedRun
import BlockDocs.PostOperations

/-!
# Two owners of one column

The attributes of a block belong to `update_attrs`, its text to the deltas. An
abstract record keeps both halves apart. The rows follow that record as long
as the consumer, which writes the whole column, finds no attributes there.
-/

set_option autoImplicit false

namespace BlockDocs.ContentOwners
open BlockDocs.InsertionMap BlockDocs.Wire BlockDocs.DocBlocks BlockDocs.ApplyOps
open BlockDocs.Crdt BlockDocs.Consumer BlockDocs.GuardedRun BlockDocs.PostOperations

/-- `attrs` are read as the merge of a patch reads them: missing ones are none. -/
structure Owned where
  attrs : Except Stop PyDict
  children : Option Json
  yjsState : Option Bytes
  lastAppliedStreamId : Option StreamId

def ownedOf (r : BlockRow) : Owned where
  attrs := attrsOf r.content
  children := lookup "children" r.content
  yjsState := r.yjsState
  lastAppliedStreamId := r.lastAppliedStreamId

def merged (attrs : PyDict) (patch : JsonObj) : PyDict := textDict (stored (patched attrs patch))

structure World where
  db : Database
  owned : Owned

inductive Action where
  | operation (docId : DocId) (userId : UserId) (op : BlockOperation)
  | entry (e : StreamEntry)

variable (py : Pycrdt) (docId : DocId) (b : Uuid)

def Rewrites (op : BlockOperation) : Prop :=
  op.blockId = .uuid b ∧
    (op.op = .insert_block ∨ op.op = .delete_block ∨ op.op = .update_content)

instance (op : BlockOperation) : Decidable (Rewrites b op) :=
  inferInstanceAs (Decidable (_ ∧ (_ ∨ _ ∨ _)))

def World.start (db : Database) : World where
  db := db
  owned := match db.blocks.find docId b with
    | some r => ownedOf r
    | none => ⟨.ok [],none,none,none⟩

def Owned.patch (o : Owned) (op : BlockOperation) : Owned :=
  if op.op = .update_attrs ∧ op.blockId = .uuid b then
    { o with attrs := o.attrs.map (fun attrs => merged attrs (op.payload.attrs.getD [])) }
  else o

def Owned.absorb (o : Owned) (e : StreamEntry) : Owned :=
  if Targets e b then
    match integrate py o.yjsState e.delta with
    | some (state,content) => { o with
        children := lookup "children" content
        yjsState := some state
        lastAppliedStreamId := some e.id }
    | none => o
  else o

/-- Runs end where the block is rewritten or gone. -/
def step (w : World) : Action → Option World
  | .operation d userId op =>
    if Rewrites b op then none
    else match applyOp w.db d userId op with
      | .ok (_,next) =>
        if Present docId next.blocks b then some ⟨next,w.owned.patch b op⟩ else none
      | .error _ => some w
  | .entry e =>
    match handleEntry py w.db.blocks docId e with
    | .updated t => some ⟨{ w.db with blocks := t },w.owned.absorb py b e⟩
    | _ => some w

def Separate (w : World) : Prop :=
  ∀ r, w.db.blocks.find docId b = some r → ownedOf r = w.owned

def BareDelta (w : World) : Action → Prop
  | .operation _ _ _ => True
  | .entry e => ∀ r, Integrates py w.db.blocks docId e r → r.blockId = b →
      attrsOf r.content = .ok []

variable {py docId b}

theorem mergeAttrs_ok {existing patch content : JsonObj}
    (h : mergeAttrs existing patch = .ok content) : ∃ attrs, attrsOf existing = .ok attrs ∧
      content = put "attrs" (.obj (stored (patched attrs patch))) existing := by
  obtain ⟨attrs,hattrs,hcontent⟩ := bind_ok.mp h
  exact ⟨attrs,hattrs,(Except.ok.inj hcontent).symm⟩

/-- An applied patch touches the attributes only. -/
theorem ownedOf_merged {row : BlockRow} {patch content : JsonObj} {version : ℤ}
    (h : mergeAttrs row.content patch = .ok content) :
    ownedOf (contentRow content version row) = { ownedOf row with
      attrs := (attrsOf row.content).map (fun attrs => merged attrs patch) } := by
  obtain ⟨attrs,hattrs,rfl⟩ := mergeAttrs_ok h
  have hchildren : lookup "children"
      (put "attrs" (.obj (stored (patched attrs patch))) row.content) =
        lookup "children" row.content := by
    rw [lookup_put]
    rfl
  have hnew : attrsOf (put "attrs" (.obj (stored (patched attrs patch))) row.content) =
      .ok (merged attrs patch) := by
    rw [attrsOf,lookup_put,if_pos rfl,merged]
  simp [ownedOf,contentRow,hchildren,hnew,hattrs,Except.map]

theorem patch_other (o : Owned) {op : BlockOperation}
    (h : ¬(op.op = .update_attrs ∧ op.blockId = .uuid b)) : o.patch b op = o := if_neg h

/-- An operation that writes one row shows in the owned parts of that row only. -/
theorem owned_setRow {rows : List BlockRow} (hkeyed : Keyed rows) {d : DocId} {row s : BlockRow}
    {f : BlockRow → BlockRow} {op : BlockOperation} (hrow : row ∈ rows) (hdoc : row.docId = d)
    (hop : op.blockId = .uuid row.blockId) (hf : (f row).blockId = row.blockId ∧
      (f row).docId = row.docId) (howned : ownedOf (f row) = (ownedOf row).patch row.blockId op)
    (hs : s ∈ setRow d row.blockId f rows) : ∃ r ∈ rows, r.blockId = s.blockId ∧
      r.docId = s.docId ∧ ownedOf s = (ownedOf r).patch s.blockId op := by
  obtain ⟨r,hr,rfl⟩ := mem_setRow.mp hs
  by_cases hid : r.blockId = row.blockId
  · have hsame : r = row := List.inj_on_of_nodup_map hkeyed hr hrow hid
    subst hsame
    rw [if_pos ⟨hdoc,rfl⟩]
    exact ⟨r,hr,hf.1.symm,hf.2.symm,hf.1 ▸ howned⟩
  · rw [if_neg (fun h => hid h.2)]
    refine ⟨r,hr,rfl,rfl,(patch_other _ ?_).symm⟩
    rintro ⟨_,hb⟩
    exact hid (IdField.uuid.inj (hb.symm.trans hop))

/-- The row of the block before an operation that does not rewrite it. -/
theorem owned_operation {db next : Database} {d : DocId} {userId : UserId} {op : BlockOperation}
    {a : AppliedOp} (h : Applied db d userId op a next) (hkeep : ¬ Rewrites b op) {s : BlockRow}
    (hs : s ∈ next.blocks.rows) (hb : s.blockId = b) : ∃ r ∈ db.blocks.rows,
      r.blockId = s.blockId ∧ r.docId = s.docId ∧ ownedOf s = (ownedOf r).patch b op := by
  subst hb
  cases h with
  | insert hop hid _ _ _ _ _ hwrite _ =>
    rw [write_rows hwrite] at hs
    rcases List.mem_append.mp hs with hs | hs
    · exact ⟨s,hs,rfl,rfl,(patch_other _ (by simp [hop])).symm⟩
    · rw [List.mem_singleton] at hs
      subst hs
      exact absurd ⟨hid,Or.inl hop⟩ hkeep
  | gone hop => exact ⟨s,hs,rfl,rfl,(patch_other _ (by simp [hop])).symm⟩
  | delete hop _ hrow =>
    exact ⟨s,(delete_sublist _ _ hrow).subset hs,rfl,rfl,(patch_other _ (by simp [hop])).symm⟩
  | move hop hid _ _ hrow hdoc _ _ _ hwrite _ =>
    rw [write_rows hwrite] at hs
    exact owned_setRow db.blocks.keyed hrow hdoc hid ⟨rfl,rfl⟩
      (patch_other _ (by simp [hop])).symm hs
  | attrs hop hid hrow hdoc _ hcontent _ =>
    apply owned_setRow db.blocks.keyed hrow hdoc hid ⟨rfl,rfl⟩ _ hs
    rw [ownedOf_merged hcontent,Owned.patch,if_pos ⟨hop,hid⟩]
    rfl
  | @content row hop hid hrow hdoc _ =>
    have hne : row.blockId ≠ s.blockId := fun heq => hkeep ⟨heq ▸ hid,Or.inr (Or.inr hop)⟩
    obtain ⟨r,hr,rfl⟩ := mem_setRow.mp hs
    split
    · next hboth =>
      rw [if_pos hboth] at hne
      exact absurd hboth.2.symm hne
    · exact ⟨r,hr,rfl,rfl,(patch_other _ (by simp [hop])).symm⟩

/-- The consumer replaces the text and with it the attributes. -/
theorem ownedOf_consumed {row : BlockRow} {state delta : Bytes} {content : JsonObj}
    {id : StreamId} (h : integrate py row.yjsState delta = some (state,content)) :
    ownedOf (consumedRow state content id row) =
      ⟨.ok [],lookup "children" content,some state,some id⟩ := by
  have hattrs : attrsOf content = .ok [] := by
    simp only [integrate,Option.bind_eq_bind,Option.bind_eq_some_iff] at h
    obtain ⟨_,_,_,_,heq⟩ := h
    cases heq
    rfl
  rw [ownedOf,consumedRow,hattrs]

theorem separate_operation {w : World} (h : Separate docId b w) {d : DocId} {userId : UserId}
    {op : BlockOperation} {a : AppliedOp} {db : Database}
    (happlied : Applied w.db d userId op a db) (hkeep : ¬ Rewrites b op) :
    Separate docId b ⟨db,w.owned.patch b op⟩ := by
  intro s hs
  obtain ⟨hmem,hdoc,hid⟩ := (find_some_iff _ _ _ _).mp hs
  obtain ⟨r,hr,hrid,hrdoc,howned⟩ := owned_operation happlied hkeep hmem hid
  have hbefore := h r ((find_some_iff _ _ _ _).mpr ⟨hr,hrdoc.trans hdoc,hrid.trans hid⟩)
  rw [howned,hbefore]

/-- A delta on the block keeps both halves apart exactly when there was
nothing but text. -/
theorem separate_consumed {w : World} (h : Separate docId b w) {e : StreamEntry} {row : BlockRow}
    {state : Bytes} {content : JsonObj} (hrow : Integrates py w.db.blocks docId e row)
    (hint : integrate py row.yjsState e.delta = some (state,content)) (hid : row.blockId = b) :
    ownedOf (consumedRow state content e.id row) = w.owned.absorb py b e ↔
      attrsOf row.content = .ok [] := by
  subst hid
  have hbefore := h row ((find_some_iff _ _ _ _).mpr ⟨hrow.1,hrow.2.1,rfl⟩)
  rw [← hbefore,ownedOf_consumed hint,Owned.absorb,if_pos hrow.2.2.1]
  have hstate : (ownedOf row).yjsState = row.yjsState := rfl
  rw [hstate,hint]
  simp [ownedOf,eq_comm]

theorem separate_entry {w : World} (h : Separate docId b w) {e : StreamEntry} {t : Table}
    (ht : handleEntry py w.db.blocks docId e = .updated t) :
    Separate docId b ⟨{ w.db with blocks := t },w.owned.absorb py b e⟩ ↔
      BareDelta py docId b w (.entry e) := by
  obtain ⟨row,state,content,hrow,hint,hnext⟩ := (handleEntry_updated py).mp ht
  have hrows : t.rows =
      setRow docId row.blockId (consumedRow state content e.id) w.db.blocks.rows := by
    rw [hnext]
    rfl
  have hfind := find_setRow hrows (fun r => ⟨rfl,rfl⟩) b
  have hold := (find_some_iff _ _ _ _).mpr ⟨hrow.1,hrow.2.1,rfl⟩
  rw [hold] at hfind
  by_cases hid : row.blockId = b
  · have hiff := separate_consumed h hrow hint hid
    rw [if_pos hid.symm] at hfind
    constructor
    · intro hs r hr hrb
      obtain rfl := row_unique w.db.blocks hr.1 hrow.1 (hrb.trans hid.symm)
      exact hiff.mp (hs _ hfind)
    · intro hbare r hr
      cases hfind.symm.trans hr
      exact hiff.mpr (hbare row hrow hid)
  · have hother : ¬ Targets e b := fun ht => hid (targets_unique hrow.2.2.1 ht)
    rw [if_neg (fun heq => hid heq.symm)] at hfind
    refine iff_of_true ?_ (fun r hr hrb => absurd (hrb ▸ hr.2.2.1) hother)
    intro r hr
    have hbefore := h r (hfind.symm.trans hr)
    rw [hbefore,Owned.absorb,if_neg hother]

theorem separate_step {w next : World} {a : Action} (h : Separate docId b w)
    (hstep : step py docId b w a = some next) :
    Separate docId b next ↔ BareDelta py docId b w a := by
  cases a with
  | operation d userId op =>
    refine iff_of_true ?_ trivial
    simp only [step] at hstep
    split at hstep
    · cases hstep
    · next hkeep =>
      split at hstep
      · next a db hok =>
        split at hstep
        · cases hstep
          exact separate_operation h (applyOp_applied hok) hkeep
        · cases hstep
      · cases hstep
        exact h
  | entry e =>
    simp only [step] at hstep
    split at hstep
    · next t ht =>
      cases hstep
      exact separate_entry h ht
    · next hno =>
      cases hstep
      refine iff_of_true h ?_
      intro r hr _
      obtain ⟨t,ht⟩ := integrates_updates py hr
      exact absurd ht (hno t)

theorem separate_start (docId : DocId) (b : Uuid) (db : Database) :
    Separate docId b (.start docId b db) := by
  intro r hr
  rw [World.start]
  show ownedOf r = match db.blocks.find docId b with
    | some r => ownedOf r
    | none => _
  rw [show db.blocks.find docId b = some r from hr]

/-- The attributes are the initial ones with the applied patches folded in, and
the text and the cursor those of the last delta, in all states of a run exactly
when every delta on the block finds no attributes in its row. -/
theorem separate_throughout (py : Pycrdt) (docId : DocId) (b : Uuid) (db : Database)
    (actions : List Action) :
    Throughout (step py docId b) (Separate docId b) (.start docId b db) actions ↔
      Along (step py docId b) (BareDelta py docId b) (.start docId b db) actions :=
  throughout_iff_along (fun _ _ _ _ _ => trivial) (fun _ _ _ _ h hs => separate_step h hs)
    (I := fun _ => True) trivial (separate_start docId b db)

def heading : Database := settle 1 1 (.initial [1] [1])
  [{ op := .insert_block, blockId := .uuid 7, payload :=
      { type := some "heading", content := some [("attrs",.obj [("level",.num 1)])] } }]

def typing : Action := .entry ⟨toLex (1,0),"crdt",.uuid 7,[1]⟩

def bare (attrs : Except Stop PyDict) : Bool := attrs.toOption.any List.isEmpty

/-- The first delta takes the level of the heading away. -/
theorem level_lost :
    ¬ Throughout (step arrivals 1 7) (Separate 1 7) (.start 1 7 heading) [typing] := by
  intro h
  have hrun : ((step arrivals 1 7 (.start 1 7 heading) typing).any (fun w =>
      (w.db.blocks.find 1 7).any (fun r => bare (ownedOf r).attrs) &&
        !bare w.owned.attrs)) = true := by decide +kernel
  obtain ⟨w,hw,hfacts⟩ := (Option.any_eq_true _ _).mp hrun
  obtain ⟨hrow,howned⟩ := Bool.and_eq_true_iff.mp hfacts
  obtain ⟨r,hr,hbare⟩ := (Option.any_eq_true _ _).mp hrow
  rw [h.2 w hw r hr] at hbare
  rw [hbare] at howned
  cases howned

end BlockDocs.ContentOwners
