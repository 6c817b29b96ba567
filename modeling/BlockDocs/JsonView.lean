import BlockDocs.BlockForest
import BlockDocs.ContentOwners
import BlockDocs.PlainYjs

/-!
# The JSON view of a text

The consumer writes the state of a document and what its text shows in one
UPDATE. The other writers of the content column leave the state alone: a patch
of the attributes does not touch the text, a rewritten content replaces it.
-/

set_option autoImplicit false

namespace BlockDocs.JsonView
open BlockDocs.InsertionMap BlockDocs.Wire BlockDocs.DocBlocks BlockDocs.ApplyOps
open BlockDocs.Crdt BlockDocs.Consumer BlockDocs.GuardedRun BlockDocs.BlockForest
open BlockDocs.CausalBuffer BlockDocs.YjsRegistry BlockDocs.PlainYjs

/-- A document that is hydrated from an encoded state shows the same text. -/
def Faithful (py : Pycrdt) : Prop :=
  ∀ state doc delta next, makeDoc py state = some doc → py.applyUpdate doc delta = some next →
    ∃ decoded, makeDoc py (some (py.getUpdate next)) = some decoded ∧
      py.diff decoded = py.diff next

/-! ## Documents of the library -/

section Library

variable {yjs : Yjs}

/-- What a document has stored is in order, and what waits in it has to. -/
structure Settled (r : Replica yjs.Content) : Prop where
  causal : Causal Item.id Item.needs [] r.store
  distinct : (r.store.map Item.id).Nodup
  stuck : Stuck Item.id Item.needs r.store r.waiting

theorem settled_new : Settled ({} : Replica yjs.Content) where
  causal := trivial
  distinct := List.nodup_nil
  stuck _ hx := absurd hx List.not_mem_nil

theorem settled_update {r : Replica yjs.Content} (h : Settled r) (u : Update yjs.Content) :
    Settled (r.applyUpdate yjs u) := by
  have hs := yjs.integrate_settles r.store (r.waiting++u.items)
  obtain ⟨new,hnew,hcausal⟩ := hs.grown
  refine ⟨?_,hs.distinct h.distinct,hs.stuck⟩
  show Causal Item.id Item.needs [] (yjs.integrate r.store (r.waiting++u.items)).1
  rw [hnew,causal_append]
  exact ⟨h.causal,hcausal⟩

theorem applied_update {r next : Replica yjs.Content} {bytes : Bytes}
    (h : (pycrdt yjs).applyUpdate r bytes = some next) : ∃ u, next = r.applyUpdate yjs u := by
  obtain ⟨u,_,hu⟩ := Option.map_eq_some_iff.mp h
  exact ⟨u,hu.symm⟩

theorem settled_made {state : Option Bytes} {r : Replica yjs.Content}
    (h : makeDoc (pycrdt yjs) state = some r) : Settled r := by
  have hnew : ∀ {s : Replica yjs.Content}, some (pycrdt yjs).new = some s → Settled s := by
    intro s hs
    exact Option.some.inj hs ▸ settled_new
  cases state with
  | none => exact hnew h
  | some bytes =>
    simp only [makeDoc] at h
    split at h
    · exact hnew h
    · obtain ⟨u,rfl⟩ := applied_update h
      exact settled_update settled_new u

theorem faithful_pycrdt (yjs : Yjs) : Faithful (pycrdt yjs) := by
  intro state r delta next hmake happly
  obtain ⟨u,rfl⟩ := applied_update happly
  have hnext := settled_update (settled_made hmake) u
  generalize r.applyUpdate yjs u = r at hnext
  refine ⟨({} : Replica yjs.Content).applyUpdate yjs r.update,?_,?_⟩
  · show (if yjs.encode r.update = [] then _ else _) = _
    rw [if_neg (yjs.encode_ne_nil _)]
    exact congrArg (Option.map _) (yjs.decode_encode _)
  · have hs := yjs.integrate_settles [] r.update.items
    exact yjs.text_perm _ _ _ _ (hs.reload hnext.causal hnext.distinct hnext.stuck)
      (hs.distinct List.nodup_nil) (fun i => Iff.rfl)

end Library

/-! ## Rows -/

section Rows

variable (py : Pycrdt)

def childrenOf (content : JsonObj) : Option Json := lookup "children" content

/-- `content.children` shows the document that is decoded from `yjs_state`. -/
def Viewed (r : BlockRow) : Prop :=
  ∀ state, r.yjsState = some state → ∃ doc, makeDoc py (some state) = some doc ∧
    childrenOf r.content = some (.arr (diffToInlineNodes (py.diff doc)))

def ViewOfState (db : Database) : Prop := ∀ r ∈ db.blocks.rows, Viewed py r

inductive Action where
  | operation (c : Call)
  | entry (docId : DocId) (e : StreamEntry)

/-- The row is locked from the first to the last statement of either. -/
def step (db : Database) : Action → Option Database
  | .operation c => call db c
  | .entry docId e =>
    match handleEntry py db.blocks docId e with
    | .updated t => some { db with blocks := t }
    | _ => some db

def Overwrites (db : Database) (c : Call) : Prop :=
  c.op.op = .update_content ∧ c.userId ∈ db.users ∧ ∃ r ∈ db.blocks.rows,
    c.op.blockId = .uuid r.blockId ∧ r.docId = c.docId ∧ r.yjsState ≠ none ∧
      childrenOf (c.op.payload.content.getD []) ≠ childrenOf r.content

def Kept (db : Database) : Action → Prop
  | .operation c => ¬Overwrites db c
  | .entry _ _ => True

variable {py} {t : Table} {row : BlockRow} {f : BlockRow → BlockRow}

theorem viewed_congr {r s : BlockRow} (hstate : s.yjsState = r.yjsState)
    (hchildren : childrenOf s.content = childrenOf r.content) : Viewed py s ↔ Viewed py r := by
  rw [Viewed,Viewed,hstate,hchildren]

theorem viewed_stateless {r : BlockRow} (h : r.yjsState = none) : Viewed py r :=
  fun _ hs => by cases h.symm.trans hs

theorem viewed_setRow (h : ∀ r ∈ t.rows, Viewed py r) (hrow : row ∈ t.rows) :
    (∀ s ∈ setRow row.docId row.blockId f t.rows, Viewed py s) ↔ Viewed py (f row) := by
  constructor
  · exact fun hs => hs _ (setRow_self hrow f)
  · intro hnew s hs
    rcases (mem_written hrow).mp hs with rfl | ⟨hs,_⟩
    · exact hnew
    · exact h s hs

theorem viewed_content (h : Viewed py row) (content : JsonObj) (version : ℤ) :
    Viewed py (contentRow content version row) ↔
      (row.yjsState ≠ none → childrenOf content = childrenOf row.content) := by
  constructor
  · intro hnew hstate
    obtain ⟨state,hs⟩ := Option.ne_none_iff_exists'.mp hstate
    obtain ⟨doc,hdoc,hshown⟩ := h state hs
    obtain ⟨doc',hdoc',hshown'⟩ := hnew state hs
    obtain rfl := Option.some.inj (hdoc.symm.trans hdoc')
    exact hshown'.trans hshown.symm
  · intro hchildren state hs
    have hsame := hchildren (fun hnone => by cases hnone.symm.trans hs)
    exact (viewed_congr (r := row) (s := contentRow content version row) rfl hsame).mpr h state hs

theorem viewed_merged {patch content : JsonObj} {version : ℤ} (h : Viewed py row)
    (hmerge : mergeAttrs row.content patch = .ok content) :
    Viewed py (contentRow content version row) := by
  have hchildren := congrArg ContentOwners.Owned.children
    (@ContentOwners.ownedOf_merged row patch content version hmerge)
  exact (viewed_congr (r := row) (s := contentRow content version row) rfl hchildren).mpr h

/-- The delta's state and text are of one document. -/
theorem viewed_consumed (hpy : Faithful py) {state delta : Bytes} {content : JsonObj}
    {id : StreamId} (h : integrate py row.yjsState delta = some (state,content)) :
    Viewed py (consumedRow state content id row) := by
  simp only [integrate,Option.bind_eq_bind,Option.bind_eq_some_iff] at h
  obtain ⟨doc,hmake,next,happly,heq⟩ := h
  cases heq
  obtain ⟨decoded,hdecoded,hdiff⟩ := hpy _ _ _ _ hmake happly
  rintro state hs
  cases hs
  refine ⟨decoded,hdecoded,?_⟩
  rw [hdiff]
  rfl

/-! ## Steps and runs -/

theorem overwrites_iff {db : Database} {docId : DocId} {userId : UserId} {op : BlockOperation}
    (hop : op.op = .update_content) (huser : userId ∈ db.users) (hrow : row ∈ db.blocks.rows)
    (hid : op.blockId = .uuid row.blockId) (hdoc : row.docId = docId) :
    Overwrites db ⟨docId,userId,op⟩ ↔ row.yjsState ≠ none ∧
      childrenOf (op.payload.content.getD []) ≠ childrenOf row.content := by
  constructor
  · rintro ⟨_,_,r,hr,hid',_,hrest⟩
    rw [← row_unique db.blocks hr hrow (IdField.uuid.inj (hid'.symm.trans hid))]
    exact hrest
  · exact fun h => ⟨hop,huser,row,hrow,hid,hdoc,h⟩

theorem viewed_applied {db next : Database} {docId : DocId} {userId : UserId}
    {op : BlockOperation} {a : AppliedOp} (h : ViewOfState py db)
    (happlied : Applied db docId userId op a next) :
    ViewOfState py next ↔ ¬Overwrites db ⟨docId,userId,op⟩ := by
  have hother : op.op ≠ .update_content → ViewOfState py next →
      (ViewOfState py next ↔ ¬Overwrites db ⟨docId,userId,op⟩) :=
    fun hop hv => iff_of_true hv (fun ho => hop ho.1)
  cases happlied with
  | insert hop _ _ _ _ _ _ hwrite _ =>
    refine hother (hop ▸ (by decide)) (fun r hr => ?_)
    rw [write_rows hwrite] at hr
    rcases List.mem_append.mp hr with hr | hr
    · exact h r hr
    · rw [List.mem_singleton.mp hr]
      exact viewed_stateless rfl
  | gone hop _ _ => exact hother (hop ▸ (by decide)) h
  | delete hop _ hrow _ _ =>
    exact hother (hop ▸ (by decide)) (fun r hr => h r ((delete_sublist _ _ hrow).subset hr))
  | move hop _ _ _ hrow hdoc _ _ _ hwrite _ =>
    subst hdoc
    refine hother (hop ▸ (by decide)) (fun r hr => ?_)
    rw [write_rows hwrite] at hr
    have hold := h _ hrow
    exact (viewed_setRow h hrow).mpr hold r hr
  | attrs hop _ hrow hdoc _ hcontent _ =>
    subst hdoc
    exact hother (hop ▸ (by decide)) ((viewed_setRow h hrow).mpr (viewed_merged (h _ hrow) hcontent))
  | @content row hop hid hrow hdoc huser =>
    subst hdoc
    let content := op.payload.content.getD []
    have hrows : ViewOfState py (db.rewrite row.docId row.blockId content (row.version+1)) ↔
        Viewed py (contentRow content (row.version+1) row) := viewed_setRow h hrow
    rw [hrows,viewed_content (h _ hrow),overwrites_iff hop huser hrow hid rfl,not_and,not_not]

/-- Without an applied operation nothing was overwritten. -/
theorem overwrites_applied {db : Database} {c : Call} (h : Overwrites db c) :
    ∃ a next, applyOp db c.docId c.userId c.op = .ok (a,next) := by
  obtain ⟨hop,huser,r,hr,hid,hdoc,_⟩ := h
  have hfind := (find_some_iff db.blocks c.docId r.blockId r).mpr ⟨hr,hdoc,rfl⟩
  simp only [applyOp,hid,hop,updateContent,fetchRow,hfind,references,huser]
  exact ⟨_,_,rfl⟩

theorem step_viewed (hpy : Faithful py) (db : Database) (a : Action) (next : Database)
    (h : ViewOfState py db) (hs : step py db a = some next) :
    ViewOfState py next ↔ Kept db a := by
  cases a with
  | operation c =>
    have hcall : call db c = some next := hs
    unfold call at hcall
    split at hcall
    · next hok =>
      cases hcall
      exact viewed_applied h (applyOp_applied hok)
    · next hno =>
      cases hcall
      refine iff_of_true h (fun ho => ?_)
      obtain ⟨a,next,hok⟩ := overwrites_applied ho
      cases hno.symm.trans hok
  | entry docId e =>
    refine iff_of_true ?_ trivial
    simp only [step] at hs
    split at hs
    · next t ht =>
      cases hs
      obtain ⟨row,state,content,hrow,hint,rfl⟩ := (handleEntry_updated py).mp ht
      obtain ⟨hmem,rfl,_⟩ := hrow
      exact (viewed_setRow h hmem).mpr (viewed_consumed hpy hint)
    · cases hs
      exact h

end Rows

theorem view_iff_kept (py : Pycrdt) (hpy : Faithful py) (documents : List DocId)
    (users : List UserId) (run : List Action) :
    Throughout (step py) (ViewOfState py) (.initial documents users) run ↔
      Along (step py) Kept (.initial documents users) run :=
  throughout_iff_along (fun _ _ _ _ _ => trivial)
    (fun db a next _ h hs => step_viewed hpy db a next h hs)
    (I := fun _ => True) trivial (fun _ hr => absurd hr List.not_mem_nil)

def typing : List Action :=
  [.operation ⟨1,1,insertUnder 7 none⟩,
    .entry 1 ⟨toLex (1,0),"crdt",.uuid 7,encode ⟨typed 5 0 ['h','i'],[]⟩⟩]

def isText (text : String) : Option Json → Bool
  | some (.arr [.obj [("type",.str "text"),("text",.str shown)]]) => shown = text
  | _ => false

theorem view_typing :
    (∃ db, exec (step (pycrdt plain)) (.initial [1] [1]) typing = some db ∧
      ∃ r ∈ db.blocks.rows, isText "hi" (childrenOf r.content) = true ∧ r.yjsState ≠ none) ∧
    Throughout (step (pycrdt plain)) (ViewOfState (pycrdt plain)) (.initial [1] [1]) typing := by
  constructor
  · have h : (exec (step (pycrdt plain)) (.initial [1] [1]) typing).any (fun db =>
        ∃ r ∈ db.blocks.rows, isText "hi" (childrenOf r.content) = true ∧ r.yjsState ≠ none) =
        true := by decide +kernel
    obtain ⟨db,hdb,hrow⟩ := (Option.any_eq_true _ _).mp h
    exact ⟨db,hdb,of_decide_eq_true hrow⟩
  · apply (view_iff_kept (pycrdt plain) (faithful_pycrdt plain) [1] [1] typing).mpr
    refine fun db _ => ⟨fun ho => (by cases ho.1),fun _ _ => ⟨trivial,trivial⟩⟩

/-- The content is emptied and the state still holds the text. -/
def emptied : List Action :=
  typing++[.operation ⟨1,1,{ op := .update_content, blockId := .uuid 7 }⟩]

theorem text_emptied :
    ¬∀ (py : Pycrdt), Faithful py → ∀ (documents : List DocId) (users : List UserId)
      (run : List Action), Throughout (step py) (ViewOfState py) (.initial documents users) run := by
  intro hall
  have h : (exec (step (pycrdt plain)) (.initial [1] [1]) emptied).any (fun db =>
      ∃ r ∈ db.blocks.rows, r.yjsState ≠ none ∧ (childrenOf r.content).isNone) = true := by
    decide +kernel
  obtain ⟨db,hdb,hfound⟩ := (Option.any_eq_true _ _).mp h
  obtain ⟨r,hr,hstate,hnone⟩ := of_decide_eq_true hfound
  obtain ⟨state,hs⟩ := Option.ne_none_iff_exists'.mp hstate
  have hview := throughout_iff_prefixes.mp
    (hall (pycrdt plain) (faithful_pycrdt plain) [1] [1] emptied) _ (List.prefix_refl _) db hdb
  obtain ⟨_,_,hshown⟩ := hview r hr state hs
  rw [hshown] at hnone
  cases hnone

end BlockDocs.JsonView
