import BlockDocs.ApplyOps
import BlockDocs.GuardedRun
import BlockDocs.ParentChain

/-!
# The tree of blocks

Every handler checks one row. Inserting and deleting keep all parent chains
rooted, and so does a move to any place outside the moved subtree; nothing in
`move_block` excludes the places inside it.
-/

set_option autoImplicit false

namespace BlockDocs.BlockForest
open BlockDocs.LexoRank BlockDocs.Wire BlockDocs.DocBlocks BlockDocs.ApplyOps
open BlockDocs.ParentChain BlockDocs.GuardedRun

def above (rows : List BlockRow) : Uuid → Option Uuid → Prop :=
  fun x o => ∃ r ∈ rows, r.blockId = x ∧ r.parentId = o

def Forest (rows : List BlockRow) : Prop := ∀ r ∈ rows, Rooted (above rows) r.blockId

/-- The operation asks for a parent that is the moved block or lies below it. -/
def MovesUnderItself (db : Database) (op : BlockOperation) : Prop :=
  op.op = .move_block ∧ ∃ b p, op.blockId = .uuid b ∧ op.payload.parentId = .uuid p ∧
    Climbs (above db.blocks.rows) p b

theorem above_functional {rows : List BlockRow} (h : Keyed rows) : Functional (above rows) := by
  rintro x o o' ⟨r,hr,hx,rfl⟩ ⟨s,hs,hy,rfl⟩
  have heq := List.inj_on_of_nodup_map h hr hs (hx.trans hy.symm)
  exact congrArg BlockRow.parentId heq

theorem forest_no_own_ancestor {t : Table} (h : Forest t.rows) {r : BlockRow}
    (hr : r ∈ t.rows) : ¬ Relation.TransGen (Parent (above t.rows)) r.blockId r.blockId :=
  rooted_not_own_ancestor (above_functional t.keyed) (h r hr)

instance (rows : List BlockRow) (x : Uuid) (o : Option Uuid) : Decidable (above rows x o) :=
  inferInstanceAs (Decidable (∃ r ∈ rows, r.blockId = x ∧ r.parentId = o))

theorem forest_empty : Forest Table.empty.rows := by
  intro r hr
  exact absurd hr List.not_mem_nil

theorem swap_not_forest {t : Table} {x y : Uuid} (hxy : above t.rows x (some y))
    (hyx : above t.rows y (some x)) : ¬ Forest t.rows := by
  intro h
  have hcycle : Relation.TransGen (Parent (above t.rows)) x x := .tail (.single hxy) hyx
  obtain ⟨r,hr,rfl,_⟩ := hxy
  exact forest_no_own_ancestor h hr hcycle

theorem forest_append {t : Table} {row : BlockRow} (h : Forest t.rows)
    (hparent : ∀ p, row.parentId = some p → ∃ q ∈ t.rows, q.blockId = p) :
    Forest (t.rows++[row]) := by
  have hold : ∀ x, Rooted (above t.rows) x → Rooted (above (t.rows++[row])) x := by
    intro x hx
    apply rooted_transfer hx
    rintro y _ o ⟨r,hr,hy,ho⟩
    exact ⟨r,List.mem_append_left _ hr,hy,ho⟩
  intro r hr
  rcases List.mem_append.mp hr with hr | hr
  · exact hold _ (h r hr)
  · rw [List.mem_singleton] at hr
    subst hr
    cases hp : r.parentId with
    | none => exact .root ⟨r,by simp,rfl,hp⟩
    | some p =>
      obtain ⟨q,hq,hqp⟩ := hparent p hp
      have hroot : Rooted (above (t.rows++[r])) p := hqp ▸ hold _ (h q hq)
      exact .child ⟨r,by simp,rfl,hp⟩ hroot

theorem forest_sublist {t next : Table} (h : Forest t.rows) (hsub : next.rows.Sublist t.rows) :
    Forest next.rows := by
  have hkeep : ∀ x, Rooted (above t.rows) x →
      ∀ r ∈ next.rows, r.blockId = x → Rooted (above next.rows) x := by
    intro x hx
    induction hx with
    | root hroot =>
      intro r hr hrx
      have ho := above_functional t.keyed _ _ _ hroot ⟨r,hsub.subset hr,hrx,rfl⟩
      exact .root ⟨r,hr,hrx,ho.symm⟩
    | @child x p hchild _ ih =>
      intro r hr hrx
      have ho := above_functional t.keyed _ _ _ hchild ⟨r,hsub.subset hr,hrx,rfl⟩
      -- a kept row keeps its parent row, by the foreign key of the new table
      obtain ⟨q,hq,hqp⟩ := next.parented r hr p ho.symm
      exact .child ⟨r,hr,hrx,ho.symm⟩ (ih q hq hqp)
  exact fun r hr => hkeep _ (h r (hsub.subset hr)) r hr rfl

theorem forest_samePlace {rows next : List BlockRow} (h : Forest rows)
    (hsame : List.Forall₂ SamePlace rows next) : Forest next := by
  have hagree : ∀ y o, above rows y o → above next y o := by
    rintro y o ⟨r,hr,hy,ho⟩
    obtain ⟨i,hi,rfl⟩ := List.getElem_of_mem hr
    have hi' : i < next.length := hsame.length_eq ▸ hi
    have hp := List.forall₂_iff_get.mp hsame |>.2 i hi hi'
    exact ⟨next[i],List.getElem_mem hi',hp.1.trans hy,hp.2.2.1.trans ho⟩
  intro s hs
  obtain ⟨r,hr,hid,_⟩ := samePlace_mem hsame hs
  rw [hid]
  exact rooted_transfer (h r hr) (fun y _ o ho => hagree y o ho)

/-! ## Moving a block -/

def afterMove (t : Table) (row : BlockRow) (parentId : Option Uuid) (position : Rank) (depth : ℕ)
    (version : ℤ) : List BlockRow :=
  setRow row.docId row.blockId (movedRow parentId position depth version) t.rows

section Move

variable {t : Table} {row : BlockRow} {parentId : Option Uuid} {position : Rank} {depth : ℕ}
  {version : ℤ}

theorem above_elsewhere (y : Uuid) (hy : y ≠ row.blockId) (o : Option Uuid)
    (h : above t.rows y o) : above (afterMove t row parentId position depth version) y o := by
  obtain ⟨r,hr,hid,ho⟩ := h
  have hne : ¬ (r.docId = row.docId ∧ r.blockId = row.blockId) := fun hc => hy (hid ▸ hc.2)
  exact ⟨r,mem_setRow.mpr ⟨r,hr,by rw [if_neg hne]⟩,hid,ho⟩

theorem above_moved (hrow : row ∈ t.rows) :
    above (afterMove t row parentId position depth version) row.blockId parentId :=
  ⟨movedRow parentId position depth version row,setRow_self hrow _,rfl,rfl⟩

theorem afterMove_ids {s : BlockRow} (hs : s ∈ afterMove t row parentId position depth version) :
    ∃ r ∈ t.rows, s.blockId = r.blockId := by
  obtain ⟨r,hr,rfl⟩ := mem_setRow.mp hs
  refine ⟨r,hr,?_⟩
  split <;> rfl

theorem forest_move (h : Forest t.rows) (hrow : row ∈ t.rows)
    (hparent : ∀ p, parentId = some p →
      (∃ q ∈ t.rows, q.blockId = p) ∧ ¬ Climbs (above t.rows) p row.blockId) :
    Forest (afterMove t row parentId position depth version) := by
  have hmoved : Rooted (above (afterMove t row parentId position depth version)) row.blockId := by
    have hup : above (afterMove t row parentId position depth version) row.blockId parentId :=
      above_moved hrow
    cases parentId with
    | none => exact .root hup
    | some p =>
      obtain ⟨⟨q,hq,hqp⟩,hout⟩ := hparent p rfl
      exact .child hup (rooted_outside above_elsewhere (hqp ▸ h q hq) hout)
  intro s hs
  obtain ⟨r,hr,hid⟩ := afterMove_ids hs
  rw [hid]
  exact rooted_reparent above_elsewhere hmoved (h r hr)

theorem not_forest_move {p : Uuid} (hkeyed : Keyed (afterMove t row (some p) position depth version))
    (hrow : row ∈ t.rows) (hbelow : Climbs (above t.rows) p row.blockId) :
    ¬ Forest (afterMove t row (some p) position depth version) := by
  intro h
  have hup : above (afterMove t row (some p) position depth version) row.blockId (some p) :=
    above_moved hrow
  have hmem : movedRow (some p) position depth version row ∈
      afterMove t row (some p) position depth version := setRow_self hrow _
  exact not_rooted_of_climbs (above_functional hkeyed) above_elsewhere hup hbelow
    (h (movedRow (some p) position depth version row) hmem)

end Move

/-! ## Runs of operations -/

structure Call where
  docId : DocId
  userId : UserId
  op : BlockOperation

/-- One `apply_op` in a transaction of its own: without an applied operation
the database stays as it was. -/
def call (db : Database) (c : Call) : Option Database :=
  match applyOp db c.docId c.userId c.op with
  | .ok (_,next) => some next
  | .error _ => some db

theorem forest_applied {db next : Database} {docId : DocId} {userId : UserId}
    {op : BlockOperation} {a : AppliedOp} (h : Forest db.blocks.rows)
    (happlied : Applied db docId userId op a next) :
    Forest next.blocks.rows ↔ ¬ MovesUnderItself db op := by
  have hother : op.op ≠ .move_block → Forest next.blocks.rows →
      (Forest next.blocks.rows ↔ ¬ MovesUnderItself db op) :=
    fun hop hf => iff_of_true hf (fun hm => hop hm.1)
  cases happlied with
  | insert hop hid hparent hafter hfresh hdepth hposition hwrite hrefs =>
    apply hother (by simp [hop])
    rw [write_rows hwrite]
    apply forest_append h
    rintro p rfl
    obtain ⟨q,hq,_,hqp,_⟩ := parentDepth_found hdepth
    exact ⟨q,hq,hqp⟩
  | gone hop => exact hother (by simp [hop]) h
  | delete hop hid hrow =>
    exact hother (by simp [hop]) (forest_sublist h (delete_sublist _ _ hrow))
  | @move row parentId afterId depth position t hop hid hparent hafter hrow hdoc hversion hdepth
      hposition hwrite huser =>
    subst hdoc
    have hrows : t.rows = afterMove db.blocks row parentId position depth (row.version+1) :=
      write_rows hwrite
    constructor
    · rintro hf ⟨_,b,p,hb,hp,hclimb⟩
      obtain rfl : row.blockId = b := IdField.uuid.inj (hid.symm.trans hb)
      have hsome : parentId = some p := by
        rw [read_ok,hp] at hparent
        exact (ofOption_inj (p := some p) hparent).symm
      subst hsome
      exact not_forest_move (hrows ▸ t.keyed) hrow hclimb (hrows ▸ hf)
    · intro hout
      show Forest t.rows
      rw [hrows]
      apply forest_move h hrow
      rintro p rfl
      obtain ⟨q,hq,_,hqp,_⟩ := parentDepth_found hdepth
      exact ⟨⟨q,hq,hqp⟩,fun hc => hout ⟨hop,_,p,hid,read_ok.mp hparent,hc⟩⟩
  | attrs hop =>
    exact hother (by simp [hop]) (forest_samePlace h (setRow_forall₂ _ _ (contentRow_place _ _) _))
  | content hop =>
    exact hother (by simp [hop]) (forest_samePlace h (setRow_forall₂ _ _ (contentRow_place _ _) _))

theorem forest_step {db next : Database} {c : Call} (h : Forest db.blocks.rows)
    (hcall : call db c = some next) (hout : ¬ MovesUnderItself db c.op) :
    Forest next.blocks.rows := by
  unfold call at hcall
  split at hcall
  · next hok =>
    cases hcall
    exact (forest_applied h (applyOp_applied hok)).mpr hout
  · cases hcall
    exact h

/-- A run stays a forest as long as no operation moves a block below itself,
and an operation applied to a state it reaches keeps the forest exactly when
it does not. -/
theorem forest_throughout (documents : List DocId) (users : List UserId) (calls : List Call) :
    (Along call (fun db c => ¬ MovesUnderItself db c.op) (.initial documents users) calls →
      Throughout call (fun db => Forest db.blocks.rows) (.initial documents users) calls) ∧
    ∀ db docId userId op a next, exec call (.initial documents users) calls = some db →
      Forest db.blocks.rows → applyOp db docId userId op = .ok (a,next) →
      (Forest next.blocks.rows ↔ ¬ MovesUnderItself db op) := by
  constructor
  · exact throughout_of_along (fun db c next hf hcall hout => forest_step hf hcall hout)
      forest_empty
  · intro db docId userId op a next _ hf hok
    exact forest_applied hf (applyOp_applied hok)

def moved : List Call :=
  [⟨1,1,insertUnder 1 none⟩,⟨1,1,insertUnder 2 (some 1)⟩,⟨1,1,insertUnder 3 none⟩,
    ⟨1,1,moveUnder 2 (some 3)⟩]

theorem forest_throughout_moved :
    Along call (fun db c => ¬ MovesUnderItself db c.op) (.initial [1] [1]) moved ∧
      Throughout call (fun db => Forest db.blocks.rows) (.initial [1] [1]) moved ∧
      (exec call (.initial [1] [1]) moved).any
        (fun db => above db.blocks.rows 2 (some 3) ∧ above db.blocks.rows 3 none) = true := by
  have h : Along call (fun db c => ¬ MovesUnderItself db c.op) (.initial [1] [1]) moved := by
    refine along_cons rfl (fun hm => absurd hm.1 (by decide)) ?_
    refine along_cons rfl (fun hm => absurd hm.1 (by decide)) ?_
    refine along_cons rfl (fun hm => absurd hm.1 (by decide)) ?_
    refine along_cons rfl ?_ trivial
    rintro ⟨_,b,p,hb,hp,hc⟩
    cases hb
    cases hp
    obtain heq | ⟨q,hq,_⟩ := Relation.ReflTransGen.cases_head hc
    · exact absurd heq (by decide)
    · exact absurd (above_functional (Table.keyed _) _ _ _ hq (by decide)) (Option.some_ne_none q)
  exact ⟨h,(forest_throughout [1] [1] _).1 h,by decide⟩

/-- A block moved below its own child: both are then their own ancestors. -/
theorem forest_broken :
    ∃ db, exec call (.initial [1] [1])
        [⟨1,1,insertUnder 1 none⟩,⟨1,1,insertUnder 2 (some 1)⟩,⟨1,1,moveUnder 1 (some 2)⟩] =
          some db ∧ ¬ Forest db.blocks.rows := by
  have h : ((exec call (.initial [1] [1])
      [⟨1,1,insertUnder 1 none⟩,⟨1,1,insertUnder 2 (some 1)⟩,⟨1,1,moveUnder 1 (some 2)⟩]).any
        (fun db => above db.blocks.rows 1 (some 2) ∧ above db.blocks.rows 2 (some 1))) = true := by
    decide
  obtain ⟨db,hdb,hup⟩ := (Option.any_eq_true _ _).mp h
  obtain ⟨hxy,hyx⟩ := of_decide_eq_true hup
  exact ⟨db,hdb,swap_not_forest hxy hyx⟩

end BlockDocs.BlockForest
