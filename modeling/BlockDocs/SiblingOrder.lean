import BlockDocs.BlockForest
import BlockDocs.SortedListing

/-!
# The order of siblings

The children of a block are a list that the position column encodes. A
structural operation must put its block where its anchor says; two things
can prevent it, a first sibling at the floor of the alphabet and an anchor
that shares its rank, which only root blocks can.
-/

set_option autoImplicit false

namespace BlockDocs.SiblingOrder
open BlockDocs.LexoRank BlockDocs.Wire BlockDocs.DocBlocks BlockDocs.ApplyOps
open BlockDocs.SortedListing BlockDocs.BlockForest BlockDocs.GuardedRun

def fieldId : IdField → Option Uuid
  | .uuid id => some id
  | _ => none

def others (t : Table) (docId : DocId) (parentId : Option Uuid) (b : Uuid) : List BlockRow :=
  (siblings t docId parentId).filter (fun r => r.blockId ≠ b)

def InPlace (others : List BlockRow) (afterId : Option Uuid) (pre : List BlockRow) : Prop :=
  match afterId with
  | none => pre = []
  | some a => ∀ r ∈ others, r.blockId = a → ∃ p, pre = p++[r]

/-- However the children are listed by position afterwards, the list is one of
the other children before, with the block put in its place. -/
def Placed (db next : Database) (docId : DocId) (b : Uuid) (parentId afterId : Option Uuid) : Prop :=
  ∃ row ∈ next.blocks.rows, row.blockId = b ∧
    ∀ listed, Listing BlockRow.position (siblings next.blocks docId parentId) listed →
      PutAt BlockRow.position (InPlace (others db.blocks docId parentId b) afterId) row
        (others db.blocks docId parentId b) listed

/-- No floor rank below which no rank is left, and no rank shared with the anchor. -/
def Clear (t : Table) (docId : DocId) (b : Uuid) (parentId afterId : Option Uuid) : Prop :=
  match afterId with
  | none => ∀ z, nextPosition t docId parentId none = some z → AllFloor z →
      ∀ s ∈ others t docId parentId b, after z < s.position
  | some a => ∀ r ∈ others t docId parentId b, r.blockId = a →
      ∀ s ∈ others t docId parentId b, s.position = r.position → s = r

theorem fieldId_ofOption (id : Option Uuid) : fieldId (.ofOption id) = id := by
  cases id <;> rfl

theorem mem_others {t : Table} {docId : DocId} {parentId : Option Uuid} {b : Uuid} {r : BlockRow} :
    r ∈ others t docId parentId b ↔
      (r ∈ t.rows ∧ r.docId = docId ∧ r.parentId = parentId) ∧ r.blockId ≠ b := by
  simp [others,mem_siblings]

theorem nodup_rows (t : Table) : t.rows.Nodup := List.Nodup.of_map _ t.keyed

theorem nodup_others (t : Table) (docId : DocId) (parentId : Option Uuid) (b : Uuid) :
    (others t docId parentId b).Nodup := ((nodup_rows t).filter _).filter _

/-! ## What the new rank is compared with -/

section Rank

variable {t : Table} {docId : DocId} {parentId : Option Uuid} {b : Uuid} {p : Rank}

theorem head_rank_iff (h : midpoint none (nextPosition t docId parentId none) = .ok p) :
    (∀ s ∈ others t docId parentId b, p < s.position) ↔ Clear t docId b parentId none := by
  have hsib : ∀ s ∈ others t docId parentId b, s ∈ siblings t docId parentId :=
    fun s hs => (List.mem_filter.mp hs).1
  cases hz : nextPosition t docId parentId none with
  | none =>
    have hempty : siblings t docId parentId = [] := by
      simpa [nextPosition] using hz
    simp [Clear,hz,others,hempty]
  | some z =>
    rw [hz] at h
    have hle := (nextPosition_head hz).2
    by_cases hf : AllFloor z
    · have hp : p = after z := before_floor_gt h hf
      simp [Clear,hz,hf,hp]
    · have hpz : p < z := before_lt h hf
      have hbelow : ∀ s ∈ others t docId parentId b, p < s.position :=
        fun s hs => lt_of_lt_of_le hpz (hle s (hsib s hs))
      simpa [Clear,hz,hf] using hbelow

theorem after_rank_gap {r : BlockRow}
    (h : midpoint (some r.position) (nextPosition t docId parentId (some r.position)) = .ok p) :
    r.position < p ∧ ∀ s ∈ siblings t docId parentId, s.position ≤ r.position ∨ p < s.position := by
  refine ⟨midpoint_gt h,fun s hs => ?_⟩
  cases hz : nextPosition t docId parentId (some r.position) with
  | none => exact Or.inl (nextPosition_none hz s hs)
  | some z =>
    rw [hz] at h
    obtain ⟨_,_,hle⟩ := nextPosition_above hz
    by_cases hsr : s.position ≤ r.position
    · exact Or.inl hsr
    · exact Or.inr (lt_of_lt_of_le (midpoint_lt h) (hle s hs (not_le.mp hsr)))

/-- A row with the computed rank, added to the other children, is in its place
in every listing exactly when the place was clear. -/
theorem inPlace_iff {afterId : Option Uuid} {row : BlockRow}
    (hrow : row ∉ others t docId parentId b) (hp : row.position = p)
    (h : computePosition t docId parentId afterId = .ok p) :
    (∀ listed, Listing BlockRow.position (row::others t docId parentId b) listed →
      PutAt BlockRow.position (InPlace (others t docId parentId b) afterId) row
        (others t docId parentId b) listed) ↔ Clear t docId b parentId afterId := by
  subst hp
  cases afterId with
  | none => exact (put_first_iff hrow).trans (head_rank_iff (computePosition_head.mp h))
  | some a =>
    obtain ⟨r,hr,hdoc,hid,hmid⟩ := computePosition_after.mp h
    have hunique : ∀ s ∈ others t docId parentId b, s.blockId = a → s = r :=
      fun s hs hsa => row_unique t (mem_others.mp hs).1.1 hr (hsa.trans hid.symm)
    by_cases hmem : r ∈ others t docId parentId b
    · obtain ⟨hlt,hgap⟩ := after_rank_gap hmid
      have hplace : InPlace (others t docId parentId b) (some a) =
          fun pre => ∃ q, pre = q++[r] := by
        ext pre
        constructor
        · exact fun hpre => hpre r hmem hid
        · intro hpre s hs hsa
          exact hunique s hs hsa ▸ hpre
      have hclear : Clear t docId b parentId (some a) ↔
          ∀ s ∈ others t docId parentId b, s.position = r.position → s = r := by
        constructor
        · exact fun hc => hc r hmem hid
        · intro hc s hs hsa
          exact hunique s hs hsa ▸ hc
      rw [hplace,hclear]
      exact put_after_iff (List.nodup_cons.mpr ⟨hrow,nodup_others _ _ _ _⟩) hmem hlt
        (fun s hs => hgap s (List.mem_filter.mp hs).1)
    · have hnone : ∀ s ∈ others t docId parentId b, s.blockId ≠ a :=
        fun s hs hsa => hmem (hunique s hs hsa ▸ hs)
      constructor
      · exact fun _ s hs hsa => absurd hsa (hnone s hs)
      · intro _ listed hl
        obtain ⟨pre,post,heq,hrest⟩ := listing_remove hl
        exact ⟨pre,post,heq,hrest,fun s hs hsa => absurd hsa (hnone s hs)⟩

end Rank

/-! ## The children after the statement -/

theorem rows_split {t : Table} {row : BlockRow} (hrow : row ∈ t.rows) :
    ∃ u v, t.rows = u++row::v ∧ ∀ s ∈ u++v, s.blockId ≠ row.blockId := by
  obtain ⟨u,v,heq⟩ := List.append_of_mem hrow
  have hkeys : ((u++row::v).map BlockRow.blockId).Nodup := heq ▸ t.keyed
  rw [List.map_append,List.map_cons,List.nodup_middle,List.nodup_cons,← List.map_append] at hkeys
  refine ⟨u,v,heq,fun s hs hid => hkeys.1 ?_⟩
  exact List.mem_map.mpr ⟨s,hs,hid⟩

theorem setRow_split {row : BlockRow} {u v : List BlockRow} (f : BlockRow → BlockRow)
    (hne : ∀ s ∈ u++v, s.blockId ≠ row.blockId) :
    setRow row.docId row.blockId f (u++row::v) = u++f row::v := by
  have hid : ∀ w : List BlockRow, (∀ s ∈ w, s.blockId ≠ row.blockId) →
      setRow row.docId row.blockId f w = w := by
    intro w hw
    have hmap : setRow row.docId row.blockId f w = w.map id :=
      List.map_congr_left (fun s hs => if_neg (fun hc => hw s hs hc.2))
    simpa using hmap
  have hu := hid u (fun s hs => hne s (List.mem_append_left _ hs))
  have hv := hid v (fun s hs => hne s (List.mem_append_right _ hs))
  unfold setRow at hu hv ⊢
  rw [List.map_append,List.map_cons,hu,hv,if_pos ⟨rfl,rfl⟩]

theorem siblings_insert {t next : Table} {row : BlockRow} (hrows : next.rows = t.rows++[row])
    (hfresh : ∀ r ∈ t.rows, r.blockId ≠ row.blockId) :
    (siblings next row.docId row.parentId).Perm
      (row::others t row.docId row.parentId row.blockId) := by
  have hothers : others t row.docId row.parentId row.blockId =
      siblings t row.docId row.parentId := by
    apply List.filter_eq_self.mpr
    exact fun r hr => decide_eq_true (hfresh r (mem_siblings.mp hr).1)
  have hsib : siblings next row.docId row.parentId = siblings t row.docId row.parentId++[row] := by
    simp [siblings,hrows]
  rw [hothers,hsib]
  exact List.perm_append_singleton row _

theorem siblings_move {t next : Table} {row : BlockRow} {parentId : Option Uuid} {position : Rank}
    {depth : ℕ} {version : ℤ} (hrow : row ∈ t.rows)
    (hrows : next.rows = afterMove t row parentId position depth version) :
    (siblings next row.docId parentId).Perm
      (movedRow parentId position depth version row::others t row.docId parentId row.blockId) := by
  obtain ⟨u,v,heq,hne⟩ := rows_split hrow
  have hnext : next.rows = u++movedRow parentId position depth version row::v := by
    rw [hrows,afterMove,heq]
    exact setRow_split _ hne
  have hkeep : ∀ w : List BlockRow, (∀ s ∈ w, s.blockId ≠ row.blockId) →
      (w.filter (fun r => decide (r.docId = row.docId ∧ r.parentId = parentId))).filter
        (fun r => decide (r.blockId ≠ row.blockId)) =
      w.filter (fun r => decide (r.docId = row.docId ∧ r.parentId = parentId)) := by
    intro w hw
    apply List.filter_eq_self.mpr
    exact fun r hr => decide_eq_true (hw r (List.mem_filter.mp hr).1)
  have hu := hkeep u (fun s hs => hne s (List.mem_append_left _ hs))
  have hv := hkeep v (fun s hs => hne s (List.mem_append_right _ hs))
  have hothers : others t row.docId parentId row.blockId =
      u.filter (fun r => decide (r.docId = row.docId ∧ r.parentId = parentId))++
        v.filter (fun r => decide (r.docId = row.docId ∧ r.parentId = parentId)) := by
    rw [others,siblings,heq,List.filter_append,List.filter_append,hu]
    congr 1
    by_cases hp : row.parentId = parentId
    · rw [List.filter_cons_of_pos (by simp [hp]),List.filter_cons_of_neg (by simp),hv]
    · rw [List.filter_cons_of_neg (by simp [hp]),hv]
  have hsib : siblings next row.docId parentId =
      u.filter (fun r => decide (r.docId = row.docId ∧ r.parentId = parentId))++
        movedRow parentId position depth version row::
          v.filter (fun r => decide (r.docId = row.docId ∧ r.parentId = parentId)) := by
    rw [siblings,hnext,List.filter_append,List.filter_cons_of_pos (by simp [movedRow])]
  rw [hothers,hsib]
  exact List.perm_middle

theorem placed_of_perm {db next : Database} {docId : DocId} {parentId afterId : Option Uuid}
    {row : BlockRow} {p : Rank} (hrow : row ∈ next.blocks.rows) (hp : row.position = p)
    (hperm : (siblings next.blocks docId parentId).Perm
      (row::others db.blocks docId parentId row.blockId))
    (h : computePosition db.blocks docId parentId afterId = .ok p) :
    Placed db next docId row.blockId parentId afterId ↔
      Clear db.blocks docId row.blockId parentId afterId := by
  have hout : row ∉ others db.blocks docId parentId row.blockId :=
    fun hm => (mem_others.mp hm).2 rfl
  rw [← inPlace_iff hout hp h]
  constructor
  · rintro ⟨row',hrow',hid,hall⟩ listed hl
    obtain rfl := row_unique next.blocks hrow' hrow hid
    exact hall listed (listing_perm hl hperm.symm)
  · exact fun hall => ⟨row,hrow,rfl,fun listed hl => hall listed (listing_perm hl hperm)⟩

theorem placed_applied {db next : Database} {docId : DocId} {userId : UserId}
    {op : BlockOperation} {a : AppliedOp} (hop : op.op = .insert_block ∨ op.op = .move_block)
    (h : Applied db docId userId op a next) :
    Placed db next docId a.blockId (fieldId op.payload.parentId) (fieldId op.payload.afterId) ↔
      Clear db.blocks docId a.blockId (fieldId op.payload.parentId)
        (fieldId op.payload.afterId) := by
  cases h with
  | @insert blockId parentId afterId depth position t _ _ hparent hafter hfresh _ hposition
      hwrite _ =>
    rw [read_ok.mp hparent,read_ok.mp hafter,fieldId_ofOption,fieldId_ofOption]
    have hrows := write_rows hwrite
    have hmem : insertedRow docId blockId op.payload parentId position depth ∈ t.rows := by
      simp [hrows]
    exact placed_of_perm hmem rfl (siblings_insert hrows hfresh) hposition
  | gone hdel => simp [hdel] at hop
  | delete hdel => simp [hdel] at hop
  | @move row parentId afterId depth position t _ _ hparent hafter hrow hdoc _ _ hposition
      hwrite _ =>
    rw [read_ok.mp hparent,read_ok.mp hafter,fieldId_ofOption,fieldId_ofOption]
    subst hdoc
    have hrows := write_rows hwrite
    have hmem : movedRow parentId position depth (row.version+1) row ∈ t.rows := by
      rw [hrows]
      exact setRow_self hrow _
    exact placed_of_perm hmem rfl (siblings_move hrow hrows) hposition
  | attrs hupd => simp [hupd] at hop
  | content hupd => simp [hupd] at hop

/-- An applied insert or move puts its block where it says exactly when the
place was clear. -/
theorem placed_iff_clear (db next : Database) (docId : DocId) (userId : UserId)
    (op : BlockOperation) (a : AppliedOp) (hop : op.op = .insert_block ∨ op.op = .move_block)
    (h : applyOp db docId userId op = .ok (a,next)) :
    Placed db next docId a.blockId (fieldId op.payload.parentId) (fieldId op.payload.afterId) ↔
      Clear db.blocks docId a.blockId (fieldId op.payload.parentId)
        (fieldId op.payload.afterId) := placed_applied hop (applyOp_applied h)

def insertAfter (blockId parentId afterId : Uuid) : BlockOperation where
  op := .insert_block
  blockId := .uuid blockId
  payload := { parentId := .uuid parentId, afterId := .uuid afterId }

/-- Three children; the fourth goes between them. -/
theorem placed_iff_clear_between :
    ∃ db a next, exec call (.initial [1] [1]) [⟨1,1,insertUnder 1 none⟩,
          ⟨1,1,insertUnder 2 (some 1)⟩,⟨1,1,insertUnder 3 (some 1)⟩,⟨1,1,insertAfter 4 1 2⟩] =
        some db ∧
      applyOp db 1 1 (insertAfter 5 1 3) = .ok (a,next) ∧
      (Placed db next 1 5 (some 1) (some 3) ↔ Clear db.blocks 1 5 (some 1) (some 3)) := by
  have h : ((exec call (.initial [1] [1]) [⟨1,1,insertUnder 1 none⟩,
      ⟨1,1,insertUnder 2 (some 1)⟩,⟨1,1,insertUnder 3 (some 1)⟩,⟨1,1,insertAfter 4 1 2⟩]).any
        (fun db => (applyOp db 1 1 (insertAfter 5 1 3)).toOption.any
          (fun r => r.1.blockId = 5))) = true := by decide
  obtain ⟨db,hdb,hok⟩ := (Option.any_eq_true _ _).mp h
  obtain ⟨⟨a,next⟩,happly,hid⟩ := ok_of_any hok
  have hb : a.blockId = 5 := of_decide_eq_true hid
  have hiff := placed_iff_clear db next 1 1 (insertAfter 5 1 3) a (Or.inl rfl) happly
  rw [hb] at hiff
  exact ⟨db,a,next,hdb,happly,hiff⟩

/-- Six insertions at the head of an empty document bring the first rank to the
floor; the seventh lands behind the sixth. -/
theorem seventh_head_insert_misplaced :
    ∃ db a next, exec call (.initial [1] [1])
        ((List.range 6).map (fun i => ⟨1,1,insertUnder (i+1) none⟩)) = some db ∧
      applyOp db 1 1 (insertUnder 7 none) = .ok (a,next) ∧ ¬ Placed db next 1 7 none none := by
  have h : ((exec call (.initial [1] [1])
      ((List.range 6).map (fun i => ⟨1,1,insertUnder (i+1) none⟩))).any (fun db =>
        (applyOp db 1 1 (insertUnder 7 none)).toOption.any (fun r => r.1.blockId = 7) ∧
          nextPosition db.blocks 1 none none = some ['0'] ∧
          ∃ s ∈ others db.blocks 1 none 7, ¬ after ['0'] < s.position)) = true := by decide
  obtain ⟨db,hdb,hfacts⟩ := (Option.any_eq_true _ _).mp h
  obtain ⟨hok,hz,s,hs,hlt⟩ := of_decide_eq_true hfacts
  obtain ⟨⟨a,next⟩,happly,hid⟩ := ok_of_any hok
  have hb : a.blockId = 7 := of_decide_eq_true hid
  have hiff := placed_applied (Or.inl rfl) (applyOp_applied happly)
  rw [hb] at hiff
  refine ⟨db,a,next,hdb,happly,fun hplaced => hlt (hiff.mp hplaced ['0'] hz ?_ s hs)⟩
  decide

end BlockDocs.SiblingOrder
