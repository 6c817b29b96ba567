import BlockDocs.SiblingOrder

/-!
# Which operations run into a unique violation

Only a move or an insert to the head of a block's children can, and only when
the first rank there is at the floor and the rank that `_before` answers for
it is in use.
-/

set_option autoImplicit false

namespace BlockDocs.PositionCollision
open BlockDocs.LexoRank BlockDocs.Wire BlockDocs.DocBlocks BlockDocs.ApplyOps
open BlockDocs.BlockForest BlockDocs.SiblingOrder

def Collided {α : Type} (x : Except Stop α) : Prop := ∃ c, x = .error (.collision c)

theorem collided_ok {α : Type} (a : α) : ¬ Collided (.ok a : Except Stop α) := by
  rintro ⟨c,hc⟩
  cases hc

theorem collided_bind {α β : Type} {x : Except Stop α} {f : α → Except Stop β} :
    Collided (x >>= f) ↔ Collided x ∨ ∃ a, x = .ok a ∧ Collided (f a) := by
  cases x with
  | error e => simp [Collided,bind,Except.bind]
  | ok a => simp [Collided,bind,Except.bind]

theorem collided_read (field : IdField) : ¬ Collided (IdField.read field) := by
  cases field <;> simp [Collided,IdField.read]

theorem collided_orConflict {α : Type} (blockId : Uuid) (current : Option Block)
    (x : Except String α) : ¬ Collided (orConflict blockId current x) := by
  cases x <;> simp [Collided,orConflict]

theorem collided_references (present : Bool) : ¬ Collided (references present) := by
  cases present <;> simp [Collided,references]

theorem collided_checkFresh (t : Table) (blockId : Uuid) : ¬ Collided (checkFresh t blockId) := by
  unfold checkFresh
  split <;> simp [Collided]

theorem collided_fetchRow (t : Table) (docId : DocId) (blockId : Uuid) :
    ¬ Collided (fetchRow t docId blockId) := by
  unfold fetchRow
  split <;> simp [Collided]

theorem collided_checkVersion (row : BlockRow) (expectedVersion : Option ℤ) :
    ¬ Collided (checkVersion row expectedVersion) := by
  unfold checkVersion
  split
  · simp [Collided]
  · split <;> simp [Collided]

theorem collided_dictOf (d : PyDict) (items : List Json) : ¬ Collided (dictOf d items) := by
  induction items generalizing d with
  | nil => exact collided_ok d
  | cons item items ih =>
    unfold dictOf
    split
    · simp [Collided]
    · split
      · simp [Collided]
      · exact ih _

theorem collided_attrsOf (content : JsonObj) : ¬ Collided (attrsOf content) := by
  unfold attrsOf
  split
  · simp [Collided]
  · exact collided_dictOf _ _
  · split <;> simp [Collided]
  · simp [Collided]

theorem collided_mergeAttrs (existing patch : JsonObj) :
    ¬ Collided (mergeAttrs existing patch) := by
  unfold mergeAttrs
  rw [collided_bind]
  simp [collided_attrsOf,collided_ok,pure,Except.pure]

theorem collided_writeRows {blockId : Uuid} {current : Option Block} {rows : List BlockRow} :
    Collided (writeRows blockId current rows) ↔ write rows = .error .uniqueViolation := by
  unfold writeRows Collided
  split <;> simp_all

theorem collided_deleteBlock (db : Database) (docId : DocId) (blockId : Uuid)
    (expectedVersion : Option ℤ) : ¬ Collided (deleteBlock db docId blockId expectedVersion) := by
  unfold deleteBlock
  split
  · exact collided_ok _
  · rw [collided_bind]
    simp [collided_checkVersion,collided_ok,pure,Except.pure]

section Statement

variable {t : Table} {docId : DocId} {parentId : Option Uuid} {b : Uuid} {row : BlockRow}
  {rows rest : List BlockRow}

theorem clash_comm {r s : BlockRow} : Clash r s ↔ Clash s r := by
  have hone : ∀ {r s : BlockRow}, Clash r s → Clash s r :=
    fun h => ⟨h.1.symm,h.2.1.symm,h.2.1 ▸ h.2.2.1,h.2.2.2.symm⟩
  exact ⟨hone,hone⟩

theorem spaced_perm (h : rows.Perm rest) : Spaced rows ↔ Spaced rest :=
  h.pairwise_iff (fun {_ _} hn hc => hn (clash_comm.mp hc))

/-- Writing one new or changed row beside rows that satisfy every constraint. -/
theorem write_row_unique (hperm : rows.Perm (row::rest)) (hkeyed : Keyed (row::rest))
    (hspaced : Spaced rest) (hfits : ∀ r ∈ rest, Fits r) :
    write rows = .error .uniqueViolation ↔ Fits row ∧ ∃ s ∈ rest, Clash row s := by
  have hk : Keyed rows := (hperm.map _).nodup_iff.mpr hkeyed
  have hs : Spaced rows ↔ ∀ s ∈ rest, ¬ Clash row s := by
    rw [spaced_perm hperm]
    exact ⟨fun h => (List.pairwise_cons.mp h).1,fun h => List.pairwise_cons.mpr ⟨h,hspaced⟩⟩
  have hf : (∀ r ∈ rows, Fits r) ↔ Fits row := by
    constructor
    · exact fun h => h row (hperm.mem_iff.mpr List.mem_cons_self)
    · intro h r hr
      rcases List.mem_cons.mp (hperm.mem_iff.mp hr) with rfl | hr
      · exact h
      · exact hfits r hr
  rw [write_unique_iff,hf,hs]
  simp [hk]

theorem clash_others (hdoc : row.docId = docId) (hparent : row.parentId = parentId)
    (hrest : ∀ s, s ∈ rest ↔ s ∈ t.rows ∧ s.blockId ≠ b) :
    (∃ s ∈ rest, Clash row s) ↔
      parentId ≠ none ∧ ∃ s ∈ others t docId parentId b, s.position = row.position := by
  subst hdoc hparent
  constructor
  · rintro ⟨s,hs,hd,hp,hnone,hpos⟩
    obtain ⟨hrows,hne⟩ := (hrest s).mp hs
    exact ⟨hnone,s,mem_others.mpr ⟨⟨hrows,hd.symm,hp.symm⟩,hne⟩,hpos.symm⟩
  · rintro ⟨hnone,s,hs,hpos⟩
    obtain ⟨⟨hrows,hd,hp⟩,hne⟩ := mem_others.mp hs
    exact ⟨s,(hrest s).mpr ⟨hrows,hne⟩,hd.symm,hp.symm,hnone,hpos.symm⟩

/-- The rank below a floor rank, which is not below it, is in use already. -/
def FloorTaken (t : Table) (docId : DocId) (parentId : Option Uuid) (b : Uuid) : Prop :=
  ∃ z, nextPosition t docId parentId none = some z ∧ AllFloor z ∧
    ∃ s ∈ others t docId parentId b, s.position = after z

theorem rank_taken_iff {afterId : Option Uuid} {p : Rank}
    (h : computePosition t docId parentId afterId = .ok p) :
    (∃ s ∈ others t docId parentId b, s.position = p) ↔
      afterId = none ∧ FloorTaken t docId parentId b := by
  cases afterId with
  | none =>
    have hmid := computePosition_head.mp h
    constructor
    · rintro ⟨s,hs,rfl⟩
      have hsib : s ∈ siblings t docId parentId := (List.mem_filter.mp hs).1
      cases hz : nextPosition t docId parentId none with
      | none =>
        have hempty : siblings t docId parentId = [] := by simpa [nextPosition] using hz
        exact absurd (hempty ▸ hsib) List.not_mem_nil
      | some z =>
        rw [hz] at hmid
        by_cases hf : AllFloor z
        · exact ⟨rfl,z,hz,hf,s,hs,before_floor_gt hmid hf⟩
        · have hlt := before_lt hmid hf
          exact absurd ((nextPosition_head hz).2 s hsib) (not_le_of_gt hlt)
    · rintro ⟨_,z,hz,hf,s,hs,hpos⟩
      rw [hz] at hmid
      exact ⟨s,hs,hpos.trans (before_floor_gt hmid hf).symm⟩
  | some a =>
    obtain ⟨r,_,_,_,hmid⟩ := computePosition_after.mp h
    obtain ⟨hlt,hgap⟩ := after_rank_gap hmid
    simp only [reduceCtorEq,false_and,iff_false]
    rintro ⟨s,hs,rfl⟩
    rcases hgap s (List.mem_filter.mp hs).1 with hle | hgt
    · exact absurd hlt (not_lt_of_ge hle)
    · exact lt_irrefl _ hgt

theorem floor_rank (h : FloorTaken t docId parentId b) :
    ∃ p, computePosition t docId parentId none = .ok p ∧ p.length ≤ positionWidth := by
  obtain ⟨z,hz,hf,s,hs,hpos⟩ := h
  have hmid : midpoint none (some z) = .ok (after z) := before_floor z hf
  refine ⟨after z,computePosition_head.mpr (hz ▸ hmid),?_⟩
  rw [← hpos]
  exact (t.fits s (mem_others.mp hs).1.1).1

end Statement

/-- The operation reaches its statement, goes to the head of a block's
children, and finds the rank there in use. -/
def Collides (db : Database) (docId : DocId) (op : BlockOperation) : Prop :=
  ∃ b parentId depth, op.blockId = .uuid b ∧ op.payload.parentId = .uuid parentId ∧
    op.payload.afterId = .absent ∧
    parentDepth db.blocks docId (some parentId) = .ok depth ∧ depth ≤ 32767 ∧
    ((op.op = .insert_block ∧ (∀ r ∈ db.blocks.rows, r.blockId ≠ b) ∧
        (op.payload.type.getD "paragraph").length ≤ 50) ∨
      (op.op = .move_block ∧ ∃ r ∈ db.blocks.rows, r.blockId = b ∧ r.docId = docId ∧
        ∀ v ∈ op.version, r.version = v)) ∧
    FloorTaken db.blocks docId (some parentId) b

theorem row_collides_iff {t : Table} {row : BlockRow} {rows rest : List BlockRow}
    {afterId : Option Uuid} (hperm : rows.Perm (row::rest))
    (hrest : ∀ s, s ∈ rest ↔ s ∈ t.rows ∧ s.blockId ≠ row.blockId) (hkeyed : Keyed (row::rest))
    (hspaced : Spaced rest)
    (h : computePosition t row.docId row.parentId afterId = .ok row.position) :
    write rows = .error .uniqueViolation ↔
      row.parentId ≠ none ∧ afterId = none ∧ row.depth ≤ 32767 ∧ row.type.length ≤ 50 ∧
        FloorTaken t row.docId row.parentId row.blockId := by
  have hfits : ∀ r ∈ rest, Fits r := fun r hr => t.fits r ((hrest r).mp hr).1
  rw [write_row_unique hperm hkeyed hspaced hfits,clash_others rfl rfl hrest,rank_taken_iff h]
  constructor
  · rintro ⟨⟨_,htype,hdepth⟩,hparent,hafter,hfloor⟩
    exact ⟨hparent,hafter,hdepth,htype,hfloor⟩
  · rintro ⟨hparent,rfl,hdepth,htype,hfloor⟩
    obtain ⟨p,hp,hlen⟩ := floor_rank hfloor
    have heq : row.position = p := Except.ok.inj (h.symm.trans hp)
    exact ⟨⟨heq ▸ hlen,htype,hdepth⟩,hparent,rfl,hfloor⟩

theorem insert_collides_iff {t : Table} {docId : DocId} {b : Uuid} {payload : Payload}
    {parentId afterId : Option Uuid} {depth : ℕ} {position : Rank}
    (hfresh : ∀ r ∈ t.rows, r.blockId ≠ b)
    (h : computePosition t docId parentId afterId = .ok position) :
    write (t.rows++[insertedRow docId b payload parentId position depth]) =
        .error .uniqueViolation ↔
      parentId ≠ none ∧ afterId = none ∧ depth ≤ 32767 ∧
        (payload.type.getD "paragraph").length ≤ 50 ∧ FloorTaken t docId parentId b := by
  have hkeyed : Keyed (insertedRow docId b payload parentId position depth::t.rows) := by
    refine List.nodup_cons.mpr ⟨?_,t.keyed⟩
    intro hm
    obtain ⟨r,hr,hid⟩ := List.mem_map.mp hm
    exact hfresh r hr hid
  exact row_collides_iff
    (List.perm_append_singleton (insertedRow docId b payload parentId position depth) t.rows)
    (fun s => ⟨fun hs => ⟨hs,hfresh s hs⟩,fun hs => hs.1⟩)
    hkeyed t.spaced h

theorem move_collides_iff {t : Table} {row : BlockRow} {parentId afterId : Option Uuid}
    {depth : ℕ} {position : Rank} {version : ℤ} (hrow : row ∈ t.rows)
    (h : computePosition t row.docId parentId afterId = .ok position) :
    write (afterMove t row parentId position depth version) = .error .uniqueViolation ↔
      parentId ≠ none ∧ afterId = none ∧ depth ≤ 32767 ∧
        FloorTaken t row.docId parentId row.blockId := by
  obtain ⟨u,v,heq,hne⟩ := rows_split hrow
  have hmoved : afterMove t row parentId position depth version =
      u++movedRow parentId position depth version row::v := by
    rw [afterMove,heq]
    exact setRow_split _ hne
  have hperm : (u++movedRow parentId position depth version row::v).Perm
      (movedRow parentId position depth version row::(u++v)) := List.perm_middle
  have hrows : t.rows.Perm (row::(u++v)) := heq ▸ List.perm_middle
  have hrest : ∀ s, s ∈ u++v ↔ s ∈ t.rows ∧ s.blockId ≠ row.blockId := by
    intro s
    constructor
    · exact fun hs => ⟨hrows.mem_iff.mpr (List.mem_cons_of_mem _ hs),hne s hs⟩
    · rintro ⟨hs,hid⟩
      refine (List.mem_cons.mp (hrows.mem_iff.mp hs)).resolve_left ?_
      rintro rfl
      exact hid rfl
  have hkeyed : Keyed (movedRow parentId position depth version row::(u++v)) :=
    (hrows.map BlockRow.blockId).nodup_iff.mp t.keyed
  have hspaced : Spaced (u++v) := (List.pairwise_cons.mp ((spaced_perm hrows).mp t.spaced)).2
  have htype : row.type.length ≤ 50 := (t.fits row hrow).2.1
  rw [hmoved,row_collides_iff hperm hrest hkeyed hspaced h]
  exact ⟨fun hc => ⟨hc.1,hc.2.1,hc.2.2.1,hc.2.2.2.2⟩,
    fun hc => ⟨hc.1,hc.2.1,hc.2.2.1,htype,hc.2.2.2⟩⟩

theorem insertBlock_collided {db : Database} {docId : DocId} {userId : UserId} {b : Uuid}
    {payload : Payload} : Collided (insertBlock db docId userId b payload) ↔
      ∃ parentId depth, payload.parentId = .uuid parentId ∧ payload.afterId = .absent ∧
        parentDepth db.blocks docId (some parentId) = .ok depth ∧ depth ≤ 32767 ∧
        ((∀ r ∈ db.blocks.rows, r.blockId ≠ b) ∧
          (payload.type.getD "paragraph").length ≤ 50) ∧
        FloorTaken db.blocks docId (some parentId) b := by
  simp only [insertBlock,collided_bind,collided_read,collided_checkFresh,collided_orConflict,
    collided_writeRows,collided_references,collided_ok,read_ok,orConflict_ok,checkFresh_ok,
    pure,Except.pure,false_or,and_false,exists_false,or_false]
  constructor
  · rintro ⟨parentId,hp,afterId,ha,_,hfresh,depth,hd,position,hpos,hw⟩
    obtain ⟨hparent,rfl,hdepth,htype,hfloor⟩ := (insert_collides_iff hfresh hpos).mp hw
    obtain ⟨p,rfl⟩ := Option.ne_none_iff_exists'.mp hparent
    exact ⟨p,depth,hp,ha,hd,hdepth,⟨hfresh,htype⟩,hfloor⟩
  · rintro ⟨p,depth,hp,ha,hd,hdepth,⟨hfresh,htype⟩,hfloor⟩
    obtain ⟨position,hpos,_⟩ := floor_rank hfloor
    exact ⟨some p,hp,none,ha,(),hfresh,depth,hd,position,hpos,
      (insert_collides_iff hfresh hpos).mpr ⟨by simp,rfl,hdepth,htype,hfloor⟩⟩

theorem moveBlock_collided {db : Database} {docId : DocId} {userId : UserId} {b : Uuid}
    {payload : Payload} {expectedVersion : Option ℤ} :
    Collided (moveBlock db docId userId b payload expectedVersion) ↔
      ∃ parentId depth, payload.parentId = .uuid parentId ∧ payload.afterId = .absent ∧
        parentDepth db.blocks docId (some parentId) = .ok depth ∧ depth ≤ 32767 ∧
        (∃ r ∈ db.blocks.rows, r.blockId = b ∧ r.docId = docId ∧
          ∀ v ∈ expectedVersion, r.version = v) ∧
        FloorTaken db.blocks docId (some parentId) b := by
  simp only [moveBlock,collided_bind,collided_read,collided_fetchRow,collided_checkVersion,
    collided_orConflict,collided_writeRows,collided_references,collided_ok,read_ok,orConflict_ok,
    fetchRow_ok,checkVersion_ok,find_some_iff,pure,Except.pure,false_or,and_false,exists_false,
    or_false]
  constructor
  · rintro ⟨parentId,hp,afterId,ha,row,⟨hrow,rfl,rfl⟩,_,hv,depth,hd,position,hpos,hw⟩
    obtain ⟨hparent,rfl,hdepth,hfloor⟩ := (move_collides_iff hrow hpos).mp hw
    obtain ⟨p,rfl⟩ := Option.ne_none_iff_exists'.mp hparent
    exact ⟨p,depth,hp,ha,hd,hdepth,⟨row,hrow,rfl,rfl,hv⟩,hfloor⟩
  · rintro ⟨p,depth,hp,ha,hd,hdepth,⟨row,hrow,rfl,rfl,hv⟩,hfloor⟩
    obtain ⟨position,hpos,_⟩ := floor_rank hfloor
    exact ⟨some p,hp,none,ha,row,⟨hrow,rfl,rfl⟩,(),hv,depth,hd,position,hpos,
      (move_collides_iff hrow hpos).mpr ⟨by simp,rfl,hdepth,hfloor⟩⟩

theorem collided_iff {db : Database} {docId : DocId} {userId : UserId} {op : BlockOperation} :
    Collided (applyOp db docId userId op) ↔ Collides db docId op := by
  cases hid : op.blockId with
  | absent => simp [applyOp,hid,Collided,Collides]
  | malformed => simp [applyOp,hid,Collided,Collides]
  | uuid b =>
    cases hop : op.op with
    | insert_block => simp [applyOp,hid,hop,insertBlock_collided,Collides]
    | delete_block => simp [applyOp,hid,hop,collided_deleteBlock,Collides]
    | move_block => simp [applyOp,hid,hop,moveBlock_collided,Collides]
    | update_attrs =>
      simp [applyOp,hid,hop,updateAttrs,collided_bind,collided_fetchRow,collided_checkVersion,
        collided_mergeAttrs,collided_references,collided_ok,pure,Except.pure,Collides]
    | update_content =>
      simp [applyOp,hid,hop,updateContent,collided_bind,collided_fetchRow,collided_references,
        collided_ok,pure,Except.pure,Collides]

end BlockDocs.PositionCollision
