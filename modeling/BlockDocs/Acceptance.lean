import BlockDocs.AppliedHistory
import BlockDocs.PositionCollision

/-!
# Which operations are applied

What an operation needs of the database to be applied, read off the state
before it: a free id or a row of the expected version, and a place for the
block where one is computed.
-/

set_option autoImplicit false

namespace BlockDocs.Acceptance
open BlockDocs.LexoRank BlockDocs.InsertionMap BlockDocs.Wire BlockDocs.DocBlocks
open BlockDocs.ApplyOps BlockDocs.BlockForest BlockDocs.SiblingOrder BlockDocs.PositionCollision
open BlockDocs.AppliedHistory

def HasPlace (t : Table) (docId : DocId) (b : Uuid) (payload : Payload) : Prop :=
  ∃ parentId afterId depth position, payload.parentId = .ofOption parentId ∧
    payload.afterId = .ofOption afterId ∧ parentDepth t docId parentId = .ok depth ∧
    depth ≤ 32767 ∧ computePosition t docId parentId afterId = .ok position ∧
    position.length ≤ positionWidth ∧
    ¬ (parentId ≠ none ∧ afterId = none ∧ FloorTaken t docId parentId b)

def AtVersion (t : Table) (docId : DocId) (b : Uuid) (expectedVersion : Option ℤ)
    (r : BlockRow) : Prop :=
  r ∈ t.rows ∧ r.docId = docId ∧ r.blockId = b ∧ ∀ v ∈ expectedVersion, r.version = v

def Welcome (db : Database) (docId : DocId) (userId : UserId) (op : BlockOperation) : Prop :=
  ∃ b, op.blockId = .uuid b ∧
    match op.op with
    | .insert_block => (∀ r ∈ db.blocks.rows, r.blockId ≠ b) ∧
        (op.payload.type.getD "paragraph").length ≤ 50 ∧
        HasPlace db.blocks docId b op.payload ∧ docId ∈ db.documents ∧ userId ∈ db.users
    | .delete_block => Present docId db.blocks b →
        ∃ r, AtVersion db.blocks docId b op.version r
    | .move_block => (∃ r, AtVersion db.blocks docId b op.version r) ∧
        HasPlace db.blocks docId b op.payload ∧ userId ∈ db.users
    | .update_attrs => (∃ r attrs, AtVersion db.blocks docId b op.version r ∧
        attrsOf r.content = .ok attrs) ∧ userId ∈ db.users
    | .update_content => Present docId db.blocks b ∧ userId ∈ db.users

variable {db next : Database} {docId : DocId} {userId : UserId} {op : BlockOperation}

theorem write_ok_iff {rows : List BlockRow} : (∃ t, write rows = .ok t) ↔
    (∀ r ∈ rows, Fits r) ∧ write rows ≠ .error .uniqueViolation ∧ Parented rows := by
  constructor
  · rintro ⟨t,ht⟩
    have hrows := write_rows ht
    refine ⟨hrows ▸ t.fits,?_,hrows ▸ t.parented⟩
    rw [ht]
    simp
  · rintro ⟨hfit,hunique,hparented⟩
    have hboth : Keyed rows ∧ Spaced rows := by
      by_contra hno
      exact hunique (write_unique_iff.mpr ⟨hfit,hno⟩)
    refine ⟨⟨rows,hboth.1,hboth.2,hfit,hparented⟩,?_⟩
    rw [write,dif_pos hfit,dif_pos hboth.1,dif_pos hboth.2,dif_pos hparented]

theorem parent_present {t : Table} {parentId : Option Uuid} {depth : ℕ}
    (h : parentDepth t docId parentId = .ok depth) {p : Uuid} (hp : p ∈ parentId) :
    ∃ q ∈ t.rows, q.blockId = p := by
  cases Option.mem_def.mp hp
  obtain ⟨q,hq,_,hid,_⟩ := parentDepth_found h
  exact ⟨q,hq,hid⟩

theorem insert_written_iff {t : Table} {b : Uuid} {payload : Payload}
    {parentId afterId : Option Uuid} {depth : ℕ} {position : Rank}
    (hfresh : ∀ r ∈ t.rows, r.blockId ≠ b) (hdepth : parentDepth t docId parentId = .ok depth)
    (hposition : computePosition t docId parentId afterId = .ok position) :
    (∃ u, write (t.rows++[insertedRow docId b payload parentId position depth]) = .ok u) ↔
      (payload.type.getD "paragraph").length ≤ 50 ∧ depth ≤ 32767 ∧
        position.length ≤ positionWidth ∧
        ¬ (parentId ≠ none ∧ afterId = none ∧ FloorTaken t docId parentId b) := by
  rw [write_ok_iff,ne_eq,insert_collides_iff hfresh hposition]
  have hfits : (∀ r ∈ t.rows++[insertedRow docId b payload parentId position depth], Fits r) ↔
      Fits (insertedRow docId b payload parentId position depth) := by
    simp only [List.mem_append,List.mem_singleton]
    exact ⟨fun h => h _ (Or.inr rfl),fun h r hr => hr.elim (t.fits r) (fun heq => heq ▸ h)⟩
  have hparented : Parented (t.rows++[insertedRow docId b payload parentId position depth]) := by
    intro r hr p hp
    have hq : ∃ q ∈ t.rows, q.blockId = p := by
      rcases List.mem_append.mp hr with hr | hr
      · exact t.parented r hr p hp
      · cases List.mem_singleton.mp hr
        exact parent_present hdepth hp
    obtain ⟨q,hq,hid⟩ := hq
    exact ⟨q,List.mem_append_left _ hq,hid⟩
  rw [hfits]
  constructor
  · rintro ⟨⟨hlen,htype,hdeep⟩,hfree,_⟩
    exact ⟨htype,hdeep,hlen,fun h => hfree ⟨h.1,h.2.1,hdeep,htype,h.2.2⟩⟩
  · rintro ⟨htype,hdeep,hlen,hfree⟩
    exact ⟨⟨hlen,htype,hdeep⟩,fun h => hfree ⟨h.1,h.2.1,h.2.2.2.2⟩,hparented⟩

theorem move_written_iff {t : Table} {row : BlockRow} {parentId afterId : Option Uuid}
    {depth : ℕ} {position : Rank} {version : ℤ} (hrow : row ∈ t.rows)
    (hdepth : parentDepth t row.docId parentId = .ok depth)
    (hposition : computePosition t row.docId parentId afterId = .ok position) :
    (∃ u, write (setRow row.docId row.blockId (movedRow parentId position depth version)
        t.rows) = .ok u) ↔
      depth ≤ 32767 ∧ position.length ≤ positionWidth ∧
        ¬ (parentId ≠ none ∧ afterId = none ∧ FloorTaken t row.docId parentId row.blockId) := by
  have hcollides := @move_collides_iff t row parentId afterId depth position version hrow hposition
  rw [afterMove] at hcollides
  rw [write_ok_iff,ne_eq,hcollides]
  have hfits : (∀ r ∈ setRow row.docId row.blockId (movedRow parentId position depth version)
      t.rows, Fits r) ↔ position.length ≤ positionWidth ∧ depth ≤ 32767 := by
    constructor
    · intro h
      have hone := h _ (setRow_self hrow _)
      exact ⟨hone.1,hone.2.2⟩
    · rintro ⟨hlen,hdeep⟩ s hs
      rcases (mem_written hrow).mp hs with rfl | ⟨hs,_⟩
      · exact ⟨hlen,(t.fits row hrow).2.1,hdeep⟩
      · exact t.fits s hs
  have hkept : ∀ p, (∃ q ∈ t.rows, q.blockId = p) → ∃ q ∈ setRow row.docId row.blockId
      (movedRow parentId position depth version) t.rows, q.blockId = p := by
    rintro p ⟨q,hq,hid⟩
    refine ⟨_,mem_setRow.mpr ⟨q,hq,rfl⟩,?_⟩
    split
    · exact hid
    · exact hid
  have hparented : Parented (setRow row.docId row.blockId
      (movedRow parentId position depth version) t.rows) := by
    intro s hs p hp
    apply hkept
    obtain ⟨r,hr,rfl⟩ := mem_setRow.mp hs
    split at hp
    · exact parent_present hdepth hp
    · exact t.parented r hr p hp
  rw [hfits]
  constructor
  · rintro ⟨⟨hlen,hdeep⟩,hfree,_⟩
    exact ⟨hdeep,hlen,fun h => hfree ⟨h.1,h.2.1,hdeep,h.2.2⟩⟩
  · rintro ⟨hdeep,hlen,hfree⟩
    exact ⟨⟨hlen,hdeep⟩,fun h => hfree ⟨h.1,h.2.1,h.2.2.2⟩,hparented⟩

theorem insertBlock_ok_iff {b : Uuid} {payload : Payload} :
    (∃ r, insertBlock db docId userId b payload = .ok r) ↔
      (∀ r ∈ db.blocks.rows, r.blockId ≠ b) ∧ (payload.type.getD "paragraph").length ≤ 50 ∧
        HasPlace db.blocks docId b payload ∧ docId ∈ db.documents ∧ userId ∈ db.users := by
  simp only [insertBlock,bind_ok,orConflict_ok,references_ok,writeRows_ok,checkFresh_ok,
    decide_eq_true_eq,read_ok]
  constructor
  · rintro ⟨_,p,hp,a,ha,_,hfresh,depth,hdepth,position,hposition,t,ht,_,hrefs,_⟩
    obtain ⟨htype,hdeep,hlen,hfree⟩ := (insert_written_iff hfresh hdepth hposition).mp ⟨t,ht⟩
    exact ⟨hfresh,htype,⟨p,a,depth,position,hp,ha,hdepth,hdeep,hposition,hlen,hfree⟩,hrefs⟩
  · rintro ⟨hfresh,htype,⟨p,a,depth,position,hp,ha,hdepth,hdeep,hposition,hlen,hfree⟩,hrefs⟩
    obtain ⟨t,ht⟩ := (insert_written_iff hfresh hdepth hposition).mpr ⟨htype,hdeep,hlen,hfree⟩
    exact ⟨_,p,hp,a,ha,(),hfresh,depth,hdepth,position,hposition,t,ht,(),hrefs,rfl⟩

theorem deleteBlock_ok_iff {b : Uuid} {expectedVersion : Option ℤ} :
    (∃ r, deleteBlock db docId b expectedVersion = .ok r) ↔
      (Present docId db.blocks b → ∃ r, AtVersion db.blocks docId b expectedVersion r) := by
  unfold deleteBlock
  split
  · next hnone =>
    have habsent := (find_none_iff _ _ _).mp hnone
    refine iff_of_true ⟨_,rfl⟩ ?_
    rintro ⟨r,hr,hboth⟩
    exact absurd hboth (habsent r hr)
  · next row hsome =>
    obtain ⟨hrow,hdoc,hid⟩ := (find_some_iff _ _ _ _).mp hsome
    simp only [bind_ok,checkVersion_ok]
    constructor
    · rintro ⟨_,_,hv,_⟩ _
      exact ⟨row,hrow,hdoc,hid,hv⟩
    · intro h
      obtain ⟨r,hr,_,hrid,hv⟩ := h ⟨row,hrow,hdoc,hid⟩
      cases row_unique db.blocks hrow hr (hid.trans hrid.symm)
      exact ⟨_,(),hv,rfl⟩

theorem moveBlock_ok_iff {b : Uuid} {payload : Payload} {expectedVersion : Option ℤ} :
    (∃ r, moveBlock db docId userId b payload expectedVersion = .ok r) ↔
      (∃ r, AtVersion db.blocks docId b expectedVersion r) ∧
        HasPlace db.blocks docId b payload ∧ userId ∈ db.users := by
  simp only [moveBlock,bind_ok,orConflict_ok,references_ok,writeRows_ok,checkVersion_ok,
    fetchRow_ok,find_some_iff,decide_eq_true_eq,read_ok]
  constructor
  · rintro ⟨_,p,hp,a,ha,row,⟨hrow,rfl,rfl⟩,_,hv,depth,hdepth,position,hposition,t,ht,_,hu,_⟩
    obtain ⟨hdeep,hlen,hfree⟩ := (move_written_iff hrow hdepth hposition).mp ⟨t,ht⟩
    exact ⟨⟨row,hrow,rfl,rfl,hv⟩,⟨p,a,depth,position,hp,ha,hdepth,hdeep,hposition,hlen,hfree⟩,hu⟩
  · rintro ⟨⟨row,hrow,rfl,rfl,hv⟩,⟨p,a,depth,position,hp,ha,hdepth,hdeep,hposition,hlen,hfree⟩,hu⟩
    obtain ⟨t,ht⟩ := (move_written_iff hrow hdepth hposition).mpr ⟨hdeep,hlen,hfree⟩
    exact ⟨_,p,hp,a,ha,row,⟨hrow,rfl,rfl⟩,(),hv,depth,hdepth,position,hposition,t,ht,(),hu,rfl⟩

theorem mergeAttrs_ok_iff {existing patch : JsonObj} :
    (∃ content, mergeAttrs existing patch = .ok content) ↔
      ∃ attrs, attrsOf existing = .ok attrs := by
  simp only [mergeAttrs,bind_ok]
  constructor
  · rintro ⟨_,attrs,hattrs,_⟩
    exact ⟨attrs,hattrs⟩
  · rintro ⟨attrs,hattrs⟩
    exact ⟨_,attrs,hattrs,rfl⟩

theorem updateAttrs_ok_iff {b : Uuid} {payload : Payload} {expectedVersion : Option ℤ} :
    (∃ r, updateAttrs db docId userId b payload expectedVersion = .ok r) ↔
      (∃ r attrs, AtVersion db.blocks docId b expectedVersion r ∧
        attrsOf r.content = .ok attrs) ∧ userId ∈ db.users := by
  simp only [updateAttrs,bind_ok,references_ok,checkVersion_ok,fetchRow_ok,find_some_iff,
    decide_eq_true_eq]
  constructor
  · rintro ⟨_,row,⟨hrow,hdoc,hid⟩,_,hv,content,hcontent,_,hu,_⟩
    obtain ⟨attrs,hattrs⟩ := mergeAttrs_ok_iff.mp ⟨content,hcontent⟩
    exact ⟨⟨row,attrs,⟨hrow,hdoc,hid,hv⟩,hattrs⟩,hu⟩
  · rintro ⟨⟨row,attrs,⟨hrow,hdoc,hid,hv⟩,hattrs⟩,hu⟩
    obtain ⟨content,hcontent⟩ := mergeAttrs_ok_iff.mpr ⟨attrs,hattrs⟩
    exact ⟨_,row,⟨hrow,hdoc,hid⟩,(),hv,content,hcontent,(),hu,rfl⟩

theorem updateContent_ok_iff {b : Uuid} {payload : Payload} :
    (∃ r, updateContent db docId userId b payload = .ok r) ↔
      Present docId db.blocks b ∧ userId ∈ db.users := by
  simp only [updateContent,bind_ok,references_ok,fetchRow_ok,find_some_iff,decide_eq_true_eq]
  constructor
  · rintro ⟨_,row,⟨hrow,hdoc,hid⟩,_,hu,_⟩
    exact ⟨⟨row,hrow,hdoc,hid⟩,hu⟩
  · rintro ⟨⟨row,hrow,hdoc,hid⟩,hu⟩
    exact ⟨_,row,⟨hrow,hdoc,hid⟩,(),hu,rfl⟩

/-- An operation is applied exactly when it is welcome. -/
theorem applyOp_ok_iff :
    (∃ r, applyOp db docId userId op = .ok r) ↔ Welcome db docId userId op := by
  unfold applyOp Welcome
  cases op.blockId with
  | absent => simp
  | malformed => simp
  | uuid b =>
    simp only [IdField.uuid.injEq,exists_eq_left']
    cases op.op with
    | insert_block => exact insertBlock_ok_iff
    | delete_block => exact deleteBlock_ok_iff
    | move_block => exact moveBlock_ok_iff
    | update_attrs => exact updateAttrs_ok_iff
    | update_content => exact updateContent_ok_iff

theorem serverVersion_at {b : Uuid} {v : ℤ} {r : BlockRow}
    (h : AtVersion db.blocks docId b (some v) r) : serverVersion db docId b = some v := by
  obtain ⟨hr,hdoc,hid,hv⟩ := h
  rw [serverVersion,(find_some_iff _ _ _ _).mpr ⟨hr,hdoc,hid⟩,Option.map_some,hv v rfl]

def Versioned (op : BlockOperation) (v : ℤ) : Prop :=
  op.version = some v ∧
    (op.op = .delete_block ∨ op.op = .move_block ∨ op.op = .update_attrs)

theorem welcome_at {b : Uuid} {v : ℤ} (h : Welcome db docId userId op)
    (hid : op.blockId = .uuid b) (hversion : Versioned op v) :
    (∃ r, AtVersion db.blocks docId b (some v) r) ∨
      (op.op = .delete_block ∧ ¬ Present docId db.blocks b) := by
  obtain ⟨hv,hkind⟩ := hversion
  obtain ⟨c,hc,hwelcome⟩ := h
  cases hid.symm.trans hc
  rw [hv] at hwelcome
  rcases hkind with hop | hop | hop
  · rw [hop] at hwelcome
    by_cases hpresent : Present docId db.blocks b
    · exact Or.inl (hwelcome hpresent)
    · exact Or.inr ⟨hop,hpresent⟩
  · rw [hop] at hwelcome
    exact Or.inl hwelcome.1
  · rw [hop] at hwelcome
    obtain ⟨⟨r,_,hr,_⟩,_⟩ := hwelcome
    exact Or.inl ⟨r,hr⟩

end BlockDocs.Acceptance
