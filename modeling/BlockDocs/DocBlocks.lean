import BlockDocs.Wire

/-!
# The doc_blocks table

A table value carries the constraints of the schema, so every statement that
writes rows must establish them or fail. Deleting a row takes the rows below
it along, as the cascading foreign key does, round after round.
-/

set_option autoImplicit false

namespace BlockDocs.DocBlocks
open BlockDocs.LexoRank BlockDocs.Wire

structure BlockRow where
  blockId : Uuid
  docId : DocId
  parentId : Option Uuid
  position : Rank
  depth : ℕ
  type : String
  content : JsonObj
  yjsState : Option Bytes
  lastAppliedStreamId : Option StreamId
  version : ℤ

def positionWidth : ℕ := 64

def Fits (r : BlockRow) : Prop :=
  r.position.length ≤ positionWidth ∧ r.type.length ≤ 50 ∧ r.depth ≤ 32767

instance (r : BlockRow) : Decidable (Fits r) := inferInstanceAs (Decidable (_ ∧ _ ∧ _))

/-- Both rows have one key of `uq_block_position`; NULL parents are distinct. -/
def Clash (r s : BlockRow) : Prop :=
  r.docId = s.docId ∧ r.parentId = s.parentId ∧ r.parentId ≠ none ∧ r.position = s.position

instance (r s : BlockRow) : Decidable (Clash r s) :=
  inferInstanceAs (Decidable (_ ∧ _ ∧ _ ∧ _))

def Keyed (rows : List BlockRow) : Prop := (rows.map BlockRow.blockId).Nodup

instance (rows : List BlockRow) : Decidable (Keyed rows) := inferInstanceAs (Decidable (_ : List _).Nodup)

def Spaced (rows : List BlockRow) : Prop := rows.Pairwise (fun r s => ¬ Clash r s)

instance (rows : List BlockRow) : Decidable (Spaced rows) :=
  inferInstanceAs (Decidable (List.Pairwise _ _))

def Parented (rows : List BlockRow) : Prop :=
  ∀ r ∈ rows, ∀ p ∈ r.parentId, ∃ q ∈ rows, q.blockId = p

instance (rows : List BlockRow) : Decidable (Parented rows) :=
  inferInstanceAs (Decidable (∀ r ∈ rows, ∀ p ∈ r.parentId, ∃ q ∈ rows, q.blockId = p))

structure Table where
  rows : List BlockRow
  keyed : Keyed rows
  spaced : Spaced rows
  fits : ∀ r ∈ rows, Fits r
  parented : Parented rows

inductive SqlError where
  | dataError
  | uniqueViolation
  | foreignKeyViolation
  deriving DecidableEq, Repr

/-- The rows a statement leaves behind, checked in the server's order: the
column types, then the unique indexes, then the foreign keys. -/
def write (rows : List BlockRow) : Except SqlError Table :=
  if hfit : ∀ r ∈ rows, Fits r then
    if hkey : Keyed rows then
      if huq : Spaced rows then
        if hfk : Parented rows then .ok ⟨rows,hkey,huq,hfit,hfk⟩
        else .error .foreignKeyViolation
      else .error .uniqueViolation
    else .error .uniqueViolation
  else .error .dataError

def Table.empty : Table :=
  ⟨[],List.nodup_nil,List.Pairwise.nil,fun r hr => by simp at hr,fun r hr => by simp at hr⟩

def Table.find (t : Table) (docId : DocId) (blockId : Uuid) : Option BlockRow :=
  t.rows.find? (fun r => r.docId = docId ∧ r.blockId = blockId)

def Present (docId : DocId) (t : Table) (b : Uuid) : Prop :=
  ∃ r ∈ t.rows, r.docId = docId ∧ r.blockId = b

instance (docId : DocId) (t : Table) (b : Uuid) : Decidable (Present docId t b) :=
  inferInstanceAs (Decidable (∃ r ∈ t.rows, r.docId = docId ∧ r.blockId = b))

def setRow (docId : DocId) (blockId : Uuid) (f : BlockRow → BlockRow) (rows : List BlockRow) :
    List BlockRow :=
  rows.map (fun r => if r.docId = docId ∧ r.blockId = blockId then f r else r)

def cascade : ℕ → List BlockRow → List Uuid → List BlockRow
  | 0, rows, _ => rows
  | fuel+1, rows, gone =>
    let kept := rows.filter (fun r => r.blockId ∉ gone)
    let orphans := (kept.filter (fun r => ∃ p ∈ r.parentId, p ∈ gone)).map BlockRow.blockId
    if orphans = [] then kept else cascade fuel kept orphans

/-- The two rows differ at most in columns that no constraint mentions. -/
def SamePlace (r s : BlockRow) : Prop :=
  s.blockId = r.blockId ∧ s.docId = r.docId ∧ s.parentId = r.parentId ∧
    s.position = r.position ∧ s.depth = r.depth ∧ s.type = r.type

theorem setRow_forall₂ (docId : DocId) (blockId : Uuid) {f : BlockRow → BlockRow}
    (hf : ∀ r, SamePlace r (f r)) (rows : List BlockRow) :
    List.Forall₂ SamePlace rows (setRow docId blockId f rows) := by
  induction rows with
  | nil => exact .nil
  | cons r rows ih =>
    refine .cons ?_ ih
    show SamePlace r (if r.docId = docId ∧ r.blockId = blockId then f r else r)
    split
    · exact hf r
    · exact ⟨rfl,rfl,rfl,rfl,rfl,rfl⟩

theorem samePlace_ids {rows next : List BlockRow} (h : List.Forall₂ SamePlace rows next) :
    next.map BlockRow.blockId = rows.map BlockRow.blockId := by
  induction h with
  | nil => rfl
  | cons hr _ ih => simp [hr.1,ih]

theorem samePlace_mem {rows next : List BlockRow} (h : List.Forall₂ SamePlace rows next)
    {s : BlockRow} (hs : s ∈ next) : ∃ r ∈ rows, SamePlace r s := by
  induction h with
  | nil => simp at hs
  | cons hr _ ih =>
    rcases List.mem_cons.mp hs with rfl | hs
    · exact ⟨_,List.mem_cons_self,hr⟩
    · obtain ⟨r,hm,hp⟩ := ih hs
      exact ⟨r,List.mem_cons_of_mem _ hm,hp⟩

theorem samePlace_spaced {rows next : List BlockRow} (h : List.Forall₂ SamePlace rows next)
    (hs : Spaced rows) : Spaced next := by
  induction h with
  | nil => exact .nil
  | cons hr htail ih =>
    obtain ⟨hhead,hrest⟩ := List.pairwise_cons.mp hs
    refine List.pairwise_cons.mpr ⟨fun s hsm hc => ?_,ih hrest⟩
    obtain ⟨q,hq,hp⟩ := samePlace_mem htail hsm
    apply hhead q hq
    obtain ⟨_,h2,h3,h4,_⟩ := hr
    obtain ⟨_,k2,k3,k4,_⟩ := hp
    simpa [Clash,h2,h3,h4,k2,k3,k4] using hc

def Table.update (t : Table) (docId : DocId) (blockId : Uuid) (f : BlockRow → BlockRow)
    (hf : ∀ r, SamePlace r (f r)) : Table where
  rows := setRow docId blockId f t.rows
  keyed := by
    unfold Keyed
    rw [samePlace_ids (setRow_forall₂ docId blockId hf t.rows)]
    exact t.keyed
  spaced := samePlace_spaced (setRow_forall₂ docId blockId hf t.rows) t.spaced
  fits s hs := by
    obtain ⟨r,hr,_,_,_,h4,h5,h6⟩ := samePlace_mem (setRow_forall₂ docId blockId hf t.rows) hs
    simpa [Fits,h4,h5,h6] using t.fits r hr
  parented s hs p hp := by
    obtain ⟨r,hr,_,_,h3,_⟩ := samePlace_mem (setRow_forall₂ docId blockId hf t.rows) hs
    obtain ⟨q,hq,hqp⟩ := t.parented r hr p (h3 ▸ hp)
    have hids := samePlace_ids (setRow_forall₂ docId blockId hf t.rows)
    have hmem : q.blockId ∈ (setRow docId blockId f t.rows).map BlockRow.blockId := by
      rw [hids]
      exact List.mem_map_of_mem hq
    obtain ⟨q',hq',hid⟩ := List.mem_map.mp hmem
    exact ⟨q',hq',hid.trans hqp⟩

theorem mem_setRow {docId : DocId} {blockId : Uuid} {f : BlockRow → BlockRow}
    {rows : List BlockRow} {s : BlockRow} :
    s ∈ setRow docId blockId f rows ↔
      ∃ r ∈ rows, s = if r.docId = docId ∧ r.blockId = blockId then f r else r := by
  simp [setRow,eq_comm]

theorem setRow_self {row : BlockRow} {rows : List BlockRow} (h : row ∈ rows)
    (f : BlockRow → BlockRow) : f row ∈ setRow row.docId row.blockId f rows :=
  mem_setRow.mpr ⟨row,h,(if_pos ⟨rfl,rfl⟩).symm⟩

/-- An update of other columns leaves the ids of every document. -/
theorem present_setRow {t next : Table} {d docId : DocId} {blockId : Uuid}
    {f : BlockRow → BlockRow} (h : next.rows = setRow d blockId f t.rows)
    (hf : ∀ r, SamePlace r (f r)) {b : Uuid} (hb : Present docId t b) :
    Present docId next b := by
  obtain ⟨r,hr,hdoc,hid⟩ := hb
  refine ⟨_,h ▸ mem_setRow.mpr ⟨r,hr,rfl⟩,?_⟩
  split
  · exact ⟨(hf r).2.1.trans hdoc,(hf r).1.trans hid⟩
  · exact ⟨hdoc,hid⟩

theorem write_rows {rows : List BlockRow} {t : Table} (h : write rows = .ok t) :
    t.rows = rows := by
  unfold write at h
  split at h
  · split at h
    · split at h
      · split at h
        · cases h; rfl
        · cases h
      · cases h
    · cases h
  · cases h

theorem write_unique_iff {rows : List BlockRow} :
    write rows = .error .uniqueViolation ↔
      (∀ r ∈ rows, Fits r) ∧ ¬ (Keyed rows ∧ Spaced rows) := by
  unfold write
  by_cases hfit : ∀ r ∈ rows, Fits r
  · by_cases hkey : Keyed rows
    · by_cases huq : Spaced rows
      · rw [dif_pos hfit,dif_pos hkey,dif_pos huq]
        by_cases hfk : Parented rows <;> simp [hkey,huq,hfk]
      · rw [dif_pos hfit,dif_pos hkey,dif_neg huq]
        simpa [huq] using hfit
    · rw [dif_pos hfit,dif_neg hkey]
      simpa [hkey] using hfit
  · rw [dif_neg hfit]
    simp [hfit]

theorem row_unique (t : Table) {r s : BlockRow} (hr : r ∈ t.rows) (hs : s ∈ t.rows)
    (h : r.blockId = s.blockId) : r = s :=
  List.inj_on_of_nodup_map t.keyed hr hs h

/-- The rows after a write of one row: that one, and the others as they were. -/
theorem mem_written {t : Table} {row : BlockRow} {f : BlockRow → BlockRow} (hrow : row ∈ t.rows)
    {s : BlockRow} : s ∈ setRow row.docId row.blockId f t.rows ↔
      s = f row ∨ s ∈ t.rows ∧ s.blockId ≠ row.blockId := by
  rw [mem_setRow]
  constructor
  · rintro ⟨r,hr,rfl⟩
    split
    · next heq =>
      obtain rfl := row_unique t hr hrow heq.2
      exact Or.inl rfl
    · next hne =>
      refine Or.inr ⟨hr,fun hid => hne ?_⟩
      obtain rfl := row_unique t hr hrow hid
      exact ⟨rfl,rfl⟩
  · rintro (rfl | ⟨hs,hne⟩)
    · exact ⟨row,hrow,(if_pos ⟨rfl,rfl⟩).symm⟩
    · exact ⟨s,hs,(if_neg (fun heq => hne heq.2)).symm⟩

theorem find_some_iff (t : Table) (docId : DocId) (blockId : Uuid) (r : BlockRow) :
    t.find docId blockId = some r ↔ r ∈ t.rows ∧ r.docId = docId ∧ r.blockId = blockId := by
  constructor
  · intro h
    have hm := List.mem_of_find?_eq_some h
    have hp := List.find?_some h
    exact ⟨hm,by simpa using hp⟩
  · rintro ⟨hr,hd,hb⟩
    cases hf : t.find docId blockId with
    | none =>
      have := List.find?_eq_none.mp hf r hr
      simp [hd,hb] at this
    | some s =>
      have hs := List.mem_of_find?_eq_some hf
      have hp := List.find?_some hf
      simp only [decide_eq_true_eq] at hp
      exact congrArg some (row_unique t hs hr (hp.2.trans hb.symm))

theorem find_none_iff (t : Table) (docId : DocId) (blockId : Uuid) :
    t.find docId blockId = none ↔ ∀ r ∈ t.rows, ¬ (r.docId = docId ∧ r.blockId = blockId) := by
  simp [Table.find]

/-! ## Cascading deletion -/

theorem cascade_sublist (fuel : ℕ) (rows : List BlockRow) (gone : List Uuid) :
    (cascade fuel rows gone).Sublist rows := by
  induction fuel generalizing rows gone with
  | zero => exact List.Sublist.refl _
  | succ fuel ih =>
    simp only [cascade]
    split
    · exact List.filter_sublist
    · exact (ih _ _).trans List.filter_sublist

theorem cascade_not_gone (fuel : ℕ) (rows : List BlockRow) (gone : List Uuid) {r : BlockRow}
    (h : r ∈ cascade (fuel+1) rows gone) : r.blockId ∉ gone := by
  simp only [cascade] at h
  split at h
  · exact of_decide_eq_true (List.mem_filter.mp h).2
  · exact of_decide_eq_true (List.mem_filter.mp ((cascade_sublist _ _ _).subset h)).2

/-- A row that stays and is no orphan of the round keeps its parent. -/
theorem parent_kept {rows kept : List BlockRow} {gone : List Uuid}
    (hkept : kept = rows.filter (fun r => r.blockId ∉ gone))
    (hclosed : ∀ r ∈ rows, r.blockId ∉ gone → ∀ p ∈ r.parentId, ∃ q ∈ rows, q.blockId = p)
    {r : BlockRow} (hr : r ∈ kept)
    (hno : r.blockId ∉ (kept.filter (fun r => ∃ p ∈ r.parentId, p ∈ gone)).map BlockRow.blockId) :
    ∀ p ∈ r.parentId, ∃ q ∈ kept, q.blockId = p := by
  intro p hp
  have hmem := hr
  rw [hkept] at hmem
  obtain ⟨hrows,hstays⟩ := List.mem_filter.mp hmem
  obtain ⟨q,hq,hqp⟩ := hclosed r hrows (by simpa using hstays) p hp
  refine ⟨q,?_,hqp⟩
  rw [hkept]
  refine List.mem_filter.mpr ⟨hq,decide_eq_true (fun hg => hno ?_)⟩
  have horphan : ∃ p ∈ r.parentId, p ∈ gone := ⟨p,hp,hqp ▸ hg⟩
  exact List.mem_map.mpr ⟨r,List.mem_filter.mpr ⟨hr,decide_eq_true horphan⟩,rfl⟩

/-- The rounds stop with no row pointing at a removed one, provided that each
round starts with ids of present rows and enough rounds are left. -/
theorem cascade_parented (fuel : ℕ) (rows : List BlockRow) (gone : List Uuid)
    (hfuel : rows.length < fuel) (hgone : ∃ r ∈ rows, r.blockId ∈ gone)
    (hclosed : ∀ r ∈ rows, r.blockId ∉ gone → ∀ p ∈ r.parentId, ∃ q ∈ rows, q.blockId = p) :
    Parented (cascade fuel rows gone) := by
  induction fuel generalizing rows gone with
  | zero => omega
  | succ fuel ih =>
    have hshrink : (rows.filter (fun r => decide (r.blockId ∉ gone))).length < rows.length := by
      obtain ⟨r,hr,hg⟩ := hgone
      exact List.length_filter_lt_length_iff_exists.mpr ⟨r,hr,by simpa using hg⟩
    simp only [cascade]
    split
    · next hnone =>
      intro r hr
      apply parent_kept rfl hclosed hr
      rw [hnone]
      exact List.not_mem_nil
    · next hsome =>
      apply ih _ _ (by omega)
      · obtain ⟨b,hb⟩ := List.exists_mem_of_ne_nil _ hsome
        obtain ⟨r,hr,rfl⟩ := List.mem_map.mp hb
        exact ⟨r,(List.mem_filter.mp hr).1,hb⟩
      · exact fun r hr hno => parent_kept rfl hclosed hr hno

def Table.delete (t : Table) (r : BlockRow) (hr : r ∈ t.rows) : Table where
  rows := cascade (t.rows.length+1) t.rows [r.blockId]
  keyed := t.keyed.sublist ((cascade_sublist _ _ _).map _)
  spaced := t.spaced.sublist (cascade_sublist _ _ _)
  fits s hs := t.fits s ((cascade_sublist _ _ _).subset hs)
  parented := cascade_parented _ _ _ (Nat.lt_succ_self _) ⟨r,hr,by simp⟩
    (fun s hs _ => t.parented s hs)

theorem delete_sublist (t : Table) (r : BlockRow) (hr : r ∈ t.rows) :
    (t.delete r hr).rows.Sublist t.rows := cascade_sublist _ _ _

theorem delete_removes (t : Table) (r : BlockRow) (hr : r ∈ t.rows) {s : BlockRow}
    (hs : s ∈ (t.delete r hr).rows) : s.blockId ≠ r.blockId := by
  simpa using cascade_not_gone _ _ _ hs

theorem delete_leaf (t : Table) (r : BlockRow) (hr : r ∈ t.rows)
    (hleaf : ∀ s ∈ t.rows, s.blockId ≠ r.blockId → s.parentId ≠ some r.blockId) :
    (t.delete r hr).rows = t.rows.filter (fun s => s.blockId ≠ r.blockId) := by
  have hnone : ((t.rows.filter (fun s => decide (s.blockId ∉ [r.blockId]))).filter
      (fun s => decide (∃ p ∈ s.parentId, p ∈ [r.blockId]))).map BlockRow.blockId = [] := by
    simp only [List.map_eq_nil_iff,List.filter_eq_nil_iff]
    intro s hs
    obtain ⟨hs,hne⟩ := List.mem_filter.mp hs
    have := hleaf s hs (by simpa using hne)
    simpa using this
  change cascade (t.rows.length+1) t.rows [r.blockId] = _
  simp only [cascade]
  rw [if_pos hnone]
  simp

/-! ## Looking up after a write -/

theorem find_append {t next : Table} {row : BlockRow} (h : next.rows = t.rows++[row]) (b : Uuid) :
    next.find row.docId b = if b = row.blockId then some row else t.find row.docId b := by
  by_cases hb : b = row.blockId
  · rw [if_pos hb]
    apply (find_some_iff _ _ _ _).mpr
    exact ⟨by simp [h],rfl,hb.symm⟩
  · simp [Table.find,h,hb,Ne.symm hb]

theorem find_setRow {t next : Table} {docId : DocId} {blockId : Uuid} {f : BlockRow → BlockRow}
    (h : next.rows = setRow docId blockId f t.rows)
    (hf : ∀ r, (f r).docId = r.docId ∧ (f r).blockId = r.blockId) (b : Uuid) :
    next.find docId b = if b = blockId then (t.find docId blockId).map f else t.find docId b := by
  have hfind : next.find docId b = (t.find docId b).map
      (fun r => if r.docId = docId ∧ r.blockId = blockId then f r else r) := by
    have hids : ∀ r : BlockRow, ((if r.docId = docId ∧ r.blockId = blockId then f r else r).docId
        = r.docId) ∧ (if r.docId = docId ∧ r.blockId = blockId then f r else r).blockId
        = r.blockId := by
      intro r
      split
      · exact hf r
      · exact ⟨rfl,rfl⟩
    simp only [Table.find,h,setRow,List.find?_map,Function.comp_def,hids]
  rw [hfind]
  by_cases heq : b = blockId
  · subst heq
    rw [if_pos rfl]
    apply Option.map_congr
    intro r hr
    have hids := ((find_some_iff _ _ _ _).mp hr).2
    exact if_pos hids
  · rw [if_neg heq]
    refine (Option.map_congr ?_).trans Option.map_id'
    intro r hr
    have hid := ((find_some_iff _ _ _ _).mp hr).2.2
    exact if_neg (fun h => heq (hid.symm.trans h.2))

theorem find_deleted (t : Table) (docId : DocId) (row : BlockRow) (hrow : row ∈ t.rows) :
    (t.delete row hrow).find docId row.blockId = none := by
  apply (find_none_iff _ _ _).mpr
  rintro s hs ⟨_,hid⟩
  exact delete_removes t row hrow hs hid

/-- A delete leaves a block as it was or takes it along. -/
theorem find_delete (t : Table) (docId : DocId) (row : BlockRow) (hrow : row ∈ t.rows) (b : Uuid) :
    (t.delete row hrow).find docId b = t.find docId b ∨ (t.delete row hrow).find docId b = none := by
  cases hf : (t.delete row hrow).find docId b with
  | none => exact Or.inr rfl
  | some r =>
    obtain ⟨hr,hdoc,hid⟩ := (find_some_iff _ _ _ _).mp hf
    have hmem := (delete_sublist t row hrow).subset hr
    exact Or.inl ((find_some_iff _ _ _ _).mpr ⟨hmem,hdoc,hid⟩).symm

theorem find_delete_leaf (t : Table) (docId : DocId) (row : BlockRow) (hrow : row ∈ t.rows)
    (hleaf : ∀ s ∈ t.rows, s.blockId ≠ row.blockId → s.parentId ≠ some row.blockId) (b : Uuid) :
    (t.delete row hrow).find docId b = if b = row.blockId then none else t.find docId b := by
  by_cases hb : b = row.blockId
  · rw [if_pos hb,hb,find_deleted]
  · rw [if_neg hb,Table.find,delete_leaf t row hrow hleaf,List.find?_filter]
    apply congrArg (fun p => t.rows.find? p)
    funext s
    by_cases hs : s.blockId = b
    · simp [hs,hb]
    · simp [hs]

end BlockDocs.DocBlocks
