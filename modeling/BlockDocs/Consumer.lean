import BlockDocs.ApplyOps
import BlockDocs.Crdt

/-!
# The operation consumer

One entry of a document stream is handled in one transaction. It ends in an
exception, which leaves the entry unacknowledged, in a return that writes
nothing, or in an updated row whose cursor is the id of the entry.
-/

set_option autoImplicit false

namespace BlockDocs.Consumer
open BlockDocs.Wire BlockDocs.DocBlocks BlockDocs.ApplyOps BlockDocs.Crdt

/-- The decoded fields of a stream entry; `delta` is empty also when missing. -/
structure StreamEntry where
  id : StreamId
  kind : String
  blockId : IdField := .absent
  delta : Bytes := []
  deriving DecidableEq

inductive Handled where
  | raised
  | returned
  | updated (t : Table)

def streamIdLe (a b : StreamId) : Bool := a ≤ b

def consumedRow (state : Bytes) (content : JsonObj) (id : StreamId) (r : BlockRow) : BlockRow :=
  { r with yjsState := some state, content := content, lastAppliedStreamId := some id }

theorem consumedRow_place (state : Bytes) (content : JsonObj) (id : StreamId) (r : BlockRow) :
    SamePlace r (consumedRow state content id r) := ⟨rfl,rfl,rfl,rfl,rfl,rfl⟩

variable (py : Pycrdt)

def applyCrdtDelta (t : Table) (docId : DocId) (blockId : Uuid) (delta : Bytes)
    (entryId : StreamId) : Handled :=
  match t.find docId blockId with
  | none => .raised
  | some row =>
    if row.lastAppliedStreamId.any (fun last => streamIdLe entryId last) then .returned
    else match integrate py row.yjsState delta with
      | none => .raised
      | some (state,content) =>
        .updated (t.update docId blockId (consumedRow state content entryId)
          (consumedRow_place _ _ _))

def handleEntry (t : Table) (docId : DocId) (entry : StreamEntry) : Handled :=
  if entry.kind = "ops" then .returned
  else if entry.kind ≠ "crdt" then .returned
  else match entry.blockId with
    | .absent => .returned
    | .malformed => if entry.delta = [] then .returned else .raised
    | .uuid blockId =>
      if entry.delta = [] then .returned
      else applyCrdtDelta py t docId blockId entry.delta entry.id

def Targets (entry : StreamEntry) (blockId : Uuid) : Prop :=
  entry.kind = "crdt" ∧ entry.blockId = .uuid blockId ∧ entry.delta ≠ []

instance (entry : StreamEntry) (blockId : Uuid) : Decidable (Targets entry blockId) :=
  inferInstanceAs (Decidable (_ ∧ _ ∧ _))

/-- The entry reaches the UPDATE of the row: it is above the cursor and pycrdt
accepts the stored state and the delta. -/
def Integrates (t : Table) (docId : DocId) (entry : StreamEntry) (row : BlockRow) : Prop :=
  row ∈ t.rows ∧ row.docId = docId ∧ Targets entry row.blockId ∧
    (∀ last, row.lastAppliedStreamId = some last → last < entry.id) ∧
    ∃ r, integrate py row.yjsState entry.delta = some r

theorem targets_unique {e : StreamEntry} {b b' : Uuid} (h : Targets e b) (h' : Targets e b') :
    b = b' := IdField.uuid.inj (h.2.1.symm.trans h'.2.1)

theorem not_already_applied {row : BlockRow} {id : StreamId} :
    row.lastAppliedStreamId.any (fun last => streamIdLe id last) = false ↔
      ∀ last, row.lastAppliedStreamId = some last → last < id := by
  cases row.lastAppliedStreamId with
  | none => simp
  | some last => simp [streamIdLe]

theorem applyCrdtDelta_updated {t next : Table} {docId : DocId} {blockId : Uuid} {delta : Bytes}
    {id : StreamId} : applyCrdtDelta py t docId blockId delta id = .updated next ↔
      ∃ row state content, (row ∈ t.rows ∧ row.docId = docId ∧ row.blockId = blockId) ∧
        (∀ last, row.lastAppliedStreamId = some last → last < id) ∧
        integrate py row.yjsState delta = some (state,content) ∧
        next = t.update docId blockId (consumedRow state content id)
          (consumedRow_place _ _ _) := by
  unfold applyCrdtDelta
  constructor
  · intro h
    split at h
    · cases h
    · next row hfind =>
      split at h
      · cases h
      · next hcursor =>
        split at h
        · cases h
        · next state content hint =>
          cases h
          have hlow := not_already_applied.mp (Bool.eq_false_iff.mpr hcursor)
          exact ⟨row,state,content,(find_some_iff _ _ _ _).mp hfind,hlow,hint,rfl⟩
  · rintro ⟨row,state,content,hrow,hlow,hint,rfl⟩
    rw [(find_some_iff _ _ _ _).mpr hrow]
    simp [not_already_applied.mpr hlow,hint]

theorem handleEntry_updated {t next : Table} {docId : DocId} {entry : StreamEntry} :
    handleEntry py t docId entry = .updated next ↔
      ∃ row state content, Integrates py t docId entry row ∧
        integrate py row.yjsState entry.delta = some (state,content) ∧
        next = t.update docId row.blockId (consumedRow state content entry.id)
          (consumedRow_place _ _ _) := by
  constructor
  · intro h
    unfold handleEntry at h
    split at h
    · cases h
    · split at h
      · cases h
      · next hkind =>
        split at h
        · cases h
        · split at h <;> cases h
        · next blockId hid =>
          split at h
          · cases h
          · next hdelta =>
            obtain ⟨row,state,content,⟨hrow,hdoc,rfl⟩,hlow,hint,hnext⟩ :=
              (applyCrdtDelta_updated py).mp h
            have htargets : Targets entry row.blockId := ⟨not_not.mp hkind,hid,hdelta⟩
            exact ⟨row,state,content,⟨hrow,hdoc,htargets,hlow,_,hint⟩,hint,hnext⟩
  · rintro ⟨row,state,content,⟨hrow,hdoc,⟨hkind,hid,hdelta⟩,hlow,_⟩,hint,hnext⟩
    have hentry : handleEntry py t docId entry =
        applyCrdtDelta py t docId row.blockId entry.delta entry.id := by
      simp [handleEntry,hkind,hid,hdelta]
    rw [hentry]
    exact (applyCrdtDelta_updated py).mpr
      ⟨row,state,content,⟨hrow,hdoc,rfl⟩,hlow,hint,hnext⟩

/-- An entry that can reach the UPDATE does. -/
theorem integrates_updates {t : Table} {docId : DocId} {entry : StreamEntry} {row : BlockRow}
    (h : Integrates py t docId entry row) : ∃ next, handleEntry py t docId entry = .updated next := by
  obtain ⟨_,_,_,_,⟨state,content⟩,hint⟩ := id h
  exact ⟨_,(handleEntry_updated py).mpr ⟨row,state,content,h,hint,rfl⟩⟩

end BlockDocs.Consumer
