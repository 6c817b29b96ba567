import BlockDocs.Consumer
import BlockDocs.RepeatedDelivery
import BlockDocs.StreamIds

/-!
# Entries that are delivered again

The consumer compares the text of an entry's id with the cursor of the row.
Both are read as pairs of numbers, whatever their length.
-/

set_option autoImplicit false

namespace BlockDocs.ConsumedOnce
open BlockDocs.Wire BlockDocs.DocBlocks BlockDocs.Crdt BlockDocs.StreamIds
open BlockDocs.RepeatedDelivery

/-- What the consumer reads and writes of a row. The cursor is a text. -/
structure CursorRow where
  yjsState : Option Bytes
  content : JsonObj
  lastAppliedStreamId : Option (List Char)

structure Delivery where
  entryId : List Char
  delta : Bytes
  deriving DecidableEq

/-- `_stream_id_le`. It raises where a half of an id is no number. -/
def streamIdLe (a b : List Char) : Option Bool :=
  (readStreamId a).bind (fun x => (readStreamId b).map (fun y => x ≤ y))

variable (py : Pycrdt)

/-- A delta that pycrdt rejects raises. -/
def integrated (row : CursorRow) (e : Delivery) : CursorRow :=
  match integrate py row.yjsState e.delta with
  | none => row
  | some (state,content) => ⟨some state,content,some e.entryId⟩

/-- The row after `_apply_crdt_delta`: a transaction that raises leaves it. -/
def applyCrdtDelta (row : CursorRow) (e : Delivery) : CursorRow :=
  match row.lastAppliedStreamId with
  | none => integrated py row e
  | some last =>
    match streamIdLe e.entryId last with
    | some false => integrated py row e
    | _ => row

def Before (e f : Delivery) : Prop :=
  (readStreamId e.entryId).any (fun a => (readStreamId f.entryId).any (fun b => a < b)) = true

instance (e f : Delivery) : Decidable (Before e f) :=
  inferInstanceAs (Decidable (_ = true))

/-! ## The comparison of ids -/

theorem before_iff {e f : Delivery} : Before e f ↔ ∃ a b,
    readStreamId e.entryId = some a ∧ readStreamId f.entryId = some b ∧ a < b := by
  simp [Before,Option.any_eq_true]

theorem before_asymm {e f : Delivery} (h : Before e f) : ¬Before f e := by
  intro h'
  obtain ⟨a,b,ha,hb,hlt⟩ := before_iff.mp h
  obtain ⟨b',a',hb',ha',hlt'⟩ := before_iff.mp h'
  cases ha.symm.trans ha'
  cases hb.symm.trans hb'
  exact lt_asymm hlt hlt'

theorem streamIdLe_before {e f : Delivery} (h : Before e f) :
    streamIdLe e.entryId f.entryId = some true := by
  obtain ⟨a,b,ha,hb,hlt⟩ := before_iff.mp h
  rw [streamIdLe,ha,hb]
  exact congrArg some (decide_eq_true hlt.le)

theorem streamIdLe_self (a : List Char) : streamIdLe a a ≠ some false := by
  unfold streamIdLe
  cases readStreamId a with
  | none => exact nofun
  | some x =>
    rw [Option.bind_some,Option.map_some,decide_eq_true (le_refl x)]
    exact nofun

/-- Texts of ids compare as their numbers do, with any number of digits. -/
theorem streamIdLe_idText (a b : StreamId) :
    streamIdLe (idText a) (idText b) = some (Consumer.streamIdLe a b) := by
  rw [streamIdLe,readStreamId_idText,readStreamId_idText]
  rfl

/-! ## The consumer -/

def rowFields (row : BlockRow) : CursorRow where
  yjsState := row.yjsState
  content := row.content
  lastAppliedStreamId := row.lastAppliedStreamId.map idText

def tableAfter (t : Table) : Consumer.Handled → Table
  | .updated next => next
  | _ => t

variable {py} {t : Table} {docId : DocId} {blockId : Uuid} {row : BlockRow}

theorem integrated_row (h : t.find docId blockId = some row) (delta : Bytes)
    (entryId : StreamId) :
    ((tableAfter t (match integrate py row.yjsState delta with
      | none => .raised
      | some (state,content) => .updated (t.update docId blockId
          (Consumer.consumedRow state content entryId)
          (Consumer.consumedRow_place _ _ _)))).find docId blockId).map rowFields =
        some (integrated py (rowFields row) ⟨idText entryId,delta⟩) := by
  have hfields : integrate py (rowFields row).yjsState delta =
      integrate py row.yjsState delta := rfl
  rw [integrated,hfields]
  cases integrate py row.yjsState delta with
  | none => exact congrArg (Option.map rowFields) h
  | some r =>
    have hfind : (t.update docId blockId (Consumer.consumedRow r.1 r.2 entryId)
        (Consumer.consumedRow_place _ _ _)).find docId blockId =
          (t.find docId blockId).map (Consumer.consumedRow r.1 r.2 entryId) := by
      refine (find_setRow (f := Consumer.consumedRow r.1 r.2 entryId) rfl
        (fun _ => ⟨rfl,rfl⟩) blockId).trans ?_
      exact if_pos rfl
    rw [h] at hfind
    exact congrArg (Option.map rowFields) hfind

/-- The transaction does to the row of the table what is done to its fields. -/
theorem applyCrdtDelta_row (h : t.find docId blockId = some row) (delta : Bytes)
    (entryId : StreamId) :
    ((tableAfter t (Consumer.applyCrdtDelta py t docId blockId delta entryId)).find
      docId blockId).map rowFields =
        some (applyCrdtDelta py (rowFields row) ⟨idText entryId,delta⟩) := by
  rw [Consumer.applyCrdtDelta,h,applyCrdtDelta]
  dsimp only
  cases hlast : row.lastAppliedStreamId with
  | none =>
    have hcursor : (rowFields row).lastAppliedStreamId = none := congrArg (Option.map idText) hlast
    rw [hcursor]
    exact integrated_row h delta entryId
  | some last =>
    have hcursor : (rowFields row).lastAppliedStreamId = some (idText last) :=
      congrArg (Option.map idText) hlast
    rw [hcursor]
    dsimp only
    rw [streamIdLe_idText]
    by_cases hle : Consumer.streamIdLe entryId last = true
    · simp only [Option.any_some,hle,if_true]
      exact congrArg (Option.map rowFields) h
    · simp only [Bool.not_eq_true] at hle
      simp only [Option.any_some,hle,Bool.false_eq_true,if_false]
      exact integrated_row h delta entryId

/-! ## Repetitions -/

variable {r : CursorRow} {e f : Delivery}

/-- A delivery with an effect makes its id the cursor. -/
theorem applied_cursor (h : applyCrdtDelta py r e ≠ r) :
    (applyCrdtDelta py r e).lastAppliedStreamId = some e.entryId := by
  have hintegrated : integrated py r e ≠ r →
      (integrated py r e).lastAppliedStreamId = some e.entryId := by
    unfold integrated
    cases integrate py r.yjsState e.delta with
    | none => exact fun hne => absurd rfl hne
    | some result => exact fun _ => rfl
  revert h
  unfold applyCrdtDelta
  cases r.lastAppliedStreamId with
  | none => exact hintegrated
  | some last =>
    dsimp only
    split
    · exact hintegrated
    · exact fun hne => absurd rfl hne

theorem skipped (hcursor : r.lastAppliedStreamId = some f.entryId) (h : e = f ∨ Before e f) :
    applyCrdtDelta py r e = r := by
  have hle : streamIdLe e.entryId f.entryId ≠ some false := by
    rcases h with rfl | hbefore
    · exact streamIdLe_self _
    · rw [streamIdLe_before hbefore]
      exact nofun
  rw [applyCrdtDelta,hcursor]
  dsimp only
  split
  · next hfalse => exact absurd hfalse hle
  · rfl

theorem applyCrdtDelta_absorbs (py : Pycrdt) : Absorbs (applyCrdtDelta py) Before :=
  fun _ _ _ heffect h => skipped (applied_cursor heffect) h

/-- However often entries come again after their first delivery, the row ends as
if each had come once in the order of the ids. -/
theorem deliveries_once (py : Pycrdt) (r : CursorRow) {deliveries once : List Delivery}
    (hfirsts : (firsts [] deliveries).Pairwise Before) (honce : once.Pairwise Before)
    (hsame : ∀ e, e ∈ once ↔ e ∈ deliveries) :
    deliveries.foldl (applyCrdtDelta py) r = once.foldl (applyCrdtDelta py) r :=
  foldl_once (applyCrdtDelta_absorbs py) (fun _ _ => before_asymm) hfirsts honce hsame r

def nine : Delivery := ⟨"9".toList,[1]⟩
def nineOne : Delivery := ⟨"9-1".toList,[2]⟩
def ten : Delivery := ⟨"10-0".toList,[3]⟩

theorem repeated_once :
    [nine,nine,nineOne,nine,ten,nineOne,ten].foldl (applyCrdtDelta arrivals) ⟨none,[],none⟩ =
      [nine,nineOne,ten].foldl (applyCrdtDelta arrivals) ⟨none,[],none⟩ :=
  deliveries_once arrivals _ (by decide) (by decide) (by simp; tauto)

end BlockDocs.ConsumedOnce
