import BlockDocs.BlockForest
import BlockDocs.Consumer
import BlockDocs.Decimal
import BlockDocs.Slices

/-!
# Streams of several documents

One read of a consumer returns entries of all streams it knows, and other consumers handle
theirs at the same time. The rows of a document, and what is acknowledged of its stream,
depend on its own entries and their order alone.
-/

set_option autoImplicit false

namespace BlockDocs.ConsumedApart
open BlockDocs.Wire BlockDocs.DocBlocks BlockDocs.ApplyOps BlockDocs.Crdt BlockDocs.Consumer
open BlockDocs.BlockForest BlockDocs.Decimal BlockDocs.GuardedRun BlockDocs.Slices

abbrev Key := List Char

def streamKey (docId : DocId) : Key := "doc:".toList++(decimal docId++":stream".toList)

/-- The second part of the key, where it is a number in digits. -/
def docIdFromKey (key : Key) : Option DocId :=
  match key.dropWhile (· ≠ ':') with
  | [] => none
  | _::rest => readDecimal (rest.takeWhile (· ≠ ':'))

structure Batch where
  key : Key
  entries : List StreamEntry

variable (py : Pycrdt)

def consume (t : Table) (docId : DocId) (entry : StreamEntry) : Table × Option StreamId :=
  match handleEntry py t docId entry with
  | .raised => (t,none)
  | .returned => (t,some entry.id)
  | .updated next => (next,some entry.id)

/-- The loops of `_read_once`. A key that is none of a document ends them. -/
def readOnce : Table → List Batch → Table × List (DocId × StreamId)
  | t, [] => (t,[])
  | t, b::bs =>
    match docIdFromKey b.key with
    | none => (t,[])
    | some docId =>
      let (next,acked) := run (consume py) t (b.entries.map (fun e => (docId,e)))
      let (last,others) := readOnce next bs
      (last,acked++others)

def rowsOf (docId : DocId) (t : Table) : List BlockRow := t.rows.filter (fun r => r.docId = docId)

def entriesOf (bs : List Batch) : List (DocId × StreamEntry) :=
  bs.flatMap fun b => (docIdFromKey b.key).toList.flatMap fun d => b.entries.map (fun e => (d,e))

/-! ## Keys -/

theorem docIdFromKey_streamKey (docId : DocId) : docIdFromKey (streamKey docId) = some docId := by
  have hdrop : (streamKey docId).dropWhile (· ≠ ':') =
      ':'::(decimal docId++ ':'::"stream".toList) := rfl
  have hcolon : ∀ c ∈ decimal docId, (c ≠ ':' : Bool) = true := by
    intro c hc
    refine decide_eq_true ?_
    rintro rfl
    exact not_mem_decimal (by decide) docId hc
  rw [docIdFromKey,hdrop]
  dsimp only
  rw [List.takeWhile_append_of_pos hcolon,List.takeWhile_cons_of_neg (by decide),List.append_nil,
    readDecimal_decimal]

/-! ## One entry -/

variable {py} {t u : Table} {docId : DocId}

theorem find_rowsOf (t : Table) (docId : DocId) (blockId : Uuid) :
    t.find docId blockId = (rowsOf docId t).find? (fun r => r.blockId = blockId) := by
  rw [Table.find,rowsOf,List.find?_filter]
  congr 1
  funext r
  simp

theorem setRow_rowsOf (docId : DocId) (blockId : Uuid) {f : BlockRow → BlockRow}
    (hf : ∀ r, (f r).docId = r.docId) (rows : List BlockRow) :
    (setRow docId blockId f rows).filter (fun r => r.docId = docId) =
      (rows.filter (fun r => r.docId = docId)).map
        (fun r => if r.blockId = blockId then f r else r) := by
  induction rows with
  | nil => rfl
  | cons r rows ih =>
    rw [setRow,List.map_cons,← setRow]
    by_cases hdoc : r.docId = docId
    · by_cases hid : r.blockId = blockId <;> simp [hdoc,hid,hf,ih]
    · simp [hdoc,ih]

theorem setRow_others (docId : DocId) (blockId : Uuid) {f : BlockRow → BlockRow}
    (hf : ∀ r, (f r).docId = r.docId) {d : DocId} (hd : d ≠ docId) (rows : List BlockRow) :
    (setRow docId blockId f rows).filter (fun r => r.docId = d) =
      rows.filter (fun r => r.docId = d) := by
  induction rows with
  | nil => rfl
  | cons r rows ih =>
    rw [setRow,List.map_cons,← setRow]
    by_cases hdoc : r.docId = docId
    · have hr : r.docId ≠ d := fun h => hd (h.symm.trans hdoc)
      split
      · simp [hf,hr,ih]
      · simp [hr,ih]
    · simp [hdoc,List.filter_cons,ih]

theorem update_rowsOf (blockId : Uuid) (state : Bytes) (content : JsonObj) (id : StreamId)
    (h : rowsOf docId t = rowsOf docId u) :
    rowsOf docId (t.update docId blockId (consumedRow state content id)
        (consumedRow_place _ _ _)) =
      rowsOf docId (u.update docId blockId (consumedRow state content id)
        (consumedRow_place _ _ _)) := by
  have hkeeps : ∀ r, (consumedRow state content id r).docId = r.docId := fun _ => rfl
  rw [rowsOf,rowsOf] at h ⊢
  rw [Table.update,Table.update,setRow_rowsOf _ _ hkeeps,setRow_rowsOf _ _ hkeeps,h]

theorem consume_delta (blockId : Uuid) (delta : Bytes) (id : StreamId) (entry : StreamEntry)
    (ht : handleEntry py t docId entry = applyCrdtDelta py t docId blockId delta id)
    (hu : handleEntry py u docId entry = applyCrdtDelta py u docId blockId delta id)
    (h : rowsOf docId t = rowsOf docId u) :
    rowsOf docId (consume py t docId entry).1 = rowsOf docId (consume py u docId entry).1 ∧
      (consume py t docId entry).2 = (consume py u docId entry).2 := by
  have hfind : t.find docId blockId = u.find docId blockId := by
    rw [find_rowsOf,find_rowsOf,h]
  rw [consume,consume,ht,hu,applyCrdtDelta,applyCrdtDelta,hfind]
  cases u.find docId blockId with
  | none => exact ⟨h,rfl⟩
  | some row =>
    dsimp only
    by_cases hlast : row.lastAppliedStreamId.any (fun last => streamIdLe id last) = true
    · simp only [hlast,if_true]
      exact ⟨h,trivial⟩
    · simp only [hlast]
      cases integrate py row.yjsState delta with
      | none => exact ⟨h,rfl⟩
      | some result => exact ⟨update_rowsOf blockId result.1 result.2 id h,rfl⟩

/-- An entry reads and writes rows of its document only. -/
theorem consume_sliced : Sliced (consume py) rowsOf where
  reads := by
    intro t u docId e h
    by_cases hops : e.kind = "ops"
    · simp [consume,handleEntry,hops,h]
    by_cases hcrdt : e.kind = "crdt"
    · cases hid : e.blockId with
      | absent => simp [consume,handleEntry,hcrdt,hid,h]
      | malformed => by_cases hdelta : e.delta = [] <;> simp [consume,handleEntry,hcrdt,hid,hdelta,h]
      | uuid blockId =>
        by_cases hdelta : e.delta = []
        · simp [consume,handleEntry,hcrdt,hid,hdelta,h]
        · exact consume_delta blockId e.delta e.id e (by simp [handleEntry,hcrdt,hid,hdelta])
            (by simp [handleEntry,hcrdt,hid,hdelta]) h
    · simp [consume,handleEntry,hops,hcrdt,h]
  frames := by
    intro t docId d e hd
    cases hh : handleEntry py t docId e with
    | raised => rw [consume,hh]
    | returned => rw [consume,hh]
    | updated next =>
      obtain ⟨row,state,content,_,_,rfl⟩ := (handleEntry_updated py).mp hh
      rw [consume,hh]
      have hkeeps : ∀ r, (consumedRow state content e.id r).docId = r.docId := fun _ => rfl
      exact setRow_others docId row.blockId hkeeps hd t.rows

/-! ## One read -/

theorem readOnce_run (t : Table) (bs : List Batch)
    (hkeys : ∀ b ∈ bs, ∃ docId, b.key = streamKey docId) :
    readOnce py t bs = run (consume py) t (entriesOf bs) := by
  induction bs generalizing t with
  | nil => rfl
  | cons b bs ih =>
    obtain ⟨docId,hkey⟩ := hkeys b List.mem_cons_self
    have hdoc : docIdFromKey b.key = some docId := by rw [hkey,docIdFromKey_streamKey]
    have hentries : entriesOf (b::bs) = b.entries.map (fun e => (docId,e))++entriesOf bs := by
      rw [entriesOf,List.flatMap_cons,hdoc]
      exact congrArg (·++entriesOf bs) (List.flatMap_singleton ..)
    rw [readOnce,hdoc,hentries,run_append,← ih _ (fun b' hb => hkeys b' (List.mem_cons_of_mem b hb))]

/-- However the entries of a read are interleaved, by the order in which the streams come or
by consumers that share the work, each document gets the rows, and each stream the
acknowledgements, that the loops of one consumer give, as long as each stream stays in its
order. -/
theorem read_in_any_order (t : Table) (bs : List Batch)
    (hkeys : ∀ b ∈ bs, ∃ docId, b.key = streamKey docId) (work : List (DocId × StreamEntry))
    (hwork : ∀ d, work.filter (fun e => e.1 = d) = (entriesOf bs).filter (fun e => e.1 = d))
    (docId : DocId) :
    rowsOf docId (run (consume py) t work).1 = rowsOf docId (readOnce py t bs).1 ∧
      (run (consume py) t work).2.filter (fun o => o.1 = docId) =
        (readOnce py t bs).2.filter (fun o => o.1 = docId) := by
  rw [readOnce_run t bs hkeys]
  exact run_slice consume_sliced (hwork docId) rfl

def deltaOf (ms : ℕ) (blockId : Uuid) (delta : Bytes) : StreamEntry :=
  { id := toLex (ms,0), kind := "crdt", blockId := .uuid blockId, delta }

def twoStreams : List Batch :=
  [⟨streamKey 5,[deltaOf 1 7 [1],deltaOf 3 7 [2]]⟩,⟨streamKey 12,[deltaOf 2 8 [4]]⟩]

def shared : List (DocId × StreamEntry) :=
  [(5,deltaOf 1 7 [1]),(12,deltaOf 2 8 [4]),(5,deltaOf 3 7 [2])]

theorem second_stream_between :
    ∃ db, exec call (.initial [5,12] [1]) [⟨5,1,insertUnder 7 none⟩,⟨12,1,insertUnder 8 none⟩] =
        some db ∧
      rowsOf 5 (run (consume arrivals) db.blocks shared).1 =
        rowsOf 5 (readOnce arrivals db.blocks twoStreams).1 ∧
      (run (consume arrivals) db.blocks shared).2.filter (fun o => o.1 = 5) =
        (readOnce arrivals db.blocks twoStreams).2.filter (fun o => o.1 = 5) ∧
      (rowsOf 5 (readOnce arrivals db.blocks twoStreams).1).map (fun r => (r.blockId,r.yjsState)) =
        [(7,some [1,2])] := by
  have h : ((exec call (.initial [5,12] [1])
      [⟨5,1,insertUnder 7 none⟩,⟨12,1,insertUnder 8 none⟩]).any (fun db =>
        (rowsOf 5 (readOnce arrivals db.blocks twoStreams).1).map
          (fun r => (r.blockId,r.yjsState)) = [(7,some [1,2])])) = true := by decide
  obtain ⟨db,hdb,hstate⟩ := (Option.any_eq_true _ _).mp h
  have hkeys : ∀ b ∈ twoStreams, ∃ docId, b.key = streamKey docId := by
    intro b hb
    simp only [twoStreams,List.mem_cons,List.not_mem_nil,or_false] at hb
    rcases hb with rfl | rfl
    · exact ⟨5,rfl⟩
    · exact ⟨12,rfl⟩
  have hwork : ∀ d, shared.filter (fun e => e.1 = d) =
      (entriesOf twoStreams).filter (fun e => e.1 = d) := by
    intro d
    by_cases h5 : d = 5
    · subst h5
      simp [shared,twoStreams,entriesOf,docIdFromKey_streamKey]
    · by_cases h12 : d = 12
      · subst h12
        simp [shared,twoStreams,entriesOf,docIdFromKey_streamKey]
      · simp [shared,twoStreams,entriesOf,docIdFromKey_streamKey,Ne.symm h5,Ne.symm h12]
  obtain ⟨hrows,hacked⟩ := read_in_any_order db.blocks twoStreams hkeys shared hwork 5
  exact ⟨db,hdb,hrows,hacked,of_decide_eq_true hstate⟩

end BlockDocs.ConsumedApart
