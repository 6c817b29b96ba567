import BlockDocs.Consumer
import BlockDocs.GuardedRun

/-!
# The cursor of a block

Any number of consumer processes share the entries of one document stream with
each other and the table with the request transactions. The cursor of a row
is one high-water mark: an entry that is handled after a later one of the same
block is taken for applied and dropped.
-/

set_option autoImplicit false

namespace BlockDocs.ConsumerCursor
open BlockDocs.Wire BlockDocs.DocBlocks BlockDocs.ApplyOps BlockDocs.Crdt BlockDocs.Consumer
open BlockDocs.GuardedRun

/-- The batches are those the processes hold. `integrated` records, for each
present block, the entries whose deltas its stored state was made of. -/
structure World where
  db : Database
  stream : List StreamEntry
  delivered : ℕ
  batches : List (List StreamEntry)
  unacked : List StreamId
  integrated : Uuid → List StreamEntry

def World.initial (documents : List DocId) (users : List UserId) (consumers : ℕ) : World where
  db := .initial documents users
  stream := []
  delivered := 0
  batches := List.replicate consumers []
  unacked := []
  integrated := fun _ => []

/-- How handling an entry ends: acknowledged unless the handler raises, lost
between commit and acknowledgement, or failed before it wrote anything. -/
inductive Fate where
  | completes
  | unacknowledged
  | fails
  deriving DecidableEq

/-- `redeliver` hands out an unacknowledged entry once more; `abandon` is a
restart, or an iteration that an exception has ended. -/
inductive Action where
  | operation (docId : DocId) (userId : UserId) (op : BlockOperation)
  | append (entry : StreamEntry)
  | deliver (consumer count : ℕ)
  | handle (consumer : ℕ) (fate : Fate)
  | redeliver (consumer : ℕ) (id : StreamId)
  | abandon (consumer : ℕ)

variable (py : Pycrdt) (docId : DocId)

def handled (w : World) (consumer : ℕ) (fate : Fate) (e : StreamEntry)
    (rest : List StreamEntry) : World :=
  let next := { w with batches := w.batches.set consumer rest }
  let acked := { next with unacked := if fate = .completes then w.unacked.erase e.id
                                      else w.unacked }
  if fate = .fails then next
  else match handleEntry py w.db.blocks docId e with
    | .raised => next
    | .returned => acked
    | .updated t => { acked with
        db := { w.db with blocks := t }
        integrated := fun b => if Targets e b then w.integrated b++[e] else w.integrated b }

def step (w : World) : Action → Option World
  | .operation d userId op =>
    match applyOp w.db d userId op with
    | .ok (_,next) => some { w with
        db := next
        integrated := fun b => if Present docId next.blocks b then w.integrated b else [] }
    | .error _ => some w
  | .append entry =>
    if ∀ e ∈ w.stream, e.id < entry.id then some { w with stream := w.stream++[entry] } else none
  | .deliver consumer count =>
    match w.batches[consumer]? with
    | some [] =>
      let entries := (w.stream.drop w.delivered).take count
      some { w with
        delivered := w.delivered+entries.length
        batches := w.batches.set consumer entries
        unacked := w.unacked++entries.map StreamEntry.id }
    | _ => none
  | .handle consumer fate =>
    match w.batches[consumer]? with
    | some (e::rest) => some (handled py docId w consumer fate e rest)
    | _ => none
  | .redeliver consumer id =>
    match w.batches[consumer]?, w.stream.find? (fun e => e.id = id) with
    | some [], some e =>
      if id ∈ w.unacked ∧ ∀ q ∈ w.batches, e ∉ q then
        some { w with batches := w.batches.set consumer [e] }
      else none
    | _, _ => none
  | .abandon consumer =>
    if consumer < w.batches.length then some { w with batches := w.batches.set consumer [] }
    else none

def GapFree (w : World) : Prop :=
  ∀ r ∈ w.db.blocks.rows, r.docId = docId → ∀ last, r.lastAppliedStreamId = some last →
    ∀ e ∈ w.stream, Targets e r.blockId → e.id ≤ last → e ∈ w.integrated r.blockId

/-- An entry that reaches the UPDATE is the next one of its block: the cursor
has passed every earlier one. -/
def InOrder (w : World) : Action → Prop
  | .handle consumer fate => ∀ e rest row, w.batches[consumer]? = some (e::rest) →
      fate ≠ .fails → Integrates py w.db.blocks docId e row →
      ∀ e' ∈ w.stream, Targets e' row.blockId → e'.id < e.id →
        ∃ last, row.lastAppliedStreamId = some last ∧ e'.id ≤ last
  | _ => True

structure Inv (w : World) : Prop where
  increasing : w.stream.Pairwise (fun a b => a.id < b.id)
  queued : ∀ q ∈ w.batches, ∀ e ∈ q, e ∈ w.stream
  cursor : ∀ r ∈ w.db.blocks.rows, r.docId = docId → ∀ last, r.lastAppliedStreamId = some last →
    ∃ e ∈ w.stream, e.id = last
  behind : ∀ r ∈ w.db.blocks.rows, r.docId = docId → ∀ e ∈ w.integrated r.blockId,
    ∃ last, r.lastAppliedStreamId = some last ∧ e.id ≤ last
  hydrated : ∀ r ∈ w.db.blocks.rows, r.docId = docId →
    r.yjsState = stateAfter py ((w.integrated r.blockId).map StreamEntry.delta) none
  gone : ∀ b, ¬ Present docId w.db.blocks b → w.integrated b = []

/-! ## What one step does -/

inductive Stepped (w : World) (a : Action) (next : World) : Prop where
  | quiet (hdb : next.db = w.db) (hstream : next.stream = w.stream)
      (hintegrated : next.integrated = w.integrated)
      (hqueued : ∀ q ∈ next.batches, ∀ e ∈ q, e ∈ w.stream) (horder : InOrder py docId w a)
  | appended (entry : StreamEntry) (habove : ∀ e ∈ w.stream, e.id < entry.id)
      (hact : a = .append entry) (hnext : next = { w with stream := w.stream++[entry] })
  | operated (d : DocId) (userId : UserId) (op : BlockOperation) (applied : AppliedOp)
      (db : Database) (hact : a = .operation d userId op)
      (happlied : Applied w.db d userId op applied db)
      (hnext : next = { w with
        db := db
        integrated := fun b => if Present docId db.blocks b then w.integrated b else [] })
  | consumed (consumer : ℕ) (fate : Fate) (e : StreamEntry) (rest : List StreamEntry)
      (row : BlockRow) (state : Bytes) (content : JsonObj)
      (hact : a = .handle consumer fate) (hfate : fate ≠ .fails)
      (hhead : w.batches[consumer]? = some (e::rest))
      (hrow : Integrates py w.db.blocks docId e row)
      (hint : integrate py row.yjsState e.delta = some (state,content))
      (hdb : next.db.blocks.rows =
        setRow docId row.blockId (consumedRow state content e.id) w.db.blocks.rows)
      (hstream : next.stream = w.stream)
      (hintegrated : next.integrated =
        fun b => if Targets e b then w.integrated b++[e] else w.integrated b)
      (hqueued : ∀ q ∈ next.batches, ∀ e ∈ q, e ∈ w.stream)

variable {py docId}

theorem queued_set {w : World} (h : ∀ q ∈ w.batches, ∀ e ∈ q, e ∈ w.stream) {consumer : ℕ}
    {entries : List StreamEntry} (hentries : ∀ e ∈ entries, e ∈ w.stream) :
    ∀ q ∈ w.batches.set consumer entries, ∀ e ∈ q, e ∈ w.stream := by
  intro q hq e he
  rcases List.mem_or_eq_of_mem_set hq with hq | rfl
  · exact h q hq e he
  · exact hentries e he

theorem stepped_handle {w : World} (h : ∀ q ∈ w.batches, ∀ e ∈ q, e ∈ w.stream)
    {consumer : ℕ} {fate : Fate} {e : StreamEntry} {rest : List StreamEntry}
    (hhead : w.batches[consumer]? = some (e::rest)) :
    Stepped py docId w (.handle consumer fate) (handled py docId w consumer fate e rest) := by
  have hmem : e::rest ∈ w.batches := List.mem_of_getElem? hhead
  have hqueued : ∀ q ∈ w.batches.set consumer rest, ∀ e' ∈ q, e' ∈ w.stream :=
    queued_set h (fun e' he => h _ hmem e' (List.mem_cons_of_mem e he))
  have hquiet : (fate ≠ .fails → ∀ row, ¬ Integrates py w.db.blocks docId e row) →
      InOrder py docId w (.handle consumer fate) := by
    intro hnone e' rest' row hhead' hfate hrow
    obtain ⟨rfl,_⟩ := List.cons.inj (Option.some.inj (hhead.symm.trans hhead'))
    exact absurd hrow (hnone hfate row)
  have hnone : (∀ t, handleEntry py w.db.blocks docId e ≠ .updated t) →
      ∀ row, ¬ Integrates py w.db.blocks docId e row := by
    intro hne row hrow
    obtain ⟨t,ht⟩ := integrates_updates py hrow
    exact hne t ht
  unfold handled
  by_cases hfate : fate = .fails
  · rw [if_pos hfate]
    exact .quiet rfl rfl rfl hqueued (hquiet (fun hne => absurd hfate hne))
  · rw [if_neg hfate]
    cases hh : handleEntry py w.db.blocks docId e with
    | raised =>
      exact .quiet rfl rfl rfl hqueued (hquiet (fun _ => hnone (by simp [hh])))
    | returned =>
      exact .quiet rfl rfl rfl hqueued (hquiet (fun _ => hnone (by simp [hh])))
    | updated t =>
      obtain ⟨row,state,content,hrow,hint,rfl⟩ := (handleEntry_updated py).mp hh
      exact .consumed consumer fate e rest row state content rfl hfate hhead hrow hint rfl rfl rfl
        hqueued

theorem step_stepped {w next : World} {a : Action}
    (h : ∀ q ∈ w.batches, ∀ e ∈ q, e ∈ w.stream) (hstep : step py docId w a = some next) :
    Stepped py docId w a next := by
  cases a with
  | operation d userId op =>
    simp only [step] at hstep
    split at hstep
    · next applied db hok =>
      cases hstep
      exact .operated d userId op applied db rfl (applyOp_applied hok) rfl
    · cases hstep
      exact .quiet rfl rfl rfl h trivial
  | append entry =>
    simp only [step] at hstep
    split at hstep
    · next habove =>
      cases hstep
      exact .appended entry habove rfl rfl
    · cases hstep
  | deliver consumer count =>
    simp only [step] at hstep
    split at hstep
    · cases hstep
      refine .quiet rfl rfl rfl (queued_set h ?_) trivial
      exact fun e he => List.mem_of_mem_drop (List.mem_of_mem_take he)
    · cases hstep
  | handle consumer fate =>
    simp only [step] at hstep
    split at hstep
    · next e rest hhead =>
      cases hstep
      exact stepped_handle h hhead
    · cases hstep
  | redeliver consumer id =>
    simp only [step] at hstep
    split at hstep
    · next e _ hfind =>
      split at hstep
      · cases hstep
        have he : e ∈ w.stream := List.mem_of_find?_eq_some hfind
        exact .quiet rfl rfl rfl (queued_set h (by simpa using he)) trivial
      · cases hstep
    · cases hstep
  | abandon consumer =>
    simp only [step] at hstep
    split at hstep
    · cases hstep
      exact .quiet rfl rfl rfl (queued_set h (by simp)) trivial
    · cases hstep

/-- What an operation leaves of the columns the consumer owns. -/
theorem applied_rows {db next : Database} {d : DocId} {userId : UserId} {op : BlockOperation}
    {a : AppliedOp} (h : Applied db d userId op a next) {s : BlockRow}
    (hs : s ∈ next.blocks.rows) :
    (∃ r ∈ db.blocks.rows, s.blockId = r.blockId ∧ s.docId = r.docId ∧
      s.yjsState = r.yjsState ∧ s.lastAppliedStreamId = r.lastAppliedStreamId) ∨
    (s.yjsState = none ∧ s.lastAppliedStreamId = none ∧
      ∀ r ∈ db.blocks.rows, r.blockId ≠ s.blockId) := by
  have hset : ∀ {f : BlockRow → BlockRow} {b : Uuid}, s ∈ setRow d b f db.blocks.rows →
      (∀ r : BlockRow, (f r).blockId = r.blockId ∧ (f r).docId = r.docId ∧
        (f r).yjsState = r.yjsState ∧ (f r).lastAppliedStreamId = r.lastAppliedStreamId) →
      ∃ r ∈ db.blocks.rows, s.blockId = r.blockId ∧ s.docId = r.docId ∧
        s.yjsState = r.yjsState ∧ s.lastAppliedStreamId = r.lastAppliedStreamId := by
    intro f b hm hf
    obtain ⟨r,hr,rfl⟩ := mem_setRow.mp hm
    refine ⟨r,hr,?_⟩
    split
    · exact hf r
    · exact ⟨rfl,rfl,rfl,rfl⟩
  cases h with
  | insert _ _ _ _ hfresh _ _ hwrite _ =>
    rw [write_rows hwrite] at hs
    rcases List.mem_append.mp hs with hs | hs
    · exact Or.inl ⟨s,hs,rfl,rfl,rfl,rfl⟩
    · rw [List.mem_singleton] at hs
      subst hs
      exact Or.inr ⟨rfl,rfl,hfresh⟩
  | gone => exact Or.inl ⟨s,hs,rfl,rfl,rfl,rfl⟩
  | delete _ _ hrow => exact Or.inl ⟨s,(delete_sublist _ _ hrow).subset hs,rfl,rfl,rfl,rfl⟩
  | move _ _ _ _ _ _ _ _ _ hwrite _ =>
    rw [write_rows hwrite] at hs
    exact Or.inl (hset hs (fun r => ⟨rfl,rfl,rfl,rfl⟩))
  | attrs => exact Or.inl (hset hs (fun r => ⟨rfl,rfl,rfl,rfl⟩))
  | content => exact Or.inl (hset hs (fun r => ⟨rfl,rfl,rfl,rfl⟩))

theorem id_unique {stream : List StreamEntry} (h : stream.Pairwise (fun a b => a.id < b.id))
    {a b : StreamEntry} (ha : a ∈ stream) (hb : b ∈ stream) (hid : a.id = b.id) : a = b := by
  have hnodup : (stream.map StreamEntry.id).Nodup :=
    (List.pairwise_map.mpr h).imp (fun hlt => ne_of_lt hlt)
  exact List.inj_on_of_nodup_map hnodup ha hb hid

theorem inv_initial (documents : List DocId) (users : List UserId) (consumers : ℕ) :
    Inv py docId (.initial documents users consumers) where
  increasing := .nil
  queued q hq e he := by
    rw [List.eq_of_mem_replicate hq] at he
    exact absurd he List.not_mem_nil
  cursor r hr := absurd hr List.not_mem_nil
  behind r hr := absurd hr List.not_mem_nil
  hydrated r hr := absurd hr List.not_mem_nil
  gone _ _ := rfl

theorem inv_append {w : World} {entry : StreamEntry} (h : Inv py docId w)
    (habove : ∀ e ∈ w.stream, e.id < entry.id) :
    Inv py docId { w with stream := w.stream++[entry] } where
  increasing := List.pairwise_append.mpr ⟨h.increasing,List.pairwise_singleton _ _,
    fun e he e' he' => List.mem_singleton.mp he' ▸ habove e he⟩
  queued q hq e he := List.mem_append_left _ (h.queued q hq e he)
  cursor r hr hdoc last hlast := by
    obtain ⟨e,he,hid⟩ := h.cursor r hr hdoc last hlast
    exact ⟨e,List.mem_append_left _ he,hid⟩
  behind := h.behind
  hydrated := h.hydrated
  gone := h.gone

theorem inv_operation {w : World} {d : DocId} {userId : UserId} {op : BlockOperation}
    {a : AppliedOp} {db : Database} (h : Inv py docId w)
    (happlied : Applied w.db d userId op a db) :
    Inv py docId { w with
      db := db
      integrated := fun b => if Present docId db.blocks b then w.integrated b else [] } where
  increasing := h.increasing
  queued := h.queued
  cursor r hr hdoc last hlast := by
    rcases applied_rows happlied hr with ⟨s,hs,hid,hsd,_,hcur⟩ | ⟨_,hcur,_⟩
    · exact h.cursor s hs (hsd ▸ hdoc) last (hcur ▸ hlast)
    · rw [hcur] at hlast
      cases hlast
  behind r hr hdoc e he := by
    replace he : e ∈ if Present docId db.blocks r.blockId then w.integrated r.blockId else [] := he
    rw [if_pos ⟨r,hr,hdoc,rfl⟩] at he
    rcases applied_rows happlied hr with ⟨s,hs,hid,hsd,_,hcur⟩ | ⟨_,_,hnew⟩
    · rw [hcur]
      exact h.behind s hs (hsd ▸ hdoc) e (hid ▸ he)
    · rw [h.gone _ (fun hp => hnew _ hp.choose_spec.1 hp.choose_spec.2.2)] at he
      exact absurd he List.not_mem_nil
  hydrated r hr hdoc := by
    show r.yjsState = stateAfter py (List.map _ (if _ then _ else _)) none
    rw [if_pos ⟨r,hr,hdoc,rfl⟩]
    rcases applied_rows happlied hr with ⟨s,hs,hid,hsd,hy,_⟩ | ⟨hy,_,hnew⟩
    · rw [hy,hid]
      exact h.hydrated s hs (hsd ▸ hdoc)
    · rw [hy,h.gone _ (fun hp => hnew _ hp.choose_spec.1 hp.choose_spec.2.2)]
      rfl
  gone b hb := if_neg hb

theorem integrated_target {w next : World} {e : StreamEntry} {b : Uuid}
    (h : next.integrated = fun b => if Targets e b then w.integrated b++[e] else w.integrated b)
    (ht : Targets e b) : next.integrated b = w.integrated b++[e] := by
  rw [h]
  exact if_pos ht

theorem integrated_other {w next : World} {e : StreamEntry} {b b' : Uuid}
    (h : next.integrated = fun b => if Targets e b then w.integrated b++[e] else w.integrated b)
    (ht : Targets e b) (hne : b' ≠ b) : next.integrated b' = w.integrated b' := by
  rw [h]
  exact if_neg (fun ht' => hne (targets_unique ht' ht))

theorem inv_consumed {w next : World} {e : StreamEntry} {row : BlockRow} {state : Bytes}
    {content : JsonObj} (h : Inv py docId w) (he : e ∈ w.stream)
    (hrow : Integrates py w.db.blocks docId e row)
    (hint : integrate py row.yjsState e.delta = some (state,content))
    (hdb : next.db.blocks.rows =
      setRow docId row.blockId (consumedRow state content e.id) w.db.blocks.rows)
    (hstream : next.stream = w.stream)
    (hintegrated : next.integrated =
      fun b => if Targets e b then w.integrated b++[e] else w.integrated b)
    (hqueued : ∀ q ∈ next.batches, ∀ e ∈ q, e ∈ w.stream) : Inv py docId next := by
  obtain ⟨hmem,rfl,htargets,hlow,_⟩ := hrow
  have hcases : ∀ s ∈ next.db.blocks.rows,
      (s ∈ w.db.blocks.rows ∧ s.blockId ≠ row.blockId) ∨ s = consumedRow state content e.id row :=
    fun s hs => ((mem_written hmem).mp (hdb ▸ hs)).symm
  have hone : next.integrated (consumedRow state content e.id row).blockId =
      w.integrated row.blockId++[e] := integrated_target hintegrated htargets
  constructor
  · exact hstream ▸ h.increasing
  · exact hstream ▸ hqueued
  · intro s hs hdoc last hlast
    rw [hstream]
    rcases hcases s hs with ⟨hs,_⟩ | rfl
    · exact h.cursor s hs hdoc last hlast
    · exact ⟨e,he,Option.some.inj hlast⟩
  · intro s hs hdoc e' he'
    rcases hcases s hs with ⟨hs,hne⟩ | rfl
    · exact h.behind s hs hdoc e' (integrated_other hintegrated htargets hne ▸ he')
    · rw [hone] at he'
      refine ⟨e.id,rfl,?_⟩
      rcases List.mem_append.mp he' with he' | he'
      · obtain ⟨last,hlast,hle⟩ := h.behind row hmem rfl e' he'
        exact hle.trans (le_of_lt (hlow last hlast))
      · exact le_of_eq (congrArg StreamEntry.id (List.mem_singleton.mp he'))
  · intro s hs hdoc
    rcases hcases s hs with ⟨hs,hne⟩ | rfl
    · rw [integrated_other hintegrated htargets hne]
      exact h.hydrated s hs hdoc
    · rw [hone,List.map_append,stateAfter_append,← h.hydrated row hmem rfl]
      simp [stateAfter,hint,consumedRow]
  · intro b hb
    have hold : ¬ Present row.docId w.db.blocks b :=
      fun hp => hb (present_setRow hdb (consumedRow_place _ _ _) hp)
    have hne : b ≠ row.blockId := by
      rintro rfl
      exact hold ⟨row,hmem,rfl,rfl⟩
    rw [integrated_other hintegrated htargets hne]
    exact h.gone b hold

theorem inv_step {w next : World} {a : Action} (h : Inv py docId w)
    (hstep : step py docId w a = some next) : Inv py docId next := by
  cases step_stepped h.queued hstep with
  | quiet hdb hstream hintegrated hqueued _ =>
    constructor
    · exact hstream ▸ h.increasing
    · exact hstream ▸ hqueued
    · rw [hdb,hstream]; exact h.cursor
    · rw [hdb,hintegrated]; exact h.behind
    · rw [hdb,hintegrated]; exact h.hydrated
    · rw [hdb,hintegrated]; exact h.gone
  | appended entry habove _ hnext =>
    subst hnext
    exact inv_append h habove
  | operated d userId op applied db _ happlied hnext =>
    subst hnext
    exact inv_operation h happlied
  | consumed consumer fate e rest row state content _ _ hhead hrow hint hdb hstream hintegrated
      hqueued =>
    have he : e ∈ w.stream := h.queued _ (List.mem_of_getElem? hhead) e List.mem_cons_self
    exact inv_consumed h he hrow hint hdb hstream hintegrated hqueued

/-! ## When the cursor has no gap -/

theorem gapFree_initial (documents : List DocId) (users : List UserId) (consumers : ℕ) :
    GapFree docId (.initial documents users consumers) := by
  intro r hr
  exact absurd hr List.not_mem_nil

theorem gapFree_append {w : World} {entry : StreamEntry} (h : Inv py docId w)
    (hg : GapFree docId w) (habove : ∀ e ∈ w.stream, e.id < entry.id) :
    GapFree docId { w with stream := w.stream++[entry] } := by
  intro r hr hdoc last hlast e he ht hle
  rcases List.mem_append.mp he with he | he
  · exact hg r hr hdoc last hlast e he ht hle
  · obtain ⟨e',he',hid⟩ := h.cursor r hr hdoc last hlast
    have hlt : e'.id < e.id := List.mem_singleton.mp he ▸ habove e' he'
    rw [hid] at hlt
    exact absurd hle (not_le_of_gt hlt)

theorem gapFree_operation {w : World} {d : DocId} {userId : UserId} {op : BlockOperation}
    {a : AppliedOp} {db : Database} (hg : GapFree docId w)
    (happlied : Applied w.db d userId op a db) :
    GapFree docId { w with
      db := db
      integrated := fun b => if Present docId db.blocks b then w.integrated b else [] } := by
  intro r hr hdoc last hlast e he ht hle
  show e ∈ if Present docId db.blocks r.blockId then w.integrated r.blockId else []
  rw [if_pos ⟨r,hr,hdoc,rfl⟩]
  rcases applied_rows happlied hr with ⟨s,hs,hid,hsd,_,hcur⟩ | ⟨_,hcur,_⟩
  · rw [hid] at ht ⊢
    exact hg s hs (hsd ▸ hdoc) last (hcur ▸ hlast) e he ht hle
  · rw [hcur] at hlast
    cases hlast

/-- The consumed entry leaves no gap exactly when the cursor had passed every
earlier entry of the block. -/
theorem gapFree_consumed {w next : World} {e : StreamEntry} {row : BlockRow} {state : Bytes}
    {content : JsonObj} (h : Inv py docId w) (hg : GapFree docId w) (he : e ∈ w.stream)
    (hrow : Integrates py w.db.blocks docId e row)
    (hdb : next.db.blocks.rows =
      setRow docId row.blockId (consumedRow state content e.id) w.db.blocks.rows)
    (hstream : next.stream = w.stream)
    (hintegrated : next.integrated =
      fun b => if Targets e b then w.integrated b++[e] else w.integrated b) :
    GapFree docId next ↔ ∀ e' ∈ w.stream, Targets e' row.blockId → e'.id < e.id →
      ∃ last, row.lastAppliedStreamId = some last ∧ e'.id ≤ last := by
  obtain ⟨hmem,rfl,htargets,hlow,_⟩ := hrow
  have hone : next.integrated (consumedRow state content e.id row).blockId =
      w.integrated row.blockId++[e] := integrated_target hintegrated htargets
  have hnew : consumedRow state content e.id row ∈ next.db.blocks.rows :=
    hdb ▸ setRow_self hmem (consumedRow state content e.id)
  constructor
  · intro hfree e' he' ht hlt
    have hin := hfree _ hnew rfl e.id rfl e' (hstream ▸ he') ht (le_of_lt hlt)
    rw [hone] at hin
    rcases List.mem_append.mp hin with hin | hin
    · exact h.behind row hmem rfl e' hin
    · rw [List.mem_singleton.mp hin] at hlt
      exact absurd hlt (lt_irrefl _)
  · intro hpassed s hs hdoc last hlast e' he' ht hle
    rw [hstream] at he'
    rcases ((mem_written hmem).mp (hdb ▸ hs)).symm with ⟨hs,hne⟩ | rfl
    · rw [integrated_other hintegrated htargets hne]
      exact hg s hs hdoc last hlast e' he' ht hle
    · rw [hone]
      cases hlast
      rcases lt_or_eq_of_le hle with hlt | heq
      · obtain ⟨last,hlast,hle⟩ := hpassed e' he' ht hlt
        exact List.mem_append_left _ (hg row hmem rfl last hlast e' he' ht hle)
      · have hsame : e' = e := id_unique h.increasing he' he heq
        exact List.mem_append_right _ (List.mem_singleton.mpr hsame)

theorem gapFree_step {w next : World} {a : Action} (h : Inv py docId w) (hg : GapFree docId w)
    (hstep : step py docId w a = some next) : GapFree docId next ↔ InOrder py docId w a := by
  cases step_stepped h.queued hstep with
  | quiet hdb hstream hintegrated _ horder =>
    refine iff_of_true ?_ horder
    unfold GapFree
    rw [hdb,hstream,hintegrated]
    exact hg
  | appended entry habove hact hnext =>
    subst hnext hact
    exact iff_of_true (gapFree_append h hg habove) trivial
  | operated d userId op applied db hact happlied hnext =>
    subst hnext hact
    exact iff_of_true (gapFree_operation hg happlied) trivial
  | consumed consumer fate e rest row state content hact hfate hhead hrow hint hdb hstream
      hintegrated hqueued =>
    subst hact
    have he : e ∈ w.stream := h.queued _ (List.mem_of_getElem? hhead) e List.mem_cons_self
    rw [gapFree_consumed h hg he hrow hdb hstream hintegrated]
    constructor
    · intro hpassed e' rest' row' hhead' _ hrow'
      obtain ⟨rfl,_⟩ := List.cons.inj (Option.some.inj (hhead.symm.trans hhead'))
      have hid := targets_unique hrow.2.2.1 hrow'.2.2.1
      obtain rfl := row_unique w.db.blocks hrow.1 hrow'.1 hid
      exact hpassed
    · exact fun horder => horder e rest row hhead hfate hrow

/-- However many processes consume the entries, and whatever fails, is handed
out again or abandoned on the way: the cursor of every block is gap-free in all
states of a run exactly when each entry that reached the UPDATE was the next one
of its block. -/
theorem gapFree_throughout (documents : List DocId) (users : List UserId) (consumers : ℕ)
    (actions : List Action) :
    Throughout (step py docId) (GapFree docId) (.initial documents users consumers) actions ↔
      Along (step py docId) (InOrder py docId) (.initial documents users consumers) actions :=
  throughout_iff_along (fun _ _ _ h hs => inv_step h hs)
    (fun _ _ _ h hg hs => gapFree_step h hg hs) (inv_initial documents users consumers)
    (gapFree_initial documents users consumers)

/-- The record of integrated entries is what the stored states were made of. -/
theorem state_of_integrated (documents : List DocId) (users : List UserId) (consumers : ℕ)
    (actions : List Action) (w : World)
    (h : exec (step py docId) (.initial documents users consumers) actions = some w) :
    ∀ r ∈ w.db.blocks.rows, r.docId = docId →
      r.yjsState = stateAfter py ((w.integrated r.blockId).map StreamEntry.delta) none :=
  (exec_invariant (fun _ _ _ hi hs => inv_step hi hs) (inv_initial documents users consumers)
    h).hydrated

def deltaEntry (ms : ℕ) (blockId : Uuid) (delta : Bytes) : StreamEntry where
  id := toLex (ms,0)
  kind := "crdt"
  blockId := .uuid blockId
  delta := delta

/-- Two processes hold one entry each; the later entry is handled first, and the
earlier one is then taken for applied. -/
def overtaking : List Action :=
  [.operation 1 1 (insertUnder 7 none),.append (deltaEntry 1 7 [1]),.append (deltaEntry 2 7 [2]),
    .deliver 0 1,.deliver 1 1,.handle 1 .completes,.handle 0 .completes]

theorem overtaken_delta_lost :
    ∃ w, exec (step arrivals 1) (.initial [1] [1] 2) overtaking = some w ∧
      w.unacked = [] ∧ ¬ GapFree 1 w := by
  have h : ((exec (step arrivals 1) (.initial [1] [1] 2) overtaking).any (fun w =>
      w.unacked = [] ∧ ∃ r ∈ w.db.blocks.rows, r.docId = 1 ∧
        r.lastAppliedStreamId = some (toLex (2,0)) ∧
        ∃ e ∈ w.stream, Targets e r.blockId ∧ e.id ≤ toLex (2,0) ∧
          e ∉ w.integrated r.blockId)) = true := by decide
  obtain ⟨w,hw,hfacts⟩ := (Option.any_eq_true _ _).mp h
  obtain ⟨hacked,r,hr,hdoc,hlast,e,he,ht,hle,hout⟩ := of_decide_eq_true hfacts
  exact ⟨w,hw,hacked,fun hfree => hout (hfree r hr hdoc _ hlast e he ht hle)⟩

end BlockDocs.ConsumerCursor
