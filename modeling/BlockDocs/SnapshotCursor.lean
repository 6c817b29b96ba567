import BlockDocs.ConsumerCursor
import BlockDocs.PostOperations

/-!
# The snapshot and its cursor

A snapshot request reads the rows first and the end of the stream afterwards.
Request transactions add their stream entry after the commit, the WS server
adds deltas that the consumer writes to the rows later. The cursor is the end
of the stream, not the part of it that the rows have caught up with.
-/

set_option autoImplicit false

namespace BlockDocs.SnapshotCursor
open BlockDocs.Wire BlockDocs.DocBlocks BlockDocs.ApplyOps BlockDocs.Crdt BlockDocs.Consumer
open BlockDocs.PostOperations BlockDocs.GuardedRun BlockDocs.BlockForest
open BlockDocs.ConsumerCursor (applied_rows id_unique)

/-- The entry of a request tells which commit it is about. -/
inductive Body where
  | ops (n : ℕ) (wireOps : List WireOp)
  | crdt (blockId : IdField) (delta : Bytes)

structure LogEntry where
  id : StreamId
  body : Body

def LogEntry.fields (e : LogEntry) : StreamEntry :=
  match e.body with
  | .ops _ _ => { id := e.id, kind := "ops" }
  | .crdt blockId delta => { id := e.id, kind := "crdt", blockId := blockId, delta := delta }

inductive Write where
  | batch (docId : DocId) (userId : UserId) (ops : List BlockOperation)
  | delta (entry : StreamEntry)

/-- `outgoing` holds the committed batches whose XADD is still to come, each
with the number of its commit. -/
structure World where
  db : Database
  writes : List Write
  outgoing : List (ℕ × List WireOp)
  stream : List LogEntry

def World.initial (documents : List DocId) (users : List UserId) : World where
  db := .initial documents users
  writes := []
  outgoing := []
  stream := []

inductive Action where
  | post (docId : DocId) (userId : UserId) (ops : List BlockOperation)
  | publish (i : ℕ) (id : StreamId)
  | losePublish (i : ℕ)
  | append (id : StreamId) (blockId : IdField) (delta : Bytes)
  | consume (i : ℕ)

section Step
variable (py : Pycrdt) (docId : DocId)

def posting (w : World) (d : DocId) (userId : UserId) (ops : List BlockOperation)
    (posted : Posted) : World :=
  { w with
    db := posted.database
    writes := w.writes++[.batch d userId ops]
    outgoing := if d = docId ∧ posted.wireOps.isEmpty = false
                then w.outgoing++[(w.writes.length,posted.wireOps)] else w.outgoing }

def step (w : World) : Action → Option World
  | .post d userId ops =>
    match postOperations w.db d userId ops with
    | some posted => some (posting docId w d userId ops posted)
    | none => some w
  | .publish i id =>
    match w.outgoing[i]? with
    | some (n,wireOps) =>
      if ∀ e ∈ w.stream, e.id < id then some { w with
        outgoing := w.outgoing.eraseIdx i
        stream := w.stream++[⟨id,.ops n wireOps⟩] }
      else none
    | none => none
  | .losePublish i => some { w with outgoing := w.outgoing.eraseIdx i }
  | .append id blockId delta =>
    if ∀ e ∈ w.stream, e.id < id then
      some { w with stream := w.stream++[⟨id,.crdt blockId delta⟩] }
    else none
  | .consume i =>
    match w.stream[i]? with
    | some e =>
      match handleEntry py w.db.blocks docId e.fields with
      | .updated t => some { w with
          db := { w.db with blocks := t }
          writes := w.writes++[.delta e.fields] }
      | _ => some w
    | none => none

end Step

/-! ## The snapshot request -/

structure BlocksResponse where
  docId : DocId
  blocks : List Block
  lastStreamId : StreamId

def rowOrder (r s : BlockRow) : Bool :=
  let key := fun (r : BlockRow) =>
    toLex (r.depth,toLex ((match r.parentId with | none => 0 | some p => p+1),r.position))
  key r ≤ key s

/-- The last generated id, or `0-0` for a stream that does not exist. -/
def streamLastId (stream : List LogEntry) : StreamId :=
  match stream.getLast? with
  | some e => e.id
  | none => toLex (0,0)

def selectBlocks (docId : DocId) (db : Database) : List Block :=
  ((db.blocks.rows.filter (fun r => r.docId = docId)).mergeSort rowOrder).map rowToBlock

/-- The SELECT runs in the first world, the read of the stream in the second. -/
def getBlocks (docId : DocId) (w w' : World) : BlocksResponse where
  docId := docId
  blocks := selectBlocks docId w.db
  lastStreamId := streamLastId w'.stream

/-! ## What the blocks show -/

section Shown
variable (py : Pycrdt) (docId : DocId) (documents : List DocId) (users : List UserId)

def redo (db : Database) : Write → Database
  | .batch d userId ops =>
    match postOperations db d userId ops with
    | some posted => posted.database
    | none => db
  | .delta e =>
    match handleEntry py db.blocks docId e with
    | .updated t => { db with blocks := t }
    | _ => db

def rebuild (writes : List Write) : Database :=
  writes.foldl (redo py docId) (.initial documents users)

def dbBefore (writes : List Write) (n : ℕ) : Database :=
  rebuild py docId documents users (writes.take n)

def Written (writes : List Write) (e : LogEntry) : Prop :=
  ∃ n t, writes[n]? = some (.delta e.fields) ∧
    handleEntry py (dbBefore py docId documents users writes n).blocks docId e.fields = .updated t

def Gone (writes : List Write) (b : Uuid) : Prop :=
  (∃ n, Present docId (dbBefore py docId documents users writes n).blocks b) ∧
    ¬ Present docId (rebuild py docId documents users writes).blocks b

/-- The writes have what the entry tells: the batch with exactly the operations
of the entry, all of them kept, or the delta, unless its block is gone. -/
def Within (writes : List Write) (e : LogEntry) : Prop :=
  match e.body with
  | .ops n wireOps => ∃ userId ops posted, writes[n]? = some (.batch docId userId ops) ∧
      postOperations (dbBefore py docId documents users writes n) docId userId ops = some posted ∧
      posted.wireOps = wireOps ∧
      Durable (dbBefore py docId documents users writes n) docId userId ops posted
  | .crdt _ _ => ∀ b, Targets e.fields b →
      Written py docId documents users writes e ∨ Gone py docId documents users writes b

/-- The blocks are those that the writes before the SELECT made, and no entry up
to the cursor is missing among these writes. -/
structure Covers (w w' : World) (response : BlocksResponse) : Prop where
  blocks : response.blocks = selectBlocks docId (rebuild py docId documents users w.writes)
  entries : ∀ e ∈ w'.stream, e.id ≤ response.lastStreamId →
    Within py docId documents users w.writes e

/-! ## When they show it -/

def Lost (writes : List Write) (n : ℕ) : Prop :=
  ∃ userId ops, writes[n]? = some (.batch docId userId ops) ∧
    LostToCollision (dbBefore py docId documents users writes n) docId userId ops

/-- The cursor of the row of the block is at the id or above it, or has been. -/
def Passed (writes : List Write) (id : StreamId) (b : Uuid) : Prop :=
  ∃ n, ∃ r ∈ (dbBefore py docId documents users writes n).blocks.rows, r.docId = docId ∧
    r.blockId = b ∧ ∃ last, r.lastAppliedStreamId = some last ∧ id ≤ last

/-- No batch in the stream was lost, and the cursors of the rows have passed the
deltas in the stream, but for blocks that are gone. -/
def CaughtUp (w : World) : Prop :=
  ∀ e ∈ w.stream, match e.body with
    | .ops n _ => ¬ Lost py docId documents users w.writes n
    | .crdt _ _ => ∀ b, Targets e.fields b → Passed py docId documents users w.writes e.id b ∨
        Gone py docId documents users w.writes b

/-- Seen from a SELECT in `w`: no delta is added but for a block that is gone, and
no batch is published that was committed later or lost. -/
def NoNews (w now : World) : Action → Prop
  | .append id blockId delta => ∀ b, Targets (LogEntry.fields ⟨id,.crdt blockId delta⟩) b →
      Gone py docId documents users w.writes b
  | .publish i _ => ∀ n wireOps, now.outgoing[i]? = some (n,wireOps) →
      n < w.writes.length ∧ ¬ Lost py docId documents users w.writes n
  | _ => True

/-- A delta that reaches the UPDATE is the next one of its block: the cursor has
passed every earlier one. -/
def InOrder (w : World) : Action → Prop
  | .consume i => ∀ e row, w.stream[i]? = some e → Integrates py w.db.blocks docId e.fields row →
      ∀ e' ∈ w.stream, Targets e'.fields row.blockId → e'.id < e.id →
        ∃ last, row.lastAppliedStreamId = some last ∧ e'.id ≤ last
  | _ => True

end Shown

variable {py : Pycrdt} {docId : DocId} {documents : List DocId} {users : List UserId}

/-! ## Writes that are added -/

theorem rebuild_append (writes : List Write) (x : Write) :
    rebuild py docId documents users (writes++[x]) =
      redo py docId (rebuild py docId documents users writes) x := by
  simp only [rebuild,List.foldl_append,List.foldl_cons,List.foldl_nil]

theorem dbBefore_append {writes : List Write} {n : ℕ} (h : n ≤ writes.length) (x : Write) :
    dbBefore py docId documents users (writes++[x]) n =
      dbBefore py docId documents users writes n := by
  rw [dbBefore,dbBefore,List.take_append_of_le_length h]

theorem dbBefore_all {writes : List Write} {n : ℕ} (h : writes.length ≤ n) :
    dbBefore py docId documents users writes n = rebuild py docId documents users writes := by
  rw [dbBefore,List.take_of_length_le h]

theorem dbBefore_succ {writes : List Write} {n : ℕ} {x : Write} (h : writes[n]? = some x) :
    dbBefore py docId documents users writes (n+1) =
      redo py docId (dbBefore py docId documents users writes n) x := by
  rw [dbBefore,List.take_add_one,h,Option.toList_some,rebuild_append,dbBefore]

/-- What holds of the databases before and after every write holds with one more
write, if it holds of the database this one makes. -/
theorem dbBefore_forall {writes : List Write} {x : Write} {P : Database → Prop}
    (h : ∀ n, P (dbBefore py docId documents users writes n))
    (hx : P (rebuild py docId documents users (writes++[x]))) (n : ℕ) :
    P (dbBefore py docId documents users (writes++[x]) n) := by
  rcases Nat.lt_or_ge writes.length n with hn | hn
  · rw [dbBefore_all (by rw [List.length_append,List.length_singleton]; omega)]
    exact hx
  · rw [dbBefore_append hn]
    exact h n

theorem written_append {writes : List Write} {e : LogEntry}
    (h : Written py docId documents users writes e) (x : Write) :
    Written py docId documents users (writes++[x]) e := by
  obtain ⟨n,t,hn,ht⟩ := h
  have hlt : n < writes.length := (List.getElem?_eq_some_iff.mp hn).1
  refine ⟨n,t,?_,?_⟩
  · rw [List.getElem?_append_left hlt,hn]
  · rw [dbBefore_append (le_of_lt hlt)]
    exact ht

def Posts (py : Pycrdt) (docId : DocId) (documents : List DocId) (users : List UserId)
    (writes : List Write) (n : ℕ) (wireOps : List WireOp) : Prop :=
  ∃ userId ops posted, writes[n]? = some (.batch docId userId ops) ∧
    postOperations (dbBefore py docId documents users writes n) docId userId ops = some posted ∧
    posted.wireOps = wireOps

theorem Posts.lt {writes : List Write} {n : ℕ} {wireOps : List WireOp}
    (h : Posts py docId documents users writes n wireOps) : n < writes.length := by
  obtain ⟨_,_,_,hn,_⟩ := h
  exact (List.getElem?_eq_some_iff.mp hn).1

theorem posts_append {writes : List Write} {n : ℕ} {wireOps : List WireOp} (h : n < writes.length)
    (x : Write) : Posts py docId documents users (writes++[x]) n wireOps ↔
      Posts py docId documents users writes n wireOps := by
  unfold Posts
  rw [List.getElem?_append_left h,dbBefore_append (le_of_lt h)]

theorem posts_earlier {writes more : List Write} (hpre : writes <+: more) {n : ℕ}
    {wireOps : List WireOp} (h : n < writes.length) :
    Posts py docId documents users more n wireOps ↔
      Posts py docId documents users writes n wireOps := by
  obtain ⟨rest,rfl⟩ := hpre
  unfold Posts dbBefore
  rw [List.getElem?_append_left h,List.take_append_of_le_length (le_of_lt h)]

/-- An entry of a request is among the writes exactly when its commit is one of
them and was not lost. -/
theorem within_ops_iff {writes : List Write} {e : LogEntry} {n : ℕ} {wireOps : List WireOp}
    (hb : e.body = .ops n wireOps)
    (h : n < writes.length → Posts py docId documents users writes n wireOps) :
    Within py docId documents users writes e ↔
      n < writes.length ∧ ¬ Lost py docId documents users writes n := by
  have hwithin : Within py docId documents users writes e ↔
      ∃ userId ops posted, writes[n]? = some (.batch docId userId ops) ∧
        postOperations (dbBefore py docId documents users writes n) docId userId ops = some posted ∧
        posted.wireOps = wireOps ∧
        Durable (dbBefore py docId documents users writes n) docId userId ops posted := by
    unfold Within
    rw [hb]
  rw [hwithin]
  have hkept : ∀ {userId : UserId} {ops : List BlockOperation} {posted : Posted},
      postOperations (dbBefore py docId documents users writes n) docId userId ops = some posted →
      (Durable (dbBefore py docId documents users writes n) docId userId ops posted ↔
        ¬ LostToCollision (dbBefore py docId documents users writes n) docId userId ops) := by
    intro userId ops posted hposted
    obtain ⟨tx,hended,_,hdurable⟩ := durable_iff_commit hposted
    rw [hdurable,commit_kept_iff hended]
  constructor
  · rintro ⟨userId,ops,posted,hn,hposted,_,hdurable⟩
    refine ⟨(List.getElem?_eq_some_iff.mp hn).1,?_⟩
    rintro ⟨userId',ops',hn',hlost⟩
    cases hn.symm.trans hn'
    exact (hkept hposted).mp hdurable hlost
  · rintro ⟨hlt,hlost⟩
    obtain ⟨userId,ops,posted,hn,hposted,hops⟩ := h hlt
    refine ⟨userId,ops,posted,hn,hposted,hops,(hkept hposted).mpr ?_⟩
    exact fun hl => hlost ⟨userId,ops,hn,hl⟩

/-! ## What every step keeps -/

structure Inv (py : Pycrdt) (docId : DocId) (documents : List DocId) (users : List UserId)
    (w : World) : Prop where
  increasing : w.stream.Pairwise (fun a b => a.id < b.id)
  rebuilt : w.db = rebuild py docId documents users w.writes
  consumed : ∀ (n : ℕ) (f : StreamEntry), w.writes[n]? = some (.delta f) →
    ∃ e ∈ w.stream, e.fields = f
  outgoing : ∀ p ∈ w.outgoing, Posts py docId documents users w.writes p.1 p.2
  published : ∀ e ∈ w.stream, ∀ n wireOps, e.body = .ops n wireOps →
    Posts py docId documents users w.writes n wireOps

theorem inv_initial (documents : List DocId) (users : List UserId) :
    Inv py docId documents users (.initial documents users) where
  increasing := .nil
  rebuilt := rfl
  consumed _ _ h := absurd h (by simp [World.initial])
  outgoing _ h := absurd h List.not_mem_nil
  published _ h := absurd h List.not_mem_nil

theorem increasing_append {stream : List LogEntry} {e : LogEntry}
    (h : stream.Pairwise (fun a b => a.id < b.id)) (habove : ∀ a ∈ stream, a.id < e.id) :
    (stream++[e]).Pairwise (fun a b => a.id < b.id) :=
  List.pairwise_append.mpr ⟨h,List.pairwise_singleton _ _,
    fun a ha _ hb => List.mem_singleton.mp hb ▸ habove a ha⟩

theorem getElem?_append_singleton {writes : List Write} {x y : Write} {n : ℕ}
    (h : (writes++[x])[n]? = some y) : writes[n]? = some y ∨ y = x := by
  rcases List.mem_append.mp (List.mem_of_getElem? h) with hy | hy
  · by_cases hn : n < writes.length
    · exact Or.inl (by rwa [List.getElem?_append_left hn] at h)
    · have hlen : n < (writes++[x]).length := (List.getElem?_eq_some_iff.mp h).1
      rw [List.length_append,List.length_singleton] at hlen
      have heq : n = writes.length := by omega
      rw [heq,List.getElem?_concat_length] at h
      exact Or.inr (Option.some.inj h).symm
  · exact Or.inr (List.mem_singleton.mp hy)

theorem inv_posting {w : World} (h : Inv py docId documents users w) {d : DocId} {userId : UserId}
    {ops : List BlockOperation} {posted : Posted}
    (hposted : postOperations w.db d userId ops = some posted) :
    Inv py docId documents users (posting docId w d userId ops posted) where
  increasing := h.increasing
  rebuilt := by
    show posted.database = rebuild py docId documents users (w.writes++[.batch d userId ops])
    rw [rebuild_append,← h.rebuilt,redo,hposted]
  consumed n f hn := by
    rcases getElem?_append_singleton hn with hn | hn
    · exact h.consumed n f hn
    · cases hn
  outgoing p hp := by
    have hold : ∀ p ∈ w.outgoing,
        Posts py docId documents users (w.writes++[.batch d userId ops]) p.1 p.2 :=
      fun p hp => (posts_append (h.outgoing p hp).lt _).mpr (h.outgoing p hp)
    change p ∈ (if d = docId ∧ posted.wireOps.isEmpty = false
      then w.outgoing++[(w.writes.length,posted.wireOps)] else w.outgoing) at hp
    split at hp
    · next hd =>
      rcases List.mem_append.mp hp with hp | hp
      · exact hold p hp
      · rw [List.mem_singleton.mp hp]
        obtain ⟨rfl,_⟩ := hd
        refine ⟨userId,ops,posted,List.getElem?_concat_length,?_,rfl⟩
        show postOperations (dbBefore py d documents users (w.writes++[_]) w.writes.length) _ _ _ =
          some posted
        rw [dbBefore_append le_rfl,dbBefore_all le_rfl,← h.rebuilt]
        exact hposted
    · exact hold p hp
  published e he n wireOps hb :=
    (posts_append (h.published e he n wireOps hb).lt _).mpr (h.published e he n wireOps hb)

theorem inv_publish {w : World} (h : Inv py docId documents users w) {i n : ℕ}
    {wireOps : List WireOp} {id : StreamId} (hi : w.outgoing[i]? = some (n,wireOps))
    (habove : ∀ e ∈ w.stream, e.id < id) :
    Inv py docId documents users { w with
      outgoing := w.outgoing.eraseIdx i
      stream := w.stream++[⟨id,.ops n wireOps⟩] } where
  increasing := increasing_append h.increasing habove
  rebuilt := h.rebuilt
  consumed m f hm := by
    obtain ⟨e,he,hf⟩ := h.consumed m f hm
    exact ⟨e,List.mem_append_left _ he,hf⟩
  outgoing p hp := h.outgoing p (List.mem_of_mem_eraseIdx hp)
  published e he m ops hb := by
    rcases List.mem_append.mp he with he | he
    · exact h.published e he m ops hb
    · rw [List.mem_singleton.mp he] at hb
      cases hb
      exact h.outgoing _ (List.mem_of_getElem? hi)

theorem inv_append {w : World} (h : Inv py docId documents users w) {id : StreamId}
    {blockId : IdField} {delta : Bytes} (habove : ∀ e ∈ w.stream, e.id < id) :
    Inv py docId documents users { w with stream := w.stream++[⟨id,.crdt blockId delta⟩] } where
  increasing := increasing_append h.increasing habove
  rebuilt := h.rebuilt
  consumed m f hm := by
    obtain ⟨e,he,hf⟩ := h.consumed m f hm
    exact ⟨e,List.mem_append_left _ he,hf⟩
  outgoing := h.outgoing
  published e he m ops hb := by
    rcases List.mem_append.mp he with he | he
    · exact h.published e he m ops hb
    · rw [List.mem_singleton.mp he] at hb
      cases hb

theorem inv_consumed {w : World} (h : Inv py docId documents users w) {e : LogEntry} {t : Table}
    (he : e ∈ w.stream) (ht : handleEntry py w.db.blocks docId e.fields = .updated t) :
    Inv py docId documents users { w with
      db := { w.db with blocks := t }
      writes := w.writes++[.delta e.fields] } where
  increasing := h.increasing
  rebuilt := by
    show _ = rebuild py docId documents users (w.writes++[.delta e.fields])
    rw [rebuild_append,← h.rebuilt,redo,ht]
  consumed n f hn := by
    rcases getElem?_append_singleton hn with hn | hn
    · exact h.consumed n f hn
    · cases hn
      exact ⟨e,he,rfl⟩
  outgoing p hp := (posts_append (h.outgoing p hp).lt _).mpr (h.outgoing p hp)
  published e he n wireOps hb :=
    (posts_append (h.published e he n wireOps hb).lt _).mpr (h.published e he n wireOps hb)

inductive Stepped (py : Pycrdt) (docId : DocId) (w : World) (a : Action) (next : World) : Prop where
  | quiet (hdb : next.db = w.db) (hwrites : next.writes = w.writes)
      (hstream : next.stream = w.stream) (houtgoing : ∀ p ∈ next.outgoing, p ∈ w.outgoing)
      (hact : (∀ i id, a ≠ .publish i id) ∧ ∀ id blockId delta, a ≠ .append id blockId delta)
  | posted (d : DocId) (userId : UserId) (ops : List BlockOperation) (posted : Posted)
      (hact : a = .post d userId ops) (hposted : postOperations w.db d userId ops = some posted)
      (hnext : next = posting docId w d userId ops posted)
  | published (i n : ℕ) (wireOps : List WireOp) (id : StreamId) (hact : a = .publish i id)
      (hi : w.outgoing[i]? = some (n,wireOps)) (habove : ∀ e ∈ w.stream, e.id < id)
      (hnext : next = { w with
        outgoing := w.outgoing.eraseIdx i
        stream := w.stream++[⟨id,.ops n wireOps⟩] })
  | appended (id : StreamId) (blockId : IdField) (delta : Bytes)
      (hact : a = .append id blockId delta) (habove : ∀ e ∈ w.stream, e.id < id)
      (hnext : next = { w with stream := w.stream++[⟨id,.crdt blockId delta⟩] })
  | consumed (i : ℕ) (e : LogEntry) (t : Table) (hact : a = .consume i)
      (he : w.stream[i]? = some e)
      (ht : handleEntry py w.db.blocks docId e.fields = .updated t)
      (hnext : next = { w with
        db := { w.db with blocks := t }
        writes := w.writes++[.delta e.fields] })

theorem step_stepped {w next : World} {a : Action} (h : step py docId w a = some next) :
    Stepped py docId w a next := by
  cases a with
  | post d userId ops =>
    simp only [step] at h
    split at h
    · next posted hposted =>
      cases h
      exact .posted d userId ops posted rfl hposted rfl
    · cases h
      exact .quiet rfl rfl rfl (fun _ hp => hp) (by simp)
  | publish i id =>
    simp only [step] at h
    split at h
    · next n wireOps hi =>
      split at h
      · next habove =>
        cases h
        exact .published i n wireOps id rfl hi habove rfl
      · cases h
    · cases h
  | losePublish i =>
    cases h
    exact .quiet rfl rfl rfl (fun _ hp => List.mem_of_mem_eraseIdx hp) (by simp)
  | append id blockId delta =>
    simp only [step] at h
    split at h
    · next habove =>
      cases h
      exact .appended id blockId delta rfl habove rfl
    · cases h
  | consume i =>
    simp only [step] at h
    split at h
    · next e he =>
      split at h
      · next t ht =>
        cases h
        exact .consumed i e t rfl he ht rfl
      · cases h
        exact .quiet rfl rfl rfl (fun _ hp => hp) (by simp)
    · cases h

theorem inv_step {w next : World} {a : Action} (h : Inv py docId documents users w)
    (hstep : step py docId w a = some next) : Inv py docId documents users next := by
  cases step_stepped hstep with
  | quiet hdb hwrites hstream houtgoing _ =>
    constructor
    · exact hstream ▸ h.increasing
    · rw [hdb,hwrites]; exact h.rebuilt
    · rw [hwrites,hstream]; exact h.consumed
    · rw [hwrites]; exact fun p hp => h.outgoing p (houtgoing p hp)
    · rw [hwrites,hstream]; exact h.published
  | posted d userId ops posted _ hposted hnext =>
    rw [hnext]
    exact inv_posting h hposted
  | published i n wireOps id _ hi habove hnext =>
    rw [hnext]
    exact inv_publish h hi habove
  | appended id blockId delta _ habove hnext =>
    rw [hnext]
    exact inv_append h habove
  | consumed i e t _ he ht hnext =>
    rw [hnext]
    exact inv_consumed h (List.mem_of_getElem? he) ht

/-! ## Cursors without gaps -/

def Gapless (py : Pycrdt) (docId : DocId) (documents : List DocId) (users : List UserId)
    (stream : List LogEntry) (writes : List Write) (db : Database) : Prop :=
  ∀ r ∈ db.blocks.rows, r.docId = docId → ∀ last, r.lastAppliedStreamId = some last →
    (∃ e ∈ stream, e.id = last) ∧ ∀ e ∈ stream, Targets e.fields r.blockId → e.id ≤ last →
      Written py docId documents users writes e

def AlwaysGapless (py : Pycrdt) (docId : DocId) (documents : List DocId) (users : List UserId)
    (w : World) : Prop :=
  ∀ n, Gapless py docId documents users w.stream w.writes
    (dbBefore py docId documents users w.writes n)

theorem fields_id (e : LogEntry) : e.fields.id = e.id := by
  unfold LogEntry.fields
  split <;> rfl

theorem gapless_write {stream : List LogEntry} {writes : List Write} {db : Database}
    (h : Gapless py docId documents users stream writes db) (x : Write) :
    Gapless py docId documents users stream (writes++[x]) db := by
  intro r hr hdoc last hlast
  obtain ⟨hid,hall⟩ := h r hr hdoc last hlast
  exact ⟨hid,fun e he ht hle => written_append (hall e he ht hle) x⟩

theorem gapless_entry {stream : List LogEntry} {writes : List Write} {db : Database} {e : LogEntry}
    (h : Gapless py docId documents users stream writes db) (habove : ∀ a ∈ stream, a.id < e.id) :
    Gapless py docId documents users (stream++[e]) writes db := by
  intro r hr hdoc last hlast
  obtain ⟨⟨a,ha,hid⟩,hall⟩ := h r hr hdoc last hlast
  refine ⟨⟨a,List.mem_append_left _ ha,hid⟩,fun e' he' ht hle => ?_⟩
  rcases List.mem_append.mp he' with he' | he'
  · exact hall e' he' ht hle
  · rw [List.mem_singleton.mp he',← hid] at hle
    exact absurd (habove a ha) (not_lt_of_ge hle)

/-- Operations move cursors nowhere: a row has the one it had, or none. -/
theorem settled_rows {db : Database} {d : DocId} {userId : UserId} {ops : List BlockOperation}
    {s : BlockRow} (hs : s ∈ (settle d userId db ops).blocks.rows) :
    (∃ r ∈ db.blocks.rows, s.blockId = r.blockId ∧ s.docId = r.docId ∧
      s.lastAppliedStreamId = r.lastAppliedStreamId) ∨ s.lastAppliedStreamId = none := by
  induction ops generalizing db with
  | nil => exact Or.inl ⟨s,hs,rfl,rfl,rfl⟩
  | cons op ops ih =>
    unfold settle at hs
    split at hs
    · next a next hok =>
      rcases ih hs with ⟨r,hr,hid,hdoc,hcur⟩ | hnone
      · rcases applied_rows (applyOp_applied hok) hr with ⟨q,hq,hid',hdoc',_,hcur'⟩ | ⟨_,hnone,_⟩
        · exact Or.inl ⟨q,hq,hid.trans hid',hdoc.trans hdoc',hcur.trans hcur'⟩
        · exact Or.inr (hcur.trans hnone)
      · exact Or.inr hnone
    · exact ih hs

theorem posted_rows {db : Database} {d : DocId} {userId : UserId} {ops : List BlockOperation}
    {posted : Posted} (h : postOperations db d userId ops = some posted) {s : BlockRow}
    (hs : s ∈ posted.database.blocks.rows) :
    (∃ r ∈ db.blocks.rows, s.blockId = r.blockId ∧ s.docId = r.docId ∧
      s.lastAppliedStreamId = r.lastAppliedStreamId) ∨ s.lastAppliedStreamId = none := by
  obtain ⟨tx,hended,hdb,_⟩ := durable_iff_commit h
  rw [hdb] at hs
  cases hended with
  | sound _ => exact settled_rows hs
  | failed _ => exact Or.inl ⟨s,hs,rfl,rfl,rfl⟩

theorem gapless_posting {stream : List LogEntry} {writes : List Write} {db : Database}
    {d : DocId} {userId : UserId} {ops : List BlockOperation} {posted : Posted}
    (h : Gapless py docId documents users stream writes db)
    (hposted : postOperations db d userId ops = some posted) :
    Gapless py docId documents users stream writes posted.database := by
  intro s hs hdoc last hlast
  rcases posted_rows hposted hs with ⟨r,hr,hid,hdoc',hcur⟩ | hnone
  · rw [hid]
    exact h r hr (hdoc'.symm.trans hdoc) last (hcur.symm.trans hlast)
  · rw [hnone] at hlast
    cases hlast

theorem entry_unique {stream : List LogEntry} (h : stream.Pairwise (fun a b => a.id < b.id))
    {a b : LogEntry} (ha : a ∈ stream) (hb : b ∈ stream) (hid : a.id = b.id) : a = b := by
  have hnodup : (stream.map LogEntry.id).Nodup :=
    (List.pairwise_map.mpr h).imp (fun hlt => ne_of_lt hlt)
  exact List.inj_on_of_nodup_map hnodup ha hb hid

/-- The row that the consumer writes has a gapless cursor when the one before it
had passed every earlier delta. -/
theorem gapless_consumed {w : World} {e : LogEntry} {t : Table}
    (hinv : Inv py docId documents users w)
    (h : Gapless py docId documents users w.stream w.writes w.db) (he : e ∈ w.stream)
    (ht : handleEntry py w.db.blocks docId e.fields = .updated t)
    (horder : ∀ row, Integrates py w.db.blocks docId e.fields row →
      ∀ e' ∈ w.stream, Targets e'.fields row.blockId → e'.id < e.id →
        ∃ last, row.lastAppliedStreamId = some last ∧ e'.id ≤ last) :
    Gapless py docId documents users w.stream (w.writes++[.delta e.fields])
      { w.db with blocks := t } := by
  have hself : Written py docId documents users (w.writes++[.delta e.fields]) e := by
    refine ⟨w.writes.length,t,List.getElem?_concat_length,?_⟩
    rw [dbBefore_append le_rfl,dbBefore_all le_rfl,← hinv.rebuilt]
    exact ht
  obtain ⟨row,state,content,hrow,_,rfl⟩ := (handleEntry_updated py).mp ht
  intro s hs hdoc last hlast
  rcases (mem_written hrow.1).mp (hrow.2.1 ▸ hs) with rfl | ⟨hs,_⟩
  · have hid : e.id = last := (fields_id e).symm.trans (Option.some.inj hlast)
    subst hid
    refine ⟨⟨e,he,rfl⟩,fun e' he' ht' hle => ?_⟩
    rcases lt_or_eq_of_le hle with hlt | heq
    · obtain ⟨last,hcur,hle'⟩ := horder row hrow e' he' ht' hlt
      exact written_append ((h row hrow.1 hrow.2.1 last hcur).2 e' he' ht' hle') _
    · exact entry_unique hinv.increasing he' he heq ▸ hself
  · exact gapless_write h _ s hs hdoc last hlast

theorem alwaysGapless_write {w : World} {x : Write} {db : Database}
    (h : AlwaysGapless py docId documents users w)
    (hdb : db = rebuild py docId documents users (w.writes++[x]))
    (hx : Gapless py docId documents users w.stream (w.writes++[x]) db) (n : ℕ) :
    Gapless py docId documents users w.stream (w.writes++[x])
      (dbBefore py docId documents users (w.writes++[x]) n) :=
  dbBefore_forall (fun n => gapless_write (h n) x) (hdb ▸ hx) n

theorem alwaysGapless_step {w next : World} {a : Action} (hinv : Inv py docId documents users w)
    (h : AlwaysGapless py docId documents users w) (hstep : step py docId w a = some next)
    (horder : InOrder py docId w a) : AlwaysGapless py docId documents users next := by
  have hnow : Gapless py docId documents users w.stream w.writes w.db := by
    rw [hinv.rebuilt,← dbBefore_all le_rfl]
    exact h _
  have hrebuilt := (inv_step hinv hstep).rebuilt
  cases step_stepped hstep with
  | quiet hdb hwrites hstream houtgoing _ =>
    unfold AlwaysGapless
    rw [hwrites,hstream]
    exact h
  | posted d userId ops posted _ hposted hnext =>
    subst hnext
    exact alwaysGapless_write h hrebuilt (gapless_write (gapless_posting hnow hposted) _)
  | published i n wireOps id _ hi habove hnext =>
    subst hnext
    exact fun m => gapless_entry (h m) habove
  | appended id blockId delta _ habove hnext =>
    subst hnext
    exact fun m => gapless_entry (h m) habove
  | consumed i e t hact he ht hnext =>
    subst hnext hact
    exact alwaysGapless_write h hrebuilt (gapless_consumed hinv hnow (List.mem_of_getElem? he) ht
      (fun row hrow => horder e row he hrow))

theorem alwaysGapless_initial (documents : List DocId) (users : List UserId) :
    AlwaysGapless py docId documents users (.initial documents users) := by
  intro n r hr
  rw [dbBefore,World.initial,List.take_nil] at hr
  exact absurd hr List.not_mem_nil

/-! ## Seen from one SELECT -/

def AllWithin (py : Pycrdt) (docId : DocId) (documents : List DocId) (users : List UserId)
    (base w : World) : Prop :=
  ∀ e ∈ w.stream, Within py docId documents users base.writes e

theorem step_grows {w next : World} {a : Action} (h : step py docId w a = some next) :
    w.writes <+: next.writes ∧ ∀ e ∈ w.stream, e ∈ next.stream := by
  cases step_stepped h with
  | quiet _ hwrites hstream _ _ =>
    rw [hwrites,hstream]
    exact ⟨List.prefix_refl _,fun _ he => he⟩
  | posted d userId ops posted _ _ hnext =>
    rw [hnext]
    exact ⟨List.prefix_append _ _,fun _ he => he⟩
  | published i n wireOps id _ _ _ hnext =>
    rw [hnext]
    exact ⟨List.prefix_refl _,fun _ he => List.mem_append_left _ he⟩
  | appended id blockId delta _ _ hnext =>
    rw [hnext]
    exact ⟨List.prefix_refl _,fun _ he => List.mem_append_left _ he⟩
  | consumed i e t _ _ _ hnext =>
    rw [hnext]
    exact ⟨List.prefix_append _ _,fun _ he => he⟩

theorem allWithin_append {base : World} {stream : List LogEntry} {e : LogEntry}
    (h : ∀ a ∈ stream, Within py docId documents users base.writes a) :
    (∀ a ∈ stream++[e], Within py docId documents users base.writes a) ↔
      Within py docId documents users base.writes e := by
  constructor
  · exact fun hall => hall e (List.mem_append_right _ (List.mem_singleton_self e))
  · intro he a ha
    rcases List.mem_append.mp ha with ha | ha
    · exact h a ha
    · exact List.mem_singleton.mp ha ▸ he

/-- A delta that is added now is in no write of before. -/
theorem not_written {base w : World} {e : LogEntry} (hinv : Inv py docId documents users w)
    (hpre : base.writes <+: w.writes) (habove : ∀ a ∈ w.stream, a.id < e.id) :
    ¬ Written py docId documents users base.writes e := by
  rintro ⟨n,_,hn,_⟩
  obtain ⟨rest,hrest⟩ := hpre
  have hlt : n < base.writes.length := (List.getElem?_eq_some_iff.mp hn).1
  have hw : w.writes[n]? = some (.delta e.fields) := by
    rw [← hrest,List.getElem?_append_left hlt,hn]
  obtain ⟨a,ha,hfields⟩ := hinv.consumed n _ hw
  have hid : a.id = e.id := by rw [← fields_id a,hfields,fields_id e]
  exact absurd (habove a ha) (by rw [hid]; exact lt_irrefl _)

theorem allWithin_step {base w next : World} {a : Action} (hinv : Inv py docId documents users w)
    (hpre : base.writes <+: w.writes) (h : AllWithin py docId documents users base w)
    (hstep : step py docId w a = some next) :
    AllWithin py docId documents users base next ↔ NoNews py docId documents users base w a := by
  unfold AllWithin
  cases step_stepped hstep with
  | quiet _ _ hstream _ hact =>
    rw [hstream]
    refine iff_of_true h ?_
    cases a with
    | publish i id => exact absurd rfl (hact.1 i id)
    | append id blockId delta => exact absurd rfl (hact.2 id blockId delta)
    | post | losePublish | consume => trivial
  | posted d userId ops posted hact _ hnext =>
    subst hnext hact
    exact iff_of_true h trivial
  | published i n wireOps id hact hi habove hnext =>
    subst hnext hact
    have hposts := hinv.outgoing _ (List.mem_of_getElem? hi)
    rw [allWithin_append h,within_ops_iff rfl (fun hlt => (posts_earlier hpre hlt).mp hposts)]
    constructor
    · intro hin m ops hm
      cases hi.symm.trans hm
      exact hin
    · exact fun hn => hn n wireOps hi
  | appended id blockId delta hact habove hnext =>
    subst hnext hact
    rw [allWithin_append h]
    have hnew : ¬ Written py docId documents users base.writes ⟨id,.crdt blockId delta⟩ :=
      not_written hinv hpre habove
    constructor
    · exact fun hin b ht => (hin b ht).resolve_left hnew
    · exact fun hn b ht => Or.inr (hn b ht)
  | consumed i e t hact _ _ hnext =>
    subst hnext hact
    exact iff_of_true h trivial

theorem allWithin_run {base w last : World} {actions : List Action}
    (hinv : Inv py docId documents users w) (hpre : base.writes <+: w.writes)
    (h : exec (step py docId) w actions = some last) :
    AllWithin py docId documents users base last ↔ AllWithin py docId documents users base w ∧
      Along (step py docId) (NoNews py docId documents users base) w actions := by
  have hexact : AllWithin py docId documents users base w →
      (Throughout (step py docId) (AllWithin py docId documents users base) w actions ↔
        Along (step py docId) (NoNews py docId documents users base) w actions) :=
    throughout_iff_along
      (I := fun u => Inv py docId documents users u ∧ base.writes <+: u.writes)
      (fun _ _ _ hi hs => ⟨inv_step hi.1 hs,hi.2.trans (step_grows hs).1⟩)
      (fun _ _ _ hi hp hs => allWithin_step hi.1 hi.2 hp hs) ⟨hinv,hpre⟩
  constructor
  · intro hlast
    -- streams only grow, so whatever the last one holds bounds all before it
    have hall : Throughout (step py docId) (AllWithin py docId documents users base) w actions := by
      rw [throughout_iff_prefixes]
      rintro bs ⟨cs,rfl⟩ t ht
      rw [exec_append,ht] at h
      have hsub : ∀ e ∈ t.stream, e ∈ last.stream :=
        exec_invariant (I := fun u => ∀ e ∈ t.stream, e ∈ u.stream)
          (fun u a v hu hs e he => (step_grows hs).2 e (hu e he)) (fun e he => he) h
      exact fun e he => hlast e (hsub e he)
    have hw := throughout_head hall
    exact ⟨hw,(hexact hw).mp hall⟩
  · rintro ⟨hw,halong⟩
    have hall := (hexact hw).mpr halong
    exact throughout_iff_prefixes.mp hall actions (List.prefix_refl _) last h

/-- An update leaves the cursor of its row at the id of the entry. -/
theorem passed_of_written {writes : List Write} {e : LogEntry} {b : Uuid}
    (h : Written py docId documents users writes e) (ht : Targets e.fields b) :
    Passed py docId documents users writes e.id b := by
  obtain ⟨n,t,hn,hupdated⟩ := h
  have hnext : dbBefore py docId documents users writes (n+1) = redo py docId
      (dbBefore py docId documents users writes n) (Write.delta e.fields) := dbBefore_succ hn
  rw [redo,hupdated] at hnext
  obtain ⟨row,state,content,hrow,_,rfl⟩ := (handleEntry_updated py).mp hupdated
  have hb : row.blockId = b := targets_unique hrow.2.2.1 ht
  obtain rfl := hrow.2.1
  refine ⟨n+1,consumedRow state content e.fields.id row,?_,rfl,hb,e.fields.id,rfl,?_⟩
  · rw [hnext]
    exact setRow_self hrow.1 _
  · exact le_of_eq (fields_id e).symm

theorem allWithin_self {w : World} (hinv : Inv py docId documents users w)
    (hgapless : AlwaysGapless py docId documents users w) :
    AllWithin py docId documents users w w ↔ CaughtUp py docId documents users w := by
  refine forall₂_congr fun e he => ?_
  obtain ⟨id,body⟩ := e
  cases body with
  | ops n wireOps =>
    have hposts := hinv.published _ he n wireOps rfl
    rw [within_ops_iff rfl (fun _ => hposts)]
    exact and_iff_right hposts.lt
  | crdt blockId delta =>
    refine forall₂_congr fun b ht => or_congr_left' fun _ => ?_
    constructor
    · exact fun hwritten => passed_of_written hwritten ht
    · rintro ⟨n,r,hr,hdoc,rfl,last,hlast,hle⟩
      exact (hgapless n r hr hdoc last hlast).2 _ he ht hle

theorem streamLastId_le {stream : List LogEntry}
    (h : stream.Pairwise (fun a b => a.id < b.id)) {e : LogEntry} (he : e ∈ stream) :
    e.id ≤ streamLastId stream := by
  cases stream using List.reverseRecOn with
  | nil => exact absurd he List.not_mem_nil
  | append_singleton init last =>
    simp only [streamLastId,List.getLast?_append,List.getLast?_singleton,Option.some_or]
    rcases List.mem_append.mp he with he | he
    · exact le_of_lt ((List.pairwise_append.mp h).2.2 e he last (List.mem_singleton_self _))
    · exact le_of_eq (congrArg LogEntry.id (List.mem_singleton.mp he))

theorem covers_iff_allWithin {w w' : World} (hinv : Inv py docId documents users w)
    (hinv' : Inv py docId documents users w') :
    Covers py docId documents users w w' (getBlocks docId w w') ↔
      AllWithin py docId documents users w w' := by
  constructor
  · exact fun hc e he => hc.entries e he (streamLastId_le hinv'.increasing he)
  · refine fun h => ⟨?_,fun e he _ => h e he⟩
    show selectBlocks docId w.db = _
    rw [hinv.rebuilt]

/-- While the consumer takes the deltas of each block in their order, the blocks
of a response cover its cursor exactly when the rows had caught up with the
stream at the SELECT, and nothing new to them was added to the stream before its
end was read. -/
theorem snapshot_covers_iff {documents : List DocId} {users : List UserId}
    {earlier between : List Action} {w w' : World}
    (h : exec (step py docId) (.initial documents users) earlier = some w)
    (horder : Along (step py docId) (InOrder py docId) (.initial documents users) earlier)
    (h' : exec (step py docId) w between = some w') :
    Covers py docId documents users w w' (getBlocks docId w w') ↔
      CaughtUp py docId documents users w ∧
        Along (step py docId) (NoNews py docId documents users w) w between := by
  have hstep : ∀ u a v, Inv py docId documents users u → step py docId u a = some v →
      Inv py docId documents users v := fun _ _ _ hi hs => inv_step hi hs
  have hinv : Inv py docId documents users w :=
    exec_invariant hstep (inv_initial documents users) h
  have hinv' : Inv py docId documents users w' := exec_invariant hstep hinv h'
  have hgapless : AlwaysGapless py docId documents users w := by
    have hall := throughout_of_along
      (P := fun u => Inv py docId documents users u ∧ AlwaysGapless py docId documents users u)
      (fun u a v hp hs hc => ⟨inv_step hp.1 hs,alwaysGapless_step hp.1 hp.2 hs hc⟩)
      ⟨inv_initial documents users,alwaysGapless_initial documents users⟩ horder
    exact (throughout_iff_prefixes.mp hall earlier (List.prefix_refl _) w h).2
  rw [covers_iff_allWithin hinv hinv',allWithin_run hinv (List.prefix_refl _) h',
    allWithin_self hinv hgapless]

theorem inOrder_alone {w : World} {a e : LogEntry} (hstream : w.stream = [a,e])
    (ha : a.fields.kind ≠ "crdt") : InOrder py docId w (.consume 1) := by
  intro e₁ row he _ e' he' ht hlt
  rw [hstream] at he he'
  obtain rfl : e = e₁ := Option.some.inj he
  rcases List.mem_pair.mp he' with rfl | rfl
  · exact absurd ht.1 ha
  · exact absurd hlt (lt_irrefl _)

def consumedBefore : List Action :=
  [.post 1 1 [insertUnder 7 none],.publish 0 (toLex (1,0)),.append (toLex (2,0)) (.uuid 7) [1],
    .consume 1,.post 1 1 [insertUnder 8 none]]

/-- One batch is published and another one committed before the end of the stream
is read. -/
theorem snapshot_covers_published_insert :
    ∃ w w', exec (step arrivals 1) (.initial [1] [1]) consumedBefore = some w ∧
      exec (step arrivals 1) w [.publish 0 (toLex (3,0)),.post 1 1 [insertUnder 9 none]] =
        some w' ∧
      (Covers arrivals 1 [1] [1] w w' (getBlocks 1 w w') ↔
        CaughtUp arrivals 1 [1] [1] w ∧ Along (step arrivals 1) (NoNews arrivals 1 [1] [1] w) w
          [.publish 0 (toLex (3,0)),.post 1 1 [insertUnder 9 none]]) := by
  refine ⟨_,_,rfl,rfl,@snapshot_covers_iff arrivals 1 [1] [1] consumedBefore _ _ _ rfl ?_ rfl⟩
  refine along_cons rfl trivial (along_cons rfl trivial (along_cons rfl trivial ?_))
  exact along_cons rfl (inOrder_alone rfl (by decide)) (along_cons rfl trivial trivial)

/-- A delta that the consumer has not written yet is below the cursor of a
snapshot whose blocks do not have it. -/
theorem unconsumed_delta_skipped :
    ∃ w, exec (step arrivals 1) (.initial [1] [1])
        [.post 1 1 [insertUnder 7 none],.publish 0 (toLex (1,0)),
          .append (toLex (2,0)) (.uuid 7) [1]] = some w ∧
      (getBlocks 1 w w).lastStreamId = toLex (2,0) ∧
      ¬ Covers arrivals 1 [1] [1] w w (getBlocks 1 w w) := by
  refine ⟨_,rfl,rfl,fun hcovers => ?_⟩
  have hin := hcovers.entries ⟨toLex (2,0),.crdt (.uuid 7) [1]⟩ (by simp) (by decide)
  rcases hin 7 (by decide) with ⟨n,t,hn,_⟩ | ⟨_,hgone⟩
  · rcases @getElem?_append_singleton [] _ _ _ hn with hn | hn
    · cases hn
    · cases hn
  · exact hgone (by decide)

end BlockDocs.SnapshotCursor
