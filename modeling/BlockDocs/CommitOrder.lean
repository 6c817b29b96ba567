import BlockDocs.BlockStore
import BlockDocs.Postings

/-!
# Stream order and commit order

The row locks order the commits of two batches that share a block, and nothing
orders what the requests do after their commits. A batch keeps its place in
the stream and on the bus if it commits only when every earlier batch with a
common block has been published.
-/

set_option autoImplicit false

namespace BlockDocs.CommitOrder
open BlockDocs.Wire BlockDocs.DocBlocks BlockDocs.ApplyOps BlockDocs.PostOperations
open BlockDocs.Statements BlockDocs.WriteChain BlockDocs.Transactions BlockDocs.LockDiscipline
open BlockDocs.OptimisticLock BlockDocs.Requests BlockDocs.Postings BlockDocs.GuardedRun

/-! ## The order -/

def Before (p q : Posting) : Prop :=
  Shares p q → ∀ i ∈ p.batch, ∀ j ∈ q.batch, i < j

def Waits (w : Requests.World) : Requests.Action → Prop
  | .commit s => (w.tx.sessions s).failed = false → ∀ u p, (w.requests u).posting = some p →
      p.batch.isSome → ¬ Shares p (w.posting s)
  | _ => True

structure InTurn (w : Requests.World) : Prop where
  kept : Kept w
  stream : w.streamed.Pairwise Before
  bus : w.published.Pairwise Before
  clear : ∀ u p i, (w.requests u).posting = some p → p.batch = some i →
    ∀ j fs, i < j → w.batches[j]? = some fs → ∀ b ∈ p.blocks, b ∉ (wireOps fs).map WireOp.blockId

theorem start_inTurn (db : Database) : InTurn (.start db) where
  kept := start_kept db
  stream := List.Pairwise.nil
  bus := List.Pairwise.nil
  clear _ _ _ hp := by cases hp

/-- What a request still has to send comes after all that was sent. -/
theorem sent_before {w : Requests.World} (h : InTurn w) {u : SessionId} {p q : Posting}
    (hp : (w.requests u).posting = some p) (hq : Numbered w q)
    (hne : ∀ i, p.batch = some i → q.batch ≠ some i) : Before q p := by
  rintro ⟨b,hbq,hbp⟩ i hi j hj
  obtain ⟨fs,hfs,hops⟩ := hq i hi
  rcases lt_trichotomy i j with hlt | heq | hgt
  · exact hlt
  · exact absurd (heq ▸ hi) (hne j hj)
  · exfalso
    apply h.clear u p j hp hj i fs hgt hfs b hbp
    rw [← hops]
    exact hbq

theorem moved_inTurn {w w' : Requests.World} {s : SessionId} {r : Request} (h : InTurn w)
    (hm : Moved w w' s r) : InTurn w' := by
  constructor
  · exact moved_kept h.kept hm
  · apply pairwise_grown hm.streamed h.stream
    intro p hp q hq
    exact sent_before h (posting_of_toAdd hp) (h.kept.streamed q hq)
      (fun i hi => h.kept.unadded s p i hp hi q hq)
  · apply pairwise_grown hm.published h.bus
    intro p hp q hq
    exact sent_before h hp (h.kept.published q hq)
      (fun i hi => h.kept.unpublished s p i hp hi q hq)
  · intro u p i hp hi
    rw [hm.batches]
    exact h.clear u p i (moved_posting hm hp) hi

theorem committed_inTurn {w w' : Requests.World} {s : SessionId} {r : Request} (h : InTurn w)
    (hwaits : Waits w (.commit s)) (hc : Committed w w' s r) : InTurn w' := by
  have hstream : w'.streamed = w.streamed := congrArg (List.map Entry.posting) hc.stream
  have hbus : w'.published = w.published := congrArg (List.map Publication.posting) hc.bus
  constructor
  · exact committed_kept h.kept hc
  · exact hstream ▸ h.stream
  · exact hbus ▸ h.bus
  · intro u p i hp hi j fs hij hfs b hb hbfs
    have hlt := (List.getElem?_eq_some_iff.mp hfs).1
    rcases committed_posting hc hp with ⟨-,rfl⟩ | ⟨-,hp⟩
    · obtain ⟨hfailed,rfl⟩ := posting_batch hi
      rw [hc.batches,hfailed] at hlt
      simp only [Bool.false_eq_true,if_false,List.length_append,List.length_singleton] at hlt
      omega
    · rw [hc.batches] at hfs
      by_cases hold : j < w.batches.length
      · rw [List.getElem?_append_left hold] at hfs
        exact h.clear u p i hp hi j fs hij hfs b hb hbfs
      · rw [List.getElem?_append_right (not_lt.mp hold)] at hfs
        split at hfs
        · simp at hfs
        · next hfailed =>
          have hbatch := List.mem_singleton.mp (List.mem_of_getElem? hfs)
          subst hbatch
          exact hwaits (Bool.eq_false_iff.mpr hfailed) u p hp (hi ▸ rfl) ⟨b,hb,hbfs⟩

theorem step_inTurn (docId : DocId) (w : Requests.World) (a : Requests.Action)
    (w' : Requests.World) (h : InTurn w) (hs : Requests.step docId w a = some w')
    (hwaits : Waits w a) : InTurn w' := by
  by_cases ha : ∃ s, a = .commit s
  · obtain ⟨s,rfl⟩ := ha
    obtain ⟨r,hr⟩ := commit_committed hs
    exact committed_inTurn h hwaits hr
  · obtain ⟨r,hr⟩ := step_moved hs (fun s hs => ha ⟨s,hs⟩)
    exact moved_inTurn h hr

/-! ## What the operations show of a block -/

/-- What a peer has of the block if it takes each operation's view of it. -/
def shown (b : Uuid) : Option Block → List WireOp → Option Block
  | o, [] => o
  | o, x::xs => shown b (if x.blockId = b then x.block else o) xs

theorem shown_append (b : Uuid) (o : Option Block) (xs ys : List WireOp) :
    shown b o (xs++ys) = shown b (shown b o xs) ys := by
  induction xs generalizing o with
  | nil => rfl
  | cons x xs ih => exact ih _

theorem shown_elsewhere {b : Uuid} {xs : List WireOp} (h : b ∉ xs.map WireOp.blockId)
    (o : Option Block) : shown b o xs = o := by
  induction xs generalizing o with
  | nil => rfl
  | cons x xs ih =>
    rw [List.map_cons,List.mem_cons,not_or] at h
    rw [shown,if_neg (Ne.symm h.1)]
    exact ih h.2 o

/-- An operation on the block makes up for all before it. -/
theorem shown_forgets {b : Uuid} {xs : List WireOp} (h : b ∈ xs.map WireOp.blockId)
    (o o' : Option Block) : shown b o xs = shown b o' xs := by
  induction xs generalizing o o' with
  | nil => exact absurd h List.not_mem_nil
  | cons x xs ih =>
    by_cases hx : x.blockId = b
    · simp only [shown,if_pos hx]
    · rw [List.map_cons,List.mem_cons] at h
      exact ih (h.resolve_left (Ne.symm hx)) _ _

theorem value_deletes {b : Uuid} {gone : List BlockRow} (h : ∃ r ∈ gone, r.blockId = b)
    (o : Option BlockRow) : value BlockRow.blockId b o (gone.map Write.delete) = none := by
  have hnone : ∀ rows : List BlockRow,
      value BlockRow.blockId b none (rows.map Write.delete) = none := by
    intro rows
    induction rows with
    | nil => rfl
    | cons r rows ih =>
      simp only [List.map_cons,value,Write.after,ite_self]
      exact ih
  induction gone generalizing o with
  | nil =>
    obtain ⟨r,hr,-⟩ := h
    exact absurd hr List.not_mem_nil
  | cons r gone ih =>
    rw [List.map_cons,value]
    by_cases hr : r.blockId = b
    · rw [show (Write.delete r).row = r from rfl,if_pos hr]
      exact hnone gone
    · rw [show (Write.delete r).row = r from rfl,if_neg hr]
      obtain ⟨q,hq,hqb⟩ := h
      rcases List.mem_cons.mp hq with rfl | hq
      · exact absurd hqb hr
      · exact ih ⟨q,hq,hqb⟩ o

theorem raised_shows {op : BlockOperation} {expectedVersion : Option ℤ} {a : AppliedOp}
    {ws : List (Write BlockRow)} (h : Raised op expectedVersion a ws)
    (hid : op.blockId = .uuid a.blockId) (o : Option BlockRow) :
    (value BlockRow.blockId a.blockId o ws).map rowToBlock = a.block := by
  obtain ⟨old,new,rfl,hnew,-,-,-,hblock⟩ := h
  have hkey : new.blockId = a.blockId := IdField.uuid.inj (hnew.symm.trans hid)
  rw [value,value,show (Write.update old new).row = new from rfl,if_pos hkey]
  exact hblock.symm

/-- The reply shows the row as the operation left it. -/
theorem sound_shows {op : BlockOperation} {a : AppliedOp} {ws : List (Write BlockRow)}
    (h : Sound op ws (.applied a)) (hwrote : ∃ x ∈ ws, x.row.blockId = a.blockId)
    (o : Option BlockRow) :
    (value BlockRow.blockId a.blockId o ws).map rowToBlock = a.block := by
  obtain ⟨hid,h⟩ := h
  cases hop : op.op with
  | insert_block =>
    rw [hop] at h
    obtain ⟨row,rfl,hrow,-,hblock⟩ := h
    have hkey : row.blockId = a.blockId := IdField.uuid.inj (hrow.symm.trans hid)
    rw [value,value,show (Write.insert row).row = row from rfl,if_pos hkey]
    exact hblock.symm
  | delete_block =>
    rw [hop] at h
    obtain ⟨hblock,⟨rfl,-⟩ | ⟨row,gone,rfl,hrow,hkey,-⟩⟩ := h
    · obtain ⟨x,hx,-⟩ := hwrote
      exact absurd hx List.not_mem_nil
    · rw [value_deletes ⟨row,hrow,IdField.uuid.inj (hkey.symm.trans hid)⟩,hblock]
      rfl
  | move_block => exact raised_shows (hop ▸ h) hid o
  | update_attrs => exact raised_shows (hop ▸ h) hid o
  | update_content => exact raised_shows (hop ▸ h) hid o

/-- The operations of a batch show what its writes have left, if an operation
on the block is all that writes to its row. -/
theorem batch_shows {b : Uuid} {fs : List Finished}
    (hsound : ∀ f ∈ fs, Sound f.op f.writes f.outcome)
    (hown : ∀ f ∈ fs, (∃ x ∈ f.writes, x.row.blockId = b) ↔ ∃ x ∈ f.outcome.wire, x.blockId = b)
    (o : Option BlockRow) : shown b (o.map rowToBlock) (wireOps fs) =
      (value BlockRow.blockId b o (fs.flatMap Finished.writes)).map rowToBlock := by
  induction fs generalizing o with
  | nil => rfl
  | cons f fs ih =>
    have hrest := ih (fun g hg => hsound g (List.mem_cons_of_mem _ hg))
      (fun g hg => hown g (List.mem_cons_of_mem _ hg))
    have hf := hsound f List.mem_cons_self
    have hiff := hown f List.mem_cons_self
    rw [List.flatMap_cons,value_append,← hrest]
    cases hout : f.outcome with
    | conflict c =>
      rw [hout] at hf
      rw [show f.writes = [] from hf,wireOps,List.filterMap_cons,hout]
      rfl
    | applied a =>
      rw [hout] at hf hiff
      rw [wireOps,List.filterMap_cons,hout]
      show shown b (if a.blockId = b then a.block else o.map rowToBlock) _ = _
      by_cases ha : a.blockId = b
      · subst ha
        have hwrote := hiff.mpr ⟨wireOp a,rfl,rfl⟩
        rw [if_pos rfl,sound_shows hf hwrote o]
        rfl
      · have hnone : ∀ x ∈ f.writes, x.row.blockId ≠ b := by
          intro x hx hxb
          obtain ⟨y,hy,hyb⟩ := hiff.mp ⟨x,hx,hxb⟩
          cases hy
          exact ha hyb
        rw [if_neg ha,value_untouched hnone]
        rfl

theorem last_with {α : Type} (P : α → Prop) (l : List α) :
    (∀ x ∈ l, ¬ P x) ∨ ∃ pre x post, l = pre++x::post ∧ P x ∧ ∀ y ∈ post, ¬ P y := by
  induction l with
  | nil => exact Or.inl fun x hx => absurd hx List.not_mem_nil
  | cons a l ih =>
    rcases ih with hnone | ⟨pre,x,post,rfl,hx,hpost⟩
    · by_cases ha : P a
      · exact Or.inr ⟨[],a,l,rfl,ha,hnone⟩
      · refine Or.inl fun x hx => ?_
        rcases List.mem_cons.mp hx with rfl | hx
        · exact ha
        · exact hnone x hx
    · exact Or.inr ⟨a::pre,x,post,rfl,hx,hpost⟩

/-- The stream tells all about the block: every batch with an operation on it
is there, no COMMIT of an entry rolled back, and the row was written by the
operations on the block and by no other. -/
structure Told (w : Requests.World) (b : Uuid) : Prop where
  posted : ∀ i fs, w.batches[i]? = some fs → b ∈ (wireOps fs).map WireOp.blockId →
    ∃ p ∈ w.streamed, p.batch = some i
  committed : ∀ p ∈ w.streamed, b ∈ p.blocks → p.batch.isSome
  own : ∀ f ∈ w.tx.history,
    (∃ x ∈ f.writes, x.row.blockId = b) ↔ ∃ x ∈ f.outcome.wire, x.blockId = b

theorem wireOps_flatten (bs : List (List Finished)) : wireOps bs.flatten = bs.flatMap wireOps := by
  induction bs with
  | nil => rfl
  | cons fs bs ih =>
    rw [List.flatMap_cons,← ih,List.flatten_cons,wireOps,List.filterMap_append]
    rfl

theorem shown_quiet {α : Type} {b : Uuid} {l : List α} {ops : α → List WireOp}
    (h : ∀ x ∈ l, b ∉ (ops x).map WireOp.blockId) (o : Option Block) :
    shown b o (l.flatMap ops) = o := by
  apply shown_elsewhere
  intro hb
  obtain ⟨x,hx,rfl⟩ := List.mem_map.mp hb
  obtain ⟨p,hp,hxp⟩ := List.mem_flatMap.mp hx
  exact h p hp (List.mem_map_of_mem hxp)

/-- Only the last element with an operation on the block matters. -/
theorem shown_last {α : Type} {b : Uuid} {pre post : List α} {p : α} {ops : α → List WireOp}
    (hp : b ∈ (ops p).map WireOp.blockId) (hpost : ∀ x ∈ post, b ∉ (ops x).map WireOp.blockId)
    (o : Option Block) : shown b o ((pre++p::post).flatMap ops) = shown b none (ops p) := by
  rw [List.flatMap_append,List.flatMap_cons,shown_append,shown_append,shown_quiet hpost]
  exact shown_forgets hp _ _

theorem stream_shows {w : Requests.World} (h : InTurn w) {b : Uuid} (ht : Told w b)
    (o : Option Block) : shown b o (w.streamed.flatMap Posting.wireOps) =
      shown b o (wireOps w.batches.flatten) := by
  rw [wireOps_flatten]
  have hposted : ∀ i fs, w.batches[i]? = some fs → b ∈ (wireOps fs).map WireOp.blockId →
      ∃ p ∈ w.streamed, p.batch = some i ∧ b ∈ p.blocks := by
    intro i fs hfs hb
    obtain ⟨p,hp,hi⟩ := ht.posted i fs hfs hb
    obtain ⟨gs,hgs,hops⟩ := h.kept.streamed p hp i hi
    cases hfs.symm.trans hgs
    exact ⟨p,hp,hi,by rw [Posting.blocks,hops]; exact hb⟩
  rcases last_with (fun p : Posting => b ∈ p.blocks) w.streamed with
    hnone | ⟨pre,p,post,hsplit,hp,hpost⟩
  · rw [shown_quiet hnone,shown_quiet]
    intro fs hfs hb
    obtain ⟨i,hi⟩ := List.mem_iff_getElem?.mp hfs
    obtain ⟨p,hp,-,hbp⟩ := hposted i fs hi hb
    exact hnone p hp hbp
  · have hmem : p ∈ w.streamed := by
      rw [hsplit]
      exact List.mem_append_right _ List.mem_cons_self
    obtain ⟨i,hi⟩ := Option.isSome_iff_exists.mp (ht.committed p hmem hp)
    obtain ⟨fs,hfs,hops⟩ := h.kept.streamed p hmem i hi
    have hlater : ∀ gs ∈ w.batches.drop (i+1), b ∉ (wireOps gs).map WireOp.blockId := by
      intro gs hgs hb
      obtain ⟨k,hk⟩ := List.mem_iff_getElem?.mp hgs
      rw [List.getElem?_drop] at hk
      obtain ⟨q,hq,hj,hbq⟩ := hposted _ gs hk hb
      rw [hsplit] at hq
      rcases List.mem_append.mp hq with hq | hq
      · have horder := h.stream
        rw [hsplit] at horder
        have hlt := (List.pairwise_append.mp horder).2.2 q hq p List.mem_cons_self
          ⟨b,hbq,hp⟩ _ hj _ hi
        omega
      · rcases List.mem_cons.mp hq with rfl | hq
        · have heq := Option.some.inj (hi.symm.trans hj)
          omega
        · exact hpost q hq hbq
    have hbatches : w.batches = w.batches.take i++fs::w.batches.drop (i+1) := by
      obtain ⟨hlt,rfl⟩ := List.getElem?_eq_some_iff.mp hfs
      rw [List.getElem_cons_drop,List.take_append_drop]
    rw [hbatches,shown_last (hops ▸ hp) hlater,hsplit,shown_last hp hpost,hops]

/-! ## Runs -/

/-- The stream and the bus are in the order of the commits, and a block of
which the stream tells all is in the database as the stream shows it. -/
structure InOrder (db : Database) (w : Requests.World) : Prop where
  stream : w.streamed.Pairwise Before
  bus : w.published.Pairwise Before
  values : ∀ b, Told w b →
    shown b ((lookup BlockRow.blockId b db.blocks.rows).map rowToBlock)
      (w.streamed.flatMap Posting.wireOps) = (w.tx.row b).map rowToBlock

theorem inOrder_of_inTurn {db : Database} {w : Requests.World} (h : InTurn w)
    (htx : Inv Sound db w.tx) : InOrder db w where
  stream := h.stream
  bus := h.bus
  values b ht := by
    rw [stream_shows h ht,h.kept.history,batch_shows htx.past ht.own]
    exact congrArg (Option.map rowToBlock) (htx.settled b)

theorem step_tx {docId : DocId} {db : Database} {w w' : Requests.World} {a : Requests.Action}
    (h : Inv Sound db w.tx) (hs : Requests.step docId w a = some w') : Inv Sound db w'.tx := by
  have htx : ∀ {b tx}, Transactions.step w.tx b = some tx → Inv Sound db tx :=
    fun hb => LockDiscipline.step_inv ensures_applyOp db w.tx _ _ h hb
  by_cases ha : ∃ s, a = .commit s
  · obtain ⟨s,rfl⟩ := ha
    obtain ⟨r,hr⟩ := commit_committed hs
    exact htx hr.tx
  · obtain ⟨r,hr⟩ := step_moved hs (fun s hs => ha ⟨s,hs⟩)
    rcases hr.tx with hsame | ⟨b,-,hb⟩
    · exact hsame ▸ h
    · exact htx hb

theorem commit_applying {docId : DocId} {w w' : Requests.World} {s : SessionId}
    (h : Requests.step docId w (.commit s) = some w') :
    ∃ userId, w.requests s = .applying userId [] := by
  simp only [Requests.step] at h
  split at h
  · next userId hr => exact ⟨userId,hr⟩
  · cases h

/-- A session that sends before it begins anew has nobody to wait for. -/
theorem waits_alone {docId : DocId} {w : Requests.World} {s : SessionId}
    {run : List Requests.Action} (hrun : ∀ a ∈ run, a.session = s)
    (h : ∀ u, u ≠ s → (w.requests u).posting = none) :
    Along (Requests.step docId) Waits w run := by
  induction run generalizing w with
  | nil => trivial
  | cons a run ih =>
    intro v hv
    have hs := hrun a List.mem_cons_self
    constructor
    · cases a with
      | commit t =>
        obtain ⟨userId,ht⟩ := commit_applying hv
        intro _ u p hp
        by_cases hu : u = s
        · have hts : t = s := hs
          rw [hu,← hts,ht] at hp
          cases hp
        · cases (h u hu).symm.trans hp
      | post t userId ops => trivial
      | call t => trivial
      | execute t => trivial
      | miss t => trivial
      | abort t => trivial
      | add t id => trivial
      | addFails t => trivial
      | record t recorded => trivial
      | publish t => trivial
      | publishFails t => trivial
    · refine ih (fun b hb => hrun b (List.mem_cons_of_mem _ hb)) fun u hu => ?_
      rw [step_others hv (hs.symm ▸ hu)]
      exact h u hu

theorem ordered_if_waiting {docId : DocId} {db : Database} {run : List Requests.Action}
    (h : Along (Requests.step docId) Waits (.start db) run) :
    Throughout (Requests.step docId) (InOrder db) (.start db) run := by
  have hkept := throughout_of_along (P := fun w => InTurn w ∧ Inv Sound db w.tx)
    (fun w a w' hp hs hw => ⟨step_inTurn docId w a w' hp.1 hs hw,step_tx hp.2 hs⟩)
    ⟨start_inTurn db,start_inv Sound db⟩ h
  exact throughout_mono (fun w hw => inOrder_of_inTurn hw.1 hw.2) hkept

def levelOp (n version : ℤ) : BlockOperation where
  op := .update_attrs
  blockId := .uuid 7
  payload := { attrs := some [("level",.num n)] }
  version := some version

def request (s : SessionId) (op : BlockOperation) : List Requests.Action :=
  [.post s 1 [op],.call s,.execute s,.execute s,.execute s,.commit s]

def sending (s : SessionId) (id : StreamId) : List Requests.Action :=
  [.add s id,.record s true,.publish s]

def inTurn : List Requests.Action :=
  request 0 (levelOp 1 1)++sending 0 (toLex (1,0))++
    request 0 (levelOp 2 2)++sending 0 (toLex (2,0))

theorem ordered_if_waiting_in_turn :
    ((exec (Requests.step 1) (.start shared) inTurn).map fun w => w.streamed.map Posting.batch) =
      some [some 0,some 1] ∧
    Throughout (Requests.step 1) (InOrder shared) (.start shared) inTurn := by
  constructor
  · decide +kernel
  · apply ordered_if_waiting
    apply @waits_alone 1 _ 0
    · decide
    · exact fun u _ => rfl

/-! ## Commits that do not wait -/

theorem id_above (ids : List StreamId) : ∃ id, ∀ k ∈ ids, k < id := by
  obtain ⟨m,hm⟩ := (List.finite_toSet ids).bddAbove
  obtain ⟨id,hid⟩ := exists_gt m
  exact ⟨id,fun k hk => (hm hk).trans_lt hid⟩

/-- Commits in one order, the two postings last in the other. -/
theorem not_before {l : List Posting} {p q : Posting} {i j : ℕ} (hshares : Shares p q)
    (hp : p.batch = some i) (hq : q.batch = some j) (hlt : i < j) :
    ¬ (l++[q]++[p]).Pairwise Before := by
  intro h
  obtain ⟨b,hbp,hbq⟩ := hshares
  have hlast := (List.pairwise_append.mp h).2.2 q (by simp) p (List.mem_singleton.mpr rfl)
    ⟨b,hbq,hbp⟩ j hq i hp
  omega

def Sends (docId : DocId) (w : Requests.World) (s : SessionId) (p : Posting) : Prop :=
  ∃ run w', exec (Requests.step docId) w run = some w' ∧ w'.published = w.published++[p] ∧
    ∀ u, u ≠ s → w'.requests u = w.requests u

theorem sends_after {docId : DocId} {w v : Requests.World} {s : SessionId} {p : Posting}
    {a : Requests.Action} {r : Request} (h : Requests.step docId w a = some v)
    (hbus : v.bus = w.bus) (hr : v.requests = (w.set s r).requests) (hv : Sends docId v s p) :
    Sends docId w s p := by
  obtain ⟨run,v',hrun,hpublished,hothers⟩ := hv
  refine ⟨a::run,v',?_,?_,fun u hu => ?_⟩
  · rw [exec,h]
    exact hrun
  · rw [hpublished,World.published,World.published,hbus]
  · rw [hothers u hu,hr,Requests.set_other w r hu]

theorem sends_publishing {docId : DocId} {w : Requests.World} {s : SessionId} {p : Posting}
    {k : Option StreamId} (h : w.requests s = .publishing p k) : Sends docId w s p := by
  refine ⟨[.publish s],{ w.set s .idle with bus := w.bus++[⟨k,p⟩] },?_,?_,?_⟩
  · simp only [exec,Requests.step,h]
    rfl
  · simp [World.published]
  · exact fun u hu => Requests.set_other w _ hu

theorem sends_recording {docId : DocId} {w : Requests.World} {s : SessionId} {p : Posting}
    {id : StreamId} (h : w.requests s = .recording p id) : Sends docId w s p := by
  have hstep : Requests.step docId w (.record s true) =
      some (w.set s (.publishing p (some id))) := by
    simp only [Requests.step,h]
    rfl
  exact sends_after hstep rfl rfl (sends_publishing (Requests.set_self w s _))

theorem sends_adding {docId : DocId} {w : Requests.World} {s : SessionId} {p : Posting}
    (h : w.requests s = .adding p) : Sends docId w s p := by
  obtain ⟨id,hid⟩ := id_above (w.stream.map Entry.id)
  have hstep : Requests.step docId w (.add s id) =
      some { w.set s (.recording p id) with stream := w.stream++[⟨id,p⟩] } := by
    simp only [Requests.step,h]
    exact if_pos (fun e he => hid _ (List.mem_map_of_mem he))
  refine sends_after hstep rfl rfl (@sends_recording _ _ _ _ id ?_)
  exact Requests.set_self w s _

theorem sends_posting (docId : DocId) {w : Requests.World} {s : SessionId} {p : Posting}
    (h : (w.requests s).posting = some p) : Sends docId w s p := by
  cases hr : w.requests s with
  | idle => simp [hr,Request.posting] at h
  | applying userId ops => simp [hr,Request.posting] at h
  | adding o =>
    have ho : o = p := by simpa [hr,Request.posting] using h
    exact ho ▸ sends_adding hr
  | recording o id =>
    have ho : o = p := by simpa [hr,Request.posting] using h
    exact ho ▸ sends_recording hr
  | publishing o k =>
    have ho : o = p := by simpa [hr,Request.posting] using h
    exact ho ▸ sends_publishing hr

/-- After a commit that does not wait the later batch can go first. -/
theorem overtakes {docId : DocId} {db : Database} {before : List Requests.Action}
    {w w' : Requests.World} {s : SessionId}
    (hbefore : exec (Requests.step docId) (.start db) before = some w)
    (h : Requests.step docId w (.commit s) = some w') (hwaits : ¬ Waits w (.commit s)) :
    ∃ after w'', exec (Requests.step docId) w' after = some w'' ∧
      ¬ w''.published.Pairwise Before := by
  have hk : Kept w := exec_invariant (step_kept docId) (start_kept db) hbefore
  simp only [Waits,not_forall,not_not] at hwaits
  obtain ⟨hfailed,u,p,hp,hbatch,hshares⟩ := hwaits
  obtain ⟨i,hi⟩ := Option.isSome_iff_exists.mp hbatch
  obtain ⟨userId,hs⟩ := commit_applying h
  have hne : u ≠ s := by
    rintro rfl
    simp [hs,Request.posting] at hp
  have hlt : i < w.batches.length := numbered_lt (hk.waiting u p hp) hi
  have hnew : (w.posting s).batch = some w.batches.length := by
    rw [World.posting,hfailed]
    rfl
  have hsome : (w.posting s).wireOps.isEmpty = false := by
    obtain ⟨b,-,hb⟩ := hshares
    obtain ⟨x,hx,-⟩ := List.mem_map.mp hb
    exact List.isEmpty_eq_false_iff.mpr (List.ne_nil_of_mem hx)
  simp only [Requests.step,hs] at h
  obtain ⟨tx,-,rfl⟩ := Option.map_eq_some_iff.mp h
  have hadding : ((w.committed s tx).requests s).posting = some (w.posting s) := by
    rw [show (w.committed s tx).requests s = _ from Requests.set_self w s _,hsome]
    rfl
  have hwaiting : ((w.committed s tx).requests u).posting = some p := by
    rw [show (w.committed s tx).requests u = _ from Requests.set_other w _ hne]
    exact hp
  obtain ⟨run,v,hrun,hpublished,hothers⟩ := sends_posting docId hadding
  obtain ⟨run',v',hrun',hpublished',-⟩ := sends_posting docId
    ((congrArg Request.posting (hothers u hne)).trans hwaiting)
  refine ⟨run++run',v',?_,?_⟩
  · rw [exec_append,hrun]
    exact hrun'
  · rw [hpublished',hpublished]
    exact not_before hshares hi hnew hlt

/-! ## Two requests on one block -/

/-- The second request starts after the commit of the first and sends before it. -/
def overtaking : List Requests.Action :=
  request 0 (levelOp 1 1)++request 1 (levelOp 2 2)++
    sending 1 (toLex (1,0))++sending 0 (toLex (2,0))

def follower (db : Database) (w : Requests.World) : BlockStore.Store :=
  w.stream.foldl (fun s e => s.applyRemoteOps e.posting.wireOps (some e.id))
    (.loadSnapshot 1 (db.blocks.rows.map rowToBlock) (toLex (0,0)))

def levelIn (content : JsonObj) : Option ℤ :=
  match InsertionMap.lookup "level" (BlockStore.attrsOf content) with
  | some (.num n) => some n
  | _ => none

theorem reversed_disorder {l : List Posting} {b : Uuid}
    (h : l.map (fun p => (p.batch,p.blocks)) = [(some 1,[b]),(some 0,[b])]) :
    ¬ l.Pairwise Before := by
  obtain ⟨q,l',rfl,hq,h'⟩ := List.map_eq_cons_iff.mp h
  obtain ⟨p,l'',rfl,hp,h''⟩ := List.map_eq_cons_iff.mp h'
  obtain rfl := List.map_eq_nil_iff.mp h''
  obtain ⟨hqi,hqb⟩ := Prod.mk.inj hq
  obtain ⟨hpi,hpb⟩ := Prod.mk.inj hp
  have hshares : Shares p q := ⟨b,hpb ▸ List.mem_singleton.mpr rfl,hqb ▸ List.mem_singleton.mpr rfl⟩
  exact @not_before [] p q 0 1 hshares hpi hqi Nat.zero_lt_one

theorem later_batch_overtakes : ∃ w, exec (Requests.step 1) (.start shared) overtaking = some w ∧
    ¬ w.streamed.Pairwise Before ∧ ¬ w.published.Pairwise Before ∧
    (w.tx.row 7).bind (fun r => levelIn r.content) = some 2 ∧
    ((follower shared w).blocks.get 7).bind (fun b => levelIn b.content) = some 1 := by
  have hrun : (exec (Requests.step 1) (.start shared) overtaking).any (fun w =>
      w.streamed.map (fun p => (p.batch,p.blocks)) = [(some 1,[7]),(some 0,[7])] ∧
      w.published.map (fun p => (p.batch,p.blocks)) = [(some 1,[7]),(some 0,[7])] ∧
      (w.tx.row 7).bind (fun r => levelIn r.content) = some 2 ∧
      ((follower shared w).blocks.get 7).bind (fun b => levelIn b.content) = some 1) = true := by
    decide +kernel
  obtain ⟨w,hw,hfacts⟩ := (Option.any_eq_true _ _).mp hrun
  obtain ⟨hstream,hbus,hrow,hpeer⟩ := of_decide_eq_true hfacts
  exact ⟨w,hw,reversed_disorder hstream,reversed_disorder hbus,hrow,hpeer⟩

end BlockDocs.CommitOrder
