import BlockDocs.Transactions

/-!
# What a script ensures under any interleaving

A script is judged on its own: it may rely on the row that it has locked, and
on nothing else that it has read. What it ensures of its writes and of its
outcome then holds of every finished operation in every run, and the writes
of the committed transactions are linked row by row.
-/

set_option autoImplicit false

namespace BlockDocs.LockDiscipline
open BlockDocs.Wire BlockDocs.DocBlocks BlockDocs.ApplyOps BlockDocs.PostOperations
open BlockDocs.Statements BlockDocs.WriteChain BlockDocs.Transactions BlockDocs.GuardedRun

/-- `known` is the row that the last statement has locked, `ws` the writes so far. -/
def Ensures (Q : List (Write BlockRow) → OpOutcome → Prop) :
    Script → Option BlockRow → List (Write BlockRow) → Prop
  | .applied a, _, ws => Q ws (.applied a)
  | .stopped (.conflict c), _, ws => Q ws (.conflict c)
  | .stopped (.collision c), _, ws => Q ws (.conflict c)
  | .stopped .raised, _, _ => True
  | .select next, known, ws => ∀ t, Ensures Q (next t) known ws
  | .selectForUpdate docId blockId next, _, ws =>
    Ensures Q (next none) none ws ∧ ∀ row, row.docId = docId → row.blockId = blockId →
      Ensures Q (next (some row)) (some row) ws
  | .advisoryXactLock _ next, known, ws => Ensures Q next known ws
  | .insertInto row _ next, _, ws =>
    (∀ e, Ensures Q (next (.error e)) none ws) ∧
      Ensures Q (next (.ok row)) none (ws++[.insert row])
  | .update docId blockId change _ next, known, ws =>
    (∀ e, Ensures Q (next (.error e)) none ws) ∧ Ensures Q (next (.ok none)) none ws ∧
      ∀ row, row.docId = docId → row.blockId = blockId →
        (∀ r ∈ known, r.blockId = blockId → row = r) → (change row).blockId = blockId ∧
          Ensures Q (next (.ok (some (change row)))) none (ws++[.update row (change row)])
  | .deleteFrom docId blockId next, known, ws =>
    ((∀ r ∈ known, r.docId = docId → r.blockId ≠ blockId) → Ensures Q next none ws) ∧
      ∀ (row : BlockRow) (gone : List BlockRow), row.docId = docId →
      row.blockId = blockId → (∀ r ∈ known, r.blockId = blockId → row = r) → row ∈ gone →
        Ensures Q next none (ws++gone.map Write.delete)

abbrev Rows := Uuid → Option BlockRow

def Known (rows : Rows) (holds : Uuid → Prop) (ws : List (Write BlockRow))
    (known : Option BlockRow) : Prop :=
  ∀ row ∈ known, holds row.blockId ∧
    value BlockRow.blockId row.blockId (rows row.blockId) ws = some row

variable (Q : BlockOperation → List (Write BlockRow) → OpOutcome → Prop)

structure Tidy (rows : Rows) (holds : Uuid → Prop) (sn : Session) : Prop where
  owned : ∀ x ∈ sn.writes, holds x.row.blockId
  linked : ∀ b, Linked BlockRow.blockId b (rows b) sn.writes
  running : ∀ r, sn.running = some r →
    ∃ known, Known rows holds sn.writes known ∧ Ensures (Q r.op) r.script known r.writes
  finished : ∀ f ∈ sn.finished, Q f.op f.writes f.outcome

variable {Q}

theorem writes_running {sn : Session} {r : Running} (h : sn.running = some r) :
    sn.writes = sn.finished.flatMap Finished.writes ++ r.writes := by
  simp [Session.writes,h]

theorem writes_still {sn : Session} (h : sn.running = none) :
    sn.writes = sn.finished.flatMap Finished.writes := by
  simp [Session.writes,h]

theorem writes_called {sn : Session} {r : Running} (h : sn.running = none) (hr : r.writes = []) :
    Session.writes { sn with running := some r } = sn.writes := by
  rw [writes_still h]
  simp [Session.writes,hr]

theorem resume_writes {sn : Session} {r : Running} (h : sn.running = some r)
    (ws : List (Write BlockRow)) (next : Script) :
    (sn.resume r ws next).writes = sn.writes++ws := by
  rw [writes_running h,List.append_assoc]
  rfl

theorem finish_writes {sn : Session} {r : Running} (h : sn.running = some r)
    (outcome : OpOutcome) (failed : Bool) : (sn.finish r outcome failed).writes = sn.writes := by
  rw [writes_running h]
  simp [Session.finish,Session.writes]

theorem tidy_idle (rows : Rows) (holds : Uuid → Prop) : Tidy Q rows holds Session.idle where
  owned _ hx := absurd hx List.not_mem_nil
  linked _ := trivial
  running _ hr := by cases hr
  finished _ hf := absurd hf List.not_mem_nil

/-- Others change neither the rows nor the locks that the session holds. -/
theorem tidy_frame {rows rows' : Rows} {holds holds' : Uuid → Prop} {sn sn' : Session}
    (h : Tidy Q rows holds sn) (hkeep : ∀ b, holds b → holds' b ∧ rows' b = rows b)
    (hrunning : sn'.running = sn.running) (hfinished : sn'.finished = sn.finished) :
    Tidy Q rows' holds' sn' := by
  have hwrites : sn'.writes = sn.writes := by
    rw [Session.writes,Session.writes,hrunning,hfinished]
  constructor
  · exact fun x hx => (hkeep _ (h.owned x (hwrites ▸ hx))).1
  · intro b
    rw [hwrites]
    by_cases hb : holds b
    · rw [(hkeep b hb).2]
      exact h.linked b
    · apply linked_untouched
      rintro x hx rfl
      exact hb (h.owned x hx)
  · intro r hr
    obtain ⟨known,hknown,hensures⟩ := h.running r (hrunning ▸ hr)
    refine ⟨known,fun row hrow => ?_,hensures⟩
    obtain ⟨hholds,hvalue⟩ := hknown row hrow
    rw [hwrites,(hkeep _ hholds).2]
    exact ⟨(hkeep _ hholds).1,hvalue⟩
  · exact fun f hf => h.finished f (hfinished ▸ hf)

theorem tidy_resume {rows : Rows} {holds holds' : Uuid → Prop} {sn : Session} {r : Running}
    {ws : List (Write BlockRow)} {next : Script} {known : Option BlockRow}
    (h : Tidy Q rows holds sn) (hr : sn.running = some r) (hkeep : ∀ b, holds b → holds' b)
    (howned : ∀ x ∈ ws, holds' x.row.blockId)
    (hlinked : ∀ b, Linked BlockRow.blockId b
      (value BlockRow.blockId b (rows b) sn.writes) ws)
    (hknown : Known rows holds' (sn.writes++ws) known)
    (hensures : Ensures (Q r.op) next known (r.writes++ws)) :
    Tidy Q rows holds' (sn.resume r ws next) := by
  have hwrites := resume_writes hr ws next
  constructor
  · rw [hwrites]
    intro x hx
    rcases List.mem_append.mp hx with hx | hx
    · exact hkeep _ (h.owned x hx)
    · exact howned x hx
  · intro b
    rw [hwrites]
    exact (linked_append _ _ _ _).mpr ⟨h.linked b,hlinked b⟩
  · intro q hq
    cases hq
    exact ⟨known,hwrites ▸ hknown,hensures⟩
  · exact h.finished

theorem tidy_finish {rows : Rows} {holds : Uuid → Prop} {sn : Session} {r : Running}
    {outcome : OpOutcome} {failed : Bool} (h : Tidy Q rows holds sn)
    (hr : sn.running = some r) (hq : Q r.op r.writes outcome) :
    Tidy Q rows holds (sn.finish r outcome failed) := by
  have hwrites := finish_writes hr outcome failed
  constructor
  · exact fun x hx => h.owned x (hwrites ▸ hx)
  · exact fun b => hwrites ▸ h.linked b
  · exact fun q hq => by cases hq
  · intro f hf
    rcases List.mem_append.mp hf with hf | hf
    · exact h.finished f hf
    · cases List.mem_singleton.mp hf
      exact hq

variable (Q)

structure Inv (db : Database) (w : World) : Prop where
  tidy : ∀ s, Tidy Q w.row (fun b => w.rowLocks b = some s) (w.sessions s)
  past : ∀ f ∈ w.history, Q f.op f.writes f.outcome
  linked : ∀ b, Linked BlockRow.blockId b (lookup BlockRow.blockId b db.blocks.rows) w.writes
  settled : ∀ b,
    value BlockRow.blockId b (lookup BlockRow.blockId b db.blocks.rows) w.writes = w.row b

theorem start_inv (db : Database) : Inv Q db (World.start db) where
  tidy _ := tidy_idle _ _
  past _ hf := absurd hf List.not_mem_nil
  linked _ := trivial
  settled _ := rfl

variable {Q}

/-- A step that changes one session and takes or gives back locks of its own. -/
theorem inv_own {db : Database} {w w' : World} {s : SessionId} (h : Inv Q db w)
    (hdb : w'.db = w.db) (hhistory : w'.history = w.history)
    (hothers : ∀ u, u ≠ s → w'.sessions u = w.sessions u)
    (hlocks : ∀ b u, u ≠ s → w.rowLocks b = some u → w'.rowLocks b = some u)
    (hown : Tidy Q w.row (fun b => w'.rowLocks b = some s) (w'.sessions s)) : Inv Q db w' := by
  have hrow : w'.row = w.row := by
    funext b
    rw [World.row,World.row,hdb]
  have hwrites : w'.writes = w.writes := by rw [World.writes,World.writes,hhistory]
  constructor
  · intro u
    rw [hrow]
    by_cases hu : u = s
    · exact hu ▸ hown
    · rw [hothers u hu]
      exact tidy_frame (h.tidy u) (fun b hb => ⟨hlocks b u hu hb,rfl⟩) rfl rfl
  · exact hhistory ▸ h.past
  · exact hwrites ▸ h.linked
  · rw [hwrites,hrow]
    exact h.settled

theorem lock_keeps {w : World} {s u : SessionId} {ids : List Uuid} {b : Uuid}
    (hfree : ∀ i ∈ ids, Free w.rowLocks s i) (hu : u ≠ s) (h : w.rowLocks b = some u) :
    (w.lock s ids).rowLocks b = some u := by
  show (if b ∈ ids then some s else w.rowLocks b) = some u
  split
  · next hb =>
    rcases hfree b hb with hnone | hs
    · cases hnone.symm.trans h
    · exact absurd (Option.some.inj (h.symm.trans hs)) hu
  · exact h

theorem lock_own {w : World} {s : SessionId} {ids : List Uuid} {b : Uuid}
    (h : w.rowLocks b = some s) : (w.lock s ids).rowLocks b = some s := by
  show (if b ∈ ids then some s else w.rowLocks b) = some s
  split
  · rfl
  · exact h

theorem lock_taken {w : World} {s : SessionId} {ids : List Uuid} {b : Uuid} (h : b ∈ ids) :
    (w.lock s ids).rowLocks b = some s := if_pos h

theorem unlocked_other {locks : ℕ → Option SessionId} {s u : SessionId} {key : ℕ} (hu : u ≠ s)
    (h : locks key = some u) : unlocked locks s key = some u := by
  unfold unlocked
  rw [if_neg (fun hs => hu (Option.some.inj (h.symm.trans hs)))]
  exact h

theorem set_self (w : World) (s : SessionId) (sn : Session) : (w.set s sn).sessions s = sn :=
  if_pos rfl

theorem set_other (w : World) {s u : SessionId} (sn : Session) (hu : u ≠ s) :
    (w.set s sn).sessions u = w.sessions u := if_neg hu

theorem release_inv {db : Database} {w : World} (h : Inv Q db w) (s : SessionId) :
    Inv Q db (w.release s) := by
  refine @inv_own _ db w _ s h rfl rfl (fun u hu => set_other w _ hu)
    (fun b u hu hb => unlocked_other hu hb) ?_
  rw [show (w.release s).sessions s = Session.idle from if_pos rfl]
  exact tidy_idle _ _

theorem finish_inv {db : Database} {w : World} {s : SessionId} {r : Running} (h : Inv Q db w)
    (hr : (w.sessions s).running = some r) {outcome : OpOutcome} (hq : Q r.op r.writes outcome)
    (failed : Bool) : Inv Q db (w.finish s r outcome failed) := by
  refine @inv_own _ db w _ s h rfl rfl (fun u hu => set_other w _ hu) (fun b u _ hb => hb) ?_
  rw [World.finish,set_self]
  exact tidy_finish (h.tidy s) hr hq

/-- The statement has taken some rows and written to rows that it holds. -/
theorem resume_inv {db : Database} {w : World} {s : SessionId} {r : Running}
    {ids : List Uuid} {ws : List (Write BlockRow)} {next : Script} {known : Option BlockRow}
    (h : Inv Q db w) (hr : (w.sessions s).running = some r)
    (hfree : ∀ i ∈ ids, Free w.rowLocks s i) (howned : ∀ x ∈ ws, x.row.blockId ∈ ids)
    (hlinked : ∀ b, Linked BlockRow.blockId b
      (value BlockRow.blockId b (w.row b) (w.sessions s).writes) ws)
    (hknown : Known w.row (fun b => (w.lock s ids).rowLocks b = some s)
      ((w.sessions s).writes++ws) known)
    (hensures : Ensures (Q r.op) next known (r.writes++ws)) :
    Inv Q db ((w.lock s ids).resume s r ws next) := by
  refine @inv_own _ db w _ s h rfl rfl (fun u hu => set_other (w.lock s ids) _ hu)
    (fun b u hu hb => lock_keeps hfree hu hb) ?_
  rw [World.resume,set_self]
  exact tidy_resume (h.tidy s) hr (fun b hb => lock_own hb)
    (fun x hx => lock_taken (howned x hx)) hlinked hknown hensures

/-- The statement has only read. -/
theorem lock_nil (w : World) (s : SessionId) : w.lock s [] = w := by
  show { w with rowLocks := _ } = w
  simp

theorem read_inv {db : Database} {w : World} {s : SessionId} {r : Running} {next : Script}
    {known : Option BlockRow} (h : Inv Q db w) (hr : (w.sessions s).running = some r)
    (hknown : Known w.row (fun b => w.rowLocks b = some s) (w.sessions s).writes known)
    (hensures : Ensures (Q r.op) next known r.writes) : Inv Q db (w.resume s r [] next) := by
  have hlock := lock_nil w s
  have hinv := @resume_inv _ db w s r [] [] next known h hr
    (fun i hi => absurd hi List.not_mem_nil) (fun x hx => absurd hx List.not_mem_nil)
    (fun b => trivial) (by rwa [hlock,List.append_nil]) (by rwa [List.append_nil])
  rwa [hlock] at hinv

theorem known_none (rows : Rows) (holds : Uuid → Prop) (ws : List (Write BlockRow)) :
    Known rows holds ws none := fun row hrow => by cases hrow

/-! ## Each statement -/

theorem view_rows {w : World} {s : SessionId} {t : Table} (h : w.view s = .ok t) (b : Uuid) :
    lookup BlockRow.blockId b t.rows =
      value BlockRow.blockId b (w.row b) (w.sessions s).writes := by
  rw [write_rows h]
  exact lookup_applyAll b _ _

theorem view_found {w : World} {s : SessionId} {t : Table} {row : BlockRow}
    (h : w.view s = .ok t) (hrow : row ∈ t.rows) :
    value BlockRow.blockId row.blockId (w.row row.blockId) (w.sessions s).writes = some row :=
  (view_rows h _).symm.trans (lookup_mem t.keyed hrow)

/-- A locked row is found. -/
theorem known_found {w : World} {s : SessionId} {t : Table} {known : Option BlockRow}
    {docId : DocId} {blockId : Uuid} (h : w.view s = .ok t)
    (hknown : Known w.row (fun b => w.rowLocks b = some s) (w.sessions s).writes known)
    (hnone : t.find docId blockId = none) :
    ∀ r ∈ known, r.docId = docId → r.blockId ≠ blockId := by
  intro r hr hdoc hid
  obtain ⟨-,hvalue⟩ := hknown r hr
  have hmem := (lookup_some ((view_rows h r.blockId).trans hvalue)).1
  exact (find_none_iff _ _ _).mp hnone r hmem ⟨hdoc,hid⟩

/-- The row that a statement finds is the locked one. -/
theorem found_known {w : World} {s : SessionId} {t : Table} {row : BlockRow}
    {known : Option BlockRow} (h : w.view s = .ok t) (hrow : row ∈ t.rows)
    (hknown : Known w.row (fun b => w.rowLocks b = some s) (w.sessions s).writes known) :
    ∀ r ∈ known, r.blockId = row.blockId → row = r := by
  intro r hr hid
  obtain ⟨-,hvalue⟩ := hknown r hr
  rw [hid] at hvalue
  exact Option.some.inj ((view_found h hrow).symm.trans hvalue)

theorem inserted_new {db : Database} {row : BlockRow} {userId : UserId} {t : Table}
    (h : inserted db row userId = .ok t) :
    lookup BlockRow.blockId row.blockId db.blocks.rows = none := by
  unfold inserted at h
  split at h
  · cases h
  · next t' hwrite =>
    have hkeyed := t'.keyed
    rw [write_rows hwrite,Keyed,List.map_append,List.nodup_append] at hkeyed
    apply lookup_none.mpr
    intro r hr hid
    exact hkeyed.2.2 _ (List.mem_map_of_mem hr) _ (List.mem_singleton.mpr rfl) hid

theorem removed_self (t : Table) (row : BlockRow) (hrow : row ∈ t.rows) :
    row ∈ removed t row hrow := by
  apply List.mem_filter.mpr ⟨hrow,_⟩
  simp only [decide_eq_true_eq]
  intro hmem
  obtain ⟨q,hq,hid⟩ := List.mem_map.mp hmem
  exact delete_removes t row hrow hq hid

theorem statement_inv {db : Database} {w next : World} {s : SessionId} {r : Running} {t : Table}
    (h : Inv Q db w) (hr : (w.sessions s).running = some r) (hview : w.view s = .ok t)
    (hs : w.statement s r t r.script = some next) : Inv Q db next := by
  obtain ⟨known,hknown,hensures⟩ := (h.tidy s).running r hr
  have hexecutes := statement_executes hs
  generalize r.script = script at hexecutes hensures
  cases hexecutes with
  | applied a => exact finish_inv h hr hensures _
  | conflict c => exact finish_inv h hr hensures _
  | collision c => exact finish_inv h hr hensures _
  | raised => exact release_inv h s
  | select k => exact read_inv h hr hknown (hensures t)
  | notLocked k => exact read_inv h hr (known_none _ _ _) hensures.1
  | @locked docId blockId row k hfind hfree =>
    obtain ⟨hrow,hdoc,hid⟩ := (find_some_iff _ _ _ _).mp hfind
    refine @resume_inv _ db w s r [row.blockId] [] _ (some row) h hr ?_ ?_ ?_ ?_ ?_
    · exact fun i hi => List.mem_singleton.mp hi ▸ hfree
    · exact fun x hx => absurd hx List.not_mem_nil
    · exact fun b => trivial
    · intro q hq
      cases hq
      rw [List.append_nil]
      exact ⟨lock_taken (List.mem_singleton.mpr rfl),view_found hview hrow⟩
    · rw [List.append_nil]
      exact hensures.2 row hdoc hid
  | @keyLocked key k hfree =>
    have hlocked : Inv Q db (w.lockKey s key) := ⟨h.tidy,h.past,h.linked,h.settled⟩
    exact read_inv hlocked hr hknown hensures
  | notInserted k e => exact read_inv h hr (known_none _ _ _) (hensures.1 _)
  | @inserted row userId t' k hwrite hfree =>
    have hnew := inserted_new hwrite
    refine @resume_inv _ db w s r [row.blockId] [.insert row] _ none h hr ?_ ?_ ?_
      (known_none _ _ _) hensures.2
    · exact fun i hi => List.mem_singleton.mp hi ▸ hfree
    · intro x hx
      cases List.mem_singleton.mp hx
      exact List.mem_singleton.mpr rfl
    · intro b
      refine ⟨?_,trivial⟩
      rintro rfl
      exact hnew.symm.trans (view_rows hview _)
  | notFound k => exact read_inv h hr (known_none _ _ _) hensures.2.1
  | @notUpdated docId blockId change userId row k e hfind hfree =>
    refine @resume_inv _ db w s r [row.blockId] [] _ none h hr ?_ ?_ (fun b => trivial)
      (known_none _ _ _) ?_
    · exact fun i hi => List.mem_singleton.mp hi ▸ hfree
    · exact fun x hx => absurd hx List.not_mem_nil
    · rw [List.append_nil]
      exact hensures.1 _
  | @updated docId blockId change userId row k hfind hfree =>
    obtain ⟨hrow,hdoc,hid⟩ := (find_some_iff _ _ _ _).mp hfind
    obtain ⟨hchange,hnext⟩ := hensures.2.2 row hdoc hid (hid ▸ found_known hview hrow hknown)
    have hkey : (change row).blockId = row.blockId := hchange.trans hid.symm
    refine @resume_inv _ db w s r [row.blockId] [.update row (change row)] _ none h hr ?_ ?_ ?_
      (known_none _ _ _) hnext
    · exact fun i hi => List.mem_singleton.mp hi ▸ hfree
    · intro x hx
      cases List.mem_singleton.mp hx
      exact List.mem_singleton.mpr hkey
    · intro b
      refine ⟨?_,trivial⟩
      rintro rfl
      show some row = value _ (change row).blockId (w.row (change row).blockId) _
      rw [hkey]
      exact (view_found hview hrow).symm
  | notDeleted k hfind =>
    exact read_inv h hr (known_none _ _ _) (hensures.1 (known_found hview hknown hfind))
  | @deleted docId blockId row k hrow hdoc hid hfree =>
    refine @resume_inv _ db w s r ((removed t row hrow).map BlockRow.blockId)
      ((removed t row hrow).map Write.delete) _ none h hr ?_ ?_ ?_ (known_none _ _ _)
      (hensures.2 row _ hdoc hid (hid ▸ found_known hview hrow hknown) (removed_self t row hrow))
    · intro i hi
      obtain ⟨q,hq,rfl⟩ := List.mem_map.mp hi
      exact hfree q hq
    · intro x hx
      obtain ⟨q,hq,rfl⟩ := List.mem_map.mp hx
      exact List.mem_map_of_mem hq
    · intro b
      apply linked_deletes (t.keyed.sublist (List.filter_sublist.map _))
      rintro q hq rfl
      exact view_found hview (List.mem_filter.mp hq).1

theorem missed_inv {db : Database} {w next : World} {s : SessionId} {r : Running}
    (h : Inv Q db w) (hr : (w.sessions s).running = some r)
    (hs : w.missed s r r.script = some next) : Inv Q db next := by
  obtain ⟨known,-,hensures⟩ := (h.tidy s).running r hr
  unfold World.missed at hs
  split at hs
  · next hscript =>
    rw [hscript] at hensures
    cases hs
    exact read_inv h hr (known_none _ _ _) hensures.1
  · next hscript =>
    rw [hscript] at hensures
    cases hs
    exact read_inv h hr (known_none _ _ _) hensures.2.1
  · cases hs

theorem committed_inv {db : Database} {w next : World} {s : SessionId} (h : Inv Q db w)
    (hstill : (w.sessions s).running = none) (hs : w.committed s = some next) :
    Inv Q db next := by
  unfold World.committed at hs
  split at hs
  · cases hs
  · next t hview =>
    cases hs
    have hwrites := writes_still hstill
    have hhistory : (w.history++(w.sessions s).finished).flatMap Finished.writes =
        w.writes++(w.sessions s).writes := by
      rw [List.flatMap_append,hwrites]
      rfl
    constructor
    · intro u
      by_cases hu : u = s
      · simp only [if_pos hu]
        exact tidy_idle _ _
      · simp only [if_neg hu]
        refine tidy_frame (h.tidy u) (fun b hb => ⟨unlocked_other hu hb,?_⟩) rfl rfl
        refine (view_rows hview b).trans (value_untouched ?_ _)
        rintro x hx rfl
        exact hu (Option.some.inj (hb.symm.trans ((h.tidy s).owned x hx)))
    · intro f hf
      rcases List.mem_append.mp hf with hf | hf
      · exact h.past f hf
      · exact (h.tidy s).finished f hf
    · intro b
      rw [World.writes,hhistory,linked_append,h.settled b]
      exact ⟨h.linked b,(h.tidy s).linked b⟩
    · intro b
      rw [World.writes,hhistory,value_append,h.settled b]
      exact (view_rows hview b).symm

theorem call_inv {db : Database} {w : World} {s : SessionId} {r : Running} (h : Inv Q db w)
    (hstill : (w.sessions s).running = none) (hfresh : r.writes = [])
    (hensures : Ensures (Q r.op) r.script none []) :
    Inv Q db (w.set s { w.sessions s with running := some r }) := by
  refine @inv_own _ db w _ s h rfl rfl (fun u hu => set_other w _ hu) (fun b u _ hb => hb) ?_
  rw [set_self]
  have hwrites := writes_called hstill hfresh
  constructor
  · exact fun x hx => (h.tidy s).owned x (hwrites ▸ hx)
  · exact fun b => hwrites ▸ (h.tidy s).linked b
  · intro q hq
    cases hq
    exact ⟨none,known_none _ _ _,hfresh ▸ hensures⟩
  · exact (h.tidy s).finished

/-! ## Runs -/

theorem step_inv (hQ : ∀ docId userId op, Ensures (Q op) (applyOpScript docId userId op) none [])
    (db : Database) (w : World) (a : Action) (next : World) (h : Inv Q db w)
    (hs : step w a = some next) : Inv Q db next := by
  cases a with
  | call s docId userId op =>
    simp only [step] at hs
    split at hs
    · next hidle =>
      cases hs
      exact call_inv h (Option.isNone_iff_eq_none.mp hidle.1) rfl (hQ docId userId op)
    · cases hs
  | execute s =>
    simp only [step] at hs
    split at hs
    · next hr hview => exact statement_inv h hr hview hs
    · cases hs
  | miss s =>
    simp only [step] at hs
    split at hs
    · next hr =>
      split at hs
      · exact missed_inv h hr hs
      · cases hs
    · cases hs
  | commit s =>
    simp only [step,World.commit] at hs
    split at hs
    · next hstill =>
      split at hs
      · cases hs
        exact release_inv h s
      · exact committed_inv h (Option.isNone_iff_eq_none.mp hstill) hs
    · cases hs
  | rollback s =>
    cases hs
    exact release_inv h s

end BlockDocs.LockDiscipline
