import BlockDocs.OptimisticLock
import BlockDocs.PositionCollision
import BlockDocs.SlotClaims

/-!
# Positions of root blocks

The unique index does not compare rows without a parent, so for root blocks the
advisory lock and the computed ranks are all there is. A script is judged by the
locks it has taken and by the table it has read last: a root position that it
writes must be unused in that table and under a lock taken before the reading.
-/

set_option autoImplicit false

namespace BlockDocs.RootPositions
open BlockDocs.LexoRank BlockDocs.Wire BlockDocs.DocBlocks BlockDocs.ApplyOps
open BlockDocs.Statements BlockDocs.WriteChain BlockDocs.Transactions BlockDocs.LockDiscipline
open BlockDocs.OptimisticLock BlockDocs.SiblingOrder BlockDocs.PositionCollision
open BlockDocs.SlotClaims BlockDocs.GuardedRun BlockDocs.PostOperations

abbrev Slot := DocId × Rank

/-- A row without a parent takes a position among the root blocks of its document. -/
def rootSlot (r : BlockRow) : Option Slot :=
  if r.parentId = none then some (r.docId,r.position) else none

def slotsOf (rows : Rows) (b : Uuid) : Option Slot := (rows b).bind rootSlot

def tableRows (t : Table) : Rows := fun b => lookup BlockRow.blockId b t.rows

def PositionsUnique (t : Table) : Prop :=
  ∀ r ∈ t.rows, ∀ s ∈ t.rows, r.docId = s.docId → r.parentId = s.parentId →
    r.position = s.position → r = s

theorem rootSlot_some {r : BlockRow} {p : Slot} :
    rootSlot r = some p ↔ r.parentId = none ∧ r.docId = p.1 ∧ r.position = p.2 := by
  unfold rootSlot
  split
  · next hroot =>
    rw [Option.some.injEq,Prod.ext_iff]
    exact ⟨fun h => ⟨hroot,h⟩,fun h => h.2⟩
  · next hroot => exact ⟨fun h => (by cases h),fun h => absurd h.1 hroot⟩

theorem slotsOf_some {rows : Rows} {b : Uuid} {p : Slot} :
    slotsOf rows b = some p ↔ ∃ r, rows b = some r ∧ rootSlot r = some p :=
  Option.bind_eq_some_iff

theorem unique_of_exclusive {t : Table} (h : Exclusive (slotsOf (tableRows t))) :
    PositionsUnique t := by
  intro r hr s hs hdoc hparent hposition
  cases hp : r.parentId with
  | none =>
    have hslot : ∀ q ∈ t.rows, q.docId = r.docId → q.parentId = none → q.position = r.position →
        slotsOf (tableRows t) q.blockId = some (r.docId,r.position) := by
      intro q hq hqdoc hqroot hqpos
      exact slotsOf_some.mpr ⟨q,lookup_mem t.keyed hq,rootSlot_some.mpr ⟨hqroot,hqdoc,hqpos⟩⟩
    exact row_unique t hr hs (h _ _ _ (hslot r hr rfl hp rfl)
      (hslot s hs hdoc.symm (hparent.symm.trans hp) hposition.symm))
  | some parentId =>
    by_contra hne
    have hsymm : Std.Symm (fun r s => ¬Clash r s) := ⟨fun _ _ hn hc => hn (clash_comm.mp hc)⟩
    have hapart : ¬Clash r s := List.Pairwise.forall t.spaced hr hs hne
    exact hapart ⟨hdoc,hparent,by rw [hp]; exact Option.some_ne_none _,hposition⟩

/-! ## What a script may write -/

/-- The root position of the row is nobody's in the table that was read last, and
the lock of its document's root was taken before. -/
def Vacant (row : BlockRow) (keys : List ℕ) (seen : Option Table) : Prop :=
  ∀ p, rootSlot row = some p → advisoryLockKey p.1 none ∈ keys ∧
    ∃ t ∈ seen, ∀ b, b ≠ row.blockId → slotsOf (tableRows t) b ≠ some p

def Writes : Script → Prop
  | .insertInto _ _ _ => True
  | .update _ _ _ _ _ => True
  | _ => False

instance : DecidablePred Writes
  | .applied _ => inferInstanceAs (Decidable False)
  | .stopped _ => inferInstanceAs (Decidable False)
  | .select _ => inferInstanceAs (Decidable False)
  | .selectForUpdate _ _ _ => inferInstanceAs (Decidable False)
  | .advisoryXactLock _ _ => inferInstanceAs (Decidable False)
  | .insertInto _ _ _ => inferInstanceAs (Decidable True)
  | .update _ _ _ _ _ => inferInstanceAs (Decidable True)
  | .deleteFrom _ _ _ => inferInstanceAs (Decidable False)

def Places (ok : Table → Prop) : Script → List ℕ → Option Table → Prop
  | .applied _, _, _ => True
  | .stopped _, _, _ => True
  | .select next, keys, _ => ∀ t, (Writes (next t) → ok t) → Places ok (next t) keys (some t)
  | .selectForUpdate _ _ next, keys, _ => ∀ o, Places ok (next o) keys none
  | .advisoryXactLock key next, keys, _ => Places ok next (key::keys) none
  | .insertInto row _ next, keys, seen => Vacant row keys seen ∧ ∀ e, Places ok (next e) keys none
  | .update docId blockId change _ next, keys, seen =>
    (∀ row : BlockRow, row.docId = docId → row.blockId = blockId →
      (change row).blockId = blockId ∧
        (rootSlot (change row) = rootSlot row ∨ Vacant (change row) keys seen)) ∧
      ∀ e, Places ok (next e) keys none
  | .deleteFrom _ _ next, keys, _ => Places ok next keys none

def RootHead (op : BlockOperation) : Prop :=
  (op.op = .insert_block ∨ op.op = .move_block) ∧ op.payload.parentId = .absent ∧
    op.payload.afterId = .absent

instance (op : BlockOperation) : Decidable (RootHead op) := inferInstanceAs (Decidable (_ ∧ _))

instance (t : Table) (docId : DocId) (parentId : Option Uuid) (b : Uuid) :
    Decidable (FloorTaken t docId parentId b) :=
  decidable_of_iff (∃ z ∈ nextPosition t docId parentId none, AllFloor z ∧
    ∃ s ∈ others t docId parentId b, s.position = after z) Iff.rfl

def Unfloored (docId : DocId) (op : BlockOperation) (t : Table) : Prop :=
  RootHead op → ∀ b, op.blockId = .uuid b → ¬FloorTaken t docId none b

instance (docId : DocId) (op : BlockOperation) (t : Table) : Decidable (Unfloored docId op t) :=
  match h : op.blockId with
  | .absent => isTrue (fun _ b hb => by cases h.symm.trans hb)
  | .malformed => isTrue (fun _ b hb => by cases h.symm.trans hb)
  | .uuid c => decidable_of_iff (RootHead op → ¬FloorTaken t docId none c)
    ⟨fun hn hhead b hb => IdField.uuid.inj (h.symm.trans hb) ▸ hn hhead,
      fun hn hhead => hn hhead c h⟩

section Scripts

variable {ok : Table → Prop} {docId : DocId} {userId : UserId} {blockId : Uuid}
  {keys : List ℕ} {seen : Option Table}

theorem places_orStop {α : Type} {x : Except Stop α} {next : α → Script}
    (h : ∀ a, x = .ok a → Places ok (next a) keys seen) :
    Places ok (orStop x next) keys seen := by
  cases x with
  | error s => trivial
  | ok a => exact h a rfl

theorem places_parentDepth {current : Option Block} {parentId : Option Uuid} {next : ℕ → Script}
    (h : ∀ depth seen, Places ok (next depth) keys seen) :
    Places ok (parentDepthScript docId blockId current parentId next) keys seen := by
  cases parentId with
  | none => exact h 0 seen
  | some p => exact fun t _ => places_orStop (fun depth _ => h depth (some t))

def Unused (t : Table) (docId : DocId) (b : Uuid) (position : Rank) : Prop :=
  ∀ c, c ≠ b → slotsOf (tableRows t) c ≠ some (docId,position)

theorem unused_iff {t : Table} {b : Uuid} {position : Rank} :
    Unused t docId b position ↔ ∀ s ∈ others t docId none b, s.position ≠ position := by
  constructor
  · intro h s hs hpos
    obtain ⟨⟨hrow,hdoc,hroot⟩,hne⟩ := mem_others.mp hs
    refine h s.blockId hne (slotsOf_some.mpr ⟨s,lookup_mem t.keyed hrow,?_⟩)
    exact rootSlot_some.mpr ⟨hroot,hdoc,hpos⟩
  · intro h c hc hslot
    obtain ⟨s,hs,hrs⟩ := slotsOf_some.mp hslot
    obtain ⟨hrow,hid⟩ := lookup_some hs
    obtain ⟨hroot,hdoc,hpos⟩ := rootSlot_some.mp hrs
    exact h s (mem_others.mpr ⟨⟨hrow,hdoc,hroot⟩,hid ▸ hc⟩) hpos

theorem unused_head {t : Table} {b : Uuid} {position : Rank} (hfloor : ¬FloorTaken t docId none b)
    (h : rank none (nextPosition t docId none none) = .ok position) :
    Unused t docId b position := by
  rw [unused_iff]
  intro s hs hpos
  exact hfloor ((@rank_taken_iff _ _ _ _ none _ h).mp ⟨s,hs,hpos⟩).2

theorem unused_after {t : Table} {b : Uuid} {left : BlockRow} {position : Rank}
    (h : rank (some left.position) (nextPosition t docId none (some left.position)) =
      .ok position) : Unused t docId b position := by
  rw [unused_iff]
  rintro s hs rfl
  obtain ⟨hlt,hgap⟩ := after_rank_gap (rank_ok.mp h)
  rcases hgap s (List.mem_filter.mp hs).1 with hle | hgt
  · exact absurd hlt (not_lt_of_ge hle)
  · exact lt_irrefl _ hgt

theorem places_computePosition {current : Option Block} {parentId afterId : Option Uuid}
    {next : Rank → Script}
    (hok : ∀ t, ok t → parentId = none → afterId = none → ¬FloorTaken t docId none blockId)
    (hwrites : ∀ position, Writes (next position))
    (h : ∀ position t, (parentId = none → Unused t docId blockId position) →
      Places ok (next position) keys (some t)) :
    Places ok (computePositionScript docId blockId current parentId afterId next) keys seen := by
  cases afterId with
  | none =>
    refine fun t ht => places_orStop (fun position hposition => h position t ?_)
    rintro rfl
    simp only [hposition] at ht
    exact unused_head (hok t (ht (hwrites position)) rfl rfl) (orConflict_ok.mp hposition)
  | some a =>
    intro t₁ _
    simp only
    cases t₁.find docId a with
    | none => trivial
    | some left =>
      refine fun t _ => places_orStop (fun position hposition => h position t ?_)
      rintro rfl
      exact unused_after (orConflict_ok.mp hposition)

end Scripts

/-! ## The handlers -/

section Handlers

variable {docId : DocId} {userId : UserId} {op : BlockOperation} {blockId : Uuid}
  (hid : op.blockId = .uuid blockId)

include hid

theorem places_insertBlock (hop : op.op = .insert_block) :
    Places (Unfloored docId op) (insertBlockScript docId userId blockId op.payload) [] none := by
  refine places_orStop (fun parentId hparent => places_orStop (fun afterId hafter => ?_))
  refine fun t₀ _ => places_orStop (fun _ _ => places_parentDepth (fun depth seen => ?_))
  refine places_computePosition (fun t ht hroot hhead => ht ?_ blockId hid) (fun _ => trivial)
    (fun position t hun => ?_)
  · subst hroot hhead
    exact ⟨Or.inl hop,read_ok.mp hparent,read_ok.mp hafter⟩
  · refine ⟨fun p hp => ?_,fun e => ?_⟩
    · obtain ⟨hroot,hdoc,hpos⟩ := rootSlot_some.mp hp
      have hparent : parentId = none := hroot
      have hslot : p = (docId,position) := Prod.ext hdoc.symm hpos.symm
      subst hparent hslot
      exact ⟨List.mem_singleton_self _,t,rfl,hun rfl⟩
    · cases e with
      | ok row => trivial
      | error e => cases e <;> trivial

theorem places_moveBlock (hop : op.op = .move_block) :
    Places (Unfloored docId op) (moveBlockScript docId userId blockId op.payload op.version) []
      none := by
  refine places_orStop (fun parentId hparent => places_orStop (fun afterId hafter => ?_))
  refine fun found => places_orStop (fun row _ => places_orStop (fun _ _ => ?_))
  refine places_parentDepth (fun depth seen => ?_)
  refine places_computePosition (fun t ht hroot hhead => ht ?_ blockId hid) (fun _ => trivial)
    (fun position t hun => ?_)
  · subst hroot hhead
    exact ⟨Or.inr hop,read_ok.mp hparent,read_ok.mp hafter⟩
  · refine ⟨fun row hrowdoc hrowid => ⟨hrowid,Or.inr (fun p hp => ?_)⟩,fun e => ?_⟩
    · obtain ⟨hroot,hdoc,hpos⟩ := rootSlot_some.mp hp
      have hparent : parentId = none := hroot
      have hslot : p = (docId,position) :=
        Prod.ext (hdoc.symm.trans hrowdoc) hpos.symm
      subst hparent hslot
      refine ⟨List.mem_singleton_self _,t,rfl,?_⟩
      show Unused t docId row.blockId position
      rw [hrowid]
      exact hun rfl
    · cases e with
      | ok o => cases o <;> trivial
      | error e => cases e <;> trivial

omit hid in
theorem places_applyOp (docId : DocId) (userId : UserId) (op : BlockOperation) :
    Places (Unfloored docId op) (applyOpScript docId userId op) [] none := by
  unfold applyOpScript
  cases hid : op.blockId with
  | absent => trivial
  | malformed => trivial
  | uuid blockId =>
    cases hop : op.op with
    | insert_block => exact places_insertBlock hid hop
    | delete_block =>
      intro found
      cases found with
      | none => trivial
      | some row => exact places_orStop (fun _ _ => trivial)
    | move_block => exact places_moveBlock hid hop
    | update_attrs =>
      refine fun found => places_orStop (fun row _ => places_orStop (fun _ _ => ?_))
      refine places_orStop (fun content _ => ⟨fun r _ hr => ⟨hr,Or.inl rfl⟩,fun e => ?_⟩)
      cases e with
      | ok o => cases o <;> trivial
      | error e => trivial
    | update_content =>
      refine ⟨fun r _ hr => ⟨hr,Or.inl rfl⟩,fun e => ?_⟩
      cases e with
      | ok o => cases o <;> trivial
      | error e => trivial

end Handlers

/-! ## Sessions -/

def viewOf (rows : Rows) (ws : List (Write BlockRow)) : Rows :=
  fun b => value BlockRow.blockId b (rows b) ws

def LockedBy (lock : ℕ → Prop) (p : Slot) : Prop := lock (advisoryLockKey p.1 none)

structure Party (rows : Rows) (lock : ℕ → Prop) (sn : Session) : Prop where
  exclusive : Exclusive (slotsOf (viewOf rows sn.writes))
  backed : Backed (LockedBy lock) (slotsOf rows) (slotsOf (viewOf rows sn.writes))
  running : ∀ r, sn.running = some r → ∃ keys seen, (∀ k ∈ keys, lock k) ∧
    (∀ t ∈ seen, Covered (LockedBy (· ∈ keys)) (slotsOf (tableRows t))
      (slotsOf (viewOf rows sn.writes))) ∧
    Places (Unfloored r.docId r.op) r.script keys seen

structure Apart (w : World) : Prop where
  settled : Exclusive (slotsOf w.row)
  party : ∀ s, Party w.row (fun k => w.keyLocks k = some s) (w.sessions s)

theorem viewOf_append (rows : Rows) (vs ws : List (Write BlockRow)) :
    viewOf rows (vs++ws) = viewOf (viewOf rows vs) ws := by
  funext b
  exact value_append b (rows b) vs ws

theorem party_idle {rows : Rows} (h : Exclusive (slotsOf rows)) (lock : ℕ → Prop) :
    Party rows lock Session.idle where
  exclusive := h
  backed := backed_self _ _
  running _ hr := by cases hr

theorem party_locks {rows : Rows} {lock lock' : ℕ → Prop} {sn : Session} (h : Party rows lock sn)
    (hkeep : ∀ k, lock k → lock' k) : Party rows lock' sn where
  exclusive := h.exclusive
  backed b p hb := (h.backed b p hb).imp id (hkeep _)
  running r hr := by
    obtain ⟨keys,seen,hkeys,hrest⟩ := h.running r hr
    exact ⟨keys,seen,fun k hk => hkeep k (hkeys k hk),hrest⟩

section Resume

variable {rows : Rows} {lock : ℕ → Prop} {sn : Session} {r : Running} {next : Script}
  {keys : List ℕ} {seen : Option Table}

theorem party_resume (hr : sn.running = some r) {ws : List (Write BlockRow)}
    (hexclusive : Exclusive (slotsOf (viewOf rows (sn.writes++ws))))
    (hbacked : Backed (LockedBy lock) (slotsOf rows) (slotsOf (viewOf rows (sn.writes++ws))))
    (hkeys : ∀ k ∈ keys, lock k)
    (hcovered : ∀ t ∈ seen, Covered (LockedBy (· ∈ keys)) (slotsOf (tableRows t))
      (slotsOf (viewOf rows (sn.writes++ws))))
    (hplaces : Places (Unfloored r.docId r.op) next keys seen) :
    Party rows lock (sn.resume r ws next) := by
  have hwrites := resume_writes hr ws next
  constructor
  · exact hwrites ▸ hexclusive
  · exact hwrites ▸ hbacked
  · intro q hq
    cases hq
    exact ⟨keys,seen,hkeys,hwrites ▸ hcovered,hplaces⟩

/-- The statement has not written. -/
theorem party_read (h : Party rows lock sn) (hr : sn.running = some r) (hkeys : ∀ k ∈ keys, lock k)
    (hcovered : ∀ t ∈ seen, Covered (LockedBy (· ∈ keys)) (slotsOf (tableRows t))
      (slotsOf (viewOf rows sn.writes)))
    (hplaces : Places (Unfloored r.docId r.op) next keys seen) :
    Party rows lock (sn.resume r [] next) := by
  refine party_resume hr ?_ ?_ hkeys ?_ hplaces
  · rw [List.append_nil]; exact h.exclusive
  · rw [List.append_nil]; exact h.backed
  · rw [List.append_nil]; exact hcovered

/-- The statement has written one row, in its old slot or in a vacant one. -/
theorem party_write (h : Party rows lock sn) (hr : sn.running = some r) {x : Write BlockRow}
    {row : BlockRow} (hafter : x.after = some row) (hid : x.row.blockId = row.blockId)
    (hkeys : ∀ k ∈ keys, lock k)
    (hcovered : ∀ t ∈ seen, Covered (LockedBy (· ∈ keys)) (slotsOf (tableRows t))
      (slotsOf (viewOf rows sn.writes)))
    (hslot : rootSlot row = slotsOf (viewOf rows sn.writes) row.blockId ∨ Vacant row keys seen)
    (hplaces : Places (Unfloored r.docId r.op) next keys none) :
    Party rows lock (sn.resume r [x] next) := by
  have hview : ∀ b, slotsOf (viewOf rows (sn.writes++[x])) b =
      if row.blockId = b then rootSlot row else slotsOf (viewOf rows sn.writes) b := by
    intro b
    rw [viewOf_append]
    show (if x.row.blockId = b then x.after else viewOf rows sn.writes b).bind rootSlot = _
    rw [hid,hafter]
    split <;> rfl
  have hothers : ∀ b, b ≠ row.blockId → slotsOf (viewOf rows (sn.writes++[x])) b =
      slotsOf (viewOf rows sn.writes) b :=
    fun b hb => (hview b).trans (if_neg (Ne.symm hb))
  have hself : slotsOf (viewOf rows (sn.writes++[x])) row.blockId = rootSlot row :=
    (hview _).trans (if_pos rfl)
  refine party_resume hr ?_ ?_ hkeys (fun t ht => by cases ht) hplaces
  · rcases hslot with hsame | hvacant
    · have heq : slotsOf (viewOf rows (sn.writes++[x])) = slotsOf (viewOf rows sn.writes) := by
        funext b
        by_cases hb : b = row.blockId
        · rw [hb,hself,hsame]
        · exact hothers b hb
      exact heq ▸ h.exclusive
    · refine exclusive_put hothers h.exclusive (fun p hp b hb hbp => ?_)
      obtain ⟨hkey,t,ht,hfree⟩ := hvacant p (hself ▸ hp)
      exact hfree b hb (hcovered t ht b p hbp hkey)
  · rcases hslot with hsame | hvacant
    · apply backed_fewer h.backed
      intro b p hbp
      by_cases hb : b = row.blockId
      · rw [hb,← hsame,← hself,← hb]; exact hbp
      · exact hothers b hb ▸ hbp
    · refine backed_put hothers h.backed (fun p hp => ?_)
      exact hkeys _ (hvacant p (hself ▸ hp)).1

theorem party_delete (h : Party rows lock sn) (hr : sn.running = some r) {gone : List BlockRow}
    (hkeys : ∀ k ∈ keys, lock k) (hplaces : Places (Unfloored r.docId r.op) next keys none) :
    Party rows lock (sn.resume r (gone.map Write.delete) next) := by
  have hfewer : ∀ b p, slotsOf (viewOf rows (sn.writes++gone.map Write.delete)) b = some p →
      slotsOf (viewOf rows sn.writes) b = some p := by
    intro b p hb
    rw [viewOf_append] at hb
    obtain ⟨row,hrow,hslot⟩ := slotsOf_some.mp hb
    exact slotsOf_some.mpr ⟨row,value_deletes hrow,hslot⟩
  exact party_resume hr (exclusive_fewer h.exclusive hfewer) (backed_fewer h.backed hfewer)
    hkeys (fun t ht => by cases ht) hplaces

end Resume

/-! ## Statements -/

theorem view_slots {w : World} {s : SessionId} {t : Table} (h : w.view s = .ok t) :
    tableRows t = viewOf w.row (w.sessions s).writes := by
  funext b
  exact view_rows h b

/-- A step that changes one session, which keeps its locks or takes more. -/
theorem apart_own {w w' : World} {s : SessionId} (h : Apart w) (hdb : w'.db = w.db)
    (hothers : ∀ u, u ≠ s → w'.sessions u = w.sessions u)
    (hlocks : ∀ k u, u ≠ s → w.keyLocks k = some u → w'.keyLocks k = some u)
    (hown : Party w.row (fun k => w'.keyLocks k = some s) (w'.sessions s)) : Apart w' := by
  have hrow : w'.row = w.row := by
    funext b
    rw [World.row,World.row,hdb]
  constructor
  · exact hrow ▸ h.settled
  · intro u
    rw [hrow]
    by_cases hu : u = s
    · exact hu ▸ hown
    · rw [hothers u hu]
      exact party_locks (h.party u) (fun k hk => hlocks k u hu hk)

theorem apart_release {w : World} (h : Apart w) (s : SessionId) : Apart (w.release s) := by
  refine apart_own (s := s) h rfl (fun u hu => set_other w _ hu)
    (fun k u hu hk => unlocked_other hu hk) ?_
  rw [show (w.release s).sessions s = Session.idle from if_pos rfl]
  exact party_idle h.settled _

theorem apart_finish {w : World} {s : SessionId} {r : Running} (h : Apart w)
    (hr : (w.sessions s).running = some r) (outcome : OpOutcome) (failed : Bool) :
    Apart (w.finish s r outcome failed) := by
  refine apart_own (s := s) h rfl (fun u hu => set_other w _ hu) (fun k u _ hk => hk) ?_
  have hwrites := finish_writes hr outcome failed
  rw [World.finish,set_self]
  constructor
  · exact hwrites ▸ (h.party s).exclusive
  · exact hwrites ▸ (h.party s).backed
  · exact fun q hq => by cases hq

/-- The statement of the session has returned, with locks on rows at most. -/
theorem apart_resume {w : World} {s : SessionId} {r : Running} (h : Apart w) (ids : List Uuid)
    {ws : List (Write BlockRow)} {next : Script}
    (hown : Party w.row (fun k => w.keyLocks k = some s) ((w.sessions s).resume r ws next)) :
    Apart ((w.lock s ids).resume s r ws next) := by
  refine apart_own (s := s) h rfl (fun u hu => set_other (w.lock s ids) _ hu)
    (fun k u _ hk => hk) ?_
  rw [World.resume,set_self]
  exact hown

theorem apart_read {w : World} {s : SessionId} {r : Running} (h : Apart w) {next : Script}
    (hown : Party w.row (fun k => w.keyLocks k = some s) ((w.sessions s).resume r [] next)) :
    Apart (w.resume s r [] next) := by
  have hlocked := apart_resume h [] hown
  rwa [lock_nil] at hlocked

theorem apart_lockKey {w : World} {s : SessionId} {r : Running} {key : ℕ} {next : Script}
    {keys : List ℕ} (h : Apart w) (hr : (w.sessions s).running = some r)
    (hfree : Free w.keyLocks s key) (hkeys : ∀ k ∈ keys, w.keyLocks k = some s)
    (hplaces : Places (Unfloored r.docId r.op) next (key::keys) none) :
    Apart ((w.lockKey s key).resume s r [] next) := by
  have hkept : ∀ k u, w.keyLocks k = some u → u = s ∨ (w.lockKey s key).keyLocks k = some u := by
    intro k u hk
    show u = s ∨ (if k = key then some s else w.keyLocks k) = some u
    split
    · next heq =>
      rw [heq] at hk
      rcases hfree with hnone | hs
      · cases hnone.symm.trans hk
      · exact Or.inl (Option.some.inj (hk.symm.trans hs))
    · exact Or.inr hk
  have hmine : ∀ k, w.keyLocks k = some s → (w.lockKey s key).keyLocks k = some s := by
    intro k hk
    show (if k = key then some s else w.keyLocks k) = some s
    split
    · rfl
    · exact hk
  refine apart_own (s := s) h rfl (fun u hu => set_other (w.lockKey s key) _ hu)
    (fun k u hu hk => (hkept k u hk).resolve_left hu) ?_
  rw [World.resume,set_self]
  refine party_read (party_locks (h.party s) hmine) hr (fun k hk => ?_) (fun t ht => by cases ht)
    hplaces
  rcases List.mem_cons.mp hk with rfl | hk
  · exact if_pos rfl
  · exact hmine k (hkeys k hk)

theorem statement_apart {w next : World} {s : SessionId} {r : Running} {t : Table} (h : Apart w)
    (hr : (w.sessions s).running = some r) (hview : w.view s = .ok t)
    (hok : ∀ k, r.script = .select k → Writes (k t) → Unfloored r.docId r.op t)
    (hs : w.statement s r t r.script = some next) : Apart next := by
  obtain ⟨keys,seen,hkeys,hcovered,hplaces⟩ := (h.party s).running r hr
  have hrows := view_slots hview
  have hread : ∀ {script : Script}, Places (Unfloored r.docId r.op) script keys none →
      Party w.row (fun k => w.keyLocks k = some s) ((w.sessions s).resume r [] script) :=
    party_read (h.party s) hr hkeys (fun t ht => by cases ht)
  have hexecutes := statement_executes hs
  generalize r.script = script at hexecutes hplaces hok
  cases hexecutes with
  | applied a => exact apart_finish h hr _ _
  | conflict c => exact apart_finish h hr _ _
  | collision c => exact apart_finish h hr _ _
  | raised => exact apart_release h s
  | select k =>
    refine apart_read h (party_read (h.party s) hr hkeys (fun t' ht' => ?_)
      (hplaces t (hok k rfl)))
    cases ht'
    rw [hrows]
    exact covered_self _ _
  | notLocked k => exact apart_read h (hread (hplaces none))
  | locked k hfind hfree => exact apart_resume h _ (hread (hplaces _))
  | keyLocked k hfree => exact apart_lockKey h hr hfree hkeys hplaces
  | notInserted k e => exact apart_read h (hread (hplaces.2 _))
  | inserted k hwrite hfree =>
    exact apart_resume h _ (party_write (h.party s) hr rfl rfl hkeys hcovered
      (Or.inr hplaces.1) (hplaces.2 _))
  | notFound k => exact apart_read h (hread (hplaces.2 _))
  | notUpdated k e hfind hfree => exact apart_resume h _ (hread (hplaces.2 _))
  | @updated docId blockId change userId row k hfind hfree =>
    obtain ⟨hrow,hdoc,hid⟩ := (find_some_iff _ _ _ _).mp hfind
    obtain ⟨hchanged,hslot⟩ := hplaces.1 row hdoc hid
    refine apart_resume h _ (party_write (h.party s) hr rfl rfl hkeys hcovered
      (hslot.imp (fun hsame => ?_) id) (hplaces.2 _))
    rw [hsame,← hrows,hchanged,← hid,slotsOf,tableRows,lookup_mem t.keyed hrow]
    rfl
  | notDeleted k hfind => exact apart_read h (hread hplaces)
  | deleted k hrow hdoc hid hfree =>
    exact apart_resume h _ (party_delete (h.party s) hr hkeys hplaces)

theorem missed_apart {w next : World} {s : SessionId} {r : Running} (h : Apart w)
    (hr : (w.sessions s).running = some r) (hs : w.missed s r r.script = some next) :
    Apart next := by
  obtain ⟨keys,seen,hkeys,-,hplaces⟩ := (h.party s).running r hr
  unfold World.missed at hs
  split at hs
  · next hscript =>
    rw [hscript] at hplaces
    cases hs
    exact apart_read h (party_read (h.party s) hr hkeys (fun t ht => by cases ht) (hplaces none))
  · next hscript =>
    rw [hscript] at hplaces
    cases hs
    exact apart_read h
      (party_read (h.party s) hr hkeys (fun t ht => by cases ht) (hplaces.2 (.ok none)))
  · cases hs

/-! ## The end of a transaction -/

def Touched (ws : List (Write BlockRow)) (b : Uuid) : Prop := ∃ x ∈ ws, x.row.blockId = b

theorem untouched {ws : List (Write BlockRow)} {b : Uuid} (h : ¬Touched ws b) (rows : Rows) :
    slotsOf (viewOf rows ws) b = slotsOf rows b :=
  congrArg (Option.bind · rootSlot) (value_untouched (fun x hx hb => h ⟨x,hx,hb⟩) _)

theorem touched {ws : List (Write BlockRow)} {b : Uuid} (h : Touched ws b) (rows rows' : Rows) :
    slotsOf (viewOf rows ws) b = slotsOf (viewOf rows' ws) b :=
  congrArg (Option.bind · rootSlot) (value_touched h _ _)

/-- Another session has committed: this one sees its rows where it has none of its own. -/
theorem party_publish {rows next : Rows} {lock lock' : ℕ → Prop} {sn other : Session}
    (h : Party rows lock sn) (hother : Party rows lock' other)
    (hnext : next = viewOf rows other.writes)
    (hwrites : ∀ b, Touched sn.writes b → ¬Touched other.writes b)
    (hkeys : ∀ k, lock k → ¬lock' k) : Party next lock sn := by
  subst hnext
  have hown : ∀ b, Touched sn.writes b →
      slotsOf (viewOf (viewOf rows other.writes) sn.writes) b = slotsOf (viewOf rows sn.writes) b ∧
        slotsOf (viewOf rows other.writes) b = slotsOf rows b :=
    fun b hb => ⟨touched hb _ _,untouched (hwrites b hb) rows⟩
  have hrest : ∀ b, ¬Touched sn.writes b →
      slotsOf (viewOf (viewOf rows other.writes) sn.writes) b =
        slotsOf (viewOf rows other.writes) b ∧
      slotsOf (viewOf rows sn.writes) b = slotsOf rows b :=
    fun b hb => ⟨untouched hb _,untouched hb rows⟩
  have hapart : ∀ p, LockedBy lock p → ¬LockedBy lock' p := fun p hp => hkeys _ hp
  constructor
  · exact exclusive_publish hown hrest hother.backed hapart h.exclusive hother.exclusive h.backed
  · exact backed_publish hown hrest h.backed
  · intro r hr
    obtain ⟨keys,seen,hheld,hcovered,hplaces⟩ := h.running r hr
    refine ⟨keys,seen,hheld,fun t ht => ?_,hplaces⟩
    exact covered_publish hown hrest hother.backed (fun p hp => hapart p (hheld _ hp))
      (hcovered t ht)

theorem committed_apart {db : Database} {w next : World} {s : SessionId} (hinv : Inv Sound db w)
    (h : Apart w) (hs : w.committed s = some next) : Apart next := by
  unfold World.committed at hs
  split at hs
  · cases hs
  · next t hview =>
    cases hs
    have hrows := view_slots hview
    constructor
    · show Exclusive (slotsOf (tableRows t))
      rw [hrows]
      exact (h.party s).exclusive
    · intro u
      show Party (tableRows t) _ _
      by_cases hu : u = s
      · simp only [if_pos hu]
        rw [hrows]
        exact party_idle (h.party s).exclusive _
      · simp only [if_neg hu]
        have hpublished : Party (tableRows t) (fun k => w.keyLocks k = some u) (w.sessions u) := by
          refine party_publish (h.party u) (h.party s) hrows ?_ ?_
          · rintro b ⟨x,hx,rfl⟩ ⟨y,hy,hid⟩
            have hmine := (hinv.tidy u).owned x hx
            have htheirs := (hinv.tidy s).owned y hy
            rw [hid] at htheirs
            exact hu (Option.some.inj (hmine.symm.trans htheirs))
          · exact fun k hk hk' => hu (Option.some.inj (hk.symm.trans hk'))
        have hkept := party_locks hpublished (fun k hk => unlocked_other hu hk)
        exact ⟨hkept.exclusive,hkept.backed,hkept.running⟩

theorem call_apart {w : World} {s : SessionId} {r : Running} (h : Apart w)
    (hstill : (w.sessions s).running = none) (hfresh : r.writes = [])
    (hplaces : Places (Unfloored r.docId r.op) r.script [] none) :
    Apart (w.set s { w.sessions s with running := some r }) := by
  refine apart_own (s := s) h rfl (fun u hu => set_other w _ hu) (fun k u _ hk => hk) ?_
  rw [set_self]
  have hwrites := writes_called hstill hfresh
  constructor
  · exact hwrites ▸ (h.party s).exclusive
  · exact hwrites ▸ (h.party s).backed
  · intro q hq
    cases hq
    exact ⟨[],none,fun k hk => absurd hk List.not_mem_nil,(fun t ht => (by cases ht)),hplaces⟩

/-! ## Runs -/

def positionRead (w : World) (s : SessionId) : Option (Running × Table) :=
  match (w.sessions s).running, w.view s with
  | some r, .ok t =>
    match r.script with
    | .select next => if Writes (next t) then some (r,t) else none
    | _ => none
  | _, _ => none

/-- An operation that asks for the head of the root blocks does not compute its
position from a table where the floor is reached and the rank before it is taken. -/
def Kept (w : World) : Action → Prop
  | .execute s => ∀ q ∈ positionRead w s, Unfloored q.1.docId q.1.op q.2
  | _ => True

instance (w : World) : (a : Action) → Decidable (Kept w a)
  | .call _ _ _ _ => isTrue trivial
  | .execute s =>
    inferInstanceAs (Decidable (∀ q ∈ positionRead w s, Unfloored q.1.docId q.1.op q.2))
  | .miss _ => isTrue trivial
  | .commit _ => isTrue trivial
  | .rollback _ => isTrue trivial

theorem step_apart {db : Database} {w next : World} {a : Action} (hinv : Inv Sound db w)
    (h : Apart w) (hkept : Kept w a) (hs : step w a = some next) : Apart next := by
  cases a with
  | call s docId userId op =>
    simp only [step] at hs
    split at hs
    · next hidle =>
      cases hs
      exact call_apart h (Option.isNone_iff_eq_none.mp hidle.1) rfl
        (places_applyOp docId userId op)
    · cases hs
  | execute s =>
    simp only [step] at hs
    split at hs
    · next r t hr hview =>
      refine statement_apart h hr hview (fun k hk hwrites => hkept (r,t) ?_) hs
      simp only [positionRead,hr,hview,hk,if_pos hwrites,Option.mem_def]
    · cases hs
  | miss s =>
    simp only [step] at hs
    split at hs
    · next hr =>
      split at hs
      · exact missed_apart h hr hs
      · cases hs
    · cases hs
  | commit s =>
    simp only [step,World.commit] at hs
    split at hs
    · split at hs
      · cases hs
        exact apart_release h s
      · exact committed_apart hinv h hs
    · cases hs
  | rollback s =>
    cases hs
    exact apart_release h s

theorem start_apart (documents : List DocId) (users : List UserId) :
    Apart (World.start (.initial documents users)) := by
  have hnone : Exclusive (slotsOf (World.start (.initial documents users)).row) := by
    intro b c p hb
    obtain ⟨r,hr,-⟩ := slotsOf_some.mp hb
    cases hr
  exact ⟨hnone,fun _ => party_idle hnone _⟩

theorem positions_unique_if_unfloored (documents : List DocId) (users : List UserId)
    (run : List Action) (h : Along step Kept (World.start (.initial documents users)) run) :
    Throughout step (fun w => PositionsUnique w.db.blocks)
      (World.start (.initial documents users)) run := by
  have hboth : Throughout step
      (fun w => Inv Sound (.initial documents users) w ∧ Apart w)
      (World.start (.initial documents users)) run := by
    refine throughout_of_along (fun w a next hw hs hkept => ?_)
      ⟨start_inv _ _,start_apart documents users⟩ h
    exact ⟨step_inv ensures_applyOp _ w a next hw.1 hs,step_apart hw.1 hw.2 hkept hs⟩
  exact throughout_mono (fun w hw => unique_of_exclusive hw.2.settled) hboth

def inTurn : List Action :=
  [.call 0 1 1 (insertUnder 7 none),.call 1 1 1 (insertUnder 8 none),.execute 0,.execute 1,
    .execute 0,.execute 0,.execute 0,.execute 0,.commit 0,.execute 1,.execute 1,.execute 1,
    .execute 1,.commit 1]

theorem positions_unique_in_turn :
    (exec step (World.start (.initial [1] [1])) inTurn).isSome ∧
      Throughout step (fun w => PositionsUnique w.db.blocks)
        (World.start (.initial [1] [1])) inTurn :=
  ⟨by decide +kernel,positions_unique_if_unfloored [1] [1] inTurn (by decide +kernel)⟩

def prepend (b : Uuid) : List Action :=
  [.call 0 1 1 (insertUnder b none),.execute 0,.execute 0,.execute 0,.execute 0,.execute 0,
    .commit 0]

/-- The sixth block at the head of the document has the floor rank, and the two
that are put before it have one position. -/
theorem head_positions_repeat :
    ¬∀ (documents : List DocId) (users : List UserId) (run : List Action),
      Throughout step (fun w => PositionsUnique w.db.blocks)
        (World.start (.initial documents users)) run := by
  intro h
  have hrun : (exec step (World.start (.initial [1] [1]))
      ([1,2,3,4,5,6,7,8].flatMap prepend)).any (fun w =>
        ∃ r ∈ w.db.blocks.rows, ∃ s ∈ w.db.blocks.rows, r.docId = s.docId ∧
          r.parentId = s.parentId ∧ r.position = s.position ∧ r.blockId ≠ s.blockId) = true := by
    decide +kernel
  obtain ⟨w,hw,hfound⟩ := (Option.any_eq_true _ _).mp hrun
  obtain ⟨r,hr,s,hs,hdoc,hparent,hposition,hne⟩ := of_decide_eq_true hfound
  have hunique := throughout_iff_prefixes.mp (h [1] [1] _) _ (List.prefix_refl _) w hw
  exact hne (congrArg BlockRow.blockId (hunique r hr s hs hdoc hparent hposition))

end BlockDocs.RootPositions
