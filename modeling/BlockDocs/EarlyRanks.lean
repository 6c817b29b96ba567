import BlockDocs.ClientRank
import BlockDocs.Reachability

/-!
# The characters of the server's ranks

The first rank is `m`. A rank between two others lies below one of them in every
character, or it ends in `i`. So no rank of a document has a character above `m`,
and the browser never comes near the end of its alphabet.
-/

set_option autoImplicit false

namespace BlockDocs.EarlyRanks
open BlockDocs.LexoRank BlockDocs.Wire BlockDocs.DocBlocks BlockDocs.ApplyOps
open BlockDocs.Reachability BlockDocs.Consumer
open BlockDocs.ClientRank (Early early_tail)

theorem charAt_early {i : ℕ} (h : i < 23) : charAt i < 'n' := by
  have hall : ∀ j < 23, charAt j < 'n' := by decide
  exact hall i h

theorem charValue_early {c : Char} {i : ℕ} (hc : charValue c = .ok i) (h : c < 'n') : i < 23 :=
  charValue_order hc (by decide) h

theorem early_nil : Early [] := fun _ hc => absurd hc List.not_mem_nil

theorem early_cons {c : Char} {s : Rank} (hc : c < 'n') (hs : Early s) : Early (c::s) :=
  List.forall_mem_cons.mpr ⟨hc,hs⟩

theorem after_early {s : Rank} (h : Early s) : Early (LexoRank.after s) := by
  intro c hc
  rcases List.mem_append.mp hc with hc | hc
  · exact h c hc
  · rw [List.mem_singleton.mp hc]
    decide

theorem pad_early {s : Rank} (h : Early s) (n : ℕ) : Early (pad s n) := by
  unfold pad
  split
  · exact h
  · intro c hc
    rcases List.mem_append.mp hc with hc | hc
    · exact h c hc
    · rw [List.eq_of_mem_replicate hc]
      decide

theorem before_early {right m : Rank} (hr : Early right) (h : before right = .ok m) : Early m := by
  induction right generalizing m with
  | nil =>
    cases h
    exact after_early hr
  | cons c right ih =>
    obtain ⟨cv,hv,h⟩ := bind_ok.mp h
    by_cases h0 : cv = 0
    · rw [if_pos h0] at h
      obtain ⟨rest,hrest,hm⟩ := bind_ok.mp h
      cases hm
      exact early_cons (hr c List.mem_cons_self) (ih (early_tail hr) hrest)
    · rw [if_neg h0] at h
      cases h
      have hcv := charValue_early hv (hr c List.mem_cons_self)
      exact early_cons (charAt_early (by omega)) early_nil

theorem between_early {a b m : Rank} (ha : Early a) (hb : Early b) (h : between a b = .ok m) :
    Early m := by
  induction a generalizing b m with
  | nil => cases h
  | cons ac a ih =>
    cases b with
    | nil => cases h
    | cons bc b =>
      obtain ⟨av,bv,hav,hbv,hcase⟩ := between_cons h
      rcases hcase with ⟨_,rest,hrest,rfl⟩ | ⟨_,rfl⟩ | ⟨_,_,rfl⟩
      · exact early_cons (ha ac List.mem_cons_self) (ih (early_tail ha) (early_tail hb) hrest)
      · have h1 := charValue_early hav (ha ac List.mem_cons_self)
        have h2 := charValue_early hbv (hb bc List.mem_cons_self)
        exact early_cons (charAt_early (by omega)) early_nil
      · exact early_cons (ha ac List.mem_cons_self) (after_early (early_tail ha))

theorem midpoint_early {left right : Option Rank} {m : Rank} (hl : ∀ l ∈ left, Early l)
    (hr : ∀ r ∈ right, Early r) (h : midpoint left right = .ok m) : Early m := by
  cases left with
  | none =>
    cases right with
    | none =>
      cases h
      exact early_cons (by decide) early_nil
    | some r => exact before_early (hr r rfl) h
  | some l =>
    cases right with
    | none =>
      cases h
      exact after_early (hl l rfl)
    | some r =>
      simp only [LexoRank.midpoint] at h
      split at h
      · cases h
      · exact between_early (pad_early (hl l rfl) _) (pad_early (hr r rfl) _) h

/-! ## Every run of the server -/

/-- The server makes nothing but ranks with the property from ranks that have it. -/
def MidpointClosed (P : Rank → Prop) : Prop :=
  ∀ left right m, (∀ l ∈ left, P l) → (∀ r ∈ right, P r) → midpoint left right = .ok m → P m

def RowRanks (P : Rank → Prop) (rows : List BlockRow) : Prop := ∀ r ∈ rows, P r.position

def EarlyRows (rows : List BlockRow) : Prop := ∀ r ∈ rows, Early r.position

section Closed

variable {P : Rank → Prop} {t : Table} {docId : DocId}

theorem nextPosition_ranks (h : RowRanks P t.rows) {parentId : Option Uuid}
    {left : Option Rank} : ∀ z ∈ nextPosition t docId parentId left, P z := by
  intro z hz
  obtain ⟨r,hr,rfl⟩ := nextPosition_mem hz
  exact h r (mem_siblings.mp hr).1

theorem computed_rank (hP : MidpointClosed P) (h : RowRanks P t.rows)
    {parentId afterId : Option Uuid} {p : Rank}
    (hp : computePosition t docId parentId afterId = .ok p) : P p := by
  cases afterId with
  | none => exact hP none _ p nofun (nextPosition_ranks h) (computePosition_head.mp hp)
  | some a =>
    obtain ⟨r,hr,_,_,hmid⟩ := computePosition_after.mp hp
    refine hP (some r.position) _ p ?_ (nextPosition_ranks h) hmid
    intro l hl
    cases hl
    exact h r hr

theorem setRow_ranks {rows : List BlockRow} (h : RowRanks P rows) {b : Uuid}
    {f : BlockRow → BlockRow} (hf : ∀ r ∈ rows, P (f r).position) :
    RowRanks P (setRow docId b f rows) := by
  intro s hs
  obtain ⟨r,hr,rfl⟩ := mem_setRow.mp hs
  split
  · exact hf r hr
  · exact h r hr

theorem applied_ranks (hP : MidpointClosed P) {db next : Database} {userId : UserId}
    {op : BlockOperation} {a : AppliedOp} (h : Applied db docId userId op a next)
    (hrows : RowRanks P db.blocks.rows) : RowRanks P next.blocks.rows := by
  cases h with
  | insert _ _ _ _ _ _ hposition hwrite _ =>
    rw [write_rows hwrite]
    intro r hr
    rcases List.mem_append.mp hr with hr | hr
    · exact hrows r hr
    · rw [List.mem_singleton.mp hr]
      exact computed_rank hP hrows hposition
  | gone _ _ _ => exact hrows
  | delete _ _ hrow _ _ => exact fun r hr => hrows r ((delete_sublist db.blocks _ hrow).subset hr)
  | move _ _ _ _ _ _ _ _ hposition hwrite _ =>
    rw [write_rows hwrite]
    exact setRow_ranks hrows (fun _ _ => computed_rank hP hrows hposition)
  | attrs _ _ _ _ _ _ _ => exact setRow_ranks hrows hrows
  | content _ _ _ _ _ => exact setRow_ranks hrows hrows

theorem reachable_ranks (hP : MidpointClosed P) {documents : List DocId} {users : List UserId}
    {db : Database} (h : Reachable documents users db) : RowRanks P db.blocks.rows := by
  induction h with
  | initial => exact fun r hr => absurd hr List.not_mem_nil
  | operation _ hop ih => exact applied_ranks hP (applyOp_applied hop) ih
  | consumed py _ hentry ih =>
    obtain ⟨row,state,content,_,_,rfl⟩ := (handleEntry_updated py).mp hentry
    exact setRow_ranks ih ih

end Closed

theorem reachable_early {documents : List DocId} {users : List UserId} {db : Database}
    (h : Reachable documents users db) : EarlyRows db.blocks.rows :=
  reachable_ranks (fun _ _ _ => midpoint_early) h

/-! ## The ranks that the routine can make -/

inductive Made : Rank → Prop where
  | midpoint {left right : Option Rank} {m : Rank} (hleft : ∀ l ∈ left, Made l)
      (hright : ∀ r ∈ right, Made r) (h : LexoRank.midpoint left right = .ok m) : Made m

theorem reachable_made {documents : List DocId} {users : List UserId} {db : Database}
    (h : Reachable documents users db) : RowRanks Made db.blocks.rows :=
  reachable_ranks (fun _ _ _ => Made.midpoint) h

theorem made_early {m : Rank} (h : Made m) : Early m := by
  induction h with
  | midpoint _ _ hm hleft hright => exact midpoint_early hleft hright hm

end BlockDocs.EarlyRanks
