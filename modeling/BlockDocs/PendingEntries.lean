import BlockDocs.Consumer
import BlockDocs.GuardedRun

/-!
# The pending entries of the consumer group

An entry goes into the pending entries of the group when it is delivered and
leaves them when it is acknowledged. The consumers read with the id `>` only,
so a process that drops an entry without an acknowledgement drops it for all.
-/

set_option autoImplicit false

namespace BlockDocs.PendingEntries
open BlockDocs.Wire BlockDocs.DocBlocks BlockDocs.ApplyOps BlockDocs.Crdt BlockDocs.Consumer
open BlockDocs.GuardedRun

/-- A consumer name is used by one process, and `batch` is what is left of its last read. -/
structure Process where
  name : ℕ
  batch : List StreamEntry

/-- `delivered` counts the entries of the stream that were handed to some consumer. -/
structure World where
  db : Database
  stream : List StreamEntry
  delivered : ℕ
  pel : List (ℕ × StreamEntry)
  processes : List Process
  started : ℕ

def World.initial (documents : List DocId) (users : List UserId) : World :=
  ⟨.initial documents users,[],0,[],[],0⟩

def xreadCount : ℕ := 50

/-- What a group returns for the id `>`, whoever asks. -/
def World.xreadgroup (w : World) : List StreamEntry := (w.stream.drop w.delivered).take xreadCount

def World.readOnce (w : World) (i : ℕ) (p : Process) : World :=
  { w with
    delivered := w.delivered+w.xreadgroup.length
    pel := w.pel++w.xreadgroup.map (fun e => (p.name,e))
    processes := w.processes.set i { p with batch := w.xreadgroup } }

def World.xack (w : World) (id : StreamId) : World :=
  { w with pel := w.pel.filter (fun q => q.2.id ≠ id) }

/-- How an entry ends, apart from what the handler itself does with it. An exception
of `xack` leaves the loop over the batch, one of the handler does not. -/
inductive Fate where
  | completes
  | raises
  | xackFails
  deriving DecidableEq

inductive Action where
  | operation (docId : DocId) (userId : UserId) (op : BlockOperation)
  | append (entry : StreamEntry)
  | start
  | readOnce (i : ℕ)
  | handle (i : ℕ) (fate : Fate)
  | restart (i : ℕ)

variable (py : Pycrdt) (docId : DocId)

def World.hold (w : World) (i : ℕ) (p : Process) (batch : List StreamEntry) : World :=
  { w with processes := w.processes.set i { p with batch := batch } }

def World.finished (w : World) (i : ℕ) (p : Process) (e : StreamEntry)
    (rest : List StreamEntry) (fate : Fate) : World :=
  if fate = .xackFails then w.hold i p [] else (w.xack e.id).hold i p rest

def World.handled (w : World) (i : ℕ) (p : Process) (e : StreamEntry)
    (rest : List StreamEntry) (fate : Fate) : World :=
  if fate = .raises then w.hold i p rest
  else match handleEntry py w.db.blocks docId e with
    | .raised => w.hold i p rest
    | .returned => w.finished i p e rest fate
    | .updated t => { w with db := { w.db with blocks := t } }.finished i p e rest fate

def step (w : World) : Action → Option World
  | .operation d userId op =>
    match applyOp w.db d userId op with
    | .ok (_,next) => some { w with db := next }
    | .error _ => some w
  | .append entry =>
    if ∀ e ∈ w.stream, e.id < entry.id then some { w with stream := w.stream++[entry] } else none
  | .start => some { w with processes := w.processes++[⟨w.started,[]⟩], started := w.started+1 }
  | .readOnce i =>
    match w.processes[i]? with
    | some ⟨name,[]⟩ => some (w.readOnce i ⟨name,[]⟩)
    | _ => none
  | .handle i fate =>
    match w.processes[i]? with
    | some ⟨name,e::rest⟩ => some (w.handled py docId i ⟨name,e::rest⟩ e rest fate)
    | _ => none
  | .restart i =>
    if i < w.processes.length then
      some { w with processes := w.processes.set i ⟨w.started,[]⟩, started := w.started+1 }
    else none

/-! ## What the group promises -/

def Awaits (db : Database) (e : StreamEntry) : Prop :=
  ∃ b, e.kind = "crdt" ∧ e.blockId = .uuid b ∧ Present docId db.blocks b

def World.Pending (w : World) (e : StreamEntry) : Prop := ∃ name, (name,e) ∈ w.pel

/-- Some read that the consumers can still issue returns the entry. -/
def Obtainable (w : World) (e : StreamEntry) : Prop :=
  ∃ actions t, exec (step py docId) w actions = some t ∧ e ∈ t.xreadgroup

def NoneAbandoned (w : World) : Prop :=
  (∀ p ∈ w.processes, p.batch = []) → ∀ e, w.Pending e → Awaits docId w.db e →
    Obtainable py docId w e

/-! ## What is read once is not read again -/

structure Delivered (e : StreamEntry) (w : World) : Prop where
  increasing : w.stream.Pairwise (fun a b => a.id < b.id)
  taken : e ∈ w.stream.take w.delivered

variable {py docId}

theorem delivered_not_read {w : World} {e : StreamEntry} (h : Delivered e w) :
    e ∉ w.xreadgroup := by
  intro hread
  have hdrop : e ∈ w.stream.drop w.delivered := List.mem_of_mem_take hread
  have hsplit := h.increasing
  rw [← List.take_append_drop w.delivered w.stream,List.pairwise_append] at hsplit
  exact lt_irrefl _ (hsplit.2.2 e h.taken e hdrop)

/-- The parts of the world that reading looks at, after each step. -/
theorem step_stream {w t : World} {a : Action} (ht : step py docId w a = some t) :
    (t.stream = w.stream ∧ w.delivered ≤ t.delivered) ∨
      ∃ entry, (∀ e ∈ w.stream, e.id < entry.id) ∧ t.stream = w.stream++[entry] ∧
        t.delivered = w.delivered := by
  cases a with
  | operation d userId op =>
    simp only [step] at ht
    split at ht <;> obtain rfl := Option.some.inj ht <;> exact Or.inl ⟨rfl,le_refl _⟩
  | append entry =>
    obtain ⟨habove,ht⟩ := Option.ite_none_right_eq_some.mp ht
    obtain rfl := Option.some.inj ht
    exact Or.inr ⟨entry,habove,rfl,rfl⟩
  | start =>
    obtain rfl := Option.some.inj ht
    exact Or.inl ⟨rfl,le_refl _⟩
  | readOnce i =>
    simp only [step] at ht
    split at ht
    · obtain rfl := Option.some.inj ht
      exact Or.inl ⟨rfl,Nat.le_add_right _ _⟩
    · cases ht
  | handle i fate =>
    simp only [step] at ht
    split at ht
    · obtain rfl := Option.some.inj ht
      refine Or.inl ?_
      unfold World.handled World.finished
      split
      · exact ⟨rfl,le_refl _⟩
      · split
        · exact ⟨rfl,le_refl _⟩
        · split <;> exact ⟨rfl,le_refl _⟩
        · split <;> exact ⟨rfl,le_refl _⟩
    · cases ht
  | restart i =>
    obtain ⟨_,ht⟩ := Option.ite_none_right_eq_some.mp ht
    obtain rfl := Option.some.inj ht
    exact Or.inl ⟨rfl,le_refl _⟩

theorem step_delivered {w t : World} {a : Action} {e : StreamEntry} (h : Delivered e w)
    (ht : step py docId w a = some t) : Delivered e t := by
  rcases step_stream ht with ⟨hstream,hle⟩ | ⟨entry,habove,hstream,hdelivered⟩
  · refine ⟨hstream ▸ h.increasing,?_⟩
    rw [hstream]
    exact (List.take_subset_take_left _ hle) h.taken
  · constructor
    · rw [hstream,List.pairwise_append]
      exact ⟨h.increasing,List.pairwise_singleton _ _,
        fun x hx y hy => List.mem_singleton.mp hy ▸ habove x hx⟩
    · rw [hstream,hdelivered,List.take_append]
      exact List.mem_append_left _ h.taken

theorem delivered_not_obtainable {w : World} {e : StreamEntry} (h : Delivered e w) :
    ¬Obtainable py docId w e := by
  rintro ⟨actions,t,ht,hread⟩
  exact delivered_not_read (exec_invariant (fun _ _ _ => step_delivered) h ht) hread

/-! ## When nothing is abandoned -/

def Held (docId : DocId) (w : World) : Prop :=
  ∀ e, w.Pending e → Awaits docId w.db e → ∃ p ∈ w.processes, e ∈ p.batch

def World.batchOf (w : World) (i : ℕ) : List StreamEntry :=
  (w.processes[i]?.map Process.batch).getD []

def dropped (py : Pycrdt) (docId : DocId) (w : World) (i : ℕ) (fate : Fate) :
    List StreamEntry :=
  match w.batchOf i with
  | [] => []
  | e::rest =>
    if fate = .raises then [e]
    else match handleEntry py w.db.blocks docId e with
      | .raised => [e]
      | _ => if fate = .xackFails then e::rest else []

/-- Nothing is dropped that awaits a block, and no operation makes a block that
an entry dropped before awaits. -/
def Kept (py : Pycrdt) (docId : DocId) (w : World) : Action → Prop
  | .handle i fate => ∀ e ∈ dropped py docId w i fate, ¬Awaits docId w.db e
  | .restart i => ∀ e ∈ w.batchOf i, ¬Awaits docId w.db e
  | .operation d userId op => ∀ r, applyOp w.db d userId op = .ok r →
      ∀ e, w.Pending e → (∀ p ∈ w.processes, e ∉ p.batch) → ¬Awaits docId r.2 e
  | _ => True

theorem mem_set_or {ps : List Process} {p : Process} (h : p ∈ ps) (i : ℕ) (q : Process) :
    p ∈ ps.set i q ∨ ps[i]? = some p := by
  obtain ⟨j,hj⟩ := List.mem_iff_getElem?.mp h
  by_cases hji : i = j
  · exact Or.inr (hji ▸ hj)
  · refine Or.inl (List.mem_iff_getElem?.mpr ⟨j,?_⟩)
    rw [List.getElem?_set_ne hji]
    exact hj

/-- A process is replaced by one that keeps what matters of its batch. -/
theorem held_replaced {w t : World} (h : Held docId w) {i : ℕ} {p q : Process}
    (hp : w.processes[i]? = some p) (ht : t.processes = w.processes.set i q)
    (hpending : ∀ e, t.Pending e → Awaits docId t.db e → w.Pending e ∧ Awaits docId w.db e)
    (hbatch : ∀ e ∈ p.batch, t.Pending e → Awaits docId t.db e → e ∈ q.batch) :
    Held docId t := by
  intro e he hawaits
  obtain ⟨he',hawaits'⟩ := hpending e he hawaits
  obtain ⟨p',hp',hmem⟩ := h e he' hawaits'
  rw [ht]
  rcases mem_set_or hp' i q with hstays | hchanged
  · exact ⟨p',hstays,hmem⟩
  · obtain rfl := Option.some.inj (hp.symm.trans hchanged)
    have hlt : i < w.processes.length := (List.getElem?_eq_some_iff.mp hp).1
    exact ⟨q,List.mem_set hlt q,hbatch e hmem he hawaits⟩

/-- The consumer's update leaves the ids of the rows as they are. -/
theorem awaits_updated {t next : Table} {blockId : Uuid} {f : BlockRow → BlockRow}
    {documents : List DocId} {users : List UserId} {e : StreamEntry}
    (hrows : next.rows = setRow docId blockId f t.rows) (hf : ∀ r, SamePlace r (f r))
    (h : Awaits docId ⟨documents,users,next⟩ e) : Awaits docId ⟨documents,users,t⟩ e := by
  obtain ⟨b,hkind,hid,s,hs,hdoc,hb⟩ := h
  obtain ⟨r,hr,hsame,hsdoc,_⟩ := samePlace_mem (setRow_forall₂ docId blockId hf t.rows) (hrows ▸ hs)
  exact ⟨b,hkind,hid,r,hr,hsdoc.symm.trans hdoc,hsame.symm.trans hb⟩

theorem batchOf_some {w : World} {i : ℕ} {p : Process} (h : w.processes[i]? = some p) :
    w.batchOf i = p.batch := by
  rw [World.batchOf,h]
  rfl

theorem pending_xack {w : World} {id : StreamId} {e : StreamEntry} (h : (w.xack id).Pending e) :
    w.Pending e ∧ e.id ≠ id := by
  obtain ⟨name,hname⟩ := h
  obtain ⟨hmem,hne⟩ := List.mem_filter.mp hname
  exact ⟨⟨name,hmem⟩,of_decide_eq_true hne⟩

/-- After the handler has returned, with the database as it has left it. -/
theorem held_finished {w : World} (h : Held docId w) {db : Database} {i : ℕ} {p : Process}
    {e : StreamEntry} {rest : List StreamEntry} {fate : Fate} (hp : w.processes[i]? = some p)
    (hbatch : p.batch = e::rest) (hdb : ∀ x, Awaits docId db x → Awaits docId w.db x)
    (hkept : fate = .xackFails → ∀ x ∈ e::rest, ¬Awaits docId w.db x) :
    Held docId (({ w with db := db } : World).finished i p e rest fate) := by
  unfold World.finished
  split
  · next hfate =>
    refine held_replaced h hp rfl (fun x hx ha => ⟨hx,hdb x ha⟩) (fun x hx _ ha => ?_)
    exact absurd (hdb x ha) (hkept hfate x (hbatch ▸ hx))
  · refine held_replaced h hp rfl (fun x hx ha => ⟨(pending_xack hx).1,hdb x ha⟩)
      (fun x hx hpending _ => ?_)
    rw [hbatch] at hx
    rcases List.mem_cons.mp hx with rfl | hx
    · exact absurd rfl (pending_xack hpending).2
    · exact hx

/-- The head of the batch is left behind, the rest is still held. -/
theorem held_skipped {w : World} (h : Held docId w) {i : ℕ} {p : Process} {e : StreamEntry}
    {rest : List StreamEntry} (hp : w.processes[i]? = some p) (hbatch : p.batch = e::rest)
    (hkept : ¬Awaits docId w.db e) : Held docId (w.hold i p rest) := by
  refine held_replaced h hp rfl (fun x hx ha => ⟨hx,ha⟩) (fun x hx _ ha => ?_)
  rw [hbatch] at hx
  rcases List.mem_cons.mp hx with rfl | hx
  · exact absurd ha hkept
  · exact hx

theorem held_handled {w : World} (h : Held docId w) {i : ℕ} {p : Process} {e : StreamEntry}
    {rest : List StreamEntry} {fate : Fate} (hp : w.processes[i]? = some p)
    (hbatch : p.batch = e::rest) (hkept : Kept py docId w (.handle i fate)) :
    Held docId (w.handled py docId i p e rest fate) := by
  simp only [Kept,dropped,batchOf_some hp,hbatch] at hkept
  unfold World.handled
  split
  · next hfate =>
    rw [if_pos hfate] at hkept
    exact held_skipped h hp hbatch (hkept e (List.mem_singleton_self e))
  · next hfate =>
    rw [if_neg hfate] at hkept
    have hxack : (fate = .xackFails → ∀ x ∈ e::rest, ¬Awaits docId w.db x) ↔
        ∀ x ∈ (if fate = .xackFails then e::rest else []), ¬Awaits docId w.db x := by
      split
      · next hx => exact ⟨fun hall => hall hx,fun hall _ => hall⟩
      · next hx => exact ⟨fun _ x hmem => absurd hmem List.not_mem_nil,fun _ heq => absurd heq hx⟩
    split
    · next hraised =>
      rw [hraised] at hkept
      exact held_skipped h hp hbatch (hkept e (List.mem_singleton_self e))
    · next hreturned =>
      rw [hreturned] at hkept
      exact held_finished h hp hbatch (fun _ ha => ha) (hxack.mpr hkept)
    · next t hupdated =>
      rw [hupdated] at hkept
      obtain ⟨row,state,content,_,_,rfl⟩ := (handleEntry_updated py).mp hupdated
      exact held_finished h hp hbatch (fun x ha => awaits_updated rfl (consumedRow_place _ _ _) ha)
        (hxack.mpr hkept)

theorem held_step {w t : World} {a : Action} (h : Held docId w) (ht : step py docId w a = some t)
    (hkept : Kept py docId w a) : Held docId t := by
  cases a with
  | operation d userId op =>
    simp only [step] at ht
    split at ht
    · next applied next hok =>
      obtain rfl := Option.some.inj ht
      intro e he hawaits
      by_contra hnone
      push Not at hnone
      exact hkept _ hok e he hnone hawaits
    · obtain rfl := Option.some.inj ht
      exact h
  | append entry =>
    obtain ⟨_,ht⟩ := Option.ite_none_right_eq_some.mp ht
    obtain rfl := Option.some.inj ht
    exact h
  | start =>
    obtain rfl := Option.some.inj ht
    intro e he hawaits
    obtain ⟨p,hp,hmem⟩ := h e he hawaits
    exact ⟨p,List.mem_append_left _ hp,hmem⟩
  | readOnce i =>
    simp only [step] at ht
    split at ht
    · next name hp =>
      obtain rfl := Option.some.inj ht
      rintro e ⟨owner,hmem⟩ hawaits
      rcases List.mem_append.mp hmem with hmem | hmem
      · obtain ⟨p',hp',hin⟩ := h e ⟨owner,hmem⟩ hawaits
        rcases mem_set_or hp' i ⟨name,w.xreadgroup⟩ with hstays | hchanged
        · exact ⟨p',hstays,hin⟩
        · obtain rfl := Option.some.inj (hp.symm.trans hchanged)
          exact absurd hin List.not_mem_nil
      · obtain ⟨e',he',heq⟩ := List.mem_map.mp hmem
        obtain ⟨_,rfl⟩ := Prod.mk.inj heq
        have hlt : i < w.processes.length := (List.getElem?_eq_some_iff.mp hp).1
        exact ⟨_,List.mem_set hlt _,he'⟩
    · cases ht
  | handle i fate =>
    simp only [step] at ht
    split at ht
    · next name e rest hp =>
      obtain rfl := Option.some.inj ht
      exact held_handled h hp rfl hkept
    · cases ht
  | restart i =>
    obtain ⟨hlt,ht⟩ := Option.ite_none_right_eq_some.mp ht
    obtain rfl := Option.some.inj ht
    have hp := List.getElem?_eq_getElem hlt
    refine held_replaced h hp rfl (fun x hx ha => ⟨hx,ha⟩) (fun x hx _ ha => ?_)
    exact absurd ha (hkept x (by rw [batchOf_some hp]; exact hx))

/-- At rest nobody holds anything, so nothing that awaits a block is pending. -/
theorem noneAbandoned_of_held {w : World} (h : Held docId w) : NoneAbandoned py docId w := by
  intro hrest e he hawaits
  obtain ⟨p,hp,hmem⟩ := h e he hawaits
  rw [hrest p hp] at hmem
  exact absurd hmem List.not_mem_nil

theorem none_abandoned_if_kept (py : Pycrdt) (docId : DocId) (documents : List DocId)
    (users : List UserId) (actions : List Action)
    (h : Along (step py docId) (Kept py docId) (.initial documents users) actions) :
    Throughout (step py docId) (NoneAbandoned py docId) (.initial documents users) actions := by
  have hheld : Held docId (.initial documents users) := by
    rintro e ⟨name,hname⟩
    exact absurd hname List.not_mem_nil
  exact throughout_mono (fun _ => noneAbandoned_of_held)
    (throughout_of_along (fun _ _ _ => held_step) hheld h)

/-! ## A delta that comes before its block -/

def delta : StreamEntry where
  id := toLex (1,0)
  kind := "crdt"
  blockId := .uuid 7
  delta := [1]

def inTurn : List Action :=
  [.operation 1 1 (insertUnder 7 none),.append delta,.start,.readOnce 0,.handle 0 .completes]

theorem none_abandoned_if_kept_in_turn :
    (∃ w, exec (step arrivals 1) (.initial [1] [1]) inTurn = some w ∧ w.pel = [] ∧
      w.delivered = 1 ∧ Awaits 1 w.db delta) ∧
    Throughout (step arrivals 1) (NoneAbandoned arrivals 1) (.initial [1] [1]) inTurn := by
  constructor
  · have h : (exec (step arrivals 1) (.initial [1] [1]) inTurn).any (fun w =>
        w.pel = [] ∧ w.delivered = 1 ∧ Present 1 w.db.blocks 7) = true := by decide +kernel
    obtain ⟨w,hw,hfacts⟩ := (Option.any_eq_true _ _).mp h
    obtain ⟨hpel,hdelivered,hpresent⟩ := of_decide_eq_true hfacts
    exact ⟨w,hw,hpel,hdelivered,7,rfl,rfl,hpresent⟩
  · apply none_abandoned_if_kept
    refine along_cons rfl ?_ (along_cons rfl trivial (along_cons rfl trivial
      (along_cons rfl trivial (along_cons rfl ?_ trivial))))
    · rintro r _ e ⟨name,hname⟩
      exact absurd hname List.not_mem_nil
    · intro e he
      exact absurd he List.not_mem_nil

def early : List Action :=
  [.start,.append delta,.readOnce 0,.handle 0 .completes,.operation 1 1 (insertUnder 7 none)]

theorem early_delta_abandoned :
    ∃ w, exec (step arrivals 1) (.initial [1] [1]) early = some w ∧ ¬NoneAbandoned arrivals 1 w := by
  have h : (exec (step arrivals 1) (.initial [1] [1]) early).any (fun w =>
      (∀ p ∈ w.processes, p.batch = []) ∧ (0,delta) ∈ w.pel ∧ Present 1 w.db.blocks 7 ∧
        w.stream = [delta] ∧ w.delivered = 1) = true := by decide +kernel
  obtain ⟨w,hw,hfacts⟩ := (Option.any_eq_true _ _).mp h
  obtain ⟨hrest,hpel,hpresent,hstream,hdelivered⟩ := of_decide_eq_true hfacts
  refine ⟨w,hw,fun hnone => ?_⟩
  have htaken : Delivered delta w := by
    constructor
    · rw [hstream]; exact List.pairwise_singleton _ _
    · rw [hstream,hdelivered]; exact List.mem_singleton_self _
  exact delivered_not_obtainable htaken (hnone hrest delta ⟨0,hpel⟩ ⟨7,rfl,rfl,hpresent⟩)

end BlockDocs.PendingEntries
