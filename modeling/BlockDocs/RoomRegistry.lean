import BlockDocs.GuardedRun
import BlockDocs.Wire

/-!
# Rooms and their subscriptions

A room changes with the call, its subscription when Redis executes the command
that the call has issued. The code keeps no empty room, so a room that is not
there is one without sockets.
-/

set_option autoImplicit false

namespace BlockDocs.RoomRegistry
open BlockDocs.Wire BlockDocs.GuardedRun

abbrev SocketId := ℕ

inductive Command where
  | subscribe (docId : DocId)
  | unsubscribe (docId : DocId)
  deriving DecidableEq

structure Registry where
  rooms : DocId → List SocketId := fun _ => []
  outstanding : List Command := []
  subscribed : DocId → Bool := fun _ => false

def Registry.put (r : Registry) (docId : DocId) (set : List SocketId) : Registry :=
  { r with rooms := fun d => if d = docId then set else r.rooms d }

def Registry.issue (r : Registry) (c : Command) : Registry :=
  { r with outstanding := r.outstanding++[c] }

def Registry.join (r : Registry) (docId : DocId) (ws : SocketId) : Registry :=
  let set := r.rooms docId
  let r' := r.put docId (if ws ∈ set then set else set++[ws])
  if set = [] then r'.issue (.subscribe docId) else r'

def Registry.leave (r : Registry) (docId : DocId) (ws : SocketId) : Registry :=
  let set := r.rooms docId
  if set = [] then r
  else
    let rest := set.filter (· ≠ ws)
    if rest = [] then (r.put docId []).issue (.unsubscribe docId) else r.put docId rest

def Command.docId : Command → DocId
  | .subscribe docId => docId
  | .unsubscribe docId => docId

def Command.sets (docId : DocId) (on : Bool) : Command → Bool
  | .subscribe d => if d = docId then true else on
  | .unsubscribe d => if d = docId then false else on

inductive Action where
  | join (docId : DocId) (ws : SocketId)
  | leave (docId : DocId) (ws : SocketId)
  | redis (ok : Bool)

/-- Redis answers the commands in the order in which they were issued. It may
reject a `subscribe`, which changes nothing then. -/
def step (r : Registry) : Action → Option Registry
  | .join docId ws => some (r.join docId ws)
  | .leave docId ws => some (r.leave docId ws)
  | .redis ok =>
    match r.outstanding with
    | [] => none
    | c::rest =>
      let executed := { r with
        outstanding := rest
        subscribed := fun d => c.sets d (r.subscribed d) }
      match c, ok with
      | .subscribe _, false => some { r with outstanding := rest }
      | _, _ => some executed

def settled (r : Registry) (docId : DocId) : Bool :=
  r.outstanding.foldl (Command.sets docId) (r.subscribed docId)

/-- Every room with a member, and no other, is subscribed as soon as no command
is outstanding. -/
def InStep (r : Registry) : Prop := ∀ d, settled r d = true ↔ r.rooms d ≠ []

/-- A `subscribe` is rejected only while a later command for the same document
is outstanding, or where the document is subscribed all the same. -/
def Harmless (r : Registry) : Action → Prop
  | .redis false => ∀ docId rest, r.outstanding = .subscribe docId::rest →
      docId ∈ rest.map Command.docId ∨ r.subscribed docId = true
  | _ => True

variable {r next : Registry} {d docId : DocId} {ws : SocketId}

theorem settled_quiet (h : r.outstanding = []) : settled r d = r.subscribed d := by
  rw [settled,h]
  rfl

theorem settled_issue (c : Command) : settled (r.issue c) d = c.sets d (settled r d) := by
  rw [settled,settled,Registry.issue,List.foldl_append]
  rfl

theorem settled_put (set : List SocketId) : settled (r.put docId set) d = settled r d := rfl

theorem rooms_put (set : List SocketId) :
    (r.put docId set).rooms d = if d = docId then set else r.rooms d := rfl

theorem rooms_issue (c : Command) : (r.issue c).rooms = r.rooms := rfl

theorem join_rooms : (r.join docId ws).rooms d =
    if d = docId then (if ws ∈ r.rooms docId then r.rooms docId else r.rooms docId++[ws])
    else r.rooms d := by
  unfold Registry.join
  dsimp only
  split <;> rfl

theorem leave_rooms : (r.leave docId ws).rooms d =
    if d = docId then (r.rooms docId).filter (· ≠ ws) else r.rooms d := by
  unfold Registry.leave
  dsimp only
  split
  · next hnone =>
    split
    · next hd => rw [hd,hnone]; rfl
    · rfl
  · split
    · next hrest => rw [rooms_issue,rooms_put,hrest]
    · rfl

/-! ## Calls -/

theorem inStep_join (h : InStep r) : InStep (r.join docId ws) := by
  intro d
  rw [join_rooms]
  by_cases hd : d = docId
  · subst hd
    have hmember : (if ws ∈ r.rooms d then r.rooms d else r.rooms d++[ws]) ≠ [] := by
      split
      · next hmem => exact List.ne_nil_of_mem hmem
      · exact List.append_ne_nil_of_right_ne_nil _ (List.cons_ne_nil _ _)
    rw [if_pos rfl]
    refine iff_of_true ?_ hmember
    unfold Registry.join
    dsimp only
    split
    · rw [settled_issue]
      exact if_pos rfl
    · next hsome => exact (h d).mpr hsome
  · rw [if_neg hd]
    refine Iff.trans ?_ (h d)
    unfold Registry.join
    dsimp only
    split
    · rw [settled_issue,settled_put]
      show (if docId = d then true else settled r d) = true ↔ _
      rw [if_neg (Ne.symm hd)]
    · rfl

theorem inStep_leave (h : InStep r) : InStep (r.leave docId ws) := by
  intro d
  rw [leave_rooms]
  unfold Registry.leave
  dsimp only
  by_cases hd : d = docId
  · subst hd
    rw [if_pos rfl]
    split
    · next hnone =>
      rw [h d,hnone]
      rfl
    · next hsome =>
      split
      · next hrest =>
        rw [settled_issue]
        refine iff_of_false ?_ (fun hne => hne hrest)
        show ¬(if d = d then false else _) = true
        rw [if_pos rfl]
        exact Bool.false_ne_true
      · next hrest => exact iff_of_true ((h d).mpr hsome) hrest
  · rw [if_neg hd]
    refine Iff.trans ?_ (h d)
    split
    · rfl
    · split
      · rw [settled_issue,settled_put]
        show (if docId = d then false else settled r d) = true ↔ _
        rw [if_neg (Ne.symm hd)]
      · rfl

/-! ## Redis -/

theorem settled_executed {c : Command} {rest : List Command} (h : r.outstanding = c::rest) :
    settled { r with outstanding := rest, subscribed := fun d => c.sets d (r.subscribed d) } d =
      settled r d := by
  rw [settled,settled,h,List.foldl_cons]

/-- The last command for a document decides, whatever was before. -/
theorem sets_overwritten {cs : List Command} (h : d ∈ cs.map Command.docId) (on : Bool) :
    ∀ off : Bool, cs.foldl (Command.sets d) on = cs.foldl (Command.sets d) off := by
  induction cs generalizing on with
  | nil => cases h
  | cons c cs ih =>
    intro off
    rw [List.foldl_cons,List.foldl_cons]
    by_cases hrest : d ∈ cs.map Command.docId
    · exact ih hrest _ _
    · have hc : c.docId = d := by
        rcases List.mem_cons.mp h with heq | hmem
        · exact heq.symm
        · exact absurd hmem hrest
      congr 1
      cases c with
      | subscribe e => exact (if_pos hc).trans (if_pos hc).symm
      | unsubscribe e => exact (if_pos hc).trans (if_pos hc).symm

theorem sets_untouched {cs : List Command} (h : d ∉ cs.map Command.docId) (on : Bool) :
    cs.foldl (Command.sets d) on = on := by
  induction cs with
  | nil => rfl
  | cons c cs ih =>
    rw [List.map_cons,List.mem_cons,not_or] at h
    have hc : c.sets d on = on := by
      cases c with
      | subscribe e => exact if_neg (Ne.symm h.1)
      | unsubscribe e => exact if_neg (Ne.symm h.1)
    rw [List.foldl_cons,hc]
    exact ih h.2

/-- A rejection goes unnoticed exactly when the command did not decide. -/
theorem settled_rejected {rest : List Command} (h : r.outstanding = .subscribe docId::rest) :
    (∀ e, settled { r with outstanding := rest } e = settled r e) ↔
      docId ∈ rest.map Command.docId ∨ r.subscribed docId = true := by
  have hbefore : ∀ e, settled r e =
      rest.foldl (Command.sets e) (if docId = e then true else r.subscribed e) := by
    intro e
    rw [settled,h]
    rfl
  have hafter : ∀ e, settled { r with outstanding := rest } e =
      rest.foldl (Command.sets e) (r.subscribed e) := fun _ => rfl
  constructor
  · intro hsame
    by_cases hlater : docId ∈ rest.map Command.docId
    · exact Or.inl hlater
    · right
      have hdoc := hsame docId
      rw [hbefore,hafter,sets_untouched hlater,sets_untouched hlater,if_pos rfl] at hdoc
      exact hdoc
  · intro hharmless e
    rw [hbefore,hafter]
    by_cases he : docId = e
    · subst he
      rw [if_pos rfl]
      rcases hharmless with hlater | hsubscribed
      · exact sets_overwritten hlater _ _
      · rw [hsubscribed]
    · rw [if_neg he]

theorem inStep_congr {t : Registry} (hrooms : t.rooms = r.rooms) (h : InStep r) :
    InStep t ↔ ∀ e, settled t e = settled r e := by
  refine forall_congr' fun e => ?_
  rw [hrooms,← h e]
  cases settled t e <;> cases settled r e <;> decide

/-- The invariant survives a step just when no rejected `subscribe` mattered. -/
theorem inStep_step {a : Action} (h : InStep r) (hstep : step r a = some next) :
    InStep next ↔ Harmless r a := by
  cases a with
  | join docId ws =>
    obtain rfl := Option.some.inj hstep
    exact iff_of_true (inStep_join h) trivial
  | leave docId ws =>
    obtain rfl := Option.some.inj hstep
    exact iff_of_true (inStep_leave h) trivial
  | redis ok =>
    cases hqueue : r.outstanding with
    | nil =>
      rw [step,hqueue] at hstep
      cases hstep
    | cons c rest =>
      rw [step,hqueue] at hstep
      have hexecuted : InStep { r with
          outstanding := rest
          subscribed := fun d => c.sets d (r.subscribed d) } := by
        refine (inStep_congr ?_ h).mpr (fun e => settled_executed hqueue)
        rfl
      cases ok with
      | true =>
        have hnext : next = { r with
            outstanding := rest
            subscribed := fun d => c.sets d (r.subscribed d) } := by
          cases c <;> exact (Option.some.inj hstep).symm
        rw [hnext]
        exact iff_of_true hexecuted trivial
      | false =>
        cases c with
        | unsubscribe docId =>
          obtain rfl := Option.some.inj hstep
          refine iff_of_true hexecuted ?_
          intro docId' rest' heq
          cases hqueue.symm.trans heq
        | subscribe docId =>
          obtain rfl := Option.some.inj hstep
          have hrejected : InStep { r with outstanding := rest } ↔
              ∀ e, settled { r with outstanding := rest } e = settled r e := by
            refine inStep_congr ?_ h
            rfl
          refine hrejected.trans ((settled_rejected hqueue).trans ?_)
          constructor
          · intro hharmless docId' rest' heq
            cases hqueue.symm.trans heq
            exact hharmless
          · exact fun hharmless => hharmless docId rest hqueue

theorem inStep_start : InStep {} := fun _ => by simp [settled]

/-- In all runs of joins, leaves and answers of Redis: the subscriptions follow
the rooms exactly as long as each rejected `subscribe` is made up for by a
command that is outstanding. -/
theorem subscribed_iff_harmless (actions : List Action) :
    Throughout step InStep {} actions ↔ Along step Harmless {} actions :=
  throughout_iff_along (fun _ _ _ _ _ => trivial) (fun _ _ _ _ h hstep => inStep_step h hstep)
    trivial inStep_start

/-- The first `subscribe` is rejected; nobody subscribes when a second socket
joins, and the room stays deaf. -/
theorem rejected_room_stays_deaf : ∃ r,
    exec step {} [.join 1 0,.redis false,.join 1 1] = some r ∧ r.outstanding = [] ∧
      r.rooms 1 = [0,1] ∧ r.subscribed 1 = false :=
  ⟨_,rfl,rfl,rfl,rfl⟩

end BlockDocs.RoomRegistry
