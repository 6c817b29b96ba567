import BlockDocs.GuardedRun
import BlockDocs.WsServer

/-!
# Connections in progress

While the handler of a connection waits, exactly one command or reply in the
queues belongs to it, of the kind it waits for. An open socket is a member of
the room.
-/

set_option autoImplicit false

namespace BlockDocs.Connections
open BlockDocs.Wire BlockDocs.DeltaPipeline BlockDocs.Protocol BlockDocs.WsServer
open BlockDocs.GuardedRun

def waits : Phase → Bool
  | .joining => true
  | .inspecting => true
  | .ranging => true
  | _ => false

def commandStage : SubCommand → Option (SocketId × Phase)
  | .subscribe s => some (s,.joining)
  | .unsubscribe => none

def eventStage : SubEvent → Option (SocketId × Phase)
  | .subscribed s _ => some (s,.joining)
  | .message _ => none

def issuedStage : Command → Option (SocketId × Phase)
  | .xinfo s => some (s,.inspecting)
  | .xrange s _ => some (s,.ranging)
  | _ => none

def replyStage : Reply → Option (SocketId × Phase)
  | .info s _ => some (s,.inspecting)
  | .entries s _ => some (s,.ranging)
  | .added _ _ => none

def stages (w : World) : List (SocketId × Phase) :=
  w.subOut.filterMap commandStage++w.subIn.filterMap eventStage++
    w.cmdOut.filterMap issuedStage++w.cmdIn.filterMap replyStage

def stageOf (s : SocketId) : Option Socket → List (SocketId × Phase)
  | none => []
  | some c => if waits c.phase then [(s,c.phase)] else []

def Staged (w : World) : Prop :=
  ∀ s, ((stages w).filter (fun x => x.1 = s)).Perm (stageOf s (w.sockets s))

structure Sound (w : World) : Prop where
  staged : Staged w
  unused : ∀ s, w.next ≤ s → w.sockets s = none
  member : ∀ s c, w.sockets s = some c → c.isOpen = true → s ∈ w.room
  since : ∀ s k, .xrange s k ∈ w.cmdOut → ∃ c, w.sockets s = some c ∧ c.cursor = k

variable {w next : World} {s : SocketId} {c : Socket}

theorem stageOf_at {o : Option Socket} {x : SocketId × Phase} (h : x ∈ stageOf s o) : x.1 = s := by
  cases o with
  | none => simp [stageOf] at h
  | some c =>
    simp only [stageOf] at h
    split at h
    · rw [List.mem_singleton.mp h]
    · cases h

theorem stageOf_length (o : Option Socket) : (stageOf s o).length ≤ 1 := by
  cases o with
  | none => simp [stageOf]
  | some c =>
    simp only [stageOf]
    split <;> simp

theorem filter_at {xs : List (SocketId × Phase)} (h : ∀ x ∈ xs, x.1 = s) (i : SocketId) :
    xs.filter (fun x => x.1 = i) = if i = s then xs else [] := by
  by_cases hi : i = s
  · rw [if_pos hi,List.filter_eq_self]
    intro x hx
    rw [h x hx,hi]
    exact decide_eq_true rfl
  · rw [if_neg hi,List.filter_eq_nil_iff]
    intro x hx
    rw [h x hx,decide_eq_true_eq]
    exact fun heq => hi heq.symm

/-- A step that moves a handler on: its old item leaves the queues and new ones
take its place. -/
theorem staged_change (old : List (SocketId × Phase)) {new rest : List (SocketId × Phase)}
    (h : Staged w)
    (hw : (stages w).Perm (old++rest)) (hnext : (stages next).Perm (new++rest))
    (hold : ∀ x ∈ old, x.1 = s) (hlen : (stageOf s (w.sockets s)).length ≤ old.length)
    (hself : stageOf s (next.sockets s) = new)
    (hothers : ∀ i, i ≠ s → stageOf i (next.sockets i) = stageOf i (w.sockets i)) :
    Staged next := by
  have hnew : ∀ x ∈ new, x.1 = s := fun x hx => stageOf_at (hself ▸ hx)
  intro i
  have hbefore := (hw.filter (fun x => decide (x.1 = i))).symm.trans (h i)
  have hafter := hnext.filter (fun x => decide (x.1 = i))
  rw [List.filter_append,filter_at hold] at hbefore
  rw [List.filter_append,filter_at hnew] at hafter
  by_cases hi : i = s
  · subst hi
    rw [if_pos rfl] at hbefore hafter
    have hcount := hbefore.length_eq
    rw [List.length_append] at hcount
    have hrest : rest.filter (fun x => x.1 = i) = [] := List.length_eq_zero_iff.mp (by omega)
    rw [hrest,List.append_nil] at hafter
    rw [hself]
    exact hafter
  · rw [if_neg hi,List.nil_append] at hbefore hafter
    rw [hothers i hi]
    exact hafter.trans hbefore

theorem staged_same (h : Staged w) (hstages : (stages next).Perm (stages w))
    (hsockets : ∀ i, stageOf i (next.sockets i) = stageOf i (w.sockets i)) : Staged next := by
  intro i
  rw [hsockets i]
  exact (hstages.filter _).trans (h i)

/-- The item at the head of a queue says in which phase its handler waits. -/
theorem staged_phase {ph : Phase} (h : Staged w) (hmem : (s,ph) ∈ stages w) :
    ∃ c, w.sockets s = some c ∧ c.phase = ph := by
  have hx : (s,ph) ∈ stageOf s (w.sockets s) :=
    (h s).mem_iff.mp (List.mem_filter.mpr ⟨hmem,decide_eq_true rfl⟩)
  cases hc : w.sockets s with
  | none =>
    rw [hc] at hx
    cases hx
  | some c =>
    rw [hc,stageOf] at hx
    split at hx
    · cases List.mem_singleton.mp hx
      exact ⟨c,rfl,rfl⟩
    · cases hx

theorem subOut_stage {x : SubCommand} {y : SocketId × Phase} (hx : x ∈ w.subOut)
    (hy : commandStage x = some y) : y ∈ stages w := by
  simp only [stages,List.mem_append]
  exact Or.inl (Or.inl (Or.inl (List.mem_filterMap.mpr ⟨x,hx,hy⟩)))

theorem subIn_stage {x : SubEvent} {y : SocketId × Phase} (hx : x ∈ w.subIn)
    (hy : eventStage x = some y) : y ∈ stages w := by
  simp only [stages,List.mem_append]
  exact Or.inl (Or.inl (Or.inr (List.mem_filterMap.mpr ⟨x,hx,hy⟩)))

theorem cmdOut_stage {x : Command} {y : SocketId × Phase} (hx : x ∈ w.cmdOut)
    (hy : issuedStage x = some y) : y ∈ stages w := by
  simp only [stages,List.mem_append]
  exact Or.inl (Or.inr (List.mem_filterMap.mpr ⟨x,hx,hy⟩))

theorem cmdIn_stage {x : Reply} {y : SocketId × Phase} (hx : x ∈ w.cmdIn)
    (hy : replyStage x = some y) : y ∈ stages w := by
  simp only [stages,List.mem_append]
  exact Or.inr (List.mem_filterMap.mpr ⟨x,hx,hy⟩)

theorem staged_once (h : Staged w) (x : SocketId × Phase) : (stages w).count x ≤ 1 := by
  have hfiltered : ((stages w).filter (fun y => y.1 = x.1)).count x = (stages w).count x :=
    List.count_filter (decide_eq_true rfl)
  rw [← hfiltered,(h x.1).count_eq]
  exact List.count_le_length.trans (stageOf_length _)

/-- A range read that is about to run is the only one of its connection. -/
theorem range_once (h : Staged w) {since : StreamId} {rest : List Command}
    (hqueue : w.cmdOut = .xrange s since::rest) :
    (∀ k, .xrange s k ∉ rest) ∧ ∀ found, .entries s found ∉ w.cmdIn := by
  have hcount := staged_once h (s,.ranging)
  simp only [stages,hqueue,issuedStage,List.filterMap_cons,List.count_append,
    List.count_cons_self] at hcount
  constructor
  · intro k hk
    have hmem : (s,Phase.ranging) ∈ rest.filterMap issuedStage :=
      List.mem_filterMap.mpr ⟨_,hk,rfl⟩
    have hpos := List.count_pos_iff.mpr hmem
    omega
  · intro found hfound
    have hmem : (s,Phase.ranging) ∈ w.cmdIn.filterMap replyStage :=
      List.mem_filterMap.mpr ⟨_,hfound,rfl⟩
    have hpos := List.count_pos_iff.mpr hmem
    omega

/-! ## What the parts of a step keep -/

theorem stageOf_modify (f : Socket → Socket) (hf : ∀ c, (f c).phase = c.phase) (i : SocketId) :
    stageOf i ((w.modify s f).sockets i) = stageOf i (w.sockets i) := by
  simp only [World.modify]
  split
  · cases w.sockets i with
    | none => rfl
    | some c => simp only [Option.map_some,stageOf,hf c]
  · rfl

theorem send_phase (frames : List ServerMessage) (c : Socket) :
    (c.send frames).phase = c.phase := by
  unfold Socket.send
  split <;> rfl

theorem send_since (frames : List ServerMessage) (c : Socket) :
    (c.send frames).sinceStreamId = c.sinceStreamId := by
  unfold Socket.send
  split <;> rfl

theorem stageOf_broadcast (frames : List ServerMessage) (except : Option SocketId)
    (i : SocketId) : stageOf i ((w.broadcastLocal frames except).sockets i) =
      stageOf i (w.sockets i) := by
  simp only [World.broadcastLocal]
  split
  · cases w.sockets i with
    | none => rfl
    | some c => simp only [Option.map_some,stageOf,send_phase]
  · rfl

/-! ## What a step can do -/

inductive Stepped (w : World) : Action → World → Prop where
  | first {client : ClientId} {userId : UserId} {since : Option StreamId} (hroom : w.room = []) :
      Stepped w (.connect client userId since)
        { w.enroll { client := client, userId := userId, sinceStreamId := since } with
          subOut := w.subOut++[.subscribe w.next] }
  | later {client : ClientId} {userId : UserId} {since : Option StreamId} (hroom : w.room ≠ []) :
      Stepped w (.connect client userId since)
        ((w.enroll { client := client, userId := userId, sinceStreamId := since }).joined w.next
          { client := client, userId := userId, sinceStreamId := since })
  | closed {s : SocketId} {c : Socket} (hc : w.sockets s = some c) (hopen : c.isOpen = true)
      (hphase : c.phase ≠ .listening) : Stepped w (.close s) (w.modify s Socket.closed)
  | left {s : SocketId} {c : Socket} (hc : w.sockets s = some c) (hopen : c.isOpen = true)
      (hphase : c.phase = .listening) : Stepped w (.close s) ((w.modify s Socket.closed).leave s)
  | missed {s : SocketId} {c : Socket} {raw : Option Json} (hc : w.sockets s = some c)
      (hopen : c.isOpen = true) (hphase : c.phase ≠ .listening) :
      Stepped w (.frame s raw) (w.modify s (Socket.hear raw))
  | heard {s : SocketId} {c : Socket} {raw : Option Json} (hc : w.sockets s = some c)
      (hopen : c.isOpen = true) (hphase : c.phase = .listening) :
      Stepped w (.frame s raw) ((w.modify s (Socket.hear raw)).handle s raw)
  | subscribed {s : SocketId} {ok : Bool} {rest : List SubCommand}
      (hqueue : w.subOut = .subscribe s::rest) : Stepped w (.subExec ok)
        ({ w with subOut := rest }.execSub ok (.subscribe s))
  | unsubscribed {ok : Bool} {rest : List SubCommand} (hqueue : w.subOut = .unsubscribe::rest) :
      Stepped w (.subExec ok) ({ w with subOut := rest }.execSub ok .unsubscribe)
  | joined {s : SocketId} {c : Socket} {rest : List SubEvent}
      (hqueue : w.subIn = .subscribed s true::rest) (hc : w.sockets s = some c)
      (hphase : c.phase = .joining) : Stepped w .subRecv ({ w with subIn := rest }.joined s c)
  | refused {s : SocketId} {c : Socket} {rest : List SubEvent}
      (hqueue : w.subIn = .subscribed s false::rest) (hc : w.sockets s = some c)
      (hphase : c.phase = .joining) :
      Stepped w .subRecv ({ w with subIn := rest }.advance s (Socket.shut .failed) [])
  | skipped {e : Entry} {rest : List SubEvent} (hqueue : w.subIn = .message e::rest)
      (hhere : e.here = true) : Stepped w .subRecv { w with subIn := rest }
  | relayed {e : Entry} {rest : List SubEvent} (hqueue : w.subIn = .message e::rest)
      (hhere : e.here = false) :
      Stepped w .subRecv ({ w with subIn := rest }.broadcastLocal e.frame.toList none)
  | looked {s : SocketId} {ok : Bool} {id : StreamId} {first : Option StreamId}
      {rest : List Command} (hqueue : w.cmdOut = .xinfo s::rest) : Stepped w (.cmdExec ok id)
        { w with cmdOut := rest, cmdIn := w.cmdIn++[.info s first] }
  | ranged {s : SocketId} {id since : StreamId} {rest : List Command}
      (hqueue : w.cmdOut = .xrange s since::rest) : Stepped w (.cmdExec true id)
        { w with
          cmdOut := rest
          cmdIn := w.cmdIn++[.entries s (some (w.stream.filter (fun e => since < e.id)))] }
  | unranged {s : SocketId} {id since : StreamId} {rest : List Command}
      (hqueue : w.cmdOut = .xrange s since::rest) : Stepped w (.cmdExec false id)
        { w with cmdOut := rest, cmdIn := w.cmdIn++[.entries s none] }
  | stored {s : SocketId} {c : Socket} {msg : ClientCrdtMessage} {id : StreamId}
      {rest : List Command} (hqueue : w.cmdOut = .xadd s msg::rest) (hc : w.sockets s = some c)
      (hid : w.fresh id = true) : Stepped w (.cmdExec true id)
        { w.append ⟨id,c.client,c.userId,true,.crdt msg⟩ with
          cmdOut := rest
          cmdIn := w.cmdIn++[.added s (some ⟨id,c.client,c.userId,true,.crdt msg⟩)] }
  | unstored {s : SocketId} {msg : ClientCrdtMessage} {id : StreamId} {rest : List Command}
      (hqueue : w.cmdOut = .xadd s msg::rest) : Stepped w (.cmdExec false id)
        { w with cmdOut := rest, cmdIn := w.cmdIn++[.added s none] }
  | sounded {e : Entry} {ok : Bool} {id : StreamId} {rest : List Command}
      (hqueue : w.cmdOut = .publish e::rest) :
      Stepped w (.cmdExec ok id) ({ w with cmdOut := rest }.deliver e)
  | inspected {s : SocketId} {c : Socket} {first : Option StreamId} {rest : List Reply}
      (hqueue : w.cmdIn = .info s first::rest) (hc : w.sockets s = some c)
      (hphase : c.phase = .inspecting) :
      Stepped w .cmdRecv ({ w with cmdIn := rest }.inspected s c first)
  | replayed {s : SocketId} {c : Socket} {entries : Option (List Entry)} {rest : List Reply}
      (hqueue : w.cmdIn = .entries s entries::rest) (hc : w.sockets s = some c)
      (hphase : c.phase = .ranging) :
      Stepped w .cmdRecv ({ w with cmdIn := rest }.replayed s c entries)
  | settled {s : SocketId} {rest : List Reply} (hqueue : w.cmdIn = .added s none::rest) :
      Stepped w .cmdRecv { w with cmdIn := rest }
  | fanned {s : SocketId} {e : Entry} {rest : List Reply}
      (hqueue : w.cmdIn = .added s (some e)::rest) :
      Stepped w .cmdRecv ({ w with cmdIn := rest }.recvCmd (.added s (some e)))
  | appended {e : Entry} (hid : w.fresh e.id = true) (hhere : e.here = false) :
      Stepped w (.xadd e) { w.append e with unpublished := w.unpublished++[e] }
  | published {i : ℕ} {e : Entry} (he : w.unpublished[i]? = some e) :
      Stepped w (.publish i) ({ w with unpublished := w.unpublished.eraseIdx i }.deliver e)
  | trimmed {n : ℕ} (hn : n < w.stream.length) :
      Stepped w (.trim n) { w with stream := w.stream.drop n }

theorem connect_stepped (client : ClientId) (userId : UserId) (since : Option StreamId) :
    Stepped w (.connect client userId since)
      (w.connect { client := client, userId := userId, sinceStreamId := since }) := by
  unfold World.connect
  split
  · next hroom => exact .first hroom
  · next hroom => exact .later hroom

theorem close_stepped (hs : step w (.close s) = some next) : Stepped w (.close s) next := by
  simp only [step] at hs
  split at hs
  · cases hs
  · next c hc =>
    split at hs
    · next hopen =>
      cases hs
      split
      · next hphase => exact .left hc hopen hphase
      · next hphase => exact .closed hc hopen hphase
    · cases hs

theorem frame_stepped {raw : Option Json} (hs : step w (.frame s raw) = some next) :
    Stepped w (.frame s raw) next := by
  simp only [step] at hs
  split at hs
  · cases hs
  · next c hc =>
    split at hs
    · next hopen =>
      cases hs
      unfold World.receive
      split
      · next hphase => exact .heard hc hopen hphase
      · next hphase => exact .missed hc hopen hphase
    · cases hs

theorem subExec_stepped {ok : Bool} (hs : step w (.subExec ok) = some next) :
    Stepped w (.subExec ok) next := by
  simp only [step] at hs
  split at hs
  · cases hs
  · next c rest hqueue =>
    cases hs
    cases c with
    | subscribe s => exact .subscribed hqueue
    | unsubscribe => exact .unsubscribed hqueue

theorem recvSub_stepped (h : Sound w) {e : SubEvent} {rest : List SubEvent}
    (hqueue : w.subIn = e::rest) : Stepped w .subRecv ({ w with subIn := rest }.recvSub e) := by
  cases e with
  | subscribed s ok =>
    have hmem : (s,Phase.joining) ∈ stages w := subIn_stage (hqueue ▸ List.mem_cons_self) rfl
    obtain ⟨c,hc,hphase⟩ := staged_phase h.staged hmem
    simp only [World.recvSub,hc]
    cases ok with
    | true => exact .joined hqueue hc hphase
    | false => exact .refused hqueue hc hphase
  | message e =>
    simp only [World.recvSub]
    cases hhere : e.here with
    | true => exact .skipped hqueue hhere
    | false => exact .relayed hqueue hhere

theorem execCmd_stepped {c : Command} {rest : List Command} (hqueue : w.cmdOut = c::rest)
    {ok : Bool} {id : StreamId} (hs : { w with cmdOut := rest }.execCmd ok id c = some next) :
    Stepped w (.cmdExec ok id) next := by
  cases c with
  | xinfo s =>
    cases hs
    exact .looked hqueue
  | xrange s since =>
    cases hs
    cases ok with
    | true => exact .ranged hqueue
    | false => exact .unranged hqueue
  | xadd s msg =>
    simp only [World.execCmd] at hs
    cases ok with
    | false =>
      cases hs
      exact .unstored hqueue
    | true =>
      simp only [if_true] at hs
      split at hs
      · cases hs
      · next c hc =>
        split at hs
        · next hid =>
          cases hs
          exact .stored hqueue hc hid
        · cases hs
  | publish e =>
    cases hs
    exact .sounded hqueue

theorem recvCmd_stepped (h : Sound w) {r : Reply} {rest : List Reply}
    (hqueue : w.cmdIn = r::rest) : Stepped w .cmdRecv ({ w with cmdIn := rest }.recvCmd r) := by
  cases r with
  | info s first =>
    have hmem : (s,Phase.inspecting) ∈ stages w := cmdIn_stage (hqueue ▸ List.mem_cons_self) rfl
    obtain ⟨c,hc,hphase⟩ := staged_phase h.staged hmem
    simp only [World.recvCmd,hc]
    exact .inspected hqueue hc hphase
  | entries s entries =>
    have hmem : (s,Phase.ranging) ∈ stages w := cmdIn_stage (hqueue ▸ List.mem_cons_self) rfl
    obtain ⟨c,hc,hphase⟩ := staged_phase h.staged hmem
    simp only [World.recvCmd,hc]
    exact .replayed hqueue hc hphase
  | added s e =>
    cases e with
    | none => exact .settled hqueue
    | some e => exact .fanned hqueue

theorem step_stepped (h : Sound w) {a : Action} (hs : step w a = some next) :
    Stepped w a next := by
  cases a with
  | connect client userId since =>
    cases hs
    exact connect_stepped client userId since
  | close s => exact close_stepped hs
  | frame s raw => exact frame_stepped hs
  | subExec ok => exact subExec_stepped hs
  | subRecv =>
    simp only [step] at hs
    split at hs
    · cases hs
    · next e rest hqueue =>
      cases hs
      exact recvSub_stepped h hqueue
  | cmdExec ok id =>
    simp only [step] at hs
    split at hs
    · cases hs
    · next c rest hqueue => exact execCmd_stepped hqueue hs
  | cmdRecv =>
    simp only [step] at hs
    split at hs
    · cases hs
    · next r rest hqueue =>
      cases hs
      exact recvCmd_stepped h hqueue
  | xadd e =>
    simp only [step] at hs
    split at hs
    · next hboth =>
      cases hs
      exact .appended hboth.1 hboth.2
    · cases hs
  | publish i =>
    simp only [step] at hs
    split at hs
    · cases hs
    · next e he =>
      cases hs
      exact .published he
  | trim n =>
    simp only [step] at hs
    split at hs
    · next hn =>
      cases hs
      exact .trimmed hn
    · cases hs

/-! ## Items and handlers -/

theorem pop_subOut {x : SubCommand} {rest : List SubCommand} (h : w.subOut = x::rest) :
    (stages w).Perm ((commandStage x).toList++stages { w with subOut := rest }) := by
  cases hx : commandStage x <;> simp [stages,h,hx]

theorem pop_subIn {x : SubEvent} {rest : List SubEvent} (h : w.subIn = x::rest) :
    (stages w).Perm ((eventStage x).toList++stages { w with subIn := rest }) := by
  rw [List.perm_iff_count]
  intro y
  cases hx : eventStage x with
  | none => simp [stages,h,hx]
  | some z =>
    simp [stages,h,hx,List.count_cons]
    omega

theorem pop_cmdOut {x : Command} {rest : List Command} (h : w.cmdOut = x::rest) :
    (stages w).Perm ((issuedStage x).toList++stages { w with cmdOut := rest }) := by
  rw [List.perm_iff_count]
  intro y
  cases hx : issuedStage x with
  | none => simp [stages,h,hx]
  | some z =>
    simp [stages,h,hx,List.count_cons]
    omega

theorem pop_cmdIn {x : Reply} {rest : List Reply} (h : w.cmdIn = x::rest) :
    (stages w).Perm ((replyStage x).toList++stages { w with cmdIn := rest }) := by
  rw [List.perm_iff_count]
  intro y
  cases hx : replyStage x with
  | none => simp [stages,h,hx]
  | some z =>
    simp [stages,h,hx,List.count_cons]
    omega

theorem push_subOut (w : World) (x : SubCommand) :
    (stages { w with subOut := w.subOut++[x] }).Perm ((commandStage x).toList++stages w) := by
  rw [List.perm_iff_count]
  intro y
  cases hx : commandStage x with
  | none => simp [stages,hx]
  | some z =>
    simp [stages,hx,List.count_cons]
    omega

theorem push_subIn (w : World) (x : SubEvent) :
    (stages { w with subIn := w.subIn++[x] }).Perm ((eventStage x).toList++stages w) := by
  rw [List.perm_iff_count]
  intro y
  cases hx : eventStage x with
  | none => simp [stages,hx]
  | some z =>
    simp [stages,hx,List.count_cons]
    omega

theorem push_cmdIn (w : World) (x : Reply) :
    (stages { w with cmdIn := w.cmdIn++[x] }).Perm ((replyStage x).toList++stages w) := by
  rw [List.perm_iff_count]
  intro y
  cases hx : replyStage x with
  | none => simp [stages,hx]
  | some z =>
    simp [stages,hx,List.count_cons]
    omega

/-- A command leaves one queue and its reply enters the other. -/
theorem answered_cmd {x : Command} {r : Reply} {rest : List Command} (h : w.cmdOut = x::rest)
    (hstage : replyStage r = issuedStage x) :
    (stages { w with cmdOut := rest, cmdIn := w.cmdIn++[r] }).Perm (stages w) := by
  have hpush := push_cmdIn { w with cmdOut := rest } r
  rw [hstage] at hpush
  exact hpush.trans (pop_cmdOut h).symm

theorem stages_advance (w : World) (s : SocketId) (f : Socket → Socket) (commands : List Command) :
    (stages (w.advance s f commands)).Perm (commands.filterMap issuedStage++stages w) := by
  rw [List.perm_iff_count]
  intro x
  simp only [stages,World.advance,World.modify,List.filterMap_append,List.count_append]
  omega

theorem stages_deliver (w : World) (e : Entry) : stages (w.deliver e) = stages w := by
  unfold World.deliver
  split
  · simp [stages,eventStage]
  · rfl

theorem sockets_deliver (w : World) (e : Entry) : (w.deliver e).sockets = w.sockets := by
  unfold World.deliver
  split <;> rfl

theorem replayStart_stage (since : Option StreamId) {c : Socket}
    (hphase : c.phase = (replayStart s since).1) :
    stageOf s (some c) = (replayStart s since).2.filterMap issuedStage := by
  cases since with
  | none => simp [replayStart,stageOf,hphase,waits]
  | some since =>
    by_cases hz : since = zeroId
    · simp [replayStart,stageOf,hphase,waits,hz,issuedStage]
    · simp [replayStart,stageOf,hphase,waits,hz,issuedStage]

/-- A waiting handler whose item is taken from a queue moves on. -/
theorem staged_resume {popped : World} {ph : Phase} {f : Socket → Socket}
    {commands : List Command} (h : Staged w)
    (hpop : (stages w).Perm ([(s,ph)]++stages popped)) (hsockets : popped.sockets = w.sockets)
    (hc : w.sockets s = some c)
    (hnew : stageOf s (some (f c)) = commands.filterMap issuedStage) :
    Staged (popped.advance s f commands) := by
  apply staged_change (s := s) _ h hpop (stages_advance popped s f commands)
  · simp
  · exact stageOf_length _
  · simp [World.advance,World.modify,hsockets,hc,hnew]
  · intro i hi
    simp [World.advance,World.modify,hsockets,hi]

theorem staged_enroll (new : List (SocketId × Phase)) (h : Sound w)
    (hstages : (stages next).Perm (new++stages w))
    (hself : stageOf w.next (next.sockets w.next) = new)
    (hothers : ∀ i, i ≠ w.next → next.sockets i = w.sockets i) : Staged next := by
  apply staged_change (s := w.next) [] h.staged (List.Perm.refl _) hstages
  · simp
  · simp [h.unused w.next (le_refl _),stageOf]
  · exact hself
  · exact fun i hi => by rw [hothers i hi]

theorem handlerCommands_stage (s : SocketId) (msg : ClientMessage) :
    (handlerCommands s msg).filterMap issuedStage = [] := by
  cases msg with
  | crdt m =>
    simp only [handlerCommands]
    split <;> rfl
  | _ => rfl

theorem staged_handle (h : Staged w) (raw : Option Json) : Staged (w.handle s raw) := by
  unfold World.handle
  split
  · exact h
  · refine staged_same h ((stages_advance w s _ _).trans ?_) (stageOf_modify _ (fun _ => rfl))
    rw [handlerCommands_stage,List.nil_append]

theorem staged_step {a : Action} (h : Sound w) (hs : Stepped w a next) : Staged next := by
  cases hs with
  | first hroom =>
    refine staged_enroll [(w.next,.joining)] h (push_subOut _ (.subscribe w.next)) ?_ ?_
    · simp [World.enroll,stageOf,waits]
    · intro i hi
      simp [World.enroll,hi]
  | @later client userId since hroom =>
    refine staged_enroll _ h (stages_advance (w.enroll _) _ _ _) ?_ ?_
    · simp only [World.joined,World.advance,World.modify,World.enroll,if_true,Option.map_some]
      exact replayStart_stage since rfl
    · intro i hi
      simp [World.joined,World.advance,World.modify,World.enroll,hi]
  | closed _ _ _ => exact staged_same h.staged (List.Perm.refl _) (stageOf_modify _ (fun _ => rfl))
  | @left s c _ _ _ =>
    refine staged_same h.staged ?_ (stageOf_modify _ (fun _ => rfl))
    simp only [World.leave]
    split
    · exact push_subOut (w.modify s Socket.closed) .unsubscribe
    · exact List.Perm.refl _
  | missed _ _ _ => exact staged_same h.staged (List.Perm.refl _) (stageOf_modify _ (fun _ => rfl))
  | heard _ _ _ =>
    apply staged_handle
    exact staged_same h.staged (List.Perm.refl _) (stageOf_modify _ (fun _ => rfl))
  | subscribed hqueue =>
    exact staged_same h.staged ((push_subIn _ _).trans (pop_subOut hqueue).symm) (fun _ => rfl)
  | unsubscribed hqueue =>
    exact staged_same h.staged (pop_subOut hqueue).symm (fun _ => rfl)
  | joined hqueue hc hphase =>
    exact staged_resume h.staged (pop_subIn hqueue) rfl hc (replayStart_stage _ rfl)
  | refused hqueue hc hphase => exact staged_resume h.staged (pop_subIn hqueue) rfl hc rfl
  | skipped hqueue _ => exact staged_same h.staged (pop_subIn hqueue).symm (fun _ => rfl)
  | relayed hqueue _ =>
    exact staged_same h.staged (pop_subIn hqueue).symm (stageOf_broadcast _ _)
  | looked hqueue =>
    exact staged_same h.staged (answered_cmd hqueue rfl) (fun _ => rfl)
  | ranged hqueue =>
    exact staged_same h.staged (answered_cmd hqueue rfl) (fun _ => rfl)
  | unranged hqueue =>
    exact staged_same h.staged (answered_cmd hqueue rfl) (fun _ => rfl)
  | stored hqueue _ _ =>
    exact staged_same h.staged (answered_cmd hqueue rfl) (fun _ => rfl)
  | unstored hqueue =>
    exact staged_same h.staged (answered_cmd hqueue rfl) (fun _ => rfl)
  | sounded hqueue =>
    apply staged_same h.staged
    · rw [stages_deliver]
      exact (pop_cmdOut hqueue).symm
    · intro i
      rw [sockets_deliver]
  | @inspected s c first rest hqueue hc hphase =>
    unfold World.inspected
    split
    · exact staged_resume h.staged (pop_cmdIn hqueue) rfl hc rfl
    · exact staged_resume h.staged (pop_cmdIn hqueue) rfl hc rfl
  | @replayed s c entries rest hqueue hc hphase =>
    cases entries with
    | none => exact staged_resume h.staged (pop_cmdIn hqueue) rfl hc rfl
    | some entries => exact staged_resume h.staged (pop_cmdIn hqueue) rfl hc rfl
  | settled hqueue => exact staged_same h.staged (pop_cmdIn hqueue).symm (fun _ => rfl)
  | @fanned s e rest hqueue =>
    refine staged_same h.staged ?_ (stageOf_broadcast _ _)
    refine List.Perm.trans ?_ (pop_cmdIn hqueue).symm
    have hpublish : [Command.publish e].filterMap issuedStage = [] := rfl
    simp [stages,World.recvCmd,World.broadcastLocal,replyStage,hpublish]
  | appended _ _ => exact staged_same h.staged (List.Perm.refl _) (fun _ => rfl)
  | published _ =>
    apply staged_same h.staged
    · rw [stages_deliver]
      exact List.Perm.refl _
    · intro i
      rw [sockets_deliver]
  | trimmed _ => exact staged_same h.staged (List.Perm.refl _) (fun _ => rfl)

/-! ## What becomes of a socket -/

structure Later (c c' : Socket) : Prop where
  client : c'.client = c.client
  since : c'.sinceStreamId = c.sinceStreamId
  isOpen : c'.isOpen = true → c.isOpen = true
  listening : c.phase = .listening → c'.phase = .listening
  sent : c.sent <+: c'.sent

theorem Later.refl (c : Socket) : Later c c := ⟨rfl,rfl,id,id,List.prefix_refl _⟩

theorem Later.trans {c d e : Socket} (h : Later c d) (h' : Later d e) : Later c e :=
  ⟨h'.client.trans h.client,h'.since.trans h.since,fun ho => h.isOpen (h'.isOpen ho),
    fun hl => h'.listening (h.listening hl),h.sent.trans h'.sent⟩

theorem later_send (frames : List ServerMessage) (c : Socket) : Later c (c.send frames) := by
  unfold Socket.send
  split
  · exact ⟨rfl,rfl,id,id,List.prefix_append _ _⟩
  · exact Later.refl c

theorem later_enter {c : Socket} (hphase : c.phase ≠ .listening) (phase : Phase) :
    Later c (c.enter phase) :=
  ⟨rfl,rfl,id,fun h => absurd h hphase,List.prefix_refl _⟩

theorem later_shut {c : Socket} (hphase : c.phase ≠ .listening) (phase : Phase) :
    Later c (c.shut phase) :=
  ⟨rfl,rfl,(fun h => nomatch h),fun h => absurd h hphase,List.prefix_refl _⟩

theorem later_closed (c : Socket) : Later c c.closed :=
  ⟨rfl,rfl,(fun h => nomatch h),id,List.prefix_refl _⟩

theorem later_hear (raw : Option Json) (c : Socket) : Later c (c.hear raw) :=
  ⟨rfl,rfl,id,id,List.prefix_refl _⟩

inductive Evolved : Option Socket → Option Socket → Prop where
  | none : Evolved none none
  | some {c c' : Socket} (h : Later c c') : Evolved (some c) (some c')

theorem Evolved.refl (o : Option Socket) : Evolved o o := by
  cases o with
  | none => exact .none
  | some c => exact .some (Later.refl c)

theorem Evolved.trans {o p q : Option Socket} (h : Evolved o p) (h' : Evolved p q) :
    Evolved o q := by
  cases h with
  | none => exact h'
  | some h =>
    cases h' with
    | some h' => exact .some (h.trans h')

theorem evolved_modify {f : Socket → Socket} (hc : w.sockets s = some c) (hf : Later c (f c))
    (i : SocketId) : Evolved (w.sockets i) ((w.modify s f).sockets i) := by
  by_cases hi : i = s
  · subst hi
    simp only [World.modify,if_true,hc,Option.map_some]
    exact .some hf
  · simp only [World.modify,if_neg hi]
    exact .refl _

theorem evolved_broadcast (frames : List ServerMessage) (except : Option SocketId)
    (i : SocketId) : Evolved (w.sockets i) ((w.broadcastLocal frames except).sockets i) := by
  simp only [World.broadcastLocal]
  split
  · cases w.sockets i with
    | none => exact .none
    | some c => exact .some (later_send frames c)
  · exact .refl _

theorem handle_phase (hc : w.sockets s = some c) (raw : Option Json) (i : SocketId) :
    Evolved (w.sockets i) ((w.handle s raw).sockets i) := by
  unfold World.handle
  split
  · exact .refl _
  · exact evolved_modify hc ⟨rfl,rfl,id,id,List.prefix_refl _⟩ i

/-- Every socket stays and moves on, but for the one that a connect adds. -/
theorem sockets_step {a : Action} (hs : Stepped w a next) (i : SocketId) :
    Evolved (w.sockets i) (next.sockets i) ∨
      i = w.next ∧ ∃ client userId since, a = .connect client userId since := by
  cases hs with
  | first _ =>
    by_cases hi : i = w.next
    · exact Or.inr ⟨hi,_,_,_,rfl⟩
    · left
      simp only [World.enroll,if_neg hi]
      exact .refl _
  | later _ =>
    by_cases hi : i = w.next
    · exact Or.inr ⟨hi,_,_,_,rfl⟩
    · left
      simp only [World.joined,World.advance,World.modify,World.enroll,if_neg hi]
      exact .refl _
  | closed hc _ _ => exact Or.inl (evolved_modify hc (later_closed _) i)
  | left hc _ _ => exact Or.inl (evolved_modify hc (later_closed _) i)
  | missed hc _ _ => exact Or.inl (evolved_modify hc (later_hear _ _) i)
  | @heard s c raw hc _ _ =>
    have hheard : (w.modify s (Socket.hear raw)).sockets s = some (c.hear raw) := by
      simp [World.modify,hc]
    exact Or.inl ((evolved_modify hc (later_hear raw c) i).trans (handle_phase hheard raw i))
  | joined _ hc hphase =>
    refine Or.inl (evolved_modify hc ((later_send _ _).trans (later_enter ?_ _)) i)
    rw [send_phase,hphase]
    decide
  | refused _ hc hphase =>
    refine Or.inl (evolved_modify hc (later_shut ?_ _) i)
    rw [hphase]
    decide
  | relayed _ _ => exact Or.inl (evolved_broadcast _ _ i)
  | sounded _ =>
    left
    rw [sockets_deliver]
    exact .refl _
  | @inspected s c first rest _ hc hphase =>
    unfold World.inspected
    split
    · refine Or.inl (evolved_modify hc ((later_send _ _).trans (later_shut ?_ _)) i)
      rw [send_phase,hphase]
      decide
    · refine Or.inl (evolved_modify hc (later_enter ?_ _) i)
      rw [hphase]
      decide
  | @replayed s c entries rest _ hc hphase =>
    cases entries with
    | none =>
      refine Or.inl (evolved_modify hc (later_shut ?_ _) i)
      rw [hphase]
      decide
    | some entries =>
      refine Or.inl (evolved_modify hc ((later_send _ _).trans (later_enter ?_ _)) i)
      rw [send_phase,hphase]
      decide
  | fanned _ => exact Or.inl (evolved_broadcast _ _ i)
  | published _ =>
    left
    rw [sockets_deliver]
    exact .refl _
  | _ => exact Or.inl (.refl _)

/-- The worlds differ in their sockets and in the commands that are out. -/
structure Quiet (w v : World) : Prop where
  added : v.added = w.added
  stream : v.stream = w.stream
  unpublished : v.unpublished = w.unpublished
  subOut : v.subOut = w.subOut
  subIn : v.subIn = w.subIn
  cmdIn : v.cmdIn = w.cmdIn
  room : v.room = w.room
  next : v.next = w.next

theorem advance_quiet (w : World) (s : SocketId) (f : Socket → Socket) (commands : List Command) :
    Quiet w (w.advance s f commands) := ⟨rfl,rfl,rfl,rfl,rfl,rfl,rfl,rfl⟩

theorem handle_quiet (w : World) (s : SocketId) (raw : Option Json) :
    Quiet w (w.handle s raw) := by
  unfold World.handle
  split
  · exact ⟨rfl,rfl,rfl,rfl,rfl,rfl,rfl,rfl⟩
  · exact advance_quiet w s _ _

theorem inspected_quiet (w : World) (s : SocketId) (c : Socket) (first : Option StreamId) :
    Quiet w (w.inspected s c first) := by
  unfold World.inspected
  split <;> exact advance_quiet w s _ _

theorem replayed_quiet (w : World) (s : SocketId) (c : Socket) (entries : Option (List Entry)) :
    Quiet w (w.replayed s c entries) := by
  cases entries <;> exact advance_quiet w s _ _

/-- A delivery adds to the events of the subscriber connection, and no more. -/
theorem deliver_frame (w : World) (e : Entry) : w.deliver e =
    { w with subIn := w.subIn++if w.subscribed then [.message e] else [] } := by
  unfold World.deliver
  split
  · rfl
  · rw [List.append_nil]

/-- A socket leaves the room only when it closes. -/
theorem room_step {a : Action} (hs : Stepped w a next) {i : SocketId} (hi : i ∈ w.room) :
    i ∈ next.room ∨ ∃ c, next.sockets i = some c ∧ c.isOpen = false := by
  cases hs with
  | first _ => exact Or.inl (List.mem_append_left _ hi)
  | later _ => exact Or.inl (List.mem_append_left _ hi)
  | @left s c hc _ _ =>
    by_cases his : i = s
    · subst his
      exact Or.inr ⟨c.closed,by simp [World.leave,World.modify,hc],rfl⟩
    · exact Or.inl (List.mem_filter.mpr ⟨hi,decide_eq_true his⟩)
  | heard _ _ _ => exact Or.inl ((handle_quiet _ _ _).room.symm ▸ hi)
  | sounded _ =>
    rw [deliver_frame]
    exact Or.inl hi
  | inspected _ _ _ => exact Or.inl ((inspected_quiet _ _ _ _).room.symm ▸ hi)
  | replayed _ _ _ => exact Or.inl ((replayed_quiet _ _ _ _).room.symm ▸ hi)
  | published _ =>
    rw [deliver_frame]
    exact Or.inl hi
  | _ => exact Or.inl hi

theorem enrolled_member {a : Action} (hs : Stepped w a next)
    (ha : ∃ client userId since, a = .connect client userId since) : w.next ∈ next.room := by
  obtain ⟨client,userId,since,rfl⟩ := ha
  cases hs with
  | first _ => exact List.mem_append_right _ (List.mem_singleton.mpr rfl)
  | later _ => exact List.mem_append_right _ (List.mem_singleton.mpr rfl)

theorem member_step {a : Action} (h : Sound w) (hs : Stepped w a next) {c' : Socket}
    (hc' : next.sockets s = some c') (hopen : c'.isOpen = true) : s ∈ next.room := by
  rcases sockets_step hs s with hev | ⟨rfl,hconnect⟩
  · rw [hc'] at hev
    obtain ⟨c,hc,hl⟩ : ∃ c, w.sockets s = some c ∧ Later c c' := by
      cases hc : w.sockets s with
      | none =>
        rw [hc] at hev
        cases hev
      | some c =>
        rw [hc] at hev
        cases hev with
        | some hl => exact ⟨c,rfl,hl⟩
    rcases room_step hs (h.member s c hc (hl.isOpen hopen)) with hroom | ⟨d,hd,hclosed⟩
    · exact hroom
    · cases hc'.symm.trans hd
      cases hopen.symm.trans hclosed
  · exact enrolled_member hs hconnect

theorem next_step {a : Action} (hs : Stepped w a next) : w.next ≤ next.next ∧
    ((∃ client userId since, a = .connect client userId since) → w.next < next.next) := by
  cases hs with
  | first _ => exact ⟨Nat.le_succ _,fun _ => Nat.lt_succ_self _⟩
  | later _ => exact ⟨Nat.le_succ _,fun _ => Nat.lt_succ_self _⟩
  | heard _ _ _ =>
    rw [(handle_quiet _ _ _).next]
    exact ⟨le_refl _,by simp⟩
  | sounded _ =>
    rw [deliver_frame]
    exact ⟨le_refl _,by simp⟩
  | inspected _ _ _ =>
    rw [(inspected_quiet _ _ _ _).next]
    exact ⟨le_refl _,by simp⟩
  | replayed _ _ _ =>
    rw [(replayed_quiet _ _ _ _).next]
    exact ⟨le_refl _,by simp⟩
  | published _ =>
    rw [deliver_frame]
    exact ⟨le_refl _,by simp⟩
  | _ => exact ⟨le_refl _,by simp⟩

theorem unused_step {a : Action} (h : Sound w) (hs : Stepped w a next) (s : SocketId)
    (hle : next.next ≤ s) : next.sockets s = none := by
  obtain ⟨hmono,hconnect⟩ := next_step hs
  rcases sockets_step hs s with hev | ⟨rfl,hnew⟩
  · rw [h.unused s (hmono.trans hle)] at hev
    generalize next.sockets s = o at hev
    cases hev
    rfl
  · exact absurd hle (not_le_of_gt (hconnect hnew))

theorem replayStart_xrange {i : SocketId} {since : Option StreamId} {k : StreamId}
    (h : Command.xrange s k ∈ (replayStart i since).2) : s = i ∧ k = since.getD zeroId := by
  cases since with
  | none => simp [replayStart] at h
  | some since =>
    simp only [replayStart] at h
    split at h
    · cases List.mem_singleton.mp h
      exact ⟨rfl,rfl⟩
    · cases List.mem_singleton.mp h

theorem handlerCommands_xrange {i : SocketId} {msg : ClientMessage} {k : StreamId} :
    Command.xrange s k ∉ handlerCommands i msg := by
  cases msg with
  | crdt m =>
    simp only [handlerCommands]
    split <;> simp
  | _ => simp [handlerCommands]

theorem cmdOut_deliver (w : World) (e : Entry) : (w.deliver e).cmdOut = w.cmdOut := by
  unfold World.deliver
  split <;> rfl

/-- XRANGE is called with the cursor of the connection. -/
theorem xrange_step {a : Action} (hs : Stepped w a next) {k : StreamId}
    (hx : .xrange s k ∈ next.cmdOut) : .xrange s k ∈ w.cmdOut ∨
      ∃ c, next.sockets s = some c ∧ c.cursor = k := by
  cases hs with
  | @later client userId since _ =>
    rcases List.mem_append.mp hx with hx | hx
    · exact Or.inl hx
    · obtain ⟨rfl,rfl⟩ := replayStart_xrange hx
      refine Or.inr ⟨_,by simp [World.joined,World.advance,World.modify,World.enroll]; rfl,?_⟩
      simp [Socket.cursor,Socket.enter,send_since]
  | @heard i c raw _ _ _ =>
    left
    simp only [World.handle] at hx
    split at hx
    · exact hx
    · rcases List.mem_append.mp hx with hx | hx
      · exact hx
      · exact absurd hx handlerCommands_xrange
  | @joined i c rest _ hc _ =>
    rcases List.mem_append.mp hx with hx | hx
    · exact Or.inl hx
    · obtain ⟨rfl,rfl⟩ := replayStart_xrange hx
      refine Or.inr ⟨_,by simp [World.joined,World.advance,World.modify,hc]; rfl,?_⟩
      simp [Socket.cursor,Socket.enter,send_since]
  | refused _ _ _ => exact Or.inl (by simpa [World.advance,World.modify] using hx)
  | looked hqueue => exact Or.inl (hqueue ▸ List.mem_cons_of_mem _ hx)
  | ranged hqueue => exact Or.inl (hqueue ▸ List.mem_cons_of_mem _ hx)
  | unranged hqueue => exact Or.inl (hqueue ▸ List.mem_cons_of_mem _ hx)
  | stored hqueue _ _ => exact Or.inl (hqueue ▸ List.mem_cons_of_mem _ hx)
  | unstored hqueue => exact Or.inl (hqueue ▸ List.mem_cons_of_mem _ hx)
  | sounded hqueue =>
    rw [cmdOut_deliver] at hx
    exact Or.inl (hqueue ▸ List.mem_cons_of_mem _ hx)
  | @inspected i c first rest _ hc _ =>
    simp only [World.inspected] at hx
    split at hx
    · exact Or.inl (by simpa [World.advance,World.modify] using hx)
    · next htrim =>
      rcases List.mem_append.mp hx with hx | hx
      · exact Or.inl hx
      · cases List.mem_singleton.mp hx
        refine Or.inr ⟨c.enter .ranging,?_,rfl⟩
        simp [World.inspected,htrim,World.advance,World.modify,hc]
  | @replayed i c entries _ _ _ _ =>
    cases entries with
    | none => exact Or.inl (by simpa [World.replayed,World.advance,World.modify] using hx)
    | some entries => exact Or.inl (by simpa [World.replayed,World.advance,World.modify] using hx)
  | fanned _ =>
    rcases List.mem_append.mp hx with hx | hx
    · exact Or.inl hx
    · cases List.mem_singleton.mp hx
  | published _ =>
    rw [cmdOut_deliver] at hx
    exact Or.inl hx
  | _ => exact Or.inl hx

theorem sound_step {a : Action} (h : Sound w) (hs : Stepped w a next) : Sound next where
  staged := staged_step h hs
  unused := unused_step h hs
  member := fun _ _ hc hopen => member_step h hs hc hopen
  since := by
    intro s k hx
    rcases xrange_step hs hx with hx | hx
    · obtain ⟨c,hc,rfl⟩ := h.since s k hx
      rcases sockets_step hs s with hev | ⟨rfl,_⟩
      · rw [hc] at hev
        generalize next.sockets s = o at hev
        cases hev with
        | some hl => exact ⟨_,rfl,by rw [Socket.cursor,hl.since,Socket.cursor]⟩
      · rw [h.unused _ (le_refl _)] at hc
        cases hc
    · exact hx

theorem sound_start : Sound {} where
  staged := fun _ => List.Perm.refl _
  unused := fun _ _ => rfl
  member := fun _ _ hc => nomatch hc
  since := fun _ _ hx => nomatch hx

theorem sound_next {a : Action} (h : Sound w) (hs : step w a = some next) : Sound next :=
  sound_step h (step_stepped h hs)

end BlockDocs.Connections
