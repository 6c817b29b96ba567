import BlockDocs.Connections

/-!
# What is in flight

An item stays in its queue until it comes to the head, and everything in a
queue comes from an entry that was added.
-/

set_option autoImplicit false

namespace BlockDocs.InFlight
open BlockDocs.Wire BlockDocs.DeltaPipeline BlockDocs.Protocol BlockDocs.WsServer
open BlockDocs.Connections

variable {w next : World} {s : SocketId} {a : Action}

/-! ## The four queues -/

/-- One step of a queue: nothing, or items are added for a reason, or the head
is taken off. -/
inductive Queue {α : Type} (reason : α → Prop) (takes : Prop) : List α → List α → Prop where
  | same (l : List α) : Queue reason takes l l
  | added {l : List α} (more : List α) (h : ∀ x ∈ more, reason x) : Queue reason takes l (l++more)
  | taken {x : α} {l : List α} (h : takes) : Queue reason takes (x::l) l

section Queue
variable {α : Type} {reason : α → Prop} {takes : Prop} {l l' : List α} {x : α}

theorem Queue.of_eq (h : l' = l) : Queue reason takes l l' := h.symm ▸ .same l

theorem Queue.one (h : reason x) : Queue reason takes l (l++[x]) :=
  .added [x] (fun _ hy => List.mem_singleton.mp hy ▸ h)

theorem Queue.none (l : List α) : Queue reason takes l (l++[]) :=
  .of_eq (List.append_nil l)

theorem Queue.pop (hqueue : l = x::l') (h : takes) : Queue reason takes l l' :=
  hqueue ▸ .taken h

/-- An item stays until it is the head and is taken off. -/
theorem Queue.stays (h : Queue reason takes l l') (hx : x ∈ l) :
    x ∈ l' ∨ takes ∧ ∃ rest, l = x::rest := by
  cases h with
  | same => exact Or.inl hx
  | added more _ => exact Or.inl (List.mem_append_left _ hx)
  | taken h =>
    rcases List.mem_cons.mp hx with rfl | hx
    · exact Or.inr ⟨h,_,rfl⟩
    · exact Or.inl hx

theorem Queue.mem_from (h : Queue reason takes l l') (hx : x ∈ l') : x ∈ l ∨ reason x := by
  cases h with
  | same => exact Or.inl hx
  | added more h => exact (List.mem_append.mp hx).imp id (h x)
  | taken _ => exact Or.inl (List.mem_cons_of_mem _ hx)

end Queue

inductive Told (w : World) : SubCommand → Prop where
  | subscribe : Told w (.subscribe w.next)
  | unsubscribe : Told w .unsubscribe

theorem subOut_step (hs : Stepped w a next) :
    Queue (Told w) (∃ ok, a = .subExec ok) w.subOut next.subOut := by
  cases hs with
  | first _ => exact .one .subscribe
  | left _ _ _ =>
    simp only [World.leave]
    split
    · exact .one .unsubscribe
    · exact .same _
  | heard _ _ _ => exact .of_eq (handle_quiet _ _ _).subOut
  | subscribed hqueue => exact .pop hqueue ⟨_,rfl⟩
  | unsubscribed hqueue => exact .pop hqueue ⟨_,rfl⟩
  | sounded _ =>
    rw [deliver_frame]
    exact .same _
  | inspected _ _ _ => exact .of_eq (inspected_quiet _ _ _ _).subOut
  | replayed _ _ _ => exact .of_eq (replayed_quiet _ _ _ _).subOut
  | published _ =>
    rw [deliver_frame]
    exact .same _
  | _ => exact .same _

inductive Raised (w : World) (a : Action) : SubEvent → Prop where
  | subscribed {s : SocketId} (ok : Bool) (h : .subscribe s ∈ w.subOut) :
      Raised w a (.subscribed s ok)
  | sounded {e : Entry} (h : .publish e ∈ w.cmdOut) : Raised w a (.message e)
  | published {i : ℕ} {e : Entry} (ha : a = .publish i) (h : w.unpublished[i]? = some e)
      (hsubscribed : w.subscribed = true) : Raised w a (.message e)

theorem deliver_step {takes : Prop} {reason : SubEvent → Prop} (v : World) (e : Entry)
    (h : v.subscribed = true → reason (.message e)) :
    Queue reason takes v.subIn (v.deliver e).subIn := by
  unfold World.deliver
  split
  · next hsubscribed => exact .one (h hsubscribed)
  · exact .same _

theorem subIn_step (hs : Stepped w a next) :
    Queue (Raised w a) (a = .subRecv) w.subIn next.subIn := by
  cases hs with
  | heard _ _ _ => exact .of_eq (handle_quiet _ _ _).subIn
  | subscribed hqueue => exact .one (.subscribed _ (hqueue ▸ List.mem_cons_self))
  | joined hqueue _ _ => exact .pop hqueue rfl
  | refused hqueue _ _ => exact .pop hqueue rfl
  | skipped hqueue _ => exact .pop hqueue rfl
  | relayed hqueue _ => exact .pop hqueue rfl
  | @sounded e _ _ rest hqueue =>
    exact deliver_step { w with cmdOut := rest } e
      (fun _ => .sounded (hqueue ▸ List.mem_cons_self))
  | inspected _ _ _ => exact .of_eq (inspected_quiet _ _ _ _).subIn
  | replayed _ _ _ => exact .of_eq (replayed_quiet _ _ _ _).subIn
  | @published i e hi =>
    exact deliver_step { w with unpublished := w.unpublished.eraseIdx i } e (.published rfl hi)
  | _ => exact .same _

inductive Issued (w : World) (a : Action) : Command → Prop where
  | connected {client : ClientId} {userId : UserId} {since : Option StreamId} {x : Command}
      (ha : a = .connect client userId since) (hx : x ∈ (replayStart w.next since).2) :
      Issued w a x
  | joined {s : SocketId} {since : Option StreamId} {x : Command}
      (h : .subscribed s true ∈ w.subIn) (hx : x ∈ (replayStart s since).2) : Issued w a x
  | inspected {s : SocketId} {first : Option StreamId} (since : StreamId)
      (h : .info s first ∈ w.cmdIn) : Issued w a (.xrange s since)
  | heard (s : SocketId) (msg : ClientCrdtMessage) : Issued w a (.xadd s msg)
  | fanned {s : SocketId} {e : Entry} (h : .added s (some e) ∈ w.cmdIn) : Issued w a (.publish e)

theorem cmdOut_step (hs : Stepped w a next) :
    Queue (Issued w a) (∃ ok id, a = .cmdExec ok id) w.cmdOut next.cmdOut := by
  cases hs with
  | later _ => exact .added _ (fun x hx => .connected rfl hx)
  | @heard s c raw _ _ _ =>
    simp only [World.handle]
    split
    · exact .same _
    · next msg _ =>
      refine .added _ (fun x hx => ?_)
      cases msg with
      | crdt msg =>
        simp only [handlerCommands] at hx
        split at hx
        · rw [List.mem_singleton.mp hx]
          exact .heard s msg
        · cases hx
      | ops msg => cases hx
      | awareness state => cases hx
  | joined hqueue _ _ =>
    exact .added _ (fun x hx => .joined (hqueue ▸ List.mem_cons_self) hx)
  | refused _ _ _ => exact .none _
  | looked hqueue => exact .pop hqueue ⟨_,_,rfl⟩
  | ranged hqueue => exact .pop hqueue ⟨_,_,rfl⟩
  | unranged hqueue => exact .pop hqueue ⟨_,_,rfl⟩
  | stored hqueue _ _ => exact .pop hqueue ⟨_,_,rfl⟩
  | unstored hqueue => exact .pop hqueue ⟨_,_,rfl⟩
  | sounded hqueue =>
    rw [deliver_frame]
    exact .pop hqueue ⟨_,_,rfl⟩
  | inspected hqueue _ _ =>
    simp only [World.inspected]
    split
    · exact .none _
    · exact .one (.inspected _ (hqueue ▸ List.mem_cons_self))
  | @replayed s c entries rest _ _ _ =>
    cases entries with
    | none => exact .none _
    | some entries => exact .none _
  | fanned hqueue => exact .one (.fanned (hqueue ▸ List.mem_cons_self))
  | published _ =>
    rw [deliver_frame]
    exact .same _
  | _ => exact .same _

inductive Answered (w : World) (a : Action) (next : World) : Reply → Prop where
  | looked {s : SocketId} (first : Option StreamId) (h : .xinfo s ∈ w.cmdOut) :
      Answered w a next (.info s first)
  | ranged {s : SocketId} {since id : StreamId} {rest : List Command} (ha : a = .cmdExec true id)
      (hqueue : w.cmdOut = .xrange s since::rest) :
      Answered w a next (.entries s (some (w.stream.filter (fun e => since < e.id))))
  | unranged {s : SocketId} {since : StreamId} (h : .xrange s since ∈ w.cmdOut) :
      Answered w a next (.entries s none)
  | stored {s : SocketId} {c : Socket} {e : Entry} (h : e ∈ next.added) (hhere : e.here = true)
      (hc : w.sockets s = some c) (hauthor : e.author = c.client) :
      Answered w a next (.added s (some e))
  | unstored (s : SocketId) : Answered w a next (.added s none)

theorem cmdIn_step (hs : Stepped w a next) :
    Queue (Answered w a next) (a = .cmdRecv) w.cmdIn next.cmdIn := by
  cases hs with
  | heard _ _ _ => exact .of_eq (handle_quiet _ _ _).cmdIn
  | looked hqueue => exact .one (.looked _ (hqueue ▸ List.mem_cons_self))
  | ranged hqueue => exact .one (.ranged rfl hqueue)
  | unranged hqueue => exact .one (.unranged (hqueue ▸ List.mem_cons_self))
  | stored _ hc _ =>
    exact .one (.stored (List.mem_append_right _ (List.mem_singleton.mpr rfl)) rfl hc rfl)
  | unstored _ => exact .one (.unstored _)
  | sounded _ =>
    rw [deliver_frame]
    exact .same _
  | inspected hqueue _ _ =>
    rw [(inspected_quiet _ _ _ _).cmdIn]
    exact .pop hqueue rfl
  | replayed hqueue _ _ =>
    rw [(replayed_quiet _ _ _ _).cmdIn]
    exact .pop hqueue rfl
  | settled hqueue => exact .pop hqueue rfl
  | fanned hqueue => exact .pop hqueue rfl
  | published _ =>
    rw [deliver_frame]
    exact .same _
  | _ => exact .same _

theorem subOut_stays (hs : Stepped w a next) {x : SubCommand} (hx : x ∈ w.subOut) :
    x ∈ next.subOut ∨ ∃ ok, a = .subExec ok ∧ ∃ rest, w.subOut = x::rest :=
  ((subOut_step hs).stays hx).imp id (fun ⟨⟨ok,ha⟩,hhead⟩ => ⟨ok,ha,hhead⟩)

theorem subIn_stays (hs : Stepped w a next) {x : SubEvent} (hx : x ∈ w.subIn) :
    x ∈ next.subIn ∨ a = .subRecv ∧ ∃ rest, w.subIn = x::rest :=
  (subIn_step hs).stays hx

theorem cmdOut_stays (hs : Stepped w a next) {x : Command} (hx : x ∈ w.cmdOut) :
    x ∈ next.cmdOut ∨ ∃ ok id, a = .cmdExec ok id ∧ ∃ rest, w.cmdOut = x::rest :=
  ((cmdOut_step hs).stays hx).imp id (fun ⟨⟨ok,id,ha⟩,hhead⟩ => ⟨ok,id,ha,hhead⟩)

theorem cmdIn_stays (hs : Stepped w a next) {x : Reply} (hx : x ∈ w.cmdIn) :
    x ∈ next.cmdIn ∨ a = .cmdRecv ∧ ∃ rest, w.cmdIn = x::rest :=
  (cmdIn_step hs).stays hx

theorem subscribe_from (hs : Stepped w a next) (hx : .subscribe s ∈ next.subOut) :
    .subscribe s ∈ w.subOut ∨ s = w.next :=
  ((subOut_step hs).mem_from hx).imp id (fun h => by cases h; rfl)

theorem subIn_from (hs : Stepped w a next) {x : SubEvent} (hx : x ∈ next.subIn) :
    x ∈ w.subIn ∨ Raised w a x := (subIn_step hs).mem_from hx

theorem cmdOut_from (hs : Stepped w a next) {x : Command} (hx : x ∈ next.cmdOut) :
    x ∈ w.cmdOut ∨ Issued w a x := (cmdOut_step hs).mem_from hx

theorem cmdIn_from (hs : Stepped w a next) {x : Reply} (hx : x ∈ next.cmdIn) :
    x ∈ w.cmdIn ∨ Answered w a next x := (cmdIn_step hs).mem_from hx

/-! ## The entries -/

/-- What a step does to the entries added, the stream and the outstanding ones. -/
inductive Logged (w : World) (a : Action) (next : World) : Prop where
  | same (hadded : next.added = w.added) (n : ℕ) (hstream : next.stream = w.stream.drop n)
      (hunpublished : next.unpublished = w.unpublished)
  | here {e : Entry} (hadded : next.added = w.added++[e]) (hstream : next.stream = w.stream++[e])
      (hunpublished : next.unpublished = w.unpublished) (hfresh : w.fresh e.id = true)
      (hhere : e.here = true)
  | elsewhere {e : Entry} (hadded : next.added = w.added++[e])
      (hstream : next.stream = w.stream++[e]) (hunpublished : next.unpublished = w.unpublished++[e])
      (hfresh : w.fresh e.id = true) (hhere : e.here = false)
  | published {i : ℕ} {e : Entry} (ha : a = .publish i) (he : w.unpublished[i]? = some e)
      (hadded : next.added = w.added) (hstream : next.stream = w.stream)
      (hunpublished : next.unpublished = w.unpublished.eraseIdx i)

theorem log_step (hs : Stepped w a next) : Logged w a next := by
  cases hs with
  | heard _ _ _ =>
    exact .same (handle_quiet _ _ _).added 0 (handle_quiet _ _ _).stream
      (handle_quiet _ _ _).unpublished
  | stored _ _ hid => exact .here rfl rfl rfl hid rfl
  | sounded _ =>
    rw [deliver_frame]
    exact .same rfl 0 rfl rfl
  | inspected _ _ _ =>
    exact .same (inspected_quiet _ _ _ _).added 0 (inspected_quiet _ _ _ _).stream
      (inspected_quiet _ _ _ _).unpublished
  | replayed _ _ _ =>
    exact .same (replayed_quiet _ _ _ _).added 0 (replayed_quiet _ _ _ _).stream
      (replayed_quiet _ _ _ _).unpublished
  | appended hid hhere => exact .elsewhere rfl rfl rfl hid hhere
  | published hi =>
    rw [deliver_frame]
    exact .published rfl hi rfl rfl rfl
  | trimmed _ => exact .same rfl _ rfl rfl
  | _ => exact .same rfl 0 rfl rfl

theorem added_grows (hs : Stepped w a next) : next.added = w.added ∨
    ∃ e, next.added = w.added++[e] ∧ w.fresh e.id = true := by
  cases log_step hs with
  | same hadded _ _ _ => exact Or.inl hadded
  | here hadded _ _ hfresh _ => exact Or.inr ⟨_,hadded,hfresh⟩
  | elsewhere hadded _ _ hfresh _ => exact Or.inr ⟨_,hadded,hfresh⟩
  | published _ _ hadded _ _ => exact Or.inl hadded

theorem added_stays (hs : Stepped w a next) {e : Entry} (he : e ∈ w.added) : e ∈ next.added := by
  rcases added_grows hs with heq | ⟨d,heq,_⟩
  · rw [heq]
    exact he
  · rw [heq]
    exact List.mem_append_left _ he

theorem added_from (hs : Stepped w a next) {e : Entry} (he : e ∈ next.added) :
    e ∈ w.added ∨ e.here = true ∨ e ∈ next.unpublished := by
  cases log_step hs with
  | same hadded _ _ _ => exact Or.inl (hadded ▸ he)
  | here hadded _ _ _ hhere =>
    rw [hadded] at he
    refine (List.mem_append.mp he).imp id (fun he => Or.inl ?_)
    rw [List.mem_singleton.mp he]
    exact hhere
  | elsewhere hadded _ hunpublished _ _ =>
    rw [hadded] at he
    rw [hunpublished]
    exact (List.mem_append.mp he).imp id (fun he => Or.inr (List.mem_append_right _ he))
  | published _ _ hadded _ _ => exact Or.inl (hadded ▸ he)

theorem stream_from (hs : Stepped w a next) {e : Entry} (he : e ∈ next.stream) :
    e ∈ w.stream ∨ e ∈ next.added := by
  cases log_step hs with
  | same _ n hstream _ =>
    rw [hstream] at he
    exact Or.inl (List.mem_of_mem_drop he)
  | here hadded hstream _ _ _ =>
    rw [hstream] at he
    rw [hadded]
    exact (List.mem_append.mp he).imp id (List.mem_append_right _)
  | elsewhere hadded hstream _ _ _ =>
    rw [hstream] at he
    rw [hadded]
    exact (List.mem_append.mp he).imp id (List.mem_append_right _)
  | published _ _ _ hstream _ => exact Or.inl (hstream ▸ he)

theorem eraseIdx_mem {α : Type*} {l : List α} {i : ℕ} {x y : α} (hi : l[i]? = some y)
    (hx : x ∈ l) : x ∈ l.eraseIdx i ∨ x = y := by
  obtain ⟨j,hj⟩ := List.mem_iff_getElem?.mp hx
  by_cases hij : j = i
  · subst hij
    exact Or.inr (Option.some.inj (hj.symm.trans hi))
  · exact Or.inl (List.mem_eraseIdx_iff_getElem?.mpr ⟨j,hij,hj⟩)

theorem unpublished_stays (hs : Stepped w a next) {e : Entry} (he : e ∈ w.unpublished) :
    e ∈ next.unpublished ∨ ∃ i, a = .publish i ∧ w.unpublished[i]? = some e := by
  cases log_step hs with
  | same _ _ _ hunpublished => exact Or.inl (hunpublished.symm ▸ he)
  | here _ _ hunpublished _ _ => exact Or.inl (hunpublished.symm ▸ he)
  | elsewhere _ _ hunpublished _ _ =>
    rw [hunpublished]
    exact Or.inl (List.mem_append_left _ he)
  | @published i d ha hi _ _ hunpublished =>
    rw [hunpublished]
    rcases eraseIdx_mem hi he with he | rfl
    · exact Or.inl he
    · exact Or.inr ⟨i,ha,hi⟩

theorem unpublished_from (hs : Stepped w a next) {e : Entry} (he : e ∈ next.unpublished) :
    e ∈ w.unpublished ∨ e ∈ next.added ∧ e.here = false ∧ w.fresh e.id = true := by
  cases log_step hs with
  | same _ _ _ hunpublished => exact Or.inl (hunpublished ▸ he)
  | here _ _ hunpublished _ _ => exact Or.inl (hunpublished ▸ he)
  | elsewhere hadded _ hunpublished hfresh hhere =>
    rw [hunpublished] at he
    refine (List.mem_append.mp he).imp id (fun he => ?_)
    rw [List.mem_singleton.mp he,hadded]
    exact ⟨List.mem_append_right _ (List.mem_singleton.mpr rfl),hhere,hfresh⟩
  | published _ _ _ _ hunpublished =>
    rw [hunpublished] at he
    exact Or.inl (List.mem_of_mem_eraseIdx he)

theorem fresh_not_added {e : Entry} (hfresh : w.fresh e.id = true) : e ∉ w.added := by
  intro he
  simp only [World.fresh,Bool.and_eq_true,List.all_eq_true,decide_eq_true_eq] at hfresh
  exact lt_irrefl _ (hfresh.2 e he)

theorem unpublished_once (h : w.unpublished.Nodup) (hs : Stepped w a next)
    (hadded : ∀ e ∈ w.unpublished, e ∈ w.added) : next.unpublished.Nodup := by
  cases log_step hs with
  | same _ _ _ hunpublished => exact hunpublished ▸ h
  | here _ _ hunpublished _ _ => exact hunpublished ▸ h
  | elsewhere _ _ hunpublished hfresh _ =>
    rw [hunpublished]
    refine List.nodup_append.mpr ⟨h,List.nodup_singleton _,fun x hx y hy heq => ?_⟩
    rw [List.mem_singleton.mp hy] at heq
    exact fresh_not_added hfresh (hadded _ (heq ▸ hx))
  | published _ _ _ _ hunpublished =>
    rw [hunpublished]
    exact h.eraseIdx _

/-! ## Frames -/

theorem advance_sockets {f : Socket → Socket} {commands : List Command} {c : Socket}
    (hc : w.sockets s = some c) : (w.advance s f commands).sockets s = some (f c) := by
  simp [World.advance,World.modify,hc]

theorem connected_socket {client : ClientId} {userId : UserId} {since : Option StreamId}
    (hs : Stepped w (.connect client userId since) next) :
    ∃ c, next.sockets w.next = some c ∧ c.sinceStreamId = since := by
  cases hs with
  | first _ => exact ⟨_,by simp only [World.enroll,if_true]; rfl,rfl⟩
  | later _ =>
    have hopened : (w.enroll { client := client, userId := userId, sinceStreamId := since }).sockets
        w.next = some { client := client, userId := userId, sinceStreamId := since } := by
      simp only [World.enroll,if_true]
    exact ⟨_,advance_sockets hopened,send_since _ _⟩

theorem mem_send {c : Socket} {frames : List ServerMessage} {f : ServerMessage}
    (hopen : c.isOpen = true) (hf : f ∈ frames) : f ∈ (c.send frames).sent := by
  rw [Socket.send,if_pos hopen]
  exact List.mem_append_right _ hf

theorem modify_some {i : SocketId} {g : Socket → Socket} {c' : Socket}
    (hc' : (w.modify i g).sockets s = some c') :
    (s = i ∧ ∃ c, w.sockets s = some c ∧ c' = g c) ∨ w.sockets s = some c' := by
  simp only [World.modify] at hc'
  split at hc'
  · next hs =>
    obtain ⟨c,hc,rfl⟩ := Option.map_eq_some_iff.mp hc'
    exact Or.inl ⟨hs,c,hc,rfl⟩
  · exact Or.inr hc'

theorem broadcast_some {frames : List ServerMessage} {except : Option SocketId} {c' : Socket}
    (hc' : (w.broadcastLocal frames except).sockets s = some c') :
    ∃ c, w.sockets s = some c ∧ (c' = c ∨ c' = c.send frames) := by
  simp only [World.broadcastLocal] at hc'
  split at hc'
  · obtain ⟨c,hc,rfl⟩ := Option.map_eq_some_iff.mp hc'
    exact ⟨c,hc,Or.inr rfl⟩
  · exact ⟨c',hc',Or.inl rfl⟩

theorem mem_sent {c : Socket} {frames : List ServerMessage} {f : ServerMessage}
    (hf : f ∈ (c.send frames).sent) : f ∈ c.sent ∨ f ∈ frames := by
  simp only [Socket.send] at hf
  split at hf
  · exact List.mem_append.mp hf
  · exact Or.inl hf

inductive Sourced (w : World) (s : SocketId) (cursor : StreamId) : ServerMessage → Prop where
  | hello (userId : UserId) : Sourced w s cursor (.hello userId cursor)
  | trimmed : Sourced w s cursor .reload_required
  | relayed {e : Entry} {f : ServerMessage} (h : .message e ∈ w.subIn) (hhere : e.here = false)
      (hf : e.frame = some f) : Sourced w s cursor f
  | replayed {entries : List Entry} {e : Entry} {f : ServerMessage}
      (h : .entries s (some entries) ∈ w.cmdIn) (he : e ∈ entries) (hf : e.frame = some f) :
      Sourced w s cursor f
  | done {entries : List Entry} (h : .entries s (some entries) ∈ w.cmdIn) :
      Sourced w s cursor (.replay_done (replayedTo cursor entries))
  | fanned {i : SocketId} {e : Entry} {f : ServerMessage} (h : .added i (some e) ∈ w.cmdIn)
      (hf : e.frame = some f) : Sourced w s cursor f

/-- The frame was there before the step, or there is a reason for it. -/
def SentBefore (w : World) (s : SocketId) (cursor : StreamId) (f : ServerMessage) : Prop :=
  (∃ c, w.sockets s = some c ∧ f ∈ c.sent) ∨ Sourced w s cursor f

theorem sent_modify {v : World} {i : SocketId} {g : Socket → Socket} {c' : Socket}
    {f : ServerMessage} (hsockets : v.sockets = w.sockets)
    (hc' : (v.modify i g).sockets s = some c') (hf : f ∈ c'.sent)
    (hg : ∀ c, w.sockets i = some c → f ∈ (g c).sent →
      f ∈ c.sent ∨ Sourced w i (g c).cursor f) : SentBefore w s c'.cursor f := by
  rcases modify_some hc' with ⟨rfl,c,hc,rfl⟩ | hc
  · rw [hsockets] at hc
    rcases hg c hc hf with h | h
    · exact Or.inl ⟨c,hc,h⟩
    · exact Or.inr h
  · exact Or.inl ⟨c',hsockets ▸ hc,hf⟩

theorem sent_handle {i : SocketId} {raw : Option Json} {c' : Socket} {f : ServerMessage}
    (hc' : ((w.modify i (Socket.hear raw)).handle i raw).sockets s = some c')
    (hf : f ∈ c'.sent) : ∃ c, w.sockets s = some c ∧ f ∈ c.sent := by
  have hheard : ∀ c, (w.modify i (Socket.hear raw)).sockets s = some c → f ∈ c.sent →
      ∃ c, w.sockets s = some c ∧ f ∈ c.sent := by
    intro c hc hf
    rcases modify_some hc with ⟨_,d,hd,rfl⟩ | hd
    · exact ⟨d,hd,hf⟩
    · exact ⟨c,hd,hf⟩
  simp only [World.handle] at hc'
  split at hc'
  · exact hheard c' hc' hf
  · rcases modify_some hc' with ⟨_,d,hd,rfl⟩ | hd
    · exact hheard d hd hf
    · exact hheard c' hd hf

theorem sent_connect {d c' : Socket} {f : ServerMessage} {g : Socket → Socket}
    (hd : d.sent = []) (hc' : ((w.enroll d).modify w.next g).sockets s = some c')
    (hf : f ∈ c'.sent) (hg : f ∈ (g d).sent → Sourced w s (g d).cursor f) :
    SentBefore w s c'.cursor f := by
  rcases modify_some hc' with ⟨hi,c,hc,rfl⟩ | hc
  · simp only [World.enroll,if_pos hi] at hc
    cases hc
    exact Or.inr (hg hf)
  · simp only [World.enroll] at hc
    split at hc
    · cases hc
      rw [hd] at hf
      cases hf
    · exact Or.inl ⟨c',hc,hf⟩

theorem sent_from (hs : Stepped w a next) {c' : Socket} {f : ServerMessage}
    (hc' : next.sockets s = some c') (hf : f ∈ c'.sent) : SentBefore w s c'.cursor f := by
  cases hs with
  | first _ =>
    simp only [World.enroll] at hc'
    split at hc'
    · cases hc'
      cases hf
    · exact Or.inl ⟨c',hc',hf⟩
  | @later client userId since _ =>
    refine sent_connect rfl hc' hf (fun hf => ?_)
    rcases mem_sent hf with hf | hf
    · cases hf
    · rw [List.mem_singleton.mp hf,Socket.cursor,Socket.enter,send_since]
      exact .hello userId
  | closed _ _ _ => exact sent_modify rfl hc' hf (fun c _ hf => Or.inl hf)
  | left _ _ _ => exact sent_modify rfl hc' hf (fun c _ hf => Or.inl hf)
  | missed _ _ _ => exact sent_modify rfl hc' hf (fun c _ hf => Or.inl hf)
  | heard _ _ _ => exact Or.inl (sent_handle hc' hf)
  | @joined i c rest _ hc _ =>
    refine sent_modify rfl hc' hf (fun d hd hf => ?_)
    cases hc.symm.trans hd
    refine (mem_sent hf).imp (fun h => h) (fun hf => ?_)
    rw [List.mem_singleton.mp hf,Socket.cursor,Socket.enter,send_since]
    exact .hello _
  | refused _ _ _ => exact sent_modify rfl hc' hf (fun c _ hf => Or.inl hf)
  | @relayed e rest hqueue hhere =>
    obtain ⟨c,hc,rfl | rfl⟩ := broadcast_some hc'
    · exact Or.inl ⟨c',hc,hf⟩
    · rcases mem_sent hf with hf | hf
      · exact Or.inl ⟨c,hc,hf⟩
      · exact Or.inr (.relayed (hqueue ▸ List.mem_cons_self) hhere (Option.mem_toList.mp hf))
  | sounded _ =>
    rw [sockets_deliver] at hc'
    exact Or.inl ⟨c',hc',hf⟩
  | @inspected i c first rest _ hc _ =>
    simp only [World.inspected] at hc'
    split at hc'
    · refine sent_modify rfl hc' hf (fun d _ hf => (mem_sent hf).imp (fun h => h) (fun hf => ?_))
      rw [List.mem_singleton.mp hf]
      exact .trimmed
    · exact sent_modify rfl hc' hf (fun d _ hf => Or.inl hf)
  | @replayed i c entries rest hqueue hc _ =>
    cases entries with
    | none => exact sent_modify rfl hc' hf (fun d _ hf => Or.inl hf)
    | some entries =>
      have hreply : .entries i (some entries) ∈ w.cmdIn := hqueue ▸ List.mem_cons_self
      refine sent_modify rfl hc' hf (fun d hd hf => ?_)
      cases hc.symm.trans hd
      refine (mem_sent hf).imp (fun h => h) (fun hreplay => ?_)
      rcases List.mem_append.mp hreplay with hentry | hdone
      · obtain ⟨e,he,hframe⟩ := List.mem_filterMap.mp hentry
        exact .replayed hreply he hframe
      · rw [List.mem_singleton.mp hdone,Socket.cursor,Socket.cursor,Socket.enter,send_since]
        exact .done hreply
  | @fanned i e rest hqueue =>
    obtain ⟨c,hc,rfl | rfl⟩ := broadcast_some hc'
    · exact Or.inl ⟨c',hc,hf⟩
    · rcases mem_sent hf with hf | hf
      · exact Or.inl ⟨c,hc,hf⟩
      · exact Or.inr (.fanned (hqueue ▸ List.mem_cons_self) (Option.mem_toList.mp hf))
  | published _ =>
    rw [sockets_deliver] at hc'
    exact Or.inl ⟨c',hc',hf⟩
  | _ => exact Or.inl ⟨c',hc',hf⟩

/-! ## Every item goes back to an entry -/

def frameId : ServerMessage → Option StreamId
  | .hello _ lastStreamId => some lastStreamId
  | .crdt _ _ streamId => some streamId
  | .remote_ops _ _ streamId => some streamId
  | .replay_done streamId => some streamId
  | .reload_required => none

theorem frameId_frame {e : Entry} {f : ServerMessage} (h : e.frame = some f) :
    frameId f = some e.id := by
  obtain ⟨id,author,userId,here,body⟩ := e
  cases body with
  | crdt msg => cases h; rfl
  | ops ops => cases h; rfl
  | incomplete => cases h
  | unreadable => cases h

/-- A replay ends at its cursor or at one of the entries. -/
theorem replayedTo_from (cursor : StreamId) (entries : List Entry) :
    replayedTo cursor entries = cursor ∨ ∃ e ∈ entries, replayedTo cursor entries = e.id := by
  induction entries generalizing cursor with
  | nil => exact Or.inl rfl
  | cons e rest ih =>
    simp only [replayedTo,List.foldl_cons]
    rcases ih (if e.counted then e.id else cursor) with h | ⟨d,hd,h⟩
    · simp only [replayedTo] at h
      rw [h]
      split
      · exact Or.inr ⟨e,List.mem_cons_self,rfl⟩
      · exact Or.inl rfl
    · exact Or.inr ⟨d,List.mem_cons_of_mem _ hd,h⟩

def Known (w : World) (cursor k : StreamId) : Prop := k = cursor ∨ ∃ e ∈ w.added, e.id = k

structure Origins (w : World) : Prop where
  ordered : w.added.Pairwise (fun e d => e.id < d.id)
  positive : ∀ e ∈ w.added, zeroId < e.id
  stream : ∀ e ∈ w.stream, e ∈ w.added
  unpublished : ∀ e ∈ w.unpublished, e ∈ w.added ∧ e.here = false
  once : w.unpublished.Nodup
  message : ∀ e, .message e ∈ w.subIn → e ∈ w.added
  publish : ∀ e, .publish e ∈ w.cmdOut → e ∈ w.added ∧ e.here = true
  entries : ∀ s found, .entries s (some found) ∈ w.cmdIn → ∀ e ∈ found, e ∈ w.added
  stored : ∀ s e, .added s (some e) ∈ w.cmdIn → e ∈ w.added ∧ e.here = true
  sent : ∀ s c, w.sockets s = some c → ∀ f ∈ c.sent, ∀ k, frameId f = some k → Known w c.cursor k

theorem sourced_known (h : Origins w) {cursor : StreamId} {f : ServerMessage} {k : StreamId}
    (hf : Sourced w s cursor f) (hk : frameId f = some k) : Known w cursor k := by
  cases hf with
  | hello userId => exact Or.inl (Option.some.inj hk).symm
  | trimmed => cases hk
  | relayed he _ hf =>
    exact Or.inr ⟨_,h.message _ he,Option.some.inj ((frameId_frame hf).symm.trans hk)⟩
  | replayed hreply he hf =>
    exact Or.inr ⟨_,h.entries _ _ hreply _ he,Option.some.inj ((frameId_frame hf).symm.trans hk)⟩
  | @done found hreply =>
    have hdone : replayedTo cursor found = k := Option.some.inj hk
    rcases replayedTo_from cursor found with heq | ⟨e,he,heq⟩
    · exact Or.inl (hdone.symm.trans heq)
    · exact Or.inr ⟨e,h.entries _ _ hreply e he,heq.symm.trans hdone⟩
  | fanned he hf =>
    exact Or.inr ⟨_,(h.stored _ _ he).1,Option.some.inj ((frameId_frame hf).symm.trans hk)⟩

theorem known_stays (hs : Stepped w a next) {cursor k : StreamId} (hk : Known w cursor k) :
    Known next cursor k :=
  hk.imp (fun h => h) (fun ⟨e,he,hid⟩ => ⟨e,added_stays hs he,hid⟩)

theorem replayStart_publish {since : Option StreamId} {e : Entry} :
    .publish e ∉ (replayStart s since).2 := by
  cases since with
  | none => simp [replayStart]
  | some since =>
    simp only [replayStart]
    split <;> simp

theorem origins_step (hw : Sound w) (h : Origins w) (hs : Stepped w a next) : Origins next where
  ordered := by
    rcases added_grows hs with heq | ⟨e,heq,hfresh⟩
    · rw [heq]
      exact h.ordered
    · rw [heq,List.pairwise_append]
      refine ⟨h.ordered,List.pairwise_singleton _ _,fun d hd x hx => ?_⟩
      rw [List.mem_singleton.mp hx]
      simp only [World.fresh,Bool.and_eq_true,List.all_eq_true,decide_eq_true_eq] at hfresh
      exact hfresh.2 d hd
  positive := by
    rcases added_grows hs with heq | ⟨e,heq,hfresh⟩
    · rw [heq]
      exact h.positive
    · intro d hd
      rw [heq] at hd
      rcases List.mem_append.mp hd with hd | hd
      · exact h.positive d hd
      · rw [List.mem_singleton.mp hd]
        simp only [World.fresh,Bool.and_eq_true,decide_eq_true_eq] at hfresh
        exact hfresh.1
  stream := by
    intro e he
    rcases stream_from hs he with he | he
    · exact added_stays hs (h.stream e he)
    · exact he
  unpublished := by
    intro e he
    rcases unpublished_from hs he with he | ⟨he,hhere,_⟩
    · exact ⟨added_stays hs (h.unpublished e he).1,(h.unpublished e he).2⟩
    · exact ⟨he,hhere⟩
  once := unpublished_once h.once hs (fun e he => (h.unpublished e he).1)
  message := by
    intro e he
    rcases subIn_from hs he with he | he
    · exact added_stays hs (h.message e he)
    · cases he with
      | sounded he => exact added_stays hs (h.publish e he).1
      | published _ he _ =>
        exact added_stays hs (h.unpublished e (List.mem_of_getElem? he)).1
  publish := by
    intro e he
    rcases cmdOut_from hs he with he | he
    · exact ⟨added_stays hs (h.publish e he).1,(h.publish e he).2⟩
    · cases he with
      | connected _ hx => exact absurd hx replayStart_publish
      | joined _ hx => exact absurd hx replayStart_publish
      | fanned he => exact ⟨added_stays hs (h.stored _ e he).1,(h.stored _ e he).2⟩
  entries := by
    intro s found hfound e he
    rcases cmdIn_from hs hfound with hfound | hfound
    · exact added_stays hs (h.entries s found hfound e he)
    · cases hfound with
      | ranged _ _ => exact added_stays hs (h.stream e (List.mem_of_mem_filter he))
  stored := by
    intro s e he
    rcases cmdIn_from hs he with he | he
    · exact ⟨added_stays hs (h.stored s e he).1,(h.stored s e he).2⟩
    · cases he with
      | stored he hhere _ _ => exact ⟨he,hhere⟩
  sent := by
    intro s c' hc' f hf k hk
    rcases sent_from hs hc' hf with ⟨c,hc,hf⟩ | hsourced
    · have hcursor : c'.cursor = c.cursor := by
        rcases sockets_step hs s with hev | ⟨rfl,_⟩
        · rw [hc,hc'] at hev
          cases hev with
          | some hl => rw [Socket.cursor,hl.since,Socket.cursor]
        · rw [hw.unused _ (le_refl _)] at hc
          cases hc
      rw [hcursor]
      exact known_stays hs (h.sent s c hc f hf k hk)
    · exact known_stays hs (sourced_known h hsourced hk)

theorem origins_start : Origins {} where
  ordered := List.Pairwise.nil
  positive := nofun
  stream := nofun
  unpublished := nofun
  once := List.nodup_nil
  message := nofun
  publish := nofun
  entries := nofun
  stored := nofun
  sent := nofun

/-- An id belongs to one entry. -/
theorem Origins.unique (h : Origins w) {e d : Entry} (he : e ∈ w.added) (hd : d ∈ w.added)
    (hid : e.id = d.id) : e = d := by
  have hsymm : Std.Symm (fun e d : Entry => e.id ≠ d.id) := ⟨fun _ _ h => h.symm⟩
  have hapart : w.added.Pairwise (fun e d => e.id ≠ d.id) := h.ordered.imp (fun hlt => hlt.ne)
  by_contra hne
  exact hapart.forall he hd hne hid

end BlockDocs.InFlight
