import BlockDocs.ClientCursor
import BlockDocs.ReplayCoverage

/-!
# Reading in the order of the stream

A page skips nothing as long as its connection brings the entries of the others
in the order of the stream, its registry knows the blocks whose deltas it reads,
and its snapshots reach as far as its cursor.
-/

set_option autoImplicit false

namespace BlockDocs.OrderedReading
open BlockDocs.WsServer hiding World Action step
open BlockDocs.Wire BlockDocs.Connections BlockDocs.InFlight BlockDocs.ReplayCoverage
open BlockDocs.ClientSocket BlockDocs.ClientCursor BlockDocs.GuardedRun

/-! ## What a step sends on a connection -/

section Server
variable {w next : WsServer.World} {a : WsServer.Action} {s : SocketId} {c c' : Socket}
variable {frames : List ServerMessage}

inductive Emitted (w : WsServer.World) (a : WsServer.Action) (s : SocketId) (c c' : Socket) :
    List ServerMessage → Prop where
  | nothing : Emitted w a s c c' []
  | hello (userId : UserId) (hopen : c.isOpen = true) :
      Emitted w a s c c' [.hello userId c.cursor]
  | trimmed (hopen : c.isOpen = true) (hclosed : c'.isOpen = false) :
      Emitted w a s c c' [.reload_required]
  | relayed {e : Entry} {rest : List SubEvent} (ha : a = .subRecv)
      (hqueue : w.subIn = .message e::rest) (hhere : e.here = false) (hopen : c.isOpen = true) :
      Emitted w a s c c' e.frame.toList
  | replayed {found : List Entry} {rest : List Reply} (ha : a = .cmdRecv)
      (hqueue : w.cmdIn = .entries s (some found)::rest) (hopen : c.isOpen = true) :
      Emitted w a s c c' (replayFrames c.cursor found)
  | fanned {i : SocketId} {e : Entry} {rest : List Reply} (ha : a = .cmdRecv)
      (hqueue : w.cmdIn = .added i (some e)::rest) (hi : i ≠ s) (hopen : c.isOpen = true) :
      Emitted w a s c c' e.frame.toList

def Emits (w : WsServer.World) (a : WsServer.Action) (s : SocketId) (c c' : Socket) : Prop :=
  ∃ frames, c'.sent = c.sent++frames ∧ Emitted w a s c c' frames

theorem emits_nothing (h : c'.sent = c.sent) : Emits w a s c c' :=
  ⟨[],by rw [h,List.append_nil],.nothing⟩

theorem emits_send (hsent : c'.sent = (c.send frames).sent)
    (h : c.isOpen = true → Emitted w a s c c' frames) : Emits w a s c c' := by
  unfold Socket.send at hsent
  split at hsent
  · next hopen => exact ⟨frames,hsent,h hopen⟩
  · exact emits_nothing hsent

theorem emits_modify {v : WsServer.World} {i : SocketId} {g : Socket → Socket}
    (hsockets : v.sockets = w.sockets) (hc : w.sockets s = some c)
    (hc' : (v.modify i g).sockets s = some c') (h : s = i → c' = g c → Emits w a s c c') :
    Emits w a s c c' := by
  rcases modify_some hc' with ⟨hi,d,hd,heq⟩ | hd
  · cases hc.symm.trans (hsockets ▸ hd)
    exact h hi heq
  · cases hc.symm.trans (hsockets ▸ hd)
    exact emits_nothing rfl

theorem emits_broadcast {v : WsServer.World} {except : Option SocketId}
    (hsockets : v.sockets = w.sockets) (hc : w.sockets s = some c)
    (hc' : (v.broadcastLocal frames except).sockets s = some c')
    (h : except ≠ some s → c.isOpen = true → Emitted w a s c c' frames) : Emits w a s c c' := by
  simp only [WsServer.World.broadcastLocal,hsockets,hc,Option.map_some] at hc'
  split at hc'
  · next hroom =>
    cases hc'
    exact emits_send rfl (h hroom.2)
  · cases hc'
    exact emits_nothing rfl

theorem emits_handle {raw : Option Json} {i : SocketId} (hc : w.sockets s = some c)
    (hc' : ((w.modify i (Socket.hear raw)).handle i raw).sockets s = some c') :
    Emits w a s c c' := by
  have hheard : ∀ d, (w.modify i (Socket.hear raw)).sockets s = some d → d.sent = c.sent := by
    intro d hd
    rcases modify_some hd with ⟨_,d',hd',rfl⟩ | hd
    · cases hc.symm.trans hd'
      rfl
    · cases hc.symm.trans hd
      rfl
  apply emits_nothing
  simp only [WsServer.World.handle] at hc'
  split at hc'
  · exact hheard c' hc'
  · rcases modify_some hc' with ⟨_,d,hd,rfl⟩ | hd
    · exact hheard d hd
    · exact hheard c' hd

theorem emits_enroll {d : Socket} {g : Socket → Socket} (hne : s ≠ w.next)
    (hc : w.sockets s = some c) (hc' : ((w.enroll d).modify w.next g).sockets s = some c') :
    Emits w a s c c' := by
  simp only [WsServer.World.modify,WsServer.World.enroll,if_neg hne,hc,Option.some.injEq] at hc'
  exact emits_nothing (hc' ▸ rfl)

theorem emitted_step (h : Sound w) (hs : Stepped w a next) (hc : w.sockets s = some c)
    (hc' : next.sockets s = some c') : Emits w a s c c' := by
  have hne : s ≠ w.next := by
    rintro rfl
    cases (h.unused _ (le_refl _)).symm.trans hc
  cases hs with
  | first _ =>
    simp only [WsServer.World.enroll,if_neg hne,hc,Option.some.injEq] at hc'
    exact emits_nothing (hc' ▸ rfl)
  | later _ => exact emits_enroll hne hc hc'
  | closed _ _ _ => exact emits_modify rfl hc hc' (fun _ heq => emits_nothing (heq ▸ rfl))
  | left _ _ _ => exact emits_modify rfl hc hc' (fun _ heq => emits_nothing (heq ▸ rfl))
  | missed _ _ _ => exact emits_modify rfl hc hc' (fun _ heq => emits_nothing (heq ▸ rfl))
  | heard _ _ _ => exact emits_handle hc hc'
  | @joined i d rest _ hd _ =>
    refine emits_modify rfl hc hc' (fun hi heq => ?_)
    subst hi
    cases hc.symm.trans hd
    exact emits_send (heq ▸ rfl) (.hello c.userId)
  | refused _ _ _ => exact emits_modify rfl hc hc' (fun _ heq => emits_nothing (heq ▸ rfl))
  | relayed hqueue hhere =>
    exact emits_broadcast rfl hc hc' (fun _ hopen => .relayed rfl hqueue hhere hopen)
  | sounded _ =>
    rw [sockets_deliver] at hc'
    cases hc.symm.trans hc'
    exact emits_nothing rfl
  | @inspected i d first rest _ hd _ =>
    simp only [WsServer.World.inspected] at hc'
    split at hc'
    · refine emits_modify rfl hc hc' (fun hi heq => ?_)
      exact emits_send (heq ▸ rfl) (fun hopen => .trimmed hopen (heq ▸ rfl))
    · exact emits_modify rfl hc hc' (fun _ heq => emits_nothing (heq ▸ rfl))
  | @replayed i d entries rest hqueue hd _ =>
    cases entries with
    | none => exact emits_modify rfl hc hc' (fun _ heq => emits_nothing (heq ▸ rfl))
    | some found =>
      refine emits_modify rfl hc hc' (fun hi heq => ?_)
      subst hi
      cases hc.symm.trans hd
      exact emits_send (heq ▸ rfl) (.replayed rfl hqueue)
  | @fanned i e rest hqueue =>
    refine emits_broadcast rfl hc hc' (fun hi hopen => .fanned rfl hqueue ?_ hopen)
    rintro rfl
    exact hi rfl
  | published _ =>
    rw [sockets_deliver] at hc'
    cases hc.symm.trans hc'
    exact emits_nothing rfl
  | _ =>
    cases hc.symm.trans hc'
    exact emits_nothing rfl

theorem emitted_open (h : Emitted w a s c c' frames) (hne : frames ≠ []) : c.isOpen = true := by
  cases h with
  | nothing => exact absurd rfl hne
  | hello _ hopen => exact hopen
  | trimmed hopen _ => exact hopen
  | relayed _ _ _ hopen => exact hopen
  | replayed _ _ hopen => exact hopen
  | fanned _ _ _ hopen => exact hopen

/-- Where a connection stands in what it has sent, who wrote what was appended here, and that
the stream and what was read of it keep the order. -/
structure Tidy (w : WsServer.World) : Prop where
  hello : ∀ s c, w.sockets s = some c → ∀ userId k, .hello userId k ∈ c.sent → k = c.cursor
  last : ∀ s c, w.sockets s = some c → ∀ pre post, c.sent = pre++.reload_required::post →
    post = [] ∧ c.isOpen = false
  author : ∀ i e, .added i (some e) ∈ w.cmdIn → ∃ c, w.sockets i = some c ∧ e.author = c.client
  stream : w.stream.Sublist w.added
  found : ∀ s entries, .entries s (some entries) ∈ w.cmdIn → entries.Sublist w.added

theorem cursor_later (hl : Later c c') : c'.cursor = c.cursor := by
  rw [Socket.cursor,hl.since,Socket.cursor]

theorem frame_entry {e : Entry} {f : ServerMessage} (h : f ∈ e.frame.toList) :
    carried f = some e.id ∧ (∀ userId k, f ≠ .hello userId k) ∧ (∀ k, f ≠ .replay_done k) ∧
      f ≠ .reload_required := by
  have hframe : e.frame = some f := Option.mem_toList.mp h
  refine ⟨?_,frame_kind hframe⟩
  obtain ⟨id,author,userId,here,body⟩ := e
  cases body with
  | crdt msg => cases hframe; rfl
  | ops ops => cases hframe; rfl
  | incomplete => cases hframe
  | unreadable => cases hframe

theorem replay_kind {since : StreamId} {found : List Entry} {f : ServerMessage}
    (h : f ∈ replayFrames since found) : f ≠ .reload_required ∧ ∀ userId k, f ≠ .hello userId k := by
  rcases List.mem_append.mp h with h | h
  · obtain ⟨e,_,hframe⟩ := List.mem_filterMap.mp h
    obtain ⟨hhello,_,hreload⟩ := frame_kind hframe
    exact ⟨hreload,hhello⟩
  · rw [List.mem_singleton.mp h]
    exact ⟨nofun,nofun⟩

theorem emitted_hello (h : Emitted w a s c c' frames) {userId : UserId} {k : StreamId}
    (hf : .hello userId k ∈ frames) : k = c.cursor := by
  cases h with
  | nothing => cases hf
  | hello _ _ =>
    cases List.mem_singleton.mp hf
    rfl
  | trimmed _ _ => cases List.mem_singleton.mp hf
  | relayed _ _ _ _ => exact absurd rfl ((frame_entry hf).2.1 userId k)
  | replayed _ _ _ => exact absurd rfl ((replay_kind hf).2 userId k)
  | fanned _ _ _ _ => exact absurd rfl ((frame_entry hf).2.1 userId k)

theorem emitted_reload (h : Emitted w a s c c' frames) (hf : .reload_required ∈ frames) :
    frames = [.reload_required] ∧ c'.isOpen = false := by
  cases h with
  | nothing => cases hf
  | hello _ _ => cases List.mem_singleton.mp hf
  | trimmed _ hclosed => exact ⟨rfl,hclosed⟩
  | relayed _ _ _ _ => exact absurd rfl (frame_entry hf).2.2.2
  | replayed _ _ _ => exact absurd rfl (replay_kind hf).1
  | fanned _ _ _ _ => exact absurd rfl (frame_entry hf).2.2.2

/-- A connection that has asked for a reload is closed and sends no more. -/
theorem reload_last (h : Emits w a s c c') (hl : Later c c')
    (hbefore : ∀ pre post, c.sent = pre++.reload_required::post → post = [] ∧ c.isOpen = false)
    {pre post : List ServerMessage} (heq : c'.sent = pre++.reload_required::post) :
    post = [] ∧ c'.isOpen = false := by
  obtain ⟨frames,hsent,hemitted⟩ := h
  have hshut : c.isOpen = false → c'.isOpen = false := fun hclosed =>
    Bool.eq_false_iff.mpr (fun hopen => nomatch hclosed.symm.trans (hl.isOpen hopen))
  rw [hsent] at heq
  rcases List.append_eq_append_iff.mp heq with ⟨mid,rfl,hframes⟩ | ⟨mid,hold,hmid⟩
  · have hf : .reload_required ∈ frames := by simp [hframes]
    obtain ⟨hone,hclosed⟩ := emitted_reload hemitted hf
    rw [hone] at hframes
    rcases List.cons_eq_append_iff.mp hframes with ⟨rfl,hrest⟩ | ⟨mid',rfl,hrest⟩
    · exact ⟨(List.cons.inj hrest).2,hclosed⟩
    · exact absurd hrest (by simp)
  · cases mid with
    | nil =>
      have hframes : .reload_required::post = frames := hmid
      obtain ⟨hone,hclosed⟩ := emitted_reload hemitted (hframes ▸ List.mem_cons_self)
      exact ⟨(List.cons.inj (hframes.trans hone)).2,hclosed⟩
    | cons f mid =>
      cases (List.cons.inj hmid).1
      obtain ⟨rfl,hclosed⟩ := hbefore pre mid hold
      have hnone : frames = [] := by
        by_contra hne
        exact nomatch hclosed.symm.trans (emitted_open hemitted hne)
      exact ⟨by simpa [hnone] using hmid,hshut hclosed⟩

theorem connected_new {client : ClientId} {userId : UserId} {since : Option StreamId}
    (hs : Stepped w (.connect client userId since) next) :
    ∃ c, next.sockets w.next = some c ∧ c.client = client ∧ c.sinceStreamId = since ∧
      (c.sent = [] ∨ c.sent = [.hello userId c.cursor]) := by
  cases hs with
  | first _ => exact ⟨_,by simp only [WsServer.World.enroll,if_true]; rfl,rfl,rfl,Or.inl rfl⟩
  | later _ =>
    have hopened : (w.enroll { client := client, userId := userId, sinceStreamId := since }).sockets
        w.next = some { client := client, userId := userId, sinceStreamId := since } := by
      simp only [WsServer.World.enroll,if_true]
    exact ⟨_,advance_sockets hopened,rfl,rfl,Or.inr rfl⟩

/-- Every connection but a new one was there before. -/
theorem socket_before (hs : Stepped w a next) (hc' : next.sockets s = some c') :
    (∃ c, w.sockets s = some c ∧ Later c c') ∨
      s = w.next ∧ ∃ client userId since, a = .connect client userId since := by
  refine (sockets_step hs s).imp (fun hev => ?_) (fun h => h)
  rw [hc'] at hev
  exact evolved_some hev

theorem socket_after (h : Sound w) (hs : Stepped w a next) (hc : w.sockets s = some c) :
    ∃ c', next.sockets s = some c' ∧ Later c c' := by
  rcases sockets_step hs s with hev | ⟨rfl,_⟩
  · rw [hc] at hev
    generalize next.sockets s = o at hev
    cases hev with
    | some hl => exact ⟨_,rfl,hl⟩
  · cases (h.unused _ (le_refl _)).symm.trans hc

theorem tidy_step (h : Sound w) (ht : Tidy w) (hs : Stepped w a next) : Tidy next where
  hello := by
    intro s c' hc' userId k hk
    rcases socket_before hs hc' with ⟨c,hc,hl⟩ | ⟨rfl,client,user,since,rfl⟩
    · obtain ⟨frames,hsent,hemitted⟩ := emitted_step h hs hc hc'
      rw [cursor_later hl]
      rw [hsent] at hk
      rcases List.mem_append.mp hk with hk | hk
      · exact ht.hello s c hc userId k hk
      · exact emitted_hello hemitted hk
    · obtain ⟨c,hc,_,_,hnone | hone⟩ := connected_new hs
      · cases hc'.symm.trans hc
        rw [hnone] at hk
        cases hk
      · cases hc'.symm.trans hc
        rw [hone] at hk
        cases List.mem_singleton.mp hk
        rfl
  last := by
    intro s c' hc' pre post heq
    rcases socket_before hs hc' with ⟨c,hc,hl⟩ | ⟨rfl,client,user,since,rfl⟩
    · exact reload_last (emitted_step h hs hc hc') hl (ht.last s c hc) heq
    · obtain ⟨c,hc,_,_,hsent⟩ := connected_new hs
      cases hc'.symm.trans hc
      have hf : ServerMessage.reload_required ∈ c'.sent := by simp [heq]
      rcases hsent with hsent | hsent
      · rw [hsent] at hf
        cases hf
      · rw [hsent] at hf
        cases List.mem_singleton.mp hf
  author := by
    intro i e he
    have hkept : (∃ c, w.sockets i = some c ∧ e.author = c.client) →
        ∃ c, next.sockets i = some c ∧ e.author = c.client := by
      rintro ⟨c,hc,heq⟩
      obtain ⟨c',hc',hl⟩ := socket_after h hs hc
      exact ⟨c',hc',heq.trans hl.client.symm⟩
    rcases cmdIn_from hs he with he | hanswered
    · exact hkept (ht.author i e he)
    · cases hanswered with
      | stored _ _ hc hauthor => exact hkept ⟨_,hc,hauthor⟩
  stream := by
    cases log_step hs with
    | same hadded n hstream _ =>
      rw [hadded,hstream]
      exact (List.drop_sublist n _).trans ht.stream
    | here hadded hstream _ _ _ =>
      rw [hadded,hstream]
      exact ht.stream.append (List.Sublist.refl _)
    | elsewhere hadded hstream _ _ _ =>
      rw [hadded,hstream]
      exact ht.stream.append (List.Sublist.refl _)
    | published _ _ hadded hstream _ =>
      rw [hadded,hstream]
      exact ht.stream
  found := by
    intro s entries hentries
    have hgrows : w.added.Sublist next.added := by
      rcases added_grows hs with heq | ⟨e,heq,_⟩
      · rw [heq]
      · rw [heq]
        exact List.sublist_append_left _ _
    rcases cmdIn_from hs hentries with hold | hanswered
    · exact (ht.found s entries hold).trans hgrows
    · cases hanswered with
      | ranged _ _ => exact (List.filter_sublist.trans ht.stream).trans hgrows

theorem tidy_start : Tidy {} where
  hello := fun _ _ hc => nomatch hc
  last := fun _ _ hc => nomatch hc
  author := nofun
  stream := List.Sublist.refl _
  found := nofun

/-- An entry comes from elsewhere or from a delta of a client of this instance. -/
theorem added_way (hs : Stepped w a next) {e : Entry} (he : e ∈ next.added) :
    e ∈ w.added ∨ (a = .xadd e ∧ e ∈ next.unpublished) ∨
      (e.frame ≠ none ∧ ∃ i, .added i (some e) ∈ next.cmdIn) := by
  cases hs with
  | heard _ _ _ =>
    rw [(handle_quiet _ _ _).added] at he
    exact Or.inl he
  | @stored s c msg id rest _ _ _ =>
    refine (List.mem_append.mp he).imp (fun he => he) (fun he => Or.inr ?_)
    rw [List.mem_singleton.mp he]
    exact ⟨nofun,s,List.mem_append_right _ (List.mem_singleton.mpr rfl)⟩
  | sounded _ =>
    rw [deliver_frame] at he
    exact Or.inl he
  | inspected _ _ _ =>
    rw [(inspected_quiet _ _ _ _).added] at he
    exact Or.inl he
  | replayed _ _ _ =>
    rw [(replayed_quiet _ _ _ _).added] at he
    exact Or.inl he
  | appended _ _ =>
    refine (List.mem_append.mp he).imp (fun he => he) (fun he => Or.inl ?_)
    exact ⟨by rw [List.mem_singleton.mp he],List.mem_append_right _ he⟩
  | published _ =>
    rw [deliver_frame] at he
    exact Or.inl he
  | _ => exact Or.inl he

end Server

/-! ## Orderly steps -/

variable {me : ClientId} {w next : World} {s : SocketId} {n : ℕ} {c c' : Socket} {e : Entry}

/-- An entry of another client that neither the cursor which the connection was opened with nor
the snapshot of the page reaches. -/
structure Due (me : ClientId) (w : World) (c : Socket) (e : Entry) : Prop where
  added : e ∈ w.server.added
  foreign : e.author ≠ me
  beyond : c.cursor < e.id
  newer : w.page.snapshot < e.id

def Sent (c : Socket) (e : Entry) : Prop := ∃ f ∈ c.sent, carried f = some e.id

inductive Underway (w : WsServer.World) (s : SocketId) (c : Socket) (e : Entry) : Prop where
  | unpublished (h : e ∈ w.unpublished)
  | message (h : .message e ∈ w.subIn) (hhere : e.here = false)
  | stored (i : SocketId) (h : .added i (some e) ∈ w.cmdIn)
  | replays (hsince : c.sinceStreamId ≠ none) (h : Replays w s e)

structure Reads (w : World) (s : SocketId) (c : Socket) : Prop where
  reading : w.page.reading s ≠ none
  socket : w.server.sockets s = some c
  isOpen : c.isOpen = true

def InTurn (me : ClientId) (w : World) (s : SocketId) (c : Socket) (e : Entry) : Prop :=
  ∀ d, Due me w c d → d.id < e.id → ¬ Underway w.server s c d

/-- Others write readable entries. A PUBLISH finds the instance subscribed, or the page has the
entry or will still read it in a replay; the range read of a replay finds what is due; an entry
is relayed in its turn. The page opens one connection at a time, the first one when its snapshot
shows everything, and reads deltas of registered blocks; its snapshots reach what it shows. -/
def Orderly (me : ClientId) (w : World) : Action → Prop
  | .server (.xadd e) => e.author ≠ me → e.frame ≠ none
  | .server (.publish i) => ∀ e, w.server.unpublished[i]? = some e → w.server.subscribed = true ∨
      ∀ s c, Reads w s c → Due me w c e →
        Sent c e ∨ c.sinceStreamId ≠ none ∧ Replays w.server s e
  | .server (.cmdExec true _) => ∀ s since rest, w.server.cmdOut = .xrange s since::rest →
      ∀ c, Reads w s c → ∀ e, Due me w c e → e ∈ w.server.stream ∨ Sent c e
  | .server .subRecv => ∀ e rest, w.server.subIn = .message e::rest → e.here = false →
      e.frame ≠ none → ∀ s c, Reads w s c → InTurn me w s c e
  | .server .cmdRecv => ∀ i e rest, w.server.cmdIn = .added i (some e)::rest →
      ∀ s c, i ≠ s → Reads w s c → InTurn me w s c e
  | .opens _ => (∀ s, w.page.reading s = none) ∧ (w.page.ws.lastStreamId = none →
      ∀ e ∈ w.server.added, e.author ≠ me → e.id ≤ w.page.snapshot)
  | .read s _ => ∀ msg userId k, nextFrame w s = some (.crdt msg userId k) →
      msg.blockId ∈ w.page.known ∨ k ∈ w.page.applied ∨
        ∀ e ∈ w.server.added, e.id = k → e.author = me
  | .load included lastStreamId _ =>
      (∀ e ∈ w.server.added, e.author ≠ me → e.id ≤ lastStreamId → e.id ∈ included) ∧
        (∀ k, w.page.ws.lastStreamId = some k → k ≤ lastStreamId) ∧
        ∀ k ∈ w.page.applied, k ≤ lastStreamId
  | .visit => ∀ k, w.page.ws.lastStreamId = some k → ∀ e ∈ w.server.added, e.author ≠ me → k < e.id
  | _ => True

/-! ## Frames in the order of the stream -/

def Overtakes (f : ServerMessage) (e : Entry) : Prop :=
  match f with
  | .crdt _ _ k => e.id < k
  | .remote_ops _ _ k => e.id < k
  | .replay_done k => e.id ≤ k
  | _ => False

/-- From the given place on, no frame comes before that of a due entry which it overtakes. -/
def InOrder (due : Entry → Prop) (n : ℕ) (sent : List ServerMessage) : Prop :=
  ∀ pre f post, sent = pre++f::post → n ≤ pre.length → ∀ e, due e → Overtakes f e →
    ∃ g ∈ pre, carried g = some e.id

variable {due due' : Entry → Prop} {sent frames : List ServerMessage} {f : ServerMessage}

theorem inOrder_append (h : InOrder due n sent)
    (hnew : ∀ pre f post, frames = pre++f::post → ∀ e, due e → Overtakes f e →
      ∃ g ∈ sent++pre, carried g = some e.id) : InOrder due n (sent++frames) := by
  intro pre f post heq hn e he hf
  rcases List.append_eq_append_iff.mp heq with ⟨mid,rfl,hframes⟩ | ⟨mid,hold,hmid⟩
  · exact hnew mid f post hframes e he hf
  · cases mid with
    | nil =>
      obtain ⟨g,hg,hid⟩ := hnew [] f post hmid.symm e he hf
      rw [List.append_nil,hold,List.append_nil] at hg
      exact ⟨g,hg,hid⟩
    | cons g mid =>
      cases (List.cons.inj hmid).1
      exact h pre f mid hold hn e he hf

theorem inOrder_mono (h : InOrder due n sent)
    (hdue : ∀ f ∈ sent, ∀ e, due' e → Overtakes f e → due e) : InOrder due' n sent := by
  intro pre f post heq hn e he hf
  exact h pre f post heq hn e (hdue f (by simp [heq]) e he hf) hf

theorem overtakes_id (h : Overtakes f e) : ∃ k, frameId f = some k ∧ e.id ≤ k := by
  cases f with
  | crdt msg userId k => exact ⟨k,rfl,le_of_lt h⟩
  | remote_ops ops userId k => exact ⟨k,rfl,le_of_lt h⟩
  | replay_done k => exact ⟨k,rfl,h⟩
  | hello userId k => cases h
  | reload_required => cases h

theorem overtakes_entry {d : Entry} (hf : d.frame = some f) (h : Overtakes f e) : e.id < d.id := by
  obtain ⟨id,author,userId,here,body⟩ := d
  cases body with
  | crdt msg => cases hf; exact h
  | ops ops => cases hf; exact h
  | incomplete => cases hf
  | unreadable => cases hf

theorem frame_carried {d : Entry} (h : d.frame = some f) : carried f = some d.id :=
  (frame_entry (Option.mem_toList.mpr h)).1

theorem sorted_before {l r : List Entry} {x : Entry}
    (h : (l++x::r).Pairwise (fun e d => e.id < d.id)) (he : e ∈ l++x::r) (hlt : e.id < x.id) :
    e ∈ l := by
  rcases List.mem_append.mp he with he | he
  · exact he
  · rcases List.mem_cons.mp he with rfl | he
    · exact absurd hlt (lt_irrefl _)
    · have hright := (List.pairwise_append.mp h).2.1
      exact absurd hlt (lt_asymm ((List.pairwise_cons.mp hright).1 e he))

theorem one_inOrder {g : ServerMessage} {sent : List ServerMessage} (h : InOrder due n sent)
    (hsent : ∀ e, due e → Overtakes g e → ∃ x ∈ sent, carried x = some e.id) :
    InOrder due n (sent++[g]) := by
  apply inOrder_append h
  intro pre f post hone e he hf
  obtain ⟨rfl,heq⟩ | ⟨rest,_,hnil⟩ := List.cons_eq_append_iff.mp hone
  · cases (List.cons.inj heq).1
    rw [List.append_nil]
    exact hsent e he hf
  · exact absurd hnil (by simp)

/-- A replay of the entries in their order overtakes nothing that is due. -/
theorem replay_inOrder {found : List Entry} {sent : List ServerMessage}
    (hsorted : found.Pairwise (fun e d => e.id < d.id)) (hread : ∀ e, due e → e.frame ≠ none)
    (hbeyond : ∀ e, due e → c.cursor < e.id)
    (hfound : ∀ e, due e → (∃ x ∈ found, e.id ≤ x.id) →
      e ∈ found ∨ ∃ g ∈ sent, carried g = some e.id)
    (h : InOrder due n sent) : InOrder due n (sent++replayFrames c.cursor found) := by
  rw [replayFrames,← List.append_assoc]
  apply one_inOrder
  · apply inOrder_append h
    intro pre f post hframes e he hf
    obtain ⟨l,rest,rfl,rfl,hrest⟩ := List.filterMap_eq_append_iff.mp hframes
    obtain ⟨silent,x,r,rfl,hsilent,hx,_⟩ := List.filterMap_eq_cons_iff.mp hrest
    have hlt := overtakes_entry hx hf
    obtain ⟨g,hg⟩ := Option.ne_none_iff_exists'.mp (hread e he)
    rcases hfound e he ⟨x,by simp,hlt.le⟩ with hmem | ⟨g,hg,hid⟩
    · rw [← List.append_assoc] at hsorted hmem
      rcases List.mem_append.mp (sorted_before hsorted hmem hlt) with hl | hl
      · exact ⟨g,List.mem_append_right _ (List.mem_filterMap.mpr ⟨e,hl,hg⟩),frame_carried hg⟩
      · cases (hsilent e hl).symm.trans hg
    · exact ⟨g,List.mem_append_left _ hg,hid⟩
  · intro e he hf
    obtain ⟨g,hg⟩ := Option.ne_none_iff_exists'.mp (hread e he)
    rcases replayedTo_from c.cursor found with hend | ⟨x,hx,hend⟩
    · exact absurd (hend ▸ hf : e.id ≤ c.cursor) (not_le.mpr (hbeyond e he))
    · rcases hfound e he ⟨x,hx,hend ▸ hf⟩ with hmem | ⟨g,hg,hid⟩
      · exact ⟨g,List.mem_append_right _ (List.mem_filterMap.mpr ⟨e,hmem,hg⟩),frame_carried hg⟩
      · exact ⟨g,List.mem_append_left _ hg,hid⟩

/-! ## What the page follows -/

/-- The connection after `n` of its frames were read: what lies before is shown, what comes is in
order, and everything due comes. -/
structure Following (me : ClientId) (w : World) (s : SocketId) (n : ℕ) (c : Socket) : Prop where
  client : c.client = me
  length : n ≤ c.sent.length
  floor : ∀ e ∈ w.server.added, e.author ≠ me → e.id ≤ c.cursor → e.id ∈ w.page.applied
  read : ∀ f ∈ c.sent.take n, ∀ e ∈ w.server.added, e.author ≠ me → carried f = some e.id →
    e.id ∈ w.page.applied
  order : InOrder (Due me w c) n c.sent
  live : c.isOpen = true → ∀ e, Due me w c e → Sent c e ∨ Underway w.server s c e
  replies : c.isOpen = true → ∀ found, .entries s (some found) ∈ w.server.cmdIn →
    ∀ e, Due me w c e → (∃ x ∈ found, e.id ≤ x.id) → e ∈ found ∨ Sent c e

def Finished (n : ℕ) (c : Socket) : Prop := c.sent.length ≤ n ∧ c.isOpen = false

structure Steady (me : ClientId) (w : World) : Prop where
  tidy : Tidy w.server
  readable : ∀ e ∈ w.server.added, e.author ≠ me → e.frame ≠ none
  given : Given w.server w.page.snapshot
  shown : ∀ e ∈ w.server.added, e.author ≠ me → e.id ≤ w.page.snapshot → e.id ∈ w.page.applied
  single : ∀ s t, w.page.reading s ≠ none → w.page.reading t ≠ none → s = t
  each : ∀ s n c, w.page.reading s = some n → w.server.sockets s = some c →
    Finished n c ∨ Following me w s n c

/-! ## Steps of the server -/

section Server
variable {a : WsServer.Action} {server : WsServer.World}

theorem sent_later (hl : Later c c') (h : Sent c e) : Sent c' e := by
  obtain ⟨f,hf,hid⟩ := h
  exact ⟨f,hl.sent.subset hf,hid⟩

/-- A due entry was due before the step, or was added by it. -/
theorem due_before (hs : Stepped w.server a server) (hl : Later c c')
    (h : Due me ⟨server,w.page⟩ c' e) : Due me w c e ∨ w.server.fresh e.id = true := by
  have hbeyond := h.beyond
  rw [cursor_later hl] at hbeyond
  rcases added_grows hs with heq | ⟨d,heq,hfresh⟩
  · exact Or.inl ⟨heq ▸ h.added,h.foreign,hbeyond,h.newer⟩
  · have hadded : e ∈ server.added := h.added
    rw [heq] at hadded
    rcases List.mem_append.mp hadded with hadded | hadded
    · exact Or.inl ⟨hadded,h.foreign,hbeyond,h.newer⟩
    · rw [List.mem_singleton.mp hadded]
      exact Or.inr hfresh

theorem sent_frame (h : f ∈ c.sent) (hf : e.frame = some f) : Sent c e := ⟨f,h,frame_carried hf⟩

/-- A due entry gets on, and is sent at last. -/
theorem underway_step (hw : Grounded w) (hp : Steady me w) (hs : Stepped w.server a server)
    (ho : Orderly me w (.server a)) (hr : Reads w s c) (hclient : c.client = me)
    (hc' : server.sockets s = some c') (hl : Later c c') (hopen : c'.isOpen = true)
    (hd : Due me w c e) (h : Underway w.server s c e) : Sent c' e ∨ Underway server s c' e := by
  obtain ⟨f,hf⟩ := Option.ne_none_iff_exists'.mp (hp.readable e hd.added hd.foreign)
  have hahead : c.sinceStreamId ≠ none → Replays w.server s e →
      Sent c' e ∨ Underway server s c' e := by
    intro hsince hreplays
    have hrange : ∀ id since rest, a = .cmdExec true id →
        w.server.cmdOut = .xrange s since::rest →
        e ∈ w.server.stream ∧ c.cursor < e.id ∨ Sent c' e := by
      rintro id since rest rfl hqueue
      refine (ho s since rest hqueue c hr e hd).imp (fun h => ⟨h,hd.beyond⟩) (sent_later hl)
    rcases replays_ahead hw.sound hs hr.socket hsince hr.isOpen hf hc' hopen hrange hreplays with
      hsent | hreplays | hsent
    · exact Or.inl (sent_frame hsent hf)
    · exact Or.inr (.replays (hl.since ▸ hsince) hreplays)
    · exact Or.inl hsent
  cases h with
  | unpublished h =>
    rcases unpublished_stays hs h with hstays | ⟨i,rfl,hi⟩
    · exact Or.inr (.unpublished hstays)
    · rcases ho e hi with hsubscribed | hhas
      · have hhere := (hw.origins.unpublished e h).2
        cases hs with
        | published hj =>
          cases hi.symm.trans hj
          rw [deliver_frame,if_pos hsubscribed]
          exact Or.inr (.message (List.mem_append_right _ (List.mem_singleton.mpr rfl)) hhere)
      · rcases hhas s c hr hd with hsent | ⟨hsince,hreplays⟩
        · exact Or.inl (sent_later hl hsent)
        · exact hahead hsince hreplays
  | message h hhere =>
    rcases subIn_stays hs h with hstays | ⟨rfl,rest,hqueue⟩
    · exact Or.inr (.message hstays hhere)
    · cases hs with
      | joined hq _ _ => cases hqueue.symm.trans hq
      | refused hq _ _ => cases hqueue.symm.trans hq
      | skipped hq hskip =>
        cases hqueue.symm.trans hq
        cases hhere.symm.trans hskip
      | relayed hq _ =>
        cases hqueue.symm.trans hq
        have hroom := hw.sound.member s c hr.socket hr.isOpen
        have hsent : some (c.send [f]) = some c' := by
          rw [← hc']
          simp [WsServer.World.broadcastLocal,hroom,hr.socket,hf]
        cases hsent
        exact Or.inl (sent_frame (mem_send hr.isOpen (List.mem_singleton.mpr rfl)) hf)
  | stored i h =>
    rcases cmdIn_stays hs h with hstays | ⟨rfl,rest,hqueue⟩
    · exact Or.inr (.stored i hstays)
    · have hi : i ≠ s := by
        rintro rfl
        obtain ⟨d,hd',hauthor⟩ := hp.tidy.author i e h
        cases hr.socket.symm.trans hd'
        exact hd.foreign (hauthor.trans hclient)
      cases hs with
      | inspected hq _ _ => cases hqueue.symm.trans hq
      | replayed hq _ _ => cases hqueue.symm.trans hq
      | settled hq => cases hqueue.symm.trans hq
      | fanned hq =>
        cases hqueue.symm.trans hq
        have hroom := hw.sound.member s c hr.socket hr.isOpen
        have hsent : some (c.send [f]) = some c' := by
          rw [← hc']
          simp [WsServer.World.recvCmd,WsServer.World.broadcastLocal,hroom,hr.socket,hf,hi]
        cases hsent
        exact Or.inl (sent_frame (mem_send hr.isOpen (List.mem_singleton.mpr rfl)) hf)
  | replays hsince h => exact hahead hsince h

/-- What the step sends overtakes nothing that is due. -/
theorem emitted_inOrder (hw : Grounded w) (hp : Steady me w) (ho : Orderly me w (.server a))
    (hr : Reads w s c) (h : Following me w s n c) (hemitted : Emitted w.server a s c c' frames) :
    InOrder (Due me w c) n (c.sent++frames) := by
  have hread : ∀ e, Due me w c e → e.frame ≠ none := fun e he =>
    hp.readable e he.added he.foreign
  -- an entry that is sent on in its turn
  have hturn : ∀ d : Entry, (d.frame ≠ none → InTurn me w s c d) →
      InOrder (Due me w c) n (c.sent++d.frame.toList) := by
    intro d hd
    cases hframe : d.frame with
    | none =>
      rw [Option.toList_none,List.append_nil]
      exact h.order
    | some f =>
      refine one_inOrder h.order (fun e he hf => ?_)
      have hlt := overtakes_entry hframe hf
      have hway := hd (by simp [hframe]) e he hlt
      exact (h.live hr.isOpen e he).resolve_right hway
  cases hemitted with
  | nothing =>
    rw [List.append_nil]
    exact h.order
  | hello userId _ => exact one_inOrder h.order (fun e _ hf => hf.elim)
  | trimmed _ _ => exact one_inOrder h.order (fun e _ hf => hf.elim)
  | relayed ha hqueue hhere _ =>
    subst ha
    exact hturn _ (fun hframe => ho _ _ hqueue hhere hframe s c hr)
  | @replayed found rest ha hqueue _ =>
    have hreply : .entries s (some found) ∈ w.server.cmdIn := hqueue ▸ List.mem_cons_self
    have hsorted := hw.origins.ordered.sublist (hp.tidy.found s found hreply)
    exact replay_inOrder hsorted hread (fun e he => he.beyond)
      (h.replies hr.isOpen found hreply) h.order
  | fanned ha hqueue hi _ =>
    subst ha
    exact hturn _ (fun _ => ho _ _ _ hqueue s c hi hr)

theorem inOrder_start (due : Entry → Prop) (h : sent = [] ∨ ∃ userId k, sent = [.hello userId k]) :
    InOrder due n sent := by
  intro pre f post heq _ e _ hf
  obtain rfl | ⟨userId,k,rfl⟩ := h
  · exact absurd heq (by simp)
  · obtain ⟨rfl,hone⟩ | ⟨rest,_,hnil⟩ := List.cons_eq_append_iff.mp heq
    · cases (List.cons.inj hone).1
      exact hf.elim
    · exact absurd hnil (by simp)

theorem given_next (hs : Stepped w.server a server) {k : StreamId} (h : Given w.server k)
    (he : e ∈ server.added) (hle : e.id ≤ k) : e ∈ w.server.added := by
  rcases added_grows hs with heq | ⟨d,heq,hfresh⟩
  · exact heq ▸ he
  · rw [heq] at he
    rcases List.mem_append.mp he with he | he
    · exact he
    · rw [List.mem_singleton.mp he] at hle
      exact absurd hle (not_le.mpr (given_fresh h hfresh))

theorem following_server (hw : Grounded w) (hp : Steady me w) (hs : Stepped w.server a server)
    (ho : Orderly me w (.server a)) (hn : w.page.reading s = some n)
    (hc : w.server.sockets s = some c) (hc' : server.sockets s = some c') (hl : Later c c')
    (hcursor : Given w.server c.cursor) (h : Following me w s n c) :
    Following me ⟨server,w.page⟩ s n c' := by
  obtain ⟨frames,hsent,hemitted⟩ := emitted_step hw.sound hs hc hc'
  have hreads : c'.isOpen = true → Reads w s c := fun hopen =>
    ⟨by simp [hn],hc,hl.isOpen hopen⟩
  have hrefer : ∀ f ∈ c'.sent, ∀ k, frameId f = some k → Given w.server k := by
    intro f hf k hk
    have hknown : Known w.server c.cursor k := by
      rw [← cursor_later hl]
      rcases sent_from hs hc' hf with ⟨d,hd,hf⟩ | hsourced
      · cases hc.symm.trans hd
        rw [cursor_later hl]
        exact hw.origins.sent s c hc f hf k hk
      · exact sourced_known hw.origins hsourced hk
    rcases hknown with rfl | hadded
    · exact hcursor
    · exact Or.inr hadded
  refine ⟨hl.client.trans h.client,h.length.trans hl.sent.length_le,?_,?_,?_,?_,?_⟩
  · intro e he hforeign hle
    rw [cursor_later hl] at hle
    exact h.floor e (given_next hs hcursor he hle) hforeign hle
  · intro f hf e he hforeign hid
    have hold : f ∈ c.sent.take n := by
      rwa [hsent,List.take_append_of_le_length h.length] at hf
    have hadded : Given w.server e.id := by
      refine hrefer f (hl.sent.subset (List.mem_of_mem_take hold)) e.id ?_
      cases f <;> first | exact hid | cases hid
    exact h.read f hold e (given_next hs hadded he (le_refl _)) hforeign hid
  · have hnew : InOrder (Due me w c) n c'.sent := by
      by_cases hframes : frames = []
      · rw [hsent,hframes,List.append_nil]
        exact h.order
      · rw [hsent]
        have hr : Reads w s c := ⟨by simp [hn],hc,emitted_open hemitted hframes⟩
        exact emitted_inOrder hw hp ho hr h hemitted
    refine inOrder_mono hnew (fun f hf e he hover => ?_)
    obtain ⟨k,hk,hle⟩ := overtakes_id hover
    refine (due_before hs hl he).resolve_right (fun hfresh => ?_)
    exact absurd hle (not_le.mpr (given_fresh (hrefer f hf k hk) hfresh))
  · intro hopen e he
    rcases due_before hs hl he with hd | hfresh
    · rcases h.live (hl.isOpen hopen) e hd with hsent | hway
      · exact Or.inl (sent_later hl hsent)
      · exact underway_step hw hp hs ho (hreads hopen) h.client hc' hl hopen hd hway
    · rcases added_way hs he.added with hadded | ⟨_,hway⟩ | ⟨_,i,hway⟩
      · exact absurd hadded (fresh_not_added hfresh)
      · exact Or.inr (.unpublished hway)
      · exact Or.inr (.stored i hway)
  · intro hopen found hfound e he hx
    obtain ⟨x,hx,hle⟩ := hx
    rcases cmdIn_from hs hfound with hold | hanswered
    · have hgiven : Given w.server x.id := Or.inr ⟨x,hw.origins.entries s found hold x hx,rfl⟩
      have hd := (due_before hs hl he).resolve_right (fun hfresh =>
        absurd hle (not_le.mpr (given_fresh hgiven hfresh)))
      exact (h.replies (hl.isOpen hopen) found hold e hd ⟨x,hx,hle⟩).imp (fun h => h)
        (sent_later hl)
    · cases hanswered with
      | @ranged _ since id rest ha hqueue =>
        subst ha
        have hgiven : Given w.server x.id :=
          Or.inr ⟨x,hw.origins.stream x (List.mem_of_mem_filter hx),rfl⟩
        have hd := (due_before hs hl he).resolve_right (fun hfresh =>
          absurd hle (not_le.mpr (given_fresh hgiven hfresh)))
        obtain ⟨d,hd',hsince⟩ := hw.sound.since s since (hqueue ▸ List.mem_cons_self)
        cases hc.symm.trans hd'
        refine (ho s since rest hqueue c (hreads hopen) e hd).imp (fun hstream => ?_)
          (sent_later hl)
        exact List.mem_filter.mpr ⟨hstream,decide_eq_true (hsince ▸ hd.beyond)⟩

theorem finished_server (hw : Sound w.server) (hs : Stepped w.server a server)
    (hc : w.server.sockets s = some c) (hc' : server.sockets s = some c') (hl : Later c c')
    (h : Finished n c) : Finished n c' := by
  obtain ⟨hlen,hclosed⟩ := h
  obtain ⟨frames,hsent,hemitted⟩ := emitted_step hw hs hc hc'
  have hnone : frames = [] := by
    by_contra hne
    exact nomatch hclosed.symm.trans (emitted_open hemitted hne)
  refine ⟨?_,Bool.eq_false_iff.mpr fun hopen => nomatch hclosed.symm.trans (hl.isOpen hopen)⟩
  rw [hsent,hnone,List.append_nil]
  exact hlen

theorem readable_step (hp : Steady me w) (hs : Stepped w.server a server)
    (ho : Orderly me w (.server a)) (he : e ∈ server.added) (hforeign : e.author ≠ me) :
    e.frame ≠ none := by
  rcases added_way hs he with hold | ⟨rfl,_⟩ | ⟨hframe,_⟩
  · exact hp.readable e hold hforeign
  · exact ho hforeign
  · exact hframe

theorem steady_server (hw : Grounded w) (hp : Steady me w) (hs : Stepped w.server a server)
    (ho : Orderly me w (.server a)) : Steady me ⟨server,w.page⟩ where
  tidy := tidy_step hw.sound hp.tidy hs
  readable := fun e he hforeign => readable_step hp hs ho he hforeign
  given := given_stays hs hp.given
  shown := fun e he hforeign hle => hp.shown e (given_next hs hp.given he hle) hforeign hle
  single := hp.single
  each := by
    intro s n c' hn hc'
    obtain ⟨c,hc,hcursor⟩ := hw.reading s n hn
    obtain ⟨d,hd,hl⟩ := socket_after hw.sound hs hc
    cases hc'.symm.trans hd
    refine (hp.each s n c hn hc).imp (finished_server hw.sound hs hc hc' hl) (fun h => ?_)
    exact following_server hw hp hs ho hn hc hc' hl hcursor h

end Server

/-! ## Steps of the page -/

section Page
variable {page : Page}

/-- The page has come to show at least as much, with its snapshot no older. -/
theorem following_page (h : Following me w s n c)
    (hkept : ∀ e ∈ w.server.added, e.author ≠ me → e.id ∈ w.page.applied → e.id ∈ page.applied)
    (hdue : ∀ e, Due me { w with page := page } c e → Due me w c e) :
    Following me { w with page := page } s n c where
  client := h.client
  length := h.length
  floor := fun e he hforeign hle => hkept e he hforeign (h.floor e he hforeign hle)
  read := fun f hf e he hforeign hid => hkept e he hforeign (h.read f hf e he hforeign hid)
  order := inOrder_mono h.order (fun _ _ e he _ => hdue e he)
  live := fun hopen e he => h.live hopen e (hdue e he)
  replies := fun hopen found hfound e he => h.replies hopen found hfound e (hdue e he)

theorem steady_page (hp : Steady me w) (hgiven : Given w.server page.snapshot)
    (hreading : page.reading = w.page.reading)
    (hkept : ∀ e ∈ w.server.added, e.author ≠ me → e.id ∈ w.page.applied → e.id ∈ page.applied)
    (hshown : ∀ e ∈ w.server.added, e.author ≠ me → e.id ≤ page.snapshot → e.id ∈ page.applied)
    (hdue : ∀ c e, Due me { w with page := page } c e → Due me w c e) :
    Steady me { w with page := page } where
  tidy := hp.tidy
  readable := hp.readable
  given := hgiven
  shown := hshown
  single := by rw [hreading]; exact hp.single
  each := by
    intro s n c hn hc
    rw [hreading] at hn
    exact (hp.each s n c hn hc).imp (fun h => h) (fun h => following_page h hkept (hdue c))

theorem steady_grown (hp : Steady me w) (hgrown : Grown w.page page) :
    Steady me { w with page := page } := by
  refine steady_page hp (hgrown.snapshot ▸ hp.given) hgrown.reading
    (fun e _ _ he => hgrown.kept e.id he) (fun e he hforeign hle => ?_) (fun c e he => ?_)
  · rw [hgrown.snapshot] at hle
    exact hgrown.kept e.id (hp.shown e he hforeign hle)
  · exact ⟨he.added,he.foreign,he.beyond,hgrown.snapshot ▸ he.newer⟩

theorem steady_loaded (hp : Steady me w) {included : List StreamId} {lastStreamId : StreamId}
    {blocks : List String} (hgiven : Given w.server lastStreamId)
    (ho : Orderly me w (.load included lastStreamId blocks)) :
    Steady me { w with page := w.page.loaded included lastStreamId blocks } := by
  obtain ⟨hcovers,_,hreaches⟩ := ho
  refine steady_page hp hgiven rfl (fun e he hforeign hshown => ?_) hcovers (fun c e he => ?_)
  · exact hcovers e he hforeign (hreaches e.id hshown)
  · refine ⟨he.added,he.foreign,he.beyond,?_⟩
    by_contra hle
    have hshown := hp.shown e he.added he.foreign (not_lt.mp hle)
    exact absurd (hreaches e.id hshown) (not_le.mpr he.newer)

/-- A page without connections that are read has nothing to follow. -/
theorem steady_alone (hp : Steady me w) (hgiven : Given w.server page.snapshot)
    (hshown : ∀ e ∈ w.server.added, e.author ≠ me → e.id ≤ page.snapshot → e.id ∈ page.applied)
    (hreading : ∀ s, page.reading s = none) : Steady me { w with page := page } where
  tidy := hp.tidy
  readable := hp.readable
  given := hgiven
  shown := hshown
  single := fun s _ hs => absurd (hreading s) hs
  each := fun s _ _ hn => nomatch hn.symm.trans (hreading s)

theorem steady_drops (hp : Steady me w) (s : SocketId) : Steady me { w with page := { w.page with
    reading := fun i => if i = s then none else w.page.reading i } } where
  tidy := hp.tidy
  readable := hp.readable
  given := hp.given
  shown := hp.shown
  single := by
    intro i j hi hj
    simp only [ne_eq,ite_eq_left_iff,not_forall] at hi hj
    obtain ⟨_,hi⟩ := hi
    obtain ⟨_,hj⟩ := hj
    exact hp.single i j hi hj
  each := by
    intro i n c hn hc
    simp only at hn
    split at hn
    · cases hn
    · exact (hp.each i n c hn hc).imp (fun h => h)
        (fun h => following_page h (fun _ _ _ he => he)
          (fun _ he => ⟨he.added,he.foreign,he.beyond,he.newer⟩))

/-- What is missing is due, and a frame that is read in order does not overtake it. -/
theorem not_overtaken (hp : Steady me w) (h : Following me w s n c) (hf : c.sent[n]? = some f)
    (he : Missing me w e) : ¬ Overtakes f e := by
  intro hover
  have hdue : Due me w c e := by
    refine ⟨he.added,he.foreign,?_,?_⟩
    · by_contra hle
      exact he.absent (h.floor e he.added he.foreign (not_lt.mp hle))
    · by_contra hle
      exact he.absent (hp.shown e he.added he.foreign (not_lt.mp hle))
  obtain ⟨hlt,hget⟩ := List.getElem?_eq_some_iff.mp hf
  have hsplit : c.sent = c.sent.take n++f::c.sent.drop (n+1) := by
    rw [← hget,List.cons_getElem_drop_succ,List.take_append_drop]
  obtain ⟨g,hg,hid⟩ := h.order _ f _ hsplit (by simp [hlt.le]) e hdue hover
  exact he.absent (h.read g hg e he.added he.foreign hid)

/-- An orderly step reads no frame that leaves something behind. -/
theorem heeds_read {now : ℕ} (hp : Steady me w) (hn : w.page.reading s = some n)
    (hc : w.server.sockets s = some c) (hf : c.sent[n]? = some f)
    (h : Following me w s n c) (ho : Orderly me w (.read s now)) : Heeds me w f := by
  have hover : ∀ e, Missing me w e → ¬ Overtakes f e := fun e he => not_overtaken hp h hf he
  cases f with
  | hello userId k =>
    intro _ e he
    by_contra hle
    rw [hp.tidy.hello s c hc userId k (List.mem_of_getElem? hf)] at hle
    exact he.absent (h.floor e he.added he.foreign (not_lt.mp hle))
  | crdt msg userId k =>
    refine ⟨fun e he => not_lt.mp (hover e he),?_⟩
    have hnext : nextFrame w s = some (.crdt msg userId k) := by
      rw [nextFrame,hn,Option.bind_some,hc,Option.bind_some,hf]
    rcases ho msg userId k hnext with hknown | hshown | hown
    · exact Or.inl hknown
    · exact Or.inr fun e he hid => he.absent (hid ▸ hshown)
    · exact Or.inr fun e he hid => he.foreign (hown e he.added hid)
  | remote_ops ops userId k => exact fun e he => not_lt.mp (hover e he)
  | replay_done k => exact fun e he => not_le.mp (hover e he)
  | reload_required => trivial

theorem following_turned (h : Following me w s n c) (hf : c.sent[n]? = some f)
    (hread : ∀ e ∈ w.server.added, e.author ≠ me → carried f = some e.id →
      e.id ∈ w.page.applied) : Following me w s (n+1) c where
  client := h.client
  length := (List.getElem?_eq_some_iff.mp hf).1
  floor := h.floor
  read := by
    intro g hg e he hforeign hid
    rw [List.take_add_one,hf,Option.toList_some] at hg
    rcases List.mem_append.mp hg with hg | hg
    · exact h.read g hg e he hforeign hid
    · rw [List.mem_singleton.mp hg] at hid
      exact hread e he hforeign hid
  order := fun pre g post heq hn => h.order pre g post heq (by omega)
  live := h.live
  replies := h.replies

theorem steady_read {now : ℕ} (hw : Grounded w) (hp : Steady me w)
    (hn : w.page.reading s = some n) (hc : w.server.sockets s = some c)
    (hf : c.sent[n]? = some f) (h : Following me w s n c)
    (hnext : NoSkip me { w with page := (w.page.receive now f).turned s }) :
    Steady me { w with page := (w.page.receive now f).turned s } := by
  have hreading : ∀ i m, ((w.page.receive now f).turned s).reading i = some m →
      i = s ∧ m = n+1 := by
    intro i m hm
    have hi : w.page.reading i ≠ none := by
      obtain ⟨k,hk⟩ := turned_reading hm
      rw [receive_reading] at hk
      simp [hk]
    have his : i = s := hp.single i s hi (by simp [hn])
    subst his
    simp only [Page.turned,if_true,receive_reading,hn,Option.map_some,Option.some.injEq] at hm
    exact ⟨rfl,hm.symm⟩
  have hsingle : ∀ i j, ((w.page.receive now f).turned s).reading i ≠ none →
      ((w.page.receive now f).turned s).reading j ≠ none → i = j := by
    intro i j hi hj
    obtain ⟨m,hm⟩ := Option.ne_none_iff_exists'.mp hi
    obtain ⟨k,hk⟩ := Option.ne_none_iff_exists'.mp hj
    exact (hreading i m hm).1.trans (hreading j k hk).1.symm
  by_cases hreload : f = .reload_required
  · subst hreload
    refine ⟨hp.tidy,hp.readable,Or.inl rfl,fun e he _ hle => ?_,hsingle,fun i m d hm hd => ?_⟩
    · exact absurd hle (not_le.mpr (hw.origins.positive e he))
    · obtain ⟨rfl,rfl⟩ := hreading i m hm
      cases hc.symm.trans hd
      obtain ⟨hlt,hget⟩ := List.getElem?_eq_some_iff.mp hf
      have hsplit : c.sent = c.sent.take n++.reload_required::c.sent.drop (n+1) := by
        rw [← hget,List.cons_getElem_drop_succ,List.take_append_drop]
      obtain ⟨hnil,hclosed⟩ := hp.tidy.last i c hc _ _ hsplit
      exact Or.inl ⟨List.drop_eq_nil_iff.mp hnil,hclosed⟩
  · have hkept : ∀ k ∈ w.page.applied, k ∈ (w.page.receive now f).applied :=
      fun k hk => receive_kept w.page now hreload hk
    have hsnapshot := receive_snapshot w.page now hreload
    refine ⟨hp.tidy,hp.readable,?_,fun e he hforeign hle => ?_,hsingle,fun i m d hm hd => ?_⟩
    · exact (hsnapshot.symm ▸ hp.given :)
    · refine hkept _ (hp.shown e he hforeign ?_)
      exact hsnapshot ▸ hle
    · obtain ⟨rfl,rfl⟩ := hreading i m hm
      cases hc.symm.trans hd
      have hpage : Following me { w with page := (w.page.receive now f).turned i } i n c :=
        following_page h (fun e _ _ he => hkept e.id he)
          (fun e he => ⟨he.added,he.foreign,he.beyond,hsnapshot ▸ he.newer⟩)
      refine Or.inr (following_turned hpage hf (fun e he hforeign hid => ?_))
      refine hnext e.id ?_ e he hforeign (le_refl _)
      refine (receive_last w.page now f).trans ?_
      cases f <;> first | exact hid | cases hid

end Page

/-! ## A new connection -/

theorem following_opened {server : WsServer.World} {userId : UserId} {page : Page}
    (hw : Grounded w) (hskip : NoSkip me w)
    (hs : Stepped w.server (.connect me userId w.page.ws.lastStreamId) server)
    (hnew : w.page.ws.lastStreamId = none → ∀ e ∈ w.server.added, e.author ≠ me →
      e.id ≤ w.page.snapshot)
    (happlied : page.applied = w.page.applied) (hsnapshot : page.snapshot = w.page.snapshot)
    (hc : server.sockets w.server.next = some c) :
    Following me ⟨server,page⟩ w.server.next 0 c := by
  obtain ⟨d,hd,hclient,hsince,hsent⟩ := connected_new hs
  cases hc.symm.trans hd
  have hadded : server.added = w.server.added := by cases hs <;> rfl
  have hcursor : ∀ k, w.page.ws.lastStreamId = some k → c.cursor = k := fun k hk => by
    rw [Socket.cursor,hsince,hk,Option.getD_some]
  refine ⟨hclient,Nat.zero_le _,?_,?_,?_,?_,?_⟩
  · intro e he hforeign hle
    rw [hadded] at he
    rw [happlied]
    cases hlast : w.page.ws.lastStreamId with
    | none =>
      rw [Socket.cursor,hsince,hlast,Option.getD_none] at hle
      exact absurd hle (not_le.mpr (hw.origins.positive e he))
    | some k => exact hskip k hlast e he hforeign (hcursor k hlast ▸ hle)
  · exact fun f hf => absurd hf (by simp)
  · exact inOrder_start _ (hsent.imp (fun h => h) (fun h => ⟨userId,_,h⟩))
  · intro _ e he
    cases hlast : w.page.ws.lastStreamId with
    | none =>
      have hadd : e ∈ w.server.added := hadded ▸ he.added
      have hle := hnew hlast e hadd he.foreign
      exact absurd (hsnapshot ▸ he.newer) (not_lt.mpr hle)
    | some k =>
      have hne : c.sinceStreamId ≠ none := by rw [hsince,hlast]; exact Option.some_ne_none k
      exact Or.inr (.replays hne (connected_replays hs hc hne ⟨_,_,_,rfl⟩))
  · intro _ found hfound
    have hreply : .entries w.server.next (some found) ∈ w.server.cmdIn := by
      cases hs with
      | first _ => exact hfound
      | later _ => exact hfound
    obtain ⟨x,hx,_⟩ := staged_phase hw.sound.staged (cmdIn_stage hreply rfl)
    cases (hw.sound.unused _ (le_refl _)).symm.trans hx

theorem steady_opens {server : WsServer.World} {userId : UserId} (hw : Grounded w)
    (hp : Steady me w) (hskip : NoSkip me w)
    (hs : Stepped w.server (.connect me userId w.page.ws.lastStreamId) server)
    (ho : Orderly me w (.opens userId)) : Steady me ⟨server,{ w.page with
      reading := fun s => if s = w.server.next then some 0 else w.page.reading s }⟩ := by
  have hadded : server.added = w.server.added := by cases hs <;> rfl
  have honly : ∀ s, (if s = w.server.next then some 0 else w.page.reading s) ≠ none →
      s = w.server.next := by
    intro s hs
    by_contra hne
    rw [if_neg hne] at hs
    exact hs (ho.1 s)
  refine ⟨tidy_step hw.sound hp.tidy hs,?_,given_stays hs hp.given,?_,?_,?_⟩
  · exact fun e he => hp.readable e (hadded ▸ he)
  · exact fun e he => hp.shown e (hadded ▸ he)
  · exact fun i j hi hj => (honly i hi).trans (honly j hj).symm
  · intro i m c hm hc
    have hi : i = w.server.next := honly i (fun hnone => nomatch hm.symm.trans hnone)
    subst hi
    simp only [if_true,Option.some.injEq] at hm
    subst hm
    exact Or.inr (following_opened hw hskip hs ho.2 rfl rfl hc)

/-! ## Runs -/

theorem orderly_step {a : Action} (hw : Grounded w) (hj : Flushed me w) (hp : Steady me w)
    (hskip : NoSkip me w) (hs : step me w a = some next) (ho : Orderly me w a) :
    NoSkip me next ∧ Steady me next := by
  cases a with
  | server a =>
    obtain ⟨server,hserver,rfl⟩ := Option.map_eq_some_iff.mp hs
    exact ⟨noSkip_server hw hskip hserver rfl rfl,
      steady_server hw hp (step_stepped hw.sound hserver) ho⟩
  | opens userId =>
    rw [step] at hs
    obtain ⟨server,hserver,rfl⟩ := Option.map_eq_some_iff.mp hs
    exact ⟨noSkip_server hw hskip hserver rfl rfl,
      steady_opens hw hp hskip (step_stepped hw.sound hserver) ho⟩
  | read s now =>
    obtain ⟨f,hf,rfl⟩ := Option.map_eq_some_iff.mp hs
    obtain ⟨n,hn,hframe⟩ := Option.bind_eq_some_iff.mp hf
    obtain ⟨c,hc,hget⟩ := Option.bind_eq_some_iff.mp hframe
    rcases hp.each s n c hn hc with ⟨hlen,_⟩ | h
    · rw [List.getElem?_eq_none hlen] at hget
      cases hget
    · have hnext : NoSkip me { w with page := (w.page.receive now f).turned s } :=
        (noSkip_read hskip hj).mpr (heeds_read hp hn hc hget h ho)
      exact ⟨hnext,steady_read hw hp hn hc hget h hnext⟩
  | drops s =>
    cases hs
    exact ⟨hskip,steady_drops hp s⟩
  | load included lastStreamId blocks =>
    obtain ⟨hgiven,rfl⟩ := load_step hs
    refine ⟨fun k hk e he hforeign hle => ?_,steady_loaded hp hgiven ho⟩
    exact ho.1 e he hforeign (hle.trans (ho.2.1 k hk))
  | ensure blockId now =>
    cases hs
    have hgrown := grown_ensure w.page blockId now
    exact ⟨noSkip_grown hskip hgrown,steady_grown hp hgrown⟩
  | destroy blockId =>
    cases hs
    have hgrown := grown_destroy w.page blockId
    exact ⟨noSkip_grown hskip hgrown,steady_grown hp hgrown⟩
  | visit =>
    cases hs
    refine ⟨fun k hk e he hforeign hle => ?_,?_⟩
    · exact absurd hle (not_le.mpr (ho k hk e he hforeign))
    · refine steady_alone hp (Or.inl rfl) (fun e he _ hle => ?_) (fun _ => rfl)
      exact absurd hle (not_le.mpr (hw.origins.positive e he))

theorem steady_start : Steady me {} where
  tidy := tidy_start
  readable := nofun
  given := Or.inl rfl
  shown := nofun
  single := fun _ _ h => absurd rfl h
  each := nofun

/-- In every run whose steps are orderly, the cursor skips nothing in any state reached. -/
theorem no_skip_if_orderly (me : ClientId) (actions : List Action)
    (h : Along (step me) (Orderly me) {} actions) :
    Throughout (step me) (NoSkip me) {} actions := by
  have hall : Throughout (step me)
      (fun w => NoSkip me w ∧ Grounded w ∧ Flushed me w ∧ Steady me w) {} actions := by
    refine throughout_of_along ?_ ⟨nofun,grounded_start,nofun,steady_start⟩ h
    rintro w a next ⟨hskip,hw,hj,hp⟩ hs ho
    obtain ⟨hnext,hsteady⟩ := orderly_step hw hj hp hskip hs ho
    exact ⟨hnext,grounded_step hw hs,flushed_step hw hj hs hnext,hsteady⟩
  exact throughout_mono (fun _ h => h.1) hall

theorem update_text : "AQ==" ≠ "" := by decide

def delta (ms : ℕ) (blockId : String) (hblock : blockId ≠ "") : Entry :=
  ⟨toLex (ms,0),3,3,false,.crdt ⟨blockId,"AQ==",hblock,update_text⟩⟩

/-- A snapshot, a delta that comes live, and after a new connection an entry that is replayed. -/
def twoConnections : List Action :=
  [.server (.xadd (entry 1)),.server (.publish 0),.load [toLex (1,0)] (toLex (1,0)) ["b"],.opens 1,
    .server (.subExec true),.server .subRecv,.server (.xadd (delta 2 "b" (by decide))),
    .server (.publish 0),.server .subRecv,.read 0 0,.read 0 0,.drops 0,.server (.xadd (entry 3)),
    .server (.publish 0),.server .subRecv,.opens 1,.server (.cmdExec true zeroId),
    .server .cmdRecv,.server (.cmdExec true zeroId),.server .cmdRecv,.read 1 0,.read 1 0,.read 1 0]

theorem orderly_relay {d : Entry} (hqueue : w.server.subIn = [.message d])
    (h : ∀ e ∈ w.server.added, e.id < d.id → e.id ≤ w.page.snapshot) :
    Orderly me w (.server .subRecv) := by
  intro e rest heq _ _ s c _ x hx hlt
  cases hqueue.symm.trans heq
  exact absurd hx.newer (not_lt.mpr (h x hx.added hlt))

theorem orderly_range (h : w.server.stream = w.server.added) {id : StreamId} :
    Orderly me w (.server (.cmdExec true id)) :=
  fun _ _ _ _ _ _ _ he => Or.inl (h ▸ he.added)

theorem orderly_known {msg : DeltaPipeline.ClientCrdtMessage} {userId : UserId} {k : StreamId}
    {now : ℕ} (h : nextFrame w s = some (.crdt msg userId k))
    (hknown : msg.blockId ∈ w.page.known) : Orderly me w (.read s now) := by
  intro _ _ _ hf
  cases h.symm.trans hf
  exact Or.inl hknown

theorem two_connections_skip_nothing : Throughout (step 1) (NoSkip 1) {} twoConnections ∧
    (exec (step 1) {} twoConnections).map (fun w => (w.page.ws.lastStreamId,w.page.applied)) =
      some (some (toLex (3,0)),[toLex (1,0),toLex (2,0),toLex (3,0)]) := by
  have hreads : ∀ {w : World}, (∀ s, w.page.reading s = none) → ∀ s c, ¬ Reads w s c :=
    fun h s c hr => hr.reading (h s)
  refine ⟨no_skip_if_orderly 1 twoConnections ?_,by decide⟩
  refine along_cons rfl (by intro _ h; cases h) ?_
  refine along_cons rfl (fun _ _ => Or.inr fun s c hr => absurd hr (hreads (fun _ => rfl) s c)) ?_
  refine along_cons rfl ⟨?_,(by intro _ h; cases h),(by intro _ h; cases h)⟩ ?_
  · intro e he _ _
    rw [List.mem_singleton.mp he]
    exact List.mem_cons_self
  refine along_cons rfl ⟨fun _ => rfl,fun _ e he _ => ?_⟩ ?_
  · rw [List.mem_singleton.mp he]
    exact le_refl _
  refine along_cons rfl trivial ?_
  refine along_cons rfl (by intro _ _ h; cases h) ?_
  refine along_cons rfl (by intro _ h; cases h) ?_
  refine along_cons rfl (fun _ _ => Or.inl rfl) ?_
  refine along_cons rfl (orderly_relay rfl (by decide)) ?_
  refine along_cons rfl (by intro _ _ _ h; cases h) ?_
  refine along_cons rfl (orderly_known rfl List.mem_cons_self) ?_
  refine along_cons rfl trivial ?_
  refine along_cons rfl (by intro _ h; cases h) ?_
  refine along_cons rfl (fun _ _ => Or.inl rfl) ?_
  refine along_cons rfl (fun _ _ _ _ _ s c hr => absurd hr (hreads (fun s => ?_) s c)) ?_
  · cases s <;> rfl
  refine along_cons rfl ⟨fun s => ?_,by intro h; cases h⟩ ?_
  · cases s <;> rfl
  refine along_cons rfl (by intro _ _ _ h; cases h) ?_
  refine along_cons rfl (by intro _ _ _ h; cases h) ?_
  refine along_cons rfl (orderly_range rfl) ?_
  refine along_cons rfl (by intro _ _ _ h; cases h) ?_
  refine along_cons rfl (by intro _ _ _ h; cases h) ?_
  refine along_cons rfl (by intro _ _ _ h; cases h) ?_
  exact along_cons rfl (by intro _ _ _ h; cases h) trivial

end BlockDocs.OrderedReading
