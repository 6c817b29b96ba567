import BlockDocs.InFlight

/-!
# Replay and live delivery

An entry reaches a connection through the range read of its replay or through
the bus. The subscription takes effect on another connection than the one that
reads the range.
-/

set_option autoImplicit false

namespace BlockDocs.ReplayCoverage
open BlockDocs.Wire BlockDocs.DeltaPipeline BlockDocs.Protocol BlockDocs.WsServer
open BlockDocs.Connections BlockDocs.InFlight BlockDocs.GuardedRun

/-- An open connection with a cursor below a readable entry from elsewhere. -/
structure Wants (w : World) (s : SocketId) (c : Socket) (e : Entry) (f : ServerMessage) :
    Prop where
  socket : w.sockets s = some c
  isOpen : c.isOpen = true
  since : c.sinceStreamId ≠ none
  added : e ∈ w.added
  elsewhere : e.here = false
  frame : e.frame = some f
  above : c.cursor < e.id

def Complete (w : World) : Prop := ∀ s c e f, Wants w s c e f → f ∈ c.sent

structure Settled (w : World) : Prop where
  subOut : w.subOut = []
  subIn : w.subIn = []
  cmdOut : w.cmdOut = []
  cmdIn : w.cmdIn = []
  unpublished : w.unpublished = []

inductive Replays (w : World) (s : SocketId) (e : Entry) : Prop where
  | subscribe (h : .subscribe s ∈ w.subOut)
  | subscribed (ok : Bool) (h : .subscribed s ok ∈ w.subIn)
  | xinfo (h : .xinfo s ∈ w.cmdOut)
  | info (first : Option StreamId) (h : .info s first ∈ w.cmdIn)
  | xrange (since : StreamId) (h : .xrange s since ∈ w.cmdOut)
  | entries (found : List Entry) (h : .entries s (some found) ∈ w.cmdIn) (he : e ∈ found)
  | failed (h : .entries s none ∈ w.cmdIn)

def Delivered (w : World) (c : Socket) (e : Entry) (f : ServerMessage) : Prop :=
  f ∈ c.sent ∨ .message e ∈ w.subIn

def Coming (w : World) (s : SocketId) (c : Socket) (e : Entry) (f : ServerMessage) : Prop :=
  Delivered w c e f ∨ Replays w s e ∨ e ∈ w.unpublished

def Safe (w : World) : Prop := ∀ s c e f, Wants w s c e f → Coming w s c e f

/-- A PUBLISH finds the instance subscribed, or whoever wants the entry has it
or will still read it; an XRANGE finds the entries above its cursor in the
stream, or they were delivered or are yet to be published. -/
def Covered (w : World) : Action → Prop
  | .publish i => ∀ e, w.unpublished[i]? = some e → w.subscribed = true ∨
      ∀ s c f, Wants w s c e f → Delivered w c e f ∨ Replays w s e
  | .cmdExec true _ => ∀ s since rest, w.cmdOut = .xrange s since::rest →
      ∀ c e f, Wants w s c e f → e ∈ w.stream ∨ Delivered w c e f ∨ e ∈ w.unpublished
  | _ => True

variable {w next : World} {s : SocketId} {c c' : Socket} {e : Entry} {f : ServerMessage}
  {a : Action}

theorem safe_settled (h : Safe w) (hw : Settled w) : Complete w := by
  intro s c e f hwants
  rcases h s c e f hwants with (hsent | hmessage) | hreplays | hunpublished
  · exact hsent
  · rw [hw.subIn] at hmessage
    cases hmessage
  · cases hreplays with
    | subscribe h => rw [hw.subOut] at h; cases h
    | subscribed ok h => rw [hw.subIn] at h; cases h
    | xinfo h => rw [hw.cmdOut] at h; cases h
    | info first h => rw [hw.cmdIn] at h; cases h
    | xrange since h => rw [hw.cmdOut] at h; cases h
    | entries found h he => rw [hw.cmdIn] at h; cases h
    | failed h => rw [hw.cmdIn] at h; cases h
  · rw [hw.unpublished] at hunpublished
    cases hunpublished

theorem delivered_step (h : Sound w) (hs : Stepped w a next) (hwants : Wants w s c e f)
    (hc' : next.sockets s = some c') (hl : Later c c') (hd : Delivered w c e f) :
    Delivered next c' e f := by
  rcases hd with hsent | hmessage
  · exact Or.inl (hl.sent.subset hsent)
  · rcases subIn_stays hs hmessage with hstays | ⟨rfl,rest,hqueue⟩
    · exact Or.inr hstays
    · left
      cases hs with
      | joined hq _ _ => cases hqueue.symm.trans hq
      | refused hq _ _ => cases hqueue.symm.trans hq
      | skipped hq hhere =>
        cases hqueue.symm.trans hq
        cases hwants.elsewhere.symm.trans hhere
      | relayed hq _ =>
        cases hqueue.symm.trans hq
        have hroom : s ∈ w.room := h.member s c hwants.socket hwants.isOpen
        have hsent : some (c.send [f]) = some c' := by
          rw [← hc']
          simp [World.broadcastLocal,hroom,hwants.socket,hwants.frame]
        cases hsent
        exact mem_send hwants.isOpen (List.mem_singleton.mpr rfl)

/-- A replay that starts will read the range. -/
theorem replayStart_replays (since : StreamId) (w : World) (e : Entry)
    (h : ∀ x ∈ (replayStart s (some since)).2, x ∈ w.cmdOut) : Replays w s e := by
  simp only [replayStart] at h
  split at h
  · exact .xrange since (h _ (List.mem_singleton.mpr rfl))
  · exact .xinfo (h _ (List.mem_singleton.mpr rfl))

section Ahead
variable {Q : Prop}

/-- The range read stays ahead until it runs and finds the entry, unless `Q` makes up for it. -/
theorem range_ahead (h : Sound w) (hs : Stepped w a next) (hc : w.sockets s = some c)
    {since : StreamId} (hx : .xrange s since ∈ w.cmdOut)
    (hrange : ∀ id rest, a = .cmdExec true id → w.cmdOut = .xrange s since::rest →
      e ∈ w.stream ∧ c.cursor < e.id ∨ Q) : Replays next s e ∨ Q := by
  rcases cmdOut_stays hs hx with hstays | ⟨ok,id,rfl,rest,hqueue⟩
  · exact Or.inl (.xrange since hstays)
  · cases hs with
    | looked hq => cases hqueue.symm.trans hq
    | ranged hq =>
      cases hqueue.symm.trans hq
      obtain ⟨d,hd,hcursor⟩ := h.since s since hx
      cases hc.symm.trans hd
      refine (hrange id rest rfl hqueue).imp (fun ⟨hstream,habove⟩ => ?_) (fun hq => hq)
      exact .entries _ (List.mem_append_right _ (List.mem_singleton.mpr rfl))
        (List.mem_filter.mpr ⟨hstream,decide_eq_true (hcursor ▸ habove)⟩)
    | unranged hq =>
      cases hqueue.symm.trans hq
      exact Or.inl (.failed (List.mem_append_right _ (List.mem_singleton.mpr rfl)))
    | stored hq _ _ => cases hqueue.symm.trans hq
    | unstored hq => cases hqueue.symm.trans hq
    | sounded hq => cases hqueue.symm.trans hq

theorem joined_ahead {rest : List SubEvent} (hsince : c.sinceStreamId ≠ none) :
    Replays ({ w with subIn := rest }.joined s c) s e := by
  obtain ⟨since,hsince⟩ := Option.ne_none_iff_exists'.mp hsince
  refine replayStart_replays since _ e (fun x hx => ?_)
  rw [← hsince] at hx
  exact List.mem_append_right _ hx

/-- What a replay has ahead is sent at last, unless the connection closes. -/
theorem replays_ahead (h : Sound w) (hs : Stepped w a next) (hc : w.sockets s = some c)
    (hsince : c.sinceStreamId ≠ none) (hopen : c.isOpen = true) (hframe : e.frame = some f)
    (hc' : next.sockets s = some c') (hopen' : c'.isOpen = true)
    (hrange : ∀ id since rest, a = .cmdExec true id → w.cmdOut = .xrange s since::rest →
      e ∈ w.stream ∧ c.cursor < e.id ∨ Q) (hr : Replays w s e) :
    f ∈ c'.sent ∨ Replays next s e ∨ Q := by
  cases hr with
  | subscribe hx =>
    rcases subOut_stays hs hx with hstays | ⟨ok,rfl,rest,hqueue⟩
    · exact Or.inr (Or.inl (.subscribe hstays))
    · cases hs with
      | subscribed hq =>
        cases hqueue.symm.trans hq
        exact Or.inr (Or.inl (.subscribed ok
          (List.mem_append_right _ (List.mem_singleton.mpr rfl))))
      | unsubscribed hq => cases hqueue.symm.trans hq
  | subscribed ok hx =>
    rcases subIn_stays hs hx with hstays | ⟨rfl,rest,hqueue⟩
    · exact Or.inr (Or.inl (.subscribed ok hstays))
    · cases hs with
      | joined hq hd _ =>
        cases hqueue.symm.trans hq
        cases hc.symm.trans hd
        exact Or.inr (Or.inl (joined_ahead hsince))
      | refused hq hd _ =>
        cases hqueue.symm.trans hq
        cases hc'.symm.trans (advance_sockets hd)
        cases hopen'
      | skipped hq _ => cases hqueue.symm.trans hq
      | relayed hq _ => cases hqueue.symm.trans hq
  | xinfo hx =>
    rcases cmdOut_stays hs hx with hstays | ⟨ok,id,rfl,rest,hqueue⟩
    · exact Or.inr (Or.inl (.xinfo hstays))
    · cases hs with
      | looked hq =>
        cases hqueue.symm.trans hq
        exact Or.inr (Or.inl (.info _ (List.mem_append_right _ (List.mem_singleton.mpr rfl))))
      | ranged hq => cases hqueue.symm.trans hq
      | unranged hq => cases hqueue.symm.trans hq
      | stored hq _ _ => cases hqueue.symm.trans hq
      | unstored hq => cases hqueue.symm.trans hq
      | sounded hq => cases hqueue.symm.trans hq
  | info first hx =>
    rcases cmdIn_stays hs hx with hstays | ⟨rfl,rest,hqueue⟩
    · exact Or.inr (Or.inl (.info first hstays))
    · cases hs with
      | inspected hq hd _ =>
        cases hqueue.symm.trans hq
        simp only [World.inspected] at hc' ⊢
        split at hc'
        · cases hc'.symm.trans (advance_sockets hd)
          cases hopen'
        · next hkeep =>
          rw [if_neg hkeep]
          exact Or.inr (Or.inl (.xrange _
            (List.mem_append_right _ (List.mem_singleton.mpr rfl))))
      | replayed hq _ _ => cases hqueue.symm.trans hq
      | settled hq => cases hqueue.symm.trans hq
      | fanned hq => cases hqueue.symm.trans hq
  | xrange k hx =>
    exact Or.inr (range_ahead h hs hc hx (fun id rest => hrange id k rest))
  | entries found hx he =>
    rcases cmdIn_stays hs hx with hstays | ⟨rfl,rest,hqueue⟩
    · exact Or.inr (Or.inl (.entries found hstays he))
    · cases hs with
      | inspected hq _ _ => cases hqueue.symm.trans hq
      | replayed hq hd _ =>
        cases hqueue.symm.trans hq
        cases hc.symm.trans hd
        cases hc'.symm.trans (advance_sockets hd)
        refine Or.inl (mem_send hopen ?_)
        exact List.mem_append_left _ (List.mem_filterMap.mpr ⟨e,he,hframe⟩)
      | settled hq => cases hqueue.symm.trans hq
      | fanned hq => cases hqueue.symm.trans hq
  | failed hx =>
    rcases cmdIn_stays hs hx with hstays | ⟨rfl,rest,hqueue⟩
    · exact Or.inr (Or.inl (.failed hstays))
    · cases hs with
      | inspected hq _ _ => cases hqueue.symm.trans hq
      | replayed hq hd _ =>
        cases hqueue.symm.trans hq
        cases hc'.symm.trans (advance_sockets hd)
        cases hopen'
      | settled hq => cases hqueue.symm.trans hq
      | fanned hq => cases hqueue.symm.trans hq

end Ahead

theorem replays_step (h : Sound w) (hs : Stepped w a next) (hwants : Wants w s c e f)
    (hc' : next.sockets s = some c') (hl : Later c c') (hopen : c'.isOpen = true)
    (hcovered : Covered w a) (hr : Replays w s e) : Coming next s c' e f := by
  have hrange : ∀ id since rest, a = .cmdExec true id → w.cmdOut = .xrange s since::rest →
      e ∈ w.stream ∧ c.cursor < e.id ∨ (Delivered next c' e f ∨ e ∈ next.unpublished) := by
    rintro id since rest rfl hqueue
    rcases hcovered s since rest hqueue c e f hwants with hstream | hdelivered | hunpublished
    · exact Or.inl ⟨hstream,hwants.above⟩
    · exact Or.inr (Or.inl (delivered_step h hs hwants hc' hl hdelivered))
    · refine Or.inr (Or.inr ?_)
      rcases unpublished_stays hs hunpublished with hstays | ⟨_,hpublish,_⟩
      · exact hstays
      · cases hpublish
  rcases replays_ahead h hs hwants.socket hwants.since hwants.isOpen hwants.frame hc' hopen hrange
    hr with hsent | hreplays | hdelivered | hunpublished
  · exact Or.inl (Or.inl hsent)
  · exact Or.inr (Or.inl hreplays)
  · exact Or.inl hdelivered
  · exact Or.inr (Or.inr hunpublished)

/-- A connection with a cursor starts with its range read ahead. -/
theorem connected_replays (hs : Stepped w a next) (hc' : next.sockets w.next = some c')
    (hsince : c'.sinceStreamId ≠ none)
    (hconnect : ∃ client userId since, a = .connect client userId since) :
    Replays next w.next e := by
  obtain ⟨client,userId,since,rfl⟩ := hconnect
  obtain ⟨d,hd,hsame⟩ := connected_socket hs
  cases hc'.symm.trans hd
  obtain ⟨k,rfl⟩ := Option.ne_none_iff_exists'.mp (hsame ▸ hsince)
  cases hs with
  | first _ => exact .subscribe (List.mem_append_right _ (List.mem_singleton.mpr rfl))
  | later _ => exact replayStart_replays k _ e (fun x hx => List.mem_append_right _ hx)

theorem evolved_some {o : Option Socket} (h : Evolved o (some c')) :
    ∃ c, o = some c ∧ Later c c' := by
  cases h with
  | some h => exact ⟨_,rfl,h⟩

theorem wants_before (hl : Later c c') (hc : w.sockets s = some c) (hadded : e ∈ w.added)
    (h : Wants next s c' e f) : Wants w s c e f where
  socket := hc
  isOpen := hl.isOpen h.isOpen
  since := hl.since ▸ h.since
  added := hadded
  elsewhere := h.elsewhere
  frame := h.frame
  above := by
    have habove := h.above
    rwa [Socket.cursor,hl.since] at habove

theorem published_coming (h : Sound w) (hs : Stepped w a next) (hwants : Wants w s c e f)
    (hc' : next.sockets s = some c') (hl : Later c c') (hopen : c'.isOpen = true)
    (hcovered : Covered w a) (he : e ∈ w.unpublished) : Coming next s c' e f := by
  rcases unpublished_stays hs he with hstays | ⟨i,rfl,hi⟩
  · exact Or.inr (Or.inr hstays)
  · rcases hcovered e hi with hsubscribed | hahead
    · cases hs with
      | published hj =>
        cases hi.symm.trans hj
        rw [deliver_frame,if_pos hsubscribed]
        exact Or.inl (Or.inr (List.mem_append_right _ (List.mem_singleton.mpr rfl)))
    · rcases hahead s c f hwants with hdelivered | hreplays
      · exact Or.inl (delivered_step h hs hwants hc' hl hdelivered)
      · exact replays_step h hs hwants hc' hl hopen hcovered hreplays

theorem safe_step (h : Sound w) (hsafe : Safe w) (hs : Stepped w a next)
    (hcovered : Covered w a) : Safe next := by
  intro s c' e f hwants'
  rcases sockets_step hs s with hev | ⟨rfl,hconnect⟩
  · rw [hwants'.socket] at hev
    obtain ⟨c,hc,hl⟩ := evolved_some hev
    rcases added_from hs hwants'.added with hadded | hhere | hunpublished
    · have hwants := wants_before hl hc hadded hwants'
      rcases hsafe s c e f hwants with hdelivered | hreplays | hunpublished
      · exact Or.inl (delivered_step h hs hwants hwants'.socket hl hdelivered)
      · exact replays_step h hs hwants hwants'.socket hl hwants'.isOpen hcovered hreplays
      · exact published_coming h hs hwants hwants'.socket hl hwants'.isOpen hcovered hunpublished
    · cases hwants'.elsewhere.symm.trans hhere
    · exact Or.inr (Or.inr hunpublished)
  · exact Or.inr (Or.inl (connected_replays hs hwants'.socket hwants'.since hconnect))

theorem safe_start : Safe {} := fun _ _ _ _ hwants => nomatch hwants.socket

/-- In every run whose steps are covered, once all commands have completed each
open connection has been sent every entry above its cursor. -/
theorem complete_if_covered (actions : List Action) (h : Along step Covered {} actions) :
    Throughout step (fun w => Settled w → Complete w) {} actions := by
  have hboth : Throughout step (fun w => Sound w ∧ Safe w) {} actions := by
    refine throughout_of_along ?_ ⟨sound_start,safe_start⟩ h
    rintro w a next ⟨hsound,hsafe⟩ hs hcovered
    exact ⟨sound_next hsound hs,safe_step hsound hsafe (step_stepped hsound hs) hcovered⟩
  exact throughout_mono (fun w hw => safe_settled hw.2) hboth

/-- One member, and an entry that is published once the instance is subscribed. -/
theorem complete_if_covered_one_member : Throughout step (fun w => Settled w → Complete w) {}
    [.connect 1 1 (some zeroId),.subExec true,.subRecv,.cmdExec true zeroId,
      .xadd ⟨toLex (1,0),3,3,false,.ops []⟩,.publish 0,.subRecv,.cmdRecv] := by
  apply complete_if_covered
  intro w hw
  cases hw
  refine ⟨trivial,fun w hw => ?_⟩
  cases hw
  refine ⟨trivial,fun w hw => ?_⟩
  cases hw
  refine ⟨trivial,fun w hw => ⟨?_,?_⟩⟩
  · -- nothing has been added when the range is read
    intro s since rest _ c e f hwants
    cases hwants.added
  · cases hw
    refine fun w hw => ⟨trivial,fun w' hw' => ⟨?_,?_⟩⟩
    · cases hw
      exact fun _ _ => Or.inl rfl
    · exact fun _ _ => ⟨trivial,fun _ _ => ⟨trivial,trivial⟩⟩

/-! ## An entry that was missed -/

structure Missed (w : World) (s : SocketId) (e : Entry) (f : ServerMessage) : Prop where
  present : ∃ c, w.sockets s = some c
  wants : ∀ c, w.sockets s = some c → c.isOpen = true → Wants w s c e f
  gone : ∀ c, w.sockets s = some c → c.isOpen = true → ¬ Coming w s c e f

theorem frame_unique (h : Origins w) {d : Entry} (he : e ∈ w.added) (hd : d ∈ w.added)
    (hfe : e.frame = some f) (hfd : d.frame = some f) : d = e :=
  h.unique hd he (Option.some.inj ((frameId_frame hfd).symm.trans (frameId_frame hfe)))

theorem frame_kind (h : e.frame = some f) :
    (∀ userId k, f ≠ .hello userId k) ∧ (∀ k, f ≠ .replay_done k) ∧ f ≠ .reload_required := by
  obtain ⟨id,author,userId,here,body⟩ := e
  cases body with
  | crdt msg => cases h; exact ⟨nofun,nofun,nofun⟩
  | ops ops => cases h; exact ⟨nofun,nofun,nofun⟩
  | incomplete => cases h
  | unreadable => cases h

theorem unsent_step (ho : Origins w) (hs : Stepped w a next) (hwants : Wants w s c e f)
    (hgone : ¬ Coming w s c e f) (hc' : next.sockets s = some c') : f ∉ c'.sent := by
  intro hf
  obtain ⟨hhello,hdone,hreload⟩ := frame_kind hwants.frame
  rcases sent_from hs hc' hf with ⟨d,hd,hf⟩ | hsourced
  · cases hwants.socket.symm.trans hd
    exact hgone (Or.inl (Or.inl hf))
  · cases hsourced with
    | hello userId => exact hhello _ _ rfl
    | trimmed => exact hreload rfl
    | relayed hx _ hfd =>
      cases frame_unique ho hwants.added (ho.message _ hx) hwants.frame hfd
      exact hgone (Or.inl (Or.inr hx))
    | replayed hx he hfd =>
      cases frame_unique ho hwants.added (ho.entries _ _ hx _ he) hwants.frame hfd
      exact hgone (Or.inr (Or.inl (.entries _ hx he)))
    | done _ => exact hdone _ rfl
    | fanned hx hfd =>
      obtain ⟨hadded,hhere⟩ := ho.stored _ _ hx
      cases frame_unique ho hwants.added hadded hwants.frame hfd
      cases hwants.elsewhere.symm.trans hhere

theorem unraised_step (ho : Origins w) (hs : Stepped w a next) (hwants : Wants w s c e f)
    (hgone : ¬ Coming w s c e f) : .message e ∉ next.subIn := by
  intro hx
  rcases subIn_from hs hx with hx | hraised
  · exact hgone (Or.inl (Or.inr hx))
  · cases hraised with
    | sounded hx => cases hwants.elsewhere.symm.trans (ho.publish e hx).2
    | published _ hx _ => exact hgone (Or.inr (Or.inr (List.mem_of_getElem? hx)))

theorem replayStart_info {i : SocketId} {since : Option StreamId}
    (h : Command.xinfo s ∈ (replayStart i since).2) : s = i := by
  cases since with
  | none => simp [replayStart] at h
  | some since =>
    simp only [replayStart] at h
    split at h
    · cases List.mem_singleton.mp h
    · cases List.mem_singleton.mp h
      rfl

theorem unreplayed_step (hw : Sound w) (hs : Stepped w a next) (hc : w.sockets s = some c)
    (hgone : ¬ Replays w s e) : ¬ Replays next s e := by
  have hold : s ≠ w.next := by
    rintro rfl
    rw [hw.unused _ (le_refl _)] at hc
    cases hc
  intro hr
  cases hr with
  | subscribe hx =>
    rcases subscribe_from hs hx with hx | hx
    · exact hgone (.subscribe hx)
    · exact hold hx
  | subscribed ok hx =>
    rcases subIn_from hs hx with hx | hraised
    · exact hgone (.subscribed ok hx)
    · cases hraised with
      | subscribed _ hx => exact hgone (.subscribe hx)
  | xinfo hx =>
    rcases cmdOut_from hs hx with hx | hissued
    · exact hgone (.xinfo hx)
    · cases hissued with
      | connected _ hx => exact hold (replayStart_info hx)
      | joined hsub hx =>
        cases replayStart_info hx
        exact hgone (.subscribed true hsub)
  | info first hx =>
    rcases cmdIn_from hs hx with hx | hanswered
    · exact hgone (.info first hx)
    · cases hanswered with
      | looked _ hx => exact hgone (.xinfo hx)
  | xrange since hx =>
    rcases cmdOut_from hs hx with hx | hissued
    · exact hgone (.xrange since hx)
    · cases hissued with
      | connected _ hx => exact hold (replayStart_xrange hx).1
      | joined hsub hx =>
        obtain ⟨rfl,_⟩ := replayStart_xrange hx
        exact hgone (.subscribed true hsub)
      | inspected _ hx => exact hgone (.info _ hx)
  | entries found hx he =>
    rcases cmdIn_from hs hx with hx | hanswered
    · exact hgone (.entries found hx he)
    · cases hanswered with
      | ranged _ hqueue => exact hgone (.xrange _ (hqueue ▸ List.mem_cons_self))
  | failed hx =>
    rcases cmdIn_from hs hx with hx | hanswered
    · exact hgone (.failed hx)
    · cases hanswered with
      | unranged hx => exact hgone (.xrange _ hx)

/-- A missed entry stays missed while the connection stays open. -/
theorem missed_step (hw : Sound w) (ho : Origins w) (h : Missed w s e f)
    (hs : Stepped w a next) : Missed next s e f := by
  obtain ⟨c,hc⟩ := h.present
  have hlater : ∃ c', next.sockets s = some c' ∧ Later c c' := by
    rcases sockets_step hs s with hev | ⟨rfl,_⟩
    · rw [hc] at hev
      generalize next.sockets s = o at hev
      cases hev with
      | some hl => exact ⟨_,rfl,hl⟩
    · rw [hw.unused _ (le_refl _)] at hc
      cases hc
  obtain ⟨d,hd,hl⟩ := hlater
  refine ⟨⟨d,hd⟩,fun c' hc' hopen => ?_,fun c' hc' hopen => ?_⟩
  · cases hd.symm.trans hc'
    have hwants := h.wants c hc (hl.isOpen hopen)
    refine ⟨hd,hopen,hl.since ▸ hwants.since,added_stays hs hwants.added,hwants.elsewhere,
      hwants.frame,?_⟩
    rw [Socket.cursor,hl.since]
    exact hwants.above
  · cases hd.symm.trans hc'
    have hwants := h.wants c hc (hl.isOpen hopen)
    have hgone := h.gone c hc (hl.isOpen hopen)
    rintro ((hsent | hmessage) | hreplays | hunpublished)
    · exact unsent_step ho hs hwants hgone hd hsent
    · exact unraised_step ho hs hwants hgone hmessage
    · exact unreplayed_step hw hs hc (fun hr => hgone (Or.inr (Or.inl hr))) hreplays
    · rcases unpublished_from hs hunpublished with hx | ⟨_,_,hfresh⟩
      · exact hgone (Or.inr (Or.inr hx))
      · exact fresh_not_added hfresh hwants.added

theorem missed_run {actions : List Action} (hw : Sound w) (ho : Origins w)
    (h : Missed w s e f) (hrun : exec step w actions = some next) : Missed next s e f := by
  have hall : Sound next ∧ Origins next ∧ Missed next s e f := by
    refine exec_invariant (I := fun w => Sound w ∧ Origins w ∧ Missed w s e f) ?_ ⟨hw,ho,h⟩ hrun
    rintro v a t ⟨hv,hov,hm⟩ hs
    have hstepped := step_stepped hv hs
    exact ⟨sound_next hv hs,origins_step hv hov hstepped,missed_step hv hov hm hstepped⟩
  exact hall.2.2

theorem erased_once {l : List Entry} {i : ℕ} (h : l.Nodup) (hi : l[i]? = some e) :
    e ∉ l.eraseIdx i := by
  intro he
  obtain ⟨j,hne,hj⟩ := List.mem_eraseIdx_iff_getElem?.mp he
  obtain ⟨hlt,_⟩ := List.getElem?_eq_some_iff.mp hi
  exact hne ((List.getElem?_inj hlt h).mp (hi.trans hj.symm)).symm

/-- A step that leaves the connection as it is and takes the entry off every way to it
misses it. -/
theorem missed_of_kept (h : Wants w s c e f) (hs : Stepped w a next)
    (hkept : next.sockets s = some c) (hgone : ¬ Coming next s c e f) : Missed next s e f := by
  refine ⟨⟨c,hkept⟩,fun d hd _ => ?_,fun d hd _ => ?_⟩
  · cases hkept.symm.trans hd
    exact ⟨hkept,h.isOpen,h.since,added_stays hs h.added,h.elsewhere,h.frame,h.above⟩
  · cases hkept.symm.trans hd
    exact hgone

/-- A PUBLISH that is not covered misses a connection for good. -/
theorem unheard_missed (hw : Sound w) (ho : Origins w) {i : ℕ}
    (hs : step w (.publish i) = some next) (h : ¬ Covered w (.publish i)) :
    ∃ s e f, Missed next s e f ∧ ∃ c, next.sockets s = some c ∧ c.isOpen = true := by
  have hstepped := step_stepped hw hs
  simp only [Covered,not_forall,not_or,exists_prop] at h
  obtain ⟨e,he,hsubscribed,s,c,f,hwants,hdelivered,hreplays⟩ := h
  have hnext : next = { w with unpublished := w.unpublished.eraseIdx i } := by
    cases hstepped with
    | published hd =>
      cases he.symm.trans hd
      rw [deliver_frame,if_neg hsubscribed,List.append_nil]
  have hunreplayed := unreplayed_step hw hstepped hwants.socket hreplays
  have hkept : next.sockets s = some c := by rw [hnext]; exact hwants.socket
  refine ⟨s,e,f,missed_of_kept hwants hstepped hkept ?_,c,hkept,hwants.isOpen⟩
  rintro ((hsent | hmessage) | hreplay | hunpublished)
  · exact hdelivered (Or.inl hsent)
  · rw [hnext] at hmessage
    exact hdelivered (Or.inr hmessage)
  · exact hunreplayed hreplay
  · rw [hnext] at hunpublished
    exact erased_once ho.once he hunpublished

/-- So does an XRANGE. -/
theorem unread_missed (hw : Sound w) {id : StreamId}
    (hs : step w (.cmdExec true id) = some next) (h : ¬ Covered w (.cmdExec true id)) :
    ∃ s e f, Missed next s e f ∧ ∃ c, next.sockets s = some c ∧ c.isOpen = true := by
  have hstepped := step_stepped hw hs
  simp only [Covered,not_forall,not_or,exists_prop] at h
  obtain ⟨s,since,rest,hqueue,c,e,f,hwants,hstream,hdelivered,hunpublished⟩ := h
  have hnext : next = { w with
      cmdOut := rest
      cmdIn := w.cmdIn++[.entries s (some (w.stream.filter (fun e => since < e.id)))] } := by
    simp only [step,hqueue,World.execCmd] at hs
    exact (Option.some.inj hs).symm
  have honly := range_once hw.staged hqueue
  have hphase : ∀ ph, (s,ph) ∈ stages w → ph = .ranging := by
    intro ph hph
    have hrange : (s,Phase.ranging) ∈ stages w := cmdOut_stage (hqueue ▸ List.mem_cons_self) rfl
    obtain ⟨d,hd,hdp⟩ := staged_phase hw.staged hph
    obtain ⟨d',hd',hdp'⟩ := staged_phase hw.staged hrange
    cases hd.symm.trans hd'
    exact hdp.symm.trans hdp'
  have hreplies : ∀ r, r ∈ next.cmdIn →
      r ∈ w.cmdIn ∨ r = .entries s (some (w.stream.filter (fun e => since < e.id))) := by
    intro r hr
    rw [hnext] at hr
    exact (List.mem_append.mp hr).imp (fun h => h) List.mem_singleton.mp
  have hkept : next.sockets s = some c := by rw [hnext]; exact hwants.socket
  refine ⟨s,e,f,missed_of_kept hwants hstepped hkept ?_,c,hkept,hwants.isOpen⟩
  rintro ((hsent | hmessage) | hreplay | hpublish)
  · exact hdelivered (Or.inl hsent)
  · rw [hnext] at hmessage
    exact hdelivered (Or.inr hmessage)
  · cases hreplay with
    | subscribe hx =>
      rw [hnext] at hx
      cases hphase .joining (subOut_stage hx rfl)
    | subscribed ok hx =>
      rw [hnext] at hx
      cases hphase .joining (subIn_stage hx rfl)
    | xinfo hx =>
      rw [hnext] at hx
      cases hphase .inspecting (cmdOut_stage (hqueue ▸ List.mem_cons_of_mem _ hx) rfl)
    | info first hx =>
      rcases hreplies _ hx with hx | hx
      · cases hphase .inspecting (cmdIn_stage hx rfl)
      · cases hx
    | xrange k hx =>
      rw [hnext] at hx
      exact honly.1 k hx
    | entries found hx he =>
      rcases hreplies _ hx with hx | hx
      · exact honly.2 _ hx
      · cases hx
        exact hstream (List.mem_of_mem_filter he)
    | failed hx =>
      rcases hreplies _ hx with hx | hx
      · exact honly.2 _ hx
      · cases hx
  · rw [hnext] at hpublish
    exact hunpublished hpublish

/-! ## A range read that is too early -/

def remoteOps : Entry := ⟨toLex (1,0),3,3,false,.ops []⟩

def earlyRange : List Action :=
  [.connect 1 1 none,.connect 2 2 (some zeroId),.cmdExec true zeroId,.xadd remoteOps,.publish 0,
    .subExec true,.subRecv,.cmdRecv]

/-- The second member of the room does not wait for the subscription: its range
is read, the entry is added and published, and only then the instance is subscribed. -/
theorem early_range_misses :
    ¬ Throughout step (fun w => Settled w → Complete w) {} earlyRange := by
  intro h
  obtain ⟨w,hw⟩ : ∃ w, exec step {} earlyRange = some w := ⟨_,rfl⟩
  have hsettled : Settled w := by
    cases hw
    exact ⟨rfl,rfl,rfl,rfl,rfl⟩
  obtain ⟨c,hwants,hsent⟩ : ∃ c, Wants w 1 c remoteOps (.remote_ops [] 3 (toLex (1,0))) ∧
      c.sent = [.hello 2 zeroId,.replay_done zeroId] := by
    cases hw
    exact ⟨_,⟨rfl,rfl,nofun,List.mem_singleton.mpr rfl,rfl,rfl,by decide⟩,rfl⟩
  have hin := throughout_iff_prefixes.mp h _ (List.prefix_refl _) w hw hsettled 1 c _ _ hwants
  rw [hsent] at hin
  simp at hin

end BlockDocs.ReplayCoverage
