import BlockDocs.ClientSocket
import BlockDocs.Connections

/-!
# Frames during the handshake

The message listener of a connection is registered after the subscribe round
trip and the replay. A frame that arrives earlier is heard by nobody.
-/

set_option autoImplicit false

namespace BlockDocs.HandshakeFrames
open BlockDocs.Wire BlockDocs.DeltaPipeline BlockDocs.Protocol BlockDocs.WsServer
open BlockDocs.Connections BlockDocs.GuardedRun BlockDocs.ClientSocket

def Heard (c : Socket) : Prop := c.dispatched = c.received.filterMap parsed

/-- A connection that has been set up lost no frame. -/
def Lossless (w : World) : Prop :=
  ∀ s c, w.sockets s = some c → c.phase = .listening → Heard c

def listener (w : World) : Action → Option SocketId
  | .subRecv =>
    match w.subIn with
    | .subscribed s true::_ =>
      if (w.sockets s).any (fun c => c.sinceStreamId = none) then some s else none
    | _ => none
  | .cmdRecv =>
    match w.cmdIn with
    | .entries s (some _)::_ => some s
    | _ => none
  | _ => none

/-- No message reached the connection before its listener. -/
def Quiet (w : World) (a : Action) : Prop :=
  ∀ s c, listener w a = some s → w.sockets s = some c → c.received.filterMap parsed = []

structure Waiting (w : World) : Prop where
  sound : Sound w
  silent : ∀ s c, w.sockets s = some c → c.phase ≠ .listening → c.dispatched = []

variable {w next : World} {s : SocketId} {c : Socket}

/-! ## What a step does to a connection's frames -/

structure Still (c c' : Socket) : Prop where
  listening : c'.phase = .listening ↔ c.phase = .listening
  received : c'.received = c.received
  dispatched : c'.dispatched = c.dispatched

theorem Still.refl (c : Socket) : Still c c := ⟨Iff.rfl,rfl,rfl⟩

theorem still_closed (c : Socket) : Still c c.closed := ⟨Iff.rfl,rfl,rfl⟩

theorem still_send (frames : List ServerMessage) (c : Socket) : Still c (c.send frames) := by
  unfold Socket.send
  split <;> exact ⟨Iff.rfl,rfl,rfl⟩

inductive Turn (r : Option SocketId) (i : SocketId) : Option Socket → Option Socket → Prop where
  | none (hr : r ≠ some i) : Turn r i none none
  | fresh {c : Socket} (hr : r ≠ some i) (hreceived : c.received = [])
      (hdispatched : c.dispatched = []) : Turn r i none (some c)
  | still {c c' : Socket} (hr : r ≠ some i) (h : Still c c') : Turn r i (some c) (some c')
  | missed {c : Socket} {raw : Option Json} (hr : r ≠ some i) (hphase : c.phase ≠ .listening) :
      Turn r i (some c) (some (c.hear raw))
  | heard {c : Socket} {raw : Option Json} (hr : r ≠ some i) (hphase : c.phase = .listening) :
      Turn r i (some c) (some { c.hear raw with
        dispatched := c.dispatched++(parsed raw).toList })
  | quits {c c' : Socket} (hr : r ≠ some i) (hphase : c.phase ≠ .listening)
      (hphase' : c'.phase ≠ .listening) (hdispatched : c'.dispatched = c.dispatched) :
      Turn r i (some c) (some c')
  | registers {c c' : Socket} (hr : r = some i) (hphase : c.phase ≠ .listening)
      (hphase' : c'.phase = .listening) (hreceived : c'.received = c.received)
      (hdispatched : c'.dispatched = c.dispatched) : Turn r i (some c) (some c')

variable {r : Option SocketId}

theorem turn_same {i : SocketId} (hr : r ≠ some i) (o : Option Socket) : Turn r i o o := by
  cases o with
  | none => exact .none hr
  | some c => exact .still hr (.refl c)

theorem turn_modify {f : Socket → Socket} (hc : w.sockets s = some c)
    (hr : ∀ i, i ≠ s → r ≠ some i) (hf : Turn r s (some c) (some (f c))) (i : SocketId) :
    Turn r i (w.sockets i) ((w.modify s f).sockets i) := by
  by_cases hi : i = s
  · subst hi
    simpa only [World.modify,if_true,hc,Option.map_some] using hf
  · simp only [World.modify,if_neg hi]
    exact turn_same (hr i hi) _

theorem turn_broadcast (hr : ∀ i, r ≠ some i) (frames : List ServerMessage)
    (except : Option SocketId) (i : SocketId) :
    Turn r i (w.sockets i) ((w.broadcastLocal frames except).sockets i) := by
  simp only [World.broadcastLocal]
  split
  · cases w.sockets i with
    | none => exact .none (hr i)
    | some c => exact .still (hr i) (still_send frames c)
  · exact turn_same (hr i) _

theorem turn_handle {raw : Option Json} (hc : w.sockets s = some c) (hphase : c.phase = .listening)
    (hr : ∀ i, r ≠ some i) (i : SocketId) :
    Turn r i (w.sockets i) (((w.modify s (Socket.hear raw)).handle s raw).sockets i) := by
  by_cases hi : i = s
  · subst hi
    have hheard : Turn r i (some c) (some { c.hear raw with
        dispatched := c.dispatched++(parsed raw).toList }) := .heard (hr i) hphase
    unfold World.handle
    cases hraw : parsed raw with
    | none => simpa [World.modify,hc,hraw,Socket.hear] using hheard
    | some msg => simpa [World.advance,World.modify,hc,hraw,Socket.hear] using hheard
  · have hsame : ((w.modify s (Socket.hear raw)).handle s raw).sockets i = w.sockets i := by
      unfold World.handle
      split
      · simp [World.modify,hi]
      · simp [World.advance,World.modify,hi]
    rw [hsame]
    exact turn_same (hr i) _

/-- A connect adds one socket that has heard nothing. -/
theorem turn_enroll (h : Sound w) (hr : ∀ i, r ≠ some i) {d : Socket} (hreceived : d.received = [])
    (hdispatched : d.dispatched = []) (i : SocketId) :
    Turn r i (w.sockets i) (if i = w.next then some d else w.sockets i) := by
  split
  · next hi =>
    rw [hi,h.unused _ (le_refl _)]
    exact .fresh (hr _) hreceived hdispatched
  · exact turn_same (hr i) _

theorem no_listener (h : r = none) (i : SocketId) : r ≠ some i := by
  rw [h]
  nofun

theorem turn_step {a : Action} (h : Sound w) (hs : Stepped w a next) (i : SocketId) :
    Turn (listener w a) i (w.sockets i) (next.sockets i) := by
  cases hs with
  | first _ => exact turn_enroll h (no_listener rfl) rfl rfl i
  | @later client userId since _ =>
    let opened : Socket := { client := client, userId := userId, sinceStreamId := since }
    have hstill := still_send [.hello userId opened.cursor] opened
    have hadded := turn_enroll h (no_listener (r := none) rfl) (d :=
      (opened.send [.hello userId opened.cursor]).enter (replayStart w.next since).1)
      hstill.received hstill.dispatched i
    show Turn none i _ _
    by_cases hi : i = w.next
    · simpa [World.joined,World.advance,World.modify,World.enroll,hi,opened] using hadded
    · simpa [World.joined,World.advance,World.modify,World.enroll,hi] using hadded
  | @closed s c hc _ _ =>
    exact turn_modify hc (fun i _ => no_listener rfl i)
      (.still (no_listener rfl s) (still_closed c)) i
  | @left s c hc _ _ =>
    exact turn_modify hc (fun i _ => no_listener rfl i)
      (.still (no_listener rfl s) (still_closed c)) i
  | @missed s c raw hc _ hphase =>
    exact turn_modify hc (fun i _ => no_listener rfl i) (.missed (no_listener rfl s) hphase) i
  | heard hc _ hphase => exact turn_handle hc hphase (no_listener rfl) i
  | @joined s c rest hqueue hc hphase =>
    have hwait : c.phase ≠ .listening := by rw [hphase]; decide
    have hstill := still_send [.hello c.userId c.cursor] c
    refine turn_modify hc ?_ ?_ i
    · intro i hi
      simp only [listener,hqueue,hc]
      split
      · exact fun heq => hi (Option.some.inj heq).symm
      · exact no_listener rfl i
    · cases hsince : c.sinceStreamId with
      | none =>
        refine .registers ?_ hwait rfl hstill.received hstill.dispatched
        simp [listener,hqueue,hc,hsince]
      | some since =>
        refine .quits ?_ hwait ?_ hstill.dispatched
        · simp [listener,hqueue,hc,hsince]
        · simp only [replayStart,Socket.enter]
          split <;> simp
  | @refused s c rest hqueue hc hphase =>
    have hwait : c.phase ≠ .listening := by rw [hphase]; decide
    have hnone : listener w .subRecv = none := by simp [listener,hqueue]
    exact turn_modify hc (fun i _ => no_listener hnone i)
      (.quits (no_listener hnone s) hwait (by simp [Socket.shut]) rfl) i
  | skipped hqueue hhere =>
    exact turn_same (no_listener (by simp [listener,hqueue]) i) _
  | relayed hqueue hhere =>
    exact turn_broadcast (no_listener (by simp [listener,hqueue])) _ _ i
  | sounded _ =>
    rw [sockets_deliver]
    exact turn_same (no_listener rfl i) _
  | @inspected s c first rest hqueue hc hphase =>
    have hwait : c.phase ≠ .listening := by rw [hphase]; decide
    have hnone : listener w .cmdRecv = none := by simp [listener,hqueue]
    unfold World.inspected
    split
    · refine turn_modify hc (fun i _ => no_listener hnone i) ?_ i
      have htrimmed : Phase.trimmed ≠ .listening := by decide
      exact .quits (no_listener hnone s) hwait htrimmed (still_send [.reload_required] c).dispatched
    · exact turn_modify hc (fun i _ => no_listener hnone i)
        (.quits (no_listener hnone s) hwait (by simp [Socket.enter]) rfl) i
  | @replayed s c entries rest hqueue hc hphase =>
    have hwait : c.phase ≠ .listening := by rw [hphase]; decide
    cases entries with
    | none =>
      have hnone : listener w .cmdRecv = none := by simp [listener,hqueue]
      exact turn_modify hc (fun i _ => no_listener hnone i)
        (.quits (no_listener hnone s) hwait (by simp [Socket.shut]) rfl) i
    | some entries =>
      have hsome : listener w .cmdRecv = some s := by simp [listener,hqueue]
      have hstill := still_send (replayFrames c.cursor entries) c
      rw [hsome]
      refine turn_modify hc (fun i hi heq => hi (Option.some.inj heq).symm) ?_ i
      exact .registers rfl hwait rfl hstill.received hstill.dispatched
  | settled hqueue =>
    exact turn_same (no_listener (by simp [listener,hqueue]) i) _
  | @fanned s e rest hqueue =>
    exact turn_broadcast (no_listener (by simp [listener,hqueue])) _ _ i
  | published _ =>
    rw [sockets_deliver]
    exact turn_same (no_listener rfl i) _
  | _ => exact turn_same (no_listener rfl i) _

/-! ## Runs -/

theorem waiting_step {a : Action} (h : Waiting w) (hs : step w a = some next) : Waiting next where
  sound := sound_next h.sound hs
  silent := by
    intro s c hc hphase
    have hturn := turn_step h.sound (step_stepped h.sound hs) s
    have hbefore := h.silent s
    rw [hc] at hturn
    generalize w.sockets s = o at hturn hbefore
    cases hturn with
    | fresh _ _ hdispatched => exact hdispatched
    | still _ hstill =>
      rw [hstill.dispatched]
      exact hbefore _ rfl (fun hlisten => hphase (hstill.listening.mpr hlisten))
    | @missed c raw _ hwait => exact hbefore c rfl hwait
    | heard _ hlisten => exact absurd hlisten hphase
    | quits _ hwait _ hdispatched => exact hdispatched.trans (hbefore _ rfl hwait)
    | registers _ _ hlisten => exact absurd hlisten hphase

/-- A step keeps every frame exactly when the connection whose listener it
registers has received nothing yet. -/
theorem lossless_step {a : Action} (h : Waiting w) (hl : Lossless w)
    (hs : step w a = some next) : Lossless next ↔ Quiet w a := by
  constructor
  · intro hnext s c hr hc
    have hturn := turn_step h.sound (step_stepped h.sound hs) s
    rw [hc,hr] at hturn
    have hafter := hnext s
    generalize next.sockets s = o at hturn hafter
    cases hturn with
    | still hne => exact absurd rfl hne
    | missed hne => exact absurd rfl hne
    | heard hne => exact absurd rfl hne
    | quits hne => exact absurd rfl hne
    | registers _ hwait hlisten hreceived hdispatched =>
      have hheard : Heard _ := hafter _ rfl hlisten
      rw [Heard,hreceived,hdispatched,h.silent s c hc hwait] at hheard
      exact hheard.symm
  · intro hquiet s c hc hlisten
    have hturn := turn_step h.sound (step_stepped h.sound hs) s
    have hbefore := hl s
    have hsilent := h.silent s
    have hq := hquiet s
    rw [hc] at hturn
    generalize w.sockets s = o at hturn hbefore hsilent hq
    cases hturn with
    | fresh _ hreceived hdispatched => rw [Heard,hreceived,hdispatched]; rfl
    | still _ hstill =>
      rw [Heard,hstill.received,hstill.dispatched]
      exact hbefore _ rfl (hstill.listening.mp hlisten)
    | missed _ hwait => exact absurd hlisten hwait
    | @heard c raw _ hphase =>
      rw [Heard,Socket.hear,List.filterMap_append,hbefore _ rfl hphase]
      cases hraw : parsed raw <;> simp [hraw]
    | quits _ _ hwait _ => exact absurd hlisten hwait
    | registers hr hwait _ hreceived hdispatched =>
      rw [Heard,hreceived,hdispatched,hsilent _ rfl hwait,hq _ hr rfl]

theorem waiting_start : Waiting {} := ⟨sound_start,fun _ _ hc => nomatch hc⟩

/-- In every run of the instance each frame that a connection receives is
dispatched once and in order, exactly when no message reaches a connection
before its listener. -/
theorem lossless_iff_quiet (actions : List Action) :
    Throughout step Lossless {} actions ↔ Along step Quiet {} actions :=
  throughout_iff_along (I := Waiting) (fun _ _ _ h hs => waiting_step h hs)
    (fun _ _ _ h hl hs => lossless_step h hl hs) waiting_start (fun _ _ hc => nomatch hc)

/-! ## A delta that waited for the open socket -/

theorem keystroke_texts : "7" ≠ "" ∧ "AA==" ≠ "" := by decide

def keystroke : ClientCrdtMessage := ⟨"7","AA==",keystroke_texts.1,keystroke_texts.2⟩

def flushed : List (Option Json) :=
  (clientRun {} [.send (.crdt keystroke),.opened]).2.map (fun msg => some (messageJson msg))

/-- The delta arrives while the handler still waits for the subscription. -/
theorem flushed_delta_is_lost : ¬ Throughout step Lossless {}
    (.connect 1 1 none::flushed.map (Action.frame 0)++[.subExec true,.subRecv]) := by
  intro h
  obtain ⟨w,hw⟩ : ∃ w, exec step {}
      (.connect 1 1 none::flushed.map (Action.frame 0)++[.subExec true,.subRecv]) = some w :=
    ⟨_,rfl⟩
  have hlost := throughout_iff_prefixes.mp h _ (List.prefix_refl _) w hw
  obtain ⟨c,hc,hlisten,hreceived,hdispatched⟩ : ∃ c, w.sockets 0 = some c ∧
      c.phase = .listening ∧ c.received = flushed ∧ c.dispatched = [] := by
    cases hw
    exact ⟨_,rfl,rfl,rfl,rfl⟩
  have hheard := hlost 0 c hc hlisten
  rw [Heard,hreceived,hdispatched] at hheard
  simp [flushed,clientRun,clientStep,WsClient.send,WsClient.opened,WsClient.flushSendQueue,
    parsed_message] at hheard

end BlockDocs.HandshakeFrames
