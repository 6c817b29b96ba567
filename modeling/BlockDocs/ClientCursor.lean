import BlockDocs.ClientSocket
import BlockDocs.GuardedRun
import BlockDocs.InFlight

/-!
# The cursor of a client

A page loads a snapshot, opens sockets with the cursor it has stored and reads
their frames, at any pace and in any order with the server's own steps. The
cursor follows the frame read last.
-/

set_option autoImplicit false

namespace BlockDocs.ClientCursor
open BlockDocs.Wire BlockDocs.WsServer BlockDocs.Connections BlockDocs.InFlight
open BlockDocs.ClientSocket BlockDocs.GuardedRun

structure BufferedDelta where
  blockId : String
  streamId : StreamId
  ts : ℕ

/-- `reading` tells how many frames of a connection were read, `applied` holds
the entries whose effect the page shows, `snapshot` is the `lastStreamId` of the
snapshot it was loaded from and `known` are the blocks of its registry. -/
structure Page where
  ws : WsClient := {}
  reading : SocketId → Option ℕ := fun _ => none
  applied : List StreamId := []
  snapshot : StreamId := zeroId
  known : List String := []
  buffered : List BufferedDelta := []

structure World where
  server : WsServer.World := {}
  page : Page := {}

/-- `load` brings a snapshot: the entries it shows, its `lastStreamId` and the
blocks it lists; `visit` opens the page again with the stored cursor. -/
inductive Action where
  | server (a : WsServer.Action)
  | opens (userId : UserId)
  | read (s : SocketId) (now : ℕ)
  | drops (s : SocketId)
  | load (included : List StreamId) (lastStreamId : StreamId) (blocks : List String)
  | ensure (blockId : String) (now : ℕ)
  | destroy (blockId : String)
  | visit

def bufferTtlMs : ℕ := 1000

/-- A block that becomes known takes the deltas that waited for it, but for the stale ones. -/
def Page.ensure (p : Page) (blockId : String) (now : ℕ) : Page :=
  if blockId ∈ p.known then p
  else { p with
    known := p.known++[blockId]
    applied := p.applied++(p.buffered.filter (fun d =>
      d.blockId = blockId ∧ now-d.ts ≤ bufferTtlMs)).map BufferedDelta.streamId
    buffered := p.buffered.filter (fun d => d.blockId ≠ blockId) }

def Page.destroy (p : Page) (blockId : String) : Page :=
  { p with
    known := p.known.filter (fun b => b ≠ blockId)
    buffered := p.buffered.filter (fun d => d.blockId ≠ blockId) }

def Page.clear (p : Page) : Page :=
  { p with applied := [], snapshot := zeroId, known := [], buffered := [] }

def Page.applyRemoteDelta (p : Page) (blockId : String) (streamId : StreamId) (now : ℕ) : Page :=
  if blockId ∈ p.known then { p with applied := p.applied++[streamId] }
  else { p with buffered := p.buffered++[⟨blockId,streamId,now⟩] }

def Page.heedOp (now : ℕ) (p : Page) (op : WireOp) : Page :=
  match op.op with
  | .insert_block => p.ensure (uuidText op.blockId) now
  | .delete_block => p.destroy (uuidText op.blockId)
  | _ => p

def Page.applyRemoteOps (p : Page) (ops : List WireOp) (streamId : StreamId) (now : ℕ) : Page :=
  ops.foldl (Page.heedOp now) { p with applied := p.applied++[streamId] }

def Page.onMessage (p : Page) (now : ℕ) : ServerMessage → Page
  | .remote_ops ops _ streamId => p.applyRemoteOps ops streamId now
  | .crdt msg _ streamId => p.applyRemoteDelta msg.blockId streamId now
  | .reload_required => p.clear
  | _ => p

/-- The client moves its cursor before it calls the listener. -/
def Page.receive (p : Page) (now : ℕ) (f : ServerMessage) : Page :=
  { p with ws := p.ws.track f }.onMessage now f

def Page.turned (p : Page) (s : SocketId) : Page :=
  { p with reading := fun i => if i = s then (p.reading i).map (· + 1) else p.reading i }

def Page.loaded (p : Page) (included : List StreamId) (lastStreamId : StreamId)
    (blocks : List String) : Page :=
  { p.clear with applied := included, snapshot := lastStreamId, known := blocks }

def nextFrame (w : World) (s : SocketId) : Option ServerMessage :=
  (w.page.reading s).bind (fun n => (w.server.sockets s).bind (fun c => c.sent[n]?))

def reached (w : World) (id : StreamId) : Bool :=
  id = zeroId || w.server.added.any (fun e => e.id = id)

def step (me : ClientId) (w : World) : Action → Option World
  | .server a => (WsServer.step w.server a).map (fun server => { w with server := server })
  | .opens userId =>
    (WsServer.step w.server (.connect me userId w.page.ws.lastStreamId)).map (fun server =>
      { server := server, page := { w.page with
        reading := fun s => if s = w.server.next then some 0 else w.page.reading s } })
  | .read s now =>
    (nextFrame w s).map (fun f => { w with page := (w.page.receive now f).turned s })
  | .drops s => some { w with page := { w.page with
      reading := fun i => if i = s then none else w.page.reading i } }
  | .load included lastStreamId blocks =>
    if reached w lastStreamId then
      some { w with page := w.page.loaded included lastStreamId blocks }
    else none
  | .ensure blockId now => some { w with page := w.page.ensure blockId now }
  | .destroy blockId => some { w with page := w.page.destroy blockId }
  | .visit => some { w with page := { ws := { lastStreamId := w.page.ws.lastStreamId } } }

/-! ## The cursor and what is missing -/

/-- Every entry of another client up to the cursor was included or applied. -/
def NoSkip (me : ClientId) (w : World) : Prop :=
  ∀ k, w.page.ws.lastStreamId = some k → ∀ e ∈ w.server.added, e.author ≠ me → e.id ≤ k →
    e.id ∈ w.page.applied

structure Missing (me : ClientId) (w : World) (e : Entry) : Prop where
  added : e ∈ w.server.added
  foreign : e.author ≠ me
  absent : e.id ∉ w.page.applied

/-- The frame leaves no missing entry behind: none lies before the entry it
carries, and none at or before an id that it only reports. -/
def Heeds (me : ClientId) (w : World) : ServerMessage → Prop
  | .hello _ k => w.page.ws.lastStreamId = none → ∀ e, Missing me w e → k < e.id
  | .crdt msg _ k => (∀ e, Missing me w e → k ≤ e.id) ∧
      (msg.blockId ∈ w.page.known ∨ ∀ e, Missing me w e → e.id ≠ k)
  | .remote_ops _ _ k => ∀ e, Missing me w e → k ≤ e.id
  | .replay_done k => ∀ e, Missing me w e → k < e.id
  | .reload_required => True

variable {me : ClientId} {w next : World} {e : Entry}

theorem noSkip_iff : NoSkip me w ↔
    ∀ k, w.page.ws.lastStreamId = some k → ∀ e, Missing me w e → k < e.id := by
  constructor
  · intro h k hk e he
    by_contra hlt
    exact he.absent (h k hk e he.added he.foreign (not_lt.mp hlt))
  · intro h k hk e hadded hforeign hle
    by_contra habsent
    exact absurd hle (not_le.mpr (h k hk e ⟨hadded,hforeign,habsent⟩))

/-! ## Where ids come from -/

def Given (w : WsServer.World) (k : StreamId) : Prop := k = zeroId ∨ ∃ e ∈ w.added, e.id = k

theorem load_step {included : List StreamId} {lastStreamId : StreamId} {blocks : List String}
    (hs : step me w (.load included lastStreamId blocks) = some next) :
    Given w.server lastStreamId ∧
      next = { w with page := w.page.loaded included lastStreamId blocks } := by
  rw [step] at hs
  split at hs
  · next hgiven =>
    cases hs
    simpa [reached,Given] using hgiven
  · cases hs

structure Grounded (w : World) : Prop where
  sound : Sound w.server
  origins : Origins w.server
  cursor : ∀ k, w.page.ws.lastStreamId = some k → Given w.server k
  reading : ∀ s n, w.page.reading s = some n →
    ∃ c, w.server.sockets s = some c ∧ Given w.server c.cursor
  buffered : ∀ d ∈ w.page.buffered, Given w.server d.streamId

def Flushed (me : ClientId) (w : World) : Prop :=
  ∀ d ∈ w.page.buffered, ∀ e, Missing me w e → e.id ≠ d.streamId

theorem given_stays {v v' : WsServer.World} {a : WsServer.Action} (hs : Stepped v a v')
    {k : StreamId} (h : Given v k) : Given v' k :=
  h.imp (fun h => h) (fun ⟨e,he,hid⟩ => ⟨e,added_stays hs he,hid⟩)

theorem given_fresh {v : WsServer.World} {id k : StreamId} (h : Given v k)
    (hfresh : v.fresh id = true) : k < id := by
  simp only [World.fresh,Bool.and_eq_true,List.all_eq_true,decide_eq_true_eq] at hfresh
  rcases h with rfl | ⟨e,he,rfl⟩
  · exact hfresh.1
  · exact hfresh.2 e he

theorem frame_given (h : Grounded w) {s : SocketId} {f : ServerMessage}
    (hf : nextFrame w s = some f) {k : StreamId} (hk : frameId f = some k) : Given w.server k := by
  obtain ⟨n,hn,hf⟩ := Option.bind_eq_some_iff.mp hf
  obtain ⟨c,hc,hf⟩ := Option.bind_eq_some_iff.mp hf
  obtain ⟨d,hd,hcursor⟩ := h.reading s n hn
  cases hc.symm.trans hd
  rcases h.origins.sent s c hc f (List.mem_of_getElem? hf) k hk with rfl | hadded
  · exact hcursor
  · exact Or.inr hadded

theorem track_given (h : Grounded w) {s : SocketId} {f : ServerMessage}
    (hf : nextFrame w s = some f) {k : StreamId}
    (hk : (w.page.ws.track f).lastStreamId = some k) : Given w.server k := by
  cases f with
  | hello userId last =>
    simp only [WsClient.track] at hk
    split at hk
    · exact Option.some.inj hk ▸ frame_given h hf rfl
    · exact h.cursor k hk
  | crdt msg userId streamId => exact Option.some.inj hk ▸ frame_given h hf rfl
  | remote_ops ops userId streamId => exact Option.some.inj hk ▸ frame_given h hf rfl
  | replay_done streamId => exact Option.some.inj hk ▸ frame_given h hf rfl
  | reload_required => cases hk

/-! ## What the registry does -/

structure Grown (p p' : Page) : Prop where
  ws : p'.ws = p.ws
  reading : p'.reading = p.reading
  snapshot : p'.snapshot = p.snapshot
  kept : ∀ k ∈ p.applied, k ∈ p'.applied
  flushed : ∀ k ∈ p'.applied, k ∈ p.applied ∨ ∃ d ∈ p.buffered, d.streamId = k
  buffered : ∀ d ∈ p'.buffered, d ∈ p.buffered

theorem Grown.refl (p : Page) : Grown p p :=
  ⟨rfl,rfl,rfl,fun _ h => h,fun _ h => Or.inl h,fun _ h => h⟩

theorem Grown.trans {p q r : Page} (h : Grown p q) (h' : Grown q r) : Grown p r where
  ws := h'.ws.trans h.ws
  reading := h'.reading.trans h.reading
  snapshot := h'.snapshot.trans h.snapshot
  kept := fun k hk => h'.kept k (h.kept k hk)
  flushed := by
    intro k hk
    rcases h'.flushed k hk with hk | ⟨d,hd,hid⟩
    · exact h.flushed k hk
    · exact Or.inr ⟨d,h.buffered d hd,hid⟩
  buffered := fun d hd => h.buffered d (h'.buffered d hd)

theorem grown_ensure (p : Page) (blockId : String) (now : ℕ) : Grown p (p.ensure blockId now) := by
  unfold Page.ensure
  split
  · exact .refl p
  · refine ⟨rfl,rfl,rfl,fun k hk => List.mem_append_left _ hk,fun k hk => ?_,
      fun d hd => (List.mem_filter.mp hd).1⟩
    rcases List.mem_append.mp hk with hk | hk
    · exact Or.inl hk
    · obtain ⟨d,hd,hid⟩ := List.mem_map.mp hk
      exact Or.inr ⟨d,(List.mem_filter.mp hd).1,hid⟩

theorem grown_destroy (p : Page) (blockId : String) : Grown p (p.destroy blockId) :=
  ⟨rfl,rfl,rfl,fun _ h => h,fun _ h => Or.inl h,fun _ hd => (List.mem_filter.mp hd).1⟩

theorem grown_heedOp (now : ℕ) (p : Page) (op : WireOp) : Grown p (p.heedOp now op) := by
  unfold Page.heedOp
  split
  · exact grown_ensure p _ now
  · exact grown_destroy p _
  · exact .refl p

theorem grown_fold (now : ℕ) (p : Page) (ops : List WireOp) :
    Grown p (ops.foldl (Page.heedOp now) p) := by
  induction ops generalizing p with
  | nil => exact .refl p
  | cons op ops ih => exact (grown_heedOp now p op).trans (ih (p.heedOp now op))

def heeded (last : Option StreamId) : ServerMessage → Option StreamId
  | .hello _ k => last.or (some k)
  | .crdt _ _ k => some k
  | .remote_ops _ _ k => some k
  | .replay_done k => some k
  | .reload_required => none

theorem track_last (c : WsClient) (f : ServerMessage) :
    (c.track f).lastStreamId = heeded c.lastStreamId f := by
  cases f with
  | hello userId k =>
    simp only [WsClient.track,heeded]
    cases hlast : c.lastStreamId <;> simp [hlast]
  | _ => rfl

theorem receive_last (p : Page) (now : ℕ) (f : ServerMessage) :
    (p.receive now f).ws.lastStreamId = heeded p.ws.lastStreamId f := by
  rw [← track_last]
  cases f with
  | crdt msg userId k =>
    simp only [Page.receive,Page.onMessage,Page.applyRemoteDelta]
    split <;> rfl
  | remote_ops ops userId k => exact congrArg WsClient.lastStreamId (grown_fold now _ ops).ws
  | _ => rfl

theorem receive_reading (p : Page) (now : ℕ) (f : ServerMessage) :
    (p.receive now f).reading = p.reading := by
  cases f with
  | crdt msg userId k =>
    simp only [Page.receive,Page.onMessage,Page.applyRemoteDelta]
    split <;> rfl
  | remote_ops ops userId k => exact (grown_fold now _ ops).reading
  | _ => rfl

theorem receive_snapshot (p : Page) (now : ℕ) {f : ServerMessage} (hf : f ≠ .reload_required) :
    (p.receive now f).snapshot = p.snapshot := by
  cases f with
  | crdt msg userId k =>
    simp only [Page.receive,Page.onMessage,Page.applyRemoteDelta]
    split <;> rfl
  | remote_ops ops userId k => exact (grown_fold now _ ops).snapshot
  | hello userId k => rfl
  | replay_done k => rfl
  | reload_required => exact absurd rfl hf

def carried : ServerMessage → Option StreamId
  | .crdt _ _ k => some k
  | .remote_ops _ _ k => some k
  | _ => none

/-- What reading a frame adds to the applied entries and to the buffer. -/
theorem receive_applied (p : Page) (now : ℕ) (f : ServerMessage) {k : StreamId}
    (hk : k ∈ (p.receive now f).applied) :
    k ∈ p.applied ∨ carried f = some k ∨ ∃ d ∈ p.buffered, d.streamId = k := by
  cases f with
  | crdt msg userId streamId =>
    simp only [Page.receive,Page.onMessage,Page.applyRemoteDelta] at hk
    split at hk
    · rcases List.mem_append.mp hk with hk | hk
      · exact Or.inl hk
      · exact Or.inr (Or.inl (congrArg some (List.mem_singleton.mp hk).symm))
    · exact Or.inl hk
  | remote_ops ops userId streamId =>
    rcases (grown_fold now _ ops).flushed k hk with hk | hd
    · rcases List.mem_append.mp hk with hk | hk
      · exact Or.inl hk
      · exact Or.inr (Or.inl (congrArg some (List.mem_singleton.mp hk).symm))
    · exact Or.inr (Or.inr hd)
  | hello userId streamId => exact Or.inl hk
  | replay_done streamId => exact Or.inl hk
  | reload_required => cases hk

theorem receive_buffered (p : Page) (now : ℕ) (f : ServerMessage) {d : BufferedDelta}
    (hd : d ∈ (p.receive now f).buffered) :
    d ∈ p.buffered ∨ frameId f = some d.streamId ∧ heeded p.ws.lastStreamId f = some d.streamId := by
  cases f with
  | crdt msg userId streamId =>
    simp only [Page.receive,Page.onMessage,Page.applyRemoteDelta] at hd
    split at hd
    · exact Or.inl hd
    · rcases List.mem_append.mp hd with hd | hd
      · exact Or.inl hd
      · rw [List.mem_singleton.mp hd]
        exact Or.inr ⟨rfl,rfl⟩
  | remote_ops ops userId streamId =>
    have hold := (grown_fold now _ ops).buffered d hd
    exact Or.inl hold
  | hello userId streamId => exact Or.inl hd
  | replay_done streamId => exact Or.inl hd
  | reload_required => cases hd

theorem receive_kept (p : Page) (now : ℕ) {f : ServerMessage} (hf : f ≠ .reload_required)
    {k : StreamId} (hk : k ∈ p.applied) : k ∈ (p.receive now f).applied := by
  cases f with
  | crdt msg userId streamId =>
    simp only [Page.receive,Page.onMessage,Page.applyRemoteDelta]
    split
    · exact List.mem_append_left _ hk
    · exact hk
  | remote_ops ops userId streamId =>
    exact (grown_fold now _ ops).kept k (List.mem_append_left _ hk)
  | hello userId streamId => exact hk
  | replay_done streamId => exact hk
  | reload_required => exact absurd rfl hf

/-! ## Ids in every run -/

theorem grounded_server (h : Grounded w) {a : WsServer.Action} {server : WsServer.World}
    {page : Page} (hs : WsServer.step w.server a = some server)
    (hlast : page.ws.lastStreamId = w.page.ws.lastStreamId)
    (hreading : ∀ s n, page.reading s = some n → w.page.reading s = some n ∨
      ∃ c, server.sockets s = some c ∧ Given server c.cursor)
    (hbuffered : page.buffered = w.page.buffered) : Grounded ⟨server,page⟩ where
  sound := sound_next h.sound hs
  origins := origins_step h.sound h.origins (step_stepped h.sound hs)
  cursor := fun k hk => given_stays (step_stepped h.sound hs) (h.cursor k (hlast ▸ hk))
  reading := by
    intro s n hn
    rcases hreading s n hn with hn | hnew
    · obtain ⟨c,hc,hcursor⟩ := h.reading s n hn
      have hstepped := step_stepped h.sound hs
      rcases sockets_step hstepped s with hev | ⟨rfl,_⟩
      · rw [hc] at hev
        generalize server.sockets s = o at hev
        cases hev with
        | @some _ c' hl =>
          refine ⟨c',rfl,?_⟩
          rw [Socket.cursor,hl.since]
          exact given_stays hstepped hcursor
      · rw [h.sound.unused _ (le_refl _)] at hc
        cases hc
    · exact hnew
  buffered := fun d hd => given_stays (step_stepped h.sound hs) (h.buffered d (hbuffered ▸ hd))

theorem grounded_page (h : Grounded w) {page : Page}
    (hlast : ∀ k, page.ws.lastStreamId = some k → Given w.server k)
    (hreading : ∀ s n, page.reading s = some n → ∃ m, w.page.reading s = some m)
    (hbuffered : ∀ d ∈ page.buffered, Given w.server d.streamId) :
    Grounded { w with page := page } where
  sound := h.sound
  origins := h.origins
  cursor := hlast
  reading := fun s n hn => by
    obtain ⟨m,hm⟩ := hreading s n hn
    exact h.reading s m hm
  buffered := hbuffered

theorem turned_reading {p : Page} {s i : SocketId} {n : ℕ} (h : (p.turned s).reading i = some n) :
    ∃ m, p.reading i = some m := by
  simp only [Page.turned] at h
  split at h
  · obtain ⟨m,hm,_⟩ := Option.map_eq_some_iff.mp h
    exact ⟨m,hm⟩
  · exact ⟨n,h⟩

theorem grounded_step {a : Action} (h : Grounded w) (hs : step me w a = some next) :
    Grounded next := by
  cases a with
  | server a =>
    obtain ⟨server,hserver,rfl⟩ := Option.map_eq_some_iff.mp hs
    exact grounded_server h hserver rfl (fun s n hn => Or.inl hn) rfl
  | opens userId =>
    rw [step] at hs
    obtain ⟨server,hserver,rfl⟩ := Option.map_eq_some_iff.mp hs
    refine grounded_server h hserver rfl (fun s n hn => ?_) rfl
    simp only at hn
    split at hn
    · next hnew =>
      have hstepped := step_stepped h.sound hserver
      obtain ⟨c,hc,hsince⟩ := connected_socket hstepped
      refine Or.inr ⟨c,hnew ▸ hc,?_⟩
      rw [Socket.cursor,hsince]
      cases hlast : w.page.ws.lastStreamId with
      | none => exact Or.inl rfl
      | some k => exact given_stays hstepped (h.cursor k hlast)
    · exact Or.inl hn
  | read s now =>
    obtain ⟨f,hf,rfl⟩ := Option.map_eq_some_iff.mp hs
    refine grounded_page h (fun k hk => ?_) (fun i n hn => ?_) (fun d hd => ?_)
    · have hk' : heeded w.page.ws.lastStreamId f = some k := receive_last w.page now f ▸ hk
      rw [← track_last] at hk'
      exact track_given h hf hk'
    · have hr := turned_reading hn
      rwa [receive_reading] at hr
    · rcases receive_buffered w.page now f hd with hd | ⟨hid,_⟩
      · exact h.buffered d hd
      · exact frame_given h hf hid
  | drops s =>
    cases hs
    refine grounded_page h h.cursor (fun i n hn => ?_) h.buffered
    simp only at hn
    split at hn
    · cases hn
    · exact ⟨n,hn⟩
  | load included lastStreamId blocks =>
    obtain ⟨_,rfl⟩ := load_step hs
    exact grounded_page h h.cursor (fun i n hn => ⟨n,hn⟩) (fun d hd => absurd hd List.not_mem_nil)
  | ensure blockId now =>
    cases hs
    have hgrown := grown_ensure w.page blockId now
    exact grounded_page h (fun k hk => h.cursor k (hgrown.ws ▸ hk))
      (fun i n hn => ⟨n,hgrown.reading ▸ hn⟩) (fun d hd => h.buffered d (hgrown.buffered d hd))
  | destroy blockId =>
    cases hs
    have hgrown := grown_destroy w.page blockId
    exact grounded_page h h.cursor (fun i n hn => ⟨n,hn⟩)
      (fun d hd => h.buffered d (hgrown.buffered d hd))
  | visit =>
    cases hs
    refine grounded_page h h.cursor (fun i n hn => ?_) (fun d hd => absurd hd List.not_mem_nil)
    cases hn

/-! ## What a step leaves missing -/

theorem missing_server (h : Grounded w) {a : WsServer.Action} {server : WsServer.World}
    {page : Page} (hs : WsServer.step w.server a = some server)
    (he : Missing me ⟨server,page⟩ e) (happlied : page.applied = w.page.applied) :
    Missing me w e ∨ w.server.fresh e.id = true := by
  have hadded := he.added
  rcases added_grows (step_stepped h.sound hs) with heq | ⟨d,heq,hfresh⟩
  · rw [heq] at hadded
    exact Or.inl ⟨hadded,he.foreign,happlied ▸ he.absent⟩
  · rw [heq] at hadded
    rcases List.mem_append.mp hadded with hadded | hadded
    · exact Or.inl ⟨hadded,he.foreign,happlied ▸ he.absent⟩
    · rw [List.mem_singleton.mp hadded]
      exact Or.inr hfresh

theorem missing_page {page : Page} (he : Missing me { w with page := page } e)
    (hkept : ∀ k ∈ w.page.applied, k ∈ page.applied) : Missing me w e :=
  ⟨he.added,he.foreign,fun h => he.absent (hkept _ h)⟩

/-- While the cursor skips nothing, no missing entry waits in the buffer. -/
theorem flushed_step {a : Action} (h : Grounded w) (hj : Flushed me w)
    (hs : step me w a = some next) (hnext : NoSkip me next) : Flushed me next := by
  intro d hd e he
  cases a with
  | server a =>
    obtain ⟨server,hserver,rfl⟩ := Option.map_eq_some_iff.mp hs
    rcases missing_server h hserver he rfl with he | hfresh
    · exact hj d hd e he
    · exact (given_fresh (h.buffered d hd) hfresh).ne'
  | opens userId =>
    rw [step] at hs
    obtain ⟨server,hserver,rfl⟩ := Option.map_eq_some_iff.mp hs
    rcases missing_server h hserver he rfl with he | hfresh
    · exact hj d hd e he
    · exact (given_fresh (h.buffered d hd) hfresh).ne'
  | read s now =>
    obtain ⟨f,hf,rfl⟩ := Option.map_eq_some_iff.mp hs
    rcases receive_buffered w.page now f hd with hold | ⟨_,hid⟩
    · have hreload : f ≠ .reload_required := by
        rintro rfl
        cases hd
      exact hj d hold e (missing_page he (fun k hk => receive_kept w.page now hreload hk))
    · have hcursor : ((w.page.receive now f).turned s).ws.lastStreamId = some d.streamId :=
        (receive_last w.page now f).trans hid
      exact (noSkip_iff.mp hnext d.streamId hcursor e he).ne'
  | drops s =>
    cases hs
    exact hj d hd e ⟨he.added,he.foreign,he.absent⟩
  | load included lastStreamId blocks =>
    obtain ⟨_,rfl⟩ := load_step hs
    cases hd
  | ensure blockId now =>
    cases hs
    have hgrown := grown_ensure w.page blockId now
    exact hj d (hgrown.buffered d hd) e (missing_page he hgrown.kept)
  | destroy blockId =>
    cases hs
    have hgrown := grown_destroy w.page blockId
    exact hj d (hgrown.buffered d hd) e (missing_page he hgrown.kept)
  | visit =>
    cases hs
    cases hd

theorem noSkip_server (h : Grounded w) (hw : NoSkip me w) {a : WsServer.Action}
    {server : WsServer.World} {page : Page} (hs : WsServer.step w.server a = some server)
    (hlast : page.ws.lastStreamId = w.page.ws.lastStreamId)
    (happlied : page.applied = w.page.applied) : NoSkip me ⟨server,page⟩ := by
  refine noSkip_iff.mpr fun k hk e he => ?_
  have hk' : w.page.ws.lastStreamId = some k := hlast ▸ hk
  rcases missing_server h hs he happlied with he | hfresh
  · exact noSkip_iff.mp hw k hk' e he
  · exact given_fresh (h.cursor k hk') hfresh

theorem noSkip_grown (hw : NoSkip me w) {page : Page} (hgrown : Grown w.page page) :
    NoSkip me { w with page := page } :=
  noSkip_iff.mpr fun k hk e he =>
    noSkip_iff.mp hw k (hgrown.ws ▸ hk) e (missing_page he hgrown.kept)

/-- What is missing after a frame was missing before, and the frame did not bring it. -/
theorem missing_received (hj : Flushed me w) {s : SocketId} {now : ℕ} {f : ServerMessage}
    (he : Missing me w e) (hcarried : carried f ≠ some e.id) :
    Missing me { w with page := (w.page.receive now f).turned s } e := by
  refine ⟨he.added,he.foreign,fun h => ?_⟩
  rcases receive_applied w.page now f h with hk | hk | ⟨d,hd,hk⟩
  · exact he.absent hk
  · exact hcarried hk
  · exact hj d hd e he hk.symm

/-- Reading a frame skips nothing exactly when the frame leaves nothing behind. -/
theorem noSkip_read (hw : NoSkip me w) (hj : Flushed me w) {s : SocketId} {now : ℕ}
    {f : ServerMessage} :
    NoSkip me { w with page := (w.page.receive now f).turned s } ↔ Heeds me w f := by
  have hcursor : ((w.page.receive now f).turned s).ws.lastStreamId =
      heeded w.page.ws.lastStreamId f := receive_last w.page now f
  have hkept : ∀ e, f ≠ .reload_required →
      Missing me { w with page := (w.page.receive now f).turned s } e → Missing me w e :=
    fun e hf he => missing_page he (fun k hk => receive_kept w.page now hf hk)
  rw [noSkip_iff,hcursor]
  cases f with
  | hello userId k =>
    cases hlast : w.page.ws.lastStreamId with
    | none =>
      constructor
      · exact fun h _ e he => h k rfl e (missing_received hj he nofun)
      · intro h l hl e he
        cases hl
        exact h hlast e (hkept e nofun he)
    | some last =>
      have hbefore := noSkip_iff.mp hw last hlast
      refine iff_of_true (fun l hl e he => ?_) (fun hnone => nomatch hlast.symm.trans hnone)
      cases hl
      exact hbefore e (hkept e nofun he)
  | crdt msg userId k =>
    by_cases hknown : msg.blockId ∈ w.page.known
    · constructor
      · refine fun h => ⟨fun e he => ?_,Or.inl hknown⟩
        by_cases hid : e.id = k
        · exact hid.ge
        · have hcarried : carried (.crdt msg userId k) ≠ some e.id :=
            fun heq => hid (Option.some.inj heq).symm
          exact (h k rfl e (missing_received hj he hcarried)).le
      · intro h l hl e he
        cases hl
        refine lt_of_le_of_ne (h.1 e (hkept e nofun he)) (fun hid => he.absent ?_)
        simp [Page.turned,Page.receive,Page.onMessage,Page.applyRemoteDelta,hknown,hid]
    · have hsame : (w.page.receive now (.crdt msg userId k)).applied = w.page.applied := by
        simp [Page.receive,Page.onMessage,Page.applyRemoteDelta,hknown]
      constructor
      · intro h
        have hbelow : ∀ e, Missing me w e → k < e.id := fun e he =>
          h k rfl e ⟨he.added,he.foreign,fun h => he.absent (hsame ▸ h)⟩
        exact ⟨fun e he => (hbelow e he).le,Or.inr (fun e he => (hbelow e he).ne')⟩
      · intro h l hl e he
        cases hl
        have hbefore := hkept e nofun he
        exact lt_of_le_of_ne (h.1 e hbefore) ((h.2.resolve_left hknown) e hbefore).symm
  | remote_ops ops userId k =>
    constructor
    · intro h e he
      by_cases hid : e.id = k
      · exact hid.ge
      · have hcarried : carried (.remote_ops ops userId k) ≠ some e.id :=
          fun heq => hid (Option.some.inj heq).symm
        exact (h k rfl e (missing_received hj he hcarried)).le
    · intro h l hl e he
      cases hl
      refine lt_of_le_of_ne (h e (hkept e nofun he)) (fun hid => he.absent ?_)
      exact (grown_fold now _ ops).kept _ (hid ▸ List.mem_append_right _ List.mem_cons_self)
  | replay_done k =>
    constructor
    · exact fun h e he => h k rfl e (missing_received hj he nofun)
    · intro h l hl e he
      cases hl
      exact h e (hkept e nofun he)
  | reload_required => exact iff_of_true (fun k hk => nomatch hk) trivial

theorem grounded_start : Grounded {} where
  sound := sound_start
  origins := origins_start
  cursor := nofun
  reading := nofun
  buffered := nofun

/-! ## An entry between the snapshot and the socket -/

def entry (ms : ℕ) : Entry := ⟨toLex (ms,0),3,3,false,.ops []⟩

/-- The page has no cursor before its first frame, so nothing is replayed to it:
the first entry misses both the snapshot and the subscription, the second one
comes live. -/
def firstVisit : List Action :=
  [.load [] zeroId [],.server (.xadd (entry 1)),.server (.publish 0),.opens 1,.server (.subExec true),
    .server .subRecv,.server (.xadd (entry 2)),.server (.publish 0),.server .subRecv,
    .read 0 0,.read 0 0]

theorem first_visit_skips : ¬ Throughout (step 1) (NoSkip 1) {} firstVisit := by
  intro h
  obtain ⟨w,hw⟩ : ∃ w, exec (step 1) {} firstVisit = some w := ⟨_,rfl⟩
  have hfacts : w.page.ws.lastStreamId = some (toLex (2,0)) ∧ entry 1 ∈ w.server.added ∧
      w.page.applied = [toLex (2,0)] := by
    cases hw
    exact ⟨rfl,List.mem_cons_self,rfl⟩
  have hskip := throughout_iff_prefixes.mp h _ (List.prefix_refl _) w hw (toLex (2,0)) hfacts.1
    (entry 1) hfacts.2.1 (by decide) (by decide)
  rw [hfacts.2.2] at hskip
  exact absurd hskip (by decide)

end BlockDocs.ClientCursor
