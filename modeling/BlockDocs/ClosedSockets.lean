import BlockDocs.RoomRegistry
import BlockDocs.WsServer

/-!
# Closed sockets and their rooms

The connection handler joins the room first and attaches its close listener
last. The close event of a socket comes once, at any moment, and is lost where
nobody listens.
-/

set_option autoImplicit false

namespace BlockDocs.ClosedSockets
open BlockDocs.Wire BlockDocs.GuardedRun
open BlockDocs.RoomRegistry (Registry SocketId join_rooms leave_rooms)
open BlockDocs.WsServer (Phase replayStart)

structure Connection where
  docId : DocId
  sinceStreamId : Option StreamId
  phase : Phase
  isClosed : Bool := false

structure World where
  registry : Registry := {}
  sockets : SocketId → Option Connection := fun _ => none

inductive Action where
  | connect (ws : SocketId) (docId : DocId) (sinceStreamId : Option StreamId)
  | subscribed (ws : SocketId) (ok : Bool)
  | inspected (ws : SocketId) (trimmed : Bool)
  | ranged (ws : SocketId) (ok : Bool)
  | close (ws : SocketId)
  | redis (ok : Bool)

def World.put (w : World) (ws : SocketId) (c : Connection) : World :=
  { w with sockets := fun i => if i = ws then some c else w.sockets i }

/-- `join` comes back at once unless it subscribes. -/
def World.connect (w : World) (ws : SocketId) (docId : DocId)
    (sinceStreamId : Option StreamId) : World :=
  let phase := if w.registry.rooms docId = [] then .joining
    else (replayStart ws sinceStreamId).1
  { w with registry := w.registry.join docId ws }.put ws ⟨docId,sinceStreamId,phase,false⟩

/-- The handler goes on after an answer, whatever has become of the socket. -/
def World.resume (w : World) (ws : SocketId) (awaited next : Phase) : Option World :=
  match w.sockets ws with
  | none => none
  | some c => if c.phase = awaited then some (w.put ws { c with phase := next }) else none

def sinceOf (w : World) (ws : SocketId) : Option StreamId :=
  (w.sockets ws).bind Connection.sinceStreamId

def World.closed (w : World) (ws : SocketId) (c : Connection) : World :=
  let w' := w.put ws { c with isClosed := true }
  if c.phase = .listening then { w' with registry := w.registry.leave c.docId ws } else w'

def step (w : World) : Action → Option World
  | .connect ws docId sinceStreamId =>
    match w.sockets ws with
    | some _ => none
    | none => some (w.connect ws docId sinceStreamId)
  | .subscribed ws ok =>
    w.resume ws .joining (if ok then (replayStart ws (sinceOf w ws)).1 else .failed)
  | .inspected ws trimmed => w.resume ws .inspecting (if trimmed then .trimmed else .ranging)
  | .ranged ws ok => w.resume ws .ranging (if ok then .listening else .failed)
  | .close ws =>
    match w.sockets ws with
    | none => none
    | some c => if c.isClosed then none else some (w.closed ws c)
  | .redis ok =>
    (RoomRegistry.step w.registry (.redis ok)).map (fun r => { w with registry := r })

def Gone (w : World) : Prop :=
  ∀ ws c, w.sockets ws = some c → c.isClosed = true → ∀ d, ws ∉ w.registry.rooms d

/-- The close event finds its listener attached. -/
def Attached (w : World) : Action → Prop
  | .close ws => ∀ c, w.sockets ws = some c → c.phase = .listening
  | _ => True

structure Placed (w : World) : Prop where
  own : ∀ ws d, ws ∈ w.registry.rooms d → ∃ c, w.sockets ws = some c ∧ c.docId = d
  stays : ∀ ws c, w.sockets ws = some c → c.isClosed = false → ws ∈ w.registry.rooms c.docId

variable {w next : World} {ws ws' : SocketId} {c : Connection} {a : Action} {d : DocId}

/-! ## What a step does -/

theorem sockets_put : (w.put ws c).sockets ws' = if ws' = ws then some c else w.sockets ws' := rfl

theorem mem_join {r : Registry} {docId : DocId} : ws' ∈ (r.join docId ws).rooms d ↔
    ws' ∈ r.rooms d ∨ d = docId ∧ ws' = ws := by
  rw [join_rooms]
  by_cases hd : d = docId
  · subst hd
    rw [if_pos rfl]
    by_cases hmem : ws ∈ r.rooms d
    · rw [if_pos hmem]
      constructor
      · exact Or.inl
      · rintro (h | ⟨-,rfl⟩)
        · exact h
        · exact hmem
    · rw [if_neg hmem,List.mem_append,List.mem_singleton]
      simp only [true_and]
  · rw [if_neg hd]
    exact ⟨Or.inl,fun h => h.resolve_right (fun hin => hd hin.1)⟩

theorem mem_leave {r : Registry} {docId : DocId} : ws' ∈ (r.leave docId ws).rooms d ↔
    ws' ∈ r.rooms d ∧ (d = docId → ws' ≠ ws) := by
  rw [leave_rooms]
  by_cases hd : d = docId
  · subst hd
    rw [if_pos rfl,List.mem_filter,decide_eq_true_eq]
    simp only [true_imp_iff]
  · rw [if_neg hd]
    exact ⟨fun h => ⟨h,fun heq => absurd heq hd⟩,And.left⟩

theorem redis_rooms {r t : Registry} {ok : Bool}
    (h : RoomRegistry.step r (.redis ok) = some t) : t.rooms = r.rooms := by
  cases hqueue : r.outstanding with
  | nil =>
    rw [RoomRegistry.step,hqueue] at h
    cases h
  | cons c rest =>
    rw [RoomRegistry.step,hqueue] at h
    cases c <;> cases ok <;> exact (Option.some.inj h) ▸ rfl

inductive Stepped (w : World) : Action → World → Prop where
  | connect (ws : SocketId) (docId : DocId) (sinceStreamId : Option StreamId)
      (hnew : w.sockets ws = none) :
      Stepped w (.connect ws docId sinceStreamId) (w.connect ws docId sinceStreamId)
  | resumed {a : Action} {ws : SocketId} {c : Connection} (hc : w.sockets ws = some c)
      (phase : Phase) (ha : ∀ ws, a ≠ .close ws) : Stepped w a (w.put ws { c with phase := phase })
  | heard {ws : SocketId} {c : Connection} (hc : w.sockets ws = some c)
      (hopen : c.isClosed = false) (hphase : c.phase = .listening) :
      Stepped w (.close ws) { w.put ws { c with isClosed := true } with
        registry := w.registry.leave c.docId ws }
  | lost {ws : SocketId} {c : Connection} (hc : w.sockets ws = some c)
      (hopen : c.isClosed = false) (hphase : c.phase ≠ .listening) :
      Stepped w (.close ws) (w.put ws { c with isClosed := true })
  | redis {ok : Bool} {r : Registry} (hrooms : r.rooms = w.registry.rooms) :
      Stepped w (.redis ok) { w with registry := r }

theorem stepped_resume {awaited phase : Phase} (ha : ∀ ws, a ≠ .close ws)
    (h : w.resume ws awaited phase = some next) : Stepped w a next := by
  unfold World.resume at h
  split at h
  · cases h
  · next c hc =>
    split at h
    · obtain rfl := Option.some.inj h
      exact .resumed hc phase ha
    · cases h

theorem stepped (h : step w a = some next) : Stepped w a next := by
  cases a with
  | connect ws docId sinceStreamId =>
    rw [step] at h
    split at h
    · cases h
    · next hnew =>
      obtain rfl := Option.some.inj h
      exact .connect ws docId sinceStreamId hnew
  | subscribed ws ok => exact stepped_resume nofun h
  | inspected ws trimmed => exact stepped_resume nofun h
  | ranged ws ok => exact stepped_resume nofun h
  | close ws =>
    rw [step] at h
    split at h
    · cases h
    · next c hc =>
      split at h
      · cases h
      · next hopen =>
        obtain rfl := Option.some.inj h
        unfold World.closed
        dsimp only
        split
        · next hphase => exact .heard hc (by simpa using hopen) hphase
        · next hphase => exact .lost hc (by simpa using hopen) hphase
  | redis ok =>
    obtain ⟨r,hr,rfl⟩ := Option.map_eq_some_iff.mp h
    exact .redis (redis_rooms hr)

/-! ## Members -/

theorem placed_put {c' : Connection} (h : Placed w) (hc : w.sockets ws = some c)
    (hdoc : c'.docId = c.docId) (hopen : c'.isClosed = false → c.isClosed = false) :
    Placed (w.put ws c') := by
  constructor
  · intro i d hmem
    obtain ⟨k,hk,hd⟩ := h.own i d hmem
    rw [sockets_put]
    by_cases heq : i = ws
    · subst heq
      cases hc.symm.trans hk
      exact ⟨c',if_pos rfl,hdoc.trans hd⟩
    · exact ⟨k,by rw [if_neg heq]; exact hk,hd⟩
  · intro i k hk hstill
    rw [sockets_put] at hk
    split at hk
    · next heq =>
      obtain rfl := Option.some.inj hk
      subst heq
      exact hdoc ▸ h.stays _ c hc (hopen hstill)
    · exact h.stays i k hk hstill

theorem placed_step (h : Placed w) (hs : Stepped w a next) : Placed next := by
  cases hs with
  | connect ws docId sinceStreamId hnew =>
    constructor
    · intro i d hmem
      rw [World.connect,sockets_put]
      rcases mem_join.mp hmem with hmem | ⟨rfl,rfl⟩
      · obtain ⟨c,hc,hd⟩ := h.own i d hmem
        have hne : i ≠ ws := by
          rintro rfl
          cases hnew.symm.trans hc
        exact ⟨c,by rw [if_neg hne]; exact hc,hd⟩
      · exact ⟨_,if_pos rfl,rfl⟩
    · intro i c hc hopen
      rw [World.connect,sockets_put] at hc
      refine mem_join.mpr ?_
      split at hc
      · next heq =>
        obtain rfl := Option.some.inj hc
        exact Or.inr ⟨rfl,heq⟩
      · exact Or.inl (h.stays i c hc hopen)
  | resumed hc phase ha => exact placed_put h hc rfl id
  | lost hc hopen hphase => exact placed_put h hc rfl (fun _ => hopen)
  | @heard ws c hc hopen hphase =>
    constructor
    · intro i d hmem
      obtain ⟨hin,hleft⟩ := mem_leave.mp hmem
      obtain ⟨k,hk,hd⟩ := h.own i d hin
      have hne : i ≠ ws := by
        rintro rfl
        cases hc.symm.trans hk
        exact hleft hd.symm rfl
      exact ⟨k,(if_neg hne).trans hk,hd⟩
    · intro i k hk hstill
      have hsocket : (if i = ws then some { c with isClosed := true } else w.sockets i) =
          some k := hk
      split at hsocket
      · obtain rfl := Option.some.inj hsocket
        cases hstill
      · next hne => exact mem_leave.mpr ⟨h.stays i k hsocket hstill,fun _ => hne⟩
  | redis hrooms =>
    constructor
    · intro i d hmem
      exact h.own i d (hrooms ▸ hmem)
    · intro i c hc hopen
      exact hrooms ▸ h.stays i c hc hopen

def Leaked (w : World) (ws : SocketId) (d : DocId) : Prop :=
  (∃ c, w.sockets ws = some c ∧ c.isClosed = true) ∧ ws ∈ w.registry.rooms d

theorem ne_of_closed {c' : Connection} (hc : w.sockets ws = some c) (hclosed : c.isClosed = true)
    (hc' : w.sockets ws' = some c') (hopen : c'.isClosed = false) : ws ≠ ws' := by
  rintro rfl
  cases hc.symm.trans hc'
  cases hclosed.symm.trans hopen

/-- No step takes a closed socket out of its room. -/
theorem leaked_step (h : Leaked w ws d) (hs : Stepped w a next) : Leaked next ws d := by
  obtain ⟨⟨c,hc,hclosed⟩,hmem⟩ := h
  cases hs with
  | connect i docId sinceStreamId hnew =>
    refine ⟨⟨c,?_,hclosed⟩,mem_join.mpr (Or.inl hmem)⟩
    rw [World.connect,sockets_put,if_neg]
    · exact hc
    · rintro rfl
      cases hnew.symm.trans hc
  | @resumed _ i k hk phase ha =>
    by_cases heq : ws = i
    · subst heq
      cases hc.symm.trans hk
      exact ⟨⟨_,if_pos rfl,hclosed⟩,hmem⟩
    · exact ⟨⟨c,(if_neg heq).trans hc,hclosed⟩,hmem⟩
  | @heard i k hk hopen hphase =>
    have hne : ws ≠ i := ne_of_closed hc hclosed hk hopen
    exact ⟨⟨c,(if_neg hne).trans hc,hclosed⟩,mem_leave.mpr ⟨hmem,fun _ => hne⟩⟩
  | @lost i k hk hopen hphase =>
    have hne : ws ≠ i := ne_of_closed hc hclosed hk hopen
    exact ⟨⟨c,(if_neg hne).trans hc,hclosed⟩,hmem⟩
  | redis hrooms => exact ⟨⟨c,hc,hclosed⟩,hrooms ▸ hmem⟩

theorem gone_iff : Gone w ↔ ∀ ws d, ¬Leaked w ws d := by
  constructor
  · rintro h ws d ⟨⟨c,hc,hclosed⟩,hmem⟩
    exact h ws c hc hclosed d hmem
  · intro h ws c hc hclosed d hmem
    exact h ws d ⟨⟨c,hc,hclosed⟩,hmem⟩

theorem gone_before (hs : Stepped w a next) (h : Gone next) : Gone w :=
  gone_iff.mpr (fun ws d hleaked => gone_iff.mp h ws d (leaked_step hleaked hs))

/-- A step leaks a member exactly when a close event finds no listener. -/
theorem gone_step (hp : Placed w) (h : Gone w) (hs : Stepped w a next) :
    Gone next ↔ Attached w a := by
  cases hs with
  | connect ws docId sinceStreamId hnew =>
    refine iff_of_true ?_ trivial
    intro i c hc hclosed d hmem
    rw [World.connect,sockets_put] at hc
    split at hc
    · obtain rfl := Option.some.inj hc
      cases hclosed
    · next hne =>
      rcases mem_join.mp hmem with hmem | ⟨-,heq⟩
      · exact h i c hc hclosed d hmem
      · exact hne heq
  | @resumed _ ws c hc phase ha =>
    refine iff_of_true ?_ ?_
    · intro i k hk hclosed d hmem
      rw [sockets_put] at hk
      split at hk
      · next heq =>
        obtain rfl := Option.some.inj hk
        subst heq
        exact h i c hc hclosed d hmem
      · exact h i k hk hclosed d hmem
    · cases a with
      | close i => exact absurd rfl (ha i)
      | connect | subscribed | inspected | ranged | redis => trivial
  | @heard ws c hc hopen hphase =>
    refine iff_of_true ?_ ?_
    · intro i k hk hclosed d hmem
      obtain ⟨hin,hleft⟩ := mem_leave.mp hmem
      have hsocket : (if i = ws then some { c with isClosed := true } else w.sockets i) =
          some k := hk
      split at hsocket
      · next heq =>
        subst heq
        obtain ⟨c',hc',hd⟩ := hp.own i d hin
        cases hc.symm.trans hc'
        exact hleft hd.symm rfl
      · exact h i k hsocket hclosed d hin
    · intro c' hc'
      cases hc.symm.trans hc'
      exact hphase
  | @lost ws c hc hopen hphase =>
    refine iff_of_false ?_ (fun hattached => hphase (hattached c hc))
    exact fun hgone => hgone ws _ (if_pos rfl) rfl c.docId (hp.stays ws c hc hopen)
  | redis hrooms =>
    refine iff_of_true ?_ trivial
    intro i c hc hclosed d hmem
    exact h i c hc hclosed d (hrooms ▸ hmem)

theorem placed_start : Placed {} where
  own := nofun
  stays := nofun

theorem gone_start : Gone {} := nofun

theorem gone_throughout {actions : List Action} {t : World}
    (h : exec step w actions = some t) (hgone : Gone t) : Throughout step Gone w actions := by
  induction actions generalizing w with
  | nil => exact Option.some.inj h ▸ hgone
  | cons a actions ih =>
    obtain ⟨u,hu,hrest⟩ := Option.bind_eq_some_iff.mp h
    have hthroughout := ih hrest
    refine ⟨gone_before (stepped hu) (throughout_head hthroughout),fun v hv => ?_⟩
    obtain rfl := Option.some.inj (hu.symm.trans hv)
    exact hthroughout

/-- At the end of a run every closed socket is out of its room if and only if
each close event came when the set-up had attached its listener. -/
theorem gone_iff_attached {actions : List Action} (h : exec step {} actions = some w) :
    Gone w ↔ Along step Attached {} actions := by
  have hexact : Throughout step Gone {} actions ↔ Along step Attached {} actions :=
    throughout_iff_along (fun _ _ _ hp hs => placed_step hp (stepped hs))
      (fun _ _ _ hp hg hs => gone_step hp hg (stepped hs)) placed_start gone_start
  refine Iff.trans ⟨gone_throughout h,fun hthroughout => ?_⟩ hexact
  exact throughout_iff_prefixes.mp hthroughout actions (List.prefix_refl _) w h

def orderly : List Action :=
  [.connect 0 1 none,.redis true,.subscribed 0 true,.connect 1 1 none,.close 1]

theorem orderly_gone : ∃ w, exec step {} orderly = some w ∧
    (Gone w ↔ Along step Attached {} orderly) :=
  ⟨_,rfl,gone_iff_attached rfl⟩

/-- A socket closes while its join is under way, a second one after its replay
was reported trimmed, and a third one after its replay has failed. -/
def hasty : List Action :=
  [.connect 0 1 none,.close 0,.redis true,.subscribed 0 true,
    .connect 1 1 (some (toLex (5,0))),.inspected 1 true,.close 1,
    .connect 2 1 (some (toLex (5,0))),.inspected 2 false,.ranged 2 false,.close 2]

theorem hasty_leaks : ∃ w, exec step {} hasty = some w ∧ w.registry.outstanding = [] ∧
    (∀ ws ∈ [0,1,2], (w.sockets ws).any Connection.isClosed) ∧
    w.registry.rooms 1 = [0,1,2] ∧ ¬Gone w := by
  refine ⟨_,rfl,rfl,by decide,rfl,fun hgone => ?_⟩
  exact hgone 0 _ rfl rfl 1 (List.mem_cons_self)

end BlockDocs.ClosedSockets
