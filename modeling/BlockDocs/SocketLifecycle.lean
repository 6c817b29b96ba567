import BlockDocs.GuardedRun

/-!
# The sockets of one client

`connect` and the reconnect timer open a socket without a look at the one the
client holds. The flag of the user's close and the timers are shared by all
sockets the client has made, so an event of a socket that was given up acts on
the present one.
-/

set_option autoImplicit false

namespace BlockDocs.SocketLifecycle
open BlockDocs.GuardedRun

inductive ReadyState where
  | CONNECTING
  | OPEN
  | CLOSING
  | CLOSED
  deriving DecidableEq, Repr

def ReadyState.live : ReadyState → Bool
  | .CONNECTING => true
  | .OPEN => true
  | _ => false

/-- What `close()` of a socket makes of its state. The close event comes later. -/
def ReadyState.close : ReadyState → ReadyState
  | .CLOSED => .CLOSED
  | _ => .CLOSING

/-- `sockets` are all sockets the client has created, `ws` is the place of the
one it holds, and `timers` are the delays of the timers that have not fired. -/
structure WsClient where
  ws : Option ℕ
  reconnectAttempt : ℕ
  closedByUser : Bool
  sockets : List ReadyState
  timers : List ℕ

def WsClient.initial : WsClient := ⟨none,0,false,[],[]⟩

/-! ## Calls and events -/

def WsClient.openSocket (w : WsClient) : WsClient :=
  { w with ws := some w.sockets.length, sockets := w.sockets++[.CONNECTING] }

def WsClient.connect (w : WsClient) : WsClient := { w with closedByUser := false }.openSocket

def WsClient.release (w : WsClient) : WsClient :=
  match w.ws with
  | none => w
  | some i => { w with ws := none, sockets := w.sockets.modify i ReadyState.close }

def WsClient.close (w : WsClient) : WsClient := { w with closedByUser := true }.release

def WsClient.reconnect (w : WsClient) : WsClient :=
  match w.ws with
  | none => w.connect
  | some _ => { w with closedByUser := false }.release.connect

def backoff (attempt jitter : ℕ) : ℕ := min 30000 (1000*2^attempt)+jitter

def WsClient.scheduleReconnect (w : WsClient) (jitter : Fin 250) : WsClient :=
  { w with
    reconnectAttempt := w.reconnectAttempt+1
    timers := w.timers++[backoff w.reconnectAttempt jitter] }

def WsClient.triggerClose (w : WsClient) (jitter : Fin 250) : WsClient :=
  if w.closedByUser then w else w.scheduleReconnect jitter

def WsClient.timerFired (w : WsClient) : WsClient :=
  if w.closedByUser then w else w.openSocket

inductive Event where
  | connect
  | close
  | reconnect
  | opened (i : ℕ)
  | errored (i : ℕ)
  | closed (i : ℕ) (jitter : Fin 250)
  | fired (k : ℕ)

/-- A socket opens once, and its close event is the last one. -/
def step (w : WsClient) : Event → Option WsClient
  | .connect => some w.connect
  | .close => some w.close
  | .reconnect => some w.reconnect
  | .opened i =>
    if w.sockets[i]? = some .CONNECTING then
      some { w with reconnectAttempt := 0, sockets := w.sockets.set i .OPEN }
    else none
  | .errored i =>
    if i < w.sockets.length ∧ w.sockets[i]? ≠ some .CLOSED then
      some { w with sockets := w.sockets.modify i ReadyState.close }
    else none
  | .closed i jitter =>
    if i < w.sockets.length ∧ w.sockets[i]? ≠ some .CLOSED then
      some ({ w with sockets := w.sockets.set i .CLOSED }.triggerClose jitter)
    else none
  | .fired k =>
    if k < w.timers.length then
      some { w with timers := w.timers.eraseIdx k }.timerFired
    else none

/-! ## Live sockets -/

def WsClient.live (w : WsClient) (i : ℕ) : Prop := ∃ r, w.sockets[i]? = some r ∧ r.live = true

def Single (w : WsClient) : Prop := ∀ i, w.live i → w.ws = some i

def Idle (w : WsClient) : Prop := ∀ i, w.ws = some i → ¬w.live i

variable {w t : WsClient}

theorem openSocket_live (w : WsClient) (i : ℕ) :
    w.openSocket.live i ↔ w.live i ∨ i = w.sockets.length := by
  unfold WsClient.live
  show (∃ r, (w.sockets++[.CONNECTING])[i]? = some r ∧ r.live = true) ↔ _
  rcases lt_trichotomy i w.sockets.length with hlt | rfl | hgt
  · rw [List.getElem?_append_left hlt]
    exact ⟨Or.inl,fun h => h.resolve_right (Nat.ne_of_lt hlt)⟩
  · simp [ReadyState.live]
  · have hnone : w.sockets[i]? = none := List.getElem?_eq_none (Nat.le_of_lt hgt)
    have hnone' : (w.sockets++[.CONNECTING])[i]? = none := by
      rw [List.getElem?_eq_none_iff,List.length_append,List.length_singleton]
      exact hgt
    rw [hnone,hnone']
    constructor
    · rintro ⟨r,hr,_⟩
      cases hr
    · rintro (⟨r,hr,_⟩ | heq)
      · cases hr
      · exact absurd heq (Nat.ne_of_gt hgt)

theorem live_lt {i : ℕ} (h : w.live i) : i < w.sockets.length := by
  obtain ⟨r,hr,_⟩ := h
  exact (List.getElem?_eq_some_iff.mp hr).1

theorem openSocket_single (h : Single w) : Single w.openSocket ↔ Idle w := by
  constructor
  · intro hnext i hi hlive
    have heq : some w.sockets.length = some i :=
      hnext i ((openSocket_live w i).mpr (Or.inl hlive))
    exact absurd (live_lt hlive) (by rw [Option.some.inj heq]; exact lt_irrefl i)
  · intro hidle i hi
    rcases (openSocket_live w i).mp hi with hlive | rfl
    · exact absurd hlive (hidle i (h i hlive))
    · rfl

theorem close_not_live (r : ReadyState) : r.close.live = false := by
  cases r <;> rfl

/-- A close takes the one socket out of the live ones. -/
theorem modify_live {sockets : List ReadyState} {i j : ℕ} {r : ReadyState}
    (hr : (sockets.modify j ReadyState.close)[i]? = some r) (hlive : r.live = true) :
    sockets[i]? = some r ∧ j ≠ i := by
  rw [List.getElem?_modify] at hr
  obtain ⟨r',hr',heq⟩ := Option.map_eq_some_iff.mp hr
  by_cases hji : j = i
  · rw [if_pos hji] at heq
    rw [← heq,close_not_live] at hlive
    cases hlive
  · rw [if_neg hji] at heq
    exact ⟨heq ▸ hr',hji⟩

/-- The sockets that are live after the release were live before and are not held. -/
theorem release_live {i : ℕ} (h : w.release.live i) : w.live i ∧ w.ws ≠ some i := by
  obtain ⟨r,hr,hlive⟩ := h
  cases hws : w.ws with
  | none =>
    rw [WsClient.release,hws] at hr
    exact ⟨⟨r,hr,hlive⟩,fun heq => by cases heq⟩
  | some j =>
    rw [WsClient.release,hws] at hr
    obtain ⟨hbefore,hji⟩ := modify_live hr hlive
    exact ⟨⟨r,hbefore,hlive⟩,fun heq => hji (Option.some.inj heq)⟩

theorem release_idle (h : Single w) (i : ℕ) : ¬w.release.live i := by
  intro hlive
  obtain ⟨hbefore,hheld⟩ := release_live hlive
  exact hheld (h i hbefore)

theorem single_of_idle (h : ∀ i, ¬w.live i) : Single w := fun i hi => absurd hi (h i)

/-- Fewer live sockets and the same one held. -/
theorem single_fewer (h : Single w) (hws : t.ws = w.ws) (hlive : ∀ i, t.live i → w.live i) :
    Single t := fun i hi => hws.trans (h i (hlive i hi))

theorem connect_single (h : Single w) : Single w.connect ↔ Idle w :=
  openSocket_single (w := { w with closedByUser := false }) h

theorem reconnect_single (h : Single w) : Single w.reconnect := by
  unfold WsClient.reconnect
  split
  · next hws =>
    refine (connect_single h).mpr (fun i hi => ?_)
    rw [hws] at hi
    cases hi
  · have hnone := release_idle (w := { w with closedByUser := false }) h
    exact (connect_single (single_of_idle hnone)).mpr (fun i _ => hnone i)

/-! ## Exactly when there is one live socket -/

/-- `open()` runs, from `connect` or from a timer, only when nothing live is held. -/
def Guarded (w : WsClient) : Event → Prop
  | .connect => Idle w
  | .fired _ => w.closedByUser = false → Idle w
  | _ => True

theorem set_open_live {i j : ℕ} (hconnecting : w.sockets[i]? = some .CONNECTING)
    (h : WsClient.live { w with reconnectAttempt := 0, sockets := w.sockets.set i .OPEN } j) :
    w.live j := by
  obtain ⟨r,hr,hlive⟩ := h
  by_cases hij : i = j
  · exact ⟨_,hij ▸ hconnecting,rfl⟩
  · rw [List.getElem?_set_ne hij] at hr
    exact ⟨r,hr,hlive⟩

theorem set_closed_live {i j : ℕ}
    (h : WsClient.live { w with sockets := w.sockets.set i .CLOSED } j) : w.live j := by
  obtain ⟨r,hr,hlive⟩ := h
  rw [List.getElem?_set] at hr
  split at hr
  · split at hr
    · cases hr
      cases hlive
    · cases hr
  · exact ⟨r,hr,hlive⟩

theorem step_single_iff {e : Event} (h : Single w) (ht : step w e = some t) :
    Single t ↔ Guarded w e := by
  cases e with
  | connect =>
    obtain rfl := Option.some.inj ht
    exact connect_single h
  | close =>
    obtain rfl := Option.some.inj ht
    exact iff_of_true (single_of_idle (release_idle (w := { w with closedByUser := true }) h))
      trivial
  | reconnect =>
    obtain rfl := Option.some.inj ht
    exact iff_of_true (reconnect_single h) trivial
  | opened i =>
    obtain ⟨hconnecting,ht⟩ := Option.ite_none_right_eq_some.mp ht
    obtain rfl := Option.some.inj ht
    exact iff_of_true (single_fewer h rfl (fun j => set_open_live hconnecting)) trivial
  | errored i =>
    obtain ⟨_,ht⟩ := Option.ite_none_right_eq_some.mp ht
    obtain rfl := Option.some.inj ht
    refine iff_of_true (single_fewer h rfl ?_) trivial
    rintro j ⟨r,hr,hlive⟩
    exact ⟨r,(modify_live hr hlive).1,hlive⟩
  | closed i jitter =>
    obtain ⟨_,ht⟩ := Option.ite_none_right_eq_some.mp ht
    obtain rfl := Option.some.inj ht
    refine iff_of_true ?_ trivial
    unfold WsClient.triggerClose
    split
    · exact single_fewer h rfl (fun j => set_closed_live)
    · exact single_fewer h rfl (fun j => set_closed_live)
  | fired k =>
    obtain ⟨_,ht⟩ := Option.ite_none_right_eq_some.mp ht
    obtain rfl := Option.some.inj ht
    unfold WsClient.timerFired
    cases hclosed : w.closedByUser with
    | true => exact iff_of_true h (fun hfalse => by rw [hclosed] at hfalse; cases hfalse)
    | false =>
      have hopen := openSocket_single (w := { w with timers := w.timers.eraseIdx k }) h
      exact hopen.trans ⟨fun hidle _ => hidle,fun hguard => hguard hclosed⟩

/-! ## After the user's close -/

def opens : Event → Bool
  | .connect => true
  | .reconnect => true
  | _ => false

theorem step_silent {e : Event} (hclosed : w.closedByUser = true) (he : opens e = false)
    (ht : step w e = some t) :
    t.closedByUser = true ∧ t.sockets.length = w.sockets.length := by
  cases e with
  | connect => cases he
  | close =>
    obtain rfl := Option.some.inj ht
    unfold WsClient.close WsClient.release
    split
    · exact ⟨rfl,rfl⟩
    · exact ⟨rfl,List.length_modify _ _ _⟩
  | reconnect => cases he
  | opened i =>
    obtain ⟨_,ht⟩ := Option.ite_none_right_eq_some.mp ht
    obtain rfl := Option.some.inj ht
    exact ⟨hclosed,List.length_set⟩
  | errored i =>
    obtain ⟨_,ht⟩ := Option.ite_none_right_eq_some.mp ht
    obtain rfl := Option.some.inj ht
    exact ⟨hclosed,List.length_modify _ _ _⟩
  | closed i jitter =>
    obtain ⟨_,ht⟩ := Option.ite_none_right_eq_some.mp ht
    obtain rfl := Option.some.inj ht
    rw [WsClient.triggerClose,if_pos hclosed]
    exact ⟨hclosed,List.length_set⟩
  | fired k =>
    obtain ⟨_,ht⟩ := Option.ite_none_right_eq_some.mp ht
    obtain rfl := Option.some.inj ht
    rw [WsClient.timerFired,if_pos hclosed]
    exact ⟨hclosed,rfl⟩

theorem run_silent (events : List Event) (hclosed : w.closedByUser = true)
    (he : ∀ e ∈ events, opens e = false) (ht : exec step w events = some t) :
    t.sockets.length = w.sockets.length := by
  induction events generalizing w with
  | nil =>
    obtain rfl := Option.some.inj ht
    rfl
  | cons e events ih =>
    obtain ⟨u,hu,ht⟩ := Option.bind_eq_some_iff.mp ht
    obtain ⟨hclosed',hlength⟩ := step_silent hclosed (he e List.mem_cons_self) hu
    exact (ih hclosed' (fun e' he' => he e' (List.mem_cons_of_mem _ he')) ht).trans hlength

/-- No socket is created after a close that no connect or reconnect follows. -/
def SilentAfterClose (events : List Event) : Prop :=
  ∀ before after, events = before++.close::after → (∀ e ∈ after, opens e = false) →
    ∀ w t, exec step .initial (before++[.close]) = some w → exec step w after = some t →
      t.sockets.length = w.sockets.length

theorem close_closed {before : List Event} (h : exec step .initial (before++[.close]) = some w) :
    w.closedByUser = true := by
  rw [exec_append] at h
  obtain ⟨u,_,hu⟩ := Option.bind_eq_some_iff.mp h
  obtain ⟨v,hv,hw⟩ := Option.bind_eq_some_iff.mp hu
  obtain rfl := Option.some.inj hv
  obtain rfl := Option.some.inj hw
  unfold WsClient.close WsClient.release
  split
  · rfl
  · rfl

theorem silent_after_close (events : List Event) : SilentAfterClose events :=
  fun _ after _ hafter _ _ hw ht => run_silent after (close_closed hw) hafter ht

/-! ## Calls of the hook

The hook connects when it mounts and closes when it unmounts, so its `connect` finds
a fresh client or one that was closed by the user. -/

def Detached (w : WsClient) : Prop := w.closedByUser = true → w.ws = none

theorem step_detached (e : Event) (h : Detached w) (ht : step w e = some t) : Detached t := by
  cases e with
  | connect =>
    obtain rfl := Option.some.inj ht
    exact fun hclosed => by cases hclosed
  | close =>
    obtain rfl := Option.some.inj ht
    unfold WsClient.close WsClient.release
    split
    · next hws => exact fun _ => hws
    · exact fun _ => rfl
  | reconnect =>
    obtain rfl := Option.some.inj ht
    unfold WsClient.reconnect
    split
    · exact fun hclosed => by cases hclosed
    · exact fun hclosed => by cases hclosed
  | opened i =>
    obtain ⟨_,ht⟩ := Option.ite_none_right_eq_some.mp ht
    exact Option.some.inj ht ▸ h
  | errored i =>
    obtain ⟨_,ht⟩ := Option.ite_none_right_eq_some.mp ht
    exact Option.some.inj ht ▸ h
  | closed i jitter =>
    obtain ⟨_,ht⟩ := Option.ite_none_right_eq_some.mp ht
    obtain rfl := Option.some.inj ht
    unfold WsClient.triggerClose
    split
    · exact h
    · exact h
  | fired k =>
    obtain ⟨_,ht⟩ := Option.ite_none_right_eq_some.mp ht
    obtain rfl := Option.some.inj ht
    unfold WsClient.timerFired
    split
    · exact h
    · next hopen => exact fun hclosed => absurd hclosed hopen

theorem mount_guarded {events : List Event} (h : exec step .initial events = some w)
    (hclosed : w.closedByUser = true) : Guarded w .connect := by
  have hdetached : Detached w :=
    exec_invariant (fun _ e _ => step_detached e) (fun hclosed => by cases hclosed) h
  intro i hi
  rw [hdetached hclosed] at hi
  cases hi

/-! ## Runs -/

theorem one_socket_iff_guarded (events : List Event) :
    (Throughout step Single .initial events ∧ SilentAfterClose events) ↔
      Along step Guarded .initial events := by
  have hexact : Throughout step Single .initial events ↔ Along step Guarded .initial events :=
    throughout_iff_along (I := fun _ => True) (fun _ _ _ _ _ => trivial)
      (fun _ _ _ _ hw ht => step_single_iff hw ht) trivial
      (single_of_idle (fun i hlive => absurd (live_lt hlive) (Nat.not_lt_zero i)))
  exact ⟨fun h => hexact.mp h.1,fun h => ⟨hexact.mpr h,silent_after_close events⟩⟩

/-- React mounts, unmounts and mounts again; the close event of the first socket
comes late, after the second one has opened. -/
def remount : List Event :=
  [.connect,.opened 0,.close,.connect,.opened 1,.closed 0 0,.fired 0]

theorem remount_opens_second :
    ∃ w, exec step .initial remount = some w ∧
      w.sockets = [.CLOSED,.OPEN,.CONNECTING] ∧ w.ws = some 2 ∧ ¬Single w := by
  refine ⟨_,rfl,rfl,rfl,fun h => ?_⟩
  have hheld := h 1 ⟨.OPEN,rfl,rfl⟩
  cases hheld

end BlockDocs.SocketLifecycle
