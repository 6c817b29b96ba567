import BlockDocs.ClosedSockets

/-!
# Pings and pongs

The server pings all its clients at each tick and terminates those that have not answered
since the tick before. A terminated socket stays a client until its close event.
-/

set_option autoImplicit false

namespace BlockDocs.Heartbeat
open BlockDocs.Wire BlockDocs.GuardedRun
open BlockDocs.RoomRegistry (SocketId)
open BlockDocs.ClosedSockets (Connection)

structure Server where
  sockets : ClosedSockets.World := {}
  isAlive : SocketId → Bool := fun _ => true
  terminated : SocketId → Bool := fun _ => false

def Server.clients (s : Server) (ws : SocketId) : Bool :=
  match s.sockets.sockets ws with
  | some c => !c.isClosed
  | none => false

inductive Action where
  | socket (a : ClosedSockets.Action)
  | pong (ws : SocketId)
  | tick

def Server.tick (s : Server) : Server :=
  { s with
    isAlive := fun ws => if s.clients ws then false else s.isAlive ws
    terminated := fun ws => s.terminated ws || s.clients ws && !s.isAlive ws }

def Server.mark (s : Server) (ws : SocketId) : Server :=
  { s with isAlive := fun i => if i = ws then true else s.isAlive i }

/-- A terminated socket receives nothing more. -/
def step (s : Server) : Action → Option Server
  | .socket a => (ClosedSockets.step s.sockets a).map fun next =>
    match a with
    | .connect ws _ _ => { s with sockets := next }.mark ws
    | _ => { s with sockets := next }
  | .pong ws => if s.clients ws = true ∧ s.terminated ws = false then some (s.mark ws) else none
  | .tick => some s.tick

def OpenAfter (ws : SocketId) (acts : List Action) : Prop :=
  ∃ s, exec step ({} : Server) acts = some s ∧ s.clients ws = true

def Silent (ws : SocketId) (acts : List Action) : Prop :=
  ∃ xs ys, acts = xs++.tick::ys ∧ OpenAfter ws xs ∧ .pong ws ∉ ys

/-- Silent from one tick to a later one, at which it was still open. -/
def Missed (ws : SocketId) (acts : List Action) : Prop :=
  ∃ xs zs, acts = xs++.tick::zs ∧ OpenAfter ws xs ∧ Silent ws xs

variable {s t : Server} {ws : SocketId} {a : Action} {acts : List Action}

/-! ## One step -/

inductive Changed (s : Server) (ws : SocketId) (a : Action) (t : Server) : Prop where
  | opened {docId : DocId} {since : Option StreamId}
      (ha : a = .socket (.connect ws docId since)) (hnew : s.sockets.sockets ws = none)
      (hclient : t.clients ws = true) (halive : t.isAlive ws = true)
      (hterminated : t.terminated ws = s.terminated ws)
  | closed (ha : a = .socket (.close ws)) (hclient : t.clients ws = false)
      (hterminated : t.terminated ws = s.terminated ws)
  | ponged (ha : a = .pong ws) (hclient : t.clients ws = s.clients ws)
      (halive : t.isAlive ws = true) (hterminated : t.terminated ws = s.terminated ws)
  | ticked (ha : a = .tick) (hclient : t.clients ws = s.clients ws)
      (halive : t.isAlive ws = if s.clients ws then false else s.isAlive ws)
      (hterminated : t.terminated ws = (s.terminated ws || s.clients ws && !s.isAlive ws))
  | kept (htick : a ≠ .tick) (hpong : a ≠ .pong ws) (hclient : t.clients ws = s.clients ws)
      (halive : t.isAlive ws = s.isAlive ws) (hterminated : t.terminated ws = s.terminated ws)

theorem changed_socket {b : ClosedSockets.Action} {next : ClosedSockets.World}
    (h : ClosedSockets.Stepped s.sockets b next) (hopens : ∀ i d l, b ≠ .connect i d l) :
    Changed s ws (.socket b) { s with sockets := next } := by
  cases h with
  | connect i docId since hnew => exact absurd rfl (hopens i docId since)
  | @resumed _ i c hc phase ha =>
    refine .kept (by simp) (by simp) ?_ rfl rfl
    simp only [Server.clients,ClosedSockets.World.put]
    by_cases hi : ws = i
    · simp [hi,hc]
    · simp [hi]
  | @heard i c hc hopen hphase =>
    by_cases hi : ws = i
    · subst hi
      exact .closed rfl (by simp [Server.clients,ClosedSockets.World.put]) rfl
    · refine .kept (by simp) (by simp) ?_ rfl rfl
      simp [Server.clients,ClosedSockets.World.put,hi]
  | @lost i c hc hopen hphase =>
    by_cases hi : ws = i
    · subst hi
      exact .closed rfl (by simp [Server.clients,ClosedSockets.World.put]) rfl
    · refine .kept (by simp) (by simp) ?_ rfl rfl
      simp [Server.clients,ClosedSockets.World.put,hi]
  | redis hrooms => exact .kept (by simp) (by simp) rfl rfl rfl

theorem step_changed (h : step s a = some t) : Changed s ws a t := by
  cases a with
  | socket b =>
    obtain ⟨next,hnext,rfl⟩ := Option.map_eq_some_iff.mp h
    cases b with
    | connect i docId since =>
      rw [ClosedSockets.step] at hnext
      split at hnext
      · cases hnext
      · next hnew =>
        obtain rfl := Option.some.inj hnext
        by_cases hi : ws = i
        · subst hi
          exact .opened rfl hnew (by simp [Server.mark,Server.clients,ClosedSockets.World.connect,
            ClosedSockets.World.put]) (by simp [Server.mark]) rfl
        · exact .kept (by simp) (by simp) (by simp [Server.mark,Server.clients,
            ClosedSockets.World.connect,ClosedSockets.World.put,hi]) (by simp [Server.mark,hi]) rfl
    | _ => exact changed_socket (ClosedSockets.stepped hnext) (by simp)
  | pong i =>
    obtain ⟨_,ht⟩ := Option.ite_none_right_eq_some.mp h
    obtain rfl := Option.some.inj ht
    by_cases hi : ws = i
    · subst hi
      exact .ponged rfl rfl (by simp [Server.mark]) rfl
    · exact .kept (by simp) (by simpa using fun h => hi h.symm) rfl (by simp [Server.mark,hi]) rfl
  | tick =>
    obtain rfl := Option.some.inj h
    exact .ticked rfl rfl rfl rfl

/-- A socket that was connected is never connected again. -/
theorem sockets_kept (h : step s a = some t) (hs : s.sockets.sockets ws ≠ none) :
    t.sockets.sockets ws ≠ none := by
  cases a with
  | socket b =>
    obtain ⟨next,hnext,rfl⟩ := Option.map_eq_some_iff.mp h
    have hkept : next.sockets ws ≠ none := by
      cases ClosedSockets.stepped hnext with
      | connect i docId since hnew =>
        simp only [ClosedSockets.World.connect,ClosedSockets.World.put]
        split
        · exact Option.some_ne_none _
        · exact hs
      | resumed hc phase ha =>
        simp only [ClosedSockets.World.put]
        split
        · exact Option.some_ne_none _
        · exact hs
      | heard hc hopen hphase =>
        simp only [ClosedSockets.World.put]
        split
        · exact Option.some_ne_none _
        · exact hs
      | lost hc hopen hphase =>
        simp only [ClosedSockets.World.put]
        split
        · exact Option.some_ne_none _
        · exact hs
      | redis hrooms => exact hs
    cases b <;> exact hkept
  | pong i =>
    obtain ⟨_,ht⟩ := Option.ite_none_right_eq_some.mp h
    exact Option.some.inj ht ▸ hs
  | tick => exact Option.some.inj h ▸ hs

/-! ## Runs -/

theorem exec_concat : exec step ({} : Server) (acts++[a]) =
    (exec step ({} : Server) acts).bind (fun s => step s a) := by
  rw [exec_append]
  congr 1
  funext s
  simp [exec]

theorem open_sockets {xs ys : List Action} (hopen : OpenAfter ws xs)
    (h : exec step ({} : Server) (xs++ys) = some s) : s.sockets.sockets ws ≠ none := by
  obtain ⟨u,hu,hclient⟩ := hopen
  rw [exec_append,hu,Option.bind_some] at h
  refine exec_invariant (I := fun s => s.sockets.sockets ws ≠ none)
    (fun _ _ _ hs hstep => sockets_kept hstep hs) ?_ h
  intro hnone
  rw [Server.clients,hnone] at hclient
  cases hclient

theorem openAfter_iff (h : exec step ({} : Server) acts = some s) :
    OpenAfter ws acts ↔ s.clients ws = true := by
  constructor
  · rintro ⟨u,hu,hclient⟩
    exact Option.some.inj (h.symm.trans hu) ▸ hclient
  · exact fun hclient => ⟨s,h,hclient⟩

theorem silent_concat (htick : a ≠ .tick) (hpong : a ≠ .pong ws) :
    Silent ws (acts++[a]) ↔ Silent ws acts := by
  constructor
  · rintro ⟨xs,ys,heq,hopen,hys⟩
    rcases List.eq_nil_or_concat' ys with rfl | ⟨zs,b,rfl⟩
    · exact absurd (List.append_inj' heq rfl).2 (by simpa using htick)
    · have hsplit : acts++[a] = (xs++.tick::zs)++[b] := by simpa using heq
      refine ⟨xs,zs,(List.append_inj' hsplit rfl).1,hopen,fun hmem => hys ?_⟩
      exact List.mem_append_left _ hmem
  · rintro ⟨xs,ys,rfl,hopen,hys⟩
    refine ⟨xs,ys++[a],by simp,hopen,?_⟩
    simpa [hys] using fun h => hpong h.symm

theorem missed_concat (htick : a ≠ .tick) : Missed ws (acts++[a]) ↔ Missed ws acts := by
  constructor
  · rintro ⟨xs,ys,heq,hopen,hsilent⟩
    rcases List.eq_nil_or_concat' ys with rfl | ⟨zs,b,rfl⟩
    · exact absurd (List.append_inj' heq rfl).2 (by simpa using htick)
    · have hsplit : acts++[a] = (xs++.tick::zs)++[b] := by simpa using heq
      exact ⟨xs,zs,(List.append_inj' hsplit rfl).1,hopen,hsilent⟩
  · rintro ⟨xs,ys,rfl,hopen,hsilent⟩
    exact ⟨xs,ys++[a],by simp,hopen,hsilent⟩

theorem missed_tick : Missed ws (acts++[.tick]) ↔
    Missed ws acts ∨ OpenAfter ws acts ∧ Silent ws acts := by
  constructor
  · rintro ⟨xs,ys,heq,hopen,hsilent⟩
    rcases List.eq_nil_or_concat' ys with rfl | ⟨zs,b,rfl⟩
    · obtain rfl := (List.append_inj' heq rfl).1
      exact Or.inr ⟨hopen,hsilent⟩
    · have hsplit : acts++[.tick] = (xs++.tick::zs)++[b] := by simpa using heq
      exact Or.inl ⟨xs,zs,(List.append_inj' hsplit rfl).1,hopen,hsilent⟩
  · rintro (⟨xs,ys,rfl,hopen,hsilent⟩ | ⟨hopen,hsilent⟩)
    · exact ⟨xs,ys++[.tick],by simp,hopen,hsilent⟩
    · exact ⟨acts,[],rfl,hopen,hsilent⟩

/-- The mark of a client says that it has been silent since a tick. -/
theorem marked_iff (h : exec step ({} : Server) acts = some s) (hclient : s.clients ws = true) :
    s.isAlive ws = false ↔ Silent ws acts := by
  induction acts using List.reverseRecOn generalizing s with
  | nil =>
    obtain rfl := Option.some.inj h
    cases hclient
  | append_singleton acts a ih =>
    have hrun := h
    rw [exec_concat] at h
    obtain ⟨u,hu,hstep⟩ := Option.bind_eq_some_iff.mp h
    cases (step_changed hstep : Changed u ws a s) with
    | opened ha hnew hopened halive _ =>
      refine iff_of_false (by simp [halive]) ?_
      rintro ⟨xs,ys,heq,hopen,_⟩
      rcases List.eq_nil_or_concat' ys with rfl | ⟨zs,b,rfl⟩
      · rw [ha] at heq
        cases List.cons.inj (List.append_inj' heq rfl).2
        contradiction
      · have hsplit : acts++[a] = (xs++.tick::zs)++[b] := by simpa using heq
        rw [(List.append_inj' hsplit rfl).1] at hu
        exact open_sockets hopen hu hnew
    | closed _ hgone _ =>
      rw [hgone] at hclient
      cases hclient
    | ponged ha _ halive _ =>
      refine iff_of_false (by simp [halive]) ?_
      rintro ⟨xs,ys,heq,_,hys⟩
      subst ha
      rcases List.eq_nil_or_concat' ys with rfl | ⟨zs,b,rfl⟩
      · cases List.cons.inj (List.append_inj' heq rfl).2
        contradiction
      · have hsplit : acts++[.pong ws] = (xs++.tick::zs)++[b] := by simpa using heq
        obtain rfl := (List.cons.inj (List.append_inj' hsplit rfl).2).1
        exact hys (by simp)
    | ticked ha hsame halive _ =>
      rw [hsame] at hclient
      rw [halive,hclient,ha]
      exact iff_of_true rfl ⟨acts,[],rfl,(openAfter_iff hu).mpr hclient,List.not_mem_nil⟩
    | kept htick hpong hsame halive _ =>
      rw [hsame] at hclient
      rw [halive,silent_concat htick hpong]
      exact ih hu hclient

/-- In every run the server has terminated exactly the sockets that were open at two ticks
and sent no pong in between. -/
theorem terminated_iff_missed (h : exec step ({} : Server) acts = some s) (ws : SocketId) :
    s.terminated ws = true ↔ Missed ws acts := by
  induction acts using List.reverseRecOn generalizing s with
  | nil =>
    obtain rfl := Option.some.inj h
    refine iff_of_false Bool.false_ne_true ?_
    rintro ⟨xs,ys,heq,_⟩
    cases (List.append_eq_nil_iff.mp heq.symm).2
  | append_singleton acts a ih =>
    rw [exec_concat] at h
    obtain ⟨u,hu,hstep⟩ := Option.bind_eq_some_iff.mp h
    have hbefore := ih hu
    cases (step_changed hstep : Changed u ws a s) with
    | opened ha _ _ _ hsame => rw [hsame,missed_concat (by simp [ha]),hbefore]
    | closed ha _ hsame => rw [hsame,missed_concat (by simp [ha]),hbefore]
    | ponged ha _ _ hsame => rw [hsame,missed_concat (by simp [ha]),hbefore]
    | kept htick _ _ _ hsame => rw [hsame,missed_concat htick,hbefore]
    | ticked ha _ _ hterminated =>
      rw [hterminated,ha,missed_tick,← hbefore,Bool.or_eq_true,Bool.and_eq_true,
        openAfter_iff hu,Bool.not_eq_true']
      exact or_congr_right (and_congr_right fun hclient => marked_iff hu hclient)

def answered : List Action :=
  [.socket (.connect 1 5 none),.socket (.connect 2 5 none),.tick,.pong 2,.tick]

theorem one_terminated : ∃ s, exec step ({} : Server) answered = some s ∧
    (s.terminated 1 = true ∧ s.terminated 2 = false) ∧
    (s.terminated 1 = true ↔ Missed 1 answered) :=
  ⟨_,rfl,by decide,terminated_iff_missed rfl 1⟩

end BlockDocs.Heartbeat
