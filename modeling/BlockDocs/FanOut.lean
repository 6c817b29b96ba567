import BlockDocs.Decimal
import BlockDocs.DeltaPipeline
import BlockDocs.GuardedRun
import Mathlib.Data.Multiset.Filter

/-!
# Fan-out over several instances

A crdt frame reaches the room of its own instance directly and all other
instances over the bus, where each instance skips what it has published
itself. The api publishes on the same bus. The rooms are fixed, everything
else happens in any order.
-/

set_option autoImplicit false

namespace BlockDocs.FanOut
open BlockDocs.Wire BlockDocs.DeltaPipeline BlockDocs.Decimal BlockDocs.GuardedRun

abbrev InstanceId := String
abbrev SocketId := ℕ

inductive Frame where
  | crdt (msg : ClientCrdtMessage) (userId : UserId) (streamId : StreamId)
  | remote_ops (ops : List WireOp) (userId : UserId) (streamId : Option StreamId)

structure BusEnvelope where
  originInstance : Option InstanceId
  frame : Option Frame

/-! ## The bus -/

def channelFor (docId : DocId) : List Char := "doc:".toList++(decimal docId++":bus".toList)

def docOfChannel (channel : List Char) : Option DocId :=
  if "doc:".toList <+: channel then
    let rest := channel.drop 4
    if rest.dropWhile Char.isDigit = ":bus".toList then readDecimal (rest.takeWhile Char.isDigit)
    else none
  else none

theorem docOfChannel_channelFor (docId : DocId) :
    docOfChannel (channelFor docId) = some docId := by
  have hstop : (':' : Char).isDigit = false := by decide
  have hprefix : "doc:".toList <+: channelFor docId := List.prefix_append _ _
  have hdrop : (channelFor docId).drop 4 = decimal docId++ ':'::"bus".toList := rfl
  rw [docOfChannel,if_pos hprefix]
  simp only [hdrop,dropWhile_decimal docId hstop,takeWhile_decimal docId hstop,
    readDecimal_decimal]
  rfl

/-- The message listener: the broadcast that a message leads to. A text that is
no JSON is nothing. -/
def busMessage (instanceId : InstanceId) (channel : List Char) (message : Option BusEnvelope) :
    Option (DocId × Frame) :=
  match docOfChannel channel, message with
  | some docId, some env =>
    if env.originInstance.any (fun origin => origin ≠ "" ∧ origin = instanceId) then none
    else env.frame.map (fun frame => (docId,frame))
  | _, _ => none

/-! ## Instances, sockets and what is under way -/

structure SocketContext where
  instanceId : InstanceId
  docId : DocId
  userId : UserId

/-- The rooms and the subscriptions of the instances. An instance with a
non-empty room is subscribed to the bus of the document. -/
structure Deployment where
  instances : List InstanceId
  ctx : SocketId → SocketContext
  rooms : InstanceId → DocId → List SocketId
  subscribed : DocId → List InstanceId
  hosted : ∀ s, (ctx s).instanceId ∈ instances
  placed : ∀ i d s, s ∈ rooms i d → (ctx s).instanceId = i ∧ (ctx s).docId = d
  listening : ∀ i d, rooms i d ≠ [] → i ∈ subscribed d

structure Posting where
  docId : DocId
  sender : Option SocketId
  frame : Frame

/-- `adding` and `replies` are the XADDs that Redis has not executed and the
answers that have not arrived; a message of `publishing` and of an inbox comes
with the document of its channel. -/
structure World where
  isOpen : SocketId → Bool
  sent : SocketId → List Frame := fun _ => []
  posted : List Posting := []
  adding : List (SocketId × ClientCrdtMessage) := []
  replies : List (SocketId × Frame) := []
  publishing : List (DocId × BusEnvelope) := []
  inbox : InstanceId → List (DocId × BusEnvelope) := fun _ => []

inductive Action where
  | crdt (s : SocketId) (msg : ClientCrdtMessage)
  | xadd (i : ℕ) (streamId : StreamId)
  | added (i : ℕ)
  | api (docId : DocId) (origin : InstanceId) (frame : Frame)
  | publish (i : ℕ)
  | message (instanceId : InstanceId) (i : ℕ)
  | close (s : SocketId)

variable (D : Deployment)

def World.broadcastLocal (w : World) (instanceId : InstanceId) (docId : DocId) (frame : Frame)
    (except : Option SocketId) : World :=
  { w with sent := fun s =>
      if s ∈ D.rooms instanceId docId ∧ some s ≠ except ∧ w.isOpen s then w.sent s++[frame]
      else w.sent s }

def World.fanOut (w : World) (s : SocketId) (frame : Frame) : World :=
  let w' := w.broadcastLocal D (D.ctx s).instanceId (D.ctx s).docId frame (some s)
  { w' with publishing := w'.publishing++
      [((D.ctx s).docId,⟨some (D.ctx s).instanceId,some frame⟩)] }

def World.deliver (w : World) (docId : DocId) (env : BusEnvelope) : World :=
  { w with inbox := fun i =>
      if i ∈ D.subscribed docId then w.inbox i++[(docId,env)] else w.inbox i }

def World.hear (w : World) (instanceId : InstanceId) (docId : DocId) (env : BusEnvelope) :
    World :=
  match busMessage instanceId (channelFor docId) (some env) with
  | some (docId,frame) => w.broadcastLocal D instanceId docId frame none
  | none => w

def step (w : World) : Action → Option World
  | .crdt s msg =>
    if isValidBase64NonEmpty msg.delta then some { w with adding := w.adding++[(s,msg)] }
    else some w
  | .xadd i streamId =>
    match w.adding[i]? with
    | none => none
    | some (s,msg) =>
      let frame := .crdt msg (D.ctx s).userId streamId
      some { w with
        adding := w.adding.eraseIdx i
        replies := w.replies++[(s,frame)]
        posted := w.posted++[⟨(D.ctx s).docId,some s,frame⟩] }
  | .added i =>
    match w.replies[i]? with
    | none => none
    | some (s,frame) => some ({ w with replies := w.replies.eraseIdx i }.fanOut D s frame)
  | .api docId origin frame =>
    if origin ∈ D.instances then none
    else some { w with
      publishing := w.publishing++[(docId,⟨some origin,some frame⟩)]
      posted := w.posted++[⟨docId,none,frame⟩] }
  | .publish i =>
    match w.publishing[i]? with
    | none => none
    | some (docId,env) =>
      some ({ w with publishing := w.publishing.eraseIdx i }.deliver D docId env)
  | .message instanceId i =>
    match (w.inbox instanceId)[i]? with
    | none => none
    | some (docId,env) =>
      some ({ w with inbox := fun j =>
        if j = instanceId then (w.inbox instanceId).eraseIdx i else w.inbox j }.hear
          D instanceId docId env)
  | .close s => some { w with isOpen := fun i => if i = s then false else w.isOpen i }

/-! ## Exactly once -/

def expected (w : World) (s : SocketId) : Multiset Frame :=
  ((w.posted.filter (fun p => p.docId = (D.ctx s).docId ∧ p.sender ≠ some s)).map
    Posting.frame : List Frame)

def ofReply (s : SocketId) (r : SocketId × Frame) : Option Frame :=
  if (D.ctx r.1).docId = (D.ctx s).docId ∧ r.1 ≠ s then some r.2 else none

def ofMessage (s : SocketId) (m : DocId × BusEnvelope) : Option Frame :=
  if m.1 = (D.ctx s).docId ∧ m.2.originInstance ≠ some (D.ctx s).instanceId then m.2.frame
  else none

/-- What a socket has been sent and what is still on its way to it. -/
def arriving (w : World) (s : SocketId) : Multiset Frame :=
  (w.sent s : Multiset Frame)+(w.replies.filterMap (ofReply D s) : List Frame)+
    (w.publishing.filterMap (ofMessage D s) : List Frame)+
    ((w.inbox (D.ctx s).instanceId).filterMap (ofMessage D s) : List Frame)

def Member (s : SocketId) : Prop := s ∈ D.rooms (D.ctx s).instanceId (D.ctx s).docId

/-- No socket gets a frame that it is not to receive, nor one twice; every open
member of a room gets them all. -/
structure ExactlyOnce (w : World) : Prop where
  atMost : ∀ s, arriving D w s ≤ expected D w s
  all : ∀ s, Member D s → w.isOpen s = true → arriving D w s = expected D w s

/-- An instance without a name does not hear its own frame while a socket of the
room is open. -/
def Named (w : World) : Action → Prop
  | .message instanceId i => ∀ m, (w.inbox instanceId)[i]? = some m →
      m.2.originInstance = some instanceId → m.2.frame ≠ none →
      instanceId ≠ "" ∨ ∀ s ∈ D.rooms instanceId m.1, w.isOpen s = false
  | _ => True

variable {D} {w next : World} {s : SocketId}

theorem expected_posted (w v : World) (p : Posting) (h : v.posted = w.posted++[p]) :
    expected D v s = expected D w s+
      (if p.docId = (D.ctx s).docId ∧ p.sender ≠ some s then {p.frame} else 0) := by
  rw [expected,h,List.filter_append,List.map_append,← Multiset.coe_add]
  congr 1
  by_cases hp : p.docId = (D.ctx s).docId ∧ p.sender ≠ some s
  · simp [hp]
  · rw [if_neg hp,List.filter_cons_of_neg (by simpa using hp)]
    rfl

theorem filterMap_erased {α : Type} (g : α → Option Frame) {l : List α} {i : ℕ} {x : α}
    (h : l[i]? = some x) : ((l.filterMap g : List Frame) : Multiset Frame) =
      ((g x).toList : Multiset Frame)+((l.eraseIdx i).filterMap g : List Frame) := by
  obtain ⟨hi,rfl⟩ := List.getElem?_eq_some_iff.mp h
  rw [Multiset.coe_add,Multiset.coe_eq_coe]
  refine ((List.getElem_cons_eraseIdx_perm hi).filterMap g).symm.trans ?_
  rw [List.filterMap_cons]
  cases g l[i] <;> exact List.Perm.refl _

theorem filterMap_appended {α : Type} (g : α → Option Frame) (l : List α) (x : α) :
    (((l++[x]).filterMap g : List Frame) : Multiset Frame) =
      (l.filterMap g : List Frame)+((g x).toList : Multiset Frame) := by
  have hone : [x].filterMap g = (g x).toList := by
    rw [List.filterMap_cons,List.filterMap_nil]
    cases g x <;> rfl
  rw [List.filterMap_append,hone,Multiset.coe_add]

/-- What one step means for one socket: new frames it is to receive, and frames
that were on their way and are lost on it. -/
structure Flow (D : Deployment) (w next : World) (s : SocketId) (new lost : Multiset Frame) :
    Prop where
  expected : expected D next s = expected D w s+new
  arriving : arriving D next s+lost = arriving D w s+new
  lost : Member D s → next.isOpen s = true → lost = 0
  isOpen : next.isOpen s = true → w.isOpen s = true

theorem flow_exact (h : ExactlyOnce D w) (hflow : ∀ s, ∃ new lost, Flow D w next s new lost) :
    ExactlyOnce D next where
  atMost s := by
    obtain ⟨new,lost,hs⟩ := hflow s
    rw [hs.expected]
    calc arriving D next s ≤ arriving D next s+lost := Multiset.le_add_right _ _
      _ = arriving D w s+new := hs.arriving
      _ ≤ expected D w s+new := add_le_add_left (h.atMost s) new
  all s hmember hopen := by
    obtain ⟨new,lost,hs⟩ := hflow s
    have hsame := hs.arriving
    rw [hs.lost hmember hopen,add_zero] at hsame
    rw [hsame,hs.expected,h.all s hmember (hs.isOpen hopen)]

/-! ## The steps -/

theorem sent_broadcast (w : World) (instanceId : InstanceId) (docId : DocId) (frame : Frame)
    (except : Option SocketId) (s : SocketId) :
    (w.broadcastLocal D instanceId docId frame except).sent s =
      if s ∈ D.rooms instanceId docId ∧ some s ≠ except ∧ w.isOpen s then w.sent s++[frame]
      else w.sent s := rfl

theorem toList_ofReply (r : SocketId × Frame) : ((ofReply D s r).toList : Multiset Frame) =
    if (D.ctx r.1).docId = (D.ctx s).docId ∧ r.1 ≠ s then {r.2} else 0 := by
  unfold ofReply
  split <;> rfl

/-- Redis has executed an XADD: the frame is on its way through the handler. -/
theorem flow_xadd {i : ℕ} {author : SocketId} {msg : ClientCrdtMessage} {streamId : StreamId} :
    ∃ new lost, Flow D w { w with
      adding := w.adding.eraseIdx i
      replies := w.replies++[(author,.crdt msg (D.ctx author).userId streamId)]
      posted := w.posted++[⟨(D.ctx author).docId,some author,
        .crdt msg (D.ctx author).userId streamId⟩] } s new lost := by
  refine ⟨_,0,expected_posted w _ _ rfl,?_,fun _ _ => rfl,id⟩
  simp only [arriving,filterMap_appended,toList_ofReply,Option.some.injEq,ne_eq]
  abel

theorem flow_api {docId : DocId} {origin : InstanceId} {frame : Frame}
    (horigin : origin ∉ D.instances) : ∃ new lost, Flow D w { w with
      publishing := w.publishing++[(docId,⟨some origin,some frame⟩)]
      posted := w.posted++[⟨docId,none,frame⟩] } s new lost := by
  refine ⟨_,0,expected_posted w _ _ rfl,?_,fun _ _ => rfl,id⟩
  have hother : some origin ≠ some (D.ctx s).instanceId := by
    intro h
    exact horigin (Option.some.inj h ▸ D.hosted s)
  have hframe : ((ofMessage D s (docId,⟨some origin,some frame⟩)).toList : Multiset Frame) =
      if docId = (D.ctx s).docId ∧ none ≠ some s then {frame} else 0 := by
    unfold ofMessage
    by_cases hdoc : docId = (D.ctx s).docId
    · simp [hdoc,hother]
    · simp [hdoc]
  simp only [arriving,filterMap_appended,hframe]
  abel

/-- The frame of an answered XADD goes into the own room and onto the bus: between
them they serve whom the frame was for, closed sockets excepted. -/
theorem sent_fanOut (w : World) (author : SocketId) (frame : Frame) : ∃ lost : Multiset Frame,
    ((w.fanOut D author frame).sent s : Multiset Frame)+
      ((ofMessage D s ((D.ctx author).docId,
        ⟨some (D.ctx author).instanceId,some frame⟩)).toList : Multiset Frame)+lost =
      (w.sent s : Multiset Frame)+((ofReply D s (author,frame)).toList : Multiset Frame) ∧
    (Member D s → w.isOpen s = true → lost = 0) := by
  have hsent : (w.fanOut D author frame).sent s =
      if s ∈ D.rooms (D.ctx author).instanceId (D.ctx author).docId ∧ some s ≠ some author ∧
        w.isOpen s then w.sent s++[frame] else w.sent s := rfl
  rw [toList_ofReply,hsent]
  by_cases hauthor : author = s
  · subst hauthor
    exact ⟨0,by simp [ofMessage],fun _ _ => rfl⟩
  by_cases hdoc : (D.ctx author).docId = (D.ctx s).docId
  · rw [hdoc]
    by_cases hinstance : (D.ctx author).instanceId = (D.ctx s).instanceId
    · rw [hinstance]
      by_cases hroom : s ∈ D.rooms (D.ctx s).instanceId (D.ctx s).docId ∧ w.isOpen s = true
      · exact ⟨0,by simp [ofMessage,hroom,hauthor,Ne.symm hauthor,← Multiset.coe_add],
          fun _ _ => rfl⟩
      · refine ⟨{frame},?_,fun hmember hopen => absurd ⟨hmember,hopen⟩ hroom⟩
        rw [if_neg (fun hall => hroom ⟨hall.1,hall.2.2⟩)]
        simp [ofMessage,hauthor]
    · have hroom : s ∉ D.rooms (D.ctx author).instanceId (D.ctx s).docId :=
        fun hmem => hinstance (D.placed _ _ _ hmem).1.symm
      exact ⟨0,by simp [ofMessage,hroom,hauthor,hinstance],fun _ _ => rfl⟩
  · have hroom : s ∉ D.rooms (D.ctx author).instanceId (D.ctx author).docId :=
      fun hmem => hdoc (D.placed _ _ _ hmem).2.symm
    exact ⟨0,by simp [ofMessage,hroom,hdoc],fun _ _ => rfl⟩

/-- The handler goes on. -/
theorem flow_added {i : ℕ} {author : SocketId} {frame : Frame}
    (h : w.replies[i]? = some (author,frame)) : ∃ lost,
      Flow D w ({ w with replies := w.replies.eraseIdx i }.fanOut D author frame) s 0 lost := by
  obtain ⟨lost,hsum,hlost⟩ :=
    sent_fanOut (D := D) (s := s) { w with replies := w.replies.eraseIdx i } author frame
  refine ⟨lost,(add_zero _).symm,?_,hlost,id⟩
  have hold : arriving D w s = ((w.sent s : Multiset Frame)+
      ((ofReply D s (author,frame)).toList : Multiset Frame))+
        ((w.replies.eraseIdx i).filterMap (ofReply D s) : List Frame)+
        (w.publishing.filterMap (ofMessage D s) : List Frame)+
        ((w.inbox (D.ctx s).instanceId).filterMap (ofMessage D s) : List Frame) := by
    rw [arriving,filterMap_erased (ofReply D s) h]
    abel
  have hreplies : ({ w with replies := w.replies.eraseIdx i }.fanOut D author frame).replies =
      w.replies.eraseIdx i := rfl
  have hpublishing : ({ w with replies := w.replies.eraseIdx i }.fanOut D author
      frame).publishing = w.publishing++[((D.ctx author).docId,
        ⟨some (D.ctx author).instanceId,some frame⟩)] := rfl
  have hinbox : ({ w with replies := w.replies.eraseIdx i }.fanOut D author frame).inbox =
      w.inbox := rfl
  rw [hold,← hsum,arriving,hreplies,hpublishing,hinbox,filterMap_appended]
  abel

theorem toList_ofMessage (m : DocId × BusEnvelope) :
    ((ofMessage D s m).toList : Multiset Frame) =
      if m.1 = (D.ctx s).docId ∧ m.2.originInstance ≠ some (D.ctx s).instanceId then
        (m.2.frame.toList : Multiset Frame) else 0 := by
  unfold ofMessage
  split <;> rfl

/-- Redis executes a PUBLISH: only a socket in no room can be missed. -/
theorem flow_publish {i : ℕ} {docId : DocId} {env : BusEnvelope}
    (h : w.publishing[i]? = some (docId,env)) : ∃ lost,
      Flow D w ({ w with publishing := w.publishing.eraseIdx i }.deliver D docId env) s 0
        lost := by
  have hold : arriving D w s = (w.sent s : Multiset Frame)+
      (w.replies.filterMap (ofReply D s) : List Frame)+
      (((ofMessage D s (docId,env)).toList : Multiset Frame)+
        ((w.publishing.eraseIdx i).filterMap (ofMessage D s) : List Frame))+
      ((w.inbox (D.ctx s).instanceId).filterMap (ofMessage D s) : List Frame) := by
    rw [arriving,filterMap_erased (ofMessage D s) h]
  have hsent : ({ w with publishing := w.publishing.eraseIdx i }.deliver D docId env).sent =
      w.sent := rfl
  have hreplies : ({ w with publishing := w.publishing.eraseIdx i }.deliver D docId
      env).replies = w.replies := rfl
  have hpublishing : ({ w with publishing := w.publishing.eraseIdx i }.deliver D docId
      env).publishing = w.publishing.eraseIdx i := rfl
  have hinbox : ({ w with publishing := w.publishing.eraseIdx i }.deliver D docId env).inbox
      (D.ctx s).instanceId = if (D.ctx s).instanceId ∈ D.subscribed docId then
        w.inbox (D.ctx s).instanceId++[(docId,env)] else w.inbox (D.ctx s).instanceId := rfl
  by_cases hsubscribed : (D.ctx s).instanceId ∈ D.subscribed docId
  · refine ⟨0,(add_zero _).symm,?_,fun _ _ => rfl,id⟩
    rw [hold,arriving,hsent,hreplies,hpublishing,hinbox,if_pos hsubscribed,filterMap_appended]
    abel
  · refine ⟨((ofMessage D s (docId,env)).toList : Multiset Frame),(add_zero _).symm,?_,?_,id⟩
    · rw [hold,arriving,hsent,hreplies,hpublishing,hinbox,if_neg hsubscribed]
      abel
    · intro hmember _
      rw [toList_ofMessage,if_neg]
      rintro ⟨hdoc,-⟩
      dsimp only at hdoc
      exact hsubscribed (hdoc ▸ D.listening _ _ (List.ne_nil_of_mem hmember))

theorem busMessage_channelFor (instanceId : InstanceId) (docId : DocId) (env : BusEnvelope) :
    busMessage instanceId (channelFor docId) (some env) =
      if env.originInstance.any (fun origin => origin ≠ "" ∧ origin = instanceId) then none
      else env.frame.map (fun frame => (docId,frame)) := by
  unfold busMessage
  rw [docOfChannel_channelFor]

theorem hear_eq (w : World) (instanceId : InstanceId) (docId : DocId) (env : BusEnvelope) :
    w.hear D instanceId docId env =
      if env.originInstance.any (fun origin => origin ≠ "" ∧ origin = instanceId) then w
      else match env.frame with
        | some frame => w.broadcastLocal D instanceId docId frame none
        | none => w := by
  rw [World.hear,busMessage_channelFor]
  by_cases hown : env.originInstance.any (fun origin => origin ≠ "" ∧ origin = instanceId)
  · rw [if_pos hown,if_pos hown]
  · rw [if_neg hown,if_neg hown]
    cases env.frame <;> rfl

/-- What a message does to a socket of the instance that hears it. -/
theorem sent_hear (w : World) (instanceId : InstanceId) (docId : DocId) (env : BusEnvelope)
    (s : SocketId) : (w.hear D instanceId docId env).sent s =
      if env.originInstance.any (fun origin => origin ≠ "" ∧ origin = instanceId) ∨
          ¬(s ∈ D.rooms instanceId docId ∧ w.isOpen s = true) then w.sent s
      else w.sent s++env.frame.toList := by
  rw [hear_eq]
  by_cases hown : env.originInstance.any (fun origin => origin ≠ "" ∧ origin = instanceId)
  · rw [if_pos hown,if_pos (Or.inl hown)]
  · rw [if_neg hown]
    by_cases hroom : s ∈ D.rooms instanceId docId ∧ w.isOpen s = true
    · rw [if_neg (fun h => h.elim hown (fun hout => hout hroom))]
      cases env.frame with
      | none => exact (List.append_nil _).symm
      | some frame =>
        rw [sent_broadcast,if_pos ⟨hroom.1,Option.some_ne_none s,hroom.2⟩]
        rfl
    · rw [if_pos (Or.inr hroom)]
      cases env.frame with
      | none => rfl
      | some frame =>
        rw [sent_broadcast,if_neg (fun hall => hroom ⟨hall.1,hall.2.2⟩)]

theorem hear_rest (w : World) (instanceId : InstanceId) (docId : DocId) (env : BusEnvelope) :
    (w.hear D instanceId docId env).posted = w.posted ∧
      (w.hear D instanceId docId env).replies = w.replies ∧
      (w.hear D instanceId docId env).publishing = w.publishing ∧
      (w.hear D instanceId docId env).inbox = w.inbox ∧
      (w.hear D instanceId docId env).isOpen = w.isOpen := by
  unfold World.hear
  split <;> exact ⟨rfl,rfl,rfl,rfl,rfl⟩

def World.taken (w : World) (instanceId : InstanceId) (i : ℕ) : World :=
  { w with inbox := fun j =>
      if j = instanceId then (w.inbox instanceId).eraseIdx i else w.inbox j }

def due (D : Deployment) (instanceId : InstanceId) (m : DocId × BusEnvelope) (s : SocketId) :
    Multiset Frame :=
  if (D.ctx s).instanceId = instanceId then ((ofMessage D s m).toList : Multiset Frame) else 0

def heard (D : Deployment) (w : World) (instanceId : InstanceId) (docId : DocId)
    (env : BusEnvelope) (s : SocketId) : Multiset Frame :=
  if env.originInstance.any (fun origin => origin ≠ "" ∧ origin = instanceId) ∨
      ¬(s ∈ D.rooms instanceId docId ∧ w.isOpen s = true) then 0
  else (env.frame.toList : Multiset Frame)

theorem arriving_taken {instanceId : InstanceId} {i : ℕ} {m : DocId × BusEnvelope}
    (h : (w.inbox instanceId)[i]? = some m) :
    arriving D w s = arriving D (w.taken instanceId i) s+due D instanceId m s := by
  have hinbox : (w.taken instanceId i).inbox (D.ctx s).instanceId =
      if (D.ctx s).instanceId = instanceId then (w.inbox instanceId).eraseIdx i
      else w.inbox (D.ctx s).instanceId := rfl
  rw [arriving,arriving,hinbox,due]
  by_cases hinstance : (D.ctx s).instanceId = instanceId
  · rw [if_pos hinstance,if_pos hinstance,hinstance,filterMap_erased (ofMessage D s) h,
      add_comm ((ofMessage D s m).toList : Multiset Frame),← add_assoc]
    rfl
  · rw [if_neg hinstance,if_neg hinstance,add_zero]
    rfl

theorem arriving_hear (w : World) (instanceId : InstanceId) (docId : DocId) (env : BusEnvelope)
    (s : SocketId) : arriving D (w.hear D instanceId docId env) s =
      arriving D w s+heard D w instanceId docId env s := by
  obtain ⟨-,hreplies,hpublishing,hinbox,-⟩ := hear_rest (D := D) w instanceId docId env
  rw [arriving,arriving,hreplies,hpublishing,hinbox,sent_hear,heard]
  split
  · rw [add_zero]
  · rw [← Multiset.coe_add]
    abel

theorem heard_outside {instanceId : InstanceId} {docId : DocId} {env : BusEnvelope}
    (h : ¬(s ∈ D.rooms instanceId docId ∧ w.isOpen s = true)) :
    heard D w instanceId docId env s = 0 :=
  if_pos (Or.inr h)

/-- An own frame is worth nothing, and one that is not skipped reaches nobody
as long as the instance has a name. -/
theorem heard_own {docId : DocId} {env : BusEnvelope}
    (horigin : env.originInstance = some (D.ctx s).instanceId)
    (hnamed : env.frame ≠ none → (D.ctx s).instanceId ≠ "" ∨
      ∀ t ∈ D.rooms (D.ctx s).instanceId docId, w.isOpen t = false) :
    heard D w (D.ctx s).instanceId docId env s = 0 := by
  unfold heard
  cases hframe : env.frame with
  | none =>
    split <;> rfl
  | some frame =>
    rcases hnamed (by rw [hframe]; exact Option.some_ne_none _) with hname | hshut
    · refine if_pos (Or.inl ?_)
      simp [horigin,hname]
    · refine if_pos (Or.inr ?_)
      rintro ⟨hmem,hopen⟩
      rw [hshut s hmem] at hopen
      cases hopen

theorem heard_other {docId : DocId} {env : BusEnvelope}
    (horigin : env.originInstance ≠ some (D.ctx s).instanceId)
    (hroom : s ∈ D.rooms (D.ctx s).instanceId docId ∧ w.isOpen s = true) :
    heard D w (D.ctx s).instanceId docId env s = (env.frame.toList : Multiset Frame) := by
  refine if_neg ?_
  rw [not_or,not_not]
  refine ⟨?_,hroom⟩
  cases hcase : env.originInstance with
  | none => simp
  | some origin =>
    have hne : origin ≠ (D.ctx s).instanceId := fun heq => horigin (by rw [hcase,heq])
    simp [hne]

theorem heard_due {instanceId : InstanceId} {docId : DocId} {env : BusEnvelope}
    (hnamed : env.originInstance = some instanceId → env.frame ≠ none →
      instanceId ≠ "" ∨ ∀ t ∈ D.rooms instanceId docId, w.isOpen t = false) :
    ∃ lost, heard D w instanceId docId env s+lost = due D instanceId (docId,env) s ∧
      (Member D s → w.isOpen s = true → lost = 0) := by
  by_cases hinstance : (D.ctx s).instanceId = instanceId
  · subst hinstance
    rw [due,if_pos rfl,toList_ofMessage]
    dsimp only
    by_cases horigin : env.originInstance = some (D.ctx s).instanceId
    · refine ⟨0,?_,fun _ _ => rfl⟩
      rw [heard_own horigin (hnamed horigin),if_neg (fun hall => hall.2 horigin),add_zero]
    · by_cases hroom : s ∈ D.rooms (D.ctx s).instanceId docId ∧ w.isOpen s = true
      · refine ⟨0,?_,fun _ _ => rfl⟩
        have hdoc : docId = (D.ctx s).docId := (D.placed _ _ _ hroom.1).2.symm
        rw [heard_other horigin hroom,if_pos ⟨hdoc,horigin⟩,add_zero]
      · rw [heard_outside hroom]
        refine ⟨_,zero_add _,?_⟩
        intro hmember hopen
        refine if_neg ?_
        rintro ⟨rfl,-⟩
        exact hroom ⟨hmember,hopen⟩
  · have hroom : s ∉ D.rooms instanceId docId :=
      fun hmem => hinstance (D.placed _ _ _ hmem).1
    refine ⟨0,?_,fun _ _ => rfl⟩
    rw [heard_outside (fun hin => hroom hin.1),due,if_neg hinstance,add_zero]

/-- A message is heard: the own frames are skipped, the others served. -/
theorem flow_message {instanceId : InstanceId} {i : ℕ} {docId : DocId} {env : BusEnvelope}
    (h : (w.inbox instanceId)[i]? = some (docId,env))
    (hnamed : env.originInstance = some instanceId → env.frame ≠ none →
      instanceId ≠ "" ∨ ∀ t ∈ D.rooms instanceId docId, w.isOpen t = false) : ∃ lost,
      Flow D w ((w.taken instanceId i).hear D instanceId docId env) s 0 lost := by
  obtain ⟨hposted,-,-,-,hopen⟩ :=
    hear_rest (D := D) (w.taken instanceId i) instanceId docId env
  have hisOpen : ((w.taken instanceId i).hear D instanceId docId env).isOpen = w.isOpen :=
    hopen
  obtain ⟨lost,hsum,hlost⟩ := heard_due (D := D) (w := w.taken instanceId i) (s := s) hnamed
  refine ⟨lost,?_,?_,?_,fun hs => hisOpen ▸ hs⟩
  · rw [expected,hposted,add_zero]
    rfl
  · rw [add_zero,arriving_hear,arriving_taken h,add_assoc,hsum]
  · exact fun hmember hs => hlost hmember (hisOpen ▸ hs)

theorem flow_crdt (waiting : List (SocketId × ClientCrdtMessage)) :
    Flow D w { w with adding := waiting } s 0 0 where
  expected := (add_zero _).symm
  arriving := rfl
  lost := fun _ _ => rfl
  isOpen := id

theorem flow_close {closed : SocketId} : Flow D w { w with
    isOpen := fun i => if i = closed then false else w.isOpen i } s 0 0 where
  expected := (add_zero _).symm
  arriving := rfl
  lost := fun _ _ => rfl
  isOpen := by
    intro h
    dsimp only at h
    split at h
    · cases h
    · exact h

theorem flow_step {a : Action} (hstep : step D w a = some next) (hnamed : Named D w a)
    (s : SocketId) : ∃ new lost, Flow D w next s new lost := by
  cases a with
  | crdt author msg =>
    rw [step] at hstep
    split at hstep
    · obtain rfl := Option.some.inj hstep
      exact ⟨0,0,flow_crdt _⟩
    · obtain rfl := Option.some.inj hstep
      exact ⟨0,0,flow_crdt w.adding⟩
  | xadd i streamId =>
    rw [step] at hstep
    split at hstep
    · cases hstep
    · obtain rfl := Option.some.inj hstep
      exact flow_xadd
  | added i =>
    rw [step] at hstep
    split at hstep
    · cases hstep
    · next hreply =>
      obtain rfl := Option.some.inj hstep
      exact ⟨0,flow_added hreply⟩
  | api docId origin frame =>
    rw [step] at hstep
    split at hstep
    · cases hstep
    · next horigin =>
      obtain rfl := Option.some.inj hstep
      exact flow_api horigin
  | publish i =>
    rw [step] at hstep
    split at hstep
    · cases hstep
    · next hmessage =>
      obtain rfl := Option.some.inj hstep
      exact ⟨0,flow_publish hmessage⟩
  | message instanceId i =>
    rw [step] at hstep
    split at hstep
    · cases hstep
    · next docId env hmessage =>
      obtain rfl := Option.some.inj hstep
      exact ⟨0,flow_message hmessage (hnamed (docId,env) hmessage)⟩
  | close closed =>
    obtain rfl := Option.some.inj hstep
    exact ⟨0,0,flow_close⟩

/-- The echo that an instance without a name does not recognise: an open socket
of the room gets a frame nobody owes it. -/
theorem named_of_exactly {a : Action} (hw : ExactlyOnce D w) (hstep : step D w a = some next)
    (hnext : ExactlyOnce D next) : Named D w a := by
  cases a with
  | message instanceId i =>
    rintro ⟨docId,env⟩ hmessage horigin hframe
    by_contra hunnamed
    obtain ⟨hempty,hroom⟩ := not_or.mp hunnamed
    obtain ⟨s,hmem,hopened⟩ : ∃ s ∈ D.rooms instanceId docId, w.isOpen s = true := by
      simpa using hroom
    obtain ⟨hinstance,hdoc⟩ := D.placed _ _ _ hmem
    have hempty : instanceId = "" := not_not.mp hempty
    rw [step,hmessage] at hstep
    have htaken : next = (w.taken instanceId i).hear D instanceId docId env :=
      (Option.some.inj hstep).symm
    obtain ⟨hposted,-,-,-,hisOpen⟩ :=
      hear_rest (D := D) (w.taken instanceId i) instanceId docId env
    have hmember : Member D s := by
      rw [Member,hinstance,hdoc]
      exact hmem
    have hheard : heard D (w.taken instanceId i) instanceId docId env s =
        (env.frame.toList : Multiset Frame) := by
      refine if_neg ?_
      rw [not_or,not_not]
      exact ⟨by simp [hempty],hmem,hopened⟩
    have hdue : due D instanceId (docId,env) s = 0 := by
      rw [due,if_pos hinstance,toList_ofMessage]
      exact if_neg (fun hall => hall.2 (by rw [horigin,hinstance]))
    have hbefore := hw.all s hmember hopened
    have hafter := hnext.all s hmember (by rw [htaken,hisOpen]; exact hopened)
    rw [arriving_taken hmessage,hdue,add_zero] at hbefore
    rw [htaken,arriving_hear,hheard,hbefore,expected,expected,hposted] at hafter
    have hnone : (env.frame.toList : Multiset Frame) = 0 := add_eq_left.mp hafter
    cases hcase : env.frame with
    | none => exact hframe hcase
    | some frame =>
      rw [hcase] at hnone
      exact absurd hnone (Multiset.coe_eq_zero _ |>.not.mpr (List.cons_ne_nil _ _))
  | crdt | xadd | added | api | publish | close => trivial

theorem exactly_step {a : Action} (hw : ExactlyOnce D w) (hstep : step D w a = some next) :
    ExactlyOnce D next ↔ Named D w a :=
  ⟨named_of_exactly hw hstep,fun hnamed => flow_exact hw (flow_step hstep hnamed)⟩

theorem exactly_start (D : Deployment) (isOpen : SocketId → Bool) :
    ExactlyOnce D { isOpen } where
  atMost _ := le_refl _
  all _ _ _ := rfl

/-- For any number of instances, any rooms and any interleaving: the fan-out is
exactly once just when no instance without a name hears itself. -/
theorem fan_out_iff_named (D : Deployment) (isOpen : SocketId → Bool) (actions : List Action) :
    Throughout (step D) (ExactlyOnce D) { isOpen } actions ↔
      Along (step D) (Named D) { isOpen } actions :=
  throughout_iff_along (fun _ _ _ _ _ => trivial) (fun _ _ _ _ hw hstep => exactly_step hw hstep)
    trivial (exactly_start D isOpen)

/-- With nothing under way an open member has been sent what it was to receive. -/
theorem sent_settled (hw : ExactlyOnce D w) (hmember : Member D s) (hopen : w.isOpen s = true)
    (hreplies : w.replies = []) (hpublishing : w.publishing = [])
    (hinbox : w.inbox (D.ctx s).instanceId = []) :
    (w.sent s : Multiset Frame) = expected D w s := by
  rw [← hw.all s hmember hopen,arriving,hreplies,hpublishing,hinbox]
  simp only [List.filterMap_nil,Multiset.coe_nil,add_zero]

def unnamed : Deployment where
  instances := [""]
  ctx := fun _ => ⟨"",1,7⟩
  rooms := fun i d => if i = "" ∧ d = 1 then [0] else []
  subscribed := fun _ => [""]
  hosted := fun _ => List.mem_singleton_self _
  placed := by
    intro i d s hmem
    split at hmem
    · next h => exact ⟨h.1.symm,h.2.symm⟩
    · cases hmem
  listening := by
    intro i d hroom
    split at hroom
    · next h => exact h.1 ▸ List.mem_singleton_self _
    · exact absurd rfl hroom

def typing : List Action := [.crdt 0 typedMessage,.xadd 0 (1,0),.added 0,.publish 0,.message "" 0]

/-- The sender is sent its own frame by the bus. -/
theorem unnamed_hears_itself : ∃ w, exec (step unnamed) { isOpen := fun _ => true } typing =
    some w ∧ w.posted = [⟨1,some 0,.crdt typedMessage 7 (1,0)⟩] ∧
    w.sent 0 = [.crdt typedMessage 7 (1,0)] ∧ ¬ExactlyOnce unnamed w := by
  have hvalid : isValidBase64NonEmpty typedMessage.delta = true := by decide +kernel
  have hcrdt : step unnamed { isOpen := fun _ => true } (.crdt 0 typedMessage) =
      some { isOpen := fun _ => true, adding := [(0,typedMessage)] } := by
    rw [step,if_pos hvalid]
    rfl
  have hrun : (exec (step unnamed) { isOpen := fun _ => true } typing).map
      (fun w => (w.posted,w.sent 0)) =
        some ([⟨1,some 0,.crdt typedMessage 7 (1,0)⟩],[.crdt typedMessage 7 (1,0)]) := by
    rw [typing,exec,hcrdt]
    rfl
  obtain ⟨w,hw,hresult⟩ := Option.map_eq_some_iff.mp hrun
  obtain ⟨hposted,hsent⟩ := Prod.mk.inj hresult
  refine ⟨w,hw,hposted,hsent,fun hexactly => ?_⟩
  have hnothing : expected unnamed w 0 = 0 := by
    rw [expected,hposted]
    rfl
  have hless := hexactly.atMost 0
  rw [hnothing,arriving,hsent,Multiset.le_zero,add_eq_zero,add_eq_zero,add_eq_zero] at hless
  exact List.cons_ne_nil _ _ ((Multiset.coe_eq_zero _).mp hless.1.1.1)

end BlockDocs.FanOut
