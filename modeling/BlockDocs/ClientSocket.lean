import BlockDocs.WsServer

/-!
# The browser's end of a connection

Messages given to the client before its socket opens wait in a queue, and the
queue goes out as soon as the socket is open. The cursor follows the frames.
-/

set_option autoImplicit false

namespace BlockDocs.ClientSocket
open BlockDocs.Wire BlockDocs.DeltaPipeline BlockDocs.Protocol BlockDocs.WsServer

structure WsClient where
  lastStreamId : Option StreamId := none
  isOpen : Bool := false
  sendQueue : List ClientMessage := []

/-! ## Sending

Each operation also says what it writes on the socket. -/

def WsClient.send (c : WsClient) (msg : ClientMessage) : WsClient × List ClientMessage :=
  if c.isOpen then (c,[msg]) else ({ c with sendQueue := c.sendQueue++[msg] },[])

def WsClient.flushSendQueue (c : WsClient) : WsClient × List ClientMessage :=
  if c.isOpen then ({ c with sendQueue := [] },c.sendQueue) else (c,[])

def WsClient.opened (c : WsClient) : WsClient × List ClientMessage :=
  { c with isOpen := true }.flushSendQueue

def WsClient.closed (c : WsClient) : WsClient × List ClientMessage :=
  ({ c with isOpen := false },[])

inductive Event where
  | send (msg : ClientMessage)
  | opened
  | closed

def clientStep (c : WsClient) : Event → WsClient × List ClientMessage
  | .send msg => c.send msg
  | .opened => c.opened
  | .closed => c.closed

/-- The client and everything written so far. -/
def clientRun : WsClient → List Event → WsClient × List ClientMessage
  | c, [] => (c,[])
  | c, e::es =>
    ((clientRun (clientStep c e).1 es).1,
      (clientStep c e).2++(clientRun (clientStep c e).1 es).2)

def given : Event → Option ClientMessage
  | .send msg => some msg
  | _ => none

def Flushed (c : WsClient) : Prop := c.isOpen = true → c.sendQueue = []

variable {c : WsClient}

theorem clientStep_flushed (e : Event) (h : Flushed c) : Flushed (clientStep c e).1 := by
  cases e with
  | send msg =>
    simp only [clientStep,WsClient.send]
    split
    · exact h
    · next hclosed => exact fun hopen => absurd hopen hclosed
  | opened => exact fun _ => rfl
  | closed => exact fun hopen => nomatch hopen

theorem clientStep_messages (e : Event) (h : Flushed c) :
    (clientStep c e).2++(clientStep c e).1.sendQueue = c.sendQueue++(given e).toList := by
  cases e with
  | send msg =>
    simp only [clientStep,WsClient.send]
    split
    · next hopen => rw [h hopen]; rfl
    · rfl
  | opened => simp [clientStep,WsClient.opened,WsClient.flushSendQueue,given]
  | closed => simp [clientStep,WsClient.closed,given]

/-- The client itself loses nothing and keeps the order: what it has written and
what it still holds are the messages it was given. -/
theorem clientRun_messages (es : List Event) (h : Flushed c) :
    (clientRun c es).2++(clientRun c es).1.sendQueue = c.sendQueue++es.filterMap given := by
  induction es generalizing c with
  | nil => simp [clientRun]
  | cons e es ih =>
    have hstep := clientStep_messages e h
    have hrest := ih (clientStep_flushed e h)
    calc ((clientStep c e).2++(clientRun (clientStep c e).1 es).2)++
          (clientRun (clientStep c e).1 es).1.sendQueue
        = (clientStep c e).2++((clientStep c e).1.sendQueue++es.filterMap given) := by
          rw [List.append_assoc,hrest]
      _ = c.sendQueue++((given e).toList++es.filterMap given) := by
          rw [← List.append_assoc,hstep,List.append_assoc]
      _ = c.sendQueue++(e::es).filterMap given := by
          cases hgiven : given e <;> simp [hgiven]

/-! ## The cursor -/

def ServerMessage.streamId : ServerMessage → Option StreamId
  | .crdt _ _ streamId => some streamId
  | .remote_ops _ _ streamId => some streamId
  | .replay_done streamId => some streamId
  | _ => none

/-- Every frame with a stream id overwrites the cursor; hello fills only an empty one. -/
def WsClient.track (c : WsClient) (msg : ServerMessage) : WsClient :=
  match msg with
  | .hello _ lastStreamId =>
    if c.lastStreamId = none then { c with lastStreamId := some lastStreamId } else c
  | .reload_required => { c with lastStreamId := none }
  | msg => { c with lastStreamId := (ServerMessage.streamId msg).or c.lastStreamId }

end BlockDocs.ClientSocket
