import BlockDocs.Protocol

/-!
# One WebSocket instance and one document

A connection is set up across a subscribe round trip and a replay. The
subscriber connection and the command connection are two queues of their own;
entries reach the stream from this instance and from elsewhere.
-/

set_option autoImplicit false

namespace BlockDocs.WsServer
open BlockDocs.Wire BlockDocs.DeltaPipeline BlockDocs.Protocol

abbrev SocketId := ℕ
abbrev ClientId := ℕ

/-- A delta without its block id or its text is incomplete; an entry of another
kind, or whose ops are no JSON, is unreadable. -/
inductive Body where
  | crdt (msg : ClientCrdtMessage)
  | ops (ops : List WireOp)
  | incomplete
  | unreadable

/-- `author` is the client it comes from; `here` tells whether this instance
appended it. -/
structure Entry where
  id : StreamId
  author : ClientId
  userId : UserId
  here : Bool
  body : Body

inductive ServerMessage where
  | hello (userId : UserId) (lastStreamId : StreamId)
  | crdt (msg : ClientCrdtMessage) (userId : UserId) (streamId : StreamId)
  | remote_ops (ops : List WireOp) (userId : UserId) (streamId : StreamId)
  | replay_done (streamId : StreamId)
  | reload_required

def Entry.frame (e : Entry) : Option ServerMessage :=
  match e.body with
  | .crdt msg => some (.crdt msg e.userId e.id)
  | .ops ops => some (.remote_ops ops e.userId e.id)
  | .incomplete => none
  | .unreadable => none

/-- A replay passes an incomplete delta over without moving on to its id. -/
def Entry.counted (e : Entry) : Bool :=
  match e.body with
  | .incomplete => false
  | _ => true

/-- Where the connection handler stands. It returns early from a failed join,
a failed replay and a trimmed one; at the end it listens. -/
inductive Phase where
  | joining
  | inspecting
  | ranging
  | listening
  | failed
  | trimmed
  deriving DecidableEq, Repr

structure Socket where
  client : ClientId
  userId : UserId
  sinceStreamId : Option StreamId
  phase : Phase := .joining
  isOpen : Bool := true
  sent : List ServerMessage := []
  received : List (Option Json) := []
  dispatched : List ClientMessage := []

def zeroId : StreamId := toLex (0,0)

def Socket.cursor (c : Socket) : StreamId := c.sinceStreamId.getD zeroId

inductive SubCommand where
  | subscribe (s : SocketId)
  | unsubscribe

inductive SubEvent where
  | subscribed (s : SocketId) (ok : Bool)
  | message (e : Entry)

inductive Command where
  | xinfo (s : SocketId)
  | xrange (s : SocketId) (sinceStreamId : StreamId)
  | xadd (s : SocketId) (msg : ClientCrdtMessage)
  | publish (e : Entry)

/-- A stream that is missing has no first entry; a failed read has no entries. -/
inductive Reply where
  | info (s : SocketId) (firstEntry : Option StreamId)
  | entries (s : SocketId) (entries : Option (List Entry))
  | added (s : SocketId) (e : Option Entry)

/-- `unpublished` holds the entries from elsewhere whose PUBLISH is outstanding. -/
structure World where
  added : List Entry := []
  stream : List Entry := []
  unpublished : List Entry := []
  subscribed : Bool := false
  subOut : List SubCommand := []
  subIn : List SubEvent := []
  cmdOut : List Command := []
  cmdIn : List Reply := []
  room : List SocketId := []
  sockets : SocketId → Option Socket := fun _ => none
  next : SocketId := 0

inductive Action where
  | connect (client : ClientId) (userId : UserId) (sinceStreamId : Option StreamId)
  | close (s : SocketId)
  | frame (s : SocketId) (raw : Option Json)
  | subExec (ok : Bool)
  | subRecv
  | cmdExec (ok : Bool) (id : StreamId)
  | cmdRecv
  | xadd (e : Entry)
  | publish (i : ℕ)
  | trim (n : ℕ)

/-! ## Sockets and the room -/

def Socket.send (frames : List ServerMessage) (c : Socket) : Socket :=
  if c.isOpen then { c with sent := c.sent++frames } else c

def Socket.closed (c : Socket) : Socket := { c with isOpen := false }

def Socket.hear (raw : Option Json) (c : Socket) : Socket :=
  { c with received := c.received++[raw] }

def Socket.enter (phase : Phase) (c : Socket) : Socket := { c with phase := phase }

def Socket.shut (phase : Phase) (c : Socket) : Socket :=
  { c with phase := phase, isOpen := false }

def World.modify (w : World) (s : SocketId) (f : Socket → Socket) : World :=
  { w with sockets := fun i => if i = s then (w.sockets i).map f else w.sockets i }

/-- A continuation of the handler: it changes its socket and issues commands. -/
def World.advance (w : World) (s : SocketId) (f : Socket → Socket) (commands : List Command) :
    World :=
  { w.modify s f with cmdOut := w.cmdOut++commands }

def World.broadcastLocal (w : World) (frames : List ServerMessage)
    (except : Option SocketId) : World :=
  { w with sockets := fun i =>
      if i ∈ w.room ∧ except ≠ some i then (w.sockets i).map (Socket.send frames)
      else w.sockets i }

def World.leave (w : World) (s : SocketId) : World :=
  let room := w.room.filter (· ≠ s)
  { w with
    room := room
    subOut := if s ∈ w.room ∧ room = [] then w.subOut++[.unsubscribe] else w.subOut }

/-! ## The connection handler -/

/-- How the replay starts: with a cursor of `0-0` nothing counts as trimmed. -/
def replayStart (s : SocketId) : Option StreamId → Phase × List Command
  | none => (.listening,[])
  | some since => if since = zeroId then (.ranging,[.xrange s since]) else (.inspecting,[.xinfo s])

def World.joined (w : World) (s : SocketId) (c : Socket) : World :=
  let start := replayStart s c.sinceStreamId
  w.advance s (fun c' =>
    (c'.send [.hello c.userId c.cursor]).enter start.1) start.2

def World.enroll (w : World) (c : Socket) : World :=
  { w with
    next := w.next+1
    sockets := fun i => if i = w.next then some c else w.sockets i
    room := w.room++[w.next] }

/-- Only the first member of a room waits for the subscription. -/
def World.connect (w : World) (c : Socket) : World :=
  if w.room = [] then { w.enroll c with subOut := w.subOut++[.subscribe w.next] }
  else (w.enroll c).joined w.next c

/-- The reply to XINFO: the replay stops where the cursor lies before the first entry. -/
def World.inspected (w : World) (s : SocketId) (c : Socket) (firstEntry : Option StreamId) :
    World :=
  if firstEntry.any (fun first => c.cursor < first) then
    w.advance s (fun c' => (c'.send [.reload_required]).shut .trimmed) []
  else w.advance s (Socket.enter .ranging) [.xrange s c.cursor]

def replayedTo (since : StreamId) (entries : List Entry) : StreamId :=
  entries.foldl (fun last e => if e.counted then e.id else last) since

def replayFrames (since : StreamId) (entries : List Entry) : List ServerMessage :=
  entries.filterMap Entry.frame++[.replay_done (replayedTo since entries)]

def World.replayed (w : World) (s : SocketId) (c : Socket) : Option (List Entry) → World
  | none => w.advance s (Socket.shut .failed) []
  | some entries =>
    w.advance s (fun c' =>
      (c'.send (replayFrames c.cursor entries)).enter .listening) []

/-- The commands that a parsed message leads to: a valid delta is appended. Ops
leave through HTTP, and awareness goes to the room without a stream id. -/
def handlerCommands (s : SocketId) : ClientMessage → List Command
  | .crdt msg => if isValidBase64NonEmpty msg.delta then [.xadd s msg] else []
  | _ => []

def World.handle (w : World) (s : SocketId) (raw : Option Json) : World :=
  match parsed raw with
  | none => w
  | some msg =>
    w.advance s (fun c => { c with dispatched := c.dispatched++[msg] })
      (handlerCommands s msg)

/-- A frame that finds no listener is gone. -/
def World.receive (w : World) (s : SocketId) (c : Socket) (raw : Option Json) : World :=
  if c.phase = .listening then (w.modify s (Socket.hear raw)).handle s raw
  else w.modify s (Socket.hear raw)

/-! ## Redis -/

def World.append (w : World) (e : Entry) : World :=
  { w with added := w.added++[e], stream := w.stream++[e] }

/-- Redis gives every new entry a greater id; no entry has the id `0-0`. -/
def World.fresh (w : World) (id : StreamId) : Bool :=
  zeroId < id && w.added.all (fun e => e.id < id)

def World.deliver (w : World) (e : Entry) : World :=
  if w.subscribed then { w with subIn := w.subIn++[.message e] } else w

def World.execSub (w : World) (ok : Bool) : SubCommand → World
  | .subscribe s =>
    { w with subscribed := w.subscribed || ok, subIn := w.subIn++[.subscribed s ok] }
  | .unsubscribe => { w with subscribed := w.subscribed && !ok }

/-- The bus listener skips what its own instance has published. -/
def World.recvSub (w : World) : SubEvent → World
  | .subscribed s ok =>
    match w.sockets s with
    | none => w
    | some c => if ok then w.joined s c else w.advance s (Socket.shut .failed) []
  | .message e => if e.here then w else w.broadcastLocal e.frame.toList none

def World.execCmd (w : World) (ok : Bool) (id : StreamId) : Command → Option World
  | .xinfo s => some { w with
      cmdIn := w.cmdIn++[.info s (if ok then w.stream.head?.map Entry.id else none)] }
  | .xrange s since => some { w with
      cmdIn := w.cmdIn++[.entries s
        (if ok then some (w.stream.filter (fun e => since < e.id)) else none)] }
  | .xadd s msg =>
    if ok then
      match w.sockets s with
      | none => none
      | some c =>
        if w.fresh id then
          let e : Entry := ⟨id,c.client,c.userId,true,.crdt msg⟩
          some { w.append e with cmdIn := w.cmdIn++[.added s (some e)] }
        else none
    else some { w with cmdIn := w.cmdIn++[.added s none] }
  | .publish e => some (w.deliver e)

def World.recvCmd (w : World) : Reply → World
  | .info s firstEntry =>
    match w.sockets s with
    | none => w
    | some c => w.inspected s c firstEntry
  | .entries s entries =>
    match w.sockets s with
    | none => w
    | some c => w.replayed s c entries
  | .added _ none => w
  | .added s (some e) =>
    let w' := w.broadcastLocal e.frame.toList (some s)
    { w' with cmdOut := w.cmdOut++[.publish e] }

def step (w : World) : Action → Option World
  | .connect client userId sinceStreamId =>
    some (w.connect { client := client, userId := userId, sinceStreamId := sinceStreamId })
  | .close s =>
    match w.sockets s with
    | none => none
    | some c =>
      if c.isOpen then
        some (if c.phase = .listening then (w.modify s Socket.closed).leave s
          else w.modify s Socket.closed)
      else none
  | .frame s raw =>
    match w.sockets s with
    | none => none
    | some c => if c.isOpen then some (w.receive s c raw) else none
  | .subExec ok =>
    match w.subOut with
    | [] => none
    | c::rest => some ({ w with subOut := rest }.execSub ok c)
  | .subRecv =>
    match w.subIn with
    | [] => none
    | e::rest => some ({ w with subIn := rest }.recvSub e)
  | .cmdExec ok id =>
    match w.cmdOut with
    | [] => none
    | c::rest => { w with cmdOut := rest }.execCmd ok id c
  | .cmdRecv =>
    match w.cmdIn with
    | [] => none
    | r::rest => some ({ w with cmdIn := rest }.recvCmd r)
  | .xadd e =>
    if w.fresh e.id ∧ e.here = false then
      some { w.append e with unpublished := w.unpublished++[e] }
    else none
  | .publish i =>
    match w.unpublished[i]? with
    | none => none
    | some e => some ({ w with unpublished := w.unpublished.eraseIdx i }.deliver e)
  | .trim n => if n < w.stream.length then some { w with stream := w.stream.drop n } else none

end BlockDocs.WsServer
