import BlockDocs.DeltaPipeline
import BlockDocs.StreamIds
import Mathlib

/-!
# Replayed and live frames

An entry is written as flat text by the WebSocket server or by the api, and
its frame is broadcast live, over the bus as JSON text. A replay decodes the
entries above its cursor into frames again.
-/

set_option autoImplicit false

namespace BlockDocs.ReplayFrames
open BlockDocs.InsertionMap BlockDocs.Wire BlockDocs.DeltaPipeline BlockDocs.StreamIds

/-- `json.dumps` of the api, `JSON.stringify` and `JSON.parse` of the server. -/
structure JsonText where
  dumps : Json → String
  stringify : Json → String
  parse : String → Option Json

variable (J : JsonText)

/-! ## Frames -/

def userIdJson : Option UserId → Json
  | some userId => .num userId
  | none => .null

def idJson (id : StreamId) : Json := .str (String.ofList (idText id))

def crdtJson (frame : CrdtFrame) : Json :=
  .obj [("ch",.str "crdt"),("blockId",.str frame.blockId),("delta",.str frame.delta),
    ("userId",userIdJson frame.userId),("streamId",idJson frame.streamId)]

def remoteOps (ops : Json) (userId : Option UserId) (streamId : StreamId) : Json :=
  .obj [("ch",.str "remote_ops"),("ops",ops),("userId",userIdJson userId),
    ("streamId",idJson streamId)]

def reloadRequired : Json := .obj [("ch",.str "reload_required"),("reason",.str "stream_trimmed")]

def replayDone (streamId : List Char) : Json :=
  .obj [("ch",.str "replay_done"),("streamId",.str (String.ofList streamId))]

/-! ## The live path -/

def envelope (originInstance : String) (frame : Json) : Json :=
  .obj [("originInstance",.str originInstance),("frame",frame)]

def busFrame (message : String) : Option Json :=
  match J.parse message with
  | some (.obj env) => lookup "frame" env
  | _ => none

def xaddOpsFields (opsJson : String) (userId : UserId) : List String :=
  ["kind","ops","ops",opsJson,"userId",toString userId]

/-- The entry that a write left in the stream, with a frame that was broadcast
for it: in the room of the socket, or out of a message of the bus. The texts of
the bus and of the stream give back the values that were printed. -/
inductive Wrote : StreamRecord → Json → Prop where
  | own {userId : UserId} {streamId : StreamId} {msg : ClientCrdtMessage}
      {record : StreamRecord} {frame : CrdtFrame}
      (h : handleCrdt userId (.id streamId) msg = some (record,frame)) :
      Wrote record (crdtJson frame)
  | relayed {userId : UserId} {streamId : StreamId} {msg : ClientCrdtMessage}
      {record : StreamRecord} {frame : CrdtFrame} {live : Json} (instanceId : String)
      (h : handleCrdt userId (.id streamId) msg = some (record,frame))
      (hbus : busFrame J (J.stringify (envelope instanceId (crdtJson frame))) = some live)
      (hmessage : J.parse (J.stringify (envelope instanceId (crdtJson frame))) =
        some (envelope instanceId (crdtJson frame))) : Wrote record live
  | ops (ops : Json) (userId : UserId) (streamId : StreamId) {live : Json}
      (hbus : busFrame J (J.dumps (envelope "api" (remoteOps ops (some userId) streamId))) =
        some live)
      (hmessage : J.parse (J.dumps (envelope "api" (remoteOps ops (some userId) streamId))) =
        some (envelope "api" (remoteOps ops (some userId) streamId)))
      (hops : J.parse (J.dumps ops) = some ops) :
      Wrote ⟨streamId,xaddOpsFields (J.dumps ops) userId⟩ live

/-! ## Replay -/

structure Replay where
  trimmed : Bool
  sent : List Json
  lastStreamId : List Char
  framesSent : ℕ

/-- `first` is the id of the first entry, where XINFO has found one. An id that
`compareStreamIds` cannot read counts for nothing. -/
def reportsTrim (first : Option StreamId) (sinceStreamId : List Char) : Bool :=
  sinceStreamId ≠ "0-0".toList &&
    match first, readStreamId sinceStreamId with
    | some firstId, some cursor => cursor < firstId
    | _, _ => false

/-- The frames of an entry; an entry that the loop skips does not count. -/
def entryFrames (record : StreamRecord) : Option (List Json) :=
  let m := fieldsToMap record.fields
  let userId := ((lookup "userId" m).getD "0").toNat?
  if lookup "kind" m = some "crdt" then (replayCrdt record).map (fun frame => [crdtJson frame])
  else if lookup "kind" m = some "ops" then
    match J.parse ((lookup "ops" m).getD "[]") with
    | some ops => some [remoteOps ops userId record.id]
    | none => some []
  else some []

def Replay.entry (r : Replay) (record : StreamRecord) : Replay :=
  match entryFrames J record with
  | none => r
  | some frames => { r with
      sent := r.sent++frames
      lastStreamId := idText record.id
      framesSent := r.framesSent+frames.length }

/-- A replay on a socket that stays open. Redis refuses a range that starts at
no id. -/
def runReplay (first : Option StreamId) (stream : List StreamRecord)
    (sinceStreamId : List Char) : Option Replay :=
  if reportsTrim first sinceStreamId then some ⟨true,[reloadRequired],sinceStreamId,0⟩
  else (readStreamId sinceStreamId).map (fun cursor =>
    let r := (stream.filter (fun record => cursor < record.id)).foldl (Replay.entry J)
      ⟨false,[],sinceStreamId,0⟩
    { r with sent := r.sent++[replayDone r.lastStreamId] })

/-- The loop does not touch the flag. -/
theorem trimmed_entries (stream : List StreamRecord) (r : Replay) :
    (stream.foldl (Replay.entry J) r).trimmed = r.trimmed := by
  induction stream generalizing r with
  | nil => rfl
  | cons record stream ih =>
    rw [List.foldl_cons,ih]
    unfold Replay.entry
    split <;> rfl

/-! ## The same frames -/

variable {J}

theorem busFrame_envelope {text originInstance : String} {frame : Json}
    (h : J.parse text = some (envelope originInstance frame)) :
    busFrame J text = some frame := by
  rw [busFrame,h]
  rfl

theorem ops_read (opsJson : String) (userId : UserId) :
    fieldsToMap (xaddOpsFields opsJson userId) =
      [("kind","ops"),("ops",opsJson),("userId",toString userId)] := by
  simp [fieldsToMap,fieldsFrom,xaddOpsFields,put]

/-- The entry of a relayed delta is replayed as the frame that was relayed. -/
theorem crdt_replayed {userId : UserId} {streamId : StreamId} {msg : ClientCrdtMessage}
    {record : StreamRecord} {frame : CrdtFrame}
    (h : handleCrdt userId (.id streamId) msg = some (record,frame)) :
    entryFrames J record = some [crdtJson frame] := by
  unfold handleCrdt at h
  split at h
  · obtain ⟨rfl,rfl⟩ := Prod.mk.inj (Option.some.inj h)
    have hframe : replayCrdt ⟨streamId,xaddFields msg userId⟩ =
        some ⟨msg.blockId,msg.delta,some userId,streamId⟩ := by
      rw [replayCrdt,fields_read]
      simp [lookup,msg.blockId_min,msg.delta_min]
    rw [entryFrames,hframe,fields_read]
    rfl
  · cases h

theorem ops_replayed {ops : Json} (hops : J.parse (J.dumps ops) = some ops) (userId : UserId)
    (streamId : StreamId) : entryFrames J ⟨streamId,xaddOpsFields (J.dumps ops) userId⟩ =
      some [remoteOps ops (some userId) streamId] := by
  rw [entryFrames,ops_read]
  simp [lookup,hops]

/-- Whoever wrote the entry, its replay is the live frame. -/
theorem entry_replayed {record : StreamRecord} {live : Json} (h : Wrote J record live) :
    entryFrames J record = some [live] := by
  cases h with
  | own h => exact crdt_replayed h
  | relayed instanceId h hbus hmessage =>
    rw [busFrame_envelope hmessage] at hbus
    rw [← Option.some.inj hbus]
    exact crdt_replayed h
  | ops ops userId streamId hbus hmessage hops =>
    rw [busFrame_envelope hmessage] at hbus
    rw [← Option.some.inj hbus]
    exact ops_replayed hops userId streamId

def lastIdOf (sinceStreamId : List Char) (written : List (StreamRecord × Json)) : List Char :=
  (written.getLast?.map (fun x => idText x.1.id)).getD sinceStreamId

theorem entries_replayed {written : List (StreamRecord × Json)}
    (h : ∀ x ∈ written, Wrote J x.1 x.2) (r : Replay) :
    (written.map Prod.fst).foldl (Replay.entry J) r = { r with
      sent := r.sent++written.map Prod.snd
      lastStreamId := lastIdOf r.lastStreamId written
      framesSent := r.framesSent+written.length } := by
  induction written generalizing r with
  | nil => simp [lastIdOf]
  | cons x written ih =>
    have hone : Replay.entry J r x.1 = { r with
        sent := r.sent++[x.2]
        lastStreamId := idText x.1.id
        framesSent := r.framesSent+1 } := by
      rw [Replay.entry,entry_replayed (h x List.mem_cons_self)]
      rfl
    have hlast : lastIdOf (idText x.1.id) written = lastIdOf r.lastStreamId (x::written) := by
      cases written with
      | nil => rfl
      | cons y written => rfl
    rw [List.map_cons,List.foldl_cons,hone,ih (fun y hy => h y (List.mem_cons_of_mem _ hy))]
    dsimp only
    rw [hlast,List.append_assoc,List.length_cons,Nat.add_right_comm]
    rfl

def above (cursor : StreamId) (written : List (StreamRecord × Json)) :
    List (StreamRecord × Json) :=
  written.filter (fun x => cursor < x.1.id)

theorem above_records (cursor : StreamId) (written : List (StreamRecord × Json)) :
    (written.map Prod.fst).filter (fun record => cursor < record.id) =
      (above cursor written).map Prod.fst :=
  List.filter_map

/-- Unless it reports a trim, a replay sends the live frames of the entries
above the cursor in the order of their ids, and then the last of the ids. -/
theorem replay_is_live {written : List (StreamRecord × Json)} {first : Option StreamId}
    {sinceStreamId : List Char} {cursor : StreamId} (h : ∀ x ∈ written, Wrote J x.1 x.2)
    (hsorted : written.Pairwise (fun x y => x.1.id < y.1.id))
    (hcursor : readStreamId sinceStreamId = some cursor)
    (hkept : reportsTrim first sinceStreamId = false) :
    (∃ r, runReplay J first (written.map Prod.fst) sinceStreamId = some r ∧
      r.trimmed = false ∧
      r.sent = (above cursor written).map Prod.snd++
        [replayDone (lastIdOf sinceStreamId (above cursor written))] ∧
      r.lastStreamId = lastIdOf sinceStreamId (above cursor written) ∧
      r.framesSent = (above cursor written).length) ∧
    (above cursor written).Pairwise (fun x y => x.1.id < y.1.id) := by
  have hwritten : ∀ x ∈ above cursor written, Wrote J x.1 x.2 :=
    fun x hx => h x (List.mem_filter.mp hx).1
  refine ⟨?_,hsorted.filter _⟩
  rw [runReplay,hkept,hcursor,Option.map_some]
  refine ⟨_,rfl,?_⟩
  rw [above_records,entries_replayed hwritten]
  exact ⟨rfl,rfl,rfl,Nat.zero_add _⟩

def deletion : Json :=
  .arr [.obj [("op",.str "delete_block"),("blockId",.str (uuidText 1)),("payload",.obj []),
    ("version",.num 2),
    ("block",.obj [("blockId",.str (uuidText 1)),("deleted",.bool true)])]]

def deletionText : String :=
  "[\x7b\"op\": \"delete_block\", \"blockId\": \"" ++ uuidText 1 ++
    "\", \"payload\": \x7b\x7d, \"version\": 2, \"block\": \x7b\"blockId\": \"" ++ uuidText 1 ++
    "\", \"deleted\": true\x7d\x7d]"

def deletionMessage : Json := envelope "api" (remoteOps deletion (some 7) (3,0))

def deletionMessageText : String :=
  "\x7b\"originInstance\": \"api\", \"frame\": \x7b\"ch\": \"remote_ops\", \"ops\": " ++
    deletionText ++ ", \"userId\": 7, \"streamId\": \"3-0\"\x7d\x7d"

def typedFrame : CrdtFrame := ⟨typedMessage.blockId,typedMessage.delta,some 7,(2,0)⟩

def typedMessageText : String :=
  "\x7b\"originInstance\":\"ws-2\",\"frame\":\x7b\"ch\":\"crdt\",\"blockId\":\"" ++ uuidText 1 ++
    "\",\"delta\":\"" ++ typedMessage.delta ++ "\",\"userId\":7,\"streamId\":\"2-0\"\x7d\x7d"

def sampleParse (text : String) : Option Json :=
  if text = deletionText then some deletion
  else if text = deletionMessageText then some deletionMessage
  else if text = typedMessageText then some (envelope "ws-2" (crdtJson typedFrame))
  else none

def sampleJson : JsonText where
  dumps
    | .arr _ => deletionText
    | _ => deletionMessageText
  stringify _ := typedMessageText
  parse text := sampleParse text

def sampleWritten : List (StreamRecord × Json) :=
  [(⟨(2,0),xaddFields typedMessage 7⟩,crdtJson typedFrame),
    (⟨(3,0),xaddOpsFields deletionText 7⟩,remoteOps deletion (some 7) (3,0))]

theorem sample_wrote : ∀ x ∈ sampleWritten, Wrote sampleJson x.1 x.2 := by
  have hmessage : sampleJson.parse (sampleJson.dumps deletionMessage) = some deletionMessage := by
    have hne : deletionMessageText ≠ deletionText := by decide +kernel
    simp only [sampleJson,deletionMessage,envelope]
    rw [sampleParse,if_neg hne,if_pos (Eq.refl deletionMessageText)]
    rfl
  have htyped : sampleJson.parse (sampleJson.stringify (envelope "ws-2" (crdtJson typedFrame))) =
      some (envelope "ws-2" (crdtJson typedFrame)) := by
    have hne : typedMessageText ≠ deletionText := by decide +kernel
    have hne' : typedMessageText ≠ deletionMessageText := by decide +kernel
    simp only [sampleJson]
    rw [sampleParse,if_neg hne,if_neg hne',if_pos (Eq.refl typedMessageText)]
  have hdeletion : sampleJson.parse (sampleJson.dumps deletion) = some deletion := by
    simp only [sampleJson,deletion]
    rw [sampleParse,if_pos (Eq.refl deletionText)]
    rfl
  have hhandled : handleCrdt 7 (.id (2,0)) typedMessage =
      some (⟨(2,0),xaddFields typedMessage 7⟩,typedFrame) := by
    have hvalid : isValidBase64NonEmpty typedMessage.delta = true := by decide +kernel
    unfold handleCrdt
    rw [if_pos hvalid]
    rfl
  intro x hx
  rcases List.mem_cons.mp hx with rfl | hx
  · exact .relayed "ws-2" hhandled (busFrame_envelope htyped) htyped
  · rw [List.mem_singleton.mp hx]
    exact .ops deletion 7 (3,0) (busFrame_envelope hmessage) hmessage hdeletion

/-- A client that has seen the entry `1-0` gets the frames of the other two. -/
theorem sample_replayed_live :
    (∃ r, runReplay sampleJson (some (1,0)) (sampleWritten.map Prod.fst) "1-0".toList = some r ∧
      r.trimmed = false ∧
      r.sent = (above (1,0) sampleWritten).map Prod.snd++
        [replayDone (lastIdOf "1-0".toList (above (1,0) sampleWritten))] ∧
      r.lastStreamId = lastIdOf "1-0".toList (above (1,0) sampleWritten) ∧
      r.framesSent = (above (1,0) sampleWritten).length) ∧
    (above (1,0) sampleWritten).Pairwise (fun x y => x.1.id < y.1.id) :=
  replay_is_live sample_wrote (by decide) (by decide) (by decide)

end BlockDocs.ReplayFrames
