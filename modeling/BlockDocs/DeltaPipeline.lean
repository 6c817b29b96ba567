import BlockDocs.Base64
import BlockDocs.Consumer

/-!
# The way of a delta

A browser encodes an update as base64 text, the WebSocket server checks the
text, adds it to the stream and relays it, a replay reads it back, and the
consumer reads the same field. The field holds the text throughout.
-/

set_option autoImplicit false

namespace BlockDocs.DeltaPipeline
open BlockDocs.InsertionMap BlockDocs.Wire BlockDocs.DocBlocks BlockDocs.Crdt BlockDocs.Consumer
open BlockDocs.Base64

/-! ## The browser -/

def chunkSize : ℕ := 0x8000

/-- One code unit for each byte, gathered a chunk at a time. -/
def binaryText (bytes : Bytes) : List Char :=
  if bytes = [] then []
  else latin1 (bytes.take chunkSize)++binaryText (bytes.drop chunkSize)
termination_by bytes.length
decreasing_by
  have hpos : 0 < bytes.length := List.length_pos_iff.mpr (by assumption)
  simp [chunkSize]
  omega

def bytesToB64 (bytes : Bytes) : Option String := (btoa (binaryText bytes)).map String.ofList

/-- Nothing where `atob` throws. -/
def b64ToBytes (b64 : String) : Option Bytes := (atob b64.toList).map codeUnits

theorem binaryText_eq (bytes : Bytes) : binaryText bytes = latin1 bytes := by
  induction bytes using binaryText.induct with
  | case1 => rw [binaryText,if_pos rfl]; rfl
  | case2 bytes h ih =>
    rw [binaryText,if_neg h,ih,latin1,latin1,latin1,← List.map_append,List.take_append_drop]

theorem bytesToB64_eq (bytes : Bytes) :
    bytesToB64 bytes = some (String.ofList (encode bytes)) := by
  rw [bytesToB64,binaryText_eq,btoa_latin1]
  rfl

theorem b64ToBytes_encode (bytes : Bytes) :
    b64ToBytes (String.ofList (encode bytes)) = some bytes := by
  rw [b64ToBytes,String.toList_ofList,atob_encode,Option.map_some,codeUnits_latin1]

/-! ## The WebSocket server -/

def stripEquals (s : List Char) : List Char := s.rdropWhile (· = '=')

def isValidBase64NonEmpty (s : String) : Bool :=
  if s = "" then false
  else
    let buf := bufferFrom s.toList
    if buf.length = 0 then false
    else stripEquals (encode buf) = stripEquals s.toList

theorem valid_encode {bytes : Bytes} (h : bytes ≠ []) :
    isValidBase64NonEmpty (String.ofList (encode bytes)) = true := by
  have hlen : 0 < (encode bytes).length := (Nat.zero_le _).trans_lt (length_lt_encode h)
  have htext : String.ofList (encode bytes) ≠ "" := by
    intro he
    rw [← String.toList_inj,String.toList_ofList] at he
    simp [he] at hlen
  simp [isValidBase64NonEmpty,htext,bufferFrom_encode,h]

structure ClientCrdtMessage where
  blockId : String
  delta : String
  blockId_min : blockId ≠ ""
  delta_min : delta ≠ ""

inductive XaddReply where
  | id (streamId : StreamId)
  | null
  | failed

/-- An entry as XADD stores it: alternating names and values. -/
structure StreamRecord where
  id : StreamId
  fields : List String

/-- The `crdt` frame of the server. A user id that is no number is nothing. -/
structure CrdtFrame where
  blockId : String
  delta : String
  userId : Option UserId
  streamId : StreamId

def xaddFields (msg : ClientCrdtMessage) (userId : UserId) : List String :=
  ["kind","crdt","blockId",msg.blockId,"delta",msg.delta,"userId",toString userId]

/-- What the call appended and sent to the other sockets, unless it returned early. -/
def handleCrdt (userId : UserId) (xadd : XaddReply) (msg : ClientCrdtMessage) :
    Option (StreamRecord × CrdtFrame) :=
  if isValidBase64NonEmpty msg.delta then
    match xadd with
    | .failed => none
    | .null => none
    | .id streamId =>
      some (⟨streamId,xaddFields msg userId⟩,⟨msg.blockId,msg.delta,some userId,streamId⟩)
  else none

def fieldsFrom : List String → List (String × String) → List (String × String)
  | k::v::rest, out => fieldsFrom rest (put k v out)
  | _, out => out

/-- The dict of redis-py is built from the pairs in the same way. -/
def fieldsToMap (fields : List String) : List (String × String) := fieldsFrom fields []

def replayCrdt (record : StreamRecord) : Option CrdtFrame :=
  let m := fieldsToMap record.fields
  if lookup "kind" m = some "crdt" then
    match lookup "blockId" m, lookup "delta" m with
    | some blockId, some delta =>
      if blockId = "" ∨ delta = "" then none
      else some ⟨blockId,delta,((lookup "userId" m).getD "0").toNat?,record.id⟩
    | _, _ => none
  else none

/-! ## The consumer -/

inductive FieldValue where
  | str (s : String)
  | bytes (b : Bytes)

def utf8 (s : String) : Bytes := s.toList.flatMap String.utf8EncodeChar

def decodeFields (fields : List (String × String)) : List (String × FieldValue) :=
  fields.map (fun e => (e.1,if e.1 = "delta" then .bytes (utf8 e.2) else .str e.2))

def passedToApplyDelta (fields : List (String × FieldValue)) : Option (String × Bytes) :=
  match lookup "kind" fields with
  | some (.str kind) =>
    if kind = "ops" then none
    else if kind ≠ "crdt" then none
    else match lookup "blockId" fields, lookup "delta" fields with
      | some (.str blockId), some (.bytes delta) =>
        if blockId = "" ∨ delta = [] then none else some (blockId,delta)
      | _, _ => none
  | _ => none

/-- The entry of the consumer's model; `readId` is how the database driver
reads the text of an id. -/
def streamEntry (readId : String → Option Uuid) (id : StreamId)
    (fields : List (String × FieldValue)) : StreamEntry where
  id := id
  kind := match lookup "kind" fields with
    | some (.str kind) => kind
    | _ => ""
  blockId := match lookup "blockId" fields with
    | some (.str text) => if text = "" then .absent else (readId text).elim .malformed .uuid
    | _ => .absent
  delta := match lookup "delta" fields with
    | some (.bytes delta) => delta
    | _ => []

theorem handleEntry_streamEntry (py : Pycrdt) (t : Table) (docId : DocId)
    (readId : String → Option Uuid) (id : StreamId) (fields : List (String × FieldValue)) :
    handleEntry py t docId (streamEntry readId id fields) =
      match passedToApplyDelta fields with
      | none => .returned
      | some (text,delta) => match readId text with
        | none => .raised
        | some blockId => applyCrdtDelta py t docId blockId delta id := by
  unfold handleEntry passedToApplyDelta streamEntry
  by_cases hkind : lookup "kind" fields = some (.str "crdt")
  · simp only [hkind]
    rcases lookup "blockId" fields with _ | (text | b)
    · simp
    · cases hid : readId text with
      | none =>
        rcases lookup "delta" fields with _ | (s | (_ | ⟨b,bs⟩)) <;> by_cases text = "" <;> simp [*]
      | some blockId =>
        rcases lookup "delta" fields with _ | (s | (_ | ⟨b,bs⟩)) <;> by_cases text = "" <;> simp [*]
    · simp
  · rcases hk : lookup "kind" fields with _ | (kind | b)
    · simp
    · have hne : kind ≠ "crdt" := by rintro rfl; exact hkind hk
      by_cases hops : kind = "ops" <;> simp [hops,hne]
    · simp

/-! ## The bytes at the ends -/

theorem fields_read (msg : ClientCrdtMessage) (userId : UserId) :
    fieldsToMap (xaddFields msg userId) = [("kind","crdt"),("blockId",msg.blockId),
      ("delta",msg.delta),("userId",toString userId)] := by
  simp [fieldsToMap,fieldsFrom,xaddFields,put]

theorem utf8_length (s : String) : s.toList.length ≤ (utf8 s).length := by
  unfold utf8
  induction s.toList with
  | nil => rfl
  | cons c cs ih =>
    have hc := Char.utf8Size_pos c
    rw [List.flatMap_cons,List.length_append,String.length_utf8EncodeChar,List.length_cons]
    omega

/-- The consumer gets the text of the field, not what it stands for. -/
theorem passed_text (msg : ClientCrdtMessage) (userId : UserId) :
    passedToApplyDelta (decodeFields (fieldsToMap (xaddFields msg userId))) =
      some (msg.blockId,utf8 msg.delta) := by
  have htext : msg.delta.toList ≠ [] := by
    intro h
    exact msg.delta_min (String.toList_inj.mp h)
  have hutf8 : utf8 msg.delta ≠ [] := by
    have hpos := List.length_pos_iff.mpr htext
    have hlen := utf8_length msg.delta
    exact List.length_pos_iff.mp (hpos.trans_le hlen)
  rw [fields_read]
  simp [decodeFields,passedToApplyDelta,lookup,msg.blockId_min,hutf8]

def ConsumerReceives (record : StreamRecord) (update : Bytes) : Prop :=
  ∃ blockId, passedToApplyDelta (decodeFields (fieldsToMap record.fields)) =
    some (blockId,update)

def PeersReceive (record : StreamRecord) (frame : CrdtFrame) (update : Bytes) : Prop :=
  b64ToBytes frame.delta = some update ∧
    ∃ replayed, replayCrdt record = some replayed ∧ b64ToBytes replayed.delta = some update

def Survives (record : StreamRecord) (frame : CrdtFrame) (update : Bytes) : Prop :=
  ConsumerReceives record update ∧ PeersReceive record frame update

theorem handleCrdt_accepts {update : Bytes} {msg : ClientCrdtMessage} (hne : update ≠ [])
    (hsent : bytesToB64 update = some msg.delta) (userId : UserId) (id : StreamId) :
    handleCrdt userId (.id id) msg =
      some (⟨id,xaddFields msg userId⟩,⟨msg.blockId,msg.delta,some userId,id⟩) := by
  have htext : msg.delta = String.ofList (encode update) := by
    rw [bytesToB64_eq] at hsent
    exact (Option.some.inj hsent).symm
  have hvalid := valid_encode hne
  rw [← htext] at hvalid
  rw [handleCrdt,if_pos hvalid]

theorem peers_receive {update : Bytes} {msg : ClientCrdtMessage}
    (hsent : bytesToB64 update = some msg.delta) (userId : UserId) (id : StreamId) :
    PeersReceive ⟨id,xaddFields msg userId⟩ ⟨msg.blockId,msg.delta,some userId,id⟩ update := by
  have hdecode : b64ToBytes msg.delta = some update := by
    rw [bytesToB64_eq] at hsent
    rw [← Option.some.inj hsent,b64ToBytes_encode]
  refine ⟨hdecode,⟨msg.blockId,msg.delta,(toString userId).toNat?,id⟩,?_,hdecode⟩
  rw [replayCrdt,fields_read]
  simp [lookup,msg.blockId_min,msg.delta_min]

/-- Every accepted update reaches the peers as it was, and the consumer as
something longer: the text is never decoded on its way to `apply_delta`. -/
theorem update_never_survives (update : Bytes) (hne : update ≠ []) (msg : ClientCrdtMessage)
    (hsent : bytesToB64 update = some msg.delta) (userId : UserId) (id : StreamId) :
    ∃ record frame, handleCrdt userId (.id id) msg = some (record,frame) ∧
      PeersReceive record frame update ∧ ¬Survives record frame update := by
  refine ⟨_,_,handleCrdt_accepts hne hsent userId id,peers_receive hsent userId id,?_⟩
  rintro ⟨⟨blockId,hpassed⟩,_⟩
  have hbytes : utf8 msg.delta = update := by
    rw [passed_text] at hpassed
    exact (Prod.ext_iff.mp (Option.some.inj hpassed)).2
  have htext : msg.delta.toList = encode update := by
    rw [bytesToB64_eq] at hsent
    rw [← Option.some.inj hsent,String.toList_ofList]
  have hlonger := length_lt_encode hne
  have hlen := utf8_length msg.delta
  rw [htext,hbytes] at hlen
  omega

def typedUpdate : Bytes := [1,1,1,0,4,1,4,114,111,111,116,1,97,0]

def typedMessage : ClientCrdtMessage where
  blockId := uuidText 1
  delta := "AQEBAAQBBHJvb3QBYQA="
  blockId_min := by decide
  delta_min := by decide

theorem typed_update_never_survives :
    ∃ record frame, handleCrdt 7 (.id (toLex (1,0))) typedMessage = some (record,frame) ∧
      PeersReceive record frame typedUpdate ∧ ¬Survives record frame typedUpdate :=
  update_never_survives typedUpdate (by decide) typedMessage
    (by rw [bytesToB64_eq]; decide) 7 (toLex (1,0))

/-- The consumer hands the twenty characters of the text to `apply_delta`. -/
theorem typed_update_lost : ¬∀ (update : Bytes) (msg : ClientCrdtMessage) (userId : UserId)
    (id : StreamId) (record : StreamRecord) (frame : CrdtFrame), update ≠ [] →
    bytesToB64 update = some msg.delta →
    handleCrdt userId (.id id) msg = some (record,frame) → Survives record frame update := by
  intro h
  have hsent : bytesToB64 typedUpdate = some typedMessage.delta := by
    rw [bytesToB64_eq]; decide
  have hne : typedUpdate ≠ [] := by decide
  obtain ⟨⟨blockId,hpassed⟩,_⟩ := h typedUpdate typedMessage 7 (toLex (1,0)) _ _ hne hsent
    (handleCrdt_accepts hne hsent 7 (toLex (1,0)))
  rw [passed_text] at hpassed
  have hbytes : utf8 typedMessage.delta = typedUpdate :=
    (Prod.ext_iff.mp (Option.some.inj hpassed)).2
  exact absurd hbytes (by decide)

end BlockDocs.DeltaPipeline
