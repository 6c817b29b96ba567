import BlockDocs.DeltaPipeline

/-!
# Client frames and their schemas

What a text that arrives on a socket is read as. A parsed message carries what
its schema has checked.
-/

set_option autoImplicit false

namespace BlockDocs.Protocol
open BlockDocs.InsertionMap BlockDocs.Wire BlockDocs.DeltaPipeline

structure MinString where
  text : String
  min : text ≠ ""

structure ClientOperation where
  op : OpType
  blockId : MinString
  payload : JsonObj
  version : Option ℕ

structure ClientOpsMessage where
  clientSeq : ℕ
  ops : List ClientOperation
  ops_min : ops ≠ []

structure AwarenessCursor where
  blockId : MinString
  offset : ℕ

structure AwarenessState where
  focusedBlockId : Option (Option String)
  cursor : Option AwarenessCursor

inductive ClientMessage where
  | ops (msg : ClientOpsMessage)
  | crdt (msg : ClientCrdtMessage)
  | awareness (state : AwarenessState)

inductive ParseError where
  | invalid_json
  | issues
  deriving DecidableEq, Repr

def minString : Json → Option MinString
  | .str s => if h : s = "" then none else some ⟨s,h⟩
  | _ => none

def nonnegative : Json → Option ℕ
  | .num n => if 0 ≤ n then some n.toNat else none
  | _ => none

def record : Json → Option JsonObj
  | .obj fields => some fields
  | _ => none

def nullableString : Json → Option (Option String)
  | .null => some none
  | .str s => some (some s)
  | _ => none

/-- A missing key passes, a value must pass the schema. -/
def optional {α : Type} (schema : Json → Option α) : Option Json → Option (Option α)
  | none => some none
  | some v => (schema v).map some

def opType : Json → Option OpType
  | .str s =>
    if s = "insert_block" then some .insert_block
    else if s = "delete_block" then some .delete_block
    else if s = "move_block" then some .move_block
    else if s = "update_attrs" then some .update_attrs
    else if s = "update_content" then some .update_content
    else none
  | _ => none

def blockOperationSchema (v : Json) : Option ClientOperation := do
  let fields ← record v
  let op ← (lookup "op" fields).bind opType
  let blockId ← (lookup "blockId" fields).bind minString
  let payload ← (lookup "payload" fields).bind record
  let version ← optional nonnegative (lookup "version" fields)
  return ⟨op,blockId,payload,version⟩

def cursorSchema (v : Json) : Option AwarenessCursor := do
  let fields ← record v
  let blockId ← (lookup "blockId" fields).bind minString
  let offset ← (lookup "offset" fields).bind nonnegative
  return ⟨blockId,offset⟩

def awarenessStateSchema (v : Json) : Option AwarenessState := do
  let fields ← record v
  let focusedBlockId ← optional nullableString (lookup "focusedBlockId" fields)
  let cursor ← optional cursorSchema (lookup "cursor" fields)
  return ⟨focusedBlockId,cursor⟩

def nonEmptyOps (clientSeq : ℕ) (ops : List ClientOperation) : Option ClientOpsMessage :=
  if h : ops = [] then none else some ⟨clientSeq,ops,h⟩

def opsMessageSchema (fields : JsonObj) : Option ClientMessage := do
  let clientSeq ← (lookup "clientSeq" fields).bind nonnegative
  let items ← match lookup "ops" fields with
    | some (.arr items) => some items
    | _ => none
  let ops ← items.mapM blockOperationSchema
  let msg ← nonEmptyOps clientSeq ops
  return .ops msg

def crdtMessageSchema (fields : JsonObj) : Option ClientMessage := do
  let blockId ← (lookup "blockId" fields).bind minString
  let delta ← (lookup "delta" fields).bind minString
  return .crdt ⟨blockId.text,delta.text,blockId.min,delta.min⟩

def awarenessMessageSchema (fields : JsonObj) : Option ClientMessage := do
  let state ← (lookup "state" fields).bind awarenessStateSchema
  return .awareness state

def clientMessageSchema (v : Json) : Option ClientMessage := do
  let fields ← record v
  match lookup "ch" fields with
  | some (.str ch) =>
    if ch = "ops" then opsMessageSchema fields
    else if ch = "crdt" then crdtMessageSchema fields
    else if ch = "awareness" then awarenessMessageSchema fields
    else none
  | _ => none

/-- A text that is no JSON is nothing. -/
def parseClientMessage : Option Json → Except ParseError ClientMessage
  | none => .error .invalid_json
  | some v => match clientMessageSchema v with
    | some msg => .ok msg
    | none => .error .issues

def parsed (raw : Option Json) : Option ClientMessage := (parseClientMessage raw).toOption

/-! ## What a browser sends is accepted -/

def crdtJson (msg : ClientCrdtMessage) : Json :=
  .obj [("ch",.str "crdt"),("blockId",.str msg.blockId),("delta",.str msg.delta)]

theorem minString_self (s : MinString) : minString (.str s.text) = some s := by
  rw [minString,dif_neg s.min]

theorem parsed_crdt (msg : ClientCrdtMessage) : parsed (some (crdtJson msg)) = some (.crdt msg) := by
  have hblock := minString_self ⟨msg.blockId,msg.blockId_min⟩
  have hdelta := minString_self ⟨msg.delta,msg.delta_min⟩
  simp only [parsed,parseClientMessage,clientMessageSchema,crdtJson,record,Option.bind_eq_bind,
    Option.bind_some]
  simp [lookup_cons,crdtMessageSchema,hblock,hdelta,Except.toOption]

def opTypeText : OpType → String
  | .insert_block => "insert_block"
  | .delete_block => "delete_block"
  | .move_block => "move_block"
  | .update_attrs => "update_attrs"
  | .update_content => "update_content"

def operationJson (o : ClientOperation) : Json :=
  .obj ([("op",.str (opTypeText o.op)),("blockId",.str o.blockId.text),("payload",.obj o.payload)]++
    o.version.elim [] (fun v => [("version",.num v)]))

def opsJson (msg : ClientOpsMessage) : Json :=
  .obj [("ch",.str "ops"),("clientSeq",.num msg.clientSeq),
    ("ops",.arr (msg.ops.map operationJson))]

theorem opType_text (op : OpType) : opType (.str (opTypeText op)) = some op := by
  cases op <;> rfl

theorem blockOperation_json (o : ClientOperation) :
    blockOperationSchema (operationJson o) = some o := by
  obtain ⟨op,blockId,payload,version⟩ := o
  cases version with
  | none =>
    simp [blockOperationSchema,operationJson,record,lookup_cons,lookup_nil,opType_text,
      minString_self,optional]
  | some v =>
    simp [blockOperationSchema,operationJson,record,lookup_cons,opType_text,minString_self,
      optional,nonnegative]

theorem parsed_ops (msg : ClientOpsMessage) : parsed (some (opsJson msg)) = some (.ops msg) := by
  have hops : (msg.ops.map operationJson).mapM blockOperationSchema = some msg.ops := by
    induction msg.ops with
    | nil => rfl
    | cons o ops ih => simp [blockOperation_json,ih]
  have hmin : nonEmptyOps msg.clientSeq msg.ops = some msg := by
    rw [nonEmptyOps,dif_neg msg.ops_min]
  simp only [parsed,parseClientMessage,clientMessageSchema,opsJson,record,Option.bind_eq_bind,
    Option.bind_some]
  simp [lookup_cons,opsMessageSchema,nonnegative,hops,hmin,Except.toOption]

def cursorJson (c : AwarenessCursor) : Json :=
  .obj [("blockId",.str c.blockId.text),("offset",.num c.offset)]

def focusedJson : Option (Option String) → JsonObj
  | none => []
  | some none => [("focusedBlockId",.null)]
  | some (some s) => [("focusedBlockId",.str s)]

def awarenessStateJson (state : AwarenessState) : Json :=
  .obj (focusedJson state.focusedBlockId++
    state.cursor.elim [] (fun c => [("cursor",cursorJson c)]))

def awarenessJson (state : AwarenessState) : Json :=
  .obj [("ch",.str "awareness"),("state",awarenessStateJson state)]

theorem cursor_json (c : AwarenessCursor) : cursorSchema (cursorJson c) = some c := by
  simp [cursorSchema,cursorJson,record,lookup_cons,minString_self,nonnegative]

theorem awarenessState_read {fields : JsonObj} {focused : Option (Option String)}
    {cursor : Option AwarenessCursor}
    (hfocused : optional nullableString (lookup "focusedBlockId" fields) = some focused)
    (hcursor : optional cursorSchema (lookup "cursor" fields) = some cursor) :
    awarenessStateSchema (.obj fields) = some ⟨focused,cursor⟩ := by
  simp [awarenessStateSchema,record,hfocused,hcursor]

theorem focused_read (focused : Option (Option String)) {rest : JsonObj}
    (h : lookup "focusedBlockId" rest = none) :
    optional nullableString (lookup "focusedBlockId" (focusedJson focused++rest)) =
      some focused := by
  rcases focused with _ | (_ | s)
  · simp [focusedJson,h,optional]
  · simp [focusedJson,lookup_cons,optional,nullableString]
  · simp [focusedJson,lookup_cons,optional,nullableString]

theorem focused_skip (focused : Option (Option String)) (rest : JsonObj) :
    lookup "cursor" (focusedJson focused++rest) = lookup "cursor" rest := by
  rcases focused with _ | (_ | s)
  · rfl
  · simp [focusedJson,lookup_cons]
  · simp [focusedJson,lookup_cons]

theorem awarenessState_json (state : AwarenessState) :
    awarenessStateSchema (awarenessStateJson state) = some state := by
  obtain ⟨focused,cursor⟩ := state
  cases cursor with
  | none =>
    apply awarenessState_read (focused_read focused rfl)
    rw [focused_skip]
    rfl
  | some c =>
    apply awarenessState_read (focused_read focused (by simp [lookup_cons,lookup_nil]))
    rw [focused_skip]
    simp [lookup_cons,optional,cursor_json]

theorem parsed_awareness (state : AwarenessState) :
    parsed (some (awarenessJson state)) = some (.awareness state) := by
  simp only [parsed,parseClientMessage,clientMessageSchema,awarenessJson,record,
    Option.bind_eq_bind,Option.bind_some]
  simp [lookup_cons,awarenessMessageSchema,awarenessState_json,Except.toOption]

def messageJson : ClientMessage → Json
  | .ops msg => opsJson msg
  | .crdt msg => crdtJson msg
  | .awareness state => awarenessJson state

theorem parsed_message (msg : ClientMessage) : parsed (some (messageJson msg)) = some msg := by
  cases msg with
  | ops msg => exact parsed_ops msg
  | crdt msg => exact parsed_crdt msg
  | awareness state => exact parsed_awareness state

end BlockDocs.Protocol
