import BlockDocs.InsertionMap
import BlockDocs.LexoRank
import Mathlib.Data.Prod.Lex
import Mathlib.Tactic

/-!
# Values on the wire and in the columns

Block ids are the numbers behind their UUID text. A JSON id field of a
request is read by `UUID()`, so a request carries the outcome of that
reading; ids the server or a client emits are already canonical.
-/

set_option autoImplicit false

namespace BlockDocs.Wire
open BlockDocs.LexoRank

abbrev Uuid := ℕ
abbrev DocId := ℕ
abbrev UserId := ℕ
abbrev Bytes := List UInt8

def hex (width n : ℕ) : String :=
  String.ofList (List.leftpad width '0' (Nat.toDigits 16 (n % 16^width)))

def uuidText (id : Uuid) : String :=
  hex 8 (id/16^24) ++ "-" ++ hex 4 (id/16^20) ++ "-" ++ hex 4 (id/16^16) ++ "-" ++
    hex 4 (id/16^12) ++ "-" ++ hex 12 id

/-- A Redis stream id `ms-seq`; ids are compared as pairs of numbers. -/
abbrev StreamId := ℕ ×ₗ ℕ

inductive Json where
  | null
  | bool (b : Bool)
  | num (n : ℤ)
  | str (s : String)
  | arr (items : List Json)
  | obj (fields : List (String × Json))

abbrev JsonObj := List (String × Json)

/-- What Python takes for true. -/
def truthy : Json → Bool
  | .null => false
  | .bool b => b
  | .num n => n ≠ 0
  | .str s => s ≠ ""
  | .arr items => !items.isEmpty
  | .obj fields => !fields.isEmpty

/-- `absent` covers a missing key, null and the empty string: the handlers
read all three as no id. -/
inductive IdField where
  | absent
  | uuid (id : Uuid)
  | malformed
  deriving DecidableEq, Repr

def IdField.ofOption : Option Uuid → IdField
  | none => .absent
  | some id => .uuid id

theorem ofOption_inj {p q : Option Uuid} (h : IdField.ofOption p = .ofOption q) : p = q := by
  cases p with
  | none =>
    cases q with
    | none => rfl
    | some b => cases h
  | some a =>
    cases q with
    | none => cases h
    | some b => exact congrArg some (IdField.uuid.inj h)

inductive OpType where
  | insert_block
  | delete_block
  | move_block
  | update_attrs
  | update_content
  deriving DecidableEq, Repr

/-- The payload keys that some handler of the server or the client reads. -/
structure Payload where
  type : Option String := none
  parentId : IdField := .absent
  afterId : IdField := .absent
  content : Option JsonObj := none
  attrs : Option JsonObj := none
  position : Option Rank := none

structure BlockOperation where
  op : OpType
  blockId : IdField
  payload : Payload := {}
  version : Option ℤ := none

def insertUnder (blockId : Uuid) (parentId : Option Uuid) : BlockOperation where
  op := .insert_block
  blockId := .uuid blockId
  payload := { parentId := .ofOption parentId }

def moveUnder (blockId : Uuid) (parentId : Option Uuid) : BlockOperation where
  op := .move_block
  blockId := .uuid blockId
  payload := { parentId := .ofOption parentId }

def placeAfter (op : OpType) (blockId : Uuid) (afterId : Option Uuid) : BlockOperation where
  op := op
  blockId := .uuid blockId
  payload := { afterId := .ofOption afterId }

structure Block where
  blockId : Uuid
  parentId : Option Uuid
  position : Rank
  depth : ℕ
  type : String
  content : JsonObj
  version : ℤ

inductive AppliedPayload where
  | insert (type : String) (parentId : Option Uuid) (position : Rank) (depth : ℕ)
      (content : JsonObj)
  | delete
  | move (parentId : Option Uuid) (position : Rank) (depth : ℕ)
  | attrs (patch : JsonObj)
  | content (content : JsonObj)

/-- One element of a `remote_ops` frame. `block` is the server's view after
the operation, or nothing where the source sends a deletion marker. -/
structure WireOp where
  op : OpType
  blockId : Uuid
  payload : AppliedPayload
  version : ℤ
  block : Option Block

inductive OpStatus where
  | applied
  | conflict
  deriving DecidableEq, Repr

structure OpResult where
  blockId : Uuid
  newVersion : ℤ
  status : OpStatus
  current : Option Block := none

end BlockDocs.Wire
