import BlockDocs.Wire

/-!
# The pycrdt helpers

The binding itself is a parameter: documents, updates that may be rejected,
the encoded state and the chunks of the root text. What the consumer does with
them is the code of the repository.
-/

set_option autoImplicit false

namespace BlockDocs.Crdt
open BlockDocs.InsertionMap BlockDocs.Wire

inductive Chunk where
  | text (s : String)
  | embed (value : Json)

structure Pycrdt where
  Doc : Type
  new : Doc
  applyUpdate : Doc → Bytes → Option Doc
  getUpdate : Doc → Bytes
  diff : Doc → List (Chunk × Option JsonObj)

variable (py : Pycrdt)

/-- A fresh document, hydrated from a stored state unless that is empty. -/
def makeDoc : Option Bytes → Option py.Doc
  | none => some py.new
  | some state => if state = [] then some py.new else py.applyUpdate py.new state

def simpleMarks : List String := ["bold","italic","strike","code"]

def eitherOf (attrs : JsonObj) (first second : String) : Option Json :=
  match lookup first attrs with
  | some v => if truthy v then some v else lookup second attrs
  | none => lookup second attrs

def markWith (type key : String) : Option Json → List Json
  | some v => if truthy v then [.obj [("type",.str type),("attrs",.obj [(key,v)])]] else []
  | none => []

def marksOf (attrs : JsonObj) : List Json :=
  (simpleMarks.filter (fun name => (lookup name attrs).any truthy)).map
      (fun name => .obj [("type",.str name)])++
    markWith "link" "href" (eitherOf attrs "link" "href")++
    markWith "comment" "commentId" (eitherOf attrs "comment" "commentId")

def inlineNode : Chunk × Option JsonObj → Json
  | (.embed value, _) => .obj [("type",.str "embed"),("value",value)]
  | (.text s, attrs) =>
    let marks := marksOf (attrs.getD [])
    .obj ([("type",.str "text"),("text",.str s)]++
      if marks.isEmpty then [] else [("marks",.arr marks)])

def diffToInlineNodes (diff : List (Chunk × Option JsonObj)) : List Json := diff.map inlineNode

def extractContent (doc : py.Doc) : JsonObj :=
  [("children",.arr (diffToInlineNodes (py.diff doc)))]

def integrate (state : Option Bytes) (delta : Bytes) : Option (Bytes × JsonObj) := do
  let doc ← makeDoc py state
  let doc ← py.applyUpdate doc delta
  return (py.getUpdate doc,extractContent py doc)

def stateAfter : List Bytes → Option Bytes → Option Bytes
  | [], state => state
  | delta::deltas, state => stateAfter deltas ((integrate py state delta).map Prod.fst)

theorem stateAfter_append (ds es : List Bytes) (state : Option Bytes) :
    stateAfter py (ds++es) state = stateAfter py es (stateAfter py ds state) := by
  induction ds generalizing state with
  | nil => rfl
  | cons d ds ih => exact ih _

/-- A binding whose documents are the updates in the order of their arrival,
encoded as they came. -/
def arrivals : Pycrdt where
  Doc := Bytes
  new := []
  applyUpdate doc update := some (doc++update)
  getUpdate doc := doc
  diff _ := []

end BlockDocs.Crdt
