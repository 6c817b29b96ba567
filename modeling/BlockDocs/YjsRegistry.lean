import BlockDocs.CausalBuffer
import BlockDocs.DeltaPipeline

/-!
# The registry of documents

The entry of one block in the registries of all clients, and the state of its
row that the consumer keeps. Yjs itself is a parameter: the structs an insertion
makes, what a receiver integrates, the text, and the encoding of updates.
-/

set_option autoImplicit false

namespace BlockDocs.YjsRegistry
open BlockDocs.InsertionMap BlockDocs.Wire BlockDocs.Crdt BlockDocs.DeltaPipeline
open BlockDocs.CausalBuffer

/-! ## Inline nodes -/

inductive MarkType where
  | bold
  | italic
  | strike
  | code
  | link
  | comment
  deriving DecidableEq

def MarkType.text : MarkType → String
  | .bold => "bold"
  | .italic => "italic"
  | .strike => "strike"
  | .code => "code"
  | .link => "link"
  | .comment => "comment"

structure Mark where
  type : MarkType
  attrs : Option JsonObj := none

inductive InlineNode where
  | text (text : String) (marks : List Mark)
  | mention (attrs : JsonObj)

def formatValue (mark : Mark) : Json :=
  if mark.type = .link ∨ mark.type = .comment then mark.attrs.elim (.bool true) .obj
  else .bool true

def marksToFormat (marks : List Mark) : Option JsonObj :=
  if marks = [] then none
  else some (marks.foldl (fun fmt mark => put mark.type.text (formatValue mark) fmt) [])

/-- `length` counts UTF-16 code units. -/
def utf16Length (s : String) : ℕ :=
  (s.toList.map (fun c => if c.toNat < 0x10000 then 1 else 2)).sum

inductive TextCall where
  | insert (index : ℕ) (text : String) (format : Option JsonObj)
  | insertEmbed (index : ℕ) (embed : JsonObj)

def insertNodes : ℕ → List InlineNode → List TextCall
  | _, [] => []
  | cursor, .text text marks::nodes =>
    .insert cursor text (marksToFormat marks)::insertNodes (cursor+utf16Length text) nodes
  | cursor, .mention attrs::nodes =>
    .insertEmbed cursor [("mention",.obj attrs)]::insertNodes (cursor+1) nodes

def applyInlineNodes (nodes : List InlineNode) : List TextCall := insertNodes 0 nodes

def TextCall.isBlank : TextCall → Bool
  | .insert _ text _ => text = ""
  | .insertEmbed _ _ => false

def InlineNode.isBlank : InlineNode → Bool
  | .text s _ => s = ""
  | .mention _ => false

def Blank (initial : List InlineNode) : Prop := ∀ node ∈ initial, node.isBlank = true

theorem insertNodes_blank (cursor : ℕ) (nodes : List InlineNode) :
    (∀ call ∈ insertNodes cursor nodes, call.isBlank = true) ↔ Blank nodes := by
  induction nodes generalizing cursor with
  | nil => simp [insertNodes,Blank]
  | cons node nodes ih =>
    cases node with
    | text text marks =>
      simp only [insertNodes,Blank,List.forall_mem_cons]
      exact and_congr Iff.rfl (ih _)
    | mention attrs =>
      simp only [insertNodes,Blank,List.forall_mem_cons]
      exact and_congr Iff.rfl (ih _)

/-! ## Structs -/

@[ext] structure StructId where
  client : ℕ
  clock : ℕ
  deriving DecidableEq

structure Item (C : Type) where
  id : StructId
  origins : List StructId
  content : C
  deriving DecidableEq

/-- All earlier clocks of the client, and the origins. -/
def Item.needs {C : Type} (x : Item C) : List StructId :=
  (List.range x.id.clock).map (StructId.mk x.id.client)++x.origins

structure Update (C : Type) where
  items : List (Item C)
  deletes : List StructId
  deriving DecidableEq

/-- What the code relies on: inserting nothing makes no struct, the structs of a
client have consecutive clocks, a receiver keeps a struct pending until it has
what the struct needs, and the text follows from the structs and deletions. -/
structure Yjs where
  Content : Type
  seed : ℕ → List TextCall → List (Item Content)
  integrate : List (Item Content) → List (Item Content) →
    List (Item Content) × List (Item Content)
  text : List (Item Content) → List StructId → List (Chunk × Option JsonObj)
  encode : Update Content → Bytes
  decode : Bytes → Option (Update Content)
  seed_ids : ∀ client calls, (seed client calls).map Item.id =
    (List.range (seed client calls).length).map (StructId.mk client)
  seed_nil : ∀ client calls, seed client calls = [] ↔ ∀ call ∈ calls, call.isBlank = true
  seed_text : ∀ client other calls, text (seed client calls) [] = text (seed other calls) []
  integrate_settles : ∀ store incoming, Settles Item.id Item.needs store incoming
    (integrate store incoming).1 (integrate store incoming).2
  text_perm : ∀ store other deletes gone, store.Perm other → (store.map Item.id).Nodup →
    (∀ i, i ∈ deletes ↔ i ∈ gone) → text store deletes = text other gone
  encode_ne_nil : ∀ u, encode u ≠ []
  decode_encode : ∀ u, decode (encode u) = some u

/-- The contents of a Y.Doc; `waiting` are the pending structs. -/
structure Replica (C : Type) where
  store : List (Item C) := []
  waiting : List (Item C) := []
  deletes : List StructId := []

variable (yjs : Yjs)

def Replica.applyUpdate (r : Replica yjs.Content) (u : Update yjs.Content) :
    Replica yjs.Content :=
  let settled := yjs.integrate r.store (r.waiting++u.items)
  ⟨settled.1,settled.2,r.deletes++u.deletes⟩

def Replica.update {C : Type} (r : Replica C) : Update C := ⟨r.store++r.waiting,r.deletes⟩

def Replica.text (r : Replica yjs.Content) : List (Chunk × Option JsonObj) :=
  yjs.text r.store r.deletes

def pycrdt : Pycrdt where
  Doc := Replica yjs.Content
  new := {}
  applyUpdate r bytes := (yjs.decode bytes).map (r.applyUpdate yjs)
  getUpdate r := yjs.encode r.update
  diff r := r.text yjs

/-! ## The registry -/

/-- `initial` and `received` are what the document was opened with and the
updates it made or applied since. -/
structure BlockDoc (C : Type) where
  client : ℕ
  clock : ℕ
  doc : Replica C
  initial : List InlineNode
  received : List (Update C) := []

structure BufferedDelta where
  deltaB64 : String
  ts : ℕ

/-- The part of a registry that belongs to the block. -/
structure Registry (C : Type) where
  entry : Option (BlockDoc C) := none
  buffer : List BufferedDelta := []

def bufferTtlMs : ℕ := 1000

inductive Origin where
  | init
  | local
  | remote
  deriving DecidableEq

def handleUpdate {C : Type} (emitted : List (Update C)) (u : Update C) (origin : Option Origin) :
    List (Update C) :=
  if origin = some .init ∨ origin = some .remote then emitted else emitted++[u]

/-- A new document. The handler is not yet attached when the text goes in. -/
def BlockDoc.seeded (client : ℕ) (initial : List InlineNode) : BlockDoc yjs.Content :=
  let items := if 0 < initial.length then yjs.seed client (applyInlineNodes initial) else []
  ⟨client,items.length,{ store := items },initial,[]⟩

def BlockDoc.applyUpdate (d : BlockDoc yjs.Content) (u : Update yjs.Content) :
    BlockDoc yjs.Content :=
  { d with doc := d.doc.applyUpdate yjs u, received := d.received++[u] }

def readDelta (deltaB64 : String) : Option (Update yjs.Content) :=
  (b64ToBytes deltaB64).bind yjs.decode

/-- A text that is no update makes the call throw. -/
def Registry.applyRemoteDelta (r : Registry yjs.Content) (now : ℕ) (deltaB64 : String) :
    Registry yjs.Content :=
  match r.entry with
  | none => { r with buffer := r.buffer++[⟨deltaB64,now⟩] }
  | some d =>
    match readDelta yjs deltaB64 with
    | none => r
    | some u => { r with entry := some (d.applyUpdate yjs u) }

theorem readDelta_sent {u : Update yjs.Content} {deltaB64 : String}
    (h : bytesToB64 (yjs.encode u) = some deltaB64) : readDelta yjs deltaB64 = some u := by
  rw [bytesToB64_eq] at h
  rw [readDelta,← Option.some.inj h,b64ToBytes_encode]
  exact yjs.decode_encode u

def BufferedDelta.expired (now : ℕ) (b : BufferedDelta) : Prop := now-b.ts > bufferTtlMs

instance (now : ℕ) (b : BufferedDelta) : Decidable (b.expired now) :=
  inferInstanceAs (Decidable (_ > _))

def Registry.flush (now : ℕ) (r : Registry yjs.Content) (buffer : List BufferedDelta) :
    Registry yjs.Content :=
  buffer.foldl (fun r b => if b.expired now then r else r.applyRemoteDelta yjs now b.deltaB64) r

def Registry.ensure (r : Registry yjs.Content) (now client : ℕ) (initial : List InlineNode) :
    Registry yjs.Content :=
  match r.entry with
  | some _ => r
  | none => { Registry.flush yjs now { r with entry := some (.seeded yjs client initial) } r.buffer
      with buffer := [] }

def Registry.opened {C : Type} (r : Registry C) : Option (ℕ × List InlineNode) :=
  r.entry.map (fun d => (d.client,d.initial))

def Registry.client {C : Type} (r : Registry C) : Option ℕ := r.opened.map Prod.fst

theorem client_of_entry {C : Type} {r : Registry C} {d : BlockDoc C} (h : r.entry = some d) :
    r.client = some d.client := by
  rw [Registry.client,Registry.opened,h]
  rfl

theorem applyRemoteDelta_opened (r : Registry yjs.Content) (now : ℕ) (deltaB64 : String) :
    (r.applyRemoteDelta yjs now deltaB64).opened = r.opened := by
  obtain ⟨_ | d,buffer⟩ := r
  · rfl
  · simp only [Registry.applyRemoteDelta]
    split <;> rfl

theorem flush_opened (r : Registry yjs.Content) (now : ℕ) (buffer : List BufferedDelta) :
    (Registry.flush yjs now r buffer).opened = r.opened := by
  induction buffer generalizing r with
  | nil => rfl
  | cons b buffer ih =>
    refine (ih _).trans ?_
    show (if b.expired now then r else r.applyRemoteDelta yjs now b.deltaB64).opened = r.opened
    split
    · rfl
    · exact applyRemoteDelta_opened yjs r now b.deltaB64

theorem ensure_opened (r : Registry yjs.Content) (now client : ℕ) (initial : List InlineNode) :
    (r.ensure yjs now client initial).opened = some (r.opened.getD (client,initial)) := by
  obtain ⟨_ | d,buffer⟩ := r
  · exact flush_opened yjs _ now buffer
  · rfl

def Registry.destroy {C : Type} (_ : Registry C) : Registry C := {}

def Registry.clear {C : Type} (_ : Registry C) : Registry C := {}

/-! ## Local transactions -/

/-- The structs get the next clocks of the client and stand beside structs that
are in the document, and what is deleted is in it. -/
structure Transaction {C : Type} (d : BlockDoc C) (u : Update C) : Prop where
  changes : u.items ≠ [] ∨ u.deletes ≠ []
  clocks : u.items.map Item.id = (List.range' d.clock u.items.length).map (StructId.mk d.client)
  origins : Causal Item.id Item.origins d.doc.store u.items
  deletes : ∀ i ∈ u.deletes, Stored Item.id (d.doc.store++u.items) i

instance {C : Type} (d : BlockDoc C) (u : Update C) : Decidable (Transaction d u) :=
  decidable_of_iff ((u.items ≠ [] ∨ u.deletes ≠ []) ∧
      u.items.map Item.id = (List.range' d.clock u.items.length).map (StructId.mk d.client) ∧
      Causal Item.id Item.origins d.doc.store u.items ∧
      ∀ i ∈ u.deletes, Stored Item.id (d.doc.store++u.items) i)
    ⟨fun h => ⟨h.1,h.2.1,h.2.2.1,h.2.2.2⟩,fun h => ⟨h.changes,h.clocks,h.origins,h.deletes⟩⟩

def BlockDoc.transact {C : Type} (d : BlockDoc C) (u : Update C) : BlockDoc C :=
  { d with
    clock := d.clock+u.items.length
    doc := { d.doc with store := d.doc.store++u.items, deletes := d.doc.deletes++u.deletes }
    received := d.received++[u] }

/-! ## Clients and the consumer -/

/-- Registries by client, the ids given to documents so far, the updates emitted,
and the row's state with the updates applied to it. -/
structure World (C : Type) where
  registries : ℕ → Registry C
  clients : List ℕ := []
  emitted : List (Update C) := []
  state : Option Bytes := none
  consumed : List (Update C) := []

def World.start (C : Type) : World C := { registries := fun _ => {} }

/-- Updates come in any order, any number of times, or not at all. -/
inductive Action (C : Type) where
  | ensure (k now client : ℕ) (initial : List InlineNode)
  | edit (k : ℕ) (u : Update C)
  | receive (k now i : ℕ)
  | destroy (k : ℕ)
  | clear (k : ℕ)
  | consume (i : ℕ)

variable {yjs}

def World.set {C : Type} (w : World C) (k : ℕ) (r : Registry C) : World C :=
  { w with registries := Function.update w.registries k r }

variable (yjs) in
def step (w : World yjs.Content) : Action yjs.Content → Option (World yjs.Content)
  | .ensure k now client initial =>
    if client ∈ w.clients then none
    else some { w.set k ((w.registries k).ensure yjs now client initial) with
      clients := w.clients++[client] }
  | .edit k u =>
    match (w.registries k).entry with
    | none => none
    | some d =>
      if Transaction d u then
        some { w.set k { w.registries k with entry := some (d.transact u) } with
          emitted := handleUpdate w.emitted u none }
      else none
  | .receive k now i =>
    match w.emitted[i]? with
    | none => none
    | some u =>
      (bytesToB64 (yjs.encode u)).map (fun deltaB64 => { w.set k
          ((w.registries k).applyRemoteDelta yjs now deltaB64) with
        emitted := handleUpdate w.emitted u (some .remote) })
  | .destroy k => some (w.set k (w.registries k).destroy)
  | .clear k => some (w.set k (w.registries k).clear)
  | .consume i =>
    match w.emitted[i]? with
    | none => none
    | some u =>
      match Crdt.integrate (pycrdt yjs) w.state (yjs.encode u) with
      | none => none
      | some (state,_) => some { w with state := some state, consumed := w.consumed++[u] }

end BlockDocs.YjsRegistry
