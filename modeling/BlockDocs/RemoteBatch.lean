import BlockDocs.BlockStore
import BlockDocs.RepeatableEdits

/-!
# A batch of remote operations that arrives twice

Each operation of a batch is, for one block, an edit that can be repeated: it writes the
block or takes it away, writes some of its fields, patches its attributes, or drops its
parent. What such operations come to together is again an edit of this kind.
-/

set_option autoImplicit false

namespace BlockDocs.RemoteBatch
open BlockDocs.InsertionMap BlockDocs.LexoRank BlockDocs.Wire BlockDocs.BlockStore
open BlockDocs.RepeatableEdits

/-- A block without its depth, which is a cached value. -/
structure View where
  parentId : Option Uuid
  position : Rank
  type : String
  content : JsonObj
  version : ℤ

def view (b : Block) : View := ⟨b.parentId,b.position,b.type,b.content,b.version⟩

def viewOf (id : Uuid) (blocks : Blocks) : Option View := (blocks.get id).map view

/-! ## Patches of the attributes -/

theorem attrsOf_spreadAttrs (content attrs : JsonObj) :
    attrsOf (spreadAttrs content attrs) = putAll attrs (putAll (attrsOf content) []) := by
  have hlookup : lookup "attrs" (spreadAttrs content attrs) =
      some (.obj (putAll attrs (putAll (attrsOf content) []))) :=
    (lookup_put _ _ _ _).trans (if_pos rfl)
  rw [attrsOf,hlookup]
  rfl

theorem spreadAttrs_append (content attrs more : JsonObj) :
    spreadAttrs (spreadAttrs content attrs) more = spreadAttrs content (attrs++more) := by
  have hmore : spreadAttrs (spreadAttrs content attrs) more =
      put "attrs" (.obj (putAll more (putAll (attrsOf (spreadAttrs content attrs)) [])))
        (spreadAttrs content attrs) := rfl
  have hkeyed := nodup_putAll attrs (nodup_copy (attrsOf content))
  rw [hmore,attrsOf_spreadAttrs,putAll_copy hkeyed,← putAll_append]
  exact put_put _ _ _ _

theorem spreadAttrs_twice (content attrs : JsonObj) :
    spreadAttrs (spreadAttrs content attrs) attrs = spreadAttrs content attrs := by
  have hfields := putAll_twice attrs (putAll (attrsOf content) [])
  rw [spreadAttrs_append]
  show put "attrs" (.obj (putAll (attrs++attrs) (putAll (attrsOf content) []))) content =
    put "attrs" (.obj (putAll attrs (putAll (attrsOf content) []))) content
  rw [putAll_append,hfields]

/-- Patches one after the other are one patch; no patch is not the empty patch, which
writes the key. -/
def patched : Edits (Option JsonObj) JsonObj where
  act patch content := (patch.map (spreadAttrs content)).getD content
  keep := none
  seq
    | some attrs,some more => some (attrs++more)
    | some attrs,none => some attrs
    | none,patch => patch
  act_keep _ := rfl
  act_seq patch later content := by
    cases patch with
    | none => rfl
    | some attrs =>
      cases later with
      | none => rfl
      | some more => exact (spreadAttrs_append content attrs more).symm
  act_twice patch content := by
    cases patch with
    | none => rfl
    | some attrs => exact spreadAttrs_twice content attrs

/-! ## Edits of one block -/

def parents : Edits (Rewrite (List Uuid) (Option Uuid)) (Option Uuid) := orWritten (dropped Uuid)

def contents : Edits (Rewrite (Option JsonObj) JsonObj) JsonObj := orWritten patched

def values (S : Type) : Edits (Rewrite Unit S) S := orWritten (untouched S)

/-- Field by field; no operation changes the type of a block that stays. -/
structure Alteration where
  parentId : Rewrite (List Uuid) (Option Uuid) := parents.keep
  position : Rewrite Unit Rank := (values Rank).keep
  content : Rewrite (Option JsonObj) JsonObj := contents.keep
  version : Rewrite Unit ℤ := (values ℤ).keep

def Alteration.act (a : Alteration) (v : View) : View where
  parentId := parents.act a.parentId v.parentId
  position := (values Rank).act a.position v.position
  type := v.type
  content := contents.act a.content v.content
  version := (values ℤ).act a.version v.version

def Alteration.seq (a b : Alteration) : Alteration where
  parentId := parents.seq a.parentId b.parentId
  position := (values Rank).seq a.position b.position
  content := contents.seq a.content b.content
  version := (values ℤ).seq a.version b.version

def altered : Edits Alteration View where
  act := Alteration.act
  keep := {}
  seq := Alteration.seq
  act_keep v := by simp only [Alteration.act,Edits.act_keep]
  act_seq a b v := by simp only [Alteration.act,Alteration.seq,Edits.act_seq]
  act_twice a v := by simp only [Alteration.act,Edits.act_twice]

def blockEdits : Edits (Rewrite Alteration (Option View)) (Option View) :=
  orWritten (ifPresent altered)

/-! ## What an operation does to one block -/

def opEdit (id : Uuid) (op : WireOp) : Rewrite Alteration (Option View) :=
  match op.payload with
  | .insert type parentId position _ content =>
    if op.blockId = id then .write (some ⟨parentId,position,type,content,1⟩) else .edit {}
  | .delete => if op.blockId = id then .write none else .edit { parentId := .edit [op.blockId] }
  | .move parentId position _ =>
    if op.blockId = id then .edit { parentId := .write parentId, position := .write position }
    else .edit {}
  | .attrs patch =>
    if op.blockId = id then
      .edit { content := .edit (some patch), version := .write (op.version+1) }
    else .edit {}
  | .content content =>
    if op.blockId = id then .edit { content := .write content, version := .write (op.version+1) }
    else .edit {}

section OneOperation

variable {blocks : Blocks} {id j : Uuid} {f : Block → Block} {a : Alteration}

theorem viewOf_adjust (hf : ∀ b, view (f b) = a.act (view b)) : viewOf id (adjust blocks j f) =
    blockEdits.act (if j = id then .edit a else .edit {}) (viewOf id blocks) := by
  unfold viewOf
  rw [get_adjust]
  by_cases hid : j = id
  · subst hid
    rw [if_pos rfl,if_pos rfl]
    cases blocks.get j with
    | none => rfl
    | some b => exact congrArg some (hf b)
  · rw [if_neg (Ne.symm hid),if_neg hid]
    exact (blockEdits.act_keep _).symm

theorem view_promoted (b : Block) :
    view (if b.parentId = some j then { b with parentId := none } else b) =
      Alteration.act { parentId := .edit [j] } (view b) := by
  have hparent : (if b.parentId = some j then none else b.parentId) =
      parents.act (.edit [j]) b.parentId := by
    show _ = b.parentId.filter (fun k => k ∉ [j])
    cases b.parentId with
    | none => rfl
    | some p => by_cases hp : p = j <;> simp [Option.filter,hp]
  show _ = (⟨parents.act (.edit [j]) b.parentId,b.position,b.type,b.content,b.version⟩ : View)
  rw [← hparent]
  split <;> rfl

theorem viewOf_deleted : viewOf id (promote j none (blocks.delete j)) = blockEdits.act
    (if j = id then .write none else .edit { parentId := .edit [j] }) (viewOf id blocks) := by
  unfold viewOf
  rw [get_promote,OrderedMap.get_delete]
  by_cases hid : j = id
  · rw [if_pos hid.symm,if_pos hid]
    rfl
  · rw [if_neg (Ne.symm hid),if_neg hid]
    cases blocks.get id with
    | none => rfl
    | some b => exact congrArg some (view_promoted b)

end OneOperation

/-- The two updates write a version and leave the place of the block. -/
theorem act_update (content : Rewrite (Option JsonObj) JsonObj) (version : ℤ) (v : View) :
    Alteration.act { content := content, version := .write version } v =
      { v with content := contents.act content v.content, version := version } := by
  simp only [Alteration.act,Edits.act_keep]
  rfl

theorem viewOf_applyRemoteOp (id : Uuid) (blocks : Blocks) (op : WireOp) :
    viewOf id (applyRemoteOp blocks op) = blockEdits.act (opEdit id op) (viewOf id blocks) := by
  unfold applyRemoteOp opEdit
  cases op.payload with
  | insert type parentId position depth content =>
    simp only [viewOf,OrderedMap.get_set]
    by_cases hid : op.blockId = id
    · rw [if_pos hid.symm,if_pos hid]
      rfl
    · rw [if_neg (Ne.symm hid),if_neg hid]
      exact (blockEdits.act_keep _).symm
  | delete => exact viewOf_deleted
  | move parentId position depth => exact viewOf_adjust (fun _ => rfl)
  | attrs patch =>
    exact viewOf_adjust (fun b => (act_update (.edit (some patch)) (op.version+1) (view b)).symm)
  | content content =>
    exact viewOf_adjust (fun b => (act_update (.write content) (op.version+1) (view b)).symm)

/-- Whatever the two frames carry as their stream ids. -/
theorem batch_twice (s : Store) (ops : List WireOp) (first second : Option StreamId) (id : Uuid) :
    viewOf id ((s.applyRemoteOps ops first).applyRemoteOps ops second).blocks =
      viewOf id (s.applyRemoteOps ops first).blocks :=
  blockEdits.view_twice (viewOf id) (opEdit id) (viewOf_applyRemoteOp id) ops s.blocks

end BlockDocs.RemoteBatch
