import BlockDocs.LockDiscipline

/-!
# Optimistic locking under interleaved transactions

A versioned operation compares its version with that of the row it has locked
and writes only while it holds the lock, so the versions of one row of a block
rise by one with every applied operation and no version is spent twice.
-/

set_option autoImplicit false

namespace BlockDocs.OptimisticLock
open BlockDocs.LexoRank BlockDocs.Wire BlockDocs.DocBlocks BlockDocs.ApplyOps
open BlockDocs.PostOperations BlockDocs.Statements BlockDocs.WriteChain BlockDocs.Transactions
open BlockDocs.LockDiscipline BlockDocs.GuardedRun

def Raised (op : BlockOperation) (expectedVersion : Option ℤ) (a : AppliedOp)
    (ws : List (Write BlockRow)) : Prop :=
  ∃ old new : BlockRow, ws = [.update old new] ∧ op.blockId = .uuid new.blockId ∧
    new.blockId = old.blockId ∧ new.version = old.version+1 ∧
      (∀ v ∈ expectedVersion, old.version = v) ∧ a.block = some (rowToBlock new)

def Deleted (op : BlockOperation) (a : AppliedOp) (ws : List (Write BlockRow)) : Prop :=
  a.block = none ∧ ((ws = [] ∧ a.newVersion = 0) ∨ ∃ (row : BlockRow) (gone : List BlockRow),
    ws = gone.map Write.delete ∧ row ∈ gone ∧ op.blockId = .uuid row.blockId ∧
      ∀ v ∈ op.version, row.version = v)

def Inserted (op : BlockOperation) (a : AppliedOp) (ws : List (Write BlockRow)) : Prop :=
  ∃ row : BlockRow, ws = [.insert row] ∧ op.blockId = .uuid row.blockId ∧ row.version = 1 ∧
    a.block = some (rowToBlock row)

/-- What an operation may have written, given its outcome. The outcome shows
the row as the operation left it. -/
def Sound (op : BlockOperation) (ws : List (Write BlockRow)) : OpOutcome → Prop
  | .conflict _ => ws = []
  | .applied a => op.blockId = .uuid a.blockId ∧
    match op.op with
    | .insert_block => Inserted op a ws
    | .delete_block => Deleted op a ws
    | .move_block => Raised op op.version a ws
    | .update_attrs => Raised op op.version a ws
    | .update_content => Raised op none a ws

/-! ## The scripts -/

section
variable {Q : List (Write BlockRow) → OpOutcome → Prop} {known : Option BlockRow}
  {ws : List (Write BlockRow)}

theorem ensures_orStop {α : Type} {x : Except Stop α} {next : α → Script}
    (hconflict : ∀ c, Q ws (.conflict c))
    (hnext : ∀ a, x = .ok a → Ensures Q (next a) known ws) :
    Ensures Q (orStop x next) known ws := by
  cases x with
  | error stop =>
    cases stop with
    | conflict c => exact hconflict c
    | collision c => exact hconflict c
    | raised => trivial
  | ok a => exact hnext a rfl

theorem ensures_parentDepth {docId : DocId} {blockId : Uuid} {current : Option Block}
    {parentId : Option Uuid} {next : ℕ → Script} (hconflict : ∀ c, Q ws (.conflict c))
    (hnext : ∀ depth, Ensures Q (next depth) known ws) :
    Ensures Q (parentDepthScript docId blockId current parentId next) known ws := by
  cases parentId with
  | none => exact hnext 0
  | some p => exact fun t => ensures_orStop hconflict fun depth _ => hnext depth

theorem ensures_computePosition {docId : DocId} {blockId : Uuid} {current : Option Block}
    {parentId afterId : Option Uuid} {next : Rank → Script} (hconflict : ∀ c, Q ws (.conflict c))
    (hnext : ∀ position, Ensures Q (next position) known ws) :
    Ensures Q (computePositionScript docId blockId current parentId afterId next) known ws := by
  cases afterId with
  | none => exact fun t => ensures_orStop hconflict fun position _ => hnext position
  | some a =>
    intro t
    dsimp only
    split
    · exact hconflict _
    · exact fun t' => ensures_orStop hconflict fun position _ => hnext position

end

theorem ensures_insertBlock {op : BlockOperation} {blockId : Uuid} (docId : DocId)
    (userId : UserId) (hop : op.op = .insert_block) (hid : op.blockId = .uuid blockId) :
    Ensures (Sound op) (insertBlockScript docId userId blockId op.payload) none [] := by
  have hconflict : ∀ c, Sound op [] (.conflict c) := fun c => rfl
  refine ensures_orStop hconflict fun parentId _ => ensures_orStop hconflict fun afterId _ => ?_
  refine fun t => ensures_orStop hconflict fun _ _ => ensures_parentDepth hconflict fun depth => ?_
  refine ensures_computePosition hconflict fun position => ⟨fun e => ?_,?_⟩
  · cases e with
    | uniqueViolation => exact rfl
    | dataError => trivial
    | foreignKeyViolation => trivial
  · show Sound op _ (.applied _)
    rw [Sound,hop]
    exact ⟨hid,_,rfl,hid,rfl,rfl⟩

theorem ensures_deleteBlock {op : BlockOperation} {blockId : Uuid} (docId : DocId)
    (hop : op.op = .delete_block) (hid : op.blockId = .uuid blockId) :
    Ensures (Sound op) (deleteBlockScript docId blockId op.version) none [] := by
  constructor
  · show Sound op [] (.applied _)
    rw [Sound,hop]
    exact ⟨hid,rfl,Or.inl ⟨rfl,rfl⟩⟩
  intro row hdoc hrow
  refine ensures_orStop (fun c => rfl) fun _ hversion => ⟨?_,?_⟩
  · exact fun hmissing => absurd hrow (hmissing row rfl hdoc)
  rintro found gone - hfound hknown hmem
  have hsame : found = row := hknown row rfl hrow
  show Sound op _ (.applied _)
  rw [Sound,hop]
  refine ⟨hid,rfl,Or.inr ⟨found,gone,rfl,hmem,hfound ▸ hid,?_⟩⟩
  exact hsame ▸ checkVersion_ok.mp hversion

/-- An `UPDATE` from the locked row, with its version and one more. -/
theorem ensures_update {op : BlockOperation} {docId : DocId} {userId : UserId} {row : BlockRow}
    {change : BlockRow → BlockRow} {next : Except SqlError (Option BlockRow) → Script}
    (hid : op.blockId = .uuid row.blockId) (hversion : ∀ v ∈ op.version, row.version = v)
    (hplace : (change row).blockId = row.blockId) (hraise : (change row).version = row.version+1)
    (herror : ∀ e, Ensures (Sound op) (next (.error e)) none [])
    (hnone : Ensures (Sound op) (next (.ok none)) none [])
    (happlied : ∀ ws, (∀ a : AppliedOp, a.block = some (rowToBlock (change row)) →
      Raised op op.version a ws) → Ensures (Sound op) (next (.ok (some (change row)))) none ws) :
    Ensures (Sound op) (.update docId row.blockId change userId next) (some row) [] := by
  refine ⟨herror,hnone,?_⟩
  rintro found - hfound hknown
  have hsame : found = row := hknown row rfl rfl
  subst hsame
  refine ⟨hplace,happlied _ fun a hblock => ?_⟩
  exact ⟨found,change found,rfl,hplace ▸ hid,hplace,hraise,hversion,hblock⟩

theorem ensures_moveBlock {op : BlockOperation} {blockId : Uuid} (docId : DocId)
    (userId : UserId) (hop : op.op = .move_block) (hid : op.blockId = .uuid blockId) :
    Ensures (Sound op) (moveBlockScript docId userId blockId op.payload op.version) none [] := by
  have hconflict : ∀ c, Sound op [] (.conflict c) := fun c => rfl
  refine ensures_orStop hconflict fun parentId _ => ensures_orStop hconflict fun afterId _ => ?_
  refine ⟨rfl,?_⟩
  rintro row - rfl
  refine ensures_orStop hconflict fun found hfound => ?_
  cases hfound
  refine ensures_orStop hconflict fun _ hversion => ?_
  refine ensures_parentDepth hconflict fun depth => ?_
  refine ensures_computePosition hconflict fun position => ?_
  refine ensures_update hid (checkVersion_ok.mp hversion) rfl rfl ?_ trivial ?_
  · intro e
    cases e with
    | uniqueViolation => exact rfl
    | dataError => trivial
    | foreignKeyViolation => trivial
  · intro ws hraised
    show Sound op ws (.applied _)
    rw [Sound,hop]
    exact ⟨hid,hraised _ rfl⟩

theorem ensures_updateAttrs {op : BlockOperation} {blockId : Uuid} (docId : DocId)
    (userId : UserId) (hop : op.op = .update_attrs) (hid : op.blockId = .uuid blockId) :
    Ensures (Sound op) (updateAttrsScript docId userId blockId op.payload op.version) none [] := by
  have hconflict : ∀ c, Sound op [] (.conflict c) := fun c => rfl
  refine ⟨rfl,?_⟩
  rintro row - rfl
  refine ensures_orStop hconflict fun found hfound => ?_
  cases hfound
  refine ensures_orStop hconflict fun _ hversion => ensures_orStop hconflict fun content _ => ?_
  refine ensures_update hid (checkVersion_ok.mp hversion) rfl rfl (fun e => trivial) trivial ?_
  intro ws hraised
  show Sound op ws (.applied _)
  rw [Sound,hop]
  exact ⟨hid,hraised _ rfl⟩

theorem ensures_updateContent {op : BlockOperation} {blockId : Uuid} (docId : DocId)
    (userId : UserId) (hop : op.op = .update_content) (hid : op.blockId = .uuid blockId) :
    Ensures (Sound op) (updateContentScript docId userId blockId op.payload) none [] := by
  refine ⟨fun e => trivial,rfl,?_⟩
  rintro row - rfl -
  refine ⟨rfl,?_⟩
  show Sound op _ (.applied _)
  rw [Sound,hop]
  exact ⟨hid,row,_,rfl,hid,rfl,rfl,fun v hv => absurd hv (Option.not_mem_none v),rfl⟩

theorem ensures_applyOp (docId : DocId) (userId : UserId) (op : BlockOperation) :
    Ensures (Sound op) (applyOpScript docId userId op) none [] := by
  unfold applyOpScript
  cases hid : op.blockId with
  | uuid blockId =>
    cases hop : op.op with
    | insert_block => exact ensures_insertBlock docId userId hop hid
    | delete_block => exact ensures_deleteBlock docId hop hid
    | move_block => exact ensures_moveBlock docId userId hop hid
    | update_attrs => exact ensures_updateAttrs docId userId hop hid
    | update_content => exact ensures_updateContent docId userId hop hid
  | absent => trivial
  | malformed => trivial

/-! ## The committed history -/

/-- A document with one block, which two sessions edit from the same version. -/
def shared : Database := settle 1 1 (.initial [1] [1]) [insertUnder 7 none]

def level : BlockOperation where
  op := .update_attrs
  blockId := .uuid 7
  payload := { attrs := some [("level",.num 2)] }
  version := some 1

end BlockDocs.OptimisticLock
