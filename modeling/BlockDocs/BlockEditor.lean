import BlockDocs.BlockOrder
import BlockDocs.Markdown

/-!
# The editor of a document

The blocks of a page have handlers, which call the store and set the focus, and the slash menu
inserts behind the block that it was opened at. As long as there is room for the ranks of new
blocks, the page is an outline, and each handler is one command.
-/

set_option autoImplicit false

namespace BlockDocs.BlockEditor
open BlockDocs.InsertionMap BlockDocs.Wire BlockDocs.BlockStore BlockDocs.ClientRun
open BlockDocs.ClientIndex BlockDocs.ParentChain BlockDocs.ForestWalk BlockDocs.GuardedRun
open BlockDocs.VisibleBlocks BlockDocs.SiblingGap BlockDocs.Markdown BlockDocs.LeafEdits
open BlockDocs.StableOrder BlockDocs.Outline BlockDocs.BlockOrder

/-- `frames` are the calls of `focusBlock` that wait for the next animation frame. -/
structure Editor where
  store : Store
  focusedBlockId : Option Uuid
  slashFor : Option Uuid
  frames : List Uuid

def opened (docId : DocId) (blocks : List Block) (lastStreamId : StreamId) : Editor :=
  ⟨Store.loadSnapshot docId blocks lastStreamId,none,none,[]⟩

namespace Editor

def ordered (e : Editor) : Option (List Block) :=
  flattenBlocks (e.store.blocks.values.length+1) e.store.rootOrder e.store.childrenMap
    e.store.blocks

def act (e : Editor) (call : ClientEvent) : Editor :=
  { e with store := clientStep e.store call }

def focusBlock (e : Editor) (blockId : Uuid) : Editor :=
  { e with focusedBlockId := some blockId }

def requestAnimationFrame (e : Editor) (blockId : Uuid) : Editor :=
  { e with frames := e.frames++[blockId] }

def focusIf (e : Editor) : Option Block → Editor
  | none => e
  | some b => e.focusBlock b.blockId

end Editor

/-! ## Handlers -/

/-- `onFocus` is the one of the element around the block. -/
inductive Handler where
  | onEnter (newId : Uuid)
  | onBackspaceAtEmpty
  | onBackspaceAtStart
  | onSlash
  | onArrowUp
  | onArrowDown
  | onMarkdownPaste (textLength : Option ℕ) (templates : List MarkdownBlockTemplate)
  | onFocus

def prevOf (ordered : List Block) (index : ℕ) : Option Block :=
  if index = 0 then none else ordered[index-1]?

def typeAfter (type : String) : String :=
  if type = "bulleted_list" ∨ type = "numbered_list" ∨ type = "todo" then type else "paragraph"

def makeHandlers (ordered : List Block) (e : Editor) (block : Block) (index : ℕ) :
    Handler → Editor
  | .onEnter newId =>
    (e.act (.insertBlock newId (typeAfter block.type) block.parentId (some block.blockId)
      none)).requestAnimationFrame newId
  | .onBackspaceAtEmpty => (e.act (.deleteBlock block.blockId)).focusIf (prevOf ordered index)
  | .onBackspaceAtStart => e.focusIf (prevOf ordered index)
  | .onSlash => { e with slashFor := some block.blockId }
  | .onArrowUp => e.focusIf (prevOf ordered index)
  | .onArrowDown => e.focusIf ordered[index+1]?
  | .onMarkdownPaste textLength templates =>
    { e with
      store := (onMarkdownPaste block.blockId block.parentId textLength templates).foldl clientStep
        e.store
      frames := e.frames++((templates.filter (fun t => t.parentIndex = 0)).map
        MarkdownBlockTemplate.blockId).head?.toList }
  | .onFocus => e.focusBlock block.blockId

def pickedContent (type : String) (level : Option ℕ) : JsonObj :=
  if type = "heading" then
    [("attrs",.obj [("level",.num (level.getD 1))]),("children",.arr [])]
  else if type = "todo" then [("attrs",.obj [("checked",.bool false)]),("children",.arr [])]
  else [("children",.arr [])]

/-- The new block is a root, wherever the menu was opened. -/
def onPick (e : Editor) (type : String) (level : Option ℕ) (newId : Uuid) : Editor :=
  match e.slashFor with
  | none => e
  | some anchorId =>
    { (e.act (.insertBlock newId type none (some anchorId)
        (some (pickedContent type level)))).requestAnimationFrame newId with slashFor := none }

/-! ## Runs of a page -/

inductive EditorEvent where
  | startWriting (newId : Uuid)
  | handler (index : ℕ) (h : Handler)
  | onClose
  | onPick (type : String) (level : Option ℕ) (newId : Uuid)
  | animationFrame
  | updateAttrs (blockId : Uuid) (attrs : JsonObj)
  | applyRemoteOps (ops : List WireOp) (streamId : Option StreamId)
  | handleAck (clientSeq : ℕ) (results : List OpResult)
  | handleNack (clientSeq : ℕ) (conflicts : List ConflictInfo)

/-- A page without blocks has the start button only. -/
def step (e : Editor) (ev : EditorEvent) : Option Editor :=
  e.ordered.bind fun ordered =>
    match ev with
    | .startWriting newId =>
      if ordered.isEmpty then
        some ((e.act (.insertBlock newId "paragraph" none none none)).requestAnimationFrame newId)
      else none
    | .handler index h =>
      ordered[index]?.map fun block => makeHandlers ordered e block index h
    | .onClose => if ordered.isEmpty then none else some { e with slashFor := none }
    | .onPick type level newId =>
      if ordered.isEmpty then none else some (onPick e type level newId)
    | .animationFrame => some { e.frames.foldl Editor.focusBlock e with frames := [] }
    | .updateAttrs blockId attrs => some (e.act (.updateAttrs blockId attrs))
    | .applyRemoteOps ops streamId => some (e.act (.applyRemoteOps ops streamId))
    | .handleAck clientSeq results => some (e.act (.handleAck clientSeq results))
    | .handleNack clientSeq conflicts => some (e.act (.handleNack clientSeq conflicts))

/-! ## The outline of a page -/

def Editor.sheet (e : Editor) : Sheet Uuid :=
  ⟨order e.store.blocks,e.focusedBlockId,e.slashFor,e.frames⟩

def rootIds (templates : List MarkdownBlockTemplate) : List Uuid :=
  (templates.filter (fun t => t.parentIndex = 0)).map MarkdownBlockTemplate.blockId

def Handler.commands (index : ℕ) : Handler → List (Command Uuid)
  | .onEnter newId => [.split index newId]
  | .onBackspaceAtEmpty => [.remove index]
  | .onBackspaceAtStart => [.up index]
  | .onSlash => [.openMenu index]
  | .onArrowUp => [.up index]
  | .onArrowDown => [.down index]
  | .onMarkdownPaste textLength templates =>
    if templates.isEmpty then [] else [.paste index (rootIds templates) (textLength = some 0)]
  | .onFocus => [.focus index]

def opCommands (op : WireOp) : List (Command Uuid) :=
  match op.payload with
  | .insert _ _ _ _ _ => [.moved op.blockId]
  | .move _ _ _ => [.moved op.blockId]
  | .delete => [.dissolved op.blockId]
  | _ => []

def conflictCommands (c : ConflictInfo) : List (Command Uuid) :=
  match c.blockId with
  | .uuid blockId => [.moved blockId]
  | _ => []

def commands : EditorEvent → List (Command Uuid)
  | .startWriting newId => [.start newId]
  | .handler index h => h.commands index
  | .onClose => [.closeMenu]
  | .onPick _ _ newId => [.pick newId]
  | .animationFrame => [.frame]
  | .updateAttrs _ _ => []
  | .applyRemoteOps ops _ => ops.flatMap opCommands
  | .handleAck _ _ => []
  | .handleNack _ conflicts => conflicts.flatMap conflictCommands

def Roomy (s : Store) (newId : Uuid) (parentId afterId : Option Uuid) : Prop :=
  s.blocks.get newId = none ∧ Room (kids s parentId) afterId

def RoomyCall (s : Store) : ClientEvent → Prop
  | .insertBlock newId _ parentId afterId _ => Roomy s newId parentId afterId
  | _ => True

def Admitted (e : Editor) : EditorEvent → Prop
  | .startWriting newId => Roomy e.store newId none none
  | .handler index h => ∀ ordered block, e.ordered = some ordered → ordered[index]? = some block →
    match h with
    | .onEnter newId => Roomy e.store newId block.parentId (some block.blockId)
    | .onMarkdownPaste textLength templates =>
      Along (fun s call => some (clientStep s call)) RoomyCall e.store
        (onMarkdownPaste block.blockId block.parentId textLength templates)
    | _ => True
  | .onPick _ _ newId => ∀ anchorId, e.slashFor = some anchorId →
    Roomy e.store newId none (some anchorId)
  | .applyRemoteOps ops streamId => Fits e.store (.applyRemoteOps ops streamId)
  | .handleNack clientSeq conflicts => Fits e.store (.handleNack clientSeq conflicts)
  | _ => True

structure Ready (s : Store) : Prop where
  indexed : Indexed s
  tidy : Tidy s.blocks

variable {s : Store} {e t : Editor} {ordered : List Block} {b block : Block} {m : Blocks}
variable {id newId : Uuid} {parentId afterId : Option Uuid} {index : ℕ}

/-! ## Lines -/

theorem page_listed (h : Ready s) :
    Listed s.blocks.get (order s.blocks) (parentIn s.blocks) Block.blockId := by
  rw [← idsUnder_order h.indexed]
  exact index_listed h.indexed h.tidy.named

theorem ordered_eq (h : Ready e.store) : e.ordered =
    walkAll e.store.blocks.get (order e.store.blocks) (e.store.blocks.values.length+1) := by
  rw [← idsUnder_order h.indexed]
  rfl

theorem ordered_ends (h : Ready e.store) : ∃ ordered, e.ordered = some ordered := by
  have hl := page_listed h
  have hall : ∀ n x, At (parentIn e.store.blocks) n x →
      x ∈ e.store.blocks.values.map Block.blockId := by
    intro n x hx
    obtain ⟨c,hc⟩ := node_at hl hx
    exact List.mem_map.mpr ⟨c,mem_values.mpr ⟨x,hc⟩,h.tidy.named x c hc⟩
  have hlevel : ∀ n x, At (parentIn e.store.blocks) n x → n ≤ e.store.blocks.values.length := by
    intro n x hx
    have hlt := level_lt hl.functional hall hx
    rw [List.length_map] at hlt
    exact hlt.le
  obtain ⟨out,hout,_⟩ := walkAll_covers hl hlevel
  exact ⟨out,(ordered_eq h).trans hout⟩

theorem sheet_lines (h : Ready e.store) (ho : e.ordered = some ordered) :
    e.sheet.Lines (ordered.map Block.blockId) := by
  refine ⟨e.store.blocks.values.length+1,?_⟩
  show walkAll some (order e.store.blocks) _ = _
  rw [← walkAll_labels (page_listed h),← ordered_eq h,ho]
  rfl

theorem line_block (h : Ready e.store) (ho : e.ordered = some ordered)
    (hi : ordered[index]? = some block) : e.store.blocks.get block.blockId = some block := by
  rw [ordered_eq h] at ho
  obtain ⟨y,hy,_⟩ := walkAll_rooted (page_listed h) ho (List.mem_of_getElem? hi)
  rwa [h.tidy.named y block hy]

theorem line_id (hi : ordered[index]? = some block) :
    (ordered.map Block.blockId)[index]? = some block.blockId := by
  rw [List.getElem?_map,hi]
  rfl

theorem prevOf_above (ordered : List Block) (index : ℕ) :
    (prevOf ordered index).map Block.blockId = above (ordered.map Block.blockId) index := by
  unfold prevOf above
  split
  · rfl
  · exact (List.getElem?_map ..).symm

theorem focusIf_sheet (e : Editor) (o : Option Block) :
    (e.focusIf o).sheet = e.sheet.focusOn (o.map Block.blockId) := by
  cases o <;> rfl

theorem frames_focus (ids : List Uuid) (e : Editor) : ids.foldl Editor.focusBlock e =
    { e with focusedBlockId := ids.getLast?.or e.focusedBlockId } := by
  induction ids generalizing e with
  | nil => rfl
  | cons x ids ih =>
    rw [List.foldl_cons,ih,List.getLast?_cons]
    cases ids.getLast? <;> rfl

/-! ## Inserts -/

def Known (m : Blocks) (parentId : Option Uuid) : Prop :=
  ∀ q, parentId = some q → ∃ b, m.get q = some b

theorem parent_known (h : Forest m) (hb : m.get id = some b) : Known m b.parentId := by
  intro q hq
  cases h id b hb with
  | root hroot =>
    cases (parentIn_functional m _ _ _ hroot ⟨b,hb,hq⟩)
  | child hup hrooted =>
    obtain rfl := Option.some.inj (parentIn_functional m _ _ _ hup ⟨b,hb,hq⟩)
    obtain ⟨o,c,hc,_⟩ := rooted_up hrooted
    exact ⟨c,hc⟩

theorem attachable_fresh (h : Tidy m) (hfresh : m.get newId = none) (hp : Known m parentId) :
    Attachable m newId parentId := by
  intro q hq
  obtain ⟨c,hc⟩ := hp q hq
  refine ⟨⟨c,hc⟩,fun hclimbs => ?_⟩
  rcases Relation.ReflTransGen.cases_tail hclimbs with rfl | ⟨y,_,d,hd,hparent⟩
  · cases hfresh.symm.trans hc
  · obtain ⟨c',hc'⟩ := parent_known h.forest hd newId hparent
    cases hfresh.symm.trans hc'

theorem ready_insert (h : Ready s) (hroom : Roomy s newId parentId afterId)
    (hp : Known s.blocks parentId) (type : String) (content : Option JsonObj) :
    Ready (s.insertBlock newId type parentId afterId content) :=
  ⟨step_indexed h.indexed (.insertBlock newId type parentId afterId content),
    tidy_step h.tidy (.insertBlock newId type parentId afterId content)
      (attachable_fresh h.tidy hroom.1 hp)⟩

theorem order_inserted (h : Ready s) (hroom : Roomy s newId parentId afterId) (type : String)
    (content : Option JsonObj) :
    order (s.insertBlock newId type parentId afterId content).blocks =
      Function.update (order s.blocks) parentId
        (insertBehind newId afterId (order s.blocks parentId)) := by
  refine order_insert h.indexed h.tidy.named hroom.1
    (b := newBlock s newId type parentId afterId content) rfl ?_
  show Within _ _ (computePosition s.blocks s.allOrder parentId afterId)
  rw [computePosition_kids h.indexed h.tidy.named,rankAmong_gap]
  exact hroom.2

theorem sheet_insert (h : Ready e.store) (hroom : Roomy e.store newId parentId afterId)
    (type : String) (content : Option JsonObj) :
    ((e.act (.insertBlock newId type parentId afterId content)).requestAnimationFrame newId).sheet =
      e.sheet.grown parentId afterId newId := by
  show Sheet.mk (order (e.store.insertBlock newId type parentId afterId content).blocks) _ _ _ = _
  rw [order_inserted h hroom]
  rfl

theorem inserts_run (templates : List MarkdownBlockTemplate) {a : Uuid} (h : Ready s)
    (hp : Known s.blocks parentId) (hroom : Along (fun s call => some (clientStep s call))
      RoomyCall s (insertsAfter parentId a templates)) : ∃ later,
      (insertsAfter parentId a templates).foldl clientStep s = later ∧ Ready later ∧
      (∀ x c, s.blocks.get x = some c → later.blocks.get x = some c) ∧
      order later.blocks = Function.update (order s.blocks) parentId
        (insertRun a (templates.map MarkdownBlockTemplate.blockId) (order s.blocks parentId)) := by
  induction templates generalizing s a with
  | nil => exact ⟨s,rfl,h,fun _ _ hc => hc,(Function.update_eq_self _ _).symm⟩
  | cons t templates ih =>
    obtain ⟨hfirst,hrest⟩ := hroom _ rfl
    have hkept : ∀ x c, s.blocks.get x = some c → (s.insertBlock t.blockId t.type parentId
        (some a) (some t.content.json)).blocks.get x = some c := by
      intro x c hc
      have hne : x ≠ t.blockId := by
        rintro rfl
        cases hfirst.1.symm.trans hc
      exact (OrderedMap.get_set ..).trans ((if_neg hne).trans hc)
    have hp' : Known (s.insertBlock t.blockId t.type parentId (some a)
        (some t.content.json)).blocks parentId := by
      intro q hq
      obtain ⟨c,hc⟩ := hp q hq
      exact ⟨c,hkept q c hc⟩
    obtain ⟨later,hlater,hready,hget,horder⟩ := ih (ready_insert h hfirst hp _ _) hp' hrest
    refine ⟨later,hlater,hready,fun x c hc => hget x c (hkept x c hc),?_⟩
    rw [horder,order_inserted h hfirst,Function.update_idem,Function.update_self]
    rfl

/-! ## Deletes and what others did -/

theorem no_own_parent (h : Forest m) (hb : m.get id = some b) : b.parentId ≠ some id := by
  intro hp
  have hself : Parent (parentIn m) id id := ⟨b,hb,hp⟩
  exact rooted_not_own_ancestor (parentIn_functional m) (h id b hb) (.single hself)

theorem not_parentIn_self (h : Forest m) : ¬parentIn m id (some id) := by
  rintro ⟨c,hc,hp⟩
  exact no_own_parent h hc hp

theorem ready_delete (h : Ready s) (id : Uuid) : Ready (s.deleteBlock id) :=
  ⟨step_indexed h.indexed (.deleteBlock id),tidy_step h.tidy (.deleteBlock id) trivial⟩

theorem order_deleted (h : Ready s) (hb : s.blocks.get id = some b) :
    Dissolved id b.parentId (order s.blocks) (order (s.deleteBlock id).blocks) := by
  rw [deleteBlock_some hb]
  exact order_dissolve h.tidy.named (no_own_parent h.tidy.forest hb)
    (not_parentIn_self h.tidy.forest)

/-- A change of one block that may give it another place. -/
theorem turns_moved {later : Blocks} (h : Shifted id (order m) (order later))
    (f menu : Option Uuid) (r : List Uuid) :
    Turns ⟨order m,f,menu,r⟩ [.moved id] ⟨order later,f,menu,r⟩ :=
  turns_one (@Turn.moved _ _ ⟨order m,f,menu,r⟩ _ _ h)

theorem op_turns (h : Tidy m) (op : WireOp) (f menu : Option Uuid) (r : List Uuid) :
    Turns ⟨order m,f,menu,r⟩ (opCommands op) ⟨order (applyRemoteOp m op),f,menu,r⟩ := by
  cases hp : op.payload with
  | insert type parentId position depth content =>
    simp only [opCommands,applyRemoteOp,hp]
    exact turns_moved (order_set h.named (by rfl)) f menu r
  | move parentId position depth =>
    simp only [opCommands,applyRemoteOp,hp]
    refine turns_moved ?_ f menu r
    unfold adjust
    split
    · exact fun _ => rfl
    · next b hb => exact order_set h.named (h.named _ b hb)
  | delete =>
    simp only [opCommands,applyRemoteOp,hp]
    have hdissolve : Dissolved op.blockId none (order m)
        (order (promote op.blockId none (m.delete op.blockId))) :=
      order_dissolve h.named nofun (not_parentIn_self h.forest)
    exact turns_one (@Turn.dissolved _ _ ⟨order m,f,menu,r⟩ _ _ hdissolve)
  | attrs patch =>
    have hsame : order (applyRemoteOp m op) = order m := by
      simp only [applyRemoteOp,hp]
      refine order_adjust ?_ op.blockId
      exact fun _ => ⟨rfl,rfl,rfl⟩
    simp only [opCommands,hp,hsame]
    exact .nil _
  | content content =>
    have hsame : order (applyRemoteOp m op) = order m := by
      simp only [applyRemoteOp,hp]
      refine order_adjust ?_ op.blockId
      exact fun _ => ⟨rfl,rfl,rfl⟩
    simp only [opCommands,hp,hsame]
    exact .nil _

theorem conflict_turns (h : Tidy m) (c : ConflictInfo) (hfits : ConflictFits m c)
    (f menu : Option Uuid) (r : List Uuid) :
    Turns ⟨order m,f,menu,r⟩ (conflictCommands c) ⟨order (reject m c),f,menu,r⟩ := by
  cases hid : c.blockId with
  | uuid id =>
    have hplace := hfits id hid
    cases hcurrent : c.current with
    | some current =>
      rw [hcurrent] at hplace
      simp only [conflictCommands,reject,hid,hcurrent]
      exact turns_moved (order_set h.named hplace.1) f menu r
    | none =>
      simp only [conflictCommands,reject,hid,hcurrent]
      refine turns_moved (fun p => ?_) f menu r
      rw [order_delete h.named,List.filter_filter]
      simp
  | _ =>
    simp only [conflictCommands,reject,hid]
    exact .nil _

/-- What a list of changes does, each by its own commands. -/
theorem fold_turns {A : Type*} {g : Blocks → A → Blocks} {C : Blocks → A → Prop}
    {cs : A → List (Command Uuid)} {f menu : Option Uuid} {r : List Uuid}
    (htidy : ∀ n a, Tidy n → C n a → Tidy (g n a))
    (hone : ∀ n a, Tidy n → C n a → Turns ⟨order n,f,menu,r⟩ (cs a) ⟨order (g n a),f,menu,r⟩)
    (as : List A) (h : Tidy m) (hfits : Along (fun n a => some (g n a)) C m as) :
    Turns ⟨order m,f,menu,r⟩ (as.flatMap cs) ⟨order (as.foldl g m),f,menu,r⟩ := by
  induction as generalizing m with
  | nil => exact .nil _
  | cons a as ih =>
    obtain ⟨hfirst,hrest⟩ := hfits (g m a) rfl
    exact turns_append (hone m a h hfirst) (ih (htidy m a h hfirst) hrest)

theorem order_updateAttrs (s : Store) (blockId : Uuid) (attrs : JsonObj) :
    order (s.updateAttrs blockId attrs).blocks = order s.blocks := by
  unfold Store.updateAttrs
  split
  · rfl
  · next b hb =>
    have hadjust := @order_adjust s.blocks
      (fun c => { c with content := spreadAttrs c.content attrs }) (fun _ => ⟨rfl,rfl,rfl⟩) blockId
    rw [adjust,hb] at hadjust
    exact hadjust

theorem order_handleAck (s : Store) (clientSeq : ℕ) (results : List OpResult) :
    order (s.handleAck clientSeq results).blocks = order s.blocks := by
  funext p
  rw [order,order,← under_rebuildIndex,← under_rebuildIndex]
  exact congrArg (fun idx => under idx p) (indexed_acknowledged results s.blocks)

/-! ## Handlers and steps -/

theorem along_left {S A : Type*} {f : S → A → S} {C : S → A → Prop} (as : List A)
    {bs : List A} {u : S} (h : Along (fun s a => some (f s a)) C u (as++bs)) :
    Along (fun s a => some (f s a)) C u as := by
  induction as generalizing u with
  | nil => trivial
  | cons a as ih =>
    intro v hv
    obtain ⟨hfirst,hrest⟩ := h v hv
    exact ⟨hfirst,ih hrest⟩

theorem paste_turns (h : Ready e.store) (ho : e.ordered = some ordered)
    (hi : ordered[index]? = some block) (textLength : Option ℕ)
    (templates : List MarkdownBlockTemplate)
    (hroom : Along (fun s call => some (clientStep s call)) RoomyCall e.store
      (onMarkdownPaste block.blockId block.parentId textLength templates)) :
    Ready (makeHandlers ordered e block index (.onMarkdownPaste textLength templates)).store ∧
      Turns e.sheet (Handler.commands index (.onMarkdownPaste textLength templates))
        (makeHandlers ordered e block index (.onMarkdownPaste textLength templates)).sheet := by
  by_cases hempty : templates.isEmpty
  · obtain rfl := List.isEmpty_iff.mp hempty
    refine ⟨h,?_⟩
    have hframes : (makeHandlers ordered e block index (.onMarkdownPaste textLength [])).sheet =
        e.sheet := by
      show Sheet.mk _ _ _ (e.frames++[]) = _
      rw [List.append_nil]
      rfl
    rw [hframes]
    exact .nil _
  · have hget := line_block h ho hi
    have hlines := sheet_lines h ho
    have hid := line_id hi
    have hparent : block.blockId ∈ e.sheet.under block.parentId :=
      (mem_order h.tidy.named).mpr ⟨block,hget,rfl⟩
    rw [onMarkdownPaste,if_neg hempty] at hroom
    obtain ⟨later,hlater,hready,hkept,horder⟩ := inserts_run _ h
      (parent_known h.tidy.forest hget) (along_left _ hroom)
    rw [Handler.commands,if_neg hempty,makeHandlers,onMarkdownPaste,if_neg hempty,
      List.foldl_append,hlater]
    by_cases htext : textLength = some 0
    · rw [if_pos htext]
      have hdissolve := order_deleted hready (hkept _ _ hget)
      rw [horder] at hdissolve
      refine ⟨ready_delete hready _,?_⟩
      simp only [htext,decide_true]
      exact turns_one (.replace hlines hid hparent hdissolve)
    · rw [if_neg htext]
      refine ⟨hready,?_⟩
      have hpasted : Sheet.mk (order later.blocks) e.focusedBlockId e.slashFor
          (e.frames++(rootIds templates).head?.toList) =
            e.sheet.pasted block.parentId block.blockId (rootIds templates) := by
        rw [horder]
        rfl
      simp only [htext,decide_false]
      show Turns _ _ (Sheet.mk (order later.blocks) e.focusedBlockId e.slashFor
        (e.frames++(rootIds templates).head?.toList))
      rw [hpasted]
      exact turns_one (.paste hlines hid hparent)

theorem handler_turns (h : Ready e.store) (ho : e.ordered = some ordered)
    (hi : ordered[index]? = some block) (hd : Handler) (hadm : Admitted e (.handler index hd)) :
    Ready (makeHandlers ordered e block index hd).store ∧
      Turns e.sheet (hd.commands index) (makeHandlers ordered e block index hd).sheet := by
  have hlines := sheet_lines h ho
  have hid := line_id hi
  have hget := line_block h ho hi
  have hparent : block.blockId ∈ e.sheet.under block.parentId :=
    (mem_order h.tidy.named).mpr ⟨block,hget,rfl⟩
  have hknown : Known e.store.blocks block.parentId := parent_known h.tidy.forest hget
  have hlt : index < (ordered.map Block.blockId).length := (List.getElem?_eq_some_iff.mp hid).1
  have hroom := hadm ordered block ho hi
  cases hd with
  | onEnter newId =>
    refine ⟨ready_insert h hroom hknown _ _,?_⟩
    rw [makeHandlers,sheet_insert h hroom]
    exact turns_one (.split hlines hid hparent)
  | onBackspaceAtEmpty =>
    refine ⟨?_,?_⟩
    · rw [makeHandlers]
      cases prevOf ordered index <;> exact ready_delete h _
    · rw [makeHandlers,focusIf_sheet,prevOf_above]
      exact turns_one (.remove hlines hid hparent (order_deleted h hget))
  | onBackspaceAtStart =>
    refine ⟨?_,?_⟩
    · rw [makeHandlers]
      cases prevOf ordered index <;> exact h
    · rw [makeHandlers,focusIf_sheet,prevOf_above]
      exact turns_one (.up hlines hlt)
  | onSlash => exact ⟨h,turns_one (.openMenu hlines hid)⟩
  | onArrowUp =>
    refine ⟨?_,?_⟩
    · rw [makeHandlers]
      cases prevOf ordered index <;> exact h
    · rw [makeHandlers,focusIf_sheet,prevOf_above]
      exact turns_one (.up hlines hlt)
  | onArrowDown =>
    refine ⟨?_,?_⟩
    · rw [makeHandlers]
      cases ordered[index+1]? <;> exact h
    · rw [makeHandlers,focusIf_sheet,← List.getElem?_map]
      exact turns_one (.down hlines hlt)
  | onMarkdownPaste textLength templates =>
    exact paste_turns h ho hi textLength templates hroom
  | onFocus => exact ⟨h,turns_one (.focus hlines hid)⟩

theorem step_turns (h : Ready e.store) {ev : EditorEvent} (hadm : Admitted e ev)
    (hstep : step e ev = some t) : Ready t.store ∧ Turns e.sheet (commands ev) t.sheet := by
  obtain ⟨ordered,ho,hev⟩ := Option.bind_eq_some_iff.mp hstep
  cases ev with
  | startWriting newId =>
    dsimp only at hev
    split at hev
    · next hempty =>
      obtain rfl := Option.some.inj hev
      have hroom : Roomy e.store newId none none := hadm
      refine ⟨ready_insert h hroom nofun _ _,?_⟩
      rw [sheet_insert h hroom]
      have hlines := sheet_lines h ho
      rw [List.isEmpty_iff.mp hempty] at hlines
      exact turns_one (.start hlines)
    · cases hev
  | handler index hd =>
    obtain ⟨block,hi,rfl⟩ := Option.map_eq_some_iff.mp hev
    exact handler_turns h ho hi hd hadm
  | onClose =>
    dsimp only at hev
    split at hev
    · cases hev
    · obtain rfl := Option.some.inj hev
      exact ⟨h,turns_one .closeMenu⟩
  | onPick type level newId =>
    dsimp only at hev
    split at hev
    · cases hev
    · obtain rfl := Option.some.inj hev
      unfold onPick
      split
      · next hslash => exact ⟨h,turns_one (.noMenu hslash)⟩
      · next anchorId hslash =>
        have hroom := hadm anchorId hslash
        refine ⟨ready_insert h hroom nofun _ _,?_⟩
        have hpick : Turn e.sheet (.pick newId)
            { e.sheet.grown none (some anchorId) newId with menu := none } := .pick hslash
        rw [← sheet_insert h hroom type (some (pickedContent type level))] at hpick
        exact turns_one hpick
  | animationFrame =>
    obtain rfl := Option.some.inj hev
    rw [frames_focus]
    exact ⟨h,turns_one .frame⟩
  | updateAttrs blockId attrs =>
    obtain rfl := Option.some.inj hev
    have hready : Ready (e.store.updateAttrs blockId attrs) :=
      ⟨step_indexed h.indexed (.updateAttrs blockId attrs),
        tidy_step h.tidy (.updateAttrs blockId attrs) trivial⟩
    refine ⟨hready,?_⟩
    have hsheet : (e.act (.updateAttrs blockId attrs)).sheet = e.sheet := by
      show Sheet.mk (order (e.store.updateAttrs blockId attrs).blocks) _ _ _ = _
      rw [order_updateAttrs]
      rfl
    rw [hsheet]
    exact .nil _
  | applyRemoteOps ops streamId =>
    obtain rfl := Option.some.inj hev
    refine ⟨⟨⟨rfl,rfl⟩,tidy_step h.tidy (.applyRemoteOps ops streamId) hadm⟩,?_⟩
    exact fold_turns (fun _ op hn hc => tidy_remote hn op hc)
      (fun _ op hn _ => op_turns hn op _ _ _) ops h.tidy hadm
  | handleAck clientSeq results =>
    obtain rfl := Option.some.inj hev
    refine ⟨⟨step_indexed h.indexed (.handleAck clientSeq results),
      tidy_acknowledge h.tidy results⟩,?_⟩
    have hsheet : (e.act (.handleAck clientSeq results)).sheet = e.sheet := by
      show Sheet.mk (order (e.store.handleAck clientSeq results).blocks) _ _ _ = _
      rw [order_handleAck]
      rfl
    rw [hsheet]
    exact .nil _
  | handleNack clientSeq conflicts =>
    obtain rfl := Option.some.inj hev
    refine ⟨⟨⟨rfl,rfl⟩,tidy_step h.tidy (.handleNack clientSeq conflicts) hadm⟩,?_⟩
    exact fold_turns (fun _ c hn hc => tidy_reject hn c hc)
      (fun _ c hn hc => conflict_turns hn c hc _ _ _) conflicts h.tidy hadm

theorem run_turns {events : List EditorEvent} (h : Ready e.store)
    (hadm : Along step Admitted e events) (hrun : exec step e events = some t) :
    Ready t.store ∧ Turns e.sheet (events.flatMap commands) t.sheet := by
  induction events generalizing e with
  | nil =>
    obtain rfl := Option.some.inj hrun
    exact ⟨h,.nil _⟩
  | cons ev events ih =>
    obtain ⟨u,hu,hrest⟩ := Option.bind_eq_some_iff.mp hrun
    obtain ⟨hfirst,hlater⟩ := hadm u hu
    obtain ⟨hready,hturns⟩ := step_turns h hfirst hu
    obtain ⟨hend,hends⟩ := ih hready hlater hrest
    exact ⟨hend,turns_append hturns hends⟩

theorem ready_opened {blocks : List Block} (h : SnapshotForest blocks) (docId : DocId)
    (lastStreamId : StreamId) : Ready (opened docId blocks lastStreamId).store :=
  ⟨⟨rfl,rfl⟩,tidy_snapshot h docId lastStreamId⟩

/-- A page is an outline, and what it shows are the lines of the outline. -/
theorem editor_refines {blocks : List Block} (hsnapshot : SnapshotForest blocks) (docId : DocId)
    (lastStreamId : StreamId) {events : List EditorEvent} {e : Editor}
    (hadm : Along step Admitted (opened docId blocks lastStreamId) events)
    (hrun : exec step (opened docId blocks lastStreamId) events = some e) :
    Turns (opened docId blocks lastStreamId).sheet (events.flatMap commands) e.sheet ∧
      ∃ ordered, e.ordered = some ordered ∧ e.sheet.Lines (ordered.map Block.blockId) := by
  obtain ⟨hready,hturns⟩ := run_turns (ready_opened hsnapshot docId lastStreamId) hadm hrun
  obtain ⟨ordered,ho⟩ := ordered_ends hready
  exact ⟨hturns,ordered,ho,sheet_lines hready ho⟩

/-! ## A heading behind the only block -/

theorem root_snapshot : SnapshotForest [rootBlock] := by
  refine ⟨by decide,?_⟩
  intro b hb
  rw [List.mem_singleton.mp hb]
  exact .root ⟨rootBlock,List.mem_singleton_self _,rfl,rfl⟩

def slashed : Editor := { opened 1 [rootBlock] (toLex (0,0)) with slashFor := some 1 }

theorem slash_step : step (opened 1 [rootBlock] (toLex (0,0))) (.handler 0 .onSlash) =
    some slashed := rfl

theorem pick_admitted : Admitted slashed (.onPick "heading" (some 1) 2) := by
  rintro anchorId hanchor
  obtain rfl := Option.some.inj hanchor
  exact ⟨rfl,by decide +kernel,by decide⟩

theorem heading_turns : ∃ e, exec step (opened 1 [rootBlock] (toLex (0,0)))
      [.handler 0 .onSlash,.onPick "heading" (some 1) 2,.animationFrame] = some e ∧
    Turns (opened 1 [rootBlock] (toLex (0,0))).sheet [.openMenu 0,.pick 2,.frame] e.sheet ∧
      ∃ ordered, e.ordered = some ordered ∧ e.sheet.Lines (ordered.map Block.blockId) := by
  have hrun : (exec step (opened 1 [rootBlock] (toLex (0,0)))
      [.handler 0 .onSlash,.onPick "heading" (some 1) 2,.animationFrame]).isSome := by
    decide +kernel
  obtain ⟨e,he⟩ := Option.isSome_iff_exists.mp hrun
  refine ⟨e,he,editor_refines root_snapshot 1 (toLex (0,0)) ?_ he⟩
  refine along_cons slash_step (fun _ _ _ _ => trivial) (along_cons rfl pick_admitted ?_)
  exact fun _ _ => ⟨trivial,trivial⟩

end BlockDocs.BlockEditor
