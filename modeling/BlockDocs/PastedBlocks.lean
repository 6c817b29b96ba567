import BlockDocs.Markdown

/-!
# The blocks of pasted markdown

The templates list a forest in pre-order. The handler inserts the templates whose index
is 0, which are the roots and the children of the first template, and all of them under
the parent of the block.
-/

set_option autoImplicit false

namespace BlockDocs.PastedBlocks
open BlockDocs.InsertionMap BlockDocs.Wire BlockDocs.DocBlocks BlockDocs.InlineNodes
open BlockDocs.BlockStore BlockDocs.ClientRun BlockDocs.Markdown

/-! ## The forest of templates -/

structure Draft where
  type : String
  content : BlockContent

inductive Outline where
  | node (draft : Draft) (children : List Outline)

section Outlines

variable (stringify : Json → String)

mutual

def outlines : Token → List Outline
  | .heading depth tokens => [.node ⟨"heading",headingContent stringify depth tokens⟩ []]
  | .paragraph tokens => [.node ⟨"paragraph",paragraphContent stringify tokens⟩ []]
  | .code lang text => [.node ⟨"code",codeContent lang text⟩ []]
  | .blockquote tokens => [.node ⟨"blockquote",{ children := some [] }⟩ (outlinesAll tokens)]
  | .hr => [.node ⟨"divider",{}⟩ []]
  | .list ordered items => itemOutlines ordered items
  | .html => []
  | .space => []
  | .table header rows =>
    (header::rows).map (fun cells => .node ⟨"paragraph",plainContent (cellLine cells)⟩ [])
  | .text raw _ => if raw = "" then [] else [.node ⟨"paragraph",plainContent raw⟩ []]
  | .other raw => if raw = "" then [] else [.node ⟨"paragraph",plainContent raw⟩ []]

def outlinesAll : List Token → List Outline
  | [] => []
  | tok::tokens => outlines tok++outlinesAll tokens

def itemOutlines (ordered : Bool) : List ListItem → List Outline
  | [] => []
  | item::items => itemOutline ordered item::itemOutlines ordered items

def itemOutline (ordered : Bool) : ListItem → Outline
  | .mk task checked tokens =>
    .node ⟨itemType ordered task,itemContent stringify task checked tokens⟩ (listOutlines tokens)

def listOutlines : List Token → List Outline
  | [] => []
  | sub::tokens => (if sub.isList then outlines sub else [])++listOutlines tokens

end

end Outlines

mutual

def nodeRows (next : ℕ) (parent : Option ℕ) : Outline → List (Draft × Option ℕ)
  | .node draft children => (draft,parent)::rows (next+1) (some next) children

def rows (next : ℕ) (parent : Option ℕ) : List Outline → List (Draft × Option ℕ)
  | [] => []
  | o::os => nodeRows next parent o++rows (next+(nodeRows next parent o).length) parent os

end

theorem rows_append (os os' : List Outline) (next : ℕ) (parent : Option ℕ) :
    rows next parent (os++os') =
      rows next parent os++rows (next+(rows next parent os).length) parent os' := by
  induction os generalizing next with
  | nil => rfl
  | cons o os ih =>
    rw [List.cons_append,rows,ih,rows,List.append_assoc,List.length_append,Nat.add_assoc]

/-! ## The templates -/

section Templates

variable (stringify : Json → String) (ids : ℕ → Uuid)

/-- At the top the index is 0. -/
def template (row : (Draft × Option ℕ) × ℕ) : MarkdownBlockTemplate :=
  ⟨ids row.2,row.1.1.type,row.1.1.content,row.1.2.getD 0⟩

/-- The templates of a forest behind those that are there. -/
def place (out : List MarkdownBlockTemplate) (parent : Option ℕ) (os : List Outline) :
    List MarkdownBlockTemplate :=
  out++((rows out.length parent os).zipIdx out.length).map (template ids)

variable {stringify ids} {out : List MarkdownBlockTemplate} {parent : Option ℕ}

theorem place_nil : place ids out parent [] = out := List.append_nil out

theorem place_append (os os' : List Outline) :
    place ids out parent (os++os') = place ids (place ids out parent os) parent os' := by
  have hlength : (place ids out parent os).length =
      out.length+(rows out.length parent os).length := by
    rw [place,List.length_append,List.length_map,List.length_zipIdx]
  unfold place at hlength ⊢
  rw [rows_append,List.zipIdx_append,List.map_append,hlength,List.append_assoc]

theorem place_node (draft : Draft) (children : List Outline) :
    place ids out parent [.node draft children] =
      place ids (pushTemplate ids out draft.type draft.content (parent.getD 0)) (some out.length)
        children := by
  rw [place,place,pushTemplate,List.length_append,List.length_singleton,List.append_assoc]
  simp [rows,nodeRows,template]

theorem place_leaf (type : String) (content : BlockContent) :
    place ids out parent [.node ⟨type,content⟩ []] =
      pushTemplate ids out type content (parent.getD 0) := by
  rw [place_node,place_nil]

theorem place_lines (lines : List (List String)) (out : List MarkdownBlockTemplate) :
    lines.foldl (fun out cells => pushTemplate ids out "paragraph" (plainContent (cellLine cells))
        (parent.getD 0)) out =
      place ids out parent
        (lines.map (fun cells => .node ⟨"paragraph",plainContent (cellLine cells)⟩ [])) := by
  induction lines generalizing out with
  | nil => exact place_nil.symm
  | cons cells lines ih =>
    rw [List.foldl_cons,ih,List.map_cons,← List.singleton_append,place_append,place_leaf]

theorem place_raw (raw : String) :
    (if raw = "" then out else pushTemplate ids out "paragraph" (plainContent raw)
        (parent.getD 0)) =
      place ids out parent
        (if raw = "" then [] else [.node ⟨"paragraph",plainContent raw⟩ []]) := by
  split
  · exact place_nil.symm
  · exact (place_leaf _ _).symm

mutual

/-- The recursion of the source puts out the templates of the outlines. -/
theorem push_place (tok : Token) (out : List MarkdownBlockTemplate) (parent : Option ℕ) :
    pushToken stringify ids tok out (parent.getD 0) =
      place ids out parent (outlines stringify tok) := by
  cases tok with
  | heading depth tokens => exact (place_leaf _ _).symm
  | paragraph tokens => exact (place_leaf _ _).symm
  | code lang text => exact (place_leaf _ _).symm
  | blockquote tokens =>
    rw [outlines,place_node,pushToken]
    exact pushTokens_place tokens _ (some out.length)
  | hr => exact (place_leaf _ _).symm
  | list ordered items =>
    rw [outlines,pushToken]
    exact pushItems_place ordered items out parent
  | html => exact place_nil.symm
  | space => exact place_nil.symm
  | table header rows =>
    rw [outlines,pushToken]
    exact place_lines (header::rows) out
  | text raw tokens =>
    rw [outlines,pushToken]
    exact place_raw raw
  | other raw =>
    rw [outlines,pushToken]
    exact place_raw raw

theorem pushTokens_place (tokens : List Token) (out : List MarkdownBlockTemplate)
    (parent : Option ℕ) : pushTokens stringify ids tokens out (parent.getD 0) =
      place ids out parent (outlinesAll stringify tokens) := by
  cases tokens with
  | nil => exact place_nil.symm
  | cons tok tokens =>
    rw [pushTokens,outlinesAll,place_append,push_place tok out parent]
    exact pushTokens_place tokens _ parent

theorem pushItems_place (ordered : Bool) (items : List ListItem)
    (out : List MarkdownBlockTemplate) (parent : Option ℕ) :
    pushItems stringify ids ordered items out (parent.getD 0) =
      place ids out parent (itemOutlines stringify ordered items) := by
  cases items with
  | nil => exact place_nil.symm
  | cons item items =>
    rw [pushItems,itemOutlines,← List.singleton_append,place_append,
      pushItem_place ordered item out parent]
    exact pushItems_place ordered items _ parent

theorem pushItem_place (ordered : Bool) (item : ListItem) (out : List MarkdownBlockTemplate)
    (parent : Option ℕ) : pushItem stringify ids ordered item out (parent.getD 0) =
      place ids out parent [itemOutline stringify ordered item] := by
  cases item with
  | mk task checked tokens =>
    rw [itemOutline,place_node,pushItem]
    exact pushLists_place tokens _ (some out.length)

theorem pushLists_place (tokens : List Token) (out : List MarkdownBlockTemplate)
    (parent : Option ℕ) : pushLists stringify ids tokens out (parent.getD 0) =
      place ids out parent (listOutlines stringify tokens) := by
  cases tokens with
  | nil => exact place_nil.symm
  | cons sub tokens =>
    rw [pushLists,listOutlines,place_append,pushLists_place tokens _ parent]
    congr 1
    split
    · exact push_place sub out parent
    · exact place_nil.symm

end

end Templates

/-! ## Flat markdown -/

def Silent : Token → Prop
  | .html => True
  | .space => True
  | .list _ items => items = []
  | .text raw _ => raw = ""
  | .other raw => raw = ""
  | _ => False

/-- No template comes from inside another's token: blockquotes hold nothing, and the items
of a list no list with items. -/
def Flat : Token → Prop
  | .blockquote tokens => ∀ tok ∈ tokens, Silent tok
  | .list _ items => ∀ item ∈ items, match item with
    | .mk _ _ tokens => ∀ sub ∈ tokens, sub.isList = true → Silent sub
  | _ => True

def Childless (os : List Outline) : Prop := ∀ o ∈ os, match o with
  | .node _ children => children = []

section Flat

variable {stringify : Json → String}

theorem outlines_silent (tok : Token) : outlines stringify tok = [] ↔ Silent tok := by
  cases tok with
  | list ordered items =>
    rw [outlines,Silent]
    cases items with
    | nil => exact iff_of_true rfl rfl
    | cons item items => exact iff_of_false (List.cons_ne_nil _ _) (List.cons_ne_nil _ _)
  | text raw tokens =>
    rw [outlines,Silent]
    split <;> simp [*]
  | other raw =>
    rw [outlines,Silent]
    split <;> simp [*]
  | html => exact iff_of_true rfl trivial
  | space => exact iff_of_true rfl trivial
  | heading depth tokens => exact iff_of_false (List.cons_ne_nil _ _) id
  | paragraph tokens => exact iff_of_false (List.cons_ne_nil _ _) id
  | code lang text => exact iff_of_false (List.cons_ne_nil _ _) id
  | blockquote tokens => exact iff_of_false (List.cons_ne_nil _ _) id
  | hr => exact iff_of_false (List.cons_ne_nil _ _) id
  | table header rows => exact iff_of_false (List.cons_ne_nil _ _) id

theorem outlinesAll_nil (tokens : List Token) :
    outlinesAll stringify tokens = [] ↔ ∀ tok ∈ tokens, Silent tok := by
  induction tokens with
  | nil => exact iff_of_true rfl nofun
  | cons tok tokens ih =>
    rw [outlinesAll,List.append_eq_nil_iff,outlines_silent,ih,List.forall_mem_cons]

theorem listOutlines_nil (tokens : List Token) :
    listOutlines stringify tokens = [] ↔ ∀ sub ∈ tokens, sub.isList = true → Silent sub := by
  induction tokens with
  | nil => exact iff_of_true rfl nofun
  | cons sub tokens ih =>
    rw [listOutlines,List.append_eq_nil_iff,ih,List.forall_mem_cons]
    refine and_congr_left fun _ => ?_
    split
    · next hlist => rw [outlines_silent,imp_iff_right hlist]
    · next hlist => exact iff_of_true rfl (fun h => absurd h hlist)

theorem childless_append {os os' : List Outline} :
    Childless (os++os') ↔ Childless os ∧ Childless os' := List.forall_mem_append

theorem childless_cons {draft : Draft} {children os : List Outline} :
    Childless (.node draft children::os) ↔ children = [] ∧ Childless os := List.forall_mem_cons

theorem childless_leaves {α : Type*} (f : α → Draft) (xs : List α) :
    Childless (xs.map (fun x => .node (f x) [])) := by
  intro o ho
  obtain ⟨x,_,rfl⟩ := List.mem_map.mp ho
  rfl

theorem childless_leaf (draft : Draft) : Childless [.node draft []] :=
  childless_leaves id [draft]

theorem outlines_flat (tok : Token) : Childless (outlines stringify tok) ↔ Flat tok := by
  cases tok with
  | blockquote tokens =>
    rw [outlines,Flat,← @outlinesAll_nil stringify]
    exact List.forall_mem_singleton
  | list ordered items =>
    rw [outlines,Flat]
    induction items with
    | nil => exact iff_of_true nofun nofun
    | cons item items ih =>
      obtain ⟨task,checked,tokens⟩ := item
      rw [itemOutlines,itemOutline,childless_cons,List.forall_mem_cons]
      exact and_congr (listOutlines_nil tokens) ih
  | table header rows => exact iff_of_true (childless_leaves _ _) trivial
  | text raw tokens =>
    rw [outlines]
    split
    · exact iff_of_true nofun trivial
    · exact iff_of_true (childless_leaf _) trivial
  | other raw =>
    rw [outlines]
    split
    · exact iff_of_true nofun trivial
    · exact iff_of_true (childless_leaf _) trivial
  | html => exact iff_of_true nofun trivial
  | space => exact iff_of_true nofun trivial
  | heading depth tokens => exact iff_of_true (childless_leaf _) trivial
  | paragraph tokens => exact iff_of_true (childless_leaf _) trivial
  | code lang text => exact iff_of_true (childless_leaf _) trivial
  | hr => exact iff_of_true (childless_leaf _) trivial

theorem outlinesAll_flat (tokens : List Token) :
    Childless (outlinesAll stringify tokens) ↔ ∀ tok ∈ tokens, Flat tok := by
  induction tokens with
  | nil => exact iff_of_true nofun nofun
  | cons tok tokens ih =>
    rw [outlinesAll,childless_append,outlines_flat,ih,List.forall_mem_cons]

end Flat

/-- Only the nodes of a forest without children are all at the top. -/
theorem rows_childless (os : List Outline) (next : ℕ) :
    (∀ row ∈ rows next none os, row.2 = none) ↔ Childless os := by
  induction os generalizing next with
  | nil => exact iff_of_true nofun nofun
  | cons o os ih =>
    obtain ⟨draft,children⟩ := o
    rw [rows,List.forall_mem_append,ih,childless_cons]
    refine and_congr_left fun _ => ?_
    rw [nodeRows,List.forall_mem_cons,and_iff_right rfl]
    cases children with
    | nil => exact iff_of_true nofun rfl
    | cons child children =>
      obtain ⟨draft',children'⟩ := child
      refine iff_of_false (fun h => ?_) (List.cons_ne_nil _ _)
      have hchild := h (draft',some next) (by rw [rows,nodeRows]; simp)
      cases hchild

/-! ## What is inserted -/

abbrev InsertCall := Uuid × Option Uuid × String × Option JsonObj

def insertCall : ClientEvent → Option InsertCall
  | .insertBlock blockId type parentId _ content => some (blockId,parentId,type,content)
  | _ => none

def templateCall (parentId : Option Uuid) (t : MarkdownBlockTemplate) : InsertCall :=
  (t.blockId,parentId,t.type,some t.content.json)

theorem insertCalls_after (parentId : Option Uuid) (afterId : Uuid)
    (templates : List MarkdownBlockTemplate) :
    (insertsAfter parentId afterId templates).filterMap insertCall =
      templates.map (templateCall parentId) := by
  induction templates generalizing afterId with
  | nil => rfl
  | cons t templates ih =>
    rw [insertsAfter,List.filterMap_cons,List.map_cons,← ih t.blockId]
    rfl

theorem insertCalls_paste (blockId : Uuid) (parentId : Option Uuid) (textLength : Option ℕ)
    (templates : List MarkdownBlockTemplate) :
    (onMarkdownPaste blockId parentId textLength templates).filterMap insertCall =
      (templates.filter (fun t => t.parentIndex = 0)).map (templateCall parentId) := by
  unfold onMarkdownPaste
  cases templates with
  | nil => rfl
  | cons t templates =>
    have hdelete : (if textLength = some 0 then [ClientEvent.deleteBlock blockId]
        else []).filterMap insertCall = [] := by split <;> rfl
    rw [if_neg (by simp),List.filterMap_append,insertCalls_after,hdelete,List.append_nil]

section Paste

variable (stringify : Json → String) (ids : ℕ → Uuid)

/-- For each template the index of the one whose token is around its own. -/
def enclosing (tokens : List Token) : List (Option ℕ) :=
  (rows 0 none (outlinesAll stringify tokens)).map Prod.snd

/-- The inserts of all templates in their order, each under the block of the enclosing
token, or under `parentId`. -/
def nestedCalls (parentId : Option Uuid) (tokens : List Token) : List InsertCall :=
  List.zipWith (fun t parent => templateCall (parent.elim parentId (fun i => some (ids i))) t)
    (markdownToBlocks stringify ids tokens) (enclosing stringify tokens)

theorem zipWith_zipIdx {α β γ δ : Type*} (f : β → γ → δ) (g : α × ℕ → β) (h : α → γ)
    (xs : List α) : List.zipWith f (xs.zipIdx.map g) (xs.map h) =
      xs.zipIdx.map (fun x => f (g x) (h x.1)) := by
  have hfst : xs.map h = xs.zipIdx.map (fun x => h x.1) := by
    conv_lhs => rw [← List.zipIdx_map_fst 0 xs,List.map_map]
    rfl
  rw [hfst,List.zipWith_map,List.zipWith_self]

/-- The handler inserts all templates in their order, each in its place, exactly when no
template comes from inside another's token. -/
theorem paste_nested_iff (blockId : Uuid) {parentId : Option Uuid} (textLength : Option ℕ)
    (tokens : List Token) (hfresh : ∀ i, parentId ≠ some (ids i)) :
    (onMarkdownPaste blockId parentId textLength
        (markdownToBlocks stringify ids tokens)).filterMap insertCall =
      nestedCalls stringify ids parentId tokens ↔ ∀ tok ∈ tokens, Flat tok := by
  have htemplates : markdownToBlocks stringify ids tokens =
      (rows 0 none (outlinesAll stringify tokens)).zipIdx.map (template ids) :=
    pushTokens_place tokens [] none
  rw [insertCalls_paste,nestedCalls,enclosing,htemplates,zipWith_zipIdx,
    ← @outlinesAll_flat stringify,← rows_childless (outlinesAll stringify tokens) 0]
  generalize rows 0 none (outlinesAll stringify tokens) = listed
  constructor
  · intro heq row hrow
    obtain ⟨draft,parent⟩ := row
    cases parent with
    | none => rfl
    | some i =>
      obtain ⟨k,hk⟩ := List.getElem?_of_mem hrow
      have hcall := List.mem_map_of_mem (f := fun x : (Draft × Option ℕ) × ℕ =>
          templateCall (x.1.2.elim parentId (fun i => some (ids i))) (template ids x))
        (List.mk_mem_zipIdx_iff_getElem?.mpr hk)
      rw [← heq] at hcall
      obtain ⟨t,_,ht⟩ := List.mem_map.mp hcall
      exact absurd (congrArg (fun c : InsertCall => c.2.1) ht) (hfresh i)
  · intro hnone
    have hentry : ∀ row ∈ listed.zipIdx, row.1.2 = none :=
      fun row hrow => hnone row.1 (List.fst_mem_of_mem_zipIdx hrow)
    rw [List.filter_eq_self.mpr,List.map_map]
    · refine List.map_congr_left fun row hrow => ?_
      simp only [Function.comp_apply,hentry row hrow,Option.elim_none]
    · intro t ht
      obtain ⟨row,hrow,rfl⟩ := List.mem_map.mp ht
      exact decide_eq_true (by rw [template,hentry row hrow]; rfl)

def flatTokens : List Token :=
  [.heading 1 [.text "a" []],.list false [.mk false false [.text "b" [.text "b" []]]]]

theorem flatTokens_pasted : (onMarkdownPaste 1 none none
      (markdownToBlocks (fun _ => "") (· + 2) flatTokens)).filterMap insertCall =
    nestedCalls (fun _ => "") (· + 2) none flatTokens ↔ ∀ tok ∈ flatTokens, Flat tok :=
  paste_nested_iff (fun _ => "") (· + 2) 1 none flatTokens (fun _ => nofun)

/-- `> hello` becomes an empty blockquote and a paragraph next to it. -/
theorem quoted_paragraph_outside : ¬∀ (stringify : Json → String) (ids : ℕ → Uuid)
    (blockId : Uuid) (parentId : Option Uuid) (textLength : Option ℕ) (tokens : List Token),
    (∀ i, parentId ≠ some (ids i)) →
      (onMarkdownPaste blockId parentId textLength
          (markdownToBlocks stringify ids tokens)).filterMap insertCall =
        nestedCalls stringify ids parentId tokens := by
  intro hall
  have hcalls := hall (fun _ => "") (· + 2) 1 none none
    [.blockquote [.paragraph [.text "hello" []]]] (fun _ => nofun)
  have hparents := congrArg (List.map (fun c : InsertCall => c.2.1)) hcalls
  exact absurd hparents (by decide)

end Paste

end BlockDocs.PastedBlocks
