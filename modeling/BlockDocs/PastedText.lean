import BlockDocs.PastedBlocks
import BlockDocs.KeptInOrder

/-!
# The text of pasted markdown

Every kind of token has its text in a template, save for the tokens in a list item: of
these one paragraph or text is kept, ahead of the nested lists, and the rest is dropped.
-/

set_option autoImplicit false

namespace BlockDocs.PastedText
open BlockDocs.InsertionMap BlockDocs.Wire BlockDocs.DocBlocks BlockDocs.InlineNodes
open BlockDocs.Markdown BlockDocs.PastedBlocks BlockDocs.KeptInOrder

/-! ## Texts -/

mutual

def inlineText : Inline → List Char
  | .text text [] => text.toList
  | .text _ (tok::tokens) => inlinesText (tok::tokens)
  | .strong tokens => inlinesText tokens
  | .em tokens => inlinesText tokens
  | .del tokens => inlinesText tokens
  | .codespan text => text.toList
  | .link _ text [] => text.toList
  | .link _ _ (tok::tokens) => inlinesText (tok::tokens)
  | .br => ['\n']
  | .image text => text.toList
  | .literal text raw => ((text.or raw).getD "").toList
  | .other (some tokens) _ => inlinesText tokens
  | .other none text => text.toList

def inlinesText : List Inline → List Char
  | [] => []
  | tok::tokens => inlineText tok++inlinesText tokens

end

mutual

/-- The texts in a token, in the order of the document. In a list item, `text` and unknown
tokens count as well. -/
def texts (inItem : Bool) : Token → List (List Char)
  | .heading _ tokens => [inlinesText tokens]
  | .paragraph tokens => [inlinesText tokens]
  | .code _ text => [text.toList]
  | .blockquote tokens => textsAll false tokens
  | .hr => []
  | .list _ items => itemTexts items
  | .html => []
  | .space => []
  | .table header rows => ((header::rows).flatten).map String.toList
  | .text _ tokens => if inItem then [inlinesText tokens] else []
  | .other raw => if inItem then [raw.toList] else []

def textsAll (inItem : Bool) : List Token → List (List Char)
  | [] => []
  | tok::tokens => texts inItem tok++textsAll inItem tokens

def itemTexts : List ListItem → List (List Char)
  | [] => []
  | .mk _ _ tokens::items => textsAll true tokens++itemTexts items

end

def nodeText : InlineNode → List Char
  | .text s _ => s.toList
  | .mention _ => []

def contentText (content : BlockContent) : List Char :=
  (content.children.getD []).flatMap nodeText

/-- Every text occurs in the content of a template, and the templates are in the order of
the texts. -/
def TextPreserved (stringify : Json → String) (ids : ℕ → Uuid) (tokens : List Token) : Prop :=
  Kept (· <:+: ·) (textsAll false tokens)
    ((markdownToBlocks stringify ids tokens).map (fun t => contentText t.content))

/-! ## What is kept of a list item -/

def voiced (tok : Token) : Bool := !(texts true tok).isEmpty

def inlineTokens (tok : Token) : Option (List Inline) :=
  (paragraphTokens tok).or (textTokens tok)

/-- Of the tokens with a text, the first may be a paragraph or text, the others are lists. -/
def Arranged (tokens : List Token) : Prop :=
  match tokens.filter voiced with
  | [] => True
  | first::rest => (first.isList = true ∨ (inlineTokens first).isSome = true) ∧
      ∀ tok ∈ rest, tok.isList = true

mutual

def Orderly : Token → Prop
  | .blockquote tokens => OrderlyAll tokens
  | .list _ items => OrderlyItems items
  | _ => True

def OrderlyAll : List Token → Prop
  | [] => True
  | tok::tokens => Orderly tok ∧ OrderlyAll tokens

def OrderlyItems : List ListItem → Prop
  | [] => True
  | .mk _ _ tokens::items => (Arranged tokens ∧ OrderlyLists tokens) ∧ OrderlyItems items

def OrderlyLists : List Token → Prop
  | [] => True
  | sub::tokens => (sub.isList = true → Orderly sub) ∧ OrderlyLists tokens

end

/-! ## Contents -/

section Inline

variable (stringify : Json → String)

theorem nodesText_append (ns ns' : List InlineNode) :
    (ns++ns').flatMap nodeText = ns.flatMap nodeText++ns'.flatMap nodeText := List.flatMap_append

mutual

theorem walk_text (marks : List Mark) (tok : Inline) :
    (walkInline marks tok).flatMap nodeText = inlineText tok := by
  cases tok with
  | text text tokens =>
    cases tokens with
    | nil => exact List.append_nil _
    | cons tok tokens => exact walks_text _ (tok::tokens)
  | strong tokens => exact walks_text _ tokens
  | em tokens => exact walks_text _ tokens
  | del tokens => exact walks_text _ tokens
  | codespan text => exact List.append_nil _
  | link href text tokens =>
    cases tokens with
    | nil => exact List.append_nil _
    | cons tok tokens => exact walks_text _ (tok::tokens)
  | br => rfl
  | image text => exact List.append_nil _
  | literal text raw =>
    rw [walkInline,inlineText]
    split
    · next hempty => rw [hempty]; rfl
    · exact List.append_nil _
  | other tokens text =>
    cases tokens with
    | none =>
      rw [walkInline,inlineText]
      split
      · next hempty => rw [hempty]; rfl
      · exact List.append_nil _
    | some tokens => exact walks_text _ tokens

theorem walks_text (marks : List Mark) (tokens : List Inline) :
    (walkInlines marks tokens).flatMap nodeText = inlinesText tokens := by
  cases tokens with
  | nil => rfl
  | cons tok tokens =>
    rw [walkInlines,nodesText_append,walk_text marks tok,walks_text marks tokens]
    rfl

end

theorem mergeFrom_text (prev : InlineNode) (nodes : List InlineNode) :
    (mergeFrom stringify prev nodes).flatMap nodeText =
      nodeText prev++nodes.flatMap nodeText := by
  induction nodes generalizing prev with
  | nil => rfl
  | cons n nodes ih =>
    cases n with
    | text t marks' =>
      cases prev with
      | text s marks =>
        rw [mergeFrom]
        split
        · rw [ih,nodeText,String.toList_append,List.append_assoc]
          rfl
        · rw [List.flatMap_cons,ih]
          rfl
      | mention attrs =>
        rw [mergeFrom,List.flatMap_cons,ih]
        rfl
    | mention attrs =>
      rw [mergeFrom,List.flatMap_cons,ih]
      rfl

theorem inline_text (tokens : List Inline) (marks : List Mark) :
    (inlineFromTokens stringify tokens marks).flatMap nodeText = inlinesText tokens := by
  rw [inlineFromTokens,← walks_text marks tokens]
  cases walkInlines marks tokens with
  | nil => rfl
  | cons n nodes => exact mergeFrom_text stringify n nodes

end Inline

mutual

def contents : Outline → List (List Char)
  | .node draft children => contentText draft.content::contentsAll children

def contentsAll : List Outline → List (List Char)
  | [] => []
  | o::os => contents o++contentsAll os

end

theorem contentsAll_append (os os' : List Outline) :
    contentsAll (os++os') = contentsAll os++contentsAll os' := by
  induction os with
  | nil => rfl
  | cons o os ih => rw [List.cons_append,contentsAll,ih,contentsAll,List.append_assoc]

theorem contentsAll_single (o : Outline) : contentsAll [o] = contents o := List.append_nil _

mutual

theorem nodeRows_contents (next : ℕ) (parent : Option ℕ) (o : Outline) :
    (nodeRows next parent o).map (fun r => contentText r.1.content) = contents o := by
  cases o with
  | node draft children =>
    rw [nodeRows,contents,List.map_cons,rows_contents (next+1) (some next) children]

theorem rows_contents (next : ℕ) (parent : Option ℕ) (os : List Outline) :
    (rows next parent os).map (fun r => contentText r.1.content) = contentsAll os := by
  cases os with
  | nil => rfl
  | cons o os =>
    rw [rows,contentsAll,List.map_append,nodeRows_contents next parent o,rows_contents _ parent os]

end

theorem templates_contents (stringify : Json → String) (ids : ℕ → Uuid) (tokens : List Token) :
    (markdownToBlocks stringify ids tokens).map (fun t => contentText t.content) =
      contentsAll (outlinesAll stringify tokens) := by
  have htemplates : markdownToBlocks stringify ids tokens =
      (rows 0 none (outlinesAll stringify tokens)).zipIdx.map (template ids) :=
    pushTokens_place tokens [] none
  rw [htemplates,List.map_map,← rows_contents 0 none]
  conv_rhs => rw [← List.zipIdx_map_fst 0 (rows 0 none (outlinesAll stringify tokens)),List.map_map]
  rfl

/-! ## Orderly markdown -/

def listTexts (tokens : List Token) : List (List Char) :=
  (tokens.filter Token.isList).flatMap (texts true)

section Arranged

variable {tok : Token} {tokens : List Token}

theorem texts_silent (h : voiced tok = false) : texts true tok = [] := by
  rw [voiced,Bool.not_eq_false'] at h
  exact List.isEmpty_iff.mp h

theorem not_inline_of_list (h : tok.isList = true) :
    paragraphTokens tok = none ∧ textTokens tok = none := by
  cases tok with
  | list ordered items => exact ⟨rfl,rfl⟩
  | _ => cases h

theorem not_inline_of_silent (h : voiced tok = false) :
    paragraphTokens tok = none ∧ textTokens tok = none := by
  cases tok with
  | paragraph tokens => cases h
  | text raw tokens => cases h
  | _ => exact ⟨rfl,rfl⟩

theorem texts_item (inItem : Bool) (h : tok.isList = true) : texts inItem tok = texts true tok := by
  cases tok with
  | list ordered items => rfl
  | _ => cases h

/-- Where only lists have texts, nothing is found to keep. -/
theorem only_lists (h : ∀ tok ∈ tokens.filter voiced, tok.isList = true) :
    textsAll true tokens = listTexts tokens ∧ tokens.findSome? paragraphTokens = none ∧
      tokens.findSome? textTokens = none := by
  induction tokens with
  | nil => exact ⟨rfl,rfl,rfl⟩
  | cons tok tokens ih =>
    have hrest : ∀ tok' ∈ tokens.filter voiced, tok'.isList = true := fun tok' htok' =>
      h tok' ((List.Sublist.filter voiced (List.sublist_cons_self tok tokens)).subset htok')
    obtain ⟨htexts,hparagraphs,hothers⟩ := ih hrest
    have hnone : paragraphTokens tok = none ∧ textTokens tok = none := by
      cases hv : voiced tok with
      | false => exact not_inline_of_silent hv
      | true => exact not_inline_of_list (h tok (List.mem_filter.mpr ⟨List.mem_cons_self,hv⟩))
    refine ⟨?_,by rw [List.findSome?_cons,hnone.1,hparagraphs],
      by rw [List.findSome?_cons,hnone.2,hothers]⟩
    rw [textsAll,htexts,listTexts,listTexts]
    cases hlist : tok.isList with
    | true => rw [List.filter_cons_of_pos hlist,List.flatMap_cons]
    | false =>
      have hv : voiced tok = false := by
        by_contra hv
        have hmem : tok ∈ (tok::tokens).filter voiced :=
          List.mem_filter.mpr ⟨List.mem_cons_self,(Bool.not_eq_false _).mp hv⟩
        exact absurd ((h tok hmem).symm.trans hlist) Bool.false_ne_true.symm
      rw [List.filter_cons_of_neg (by rw [hlist]; exact Bool.false_ne_true),texts_silent hv,
        List.nil_append]

/-- The texts of an arranged item are what is kept of it and then those of its lists. -/
theorem arranged_texts (h : Arranged tokens) : textsAll true tokens = listTexts tokens ∨
    textsAll true tokens = inlinesText (itemInline tokens)::listTexts tokens := by
  induction tokens with
  | nil => exact Or.inl rfl
  | cons tok tokens ih =>
    rw [Arranged] at h
    cases hv : voiced tok with
    | false =>
      rw [List.filter_cons_of_neg (by rw [hv]; exact Bool.false_ne_true)] at h
      obtain ⟨hparagraph,htext⟩ := not_inline_of_silent hv
      have hitem : itemInline (tok::tokens) = itemInline tokens := by
        rw [itemInline,List.findSome?_cons,List.findSome?_cons,hparagraph,htext]
        rfl
      have hlists : listTexts (tok::tokens) = listTexts tokens := by
        rw [listTexts,List.filter_cons]
        split
        · rw [List.flatMap_cons,texts_silent hv]
          rfl
        · rfl
      rw [textsAll,texts_silent hv,List.nil_append,hitem,hlists]
      exact ih h
    | true =>
      rw [List.filter_cons_of_pos hv] at h
      obtain ⟨hfirst,hrest⟩ := h
      obtain ⟨htexts,hparagraphs,_⟩ := only_lists hrest
      cases hlist : tok.isList with
      | true =>
        refine Or.inl ?_
        rw [textsAll,htexts,listTexts,listTexts,List.filter_cons_of_pos hlist,List.flatMap_cons]
      | false =>
        refine Or.inr ?_
        have hinline := hfirst.resolve_left (by rw [hlist]; exact Bool.false_ne_true)
        have hlists : listTexts (tok::tokens) = listTexts tokens := by
          rw [listTexts,List.filter_cons_of_neg (by rw [hlist]; exact Bool.false_ne_true)]
          rfl
        rw [textsAll,htexts,hlists,itemInline,List.findSome?_cons,List.findSome?_cons]
        cases tok with
        | paragraph inline => rfl
        | text raw inline =>
          rw [show paragraphTokens (.text raw inline) = none from rfl,hparagraphs]
          rfl
        | _ => cases hinline

end Arranged

section Kept

variable {stringify : Json → String}

theorem kept_leaf (text : List Char) (draft : Draft) (h : contentText draft.content = text) :
    Kept (· <:+: ·) [text] (contentsAll [.node draft []]) := by
  rw [contentsAll,contents,h]
  exact kept_single (fun t ht => by rw [List.mem_singleton.mp ht])

theorem cell_in_line {cell : String} {cells : List String} (h : cell ∈ cells) :
    cell.toList <:+: (cellLine cells).toList := by
  induction cells with
  | nil => cases h
  | cons first cells ih =>
    cases cells with
    | nil =>
      rw [List.mem_singleton.mp h,cellLine,String.intercalate_singleton]
    | cons second cells =>
      rw [cellLine,String.intercalate_cons_cons,String.toList_append,String.toList_append]
      rcases List.mem_cons.mp h with rfl | h
      · exact ⟨[],_,by rw [List.nil_append,List.append_assoc]⟩
      · exact (ih h).trans (List.suffix_append _ _).isInfix

theorem line_text (cells : List String) :
    contentText (plainContent (cellLine cells)) = (cellLine cells).toList := List.append_nil _

theorem kept_lines (lines : List (List String)) :
    Kept (· <:+: ·) (lines.flatten.map String.toList) (contentsAll (lines.map (fun cells =>
      .node ⟨"paragraph",plainContent (cellLine cells)⟩ []))) := by
  induction lines with
  | nil => exact .done _
  | cons cells lines ih =>
    rw [List.flatten_cons,List.map_append,List.map_cons,← List.singleton_append,
      contentsAll_append]
    refine kept_append ?_ ih
    rw [contentsAll,contents,line_text]
    refine kept_single fun t ht => ?_
    obtain ⟨cell,hcell,rfl⟩ := List.mem_map.mp ht
    exact cell_in_line hcell

mutual

theorem kept_token (tok : Token) (h : Orderly tok) :
    Kept (· <:+: ·) (texts false tok) (contentsAll (outlines stringify tok)) := by
  cases tok with
  | heading depth tokens => exact kept_leaf _ _ (inline_text stringify tokens [])
  | paragraph tokens => exact kept_leaf _ _ (inline_text stringify tokens [])
  | code lang text => exact kept_leaf _ _ (List.append_nil _)
  | blockquote tokens =>
    rw [texts,outlines,contentsAll_single,contents]
    exact .skip (kept_tokens tokens h)
  | hr => exact .done _
  | list ordered items => exact kept_items ordered items h
  | html => exact .done _
  | space => exact .done _
  | table header rows => exact kept_lines (header::rows)
  | text raw tokens => exact .done _
  | other raw => exact .done _

theorem kept_tokens (tokens : List Token) (h : OrderlyAll tokens) :
    Kept (· <:+: ·) (textsAll false tokens) (contentsAll (outlinesAll stringify tokens)) := by
  cases tokens with
  | nil => exact .done _
  | cons tok tokens =>
    rw [textsAll,outlinesAll,contentsAll_append]
    exact kept_append (kept_token tok h.1) (kept_tokens tokens h.2)

theorem kept_items (ordered : Bool) (items : List ListItem) (h : OrderlyItems items) :
    Kept (· <:+: ·) (itemTexts items) (contentsAll (itemOutlines stringify ordered items)) := by
  cases items with
  | nil => exact .done _
  | cons item items =>
    cases item with
    | mk task checked tokens =>
      obtain ⟨⟨harranged,hlists⟩,hrest⟩ := h
      rw [itemTexts,itemOutlines,itemOutline,contentsAll,contents]
      refine kept_append ?_ (kept_items ordered items hrest)
      have hnested := kept_lists tokens hlists
      rcases arranged_texts harranged with htexts | htexts
      · rw [htexts]
        exact .skip hnested
      · rw [htexts]
        refine .here ?_ (.skip hnested)
        have hkept : contentText (itemContent stringify task checked tokens) =
            inlinesText (itemInline tokens) := inline_text stringify _ _
        rw [hkept]

theorem kept_lists (tokens : List Token) (h : OrderlyLists tokens) :
    Kept (· <:+: ·) (listTexts tokens) (contentsAll (listOutlines stringify tokens)) := by
  cases tokens with
  | nil => exact .done _
  | cons sub tokens =>
    rw [listTexts,listOutlines,List.filter_cons]
    have hrest := kept_lists tokens h.2
    split
    · next hlist =>
      rw [List.flatMap_cons,contentsAll_append,← texts_item false hlist]
      exact kept_append (kept_token sub (h.1 hlist)) hrest
    · exact hrest

end

end Kept

end BlockDocs.PastedText
